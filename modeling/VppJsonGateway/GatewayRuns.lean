import VppJsonGateway.GatewayTurn
import VppJsonGateway.Lib.Careful

/-!
# Runs of the gateway

The gateway in operation: `Recover` in a new process, and then one turn of `Run` after the other,
while everything `Outside` happens; a crash leaves the journal, the files and Redis. Where a
property does not depend on the order of the parts of a turn, it is shown for a machine that is
`free` to run them in any order.

`Phases` says what has to be shown for a property that does depend on that order: `B` holds between
turns, and `C` from `Cleanup` on, or where `Cleanup` has run in the same second already.
-/

namespace VppJson

open Lib

namespace Gateway

/-! ## The machine -/

/-- The parts of a turn. -/
inductive Part (site : Site) (g : Gateway) : Prog Gateway Chance Unit → Prop
  | register : Part site g (register site)
  | receive {session : Session} (h : session ∈ g.sessions) : Part site g (receive site session)
  | deliver : Part site g deliver
  | startJob : Part site g (startJob site)
  | cleanup : Part site g (cleanup site)

/-- The gateway in operation. `CompleteWorker` is also called when the process ends. -/
def machine (w : World) (free : Prop) : Machine Gateway Chance where
  init g := ∃ now owner, 0 < now ∧ now + Limits.leaseSeconds < 2 ^ 63 ∧
    g = { uploads := { now }, owner }
  start g p := (g.ready = false ∧ p = recover w.toSite) ∨
    (g.ready = true ∧ (p = turn w.toSite ∨ p = completeWorker ∨ (free ∧ Part w.toSite g p)))
  env := Outside w
  crash := crash

/-- What holds in every state. -/
def Sane (w : World) (g : Gateway) : Prop :=
  Consistent w g ∧ 0 < g.uploads.now ∧ g.lastCleanup ≤ g.uploads.now

/-- One step of the main thread. -/
def Moves (w : World) (g t : Gateway) : Prop := ∃ a, Acts w a g t

section

variable {w : World} {a : Actor} {g t : Gateway} {α : Type}

/-- Other parties keep the state sane. -/
theorem Outside.sane (h : Outside w g t) (hg : Sane w g) : Sane w t :=
  ⟨h.consistent hg.1, hg.2.1.trans_le h.stable.uploads.now,
    h.stable.lastCleanup.trans_le (hg.2.2.trans h.stable.uploads.now)⟩

/-- The main thread does not set the clock. -/
theorem Acts.now_eq (h : Acts w a g t) : t.uploads.now = g.uploads.now := by
  obtain ⟨g', connected, owner, heffect, rfl⟩ := h
  change g'.uploads.now = g.uploads.now
  cases heffect with
  | transfer a hsteps => exact hsteps.1
  | welcome | reply | line =>
    obtain ⟨redis, log, heq⟩ := publishScript_eq _ _ g
    rw [heq]
  | stay | discard | enter | remove | enqueue | await | rewind | start | renew | hand | submit
    | collect | release | write | markDone | recovered | advance | unlink | drop | expire
    | swept => rfl

/-- Only `Run` itself notes the time. -/
theorem Acts.lastCleanup_eq (h : Acts w a g t) (ha : a ≠ .run) :
    t.lastCleanup = g.lastCleanup := by
  obtain ⟨g', connected, owner, heffect, rfl⟩ := h
  change g'.lastCleanup = g.lastCleanup
  cases heffect with
  | swept => exact absurd rfl ha
  | welcome | reply | line =>
    obtain ⟨redis, log, heq⟩ := publishScript_eq _ _ g
    rw [heq]
  | stay | discard | enter | remove | enqueue | await | rewind | transfer | start | renew | hand
    | submit | collect | release | write | markDone | recovered | advance | unlink | drop
    | expire => rfl

/-- `Cleanup` is noted with a time that has come. -/
theorem Acts.lastCleanup_le (h : Acts w a g t) (hg : g.lastCleanup ≤ g.uploads.now) :
    t.lastCleanup ≤ t.uploads.now := by
  by_cases ha : a = .run
  · subst ha
    have hnow := h.now_eq
    obtain ⟨g', connected, owner, heffect, rfl⟩ := h
    cases heffect with
    | stay => exact hg
    | transfer => exact hg.trans_eq hnow.symm
    | write => exact hg
    | markDone => exact hg
    | swept hpast => exact hpast
  · rw [h.lastCleanup_eq ha, h.now_eq]
    exact hg

/-- So does the main thread. -/
theorem Moves.sane (h : Moves w g t) (hg : Sane w g) : Sane w t := by
  obtain ⟨a, hact⟩ := h
  exact ⟨hact.consistent hg.1, hact.now_eq ▸ hg.2.1, hact.lastCleanup_le hg.2.2⟩

/-- So does a crash. -/
theorem Sane.crash (h : Sane w g) : Sane w g.crash := ⟨h.1.crash, h.2.1, Nat.zero_le _⟩

/-- A process that runs goes on to. -/
theorem Acts.ready (h : Acts w a g t) (hg : g.ready = true) : t.ready = true := by
  obtain ⟨g', connected, owner, heffect, rfl⟩ := h
  change g'.ready = true
  cases heffect with
  | recovered => rfl
  | welcome | reply | line =>
    obtain ⟨redis, log, heq⟩ := publishScript_eq _ _ g
    rw [heq]
    exact hg
  | stay | discard | enter | remove | enqueue | await | rewind | transfer | start | renew | hand
    | submit | collect | release | write | markDone | advance | unlink | drop | expire
    | swept => exact hg

/-- But for `CompleteWorker`, no function takes the result of a call. -/
theorem Acts.attended (h : Acts w a g t) (ha : a ≠ .completeWorker) (hg : Attended g) :
    Attended t := by
  obtain ⟨g', connected, owner, heffect, rfl⟩ := h
  change Attended g'
  cases heffect with
  | collect => exact absurd rfl ha
  | release => exact absurd rfl ha
  | submit => exact fun h => by cases h
  | welcome | reply | line =>
    obtain ⟨redis, log, heq⟩ := publishScript_eq _ _ g
    rw [heq]
    exact hg
  | stay | discard | enter | remove | enqueue | await | rewind | transfer | start | renew | hand
    | write | markDone | recovered | advance | unlink | drop | expire | swept => exact hg

/-! ## Phases of a turn -/

/-- What the surroundings do under a condition. -/
abbrev RestsIf (w : World) (calm : Gateway → Gateway → Prop) : Gateway → Gateway → Prop :=
  Relation.ReflTransGen fun g t => Outside w g t ∧ calm g t

/-- The condition leaves moves of the other parties. -/
theorem RestsIf.rests {calm : Gateway → Gateway → Prop} (h : RestsIf w calm g t) : Rests w g t :=
  Relation.ReflTransGen.mono (fun _ _ h => h.1) _ _ h

/-- A program of the main thread under a condition on the surroundings and on its steps. -/
abbrev Does (w : World) (calm ok G : Gateway → Gateway → Prop) {α : Type}
    (Q : α → Gateway → Prop) (p : Prog Gateway Chance α) (g : Gateway) : Prop :=
  p.FollowsIf ok (RestsIf w calm) G (Sane w) Q g

/-- What is known of the process between the parts of a turn. -/
def During (P : Gateway → Prop) (g : Gateway) : Prop := P g ∧ Attended g ∧ g.ready = true

/-- What has to be shown about the phases of a turn: `B` holds between turns, `S` once the
sessions that have expired are deleted, and `C` once `Run` has noted the time of that. `Receive`
may rely on the lease of its session where the surroundings are `careful` not to end it. -/
structure Phases (w : World) (calm ok G : Gateway → Gateway → Prop) (careful : Prop)
    (B S C : Gateway → Prop) : Prop where
  moves : ∀ {g t}, G g t → Moves w g t
  refl : ∀ g, G g g
  init : ∀ {g}, (machine w False).init g → B g
  crash : ∀ {g}, Sane w g → B g.crash
  outside : ∀ {g t}, B g → Outside w g t → B t
  waits : ∀ {g t}, S g → Outside w g t → calm g t → S t
  rests : ∀ {g t}, C g → Outside w g t → calm g t → C t
  lease : ∀ {g t} {s : Session}, careful → Outside w g t → calm g t → s ∈ g.sessions →
    g.uploads.now < s.expires → t.uploads.now < s.expires
  recover : ∀ {g t}, Sane w g → B g → Acts w .recover g t → ok g t → B t ∧ G g t
  complete : ∀ {g t}, Sane w g → B g → Acts w .completeWorker g t → ok g t → B t ∧ G g t
  skip : ∀ {g}, Sane w g → B g → g.lastCleanup = g.uploads.now → C g
  clean : ∀ {g}, Sane w g → During B g → g.lastCleanup < g.uploads.now →
    Does w calm ok G (fun _ t => During S t) (Gateway.cleanup w.toSite) g
  due : ∀ {g}, S g → g.lastCleanup < g.uploads.now
  swept : ∀ {g t}, Sane w g → S g → Acts w .run g t → ok g t → g.lastCleanup < t.lastCleanup →
    C t ∧ G g t
  register : ∀ {g t}, Sane w g → C g → Acts w .register g t → ok g t → C t ∧ G g t
  receive : ∀ {g t} {s : Session}, Sane w g → C g → s ∈ g.sessions →
    (careful → g.uploads.now < s.expires) → Acts w (.receive s.sid) g t → ok g t → C t ∧ G g t
  deliver : ∀ {g t}, Sane w g → C g → Acts w .deliver g t → ok g t → C t ∧ G g t
  startJob : ∀ {g}, During C g →
    Does w calm ok G (fun _ t => During C t) (Gateway.startJob w.toSite) g
  done : ∀ {g}, C g → B g

variable {calm ok G : Gateway → Gateway → Prop} {careful : Prop} {B S C : Gateway → Prop}

/-- What other parties keep holds while a function waits. -/
theorem During.rests {P : Gateway → Prop} (hP : ∀ {g t}, P g → Outside w g t → calm g t → P t)
    (h : During P g) (ht : RestsIf w calm g t) : During P t := by
  induction ht with
  | refl => exact h
  | tail _ hstep ih =>
    have hrest : Rests w _ _ := .single hstep.1
    exact ⟨hP ih.1 hstep.1 hstep.2, lasting_attended.rests ih.2.1 hrest,
      (Rests.stable hrest).ready.trans ih.2.2⟩

/-- A part of a turn other than `CompleteWorker`, with what it keeps. -/
theorem does_of_keeps {P : Gateway → Prop} {Q : α → Gateway → Prop} {p : Prog Gateway Chance α}
    (hp : Keeps w a Q p g) (ha : a ≠ .completeWorker)
    (hcalm : ∀ {g t}, P g → Outside w g t → calm g t → P t)
    (hacts : ∀ {g t}, Sane w g → P g → Acts w a g t → ok g t → P t ∧ G g t) (hg : During P g) :
    Does w calm ok G (fun a t => Q a t ∧ During P t) p g := by
  refine Prog.Follows.carry (R := Rests w) (fun h => RestsIf.rests h) And.left (During.rests hcalm) ?_ hp hg
  intro s t hs hF hact hok
  obtain ⟨hP, hG⟩ := hacts hs hF.1 hact hok
  exact ⟨⟨hP, hact.attended ha hF.2.1, hact.ready hF.2.2⟩, hG⟩

/-- `StartJob`, where each of its effects keeps what holds. -/
theorem does_startJob {P : Gateway → Prop}
    (hcalm : ∀ {g t}, P g → Outside w g t → calm g t → P t)
    (hacts : ∀ {g t}, Sane w g → P g → Acts w .startJob g t → ok g t → P t ∧ G g t)
    (hg : During P g) :
    Does w calm ok G (fun _ t => During P t) (Gateway.startJob w.toSite) g :=
  (does_of_keeps keeps_startJob (by intro h; cases h) hcalm hacts hg).mono fun _ _ h => h.2

/-- A step of the main thread that reads. -/
theorem does_read {P : Gateway → Prop} (hrefl : ∀ g, G g g)
    (hcalm : ∀ {g t}, P g → Outside w g t → calm g t → P t) (hg : During P g) {f : Gateway → α} :
    Does w calm ok G (fun a t => During P t ∧ Sane w t ∧ a = f t) (.read f) g :=
  Prog.FollowsIf.read hrefl fun _ ht hs => ⟨hg.rests hcalm ht, hs, rfl⟩

/-- What is known of the sessions that are still to be received from. -/
def Awaits (careful : Prop) (sessions : List Session) (g : Gateway) : Prop :=
  ∀ s ∈ sessions, s ∈ g.sessions ∧ Utf8.Valid s.sid ∧ (careful → g.uploads.now < s.expires)

namespace Phases

variable (h : Phases w calm ok G careful B S C)

include h

/-- Sessions that await their turn still do after a move of another party. -/
theorem awaits {sessions : List Session} (hg : Awaits careful sessions g)
    (ht : Outside w g t) (hcalm : calm g t) : Awaits careful sessions t := by
  intro s hs
  obtain ⟨hmem, hsid, hlive⟩ := hg s hs
  exact ⟨ht.stable.sessions ▸ hmem, hsid, fun hc => h.lease hc ht hcalm hmem (hlive hc)⟩

/-- `Receive` of the sessions that are live. -/
theorem receiveAll {sessions : List Session} (hg : During C g) (hawaits : Awaits careful sessions g) :
    Does w calm ok G (fun _ t => During C t) (.forEach sessions (Gateway.receive w.toSite)) g := by
  refine (Prog.FollowsIf.forEach (J := fun rest t => During C t ∧ Awaits careful rest t) ?_
    ⟨hg, hawaits⟩).mono fun _ _ h => h.1
  rintro s rest t ⟨ht, hrest⟩
  obtain ⟨hs, hsid, hlive⟩ := hrest s List.mem_cons_self
  refine (does_of_keeps (P := fun t => C t ∧ Awaits careful (s :: rest) t) (keeps_receive hs hsid)
    (by intro h; cases h) ?_ ?_ ⟨⟨ht.1, hrest⟩, ht.2⟩).mono ?_
  · exact fun hP hout hcalm => ⟨h.rests hP.1 hout hcalm, h.awaits hP.2 hout hcalm⟩
  · intro g t hsane hP hact hok
    obtain ⟨hmem, -, hlive⟩ := hP.2 s List.mem_cons_self
    obtain ⟨hC, hG⟩ := h.receive hsane hP.1 hmem hlive hact hok
    refine ⟨⟨hC, fun s' hs' => ?_⟩, hG⟩
    rw [hact.sessions_receive, hact.now_eq]
    exact hP.2 s' hs'
  · rintro _ t ⟨-, ⟨hC, hawaits⟩, hrest⟩
    exact ⟨⟨hC, hrest⟩, fun s hs => hawaits s (List.mem_cons_of_mem _ hs)⟩

/-- A turn after `Cleanup`. -/
theorem rest (hg : During C g) : Does w calm ok G (fun _ t => During C t) (do
    Gateway.register w.toSite
    let now ← clock
    let sessions ← .read fun g => g.sessions.filter (now < ·.expires)
    .forEach sessions (Gateway.receive w.toSite)
    Gateway.deliver
    Gateway.startJob w.toSite) g := by
  refine Prog.FollowsIf.seq ?_ (does_of_keeps keeps_register (by intro h; cases h) h.rests
    h.register hg)
  rintro _ t ⟨-, ht⟩
  refine Prog.FollowsIf.seq ?_ (does_read h.refl h.rests ht)
  rintro now t ⟨ht, -, rfl⟩
  refine Prog.FollowsIf.seq (Q := fun sessions t => During C t ∧ Awaits careful sessions t) ?_ ?_
  · rintro sessions t ⟨ht, hawaits⟩
    refine Prog.FollowsIf.seq ?_ (h.receiveAll ht hawaits)
    intro _ t ht
    refine Prog.FollowsIf.seq ?_ (does_of_keeps keeps_deliver (by intro h; cases h) h.rests
      h.deliver ht)
    rintro _ t ⟨-, ht⟩
    exact h.startJob ht
  · -- Between the clock and the query, no lease of the sessions ends.
    have hlive : ∀ {t'}, RestsIf w calm t t' → careful → ∀ s ∈ t'.sessions,
        t.uploads.now < s.expires → t'.uploads.now < s.expires := by
      intro t' ht' hc
      induction ht' with
      | refl => exact fun _ _ hlive => hlive
      | tail _ hstep ih =>
        intro s hs hlive
        rw [hstep.1.stable.sessions] at hs
        exact h.lease hc hstep.1 hstep.2 hs (ih s hs hlive)
    refine Prog.FollowsIf.read h.refl fun t' ht' hsane => ⟨ht.rests h.rests ht', fun s hs => ?_⟩
    obtain ⟨hmem, hexpires⟩ := List.mem_filter.1 hs
    exact ⟨hmem, hsane.1.valid_sid hmem, fun hc => hlive ht' hc s hmem (of_decide_eq_true hexpires)⟩

/-- `Run` notes the time of a cleanup. -/
theorem note (hg : During S g) : Does w calm ok G (fun _ t => During C t)
    (.modify fun t => { t with lastCleanup := g.uploads.now }) g := by
  intro t ht hsane c hok
  obtain ⟨⟨hS, hlast, hpast⟩, hattended, hready⟩ := During.rests
    (P := fun t => S t ∧ t.lastCleanup < g.uploads.now ∧ g.uploads.now ≤ t.uploads.now)
    (fun hP hout hcalm => ⟨h.waits hP.1 hout hcalm, hout.stable.lastCleanup.trans_lt hP.2.1,
      hP.2.2.trans hout.stable.uploads.now⟩) ⟨⟨hg.1, h.due hg.1, le_rfl⟩, hg.2⟩ ht
  have hact : Acts w .run t { t with lastCleanup := g.uploads.now } :=
    (Effect.swept hpast).acts
  obtain ⟨hC, hG⟩ := h.swept hsane hS hact hok hlast
  exact ⟨hG, hC, hattended, hready⟩

/-- The loop of `Run` on a connection. -/
theorem serve (hg : During B g) : Does w calm ok G (fun _ t => During B t) (Gateway.serve w.toSite) g := by
  have hB : ∀ {g t}, B g → Outside w g t → calm g t → B t := fun hB hout _ => h.outside hB hout
  have hend : ∀ {g}, During C g → Does w calm ok G (fun _ t => During B t) _ g := fun hC =>
    (h.rest hC).mono fun _ _ ht => ⟨h.done ht.1, ht.2⟩
  refine Prog.FollowsIf.seq (Q := fun now t => During (fun t => B t ∧
    (now = t.lastCleanup → C t) ∧ t.lastCleanup ≤ now ∧ now ≤ t.uploads.now) t) ?_ ?_
  · intro now t ht
    have hrests : ∀ {g t}, B g ∧ (now = g.lastCleanup → C g) ∧ g.lastCleanup ≤ now ∧
        now ≤ g.uploads.now → Outside w g t → calm g t → B t ∧ (now = t.lastCleanup → C t) ∧
          t.lastCleanup ≤ now ∧ now ≤ t.uploads.now := fun hP hout hcalm =>
      ⟨h.outside hP.1 hout,
        fun hnow => h.rests (hP.2.1 (hnow.trans hout.stable.lastCleanup)) hout hcalm,
        hout.stable.lastCleanup.trans_le hP.2.2.1, hP.2.2.2.trans hout.stable.uploads.now⟩
    refine Prog.FollowsIf.seq ?_ (does_read h.refl hrests ht)
    rintro last t ⟨ht, hsane, rfl⟩
    obtain ⟨⟨htB, htC, hlast, hpast⟩, hduring⟩ := ht
    split_ifs with hnow
    · have hdue : t.lastCleanup < t.uploads.now :=
        (lt_of_le_of_ne hlast (Ne.symm hnow)).trans_le hpast
      refine Prog.FollowsIf.seq ?_ (h.clean hsane ⟨htB, hduring⟩ hdue)
      intro _ t ht
      refine Prog.FollowsIf.seq ?_ (does_read h.refl h.waits ht)
      rintro now t ⟨ht, hsane, rfl⟩
      exact Prog.FollowsIf.seq (fun _ t ht => hend ht) (h.note ht)
    · exact hend ⟨htC (not_not.1 hnow), hduring⟩
  · refine Prog.FollowsIf.read h.refl fun t ht hsane => ?_
    have hB := hg.rests hB ht
    exact ⟨⟨hB.1, fun hnow => h.skip hsane hB.1 hnow.symm, hsane.2.2, le_rfl⟩, hB.2⟩

/-- `CompleteWorker` between two turns. -/
theorem completeWorker (hg : During B g) :
    Does w calm ok G (fun _ t => During B t) Gateway.completeWorker g := by
  refine (Prog.Follows.carry (R := Rests w) (F := fun t => B t ∧ t.ready = true)
    (fun h => RestsIf.rests h) And.left ?_ ?_ (keeps_completeWorker hg.2.1) ⟨hg.1, hg.2.2⟩).mono
    fun _ t ht => ⟨ht.2.1, ht.1, ht.2.2⟩
  · intro s t hF ht
    induction ht with
    | refl => exact hF
    | tail _ hstep ih =>
      exact ⟨h.outside ih.1 hstep.1, hstep.1.stable.ready.trans ih.2⟩
  · intro s t hs hF hact hok
    obtain ⟨hB, hG⟩ := h.complete hs hF.1 hact hok
    exact ⟨⟨hB, hact.ready hF.2⟩, hG⟩

/-- The loop of `Run`. -/
theorem turn (hg : During B g) :
    Does w calm ok G (fun _ t => During B t) (Gateway.turn w.toSite) g := by
  have hB : ∀ {g t}, B g → Outside w g t → calm g t → B t := fun hB hout _ => h.outside hB hout
  refine Prog.FollowsIf.seq ?_ (h.completeWorker hg)
  intro _ t ht
  refine Prog.FollowsIf.seq ?_ (does_of_keeps (a := .recover) (keeps_connect lasting_true trivial)
    (by intro h; cases h) hB h.recover ht)
  rintro linked t ⟨-, ht⟩
  cases linked with
  | false => exact ht
  | true =>
    refine Prog.FollowsIf.seq ?_ (does_of_keeps (a := .recover) (keeps_ownNamespace lasting_true
      (fun _ => trivial) trivial) (by intro h; cases h) hB h.recover ht)
    rintro mine t ⟨-, ht⟩
    cases mine with
    | false => exact ht
    | true => exact h.serve ht

/-- `Recover` in a new process. -/
theorem recovers (hg : B g) (hattended : Attended g) (hidle : g.future = none) :
    Does w calm ok G (fun _ t => During B t) (Gateway.recover w.toSite) g := by
  refine (Prog.Follows.carry (R := Rests w) (F := fun t => B t ∧ Attended t)
    (fun h => RestsIf.rests h) And.left ?_ ?_ (keeps_recover hidle) ⟨hg, hattended⟩).mono
    fun _ t ht => ⟨ht.2.1, ht.2.2, ht.1⟩
  · intro s t hF ht
    induction ht with
    | refl => exact hF
    | tail _ hstep ih =>
      exact ⟨h.outside ih.1 hstep.1, lasting_attended.rests ih.2 (.single hstep.1)⟩
  · intro s t hs hF hact hok
    obtain ⟨hB, hG⟩ := h.recover hs hF.1 hact hok
    exact ⟨⟨hB, hact.attended (by intro h; cases h) hF.2⟩, hG⟩

end Phases

/-! ## Soundness -/

/-- What holds wherever no program runs. -/
def Between (B : Gateway → Prop) (g : Gateway) : Prop :=
  B g ∧ Attended g ∧ (g.ready = false → g.future = none)

theorem During.between (h : During B g) : Between B g :=
  ⟨h.1, h.2.1, fun hready => by rw [h.2.2] at hready; cases hready⟩

/-- What holds between two functions is kept by the other parties. -/
theorem Between.outside (hB : B t) (h : Between B g) (ht : Outside w g t) : Between B t :=
  ⟨hB, lasting_attended.rests h.2.1 (.single ht), fun hready =>
    (ht.stable.idle (h.2.2 (ht.stable.ready.symm.trans hready))).1⟩

/-- The state is sane at first, and the worker idle. -/
theorem sane_of_init {free : Prop} (h : (machine w free).init g) : Sane w g ∧
    Attended g ∧ g.future = none := by
  obtain ⟨now, owner, hpos, hbound, rfl⟩ := h
  refine ⟨⟨?_, hpos, Nat.zero_le _⟩, fun _ => rfl, rfl⟩
  have hlease : Limits.leaseSeconds = 3600 := rfl
  have hnow : now + 600 < 2 ^ 63 := by omega
  have hsound : Uploads.Sound w.env { now } := Uploads.sound_of_init ⟨rfl, rfl, hnow⟩
  exact {
    uploads := hsound
    issued := fun _ hs => absurd hs List.not_mem_nil
    sids := List.nodup_nil
    leased := fun _ hs => absurd hs List.not_mem_nil
    keys := List.nodup_nil
    owned := fun _ hj => absurd hj List.not_mem_nil
    named := fun _ hj => absurd hj List.not_mem_nil
    placed := fun _ hj => absurd hj List.not_mem_nil
    unsized := fun _ hj => absurd hj List.not_mem_nil
    noted := fun _ he => absurd he List.not_mem_nil
    active := fun hf => by cases hf }

/-- A property of the phases is one of the runs. -/
theorem Phases.soundIf (h : Phases w calm ok G careful B S C) :
    (machine w False).SoundIf calm ok G (Sane w) (Between B) where
  init hg := by
    obtain ⟨hsane, hattended, hidle⟩ := sane_of_init hg
    exact ⟨hsane, h.init hg, hattended, fun _ => hidle⟩
  env hs hout := Outside.sane hout hs
  idle _ hB hout := hB.outside (h.outside hB.1 hout) hout
  own hs hG := (h.moves hG).sane hs
  crash hs := ⟨hs.crash, h.crash hs, fun _ => rfl, fun _ => rfl⟩
  start := by
    rintro g p hs ⟨hB, hattended, hidle⟩ (⟨hready, rfl⟩ | ⟨hready, rfl | rfl | ⟨hfree, -⟩⟩)
    · exact (h.recovers hB hattended (hidle hready)).mono fun _ _ ht => ht.between
    · exact (h.turn ⟨hB, hattended, hready⟩).mono fun _ _ ht => ht.between
    · exact (h.completeWorker ⟨hB, hattended, hready⟩).mono fun _ _ ht => ht.between
    · exact hfree.elim

/-- Without a condition, and in any order of the parts of a turn. -/
theorem phases_moves (w : World) : Phases w (fun _ _ => True) (fun _ _ => True) (Moves w) False
    (fun _ => True) (fun g => g.lastCleanup < g.uploads.now) (fun _ => True) where
  moves h := h
  refl g := ⟨.run, Acts.refl g⟩
  init _ := trivial
  crash _ := trivial
  outside _ _ := trivial
  waits h hout _ := hout.stable.lastCleanup.trans_lt (h.trans_le hout.stable.uploads.now)
  rests _ _ _ := trivial
  lease hc := hc.elim
  recover _ _ h _ := ⟨trivial, _, h⟩
  complete _ _ h _ := ⟨trivial, _, h⟩
  skip _ _ _ := trivial
  clean _ hg hdue := (does_of_keeps (P := fun g => g.lastCleanup < g.uploads.now) keeps_cleanup
    (by intro h; cases h)
    (fun h hout _ => hout.stable.lastCleanup.trans_lt (h.trans_le hout.stable.uploads.now))
    (fun _ hP h _ => ⟨by
      rw [h.lastCleanup_eq (by intro h; cases h), h.now_eq]
      exact hP, _, h⟩) ⟨hdue, hg.2⟩).mono
    fun _ _ h => h.2
  due h := h
  swept _ _ h _ _ := ⟨trivial, _, h⟩
  register _ _ h _ := ⟨trivial, _, h⟩
  receive _ _ _ _ h _ := ⟨trivial, _, h⟩
  deliver _ _ h _ := ⟨trivial, _, h⟩
  startJob hg := does_startJob (fun _ _ _ => trivial) (fun _ _ h _ => ⟨trivial, _, h⟩) hg
  done _ := trivial

/-- Every step of the gateway is an effect of one of its functions, in any order of its parts. -/
theorem machine_soundIf (w : World) (free : Prop) :
    (machine w free).SoundIf (fun _ _ => True) (fun _ _ => True) (Moves w) (Sane w)
      (Between fun _ => True) := by
  have hbase := (phases_moves w).soundIf
  refine { hbase with init := hbase.init, start := ?_ }
  rintro g p hs hB (hrecover | ⟨hready, hturn | hdone | ⟨-, hpart⟩⟩)
  · exact hbase.start hs hB (.inl hrecover)
  · exact hbase.start hs hB (.inr ⟨hready, .inl hturn⟩)
  · exact hbase.start hs hB (.inr ⟨hready, .inr (.inl hdone)⟩)
  · have hpart' : ∀ {a : Actor}, a ≠ .completeWorker → Keeps w a (fun _ _ => True) p g →
        Does w (fun _ _ => True) (fun _ _ => True) (Moves w) (fun _ => Between fun _ => True) p g :=
      fun ha hp => (does_of_keeps (P := fun _ => True) hp ha (fun _ _ _ => trivial)
        (fun _ _ h _ => ⟨trivial, _, h⟩) ⟨trivial, hB.2.1, hready⟩).mono fun _ _ h => h.2.between
    cases hpart with
    | register => exact hpart' (by intro h; cases h) keeps_register
    | receive hmem =>
      exact hpart' (by intro h; cases h) (keeps_receive hmem (hs.1.valid_sid hmem))
    | deliver => exact hpart' (by intro h; cases h) keeps_deliver
    | startJob => exact hpart' (by intro h; cases h) keeps_startJob
    | cleanup =>
      exact hpart' (by intro h; cases h) (keeps_cleanup.mono fun _ _ _ => trivial)

/-- An invariant of the runs under a condition, in any order of the parts of a turn. -/
theorem invariantIf {free : Prop} {J : Gateway → Prop}
    (hinit : ∀ {g}, (machine w free).init g → J g)
    (hout : ∀ {g t}, Sane w g → J g → Outside w g t → J t)
    (hact : ∀ {g t}, Sane w g → J g → Moves w g t → ok g t → J t)
    (hcrash : ∀ {g}, Sane w g → J g → J g.crash)
    {x : Gateway × Option (Prog Gateway Chance Unit)} (hx : (machine w free).ReachableIf calm ok x) :
    Sane w x.1 ∧ J x.1 := by
  obtain ⟨hholds, hJ⟩ := ((machine_soundIf w free).weaken (fun _ => trivial)
    fun _ => trivial).reachable hinit hout hact hcrash hx
  exact ⟨hholds.1, hJ⟩

/-- An invariant of the gateway, in any order of the parts of a turn. -/
theorem invariant {free : Prop} {J : Gateway → Prop}
    (hinit : ∀ {g}, (machine w free).init g → J g)
    (hout : ∀ {g t}, Sane w g → J g → Outside w g t → J t)
    (hact : ∀ {g t a}, Sane w g → J g → Effect w g a t → J t)
    (hlink : ∀ {g connected owner}, J g → J { g with connected, owner })
    (hcrash : ∀ {g}, Sane w g → J g → J g.crash)
    {x : Gateway × Option (Prog Gateway Chance Unit)} (hx : (machine w free).Reachable x) :
    Sane w x.1 ∧ J x.1 := by
  refine invariantIf hinit hout ?_ hcrash hx.reachableIf
  intro g t hs hJ hmove _
  obtain ⟨a, g', connected, owner, heffect, rfl⟩ := hmove
  exact hlink (hact hs hJ heffect)

end

/-! ## Scripts -/

/-- An event of a run without failures; a turn may be cut off after some steps. -/
inductive Event where
  | tick (now : Nat)
  | append (key : Key) (json : Bytes)
  | finish (response : Response)
  | recover
  | turn
  | cut (steps : Nat)

/-- A program run to its end with no failure. -/
def complete (p : Prog Gateway Chance Unit) (g : Gateway) : Option Gateway :=
  if (p.advance {} 400 g).1.isDone then some (p.advance {} 400 g).2 else none

/-- What an event makes of a state where no program runs. -/
def Event.play (w : World) (g : Gateway) : Event → Option Gateway
  | .tick now =>
    if g.uploads.now ≤ now ∧ now + Limits.leaseSeconds < 2 ^ 63 then
      some { g with uploads := { g.uploads with now := now } }
    else none
  | .append key json =>
    if key.isInput then
      some { g.setStream key ((g.redis key).add [("json", json)]) with
        log := .appended key ((g.redis key).next [("json", json)]) :: g.log }
    else none
  | .finish response =>
    match g.future with
    | none => none
    | some task =>
      if task.outcome = none then
        some { g with
          spool := if (task.run w.env response []).2.opened then
            g.spool.insert task.path (task.run w.env response []).2.file else g.spool
          future := some { task with outcome := some (task.run w.env response []).1 } }
      else none
  | .recover => if g.ready then none else complete (Gateway.recover w.toSite) g
  | .turn => if g.ready then complete (Gateway.turn w.toSite) g else none
  | .cut steps =>
    if g.ready then some ((Gateway.turn w.toSite).advance {} steps g).2.crash else none

/-- Whether the steps of an event are all of a certain kind. -/
def Event.checks (w : World) (check : Gateway → Gateway → Bool) (g : Gateway) : Event → Bool
  | .recover => (Gateway.recover w.toSite).checks {} check 400 g
  | .turn => (Gateway.turn w.toSite).checks {} check 400 g
  | .cut steps => (Gateway.turn w.toSite).checks {} check steps g
  | _ => true

/-- Events one after the other. -/
def script (w : World) : List Event → Gateway → Option Gateway
  | [], g => some g
  | event :: events, g => (event.play w g).bind (script w events)

/-- Whether the steps of all events are of a certain kind. -/
def scriptChecks (w : World) (check : Gateway → Gateway → Bool) : List Event → Gateway → Bool
  | [], _ => true
  | event :: events, g =>
    event.checks w check g && (event.play w g).all (scriptChecks w check events)

/-- The states before and after a step of the turn that follows events, where the steps until then
are of a certain kind. -/
def scriptStep (w : World) (check : Gateway → Gateway → Bool) (events : List Event) (n : Nat)
    (g : Gateway) : Option (Gateway × Gateway) :=
  (script w events g).bind fun t =>
    if t.ready && scriptChecks w check events g &&
        (Gateway.turn w.toSite).checks {} check (n + 1) t &&
        ((Gateway.turn w.toSite).advance {} n t).1.waits then
      some (((Gateway.turn w.toSite).advance {} n t).2,
        ((Gateway.turn w.toSite).advance {} (n + 1) t).2)
    else none

section

variable {w : World} {free : Prop} {calm ok : Gateway → Gateway → Prop} {g t : Gateway}
  {check : Gateway → Gateway → Bool}

/-- An event is a run of the machine. -/
theorem run_play (hcheck : ∀ s t, check s t = true → ok s t) {event : Event}
    (hserves : ∀ request response, event = .finish response → w.serves request response)
    (hok : event.checks w check g = true) (h : event.play w g = some t) :
    Relation.ReflTransGen ((machine w free).StepIf calm ok) (g, none) (t, none) := by
  cases event with
  | tick now =>
    simp only [Event.play, Option.ite_none_right_eq_some, Option.some.injEq] at h
    obtain ⟨⟨hnow, hbound⟩, rfl⟩ := h
    exact .single (.idle (.tick hnow hbound))
  | append key json =>
    simp only [Event.play, Option.ite_none_right_eq_some, Option.some.injEq] at h
    obtain ⟨hkey, rfl⟩ := h
    exact .single (.idle (.append hkey _))
  | finish response =>
    simp only [Event.play] at h
    cases hfuture : g.future with
    | none =>
      rw [hfuture] at h
      cases h
    | some task =>
      rw [hfuture] at h
      simp only [Option.ite_none_right_eq_some, Option.some.injEq] at h
      obtain ⟨hgoing, rfl⟩ := h
      exact .single (.idle (.finish hfuture hgoing (hserves _ response rfl) []))
  | recover =>
    simp only [Event.play, complete, Option.ite_none_left_eq_some, Option.ite_none_right_eq_some,
      Option.some.injEq] at h
    obtain ⟨hready, hdone, rfl⟩ := h
    exact Machine.run_done hcheck (.inl ⟨Bool.not_eq_true _ ▸ hready, rfl⟩) hok hdone
  | turn =>
    simp only [Event.play, complete, Option.ite_none_right_eq_some, Option.some.injEq] at h
    obtain ⟨hready, hdone, rfl⟩ := h
    exact Machine.run_done hcheck (.inr ⟨hready, .inl rfl⟩) hok hdone
  | cut steps =>
    simp only [Event.play, Option.ite_none_right_eq_some, Option.some.injEq] at h
    obtain ⟨hready, rfl⟩ := h
    have hturn : (Gateway.turn w.toSite).checks ({} : Chance) check steps g = true := hok
    exact .head (.start (.inr ⟨hready, .inl rfl⟩))
      ((Machine.run_advance hcheck _ steps _ g hturn).tail .crash)

/-- So are events one after the other. -/
theorem runIf_script (hcheck : ∀ s t, check s t = true → ok s t) {events : List Event}
    (hserves : ∀ request response, .finish response ∈ events → w.serves request response)
    (hok : scriptChecks w check events g = true) (h : script w events g = some t) :
    Relation.ReflTransGen ((machine w free).StepIf calm ok) (g, none) (t, none) := by
  induction events generalizing g with
  | nil =>
    cases h
    exact .refl
  | cons event events ih =>
    obtain ⟨u, hplay, hrest⟩ := Option.bind_eq_some_iff.1 h
    obtain ⟨hfirst, hall⟩ := (Bool.and_eq_true _ _).mp hok
    rw [hplay] at hall
    refine (run_play hcheck (fun request response heq => ?_) hfirst hplay).trans
      (ih (fun request response hmem => hserves request response (.tail _ hmem)) hall hrest)
    exact hserves request response (heq ▸ List.mem_cons_self)

/-- Without a kind to check every event passes. -/
theorem scriptChecks_true (events : List Event) :
    ∀ g, scriptChecks w (fun _ _ => true) events g = true := by
  induction events with
  | nil => exact fun _ => rfl
  | cons event events ih =>
    intro g
    have hfirst : event.checks w (fun _ _ => true) g = true := by
      cases event with
      | recover => exact Prog.checks_true _ _ _ _
      | turn => exact Prog.checks_true _ _ _ _
      | cut steps => exact Prog.checks_true _ _ _ _
      | tick | append | finish => rfl
    rw [scriptChecks, hfirst, Bool.true_and]
    cases event.play w g with
    | none => rfl
    | some u => exact ih u

/-- What a script reaches from an empty state. -/
theorem reachable_script {events : List Event} {now : Nat} (hpos : 0 < now)
    (hbound : now + Limits.leaseSeconds < 2 ^ 63)
    (hserves : ∀ request response, .finish response ∈ events → w.serves request response)
    (h : script w events { uploads := { now } } = some t) : (machine w free).Reachable (t, none) := by
  have hrun : Relation.ReflTransGen ((machine w free).StepIf (fun _ _ => True) fun _ _ => True)
      ({ uploads := { now } }, none) (t, none) :=
    runIf_script (fun _ _ _ => trivial) hserves (scriptChecks_true events _) h
  exact ⟨_, ⟨now, none, hpos, hbound, rfl⟩,
    Relation.ReflTransGen.mono (fun _ _ h => h.step) _ _ hrun⟩

/-- A step of a turn after events. -/
theorem stepIf_script (hcheck : ∀ s t, check s t = true → ok s t) {events : List Event}
    {n now : Nat} {r : Gateway × Gateway} (hpos : 0 < now)
    (hbound : now + Limits.leaseSeconds < 2 ^ 63)
    (hserves : ∀ request response, .finish response ∈ events → w.serves request response)
    (h : scriptStep w check events n { uploads := { now } } = some r) :
    ∃ p q, (machine w free).ReachableIf calm ok (r.1, some p) ∧
      (machine w free).StepIf calm ok (r.1, some p) (r.2, some q) := by
  obtain ⟨t, ht, hr⟩ := Option.bind_eq_some_iff.1 h
  simp only [Option.ite_none_right_eq_some, Option.some.injEq, Bool.and_eq_true] at hr
  obtain ⟨⟨⟨⟨hready, hchecks⟩, hturn⟩, hwaits⟩, rfl⟩ := hr
  refine ⟨_, _, ⟨_, ⟨now, none, hpos, hbound, rfl⟩, ?_⟩,
    Machine.stepIf_advance hcheck _ n _ t hturn hwaits⟩
  refine (runIf_script hcheck hserves hchecks ht).trans (.head (.start (.inr ⟨hready, .inl rfl⟩)) ?_)
  exact Machine.run_advance hcheck _ n _ t (Prog.checks_le (Nat.le_succ n) hturn)

end

/-- The digests of the requests `a` and `b` of the first session below. -/
def sampleRunEnv : Env where
  strtod _ := none
  digest data :=
    if data = utf8 "07070707070707070707070707070700:a" then
      ⟨[0x8A, 0x9D, 0xEB, 0x0D, 0xFE, 0xE5, 0x77, 0xF4, 0x6E, 0xE9, 0xFD, 0x61, 0xC2,
      0x97, 0xA6, 0x9B, 0x97, 0x84, 0x26, 0xC1, 0x83, 0x36, 0x31, 0x2B, 0xD4, 0x59,
      0x35, 0x5E, 0x46, 0x9D, 0xA6, 0x75], rfl⟩
    else if data = utf8 "07070707070707070707070707070700:b" then
      ⟨[0xB3, 0xAF, 0xDC, 0xED, 0xEC, 0x26, 0xF0, 0xE8, 0x0D, 0x40, 0x74, 0xE4, 0x3D,
      0x82, 0x94, 0x92, 0x53, 0xA3, 0x11, 0xD4, 0x14, 0xC8, 0xCD, 0x3E, 0xE5, 0xC8,
      0x5C, 0xDB, 0xA7, 0x69, 0xAF, 0x0E], rfl⟩
    else ⟨List.replicate 32 0, length_zeros⟩

/-- A gateway with one client. -/
def sampleSite : Site where
  env := sampleRunEnv
  space := "vpp"
  state := "state"
  backend := .mock
  clients := [("c1", "secret")]
  owner := "gw"
  random n := ⟨List.replicate 15 7 ++ [UInt8.ofNat n], by simp⟩

/-- The sample gateway with a backend that answers nothing. -/
def sampleWorld : World := { sampleSite with serves := fun _ response => response = {}, lossy := False }

theorem stepIf_sample (calm ok : Gateway → Gateway → Prop) {check : Gateway → Gateway → Bool}
    (hcheck : ∀ s t, check s t = true → ok s t) {events : List Event} {n : Nat}
    {r : Gateway × Gateway} (hserves : ∀ response, .finish response ∈ events → response = {})
    (h : scriptStep sampleWorld check events n { uploads := { now := 1000 } } = some r) :
    ∃ p q, (machine sampleWorld False).ReachableIf calm ok (r.1, some p) ∧
      (machine sampleWorld False).StepIf calm ok (r.1, some p) (r.2, some q) :=
  stepIf_script hcheck (by decide) (by decide) (fun _ => hserves) h

/-- The registration of the client. -/
def sampleRegistration : Bytes :=
  (Json.object [("id", .str "r1"), ("method", .str "session.register"),
    ("params", Json.object [("client", .str "c1"), ("token", .str "secret"),
      ("protocol", .int 1)])]).dump

/-- A request of the client without parameters. -/
def sampleRequest (id method : Bytes) : Bytes :=
  (Json.object [("id", .str id), ("method", .str method)]).dump

/-- The requests of the first session. -/
def sampleRequests : Key := .requests "c1" (sampleSite.randomId 0)

end Gateway

end VppJson
