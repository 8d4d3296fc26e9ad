import VppJsonGateway.GatewayRuns

/-!
# Execution

Jobs are executed in the order in which they were journaled, each at most once. Two facts make
this: `StartJob` marks the jobs in the order of the journal (`Ordered`), which any interleaving of
effects keeps; and between marking a job and handing it over it marks and hands over nothing else
(`Paired`), which depends on the order of its steps.
-/

namespace VppJson

open Lib

/-! ## Histories -/

/-- The request that was journaled. -/
def Happening.inserted? : Happening → Option (Bytes × Bytes)
  | .inserted sid id => some (sid, id)
  | _ => none

/-- The job that was marked running. -/
def Happening.started? : Happening → Option (Bytes × Bytes)
  | .started sid id => some (sid, id)
  | _ => none

/-- The job that was handed over. -/
def Happening.executed? : Happening → Option (Bytes × Bytes)
  | .executed sid id => some (sid, id)
  | _ => none

/-- What a kind of happening was about, in the order in which it happened. -/
def keysOf (kind : Happening → Option (Bytes × Bytes)) (log : List Happening) : List (Bytes × Bytes) :=
  (log.filterMap kind).reverse

/-- A new happening comes last. -/
theorem keysOf_cons (kind : Happening → Option (Bytes × Bytes)) (h : Happening)
    (log : List Happening) : keysOf kind (h :: log) = keysOf kind log ++ (kind h).toList := by
  unfold keysOf
  cases hkind : kind h with
  | none => simp [hkind]
  | some k => simp [hkind]

/-- The job that was marked last, when it is not handed over yet. -/
def awaiting : List Happening → Option (Bytes × Bytes)
  | [] => none
  | .started sid id :: _ => some (sid, id)
  | .executed _ _ :: _ => none
  | _ :: log => awaiting log

/-- Every job that was handed over is the one that was marked last. -/
def Paired : List Happening → Prop
  | [] => True
  | h :: log => Paired log ∧ ∀ k, h.executed? = some k → awaiting log = some k

/-- The jobs are handed over in the order in which they were marked. -/
theorem Paired.sublist {log : List Happening} (h : Paired log) : ∃ s,
    keysOf Happening.started? log = s ++ (awaiting log).toList ∧
      (keysOf Happening.executed? log).Sublist s := by
  induction log with
  | nil => exact ⟨[], rfl, .refl _⟩
  | cons e log ih =>
    obtain ⟨s, hs, hsub⟩ := ih h.1
    rw [keysOf_cons, keysOf_cons]
    cases e with
    | started sid id =>
      refine ⟨_, rfl, ?_⟩
      rw [hs]
      exact (List.append_nil _).symm ▸ hsub.trans (List.sublist_append_left _ _)
    | executed sid id =>
      rw [h.2 (sid, id) rfl] at hs
      refine ⟨s ++ [(sid, id)], ?_, hsub.append (.refl _)⟩
      rw [hs]
      rfl
    | appended | published | inserted | awaited | rewound | dropped =>
      exact ⟨s, (List.append_nil _).trans hs, (List.append_nil _).symm ▸ hsub⟩

namespace Gateway

/-! ## Guarantees beside the effects -/

section

variable {w : World} {g t : Gateway} {G : Gateway → Gateway → Prop} {α : Type}

/-- A guarantee that every function but `StartJob` gives by its effects alone. -/
def Innocent (w : World) (G : Gateway → Gateway → Prop) : Prop :=
  ∀ {a g t}, a ≠ .startJob → Acts w a g t → G g t

/-- A program of the main thread gives a guarantee. -/
abbrev Grants (w : World) (G : Gateway → Gateway → Prop) {α : Type} (Q : α → Gateway → Prop)
    (p : Prog Gateway Chance α) (g : Gateway) : Prop :=
  p.Follows (Rests w) G (Consistent w) Q g

/-- Only `StartJob` has to be looked at step by step. -/
theorem Innocent.grants (h : Innocent w G) {a : Actor} (ha : a ≠ .startJob) {Q : α → Gateway → Prop}
    {p : Prog Gateway Chance α} (hp : Keeps w a Q p g) : Grants w G Q p g :=
  hp.guarantee fun _ _ hact => h ha hact

theorem Innocent.refl (h : Innocent w G) (g : Gateway) : G g g :=
  h (a := .run) (by intro h; cases h) (Acts.refl g)

/-- The phases of a turn give a guarantee that all effects but those of `StartJob` give. -/
theorem Phases.grant {calm ok G' : Gateway → Gateway → Prop} {careful : Prop}
    {B S C : Gateway → Prop} (h : Phases w calm ok G' careful B S C) (hG : Innocent w G)
    (hstart : ∀ g, Grants w G (fun _ _ => True) (Gateway.startJob w.toSite) g) :
    Phases w calm ok (fun g t => G' g t ∧ G g t) careful B S C := by
  have hact : ∀ {a : Actor} {g t : Gateway} {P : Prop}, a ≠ .startJob → Acts w a g t →
      P ∧ G' g t → P ∧ G' g t ∧ G g t := fun ha hact hP => ⟨hP.1, hP.2, hG ha hact⟩
  exact {
    moves := fun hmove => h.moves hmove.1
    refl := fun g => ⟨h.refl g, hG.refl g⟩
    init := h.init
    crash := h.crash
    outside := h.outside
    waits := h.waits
    rests := h.rests
    lease := h.lease
    recover := fun hs hB ha hok => hact (by intro h; cases h) ha (h.recover hs hB ha hok)
    complete := fun hs hB ha hok => hact (by intro h; cases h) ha (h.complete hs hB ha hok)
    skip := h.skip
    clean := fun hs hB hdue => (h.clean hs hB hdue).and RestsIf.rests And.left
      (hG.grants (by intro h; cases h) keeps_cleanup)
    due := h.due
    swept := fun hs hS ha hok hlast =>
      hact (by intro h; cases h) ha (h.swept hs hS ha hok hlast)
    register := fun hs hC ha hok => hact (by intro h; cases h) ha (h.register hs hC ha hok)
    receive := fun hs hC hmem hlive ha hok =>
      hact (by intro h; cases h) ha (h.receive hs hC hmem hlive ha hok)
    deliver := fun hs hC ha hok => hact (by intro h; cases h) ha (h.deliver hs hC ha hok)
    startJob := fun hC => (h.startJob hC).and RestsIf.rests And.left (hstart _)
    done := h.done }

/-- A guarantee of `StartJob` that the effects of the other functions give is one of every step of
the gateway. -/
theorem machine_grants {free : Prop} (h : Innocent w G)
    (hstart : ∀ g, Grants w G (fun _ _ => True) (startJob w.toSite) g) :
    (machine w free).SoundIf (fun _ _ => True) (fun _ _ => True) (fun g t => Moves w g t ∧ G g t)
      (Sane w) (Between fun _ => True) := by
  have hbase := machine_soundIf w free
  have hphases := ((phases_moves w).grant h hstart).soundIf
  refine { hbase with own := fun hs hG => hbase.own hs hG.1, start := ?_ }
  rintro g p hs hB (hrecover | ⟨hready, hturn | hdone | ⟨hfree, hpart⟩⟩)
  · exact hphases.start hs hB (.inl hrecover)
  · exact hphases.start hs hB (.inr ⟨hready, .inl hturn⟩)
  · exact hphases.start hs hB (.inr ⟨hready, .inr (.inl hdone)⟩)
  · suffices hgrants : Grants w G (fun _ _ => True) p g from
      (hbase.start hs hB (.inr ⟨hready, .inr (.inr ⟨hfree, hpart⟩)⟩)).and RestsIf.rests And.left
        hgrants
    cases hpart with
    | register => exact h.grants (by intro h; cases h) keeps_register
    | receive hmem => exact h.grants (by intro h; cases h) (keeps_receive hmem (hs.1.valid_sid hmem))
    | deliver => exact h.grants (by intro h; cases h) keeps_deliver
    | startJob => exact hstart g
    | cleanup => exact (h.grants (by intro h; cases h) keeps_cleanup).mono fun _ _ _ => trivial

end

/-! ## Marking and handing over -/

section

variable {w : World} {g t : Gateway} {α : Type}

/-- A step keeps the jobs paired. -/
def KeepsPaired (g t : Gateway) : Prop := Paired g.log → Paired t.log

/-- What the effects of a function other than `StartJob` add to the history. -/
theorem Acts.log_cases {a : Actor} (ha : a ≠ .startJob) (h : Acts w a g t) :
    t.log = g.log ∨ ∃ e, t.log = e :: g.log ∧ e.executed? = none ∧ e.started? = none := by
  obtain ⟨g', connected, owner, heffect, rfl⟩ := h
  change g'.log = g.log ∨ ∃ e, g'.log = e :: g.log ∧ _
  cases heffect with
  | start => exact absurd rfl ha
  | renew => exact absurd rfl ha
  | hand => exact absurd rfl ha
  | submit => exact absurd rfl ha
  | welcome | reply | line =>
    rcases publishScript_cases _ _ g with heq | heq
    · exact .inl (congrArg Gateway.log heq)
    · exact .inr ⟨_, congrArg Gateway.log heq, rfl, rfl⟩
  | enqueue | await | rewind | drop => exact .inr ⟨_, rfl, rfl, rfl⟩
  | stay | discard | enter | remove | transfer | collect | release | write | markDone | recovered
    | advance | unlink | expire | swept => exact .inl rfl

/-- Nothing but `StartJob` marks jobs or executes requests. -/
theorem innocent_keepsPaired : Innocent w KeepsPaired := by
  intro a g t ha hact hg
  rcases hact.log_cases ha with heq | ⟨e, heq, hnone, -⟩
  · rw [heq]
    exact hg
  · rw [heq]
    exact ⟨hg, fun k hk => by rw [hnone] at hk; cases hk⟩

/-- The job that was marked last waits to be handed over. -/
def Awaiting (row : Job) (g : Gateway) : Prop := awaiting g.log = some (row.sid, row.id)

/-- What happens elsewhere leaves the job waiting. -/
theorem Awaiting.rests {row : Job} (h : Awaiting row g) (ht : Rests w g t) : Awaiting row t := by
  obtain ⟨new, hnew, hall⟩ := (Rests.stable ht).log
  rw [Awaiting, hnew]
  clear hnew
  induction new with
  | nil => exact h
  | cons e new ih =>
    obtain ⟨key, entry, rfl⟩ := hall e List.mem_cons_self
    exact ih fun e' he' => hall e' (List.mem_cons_of_mem _ he')

/-- A step that adds nothing to the history. -/
def Silent (g t : Gateway) : Prop := t.log = g.log

/-- Nothing is noted, so the two histories stay as they are. -/
theorem Silent.keepsPaired (h : Silent g t) : KeepsPaired g t := fun hg => by
  rw [show t.log = g.log from h]
  exact hg

/-- A silent program, with the job that waits. -/
theorem grants_of_silent {row : Job} {p : Prog Gateway Chance α} (hg : Awaiting row g)
    (hp : Grants w Silent (fun _ _ => True) p g) :
    Grants w KeepsPaired (fun _ t => Awaiting row t) p g := by
  refine ((hp.keep (F := Awaiting row) (fun hF ht => hF.rests ht) ?_ hg).guarantee
    fun _ _ h => h.keepsPaired).mono fun _ _ h => h.2
  intro s t _ hF hsilent
  rw [Awaiting, show t.log = s.log from hsilent]
  exact hF

/-- Calls of the transfer store note nothing. -/
theorem silent_transfers {p : Prog Uploads Answer α} : ∀ {g : Gateway},
    Grants w Silent (fun _ _ => True) (transfers p) g := by
  induction p with
  | ret a => exact trivial
  | abort => exact trivial
  | act f k ih => exact fun t _ _ c => ⟨rfl, ih _ _⟩

/-- A step that leaves the history is silent. -/
theorem silent_step {f : Chance → Gateway → α × Gateway} (h : ∀ c t, (f c t).2.log = t.log) :
    Grants w Silent (fun _ _ => True) (.step f) g :=
  Prog.Follows.step fun t _ _ c => ⟨h c t, trivial⟩

/-- Settling a row notes nothing that counts. -/
theorem silent_settle {site : Site} {row : Job} {outcome : Except Status Json} :
    Grants w Silent (fun _ _ => True) (settle site row outcome) g := by
  refine Prog.Follows.seq (Q := fun _ _ => True) (Prog.Follows.seq (silent_step ?_) ?_) ?_
  · intro c t
    dsimp only
    split_ifs <;> rfl
  · intro status t _
    split_ifs <;> trivial
  intro _ t _
  refine Prog.Follows.seq (Q := fun _ _ => True) (Prog.Follows.seq (silent_step fun _ _ => rfl) ?_) ?_
  · intro ok t _
    split_ifs <;> trivial
  intro _ t _
  refine Prog.Follows.seq (silent_step fun _ _ => rfl) ?_
  intro found t _
  cases found with
  | none => trivial
  | some file => exact silent_step fun _ _ => rfl

/-- The job that was marked last is handed over. -/
theorem grants_hand {row : Job} {f : Gateway → Gateway} (hg : Awaiting row g)
    (hf : ∀ t, (f t).log = .executed row.sid row.id :: t.log) :
    Grants w KeepsPaired (fun _ _ => True) (.modify f) g := by
  refine Prog.Follows.step fun t ht _ _ => ⟨fun hpaired => ?_, trivial⟩
  show Paired (f t).log
  rw [hf t]
  exact ⟨hpaired, fun k hk => Option.some.inj hk ▸ hg.rests ht⟩

/-- The methods that the main thread answers itself are executed on a row that awaits it, or not at
all. -/
theorem grants_immediate {row : Job} {request : Json} (hg : Awaiting row g) :
    Grants w KeepsPaired (fun r t => r = none → Awaiting row t)
      (immediate w.toSite row.sid row.id request) g := by
  unfold immediate
  dsimp only
  split_ifs
  · exact fun _ => hg
  · exact fun _ => hg
  · refine Prog.Follows.seq (grants_of_silent hg (silent_step fun _ _ => rfl)) ?_
    intro now t ht
    refine Prog.Follows.seq (grants_hand ht fun _ => rfl) ?_
    exact fun _ t _ h => by cases h
  · refine Prog.Follows.seq (grants_hand hg fun _ => rfl) ?_
    intro _ t _
    refine Prog.Follows.seq (silent_transfers.guarantee fun _ _ h => h.keepsPaired) ?_
    exact fun _ t _ h => by cases h
  · exact fun _ => hg

/-- A row is executed at most once after it was marked. -/
theorem grants_execute {row : Job} (hg : Awaiting row g) :
    Grants w KeepsPaired (fun _ _ => True) (execute w.toSite row) g := by
  have hsettle : ∀ {g outcome}, Grants w KeepsPaired (fun _ _ => True)
      (settle w.toSite row outcome) g := fun {g outcome} =>
    silent_settle.guarantee fun _ _ h => h.keepsPaired
  have hresolve : ∀ request, Grants w KeepsPaired (fun _ t => Awaiting row t)
      (resolveParams w.toSite row.sid request) g := by
    intro request
    unfold resolveParams
    split
    · refine Prog.Follows.seq (grants_of_silent hg silent_transfers) ?_
      intro resolved t ht
      cases resolved <;> exact ht
    · exact hg
  unfold execute
  split
  · trivial
  next request _ =>
  refine Prog.Follows.seq (hresolve request) ?_
  intro resolved t ht
  cases resolved with
  | error status => exact hsettle
  | ok request' =>
    refine Prog.Follows.seq (grants_immediate ht) ?_
    intro outcome t ht
    cases outcome with
    | some outcome => exact hsettle
    | none =>
      refine Prog.Follows.seq (grants_of_silent (ht rfl) (silent_step fun _ _ => rfl)) ?_
      intro total t ht
      refine Prog.Follows.seq (grants_of_silent ht (silent_step fun _ _ => rfl)) ?_
      exact fun share t ht => grants_hand ht fun _ => rfl

/-- `StartJob` hands over the job it has marked, and no other. -/
theorem grants_startJob : Grants w KeepsPaired (fun _ _ => True) (startJob w.toSite) g := by
  have hread : ∀ {β : Type} {g : Gateway} {f : Gateway → β},
      Grants w KeepsPaired (fun _ _ => True) (.read f) g :=
    Prog.Follows.read (fun _ h => h) fun _ _ _ => trivial
  refine Prog.Follows.seq hread ?_
  intro busy t _
  cases busy with
  | true => trivial
  | false =>
    refine Prog.Follows.seq hread ?_
    intro found t _
    cases found with
    | none => trivial
    | some row =>
      refine Prog.Follows.seq (Q := fun _ t => Awaiting row t) ?_ fun _ t ht => grants_execute ht
      exact Prog.Follows.step fun t _ _ _ => ⟨fun hpaired => ⟨hpaired, fun _ hk => by cases hk⟩, rfl⟩

end

/-! ## The order of the journal -/

section

variable {w : World} {g t : Gateway}

/-- A happening of another kind does not count. -/
theorem keysOf_of_log {kind : Happening → Option (Bytes × Bytes)}
    (h : t.log = g.log ∨ ∃ e, t.log = e :: g.log ∧ kind e = none) :
    keysOf kind t.log = keysOf kind g.log := by
  rcases h with heq | ⟨e, heq, hkind⟩
  · rw [heq]
  · rw [heq, keysOf_cons, hkind]
    exact List.append_nil _

/-- What other parties do does not count. -/
theorem Stable.keysOf_eq {kind : Happening → Option (Bytes × Bytes)} (h : Stable g t)
    (hkind : ∀ key entry, kind (.appended key entry) = none) :
    keysOf kind t.log = keysOf kind g.log := by
  obtain ⟨new, hnew, hall⟩ := h.log
  rw [hnew]
  clear hnew
  induction new with
  | nil => rfl
  | cons e new ih =>
    obtain ⟨key, entry, rfl⟩ := hall e List.mem_cons_self
    rw [List.cons_append, keysOf_cons, hkind]
    exact (List.append_nil _).trans (ih fun e' he' => hall e' (List.mem_cons_of_mem _ he'))

/-- The keys of the queued jobs, in the order of their rows. -/
def queue (g : Gateway) : List (Bytes × Bytes) :=
  (g.jobs.filter (·.state = .queued)).map fun j => (j.sid, j.id)

/-- The jobs that were marked are some of those journaled first, in their order, and the queue are
some of the others. -/
def Ordered (g : Gateway) : Prop :=
  ∃ earlier later, keysOf Happening.inserted? g.log = earlier ++ later ∧
    (keysOf Happening.started? g.log).Sublist earlier ∧ g.queue.Sublist later

/-- The queue may only get shorter. -/
theorem Ordered.mono (h : Ordered g)
    (hinserted : keysOf Happening.inserted? t.log = keysOf Happening.inserted? g.log)
    (hstarted : keysOf Happening.started? t.log = keysOf Happening.started? g.log)
    (hqueue : t.queue.Sublist g.queue) : Ordered t := by
  obtain ⟨earlier, later, hall, hmarked, hlater⟩ := h
  exact ⟨earlier, later, hinserted.trans hall, hstarted ▸ hmarked, hqueue.trans hlater⟩

/-- Nothing is journaled or marked. -/
theorem Ordered.quiet (h : Ordered g) (hlog : t.log = g.log ∨ ∃ e, t.log = e :: g.log ∧
    e.inserted? = none ∧ e.started? = none) (hqueue : t.queue.Sublist g.queue) : Ordered t :=
  h.mono (keysOf_of_log (hlog.imp_right fun ⟨e, heq, hkind, _⟩ => ⟨e, heq, hkind⟩))
    (keysOf_of_log (hlog.imp_right fun ⟨e, heq, _, hkind⟩ => ⟨e, heq, hkind⟩)) hqueue

/-- The keys of the rows that still meet a condition after an update. -/
theorem map_filter_update {α β : Type} {p : α → Bool} {u : α → α} {key : α → β}
    (hkey : ∀ a, key (u a) = key a) (hp : ∀ a, p (u a) = true → p a = true) (l : List α) :
    (((l.map u).filter p).map key).Sublist ((l.filter p).map key) := by
  have hsame : key ∘ u = key := funext hkey
  rw [List.filter_map, List.map_map, hsame]
  exact (List.monotone_filter_right l hp).map key

/-- The first of them no longer does. -/
theorem map_filter_first {α β : Type} {p : α → Bool} {u : α → α} {key : α → β}
    (hkey : ∀ a, key (u a) = key a) (hp : ∀ a, p (u a) = true → p a = true) {l : List α} {x : α}
    (hfirst : l.find? p = some x) (hx : ¬ p (u x) = true) :
    ∃ rest, (l.filter p).map key = key x :: rest ∧ (((l.map u).filter p).map key).Sublist rest := by
  obtain ⟨hpx, before, after, rfl, hbefore⟩ := List.find?_eq_some_iff_append.1 hfirst
  have hnone : before.filter p = [] :=
    List.filter_eq_nil_iff.2 fun a ha hpa => by
      have hnot := hbefore a ha
      rw [hpa] at hnot
      cases hnot
  refine ⟨(after.filter p).map key, ?_, ?_⟩
  · rw [List.filter_append, hnone, List.nil_append, List.filter_cons, if_pos hpx, List.map_cons]
  · have hgone := map_filter_update hkey hp before
    rw [hnone, List.map_nil, List.sublist_nil] at hgone
    rw [List.map_append, List.filter_append, List.map_append, hgone, List.nil_append, List.map_cons,
      List.filter_cons, if_neg hx]
    exact map_filter_update hkey hp after

/-- Rows updated so that none is queued again. -/
theorem queue_updateJob {sid id : Bytes} {f : Job → Job}
    (hf : ∀ j, (f j).sid = j.sid ∧ (f j).id = j.id ∧ ((f j).state = .queued → j.state = .queued)) :
    (g.updateJob sid id f).queue.Sublist g.queue := by
  refine map_filter_update (fun j => ?_) (fun j hj => ?_) g.jobs
  · split
    · exact Prod.ext (hf j).1 (hf j).2.1
    · rfl
  · split at hj
    · exact decide_eq_true ((hf j).2.2 (of_decide_eq_true hj))
    · exact hj

/-- The oldest queued job leaves the queue when it is marked. -/
theorem queue_start {row : Job} (hfirst : g.jobs.find? (·.state = .queued) = some row) :
    ∃ rest, g.queue = (row.sid, row.id) :: rest ∧
      (g.updateJob row.sid row.id ({ · with state := .running })).queue.Sublist rest := by
  refine map_filter_first (fun j => ?_) (fun j hj => ?_) hfirst fun hrow => ?_
  · split <;> rfl
  · split at hj
    · cases hj
    · exact hj
  · rw [if_pos (show row.Is row.sid row.id from ⟨rfl, rfl⟩)] at hrow
    cases hrow

/-- Rows are started in the order of the queue, which is the order they were inserted in. -/
theorem Ordered.effect {a : Actor} (h : Ordered g) (heffect : Effect w g a t) : Ordered t := by
  have hsame : t.jobs = g.jobs → t.queue.Sublist g.queue := fun heq => by
    rw [queue, queue, heq]
  cases heffect with
  | @start row hidle hfirst =>
    obtain ⟨rest, hqueue, hrest⟩ := queue_start hfirst
    obtain ⟨earlier, later, hall, hstarted, hlater⟩ := h
    rw [hqueue] at hlater
    obtain ⟨next, later', rfl, hmem, hsub⟩ := List.cons_sublist_iff.1 hlater
    refine ⟨earlier ++ next, later', ?_, ?_, hrest.trans hsub⟩
    · rw [keysOf_cons, hall]
      simp [Happening.inserted?]
    · rw [keysOf_cons]
      exact hstarted.append (List.singleton_sublist.2 hmem)
  | @enqueue job hfree hsession hid hbody htext hpath hfresh =>
    obtain ⟨earlier, later, hall, hstarted, hlater⟩ := h
    refine ⟨earlier, later ++ [(job.sid, job.id)], ?_, ?_, ?_⟩
    · rw [keysOf_cons, hall, List.append_assoc]
      rfl
    · rw [keysOf_cons]
      exact (List.append_nil _).symm ▸ hstarted
    · have hqueue : queue { g with jobs := g.jobs ++ [job], log := .inserted job.sid job.id :: g.log } =
          g.queue ++ [(job.sid, job.id)] := by
        rw [queue, queue, List.filter_append, List.map_append]
        simp [hfresh.1]
      rw [hqueue]
      exact hlater.append (.refl _)
  | rewind hrow his hstate =>
    exact h.quiet (.inr ⟨_, rfl, rfl, rfl⟩) (queue_updateJob fun j => ⟨rfl, rfl, fun h => h⟩)
  | markDone => exact h.quiet (.inl rfl) (queue_updateJob fun j => ⟨rfl, rfl, fun h => by cases h⟩)
  | advance => exact h.quiet (.inl rfl) (queue_updateJob fun j => ⟨rfl, rfl, fun h => h⟩)
  | expire =>
    exact h.quiet (.inl rfl) ((List.filter_sublist.filter _).map _)
  | welcome | reply | line =>
    rcases publishScript_cases _ _ g with heq | heq
    · rw [heq]
      exact h
    · rw [heq]
      exact h.quiet (.inr ⟨_, rfl, rfl, rfl⟩) (.refl _)
  | renew | hand | submit | await | drop =>
    exact h.quiet (.inr ⟨_, rfl, rfl, rfl⟩) (hsame rfl)
  | stay | discard | enter | remove | transfer | collect | release | write | recovered | unlink
    | swept => exact h.quiet (.inl rfl) (hsame rfl)

/-! ## No request is journaled twice -/

/-- What was journaled was so under a session ID that was drawn, and once; it is in the journal while
the session is there. -/
structure Single (w : World) (g : Gateway) : Prop where
  once : (keysOf Happening.inserted? g.log).Nodup
  drawn : ∀ k ∈ keysOf Happening.inserted? g.log, ∃ n < g.drawn, k.1 = w.randomId n
  kept : ∀ k ∈ keysOf Happening.inserted? g.log, (∃ s ∈ g.sessions, s.sid = k.1) →
    ∃ j ∈ g.jobs, j.Is k.1 k.2

/-- No session ID was drawn twice. -/
def Distinct (w : World) (g : Gateway) : Prop := Set.InjOn w.randomId (Set.Iio g.drawn)

/-- Nothing was inserted, and no session or row came back. -/
theorem Single.mono (h : Single w g)
    (hkeys : keysOf Happening.inserted? t.log = keysOf Happening.inserted? g.log)
    (hdrawn : t.drawn = g.drawn) (hsessions : ∀ s ∈ t.sessions, ∃ s' ∈ g.sessions, s'.sid = s.sid)
    (hjobs : ∀ s ∈ t.sessions, ∀ j ∈ g.jobs, s.sid = j.sid → ∃ j' ∈ t.jobs, j'.Is j.sid j.id) :
    Single w t := by
  refine ⟨hkeys ▸ h.once, ?_, ?_⟩
  · rw [hkeys, hdrawn]
    exact h.drawn
  · rw [hkeys]
    rintro k hk ⟨s, hs, hsid⟩
    obtain ⟨s', hs', hsid'⟩ := hsessions s hs
    obtain ⟨j, hj, hjs, hji⟩ := h.kept k hk ⟨s', hs', hsid'.trans hsid⟩
    obtain ⟨j', hj', his⟩ := hjobs s hs j hj (hsid.trans hjs.symm)
    exact ⟨j', hj', hjs ▸ hji ▸ his⟩

/-- Random IDs are drawn, never put back. -/
theorem Effect.drawn_le {a : Actor} (h : Effect w g a t) : g.drawn ≤ t.drawn := by
  cases h with
  | enter => exact Nat.le_succ _
  | welcome | reply | line =>
    obtain ⟨redis, log, heq⟩ := publishScript_eq _ _ g
    rw [heq]
  | stay | discard | remove | enqueue | await | rewind | transfer | start | renew | hand | submit
    | collect | release | write | markDone | recovered | advance | unlink | drop | expire
    | swept => exact le_rfl

/-- A row is inserted where none of its name exists, under a session whose ID was never used before.
-/
theorem Single.effect {a : Actor} (hg : Consistent w g) (hdistinct : Distinct w t) (h : Single w g)
    (heffect : Effect w g a t) : Single w t := by
  have hrefl : ∀ s ∈ g.sessions, ∃ s' ∈ g.sessions, s'.sid = s.sid := fun s hs => ⟨s, hs, rfl⟩
  have hsame : ∀ s ∈ g.sessions, ∀ j ∈ g.jobs, s.sid = j.sid → ∃ j' ∈ g.jobs, j'.Is j.sid j.id :=
    fun _ _ j hj _ => ⟨j, hj, rfl, rfl⟩
  have hupdate : ∀ {sid id f}, (∀ j : Job, (f j).sid = j.sid ∧ (f j).id = j.id) →
      ∀ s ∈ g.sessions, ∀ j ∈ g.jobs, s.sid = j.sid →
        ∃ j' ∈ (g.updateJob sid id f).jobs, j'.Is j.sid j.id := by
    intro sid id f hf s _ j hj _
    refine ⟨_, mem_updateJob_of_mem hj, ?_⟩
    split
    · exact hf j
    · exact ⟨rfl, rfl⟩
  cases heffect with
  | @enter client registration expires hnew hexpires =>
    refine ⟨h.once, fun k hk => ?_, ?_⟩
    · obtain ⟨n, hn, hk'⟩ := h.drawn k hk
      exact ⟨n, Nat.lt_succ_of_lt hn, hk'⟩
    · rintro k hk ⟨s, hs, hsid⟩
      rcases List.mem_append.1 hs with hs | hs
      · exact h.kept k hk ⟨s, hs, hsid⟩
      · rw [List.mem_singleton.1 hs] at hsid
        obtain ⟨n, hn, hk'⟩ := h.drawn k hk
        have hsame : g.drawn = n := hdistinct (Nat.lt_succ_self _) (Nat.lt_succ_of_lt hn)
          (hsid.trans hk')
        omega
  | @enqueue job hfree hsession =>
    have hfresh : (job.sid, job.id) ∉ keysOf Happening.inserted? g.log := fun hk => by
      obtain ⟨j, hj, his⟩ := h.kept _ hk hsession
      exact hfree j hj his
    obtain ⟨s, hs, hsid⟩ := hsession
    have hkeys : keysOf Happening.inserted? (.inserted job.sid job.id :: g.log) =
        keysOf Happening.inserted? g.log ++ [(job.sid, job.id)] := keysOf_cons _ _ _
    refine ⟨?_, fun k hk => ?_, fun k hk hsession => ?_⟩
    · rw [hkeys]
      exact h.once.append (List.nodup_singleton _)
        (List.disjoint_singleton.2 hfresh)
    · rw [hkeys, List.mem_append, List.mem_singleton] at hk
      rcases hk with hk | rfl
      · exact h.drawn k hk
      · obtain ⟨n, hn, hdrawn⟩ := hg.issued s hs
        exact ⟨n, hn, hsid.symm.trans hdrawn⟩
    · rw [hkeys, List.mem_append, List.mem_singleton] at hk
      rcases hk with hk | rfl
      · obtain ⟨j, hj, his⟩ := h.kept k hk hsession
        exact ⟨j, List.mem_append_left _ hj, his⟩
      · exact ⟨job, List.mem_append_right _ (List.mem_singleton_self _), rfl, rfl⟩
  | start => exact h.mono (keysOf_of_log (.inr ⟨_, rfl, rfl⟩)) rfl hrefl (hupdate fun _ => ⟨rfl, rfl⟩)
  | rewind => exact h.mono (keysOf_of_log (.inr ⟨_, rfl, rfl⟩)) rfl hrefl (hupdate fun _ => ⟨rfl, rfl⟩)
  | markDone => exact h.mono rfl rfl hrefl (hupdate fun _ => ⟨rfl, rfl⟩)
  | advance => exact h.mono rfl rfl hrefl (hupdate fun _ => ⟨rfl, rfl⟩)
  | @renew row expires =>
    have hmap : ∀ s ∈ g.sessions.map fun s => if s.sid = row.sid then { s with expires } else s,
        ∃ s' ∈ g.sessions, s'.sid = s.sid := by
      intro s hs
      obtain ⟨s', hs', rfl⟩ := List.mem_map.1 hs
      exact ⟨s', hs', by split <;> rfl⟩
    exact h.mono (keysOf_of_log (.inr ⟨_, rfl, rfl⟩)) rfl hmap fun _ _ j hj _ => ⟨j, hj, rfl, rfl⟩
  | @expire session =>
    refine h.mono rfl rfl (fun s hs => ⟨s, List.mem_of_mem_filter hs, rfl⟩) ?_
    intro s hs j hj hsid
    refine ⟨j, List.mem_filter.2 ⟨hj, ?_⟩, rfl, rfl⟩
    rw [← hsid]
    exact (List.mem_filter.1 hs).2
  | welcome | reply | line =>
    rcases publishScript_cases _ _ g with heq | heq
    · rw [heq]
      exact h
    · rw [heq]
      exact h.mono (keysOf_of_log (.inr ⟨_, rfl, rfl⟩)) rfl hrefl hsame
  | hand | submit | await | drop => exact h.mono (keysOf_of_log (.inr ⟨_, rfl, rfl⟩)) rfl hrefl hsame
  | stay | discard | remove | transfer | collect | release | write | recovered | unlink
    | swept => exact h.mono rfl rfl hrefl hsame

end

/-! ## Runs -/

section

variable {w : World} {g t : Gateway}

/-- The jobs, as they were journaled, marked and handed over. -/
structure History (w : World) (g : Gateway) : Prop where
  paired : Paired g.log
  ordered : Ordered g
  single : Distinct w g → Single w g

/-- Other parties do not insert, start or execute. -/
theorem History.outside (h : History w g) (ht : Outside w g t) : History w t := by
  have hstable := ht.stable
  refine ⟨?_, ?_, fun hdistinct => ?_⟩
  · obtain ⟨new, hnew, hall⟩ := hstable.log
    rw [hnew]
    clear hnew
    induction new with
    | nil => exact h.paired
    | cons e new ih =>
      obtain ⟨key, entry, rfl⟩ := hall e List.mem_cons_self
      exact ⟨ih fun e' he' => hall e' (List.mem_cons_of_mem _ he'), fun _ hk => by cases hk⟩
  · refine h.ordered.mono (hstable.keysOf_eq fun _ _ => rfl) (hstable.keysOf_eq fun _ _ => rfl) ?_
    rw [queue, queue, hstable.jobs]
  · refine (h.single ?_).mono (hstable.keysOf_eq fun _ _ => rfl) hstable.drawn ?_ ?_
    · rw [Distinct, ← hstable.drawn]
      exact hdistinct
    · exact fun s hs => ⟨s, hstable.sessions ▸ hs, rfl⟩
    · exact fun _ _ j hj _ => ⟨j, hstable.jobs ▸ hj, rfl, rfl⟩

/-- A step keeps the history in order. -/
theorem History.moves (h : History w g) (hg : Sane w g) (hmove : Moves w g t)
    (hpaired : KeepsPaired g t) : History w t := by
  refine ⟨hpaired h.paired, ?_, ?_⟩
  · obtain ⟨a, g', connected, owner, heffect, rfl⟩ := hmove
    have hnext : Ordered g' := h.ordered.effect heffect
    exact hnext
  · obtain ⟨a, g', connected, owner, heffect, rfl⟩ := hmove
    intro hdistinct
    have hsingle := h.single (hdistinct.mono (Set.Iio_subset_Iio heffect.drawn_le))
    have hnext : Single w g' := hsingle.effect hg.1 hdistinct heffect
    exact ⟨hnext.once, hnext.drawn, hnext.kept⟩

/-- At first nothing has happened. -/
theorem History.init (h : (machine w True).init g) : History w g := by
  obtain ⟨now, owner, -, -, rfl⟩ := h
  refine ⟨trivial, ⟨[], [], rfl, .refl _, .refl _⟩, fun _ => ⟨List.nodup_nil, ?_, ?_⟩⟩
  · exact fun _ hk => by cases hk
  · exact fun _ hk => by cases hk

/-- A crash takes the queue, and leaves the history. -/
theorem History.crash (h : History w g) : History w g.crash :=
  ⟨h.paired, h.ordered, fun hdistinct => ⟨(h.single hdistinct).once, (h.single hdistinct).drawn,
    (h.single hdistinct).kept⟩⟩

/-- The history is in order in every state that is reached. -/
theorem reachable_history {free : Prop} {x : Gateway × Option (Prog Gateway Chance Unit)}
    (hx : (machine w free).Reachable x) : Sane w x.1 ∧ History w x.1 := by
  have hsound : (machine w free).SoundIf (fun _ _ => True) (fun _ _ => True)
      (fun g t => Moves w g t ∧ KeepsPaired g t) (Sane w) (Between fun _ => True) :=
    machine_grants innocent_keepsPaired fun _ => grants_startJob
  have hreach := hsound.reachable (J := History w) (fun h => History.init h)
    (fun _ h ht => h.outside ht) (fun hg h hmove _ => h.moves hg hmove.1 hmove.2)
    (fun _ h => h.crash) hx.reachableIf
  exact ⟨hreach.1.1, hreach.2⟩

/-- **Jobs are executed in the order of the journal, each at most once.** -/
theorem executed_once {free : Prop} {x : Gateway × Option (Prog Gateway Chance Unit)}
    (hx : (machine w free).Reachable x) (hdistinct : Distinct w x.1) :
    (keysOf Happening.inserted? x.1.log).Nodup ∧ (keysOf Happening.executed? x.1.log).Nodup ∧
      (keysOf Happening.executed? x.1.log).Sublist (keysOf Happening.inserted? x.1.log) := by
  obtain ⟨-, hhistory⟩ := reachable_history hx
  obtain ⟨marked, hmarked, hexecuted⟩ := hhistory.paired.sublist
  obtain ⟨earlier, later, hall, hstarted, -⟩ := hhistory.ordered
  have hsub : (keysOf Happening.executed? x.1.log).Sublist (keysOf Happening.inserted? x.1.log) := by
    rw [hall]
    refine (hexecuted.trans ?_).trans (hstarted.trans (List.sublist_append_left _ _))
    rw [hmarked]
    exact List.sublist_append_left _ _
  have honce := (hhistory.single hdistinct).once
  exact ⟨honce, honce.sublist hsub, hsub⟩

/-- Two requests, with a crash after the second was started. -/
def sampleCrash : List Event :=
  [.recover, .append .register sampleRegistration, .turn,
    .append sampleRequests (sampleRequest "a" "session.renew"),
    .append sampleRequests (sampleRequest "b" "interface.list"), .turn, .turn, .cut 3, .recover,
    .turn]

/-- Two requests, a crash between them: each is executed once, in the order they came in. -/
theorem executed_once_crash : ∃ g, (machine sampleWorld False).Reachable (g, none) ∧
    keysOf Happening.executed? g.log =
      [(sampleSite.randomId 0, utf8 "a"), (sampleSite.randomId 0, utf8 "b")] ∧
    (keysOf Happening.executed? g.log).Sublist (keysOf Happening.inserted? g.log) := by
  have hscript : (script sampleWorld sampleCrash { uploads := { now := 1000 } }).any (fun g => decide
      (g.drawn = 1 ∧ keysOf Happening.executed? g.log =
        [(sampleSite.randomId 0, utf8 "a"), (sampleSite.randomId 0, utf8 "b")])) = true := by
    decide +kernel
  obtain ⟨g, hg, hboth⟩ := (Option.any_eq_true _ _).1 hscript
  obtain ⟨hdrawn, hexecuted⟩ := of_decide_eq_true hboth
  have hreach : (machine sampleWorld False).Reachable (g, none) := by
    refine reachable_script (by decide) (by decide) ?_ hg
    intro request response hmem
    simp [sampleCrash] at hmem
  have hdistinct : Distinct sampleWorld g := by
    intro n hn m hm _
    rw [hdrawn, Set.mem_Iio, Nat.lt_one_iff] at hn hm
    exact hn.trans hm.symm
  exact ⟨g, hreach, hexecuted, (executed_once hreach hdistinct).2.2⟩

end

end Gateway

end VppJson
