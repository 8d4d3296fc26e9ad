import VppJsonGateway.GatewayRuns

/-!
# Leases

Neither `StartJob` nor `Register` looks at the lease of the session it acts for. Both go by
`Cleanup`, which runs at most once in a second and leaves the session of the active job. This
module shows under which conditions on the clock and on the worker that is enough, and that it is
not without them.
-/

namespace VppJson

open Lib

namespace Gateway

/-! ## What is promised -/

/-- A session is there, and its lease has not run out. -/
def Leased (g : Gateway) (sid : Bytes) : Prop :=
  ∃ s ∈ g.sessions, s.sid = sid ∧ g.uploads.now < s.expires

instance (g : Gateway) (sid : Bytes) : Decidable (g.Leased sid) :=
  inferInstanceAs (Decidable (∃ s ∈ g.sessions, s.sid = sid ∧ g.uploads.now < s.expires))

/-- A step moves a job from queued to running. -/
def Starts (g t : Gateway) (sid id : Bytes) : Prop :=
  (∃ j ∈ g.jobs, j.Is sid id ∧ j.state = .queued) ∧ ∃ j ∈ t.jobs, j.Is sid id ∧ j.state = .running

instance (g t : Gateway) (sid id : Bytes) : Decidable (g.Starts t sid id) :=
  inferInstanceAs (Decidable (_ ∧ _))

/-- A step hands a job to the worker or the transfer manager, or renews its lease. -/
def Executes (g t : Gateway) (sid id : Bytes) : Prop := t.log = .executed sid id :: g.log

/-- A reply to a registration is an error, or names a session of the client whose lease has not
run out. -/
def Admits (w : World) (g : Gateway) (client frame : Bytes) : Prop :=
  (∃ id status, frame = direct (error id status)) ∨
    ∃ id, ∃ s ∈ g.sessions, s.client = client ∧ g.uploads.now < s.expires ∧
      frame = direct (welcome w.toSite id s)

/-! ## Conditions -/

/-- No lease of a journaled session runs out. -/
def Unhurried (g t : Gateway) : Prop :=
  ∀ s ∈ g.sessions, g.uploads.now < s.expires → t.uploads.now < s.expires

/-- The lease of a session runs when the session is journaled. -/
def Fresh (g t : Gateway) : Prop :=
  ∀ s ∈ t.sessions, (∃ s' ∈ g.sessions, s'.sid = s.sid) ∨ t.uploads.now < s.expires

/-- Where the worker has a call, the lease of its session has not run out. -/
def Covered (g : Gateway) : Prop :=
  g.future ≠ none → ∀ s ∈ g.sessions, s.sid = g.activeSid → g.uploads.now < s.expires

/-- The result of a call is not taken in the second of the last cleanup after the lease of its
session has run out. -/
def Timely (g t : Gateway) : Prop :=
  t.future = none → g.lastCleanup = g.uploads.now → Covered g

/-- `Cleanup` has left no session to a call. -/
def Thorough (g t : Gateway) : Prop := g.lastCleanup ≠ t.lastCleanup → Covered g

instance (g t : Gateway) : Decidable (Fresh g t) :=
  inferInstanceAs (Decidable (∀ s ∈ t.sessions, _ ∨ _))

instance (g : Gateway) : Decidable g.Covered :=
  inferInstanceAs (Decidable (g.future ≠ none → ∀ s ∈ g.sessions, _ → _))

instance (g t : Gateway) : Decidable (Timely g t) :=
  inferInstanceAs (Decidable (t.future = none → _ → g.Covered))

instance (g t : Gateway) : Decidable (Thorough g t) := inferInstanceAs (Decidable (_ → g.Covered))

/-! ## Live sessions -/

/-- The leases of all sessions run; where the worker may be `busy`, but for that of its call. -/
def Live (busy : Prop) (g : Gateway) : Prop :=
  ∀ s ∈ g.sessions, g.uploads.now < s.expires ∨
    (busy ∧ g.future ≠ none ∧ s.sid = g.activeSid)

section

variable {w : World} {busy : Prop} {a : Actor} {g t : Gateway}

/-- While the worker is idle every session is live. -/
theorem Live.of_idle (h : Live busy g) (hidle : g.future = none) {s : Session}
    (hs : s ∈ g.sessions) : g.uploads.now < s.expires :=
  (h s hs).resolve_right fun h => h.2.1 hidle

/-- So it is while the lease of the call runs. -/
theorem Live.of_covered (h : Live busy g) (hcovered : Covered g) : Live False g := by
  intro s hs
  refine .inl ((h s hs).elim id ?_)
  rintro ⟨-, hfuture, hsid⟩
  exact hcovered hfuture s hs hsid

theorem Live.mono {busy' : Prop} (h : Live busy g) (hbusy : busy → busy') : Live busy' g :=
  fun s hs => (h s hs).imp_right fun h => ⟨hbusy h.1, h.2⟩

/-- Time that ends no lease leaves the sessions live. -/
theorem Live.outside (h : Live busy g) (ht : Outside w g t) (hcalm : Unhurried g t) :
    Live busy t := by
  intro s hs
  rw [ht.stable.sessions] at hs
  refine (h s hs).imp (hcalm s hs) ?_
  rintro ⟨hbusy, hfuture, hsid⟩
  refine ⟨hbusy, ?_, hsid.trans ht.stable.activeSid.symm⟩
  obtain ⟨task, htask⟩ := Option.ne_none_iff_exists'.1 hfuture
  obtain ⟨task', htask', -⟩ := ht.stable.future task htask
  rw [htask']
  exact Option.some_ne_none task'

/-- The sessions stay live, where a new one is, and that of a call whose result is taken. -/
theorem Live.acts (h : Live busy g) (hact : Acts w a g t) (hfresh : Fresh g t)
    (hcovered : a = .completeWorker → t.future = none → Live False g) : Live busy t := by
  obtain ⟨g', connected, owner, heffect, rfl⟩ := hact
  change Fresh g g' at hfresh
  change a = .completeWorker → g'.future = none → Live False g at hcovered
  change Live busy g'
  cases heffect with
  | transfer a hsteps =>
    intro s hs
    have hnow : _ = g.uploads.now := hsteps.1
    change _ < s.expires ∨ _
    rw [hnow]
    exact h s hs
  | welcome | reply | line =>
    obtain ⟨redis, log, heq⟩ := publishScript_eq _ _ g
    rw [heq]
    exact h
  | @enter client registration expires hnew =>
    intro s hs
    rcases List.mem_append.1 hs with hs' | hs'
    · exact h s hs'
    · refine .inl ((hfresh s hs).resolve_left ?_)
      rintro ⟨s', hmem, hsid⟩
      rw [List.mem_singleton.1 hs'] at hsid
      exact hnew s' hmem hsid
  | @renew row expires hidle hrow hstate hexpires hlater =>
    intro s hs
    obtain ⟨s', hs', rfl⟩ := List.mem_map.1 hs
    have hlive := h.of_idle hidle hs'
    refine .inl ?_
    split
    · exact hlive.trans_le (hlater s' hs')
    · exact hlive
  | submit hidle => exact fun s hs => .inl (h.of_idle hidle hs)
  | collect => exact fun s hs => (hcovered rfl rfl s hs).imp_right fun h => h.1.elim
  | release hidle => exact fun s hs => .inl (h.of_idle hidle hs)
  | expire => exact fun s hs => h s (List.mem_filter.1 hs).1
  | stay | discard | remove | enqueue | await | rewind | start | hand | write | markDone
    | recovered | advance | unlink | drop | swept => exact h

/-! ## A turn -/

/-- `Cleanup` only deletes sessions. -/
theorem Acts.sessions_cleanup (h : Acts w .cleanup g t) : ∀ s ∈ t.sessions, s ∈ g.sessions := by
  obtain ⟨g', connected, owner, heffect, rfl⟩ := h
  change ∀ s ∈ g'.sessions, s ∈ g.sessions
  cases heffect with
  | stay => exact fun _ hs => hs
  | transfer => exact fun _ hs => hs
  | write => exact fun _ hs => hs
  | markDone => exact fun _ hs => hs
  | unlink => exact fun _ hs => hs
  | drop => exact fun _ hs => hs
  | expire => exact fun _ hs => (List.mem_filter.1 hs).1

/-- A session ID is not empty. -/
theorem Consistent.sid_ne_nil (h : Consistent w g) {s : Session} (hs : s ∈ g.sessions) :
    s.sid ≠ [] := by
  obtain ⟨n, -, hsid⟩ := h.issued s hs
  rw [hsid]
  exact List.ne_nil_of_length_pos (by rw [Site.randomId, length_hex, (w.random n).2]; omega)

/-- While `Cleanup` runs, no lease ends. -/
structure Sweeping (g t : Gateway) : Prop where
  due : t.lastCleanup < t.uploads.now
  sids : ∀ s ∈ t.sessions, s.sid ≠ []
  ended : ∀ s ∈ t.sessions, g.uploads.now < s.expires → t.uploads.now < s.expires

/-- No lease runs out during the sweep. -/
theorem Sweeping.outside {t' : Gateway} (h : Sweeping g t) (ht : Outside w t t')
    (hcalm : Unhurried t t') : Sweeping g t' where
  due := ht.stable.lastCleanup.trans_lt (h.due.trans_le ht.stable.uploads.now)
  sids := ht.stable.sessions ▸ h.sids
  ended := by
    intro s hs hlive
    rw [ht.stable.sessions] at hs
    exact hcalm s hs (h.ended s hs hlive)

/-- The sweep goes on with the sessions that are left. -/
theorem Sweeping.acts {t' : Gateway} (h : Sweeping g t) (hact : Acts w .cleanup t t') :
    Sweeping g t' where
  due := by
    rw [hact.lastCleanup_eq (by intro h; cases h), hact.now_eq]
    exact h.due
  sids := fun s hs => h.sids s (hact.sessions_cleanup s hs)
  ended := by
    intro s hs
    rw [hact.now_eq]
    exact h.ended s (hact.sessions_cleanup s hs)

/-- What `Cleanup` leaves is live, but for the active session. -/
theorem Swept.live_of_sweeping (h : Swept g t) (hsweeping : Sweeping g t) (hattended : Attended t) :
    Live True t := by
  intro s hs
  refine (h.live s hs).imp (hsweeping.ended s hs) fun hsid => ⟨trivial, fun hidle => ?_, hsid⟩
  exact hsweeping.sids s hs (hsid.trans (hattended hidle))

/-- One step of the main thread; `Register` and `StartJob` make theirs where the sessions are
live. -/
def Guarded (w : World) (busy : Prop) (g t : Gateway) : Prop :=
  ∃ a, Acts w a g t ∧ (a = .register ∨ a = .startJob → Live busy g)

/-- Between two turns, the sessions are live in the second of the last cleanup. -/
structure Tidy (busy : Prop) (g : Gateway) : Prop where
  past : g.lastCleanup ≤ g.uploads.now
  live : g.lastCleanup = g.uploads.now → Live busy g

/-- Within a second no lease runs out. -/
theorem Tidy.outside (h : Tidy busy g) (ht : Outside w g t) : Tidy busy t where
  past := ht.stable.lastCleanup.trans_le (h.past.trans ht.stable.uploads.now)
  live := by
    intro hlast
    have hnow : t.uploads.now = g.uploads.now :=
      le_antisymm (hlast.symm.trans_le (ht.stable.lastCleanup.trans_le h.past))
        ht.stable.uploads.now
    refine (h.live ?_).outside ht fun s _ hlive => hnow ▸ hlive
    rw [← ht.stable.lastCleanup, hlast, hnow]

/-- A step of the main thread leaves the sessions live. -/
theorem Tidy.acts (h : Tidy busy g) (hact : Acts w a g t) (ha : a ≠ .run) (hfresh : Fresh g t)
    (hcovered : a = .completeWorker → t.future = none → g.lastCleanup = g.uploads.now →
      Live False g) : Tidy busy t where
  past := hact.lastCleanup_le h.past
  live := by
    intro hlast
    rw [hact.lastCleanup_eq ha, hact.now_eq] at hlast
    exact (h.live hlast).acts hact hfresh fun ha hidle => hcovered ha hidle hlast

variable {ok : Gateway → Gateway → Prop}

/-- From `Cleanup` on, the sessions are live while a turn lasts. -/
theorem phases_live (hfresh : ∀ {g t}, ok g t → Fresh g t)
    (htimely : ∀ {g t}, ok g t → busy → Timely g t)
    (hthorough : ∀ {g t}, ok g t → ¬busy → Thorough g t) :
    Phases w Unhurried ok (Guarded w busy) True (Tidy busy)
      (fun g => g.lastCleanup < g.uploads.now ∧ Live True g)
      (fun g => g.lastCleanup ≤ g.uploads.now ∧ Live busy g) where
  moves := fun ⟨a, hact, _⟩ => ⟨a, hact⟩
  refl g := ⟨.run, Acts.refl g, by rintro (h | h) <;> cases h⟩
  init := by
    rintro g ⟨now, owner, hpos, -, rfl⟩
    exact ⟨Nat.zero_le _, fun hlast => absurd hlast hpos.ne⟩
  crash hs := ⟨Nat.zero_le _, fun hlast => absurd hlast hs.2.1.ne⟩
  outside hB ht := hB.outside ht
  waits hS ht hcalm := ⟨ht.stable.lastCleanup.trans_lt (hS.1.trans_le ht.stable.uploads.now),
    hS.2.outside ht hcalm⟩
  rests hC ht hcalm := ⟨ht.stable.lastCleanup.trans_le (hC.1.trans ht.stable.uploads.now),
    hC.2.outside ht hcalm⟩
  lease _ _ hcalm hs hlive := hcalm _ hs hlive
  recover _ hB hact hok :=
    ⟨hB.acts hact (by intro h; cases h) (hfresh hok) (by intro h; cases h), .recover, hact,
      by rintro (h | h) <;> cases h⟩
  complete := by
    intro g t _ hB hact hok
    refine ⟨hB.acts hact (by intro h; cases h) (hfresh hok) fun _ hidle hlast => ?_,
      .completeWorker, hact, by rintro (h | h) <;> cases h⟩
    by_cases hbusy : busy
    · exact (hB.live hlast).of_covered (htimely hok hbusy hidle hlast)
    · exact (hB.live hlast).mono hbusy
  skip hs hB hlast := ⟨hs.2.2, hB.live hlast⟩
  clean := by
    intro g hs hg hdue
    refine (does_of_keeps (P := Sweeping g) keeps_cleanup (by intro h; cases h) Sweeping.outside
      (fun _ hP hact _ => ⟨hP.acts hact, .cleanup, hact, by rintro (h | h) <;> cases h⟩)
      ⟨⟨hdue, fun s => hs.1.sid_ne_nil, fun _ _ h => h⟩, hg.2⟩).mono ?_
    rintro _ t ⟨hswept, hsweeping, hattended, hready⟩
    exact ⟨⟨hsweeping.due, hswept.live_of_sweeping hsweeping hattended⟩, hattended, hready⟩
  due hS := hS.1
  swept := by
    intro g t hs hS hact hok hlast
    have hlive : Live busy g := by
      by_cases hbusy : busy
      · exact hS.2.mono fun _ => hbusy
      · exact (hS.2.of_covered (hthorough hok hbusy hlast.ne)).mono fun h => h.elim
    exact ⟨⟨hact.lastCleanup_le hs.2.2, hlive.acts hact (hfresh hok) (by intro h; cases h)⟩,
      .run, hact, by rintro (h | h) <;> cases h⟩
  register hs hC hact hok :=
    ⟨⟨hact.lastCleanup_le hs.2.2, hC.2.acts hact (hfresh hok) (by intro h; cases h)⟩,
      .register, hact, fun _ => hC.2⟩
  receive hs hC _ _ hact hok :=
    ⟨⟨hact.lastCleanup_le hs.2.2, hC.2.acts hact (hfresh hok) (by intro h; cases h)⟩,
      _, hact, fun _ => hC.2⟩
  deliver hs hC hact hok :=
    ⟨⟨hact.lastCleanup_le hs.2.2, hC.2.acts hact (hfresh hok) (by intro h; cases h)⟩,
      .deliver, hact, fun _ => hC.2⟩
  startJob hg := does_startJob
    (fun hC ht hcalm => ⟨ht.stable.lastCleanup.trans_le (hC.1.trans ht.stable.uploads.now),
      hC.2.outside ht hcalm⟩)
    (fun hs hC hact hok =>
      ⟨⟨hact.lastCleanup_le hs.2.2, hC.2.acts hact (hfresh hok) (by intro h; cases h)⟩,
        .startJob, hact, fun _ => hC.2⟩) hg
  done hC := ⟨hC.1, fun _ => hC.2⟩

/-! ## Steps that need a lease -/

/-- A job is moved from queued to running by `StartJob` only, while the worker has no call. -/
theorem Acts.starts {sid id : Bytes} (h : Acts w a g t) (hg : Consistent w g)
    (hstarts : Starts g t sid id) :
    a = .startJob ∧ g.future = none ∧ ∃ s ∈ g.sessions, s.sid = sid := by
  obtain ⟨⟨j, hj, hjis, hqueued⟩, j', hj', his, hrunning⟩ := hstarts
  have hsession : ∃ s ∈ g.sessions, s.sid = sid := hjis.1 ▸ hg.owned j hj
  -- A row that was running before is not the one that was queued.
  have hnot : ∀ j' ∈ g.jobs, j'.Is sid id → j'.state ≠ .running := by
    intro j' hj' his hstate
    rw [← eq_of_is hg.keys hj hj' hjis his, hqueued] at hstate
    cases hstate
  have hupdate : ∀ {sid' id' : Bytes} {f : Job → Job}, j' ∈ (g.updateJob sid' id' f).jobs →
      (∀ j, (f j).sid = j.sid ∧ (f j).id = j.id ∧
        ((f j).state = j.state ∨ (f j).state = .done)) → False := by
    intro sid' id' f hmem hf
    obtain ⟨j₀, hj₀, rfl⟩ := mem_updateJob hmem
    by_cases hkey : j₀.Is sid' id'
    · rw [if_pos hkey] at his hrunning
      obtain ⟨hsid, hid, hstate⟩ := hf j₀
      rw [Job.Is, hsid, hid] at his
      rcases hstate with hstate | hstate
      · exact hnot j₀ hj₀ his (hstate.symm.trans hrunning)
      · rw [hstate] at hrunning
        cases hrunning
    · rw [if_neg hkey] at his hrunning
      exact hnot j₀ hj₀ his hrunning
  obtain ⟨g', connected, owner, heffect, rfl⟩ := h
  change j' ∈ g'.jobs at hj'
  cases heffect with
  | start hidle => exact ⟨rfl, hidle, hsession⟩
  | welcome | reply | line =>
    obtain ⟨redis, log, heq⟩ := publishScript_eq _ _ g
    rw [heq] at hj'
    exact absurd hrunning (hnot j' hj' his)
  | @enqueue job _ _ _ _ _ _ hfresh =>
    rcases List.mem_append.1 hj' with hold | hnew
    · exact absurd hrunning (hnot j' hold his)
    · rw [List.mem_singleton.1 hnew, hfresh.1] at hrunning
      cases hrunning
  | rewind => exact (hupdate hj' fun j => ⟨rfl, rfl, .inl rfl⟩).elim
  | markDone => exact (hupdate hj' fun j => ⟨rfl, rfl, .inr rfl⟩).elim
  | advance => exact (hupdate hj' fun j => ⟨rfl, rfl, .inl rfl⟩).elim
  | expire => exact absurd hrunning (hnot j' (List.mem_filter.1 hj').1 his)
  | stay | discard | enter | remove | await | transfer | renew | hand | submit | collect | release
    | write | recovered | unlink | drop | swept => exact absurd hrunning (hnot j' hj' his)

/-- A job is executed by `StartJob` only, while the worker has no call. -/
theorem Acts.executes {sid id : Bytes} (h : Acts w a g t) (hg : Consistent w g)
    (hexecutes : Executes g t sid id) :
    a = .startJob ∧ g.future = none ∧ ∃ s ∈ g.sessions, s.sid = sid := by
  have hsame : ∀ {e : Happening}, g.log ≠ e :: g.log := List.ne_cons_self
  obtain ⟨g', connected, owner, heffect, rfl⟩ := h
  change g'.log = _ at hexecutes
  have howned : ∀ {row : Job}, row ∈ g.jobs → g'.log = .executed row.sid row.id :: g.log →
      ∃ s ∈ g.sessions, s.sid = sid := by
    intro row hrow hlog
    obtain ⟨hsid, -⟩ := Happening.executed.inj (List.cons.inj (hlog.symm.trans hexecutes)).1
    exact hsid ▸ hg.owned row hrow
  cases heffect with
  | renew hidle hrow => exact ⟨rfl, hidle, howned hrow rfl⟩
  | hand hidle hrow => exact ⟨rfl, hidle, howned hrow rfl⟩
  | submit hidle hrow => exact ⟨rfl, hidle, howned hrow rfl⟩
  | @welcome client frame =>
    rcases publishScript_cases (.bootstrap client) (direct frame) g with heq | heq
    · exact absurd (heq ▸ hexecutes) hsame
    · rw [heq] at hexecutes
      cases (List.cons.inj hexecutes).1
  | @reply session entry frame =>
    rcases publishScript_cases (.responses session.client session.sid) frame g with heq | heq
    · exact absurd (heq ▸ hexecutes) hsame
    · rw [heq] at hexecutes
      cases (List.cons.inj hexecutes).1
  | @line session row file line =>
    rcases publishScript_cases (.responses session.client session.sid) line g with heq | heq
    · exact absurd (heq ▸ hexecutes) hsame
    · rw [heq] at hexecutes
      cases (List.cons.inj hexecutes).1
  | enqueue | await | rewind | start | drop => cases (List.cons.inj hexecutes).1
  | stay | discard | enter | remove | transfer | collect | release | write | markDone | recovered
    | advance | unlink | expire | swept => exact absurd hexecutes hsame

/-- What is published on a bootstrap stream are replies of `Register`. -/
theorem Acts.greets {client frame : Bytes} (h : Acts w a g t)
    (hlog : t.log = .published (.bootstrap client) frame :: g.log) :
    a = .register ∧ ∃ reply, frame = direct reply ∧ Greets w g client reply := by
  have hsame : ∀ {e : Happening}, g.log ≠ e :: g.log := List.ne_cons_self
  obtain ⟨g', connected, owner, heffect, rfl⟩ := h
  change g'.log = _ at hlog
  cases heffect with
  | @welcome client' reply hgreets =>
    rcases publishScript_cases (.bootstrap client') (direct reply) g with heq | heq
    · exact absurd (heq ▸ hlog) hsame
    · rw [heq] at hlog
      cases (List.cons.inj hlog).1
      exact ⟨rfl, reply, rfl, hgreets⟩
  | @reply session entry frame =>
    rcases publishScript_cases (.responses session.client session.sid) frame g with heq | heq
    · exact absurd (heq ▸ hlog) hsame
    · rw [heq] at hlog
      cases (List.cons.inj hlog).1
  | @line session row file line =>
    rcases publishScript_cases (.responses session.client session.sid) line g with heq | heq
    · exact absurd (heq ▸ hlog) hsame
    · rw [heq] at hlog
      cases (List.cons.inj hlog).1
  | enqueue | await | rewind | start | renew | hand | submit | drop =>
    cases (List.cons.inj hlog).1
  | stay | discard | enter | remove | transfer | collect | release | write | markDone | recovered
    | advance | unlink | expire | swept => exact absurd hlog hsame

/-- Where the rows stay, no job is moved. -/
theorem Consistent.not_starts {sid id : Bytes} (hg : Consistent w g) (h : t.jobs = g.jobs) :
    ¬ Starts g t sid id := by
  rintro ⟨⟨j, hj, hjis, hqueued⟩, j', hj', his, hrunning⟩
  rw [h] at hj'
  rw [← eq_of_is hg.keys hj hj' hjis his, hqueued] at hrunning
  cases hrunning

/-- The history of the surroundings are the entries of the clients. -/
theorem Outside.log_cons {e : Happening} (h : Outside w g t) (hlog : t.log = e :: g.log) :
    ∃ key entry, e = .appended key entry := by
  obtain ⟨new, hnew, hall⟩ := h.stable.log
  have heq : new = [e] := List.append_cancel_right (hnew.symm.trans hlog)
  exact hall e (heq ▸ List.mem_singleton_self e)

/-- What a step of such a run is. -/
theorem guarded_of_step (busy : Prop) (hfresh : ∀ {g t}, ok g t → Fresh g t)
    (htimely : ∀ {g t}, ok g t → busy → Timely g t)
    (hthorough : ∀ {g t}, ok g t → ¬busy → Thorough g t)
    {x y : Gateway × Option (Prog Gateway Chance Unit)}
    (hx : (machine w False).ReachableIf Unhurried ok x)
    (hstep : (machine w False).StepIf Unhurried ok x y) : Sane w x.1 ∧
      (Outside w x.1 y.1 ∨ Guarded w busy x.1 y.1 ∨ y.1 = x.1.crash ∨ y.1 = x.1) := by
  have hsound := (phases_live (w := w) hfresh htimely hthorough).soundIf
  obtain ⟨hholds, -⟩ := hsound.reachable (J := fun _ => True) (fun _ => trivial)
    (fun _ _ _ => trivial) (fun _ _ _ _ => trivial) (fun _ _ => trivial) hx
  refine ⟨hholds.1, ?_⟩
  rcases (hsound.step hholds hstep).2 with h | ⟨h, -⟩ | h | h
  · exact .inl h
  · exact .inr (.inl h)
  · exact .inr (.inr (.inl h))
  · exact .inr (.inr (.inr h))

end

section

variable {w : World} {x y : Gateway × Option (Prog Gateway Chance Unit)}

/-- **No work for expired sessions**: in a run where no lease ends during a turn, or before its
session is journaled, and where the result of a call is not taken in the second of the last
cleanup when the lease of its session is over, a job is started and executed for a session whose
lease has not run out only. -/
theorem work_leased
    (hx : (machine w False).ReachableIf Unhurried (fun g t => Fresh g t ∧ Timely g t) x)
    (hstep : (machine w False).StepIf Unhurried (fun g t => Fresh g t ∧ Timely g t) x y)
    {sid id : Bytes} (h : Starts x.1 y.1 sid id ∨ Executes x.1 y.1 sid id) : Leased x.1 sid := by
  obtain ⟨hsane, hcases⟩ := guarded_of_step True (fun h => h.1) (fun h _ => h.2)
    (fun _ h => absurd trivial h) hx hstep
  have hsame : ∀ {e : Happening}, x.1.log ≠ e :: x.1.log := List.ne_cons_self
  rcases hcases with hout | ⟨a, hact, hlive⟩ | hcrash | hsame'
  · rcases h with hstarts | hexecutes
    · exact absurd hstarts (hsane.1.not_starts hout.stable.jobs)
    · obtain ⟨key, entry, heq⟩ := hout.log_cons hexecutes
      cases heq
  · have hwork : a = .startJob ∧ x.1.future = none ∧ ∃ s ∈ x.1.sessions, s.sid = sid :=
      h.elim (hact.starts hsane.1) (hact.executes hsane.1)
    obtain ⟨ha, hidle, s, hs, hsid⟩ := hwork
    exact ⟨s, hs, hsid, (hlive (.inr ha)).of_idle hidle hs⟩
  · rw [hcrash] at h
    exact (h.elim (hsane.1.not_starts rfl) hsame).elim
  · rw [hsame'] at h
    exact (h.elim (hsane.1.not_starts rfl) hsame).elim

/-- A session, a request of it that the worker has and a renewal behind it, when the lease runs out
and the result comes in the second of the cleanup. -/
def sampleOverdue : List Event :=
  [.recover, .append .register sampleRegistration, .turn,
    .append sampleRequests (sampleRequest "b" "interface.list"), .turn,
    .append sampleRequests (sampleRequest "a" "session.renew"), .turn, .tick 5000, .turn,
    .finish {}]

/-- The renewal without the rest. -/
def sampleRenewal : List Event :=
  [.recover, .append .register sampleRegistration, .turn,
    .append sampleRequests (sampleRequest "a" "session.renew")]

/-- The lease of a session is renewed right before its request is executed. -/
theorem work_leased_renewal : ∃ x y,
    (machine sampleWorld False).ReachableIf Unhurried (fun g t => Fresh g t ∧ Timely g t) x ∧
      (machine sampleWorld False).StepIf Unhurried (fun g t => Fresh g t ∧ Timely g t) x y ∧
        Starts x.1 y.1 (sampleSite.randomId 0) "a" ∧ Leased x.1 (sampleSite.randomId 0) := by
  have hscript : (scriptStep sampleWorld (fun g t => decide (Fresh g t ∧ Timely g t)) sampleRenewal
      20 { uploads := { now := 1000 } }).any
        (fun r => decide (Starts r.1 r.2 (sampleSite.randomId 0) "a")) = true := by
    decide +kernel
  obtain ⟨r, hr, hstarts⟩ := (Option.any_eq_true _ _).1 hscript
  obtain ⟨p, q, hx, hstep⟩ := stepIf_sample Unhurried (fun g t => Fresh g t ∧ Timely g t)
    (fun _ _ h => of_decide_eq_true h) (fun _ hmem => by simp [sampleRenewal] at hmem) hr
  exact ⟨_, _, hx, hstep, of_decide_eq_true hstarts,
    work_leased hx hstep (.inl (of_decide_eq_true hstarts))⟩

/-- **A job of an expired session is started**: the renewal of a session whose lease ran out while
the worker was busy. -/
theorem work_overdue : ¬ ∀ (w : World) x y, (machine w False).Reachable x →
    (machine w False).Step x y → ∀ sid id, Starts x.1 y.1 sid id → Leased x.1 sid := by
  intro hlaw
  have hscript : (scriptStep sampleWorld (fun _ _ => true) sampleOverdue 20
      { uploads := { now := 1000 } }).any (fun r => decide
        (Starts r.1 r.2 (sampleSite.randomId 0) "a" ∧ ¬ Leased r.1 (sampleSite.randomId 0))) =
        true := by
    decide +kernel
  obtain ⟨r, hr, hboth⟩ := (Option.any_eq_true _ _).1 hscript
  obtain ⟨hstarts, hleased⟩ := of_decide_eq_true hboth
  obtain ⟨p, q, hx, hstep⟩ := stepIf_sample (fun _ _ => True) (fun _ _ => True)
    (fun _ _ _ => trivial) (fun _ hmem => by simpa [sampleOverdue] using hmem) hr
  exact hleased (hlaw sampleWorld _ _ hx.reachable hstep.step _ _ hstarts)

/-- **Registration hands out live sessions**: in a run where no lease ends during a turn, or before
its session is journaled, and where `Cleanup` leaves no expired session to a call, a reply to a
registration is an error or names a session of the client whose lease has not run out. -/
theorem registrations_leased
    (hx : (machine w False).ReachableIf Unhurried (fun g t => Fresh g t ∧ Thorough g t) x)
    (hstep : (machine w False).StepIf Unhurried (fun g t => Fresh g t ∧ Thorough g t) x y)
    {client frame : Bytes} (h : y.1.log = .published (.bootstrap client) frame :: x.1.log) :
    Admits w x.1 client frame := by
  obtain ⟨hsane, hcases⟩ := guarded_of_step False (fun h => h.1) (fun _ h => h.elim)
    (fun h _ => h.2) hx hstep
  have hsame : ∀ {e : Happening}, x.1.log ≠ e :: x.1.log := List.ne_cons_self
  rcases hcases with hout | ⟨a, hact, hlive⟩ | hcrash | hsame'
  · obtain ⟨key, entry, heq⟩ := hout.log_cons h
    cases heq
  · obtain ⟨ha, reply, rfl, ⟨id, status, rfl⟩ | ⟨id, s, hs, hclient, rfl⟩⟩ := hact.greets h
    · exact .inl ⟨id, status, rfl⟩
    · refine .inr ⟨id, s, hs, hclient, ?_, rfl⟩
      exact (hlive (.inl ha) s hs).resolve_right fun h => h.1
  · rw [hcrash] at h
    exact absurd h hsame
  · rw [hsame'] at h
    exact absurd h hsame

theorem direct_error (id : Bytes) (status : Status) :
    ∃ rest, direct (error id status) = 123 :: 34 :: 101 :: rest := ⟨_, rfl⟩

/-- A registration, repeated after the lease has run out while the worker has a request. -/
def sampleRepeated : List Event :=
  [.recover, .append .register sampleRegistration, .turn,
    .append sampleRequests (sampleRequest "b" "interface.list"), .turn, .tick 5000,
    .append .register sampleRegistration]

/-- The frame that a step publishes on a bootstrap stream of the client, where it is no error. -/
def welcomed (client : Bytes) (g t : Gateway) : Option Bytes :=
  match t.log with
  | .published (.bootstrap client') frame :: older =>
    if client' = client ∧ older = g.log ∧ (frame.drop 2).head? ≠ some 101 then some frame else none
  | _ => none

/-- What is welcomed was published, and is no error. -/
theorem log_of_welcomed {client frame : Bytes} {g t : Gateway}
    (h : welcomed client g t = some frame) :
    t.log = .published (.bootstrap client) frame :: g.log ∧
      ∀ id status, frame ≠ direct (error id status) := by
  unfold welcomed at h
  split at h
  · next client' frame' older hlog =>
    rw [Option.ite_none_right_eq_some, Option.some.injEq] at h
    obtain ⟨⟨rfl, rfl, hthird⟩, rfl⟩ := h
    refine ⟨hlog, fun id status heq => hthird ?_⟩
    obtain ⟨rest, hrest⟩ := direct_error id status
    rw [heq, hrest]
    rfl
  · cases h

/-- A registration, repeated while the lease lasts: the reply names the first session. -/
theorem registrations_leased_again : ∃ x y frame,
    (machine sampleWorld False).ReachableIf Unhurried (fun g t => Fresh g t ∧ Thorough g t) x ∧
      (machine sampleWorld False).StepIf Unhurried (fun g t => Fresh g t ∧ Thorough g t) x y ∧
        y.1.log = .published (.bootstrap "c1") frame :: x.1.log ∧
          x.1.uploads.now = 1500 ∧ x.1.sessions.map Session.expires = [4600] ∧
            ∃ id, ∃ s ∈ x.1.sessions, s.client = utf8 "c1" ∧ x.1.uploads.now < s.expires ∧
              frame = direct (welcome sampleSite id s) := by
  have hscript : (scriptStep sampleWorld (fun g t => decide (Fresh g t ∧ Thorough g t))
      [.recover, .append .register sampleRegistration, .turn, .tick 1500,
        .append .register sampleRegistration] 12 { uploads := { now := 1000 } }).any
        (fun r => (welcomed "c1" r.1 r.2).isSome &&
          decide (r.1.uploads.now = 1500 ∧ r.1.sessions.map Session.expires = [4600])) = true := by
    decide +kernel
  obtain ⟨r, hr, hboth⟩ := (Option.any_eq_true _ _).1 hscript
  obtain ⟨hsome, hlease⟩ := (Bool.and_eq_true _ _).mp hboth
  obtain ⟨hnow, hexpires⟩ := of_decide_eq_true hlease
  obtain ⟨frame, hframe⟩ := Option.isSome_iff_exists.1 hsome
  obtain ⟨hlog, hno⟩ := log_of_welcomed hframe
  obtain ⟨p, q, hx, hstep⟩ := stepIf_sample Unhurried (fun g t => Fresh g t ∧ Thorough g t)
    (fun _ _ h => of_decide_eq_true h) (fun _ hmem => by simp at hmem) hr
  refine ⟨_, _, frame, hx, hstep, hlog, hnow, hexpires, ?_⟩
  rcases registrations_leased hx hstep hlog with ⟨id, status, herror⟩ | hsession
  · exact absurd herror (hno id status)
  · exact hsession

/-- **An expired session is handed out**: its registration is repeated after its lease has run out
while the worker was busy. -/
theorem registrations_overdue : ¬ ∀ (w : World) x y, (machine w False).Reachable x →
    (machine w False).Step x y → ∀ client frame,
      y.1.log = .published (.bootstrap client) frame :: x.1.log → Admits w x.1 client frame := by
  intro hlaw
  have hscript : (scriptStep sampleWorld (fun _ _ => true) sampleRepeated 13
      { uploads := { now := 1000 } }).any (fun r => (welcomed "c1" r.1 r.2).isSome &&
        decide (∀ s ∈ r.1.sessions, s.expires ≤ r.1.uploads.now)) = true := by
    decide +kernel
  obtain ⟨r, hr, hboth⟩ := (Option.any_eq_true _ _).1 hscript
  obtain ⟨hsome, hexpired⟩ := (Bool.and_eq_true _ _).mp hboth
  obtain ⟨frame, hframe⟩ := Option.isSome_iff_exists.1 hsome
  obtain ⟨hlog, hno⟩ := log_of_welcomed hframe
  obtain ⟨p, q, hx, hstep⟩ := stepIf_sample (fun _ _ => True) (fun _ _ => True)
    (fun _ _ _ => trivial) (fun _ hmem => by simp [sampleRepeated] at hmem) hr
  rcases hlaw sampleWorld _ _ hx.reachable hstep.step _ _ hlog with
    ⟨id, status, herror⟩ | ⟨id, s, hs, -, hlive, -⟩
  · exact hno id status herror
  · exact absurd hlive (not_lt.2 (of_decide_eq_true hexpired s hs))

end

end Gateway

end VppJson
