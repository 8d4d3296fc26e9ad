import VppJsonGateway.GatewaySpec
import VppJsonGateway.SpoolFaults

/-!
# The invariant of the gateway

Nothing that happens around the gateway breaks `Consistent`, no effect of the main thread does, and
a crash does not.
-/

namespace VppJson

open Lib

namespace Gateway

variable {w : World} {g g' g'' : Gateway}

/-! ## The surroundings -/

theorem Stable.refl (g : Gateway) : Stable g g where
  sessions := rfl
  jobs := rfl
  drawn := rfl
  ready := rfl
  connected := rfl
  activeSid := rfl
  activeId := rfl
  activePath := rfl
  lastCleanup := rfl
  uploads := Uploads.Waits.refl _
  future := fun _ h => ⟨_, h, rfl, rfl, rfl, fun _ h => h⟩
  idle := fun h => ⟨h, rfl⟩
  spool := fun _ _ => rfl
  log := ⟨[], rfl, fun _ h => by cases h⟩

theorem Stable.trans (h : Stable g g') (h' : Stable g' g'') : Stable g g'' where
  sessions := h'.sessions.trans h.sessions
  jobs := h'.jobs.trans h.jobs
  drawn := h'.drawn.trans h.drawn
  ready := h'.ready.trans h.ready
  connected := h'.connected.trans h.connected
  activeSid := h'.activeSid.trans h.activeSid
  activeId := h'.activeId.trans h.activeId
  activePath := h'.activePath.trans h.activePath
  lastCleanup := h'.lastCleanup.trans h.lastCleanup
  uploads := h.uploads.trans h'.uploads
  future := by
    intro task htask
    obtain ⟨task', h₁, hreq, hpath, havail, hout⟩ := h.future task htask
    obtain ⟨task'', h₂, hreq', hpath', havail', hout'⟩ := h'.future task' h₁
    exact ⟨task'', h₂, hreq'.trans hreq, hpath'.trans hpath, havail'.trans havail,
      fun status hs => hout' status (hout status hs)⟩
  idle := by
    intro hidle
    obtain ⟨hf, hs⟩ := h.idle hidle
    obtain ⟨hf', hs'⟩ := h'.idle hf
    exact ⟨hf', hs'.trans hs⟩
  spool := by
    intro path hpath
    refine (h'.spool path ?_).trans (h.spool path hpath)
    intro task' htask'
    cases hfuture : g.future with
    | none =>
      rw [(h.idle hfuture).1] at htask'
      cases htask'
    | some task =>
      obtain ⟨task'', h₁, -, hp, -⟩ := h.future task hfuture
      obtain rfl : task'' = task' := Option.some.inj (h₁.symm.trans htask')
      rw [hp]
      exact hpath task hfuture
  log := by
    obtain ⟨new, hnew, hall⟩ := h.log
    obtain ⟨new', hnew', hall'⟩ := h'.log
    refine ⟨new' ++ new, by rw [hnew', hnew, List.append_assoc], fun e he => ?_⟩
    rcases List.mem_append.1 he with he | he
    · exact hall' e he
    · exact hall e he

/-- What happens around the gateway leaves its own things alone. -/
theorem Outside.stable (h : Outside w g g') : Stable g g' := by
  have hrefl := Stable.refl g
  cases h with
  | @tick now hnow hbound =>
    have hwaits : Uploads.Waits g.uploads { g.uploads with now := now } :=
      ⟨rfl, rfl, hnow, fun _ => by
        have : Limits.leaseSeconds = 3600 := rfl
        change now + 600 < 2 ^ 63
        omega⟩
    exact { hrefl with uploads := hwaits }
  | @append key hkey fields =>
    exact { hrefl with log := ⟨[.appended key ((g.redis key).next fields)], rfl, by simp⟩ }
  | trim => exact { hrefl with }
  | own owner => exact { hrefl with }
  | @scribble task hfuture hgoing content =>
    refine { hrefl with idle := ?_, spool := ?_ }
    · intro hidle
      rw [hfuture] at hidle
      cases hidle
    · intro path hpath
      exact AList.lookup_insert_ne (hpath task hfuture)
  | @finish task hfuture hgoing response hresponse disk =>
    refine { hrefl with future := ?_, idle := ?_, spool := ?_ }
    · intro task' htask'
      obtain rfl : task = task' := Option.some.inj (hfuture.symm.trans htask')
      refine ⟨_, rfl, rfl, rfl, rfl, fun status hs => ?_⟩
      rw [hgoing] at hs
      cases hs
    · intro hidle
      rw [hfuture] at hidle
      cases hidle
    · intro path hpath
      dsimp only
      split
      · exact AList.lookup_insert_ne (hpath task hfuture)
      · rfl

theorem Rests.stable (h : Rests w g g') : Stable g g' := by
  induction h with
  | refl => exact Stable.refl g
  | tail _ hstep ih => exact ih.trans hstep.stable

/-! ## Tables -/

/-- What a session's jobs use, as a sum over the table. -/
theorem usedBy_eq (g : Gateway) (sid : Bytes) :
    g.usedBy sid = (g.jobs.map fun j => if j.sid = sid then j.size else 0).sum := by
  unfold usedBy jobsOf
  induction g.jobs with
  | nil => rfl
  | cons j jobs ih =>
    by_cases hj : j.sid = sid
    · simp [hj, ih]
    · simp [hj, ih]

/-- A column that the update leaves alone. -/
theorem map_updateJob {α : Type} {sid id : Bytes} {f : Job → Job} {p : Job → α}
    (h : ∀ j, p (f j) = p j) : (g.updateJob sid id f).jobs.map p = g.jobs.map p := by
  rw [updateJob, List.map_map]
  refine List.map_congr_left fun j _ => ?_
  simp only [Function.comp_apply]
  split
  · exact h j
  · rfl

/-- A row of the journal after an update is an old one, changed or not. -/
theorem mem_updateJob {sid id : Bytes} {f : Job → Job} {j' : Job}
    (h : j' ∈ (g.updateJob sid id f).jobs) : ∃ j ∈ g.jobs, j' = if j.Is sid id then f j else j := by
  obtain ⟨j, hj, rfl⟩ := List.mem_map.1 h
  exact ⟨j, hj, rfl⟩

theorem mem_updateJob_of_mem {sid id : Bytes} {f : Job → Job} {j : Job} (h : j ∈ g.jobs) :
    (if j.Is sid id then f j else j) ∈ (g.updateJob sid id f).jobs :=
  List.mem_map_of_mem h

/-- The primary key determines the row. -/
theorem eq_of_is (hkeys : (g.jobs.map fun j => (j.sid, j.id)).Nodup) {j j' : Job} (hj : j ∈ g.jobs)
    (hj' : j' ∈ g.jobs) {sid id : Bytes} (h : j.Is sid id) (h' : j'.Is sid id) : j = j' := by
  refine List.inj_on_of_nodup_map hkeys hj hj' ?_
  obtain ⟨rfl, rfl⟩ := h
  obtain ⟨h₁, h₂⟩ := h'
  rw [h₁, h₂]

/-! ## The invariant -/

/-- The call of the worker, after the rows, the budgets and the files have changed otherwise. -/
theorem Holds.mono {task : Task} {row row' : Job} (h : Holds w g task row) (hmem : row' ∈ g'.jobs)
    (hsid : row'.sid = row.sid) (hid : row'.id = row.id) (hpath : row'.path = row.path)
    (hstate : row'.state = row.state) (hactiveSid : g'.activeSid = g.activeSid)
    (hactiveId : g'.activeId = g.activeId) (hactivePath : g'.activePath = g.activePath)
    (hused : g'.used ≤ g.used) (husedBy : g'.usedBy row.sid ≤ g.usedBy row.sid)
    (hfile : ∀ file, g'.spool.lookup task.path = some file →
      g.spool.lookup task.path = some file) : Holds w g' task row' where
  mem := hmem
  sid := by rw [hsid, hactiveSid, h.sid]
  id := by rw [hid, hactiveId, h.id]
  path := by rw [hpath, hactivePath, h.path]
  running := hstate.trans h.running
  file := h.file.trans hpath.symm
  request := fun hr => (h.request hr).trans hid.symm
  total := by
    have := h.total
    omega
  share := by
    have := h.share
    rw [hsid]
    omega
  result := fun status hs hok file hf => h.result status hs hok file (hfile file hf)

/-- A row updated in ways the worker does not see. -/
theorem Holds.updateJob {task : Task} {row : Job} (h : Holds w g task row) {sid id : Bytes}
    {f : Job → Job} (hf : ∀ j, (f j).sid = j.sid ∧ (f j).id = j.id ∧ (f j).path = j.path ∧
      (f j).state = j.state ∧ (f j).size = j.size) :
    ∃ row', Holds w (g.updateJob sid id f) task row' := by
  refine ⟨_, h.mono (mem_updateJob_of_mem h.mem) ?_ ?_ ?_ ?_ rfl rfl rfl ?_ ?_ fun _ hl => hl⟩
  · split
    · exact (hf row).1
    · rfl
  · split
    · exact (hf row).2.1
    · rfl
  · split
    · exact (hf row).2.2.1
    · rfl
  · split
    · exact (hf row).2.2.2.1
    · rfl
  · rw [used, used, map_updateJob fun j => (hf j).2.2.2.2]
  · rw [usedBy_eq, usedBy_eq, map_updateJob fun j => by rw [(hf j).1, (hf j).2.2.2.2]]

/-- A row updated but for its key, its request and its file. -/
theorem Consistent.updateJob (h : Consistent w g) {sid id : Bytes} {f : Job → Job}
    (hf : ∀ j, (f j).sid = j.sid ∧ (f j).id = j.id ∧ (f j).body = j.body ∧ (f j).path = j.path)
    (hsize : ∀ j ∈ g.jobs, j.Is sid id → (f j).state ≠ .done → (f j).size = 0)
    (hactive : ∀ {task}, g.future = some task → ∃ row, Holds w (g.updateJob sid id f) task row) :
    Consistent w (g.updateJob sid id f) where
  uploads := h.uploads
  issued := h.issued
  sids := h.sids
  leased := h.leased
  keys := by
    rw [map_updateJob fun j => by rw [(hf j).1, (hf j).2.1]]
    exact h.keys
  owned := by
    intro j' hj'
    obtain ⟨j, hj, rfl⟩ := mem_updateJob hj'
    split
    · rw [(hf j).1]
      exact h.owned j hj
    · exact h.owned j hj
  named := by
    intro j' hj'
    obtain ⟨j, hj, rfl⟩ := mem_updateJob hj'
    split
    · rw [(hf j).2.1, (hf j).2.2.1]
      exact h.named j hj
    · exact h.named j hj
  placed := by
    intro j' hj'
    obtain ⟨j, hj, rfl⟩ := mem_updateJob hj'
    split
    · rw [(hf j).1, (hf j).2.1, (hf j).2.2.2]
      exact h.placed j hj
    · exact h.placed j hj
  unsized := by
    intro j' hj'
    obtain ⟨j, hj, rfl⟩ := mem_updateJob hj'
    split
    · next his => exact hsize j hj his
    · exact h.unsized j hj
  noted := h.noted
  active := hactive

/-- The history grows, and the streams of the clients lose entries only. -/
theorem Consistent.redis (h : Consistent w g) {redis : Key → Stream} {log : List Happening}
    (hredis : ∀ key, key.isInput = true → ∀ e ∈ (redis key).entries, e ∈ (g.redis key).entries)
    (hlog : ∀ e ∈ g.log, e ∈ log) : Consistent w { g with redis, log } where
  uploads := h.uploads
  issued := h.issued
  sids := h.sids
  leased := h.leased
  keys := h.keys
  owned := h.owned
  named := h.named
  placed := h.placed
  unsized := h.unsized
  noted := fun hkey he => hlog _ (h.noted hkey (hredis _ hkey _ he))
  active := fun hf => by
    obtain ⟨row, hr⟩ := h.active hf
    exact ⟨row, { hr with }⟩

/-- What `Publish` does: nothing when the window is full, else one entry and its record. -/
theorem publishScript_cases (key : Key) (json : Bytes) (g : Gateway) :
    (publishScript key json g).2 = g ∨ (publishScript key json g).2 =
      { g with redis := Function.update g.redis key ((g.redis key).add [("json", json)])
               log := .published key json :: g.log } := by
  unfold publishScript
  split
  · exact .inl rfl
  · exact .inr rfl

/-- `Publish` leaves everything but Redis and the history. -/
theorem publishScript_eq (key : Key) (json : Bytes) (g : Gateway) :
    ∃ redis log, (publishScript key json g).2 = { g with redis, log } := by
  rcases publishScript_cases key json g with heq | heq
  · exact ⟨g.redis, g.log, heq⟩
  · exact ⟨_, _, heq⟩

/-- Replies leave the journal and the files. -/
theorem Consistent.publish (h : Consistent w g) {key : Key} (hkey : key.isInput = false)
    (json : Bytes) : Consistent w (publishScript key json g).2 := by
  rcases publishScript_cases key json g with heq | heq
  · rw [heq]
    exact h
  · rw [heq]
    refine h.redis (fun key' hkey' e he => ?_) fun e he => List.mem_cons_of_mem _ he
    have hne : key' ≠ key := by
      rintro rfl
      rw [hkey] at hkey'
      cases hkey'
    rw [Function.update_of_ne hne] at he
    exact he

/-- A stream that loses entries. -/
theorem Consistent.setStream (h : Consistent w g) {key : Key} {s : Stream}
    (hs : ∀ e ∈ s.entries, e ∈ (g.redis key).entries) : Consistent w (g.setStream key s) := by
  refine @Consistent.redis w g h (Function.update g.redis key s) g.log (fun key' _ e he => ?_)
    fun e he => he
  by_cases hkey : key' = key
  · subst hkey
    rw [Function.update_self] at he
    exact hs e he
  · rw [Function.update_of_ne hkey] at he
    exact he

/-- Nothing that happens around the gateway breaks the invariant. -/
theorem Outside.consistent (h : Outside w g g') (hg : Consistent w g) : Consistent w g' := by
  have hstable := h.stable
  cases h with
  | tick hnow hbound =>
    refine { hg with uploads := hstable.uploads.sound hg.uploads, leased := ?_, active := ?_ }
    · intro s hs
      have := hg.leased s hs
      dsimp only at hnow ⊢
      omega
    intro task hf
    obtain ⟨row, hr⟩ := hg.active hf
    exact ⟨row, { hr with }⟩
  | @append key hkey fields =>
    refine { hg with noted := ?_, active := ?_ }
    · intro key' e hkey' he
      by_cases hk : key' = key
      · subst hk
        simp only [Gateway.setStream, Function.update_self] at he
        rcases Stream.mem_add.1 he with he | rfl
        · exact List.mem_cons_of_mem _ (hg.noted hkey' he)
        · exact List.mem_cons_self
      · simp only [Gateway.setStream, Function.update_of_ne hk] at he
        exact List.mem_cons_of_mem _ (hg.noted hkey' he)
    · intro task hf
      obtain ⟨row, hr⟩ := hg.active hf
      exact ⟨row, { hr with }⟩
  | trim hsub hkept => exact hg.setStream fun e he => hsub.subset he
  | own owner =>
    refine { hg with active := ?_ }
    intro task hf
    obtain ⟨row, hr⟩ := hg.active hf
    exact ⟨row, { hr with }⟩
  | @scribble task hfuture hgoing content =>
    refine { hg with active := ?_ }
    intro task' hf
    obtain rfl : task = task' := Option.some.inj (hfuture.symm.trans hf)
    obtain ⟨row, hr⟩ := hg.active hf
    refine ⟨row, { hr with result := ?_ }⟩
    intro status hs
    rw [hgoing] at hs
    cases hs
  | @finish task hfuture hgoing response hresponse disk =>
    refine { hg with active := ?_ }
    rintro _ ⟨⟩
    obtain ⟨row, hr⟩ := hg.active hfuture
    refine ⟨row, { hr with result := ?_ }⟩
    rintro _ ⟨⟩ hok file hfile
    refine ⟨response, disk, hresponse, rfl, ?_⟩
    have hopened : (task.run w.env response disk).2.opened = true := by
      rw [Spool.run_eq_serve] at hok ⊢
      exact (Spool.serve_of_ok hok).2.2
    dsimp only at hfile
    rw [if_pos hopened, AList.lookup_insert] at hfile
    exact Option.some.inj hfile

/-- So do the other parties while a function waits. -/
theorem Rests.consistent (h : Rests w g g') (hg : Consistent w g) : Consistent w g' := by
  induction h with
  | refl => exact hg
  | tail _ hstep ih => exact hstep.consistent ih

/-- A job that is queued is one of the journal. -/
theorem mem_of_find? {p : Job → Bool} {row : Job} (h : g.jobs.find? p = some row) :
    row ∈ g.jobs ∧ p row = true :=
  ⟨List.mem_of_find?_eq_some h, List.find?_some h⟩

/-- A new row has a name and a file of its own. -/
theorem Consistent.enqueue (h : Consistent w g) {job : Job}
    (hfree : ∀ j ∈ g.jobs, ¬ j.Is job.sid job.id) (hsession : ∃ s ∈ g.sessions, s.sid = job.sid)
    (hid : isIdText job.id = true)
    (hbody : w.env.Rereads → ∀ request, Json.parse w.env.strtod job.body = some request →
      idOf request = job.id)
    (hpath : job.path = w.spoolPath job.sid job.id) (hsize : job.size = 0)
    {log : List Happening} (hlog : ∀ e ∈ g.log, e ∈ log) :
    Consistent w { g with jobs := g.jobs ++ [job], log } where
  uploads := h.uploads
  issued := h.issued
  sids := h.sids
  leased := h.leased
  keys := by
    rw [List.map_append]
    refine List.Nodup.append h.keys (List.nodup_singleton _) ?_
    intro key hkey hkey'
    obtain ⟨j, hj, rfl⟩ := List.mem_map.1 hkey
    rw [List.map_singleton, List.mem_singleton] at hkey'
    exact hfree j hj ⟨congrArg Prod.fst hkey', congrArg Prod.snd hkey'⟩
  owned := by
    intro j hj
    rcases List.mem_append.1 hj with hj | hj
    · exact h.owned j hj
    · rw [List.mem_singleton.1 hj]
      exact hsession
  named := by
    intro j hj
    rcases List.mem_append.1 hj with hj | hj
    · exact h.named j hj
    · rw [List.mem_singleton.1 hj]
      exact ⟨hid, hbody⟩
  placed := by
    intro j hj
    rcases List.mem_append.1 hj with hj | hj
    · exact h.placed j hj
    · rw [List.mem_singleton.1 hj]
      exact hpath
  unsized := by
    intro j hj hstate
    rcases List.mem_append.1 hj with hj | hj
    · exact h.unsized j hj hstate
    · rw [List.mem_singleton.1 hj]
      exact hsize
  noted := fun hkey he => hlog _ (h.noted hkey he)
  active := by
    intro task hf
    obtain ⟨row, hr⟩ := h.active hf
    refine ⟨row, hr.mono (List.mem_append_left _ hr.mem) rfl rfl rfl rfl rfl rfl rfl ?_ ?_
      fun _ hl => hl⟩
    · simp [used, hsize]
    · simp [usedBy_eq, hsize]

/-- The sum over some of the rows. -/
theorem sum_filter_le (p : Job → Bool) (f : Job → Nat) (jobs : List Job) :
    ((jobs.filter p).map f).sum ≤ (jobs.map f).sum :=
  List.Sublist.sum_le_sum (List.filter_sublist.map f) fun _ _ => Nat.zero_le _

/-- The rows of a session go with it, but never the row that is being worked on. -/
theorem Consistent.deleteSession (h : Consistent w g) {sid : Bytes} (hactive : sid ≠ g.activeSid) :
    Consistent w (g.deleteSession sid) where
  uploads := h.uploads
  issued := fun s hs => h.issued s (List.mem_of_mem_filter hs)
  sids := h.sids.sublist (List.filter_sublist.map _)
  leased := fun s hs => h.leased s (List.mem_of_mem_filter hs)
  keys := h.keys.sublist (List.filter_sublist.map _)
  owned := by
    intro j hj
    obtain ⟨hj, hne⟩ := List.mem_filter.1 hj
    obtain ⟨s, hs, hsid⟩ := h.owned j hj
    refine ⟨s, List.mem_filter.2 ⟨hs, ?_⟩, hsid⟩
    rw [hsid]
    exact hne
  named := fun j hj => h.named j (List.mem_of_mem_filter hj)
  placed := fun j hj => h.placed j (List.mem_of_mem_filter hj)
  unsized := fun j hj => h.unsized j (List.mem_of_mem_filter hj)
  noted := h.noted
  active := by
    intro task hf
    obtain ⟨row, hr⟩ := h.active hf
    refine ⟨row, hr.mono (List.mem_filter.2 ⟨hr.mem, ?_⟩) rfl rfl rfl rfl rfl rfl rfl
      (sum_filter_le _ _ _) ?_ fun _ hl => hl⟩
    · rw [hr.sid]
      exact decide_eq_true hactive.symm
    · rw [usedBy_eq, usedBy_eq]
      exact sum_filter_le _ _ _

/-- No effect of the main thread breaks the invariant. -/
theorem Effect.consistent {a : Actor} (h : Effect w g a g') (hg : Consistent w g) : Consistent w g' := by
  have hkeep : ∀ {task}, g.future = some task → ∃ row, Holds w g task row := hg.active
  have hidle : g.future = none → ∀ {g'' : Gateway} {task}, g.future = some task →
      ∃ row, Holds w g'' task row := by
    intro hnone g'' task hf
    rw [hnone] at hf
    cases hf
  cases h with
  | stay _ => exact hg
  | discard entry => exact hg.setStream fun e he => (Stream.mem_delete.1 he).1
  | welcome hframe => exact hg.publish rfl _
  | @enter client registration expires hnew hexpires =>
    refine { hg with issued := ?_, sids := ?_, leased := ?_, owned := ?_, active := ?_ }
    · intro s hs
      rcases List.mem_append.1 hs with hs | hs
      · obtain ⟨n, hn, hsid⟩ := hg.issued s hs
        exact ⟨n, Nat.lt_succ_of_lt hn, hsid⟩
      · rw [List.mem_singleton.1 hs]
        exact ⟨g.drawn, Nat.lt_succ_self _, rfl⟩
    · rw [List.map_append]
      refine List.Nodup.append hg.sids (List.nodup_singleton _) ?_
      intro sid hsid hsid'
      obtain ⟨s, hs, rfl⟩ := List.mem_map.1 hsid
      exact hnew s hs (List.mem_singleton.1 hsid')
    · intro s hs
      rcases List.mem_append.1 hs with hs | hs
      · exact hg.leased s hs
      · rw [List.mem_singleton.1 hs]
        exact hexpires
    · intro j hj
      obtain ⟨s, hs, hsid⟩ := hg.owned j hj
      exact ⟨s, List.mem_append_left _ hs, hsid⟩
    · intro task hf
      obtain ⟨row, hr⟩ := hkeep hf
      exact ⟨row, { hr with }⟩
  | remove hentry hsettled => exact hg.setStream fun e he => (Stream.mem_delete.1 he).1
  | reply hsession hentry hframe => exact hg.publish rfl _
  | enqueue hfree hsession hid hbody htext hpath hfresh hcount hroom =>
    exact hg.enqueue hfree hsession hid hbody hpath hfresh.2.2 fun e he => List.mem_cons_of_mem _ he
  | await hrow his hstate => exact hg.redis (fun _ _ _ he => he) fun e he => List.mem_cons_of_mem _ he
  | @rewind sid id row hrow his hstate =>
    have hup : Consistent w (g.updateJob sid id ({ · with offset := 0 })) := by
      refine hg.updateJob (fun j => ⟨rfl, rfl, rfl, rfl⟩) (fun j hj _ => hg.unsized j hj) ?_
      intro task hf
      obtain ⟨row, hr⟩ := hkeep hf
      exact hr.updateJob fun j => ⟨rfl, rfl, rfl, rfl, rfl⟩
    exact hup.redis (fun _ _ _ he => he) fun e he => List.mem_cons_of_mem _ he
  | transfer _ hsteps =>
    refine { hg with uploads := hsteps.sound hg.uploads, leased := ?_, active := ?_ }
    · intro s hs
      rw [hsteps.1]
      exact hg.leased s hs
    intro task hf
    obtain ⟨row, hr⟩ := hkeep hf
    exact ⟨row, { hr with }⟩
  | @start row hnone hfirst =>
    obtain ⟨hrow, hqueued⟩ := mem_of_find? hfirst
    have hup : Consistent w (g.updateJob row.sid row.id ({ · with state := .running })) := by
      refine hg.updateJob (fun j => ⟨rfl, rfl, rfl, rfl⟩) ?_ (hidle hnone)
      intro j hj his _
      obtain rfl := eq_of_is hg.keys hj hrow his ⟨rfl, rfl⟩
      refine hg.unsized j hj ?_
      rw [of_decide_eq_true hqueued]
      decide
    exact hup.redis (fun _ _ _ he => he) fun e he => List.mem_cons_of_mem _ he
  | @renew row expires hnone hrow hstate hexpires hlater =>
    have hsame : (g.sessions.map fun s => if s.sid = row.sid then { s with expires } else s).map
        (·.sid) = g.sessions.map (·.sid) := by
      rw [List.map_map]
      refine List.map_congr_left fun s _ => ?_
      simp only [Function.comp_apply]
      split <;> rfl
    refine { hg with issued := ?_, sids := hsame ▸ hg.sids, leased := ?_, owned := ?_, noted := ?_,
                     active := hidle hnone }
    · intro s' hs'
      obtain ⟨s, hs, rfl⟩ := List.mem_map.1 hs'
      have hsid : (if s.sid = row.sid then { s with expires } else s).sid = s.sid := by
        split <;> rfl
      rw [hsid]
      exact hg.issued s hs
    · intro s' hs'
      obtain ⟨s, hs, rfl⟩ := List.mem_map.1 hs'
      split
      · exact hexpires
      · exact hg.leased s hs
    · intro j hj
      obtain ⟨s, hs, hsid⟩ := hg.owned j hj
      refine ⟨_, List.mem_map_of_mem hs, ?_⟩
      split <;> exact hsid
    · exact fun hkey he => List.mem_cons_of_mem _ (hg.noted hkey he)
  | hand hnone hrow hstate =>
    exact hg.redis (fun _ _ _ he => he) fun e he => List.mem_cons_of_mem _ he
  | @submit row request available hnone hrow hstate hid htotal hshare =>
    refine { hg with noted := ?_, active := ?_ }
    · exact fun hkey he => List.mem_cons_of_mem _ (hg.noted hkey he)
    · rintro _ ⟨⟩
      exact ⟨row, ⟨hrow, rfl, rfl, rfl, hstate, rfl, hid, htotal, hshare, fun _ hs => by cases hs⟩⟩
  | collect hfuture hdone => exact { hg with active := fun hf => by cases hf }
  | release hnone => exact { hg with active := hidle hnone }
  | write _ hnone hrow hstate => exact { hg with active := hidle hnone }
  | markDone _ hnone hrow hstate hfile hspooled hfits hsmall =>
    exact hg.updateJob (fun j => ⟨rfl, rfl, rfl, rfl⟩) (fun j _ _ hne => absurd rfl hne) (hidle hnone)
  | recovered =>
    refine { hg with active := ?_ }
    intro task hf
    obtain ⟨row, hr⟩ := hkeep hf
    exact ⟨row, { hr with }⟩
  | line hsession hrow hsid hstate hoffset hfile hline => exact hg.publish rfl _
  | advance hsession hrow hsid hstate hfile hline hpublished =>
    refine hg.updateJob (fun j => ⟨rfl, rfl, rfl, rfl⟩) (fun j hj _ => hg.unsized j hj) ?_
    intro task hf
    obtain ⟨row, hr⟩ := hkeep hf
    exact hr.updateJob fun j => ⟨rfl, rfl, rfl, rfl, rfl⟩
  | @unlink session row hsession hexpired hactive hrow hsid =>
    refine { hg with active := ?_ }
    intro task hf
    obtain ⟨row', hr⟩ := hkeep hf
    refine ⟨row', hr.mono hr.mem rfl rfl rfl rfl rfl rfl rfl le_rfl le_rfl ?_⟩
    intro file hfile
    by_cases hpath : task.path = row.path
    · rw [hpath] at hfile
      simp at hfile
    · rwa [AList.lookup_erase_ne hpath] at hfile
  | @drop session hsession hexpired hactive =>
    refine hg.redis (fun key hkey e he => ?_) fun e he => List.mem_cons_of_mem _ he
    have hne : key ≠ .responses session.client session.sid := by
      rintro rfl
      cases hkey
    simp only [Gateway.setStream, Function.update_of_ne hne] at he
    by_cases hk : key = .requests session.client session.sid
    · subst hk
      rw [Function.update_self] at he
      cases he
    · rw [Function.update_of_ne hk] at he
      exact he
  | expire hsession hexpired hactive => exact hg.deleteSession hactive
  | swept hnow =>
    refine { hg with active := ?_ }
    intro task hf
    obtain ⟨row, hr⟩ := hkeep hf
    exact ⟨row, { hr with }⟩

/-- Every act of the main thread keeps the state consistent. -/
theorem Acts.consistent {a : Actor} (h : Acts w a g g') (hg : Consistent w g) : Consistent w g' := by
  obtain ⟨g₁, connected, owner, heffect, rfl⟩ := h
  have h₁ := heffect.consistent hg
  refine { h₁ with active := ?_ }
  intro task hf
  obtain ⟨row, hr⟩ := h₁.active hf
  exact ⟨row, { hr with }⟩

/-- A crash keeps what is on disk and in Redis. -/
def crash (g : Gateway) : Gateway :=
  { g with ready := false, connected := false, future := none, activeSid := [], activeId := [],
           activePath := [], lastCleanup := 0 }

/-- A crash leaves the journal and the files. -/
theorem Consistent.crash (h : Consistent w g) : Consistent w g.crash :=
  { h with active := fun hf => by cases hf }

end Gateway

end VppJson
