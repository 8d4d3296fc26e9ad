import VppJsonGateway.GatewaySteps

/-!
# One turn of the gateway

The functions `Run` calls one after the other, and `Recover`: each makes the effects of its own
`Actor` only, whatever happens around it.
-/

namespace VppJson

open Lib

namespace Gateway

section

variable {w : World} {a : Actor} {g t : Gateway} {α β : Type}

/-! ## `Register` -/

/-- An entry of the registration stream may be removed at any time. -/
theorem keeps_discard {entry : Entry} :
    Keeps w .register (fun _ _ => True) (remove .register entry) g := by
  refine Prog.Follows.seq (Q := fun _ _ => True) ?_ fun _ _ _ => trivial
  exact keeps_command lasting_true trivial (fun t _ _ => ⟨_, _, .discard entry, rfl⟩)
    (fun _ _ _ => trivial) (fun _ _ _ => trivial) fun _ _ => trivial

/-- A session is inserted with the lease that was computed before. -/
theorem keeps_insertSession {client registration : Bytes} {expires : Nat}
    (hg : expires ≤ g.uploads.now + Limits.leaseSeconds) :
    Keeps w .register (fun s t => s ∈ t.sessions ∧ s.client = client)
      (insertSession w.toSite client registration expires) g := by
  refine Prog.Follows.seq (Q := fun inserted t => ∀ s, inserted = some s →
    s ∈ t.sessions ∧ s.client = client) ?_ ?_
  · refine Prog.Follows.step fun t ht _ _ => ?_
    have hnow := (Rests.stable ht).uploads.now
    dsimp only
    split
    · exact ⟨Acts.refl t, fun _ h => by cases h⟩
    next hfree =>
    refine ⟨Effect.acts (.enter ?_ (by omega)), ?_⟩
    · intro s hs hsid
      exact hfree (List.any_eq_true.2 ⟨s, hs, decide_eq_true (.inl hsid)⟩)
    · intro s hs
      cases hs
      exact ⟨List.mem_append_right _ (List.mem_singleton_self _), rfl⟩
  · intro inserted t ht
    cases inserted with
    | none => trivial
    | some session => exact ht session rfl

/-- What `Register` opens is a session of the client. -/
theorem keeps_openSession {client id : Bytes} :
    Keeps w .register (fun opened t => ∀ s, opened = some s → s ∈ t.sessions ∧ s.client = client)
      (openSession w.toSite client id) g := by
  refine Prog.Follows.seq (Q := fun found t => ∀ s, found = some s → s ∈ t.sessions ∧
    s.client = client) ?_ ?_
  · refine keeps_read fun t _ _ s hs => ?_
    have hfound : s.client = client ∧ s.registration = id := by simpa using List.find?_some hs
    exact ⟨List.mem_of_find?_eq_some hs, hfound.1⟩
  intro found t hfound
  cases found with
  | some session => exact hfound
  | none =>
    refine Prog.Follows.seq (keeps_look lasting_true trivial) ?_
    intro n t _
    split_ifs
    · exact fun _ h => by cases h
    refine Prog.Follows.seq (keeps_clock lasting_true trivial) ?_
    rintro now t ⟨-, hnow⟩
    refine Prog.Follows.seq (keeps_insertSession (Nat.add_le_add_right hnow _)) ?_
    intro session t ht s hs
    cases hs
    exact ht

/-- A registration is answered by an error, or with a session of the client. -/
theorem keeps_registerReply {client : Bytes} {request : Json} :
    Keeps w .register (fun frame t => Greets w t client frame)
      (registerReply w.toSite client request) g := by
  unfold registerReply
  split_ifs
  · exact .inl ⟨_, _, rfl⟩
  refine Prog.Follows.seq keeps_openSession ?_
  intro opened t hopened
  cases opened with
  | none => exact .inl ⟨_, _, rfl⟩
  | some session => exact .inr ⟨_, session, (hopened session rfl).1, (hopened session rfl).2, rfl⟩

/-- Sessions are not taken away while the reply is on its way. -/
theorem lasting_greets (client : Bytes) (frame : Json) :
    Lasting w (fun g => Greets w g client frame) :=
  lasting_of_stable (fun hg ht => by unfold Greets; rw [ht.sessions]; exact hg) fun hg _ => hg

/-- `Register`. -/
theorem keeps_register : Keeps w .register (fun _ _ => True) (register w.toSite) g := by
  refine Prog.Follows.seq (keeps_readFirst lasting_true trivial rfl) ?_
  intro first t _
  cases first with
  | none => trivial
  | some entry =>
    dsimp only
    split
    · exact keeps_discard
    · next client request _ =>
      refine Prog.Follows.seq keeps_registerReply ?_
      intro frame t ht
      refine Prog.Follows.seq (keeps_publish (lasting_greets client frame) (fun h => h) ht
        fun t ht _ => .welcome ht) ?_
      intro ok t _
      cases ok with
      | false => trivial
      | true => exact keeps_discard

/-! ## Marking jobs -/

/-- A job whose file the main thread may write. -/
structure Pending (row : Job) (g : Gateway) : Prop where
  idle : g.future = none
  mem : row ∈ g.jobs
  state : row.state = .running ∨ (row.state = .done ∧ row.path ∉ g.spool)

/-- A job whose file is written. -/
structure Finished (w : World) (row : Job) (g : Gateway) : Prop where
  idle : g.future = none
  mem : row ∈ g.jobs
  state : row.state = .running ∨ row.state = .done
  spooled : ∀ file, g.spool.lookup row.path = some file → w.env.Rereads → Spooled w row.id file
  fits : ∀ file, g.spool.lookup row.path = some file → w.env.Rereads → w.Brief →
    Affordable g row.sid file.length
  small : ∀ file, g.spool.lookup row.path = some file → row.state = .done → file.length ≤ 4096

/-- A row stays what it is until the main thread changes it. -/
theorem lasting_pending (row : Job) : Lasting w (Pending row) := by
  refine lasting_of_stable (fun {g t} hg ht => ?_) fun hg _ => ⟨hg.idle, hg.mem, hg.state⟩
  obtain ⟨hidle, hspool⟩ := ht.idle hg.idle
  exact ⟨hidle, ht.jobs ▸ hg.mem, hspool ▸ hg.state⟩

/-- A finished row stays finished. -/
theorem lasting_finished (row : Job) : Lasting w (Finished w row) := by
  refine lasting_of_stable (fun {g t} hg ht => ?_) fun hg _ =>
    ⟨hg.idle, hg.mem, hg.state, hg.spooled, hg.fits, hg.small⟩
  obtain ⟨hidle, hspool⟩ := ht.idle hg.idle
  have hafford : ∀ n, Affordable g row.sid n → Affordable t row.sid n := by
    intro n hn
    unfold Affordable used usedBy jobsOf at hn ⊢
    rw [ht.jobs]
    exact hn
  exact ⟨hidle, ht.jobs ▸ hg.mem, hg.state, fun f hf => hg.spooled f (hspool ▸ hf),
    fun f hf henv hbrief => hafford _ (hg.fits f (hspool ▸ hf) henv hbrief),
    fun f hf => hg.small f (hspool ▸ hf)⟩

section

variable {P : Gateway → Prop} {row : Job}

theorem keeps_syncDirectory (hP : Lasting w P) (hg : P g) :
    Keeps w a (fun _ t => P t) syncDirectory g := by
  refine Prog.Follows.seq (Q := fun _ t => P t) ?_ ?_
  · exact Prog.Follows.step fun t ht _ _ => ⟨Acts.refl t, hP.rests hg ht⟩
  · intro ok t ht
    split_ifs
    · exact ht
    · trivial

/-- `MarkDone`, with what is known besides. -/
theorem keeps_markDone (hP : Lasting w P)
    (hmark : ∀ {g : Gateway} {f}, P g → P (g.updateJob row.sid row.id f))
    (hg : Finished w row g ∧ P g) :
    Keeps w a (fun _ t => t.future = none ∧ P t) (markDone row.sid row.id row.path) g := by
  have hlasting := (lasting_finished row).and hP
  refine Prog.Follows.seq (keeps_syncDirectory hlasting hg) ?_
  intro _ t ht
  refine Prog.Follows.seq (Q := fun found t => (Finished w row t ∧ P t) ∧
    found = t.spool.lookup row.path) ?_ ?_
  · exact keeps_read fun t' ht' _ => ⟨hlasting.rests ht ht', rfl⟩
  rintro found t ⟨ht, hfound⟩
  cases found with
  | none => trivial
  | some file =>
    have hfile : Lasting w fun t : Gateway => t.future = none ∧
        t.spool.lookup row.path = some file := by
      refine lasting_of_stable (fun {g t} hg ht => ?_) fun hg _ => hg
      obtain ⟨hidle, hspool⟩ := ht.idle hg.1
      exact ⟨hidle, hspool ▸ hg.2⟩
    refine keeps_modify (hlasting.and hfile) ⟨ht, ht.1.idle, hfound.symm⟩ ?_
    rintro t ⟨⟨hdone, hPt⟩, -, hlookup⟩ -
    exact ⟨.markDone a hdone.idle hdone.mem hdone.state hlookup (hdone.spooled file hlookup)
      (hdone.fits file hlookup) (hdone.small file hlookup), hdone.idle, hmark hPt⟩

/-- A reply is an object with the members of `Result` or `Error`. -/
theorem answer_eq_obj (id : Bytes) (outcome : Except Status Json) :
    ∃ m, answer id outcome = .obj m ∧ m ≠ [] ∧ Json.find "seq" m = none := by
  cases outcome with
  | ok value => exact ⟨_, rfl, List.cons_ne_nil _ _, rfl⟩
  | error status => exact ⟨_, rfl, List.cons_ne_nil _ _, rfl⟩

/-- A short reply of the main thread, written and marked. -/
theorem keeps_settle (hP : Lasting w P)
    (hmark : ∀ {g : Gateway} {f}, P g → P (g.updateJob row.sid row.id f))
    (hspool : ∀ {g : Gateway} {spool}, P g → P { g with spool })
    (hid : isIdText row.id = true) {outcome : Except Status Json} (hterse : Terse outcome)
    (hg : Pending row g ∧ P g) :
    Keeps w a (fun _ t => t.future = none ∧ P t) (settle w.toSite row outcome) g := by
  obtain ⟨m, hframe, hm, hseq⟩ := answer_eq_obj row.id outcome
  have hshort := length_answer_le hid hterse
  refine Prog.Follows.seq (Q := fun _ t => Finished w row t ∧ P t) ?_
    fun _ t ht => keeps_markDone hP hmark ht
  refine Prog.Follows.seq (Q := fun status t => status.ok = true → Finished w row t ∧ P t) ?_ ?_
  · refine Prog.Follows.step fun t ht _ c => ?_
    obtain ⟨hpending, hPt⟩ := ((lasting_pending row).and hP).rests hg ht
    dsimp only
    split_ifs with hopened
    · refine ⟨(Effect.write a hpending.idle hpending.mem hpending.state).acts, fun hok => ?_⟩
      have hwritten : ((Spool.create row.id Limits.spoolBytes c.disk).single w.env
          (answer row.id outcome)).2.file.length ≤ 4096 := by
        rw [hframe] at hok hshort ⊢
        exact Spool.length_single_le hm hseq hshort hok
      refine ⟨⟨hpending.idle, hpending.mem, hpending.state.imp_right And.left, ?_, ?_, ?_⟩,
        hspool hPt⟩
      · intro file hfile _
        rw [AList.lookup_insert, Option.some.injEq] at hfile
        exact ⟨Limits.spoolBytes, c.disk, .single (answer row.id outcome), by decide, hok, hfile⟩
      · intro file hfile _ _
        rw [AList.lookup_insert, Option.some.injEq] at hfile
        exact .inl (hfile ▸ hwritten)
      · intro file hfile _
        rw [AList.lookup_insert, Option.some.injEq] at hfile
        exact hfile ▸ hwritten
    · refine ⟨Acts.refl t, fun hok => ?_⟩
      have := (@Spool.serve_of_ok w.env row.id Limits.spoolBytes c.disk
        (.single (answer row.id outcome)) hok).2.2
      exact absurd this hopened
  · intro status t ht
    split_ifs with hok
    · exact ht hok
    · trivial

end

/-! ## `CompleteWorker` and `Recover` -/

/-- The result of the worker is a file that was written to its end, within the budgets. -/
theorem Holds.finished {task : Task} {row : Job} {status : Status} (h : Holds w g task row)
    (hid : isIdText row.id = true) (hstatus : task.outcome = some status)
    (hok : status.ok = true) : Finished w row { g with future := none } := by
  have hrun := h.result status hstatus hok
  rw [h.file] at hrun
  refine ⟨rfl, h.mem, .inl h.running, ?_, ?_, ?_⟩
  · intro file hfile henv
    obtain ⟨response, disk, -, hdone, hwritten⟩ := hrun file hfile
    rw [Spool.run_eq_serve, h.request henv] at hdone hwritten
    exact ⟨_, disk, Spool.outputOf task response, by omega, hdone ▸ hok, hwritten⟩
  · intro file hfile henv hbrief
    obtain ⟨response, disk, hresponse, hdone, rfl⟩ := hrun file hfile
    have htotal := h.total
    have hshare := h.share
    have hlength := @length_run_le w hbrief task response disk hresponse
      (by rw [h.request henv]; exact hid) (by omega) (hdone ▸ hok)
    change _ ∨ (g.used + _ ≤ _ ∧ g.usedBy _ + _ ≤ _)
    omega
  · intro _ _ hdone
    rw [h.running] at hdone
    cases hdone

/-- The active job is the given one. -/
def IsActive (row : Job) (g : Gateway) : Prop :=
  g.activeSid = row.sid ∧ g.activeId = row.id ∧ g.activePath = row.path

/-- The active row stays active. -/
theorem lasting_isActive (row : Job) : Lasting w (IsActive row) :=
  lasting_of_stable (fun hg ht => ⟨ht.activeSid.trans hg.1, ht.activeId.trans hg.2.1,
    ht.activePath.trans hg.2.2⟩) fun hg _ => hg

/-- Only while the worker has a call there is an active job. -/
def Attended (g : Gateway) : Prop := g.future = none → g.activeSid = []

theorem lasting_attended : Lasting w Attended := by
  refine lasting_of_stable (fun {g t} hg ht hidle => ?_) fun hg _ => hg
  cases hfuture : g.future with
  | none => exact ht.activeSid.trans (hg hfuture)
  | some task =>
    obtain ⟨task', hsome, -⟩ := ht.future task hfuture
    rw [hidle] at hsome
    cases hsome

/-- `CompleteWorker`. -/
theorem keeps_completeWorker (hg : Attended g) :
    Keeps w .completeWorker (fun _ t => Attended t) completeWorker g := by
  refine Prog.Follows.seq (Q := fun finished t => (finished = none → Attended t) ∧
    ∀ status, finished = some status → status.ok = true →
      ∃ row, Finished w row t ∧ IsActive row t) ?_ ?_
  · refine Prog.Follows.step fun t ht hc _ => ?_
    have hattended := lasting_attended.rests hg ht
    cases hfuture : t.future with
    | none => exact ⟨Acts.refl t, fun _ => hattended, fun _ h => by cases h⟩
    | some task =>
      cases hout : task.outcome with
      | none =>
        simp only [Option.bind_some, hout]
        exact ⟨Acts.refl t, fun _ => hattended, fun _ h => by cases h⟩
      | some status =>
        simp only [Option.bind_some, hout]
        refine ⟨(Effect.collect hfuture (by rw [hout]; exact Option.some_ne_none _)).acts,
          (fun h => by cases h), ?_⟩
        rintro _ ⟨⟩ hok
        obtain ⟨row, hrow⟩ := hc.active hfuture
        exact ⟨row, hrow.finished (hc.named row hrow.mem).1 hout hok,
          hrow.sid.symm, hrow.id.symm, hrow.path.symm⟩
  · rintro finished t ⟨hnone, hsome⟩
    cases finished with
    | none => exact hnone rfl
    | some status =>
      dsimp only
      split_ifs with hok
      · trivial
      rw [Bool.not_eq_true, Bool.not_eq_false'] at hok
      obtain ⟨row, hrow, hactive⟩ := hsome status rfl hok
      refine Prog.Follows.seq (keeps_look ((lasting_finished row).and (lasting_isActive row))
        ⟨hrow, hactive⟩) ?_
      rintro _ t ⟨ht, -, rfl⟩
      obtain ⟨hsid, hid, hpath⟩ := ht.2
      dsimp only
      rw [hsid, hid, hpath]
      refine Prog.Follows.seq (keeps_markDone lasting_true (fun _ => trivial) ⟨ht.1, trivial⟩) ?_
      rintro _ t ⟨hidle, -⟩
      refine keeps_modify lasting_idle hidle ?_
      exact fun t ht _ => ⟨.release ht, fun _ => rfl⟩

/-- What `Recover` knows of the rows that are left. -/
structure Recovers (rows : List Job) (g : Gateway) : Prop where
  idle : g.future = none
  mem : ∀ row ∈ rows, row ∈ g.jobs ∧ row.state ≠ .queued ∧ isIdText row.id = true
  keys : (rows.map fun j => (j.sid, j.id)).Nodup

/-- The rows that recovery has yet to look at stay as they are. -/
theorem lasting_recovers (rows : List Job) : Lasting w (Recovers rows) :=
  lasting_of_stable (fun hg ht => ⟨(ht.idle hg.idle).1,
    fun row hrow => ⟨ht.jobs ▸ (hg.mem row hrow).1, (hg.mem row hrow).2⟩, hg.keys⟩)
    fun hg _ => ⟨hg.idle, hg.mem, hg.keys⟩

/-- Recovery of one row settles it, and leaves the rows that follow. -/
theorem keeps_recoverOne {row : Job} {rows : List Job} (hg : Recovers (row :: rows) g) :
    Keeps w .recover (fun _ t => Recovers rows t) (recoverOne w.toSite row) g := by
  have htail : ∀ {g : Gateway}, Recovers (row :: rows) g → Recovers rows g := fun h =>
    ⟨h.idle, fun r hr => h.mem r (List.mem_cons_of_mem _ hr), (List.nodup_cons.1 h.keys).2⟩
  have hother : ∀ r ∈ rows, ¬ r.Is row.sid row.id := by
    intro r hr his
    refine (List.nodup_cons.1 hg.keys).1 (List.mem_map.2 ⟨r, hr, ?_⟩)
    rw [his.1, his.2]
  refine Prog.Follows.seq (Q := fun missing t => Recovers (row :: rows) t ∧
    (missing = true → row.path ∉ t.spool)) ?_ ?_
  · exact keeps_read fun t ht _ => ⟨(lasting_recovers _).rests hg ht, of_decide_eq_true⟩
  rintro missing t ⟨ht, hmissing⟩
  split_ifs with hcase
  · obtain ⟨hmem, hstarted, hid⟩ := ht.mem row List.mem_cons_self
    have hpending : Pending row t := by
      refine ⟨ht.idle, hmem, ?_⟩
      cases hstate : row.state with
      | queued => exact absurd hstate hstarted
      | running => exact .inl rfl
      | done =>
        rw [hstate, Bool.or_eq_true] at hcase
        exact .inr ⟨rfl, hmissing (hcase.resolve_left (by decide))⟩
    have hbrief : Terse (.error ⟨"outcome_unknown",
        "Gateway interrupted; do not automatically repeat mutations"⟩) := by
      unfold Terse
      decide
    refine (keeps_settle (P := fun t : Gateway => ∀ r ∈ rows, r ∈ t.jobs) ?_ ?_ ?_ hid hbrief
      ⟨hpending, fun r hr => (ht.mem r (List.mem_cons_of_mem _ hr)).1⟩).mono ?_
    · exact lasting_of_stable (fun hg ht r hr => ht.jobs ▸ hg r hr) fun hg _ => hg
    · intro g f hg r hr
      have hstill : (if r.Is row.sid row.id then f r else r) ∈
          (g.updateJob row.sid row.id f).jobs := mem_updateJob_of_mem (hg r hr)
      rwa [if_neg (hother r hr)] at hstill
    · exact fun hg => hg
    · rintro _ t' ⟨hidle, hrest⟩
      exact ⟨hidle, fun r hr => ⟨hrest r hr, (ht.mem r (List.mem_cons_of_mem _ hr)).2⟩,
        (htail ht).keys⟩
  · exact htail ht

/-- `Recover`, which leaves no call with the worker. -/
theorem keeps_recover (hg : g.future = none) :
    Keeps w .recover (fun _ t => t.ready = true) (recover w.toSite) g := by
  refine Prog.Follows.seq (Q := fun rows t => Recovers rows t) ?_ ?_
  · refine keeps_read fun t ht hc => ⟨lasting_idle.rests hg ht, ?_, ?_⟩
    · intro row hrow
      obtain ⟨hmem, hstate⟩ := List.mem_filter.1 hrow
      exact ⟨hmem, of_decide_eq_true hstate, (hc.named row hmem).1⟩
    · exact hc.keys.sublist (List.filter_sublist.map _)
  intro rows t ht
  refine Prog.Follows.seq (Prog.Follows.forEach (J := Recovers) ?_ ht) ?_
  · exact fun row rows t ht => keeps_recoverOne ht
  · intro _ t ht
    exact keeps_modify lasting_true trivial fun t _ _ => ⟨.recovered, rfl⟩


/-! ## `StartJob` -/

/-- A job that `StartJob` has marked. -/
def Running (row : Job) (g : Gateway) : Prop :=
  g.future = none ∧ row ∈ g.jobs ∧ row.state = .running

/-- A row keeps running while the others act. -/
theorem lasting_running (row : Job) : Lasting w (Running row) :=
  lasting_of_stable (fun hg ht => ⟨(ht.idle hg.1).1, ht.jobs ▸ hg.2.1, hg.2.2⟩) fun hg _ => hg

/-- The parameters replaced, a request keeps its ID. -/
theorem idOf_resolved (request params : Json) :
    idOf ((request.erase "params_ref").set "params" params) = idOf request := by
  have herase : Json.get? "id" (request.erase "params_ref") = Json.get? "id" request := by
    cases request with
    | obj m =>
      rw [Json.erase, Json.get?_obj, Json.get?_obj, Json.eraseKey]
      induction m with
      | nil => rfl
      | cons kv m ih =>
        obtain ⟨k, v⟩ := kv
        rw [List.filter_cons]
        split_ifs with hk
        · rw [Json.find, Json.find, ih]
        · rw [ih, Json.find, if_neg]
          intro hid
          rw [← hid] at hk
          exact hk (decide_eq_true (show utf8 "id" ≠ utf8 "params_ref" by decide))
    | null | bool | int | uint | float | str | arr => rfl
  rw [idOf, idOf, Json.get?_set_of_ne (by decide), herase]

/-- What the parameters of a job end in: a short refusal, or a request with the same ID. -/
def Resolved (request : Json) : Except Status Json → Prop
  | .error status => status.Brief
  | .ok request' => idOf request' = idOf request

section

variable {row : Job}

/-- A call of the transfer manager for a job that is running. -/
theorem keeps_running_transfers (hg : Running row g) {p : Prog Uploads Answer α} {Q : α → Prop}
    (hkeeps : Uploads.Keeps w.env True (fun _ _ => True) p g.uploads)
    (hreturns : Uploads.Returns w.env Q p g.uploads) :
    Keeps w a (fun r t => Running row t ∧ Q r) (transfers p) g :=
  keeps_transfers (lasting_running row) (fun h _ => h) hg
    (((hkeeps.and hreturns).guarantee fun _ _ h => h.1).mono fun _ _ h => h.2)

/-- The parameters of a running row are resolved while it keeps running. -/
theorem keeps_resolveParams (hg : Running row g) {request : Json} :
    Keeps w .startJob (fun r t => Running row t ∧ Resolved request r)
      (resolveParams w.toSite row.sid request) g := by
  unfold resolveParams
  split
  · refine Prog.Follows.seq (keeps_running_transfers hg Uploads.keeps_resolve
      Uploads.terse_resolve) ?_
    rintro r t ⟨ht, hr⟩
    cases r with
    | error status => exact ⟨ht, hr status rfl⟩
    | ok params => exact ⟨ht, idOf_resolved request params⟩
  · exact ⟨hg, rfl⟩

/-- The replies of `StartJob` itself are short. -/
theorem keeps_immediate (hg : Running row g) (hsid : Utf8.Valid row.sid) {request : Json} :
    Keeps w .startJob (fun r t => Running row t ∧ ∀ outcome, r = some outcome → Terse outcome)
      (immediate w.toSite row.sid row.id request) g := by
  unfold immediate
  dsimp only
  split_ifs
  · refine ⟨hg, ?_⟩
    rintro _ ⟨⟩
    exact terse_capabilities w.toSite
  · refine ⟨hg, ?_⟩
    rintro _ ⟨⟩
    exact (by decide : Status.Brief ⟨"invalid_params", "session.renew takes no parameters"⟩)
  · refine Prog.Follows.seq (Q := fun now t => Running row t ∧ (now ≤ t.uploads.now ∧
      ∀ s ∈ t.sessions, s.expires ≤ now + Limits.leaseSeconds) ∧ now < 2 ^ 63) ?_ ?_
    · refine keeps_read fun t ht hc => ⟨(lasting_running row).rests hg ht, ⟨le_rfl, hc.leased⟩, ?_⟩
      have := hc.uploads.1
      omega
    · rintro now t ⟨ht, hnow, hbound⟩
      have hlasting : Lasting w (fun t : Gateway => now ≤ t.uploads.now ∧
          ∀ s ∈ t.sessions, s.expires ≤ now + Limits.leaseSeconds) :=
        lasting_of_stable (fun hg ht => ⟨hg.1.trans ht.uploads.now, ht.sessions ▸ hg.2⟩)
          fun hg _ => hg
      refine Prog.Follows.seq (keeps_modify ((lasting_running row).and hlasting) ⟨ht, hnow⟩
        (Q := fun _ t => Running row t) ?_) ?_
      · rintro t ⟨ht, hle, hlater⟩ -
        exact ⟨.renew ht.1 ht.2.1 ht.2.2 (Nat.add_le_add_right hle _) hlater, ht⟩
      · intro _ t ht
        refine ⟨ht, ?_⟩
        rintro _ ⟨⟩
        have hlease : Limits.leaseSeconds = 3600 := rfl
        exact terse_expires (by omega)
  · refine Prog.Follows.seq (keeps_modify (lasting_running row) hg (Q := fun _ t => Running row t)
      fun t ht _ => ⟨.hand ht.1 ht.2.1 ht.2.2, ht⟩) ?_
    intro _ t ht
    refine Prog.Follows.seq (keeps_running_transfers ht (Uploads.keeps_handle hsid)
      Uploads.terse_handle) ?_
    rintro outcome t ⟨ht, hterse⟩
    refine ⟨ht, ?_⟩
    rintro _ ⟨⟩
    exact hterse
  · exact ⟨hg, fun _ h => by cases h⟩

/-- The request that is handed to the worker is the one of its row. -/
theorem keeps_submit (hg : Running row g) {request : Json}
    (hid : w.env.Rereads → idOf request = row.id) :
    Keeps w .startJob (fun _ _ => True) (submit row request) g := by
  have hused : ∀ n, Lasting w (fun t : Gateway => t.used = n) := fun n =>
    lasting_of_stable (fun hg ht => by rw [used, ht.jobs]; exact hg) fun hg _ => hg
  have husedBy : ∀ n, Lasting w (fun t : Gateway => t.usedBy row.sid = n) := fun n =>
    lasting_of_stable (fun hg ht => by rw [usedBy, jobsOf, ht.jobs]; exact hg) fun hg _ => hg
  refine Prog.Follows.seq (keeps_look (lasting_running row) hg) ?_
  rintro total t ⟨ht, -, rfl⟩
  refine Prog.Follows.seq (keeps_look ((lasting_running row).and (hused _)) ⟨ht, rfl⟩) ?_
  rintro share t ⟨⟨ht, htotal⟩, -, rfl⟩
  refine keeps_modify ((lasting_running row).and ((hused _).and (husedBy _)))
    ⟨ht, htotal, rfl⟩ ?_
  rintro t ⟨ht, htotal, hshare⟩ -
  refine ⟨.submit ht.1 ht.2.1 ht.2.2 hid ?_ ?_, trivial⟩
  · omega
  · omega

/-- A running row is settled with a response under its own ID. -/
theorem keeps_settle_running (hg : Running row g) (hid : isIdText row.id = true)
    {outcome : Except Status Json} (hterse : Terse outcome) :
    Keeps w .startJob (fun _ _ => True) (settle w.toSite row outcome) g :=
  (keeps_settle lasting_true (fun _ => trivial) (fun _ => trivial) hid hterse
    ⟨⟨hg.1, hg.2.1, .inl hg.2.2⟩, trivial⟩).mono fun _ _ _ => trivial

/-- A row that was started is executed, answered, or handed to the worker. -/
theorem keeps_execute (hg : Running row g) (hsid : Utf8.Valid row.sid)
    (hid : isIdText row.id = true) (hnamed : w.env.Rereads → ∀ request,
      Json.parse w.env.strtod row.body = some request → idOf request = row.id) :
    Keeps w .startJob (fun _ _ => True) (execute w.toSite row) g := by
  unfold execute
  split
  · trivial
  next request hparse =>
  refine Prog.Follows.seq (keeps_resolveParams hg) ?_
  rintro resolved t ⟨ht, hresolved⟩
  cases resolved with
  | error status => exact keeps_settle_running ht hid hresolved
  | ok request' =>
    refine Prog.Follows.seq (keeps_immediate ht hsid) ?_
    rintro outcome t ⟨ht, hterse⟩
    cases outcome with
    | some outcome => exact keeps_settle_running ht hid (hterse outcome rfl)
    | none =>
      have hid' : idOf request' = idOf request := hresolved
      exact keeps_submit ht fun henv => hid'.trans (hnamed henv request hparse)

end

/-- `StartJob`. -/
theorem keeps_startJob : Keeps w .startJob (fun _ _ => True) (startJob w.toSite) g := by
  refine Prog.Follows.seq (Q := fun busy t => busy = false → t.future = none) ?_ ?_
  · refine keeps_read fun t _ _ hidle => ?_
    exact Option.not_isSome_iff_eq_none.1 (by rw [hidle]; exact Bool.false_ne_true)
  intro busy t hidle
  cases busy with
  | true => trivial
  | false =>
    refine Prog.Follows.seq (Q := fun found t => t.future = none ∧
      ∀ row, found = some row → t.jobs.find? (·.state = .queued) = some row) ?_ ?_
    · exact keeps_read fun t ht _ => ⟨lasting_idle.rests (hidle rfl) ht, fun _ h => h⟩
    rintro found t ⟨hidle, hfound⟩
    cases found with
    | none => trivial
    | some row =>
      have hfirst : Lasting w fun t : Gateway => t.jobs.find? (·.state = .queued) = some row :=
        lasting_of_stable (fun hg ht => ht.jobs ▸ hg) fun hg _ => hg
      refine Prog.Follows.seq (keeps_modify (lasting_idle.and hfirst) ⟨hidle, hfound row rfl⟩
        (Q := fun _ t => Running { row with state := .running } t ∧ Utf8.Valid row.sid ∧
          isIdText row.id = true ∧ (w.env.Rereads → ∀ request,
            Json.parse w.env.strtod row.body = some request → idOf request = row.id)) ?_) ?_
      · rintro t ⟨hidle, hfirst⟩ hc
        obtain ⟨hmem, -⟩ := mem_of_find? hfirst
        obtain ⟨s, hs, hsid⟩ := hc.owned row hmem
        obtain ⟨n, -, hdrawn⟩ := hc.issued s hs
        refine ⟨.start hidle hfirst, ⟨hidle, ?_, rfl⟩, ?_, hc.named row hmem⟩
        · refine List.mem_map.2 ⟨row, hmem, ?_⟩
          rw [if_pos (show row.Is row.sid row.id from ⟨rfl, rfl⟩)]
        · rw [← hsid, hdrawn]
          exact valid_hex _
      · rintro _ t ⟨ht, hsid, hid, hnamed⟩
        have hrun : Keeps w .startJob (fun _ _ => True)
            (execute w.toSite { row with state := .running }) t :=
          keeps_execute ht hsid hid hnamed
        exact hrun

/-! ## `Deliver` and `Cleanup` -/

/-- `Deliver` leaves the sessions as they are. -/
theorem Acts.sessions_deliver (h : Acts w .deliver g t) : t.sessions = g.sessions := by
  obtain ⟨g', connected, owner, heffect, rfl⟩ := h
  change g'.sessions = g.sessions
  cases heffect with
  | stay => rfl
  | transfer => rfl
  | write => rfl
  | markDone => rfl
  | line =>
    obtain ⟨redis, log, heq⟩ := publishScript_eq _ _ g
    rw [heq]
  | advance => rfl

/-- `Receive` leaves the sessions as they are. -/
theorem Acts.sessions_receive {sid : Bytes} (h : Acts w (.receive sid) g t) :
    t.sessions = g.sessions := by
  obtain ⟨g', connected, owner, heffect, rfl⟩ := h
  change g'.sessions = g.sessions
  cases heffect with
  | stay => rfl
  | remove => rfl
  | reply =>
    obtain ⟨redis, log, heq⟩ := publishScript_eq _ _ g
    rw [heq]
  | enqueue => rfl
  | await => rfl
  | rewind => rfl
  | transfer => rfl
  | write => rfl
  | markDone => rfl

/-- A loop over sessions whose body leaves the sessions as they are. -/
theorem keeps_forEach_sessions {body : Session → Prog Gateway Chance Unit} {G : Gateway → Gateway → Prop}
    (hbody : ∀ {s : Session} {g : Gateway}, s ∈ g.sessions → Utf8.Valid s.sid → ∃ a,
      Keeps w a (fun _ _ => True) (body s) g ∧
        ∀ {g t}, Acts w a g t → G g t ∧ t.sessions = g.sessions)
    {sessions : List Session} (hg : ∀ s ∈ sessions, s ∈ g.sessions ∧ Utf8.Valid s.sid) :
    (Prog.forEach sessions body).Follows (Rests w) G (Consistent w) (fun _ _ => True) g := by
  refine (Prog.Follows.forEach (J := fun rest t => ∀ s ∈ rest, s ∈ t.sessions ∧ Utf8.Valid s.sid)
    ?_ hg).mono fun _ _ _ => trivial
  intro s rest t ht
  obtain ⟨hs, hsid⟩ := ht s List.mem_cons_self
  obtain ⟨a, hkeeps, hacts⟩ := hbody hs hsid
  have hrest := hkeeps.keep (F := fun t => ∀ s ∈ rest, s ∈ t.sessions ∧ Utf8.Valid s.sid)
    (fun hF ht s hs => ⟨(Rests.stable ht).sessions ▸ (hF s hs).1, (hF s hs).2⟩)
    (fun _ hF hact s hs => ⟨(hacts hact).2 ▸ (hF s hs).1, (hF s hs).2⟩)
    fun s hs => ht s (List.mem_cons_of_mem _ hs)
  exact (hrest.guarantee fun _ _ h => (hacts h).1).mono fun _ _ h => h.2

/-- What `Deliver` knows: the session, the job, and that the worker has no file of this name. -/
structure Serving (session : Session) (row : Job) (g : Gateway) : Prop where
  session : session ∈ g.sessions
  mem : row ∈ g.jobs
  alone : g.Apart → ∀ task, g.future = some task → row.path ≠ task.path

/-- Other parties move neither the files nor the rows. -/
theorem Stable.apart (h : Stable g t) : t.Apart ↔ g.Apart := by
  rw [Apart, Apart, h.jobs]

/-- Other parties do not move the worker to another file. -/
theorem Stable.alone (h : Stable g t) {path : Bytes}
    (hg : ∀ task, g.future = some task → path ≠ task.path) :
    ∀ task, t.future = some task → path ≠ task.path := by
  intro task htask
  cases hfuture : g.future with
  | none =>
    rw [(h.idle hfuture).1] at htask
    cases htask
  | some task' =>
    obtain ⟨task'', hsome, -, hpath, -⟩ := h.future task' hfuture
    rw [htask, Option.some.injEq] at hsome
    rw [hsome, hpath]
    exact hg task' hfuture

theorem lasting_serving (session : Session) (row : Job) : Lasting w (Serving session row) := by
  refine lasting_of_stable (fun {g t} hg ht => ?_) fun hg _ => ⟨hg.session, hg.mem, hg.alone⟩
  exact ⟨ht.sessions ▸ hg.session, ht.jobs ▸ hg.mem,
    fun hapart => ht.alone (hg.alone (ht.apart.1 hapart))⟩

/-- The file of a job that is served stays. -/
theorem lasting_serving_file (session : Session) (row : Job) (file : Bytes) :
    Lasting w fun g => Serving session row g ∧ (g.Apart → g.spool.lookup row.path = some file) := by
  refine lasting_of_stable (fun {g t} hg ht => ⟨?_, fun hapart => ?_⟩) fun hg _ =>
    ⟨⟨hg.1.session, hg.1.mem, hg.1.alone⟩, hg.2⟩
  · exact ⟨ht.sessions ▸ hg.1.session, ht.jobs ▸ hg.1.mem,
      fun hapart => ht.alone (hg.1.alone (ht.apart.1 hapart))⟩
  · have hapart' := ht.apart.1 hapart
    rw [ht.spool row.path (hg.1.alone hapart')]
    exact hg.2 hapart'

/-- Responses are delivered to the session they belong to. -/
theorem keeps_deliverOne {session : Session} (hg : session ∈ g.sessions) :
    Keeps w .deliver (fun _ _ => True) (deliverOne session) g := by
  refine Prog.Follows.seq (Q := fun found t => ∀ row, found = some row → Serving session row t ∧
    row.sid = session.sid ∧ row.state = .done ∧ row.offset < row.size) ?_ ?_
  · refine keeps_read fun t ht hc row hrow => ?_
    obtain ⟨hmem, hcond⟩ := mem_of_find? hrow
    obtain ⟨hsid, hstate, hoffset⟩ := of_decide_eq_true hcond
    refine ⟨⟨(lasting_session session).rests hg ht, hmem, ?_⟩, hsid, hstate, hoffset⟩
    intro hapart task hfuture hpath
    obtain ⟨row', hrow'⟩ := hc.active hfuture
    have heq := hapart row hmem row' hrow'.mem (hpath.trans hrow'.file)
    rw [heq, hrow'.running] at hstate
    cases hstate
  intro found t hfound
  cases found with
  | none => trivial
  | some row =>
    obtain ⟨hserving, hsid, hstate, hoffset⟩ := hfound row rfl
    refine Prog.Follows.seq (Q := fun line t => ∀ l, line = some l → ∃ file,
      (Serving session row t ∧ (t.Apart → t.spool.lookup row.path = some file)) ∧
        getline file row.offset = some l) ?_ ?_
    · refine keeps_read fun t ht _ l hl => ?_
      obtain ⟨file, hfile, hline⟩ := Option.bind_eq_some_iff.1 hl
      exact ⟨file, ⟨(lasting_serving session row).rests hserving ht, fun _ => hfile⟩, hline⟩
    intro line t hline
    cases line with
    | none => trivial
    | some line =>
      obtain ⟨file, hfile, hget⟩ := hline line rfl
      refine Prog.Follows.seq (keeps_publish (lasting_serving_file session row file)
        (fun h => ⟨⟨h.1.session, h.1.mem, h.1.alone⟩, h.2⟩) hfile ?_) ?_
      · exact fun t ht _ => .line ht.1.session ht.1.mem hsid hstate hoffset ht.2 hget
      rintro ok t ⟨ht, hok⟩
      cases ok with
      | false => trivial
      | true =>
        obtain ⟨older, hlog, -⟩ := hok rfl
        have hpublished :
            .published (.responses session.client session.sid) line ∈ t.log := by
          rw [hlog]
          exact List.mem_cons_self
        refine keeps_modify ((lasting_serving_file session row file).and (lasting_log _))
          ⟨ht, hpublished⟩ ?_
        rintro t ⟨ht, hpublished⟩ -
        refine ⟨?_, trivial⟩
        rw [← hsid]
        exact .advance ht.1.session ht.1.mem hsid hstate ht.2 hget hpublished

/-- The ID of a session is valid. -/
theorem Consistent.valid_sid (h : Consistent w g) {s : Session} (hs : s ∈ g.sessions) :
    Utf8.Valid s.sid := by
  obtain ⟨n, -, hsid⟩ := h.issued s hs
  rw [hsid]
  exact valid_hex _

/-- `Deliver`. -/
theorem keeps_deliver : Keeps w .deliver (fun _ _ => True) deliver g := by
  refine Prog.Follows.seq (Q := fun sessions t => ∀ s ∈ sessions, s ∈ t.sessions ∧
    Utf8.Valid s.sid) (keeps_read fun t _ hc s hs => ⟨hs, hc.valid_sid hs⟩) ?_
  intro sessions t ht
  exact keeps_forEach_sessions (fun hs _ => ⟨.deliver, keeps_deliverOne hs,
    fun h => ⟨h, h.sessions_deliver⟩⟩) ht

/-- What `Cleanup` has left of the sessions there were in `g`, with the time it goes by: those that
are still to come, those that are live and the active one. But for the given IDs, no stream is
deleted of a session that stays. -/
structure Sweeps (g : Gateway) (now : Nat) (except : List Bytes) (rest : List Session)
    (t : Gateway) : Prop where
  expired : ∀ s ∈ rest, s ∈ t.sessions ∧ s.expires ≤ t.uploads.now
  kept : ∀ s ∈ t.sessions, s ∈ g.sessions
  live : ∀ s ∈ t.sessions, now < s.expires ∨ s.sid = t.activeSid ∨ s ∈ rest
  dropped : ∀ s ∈ t.sessions, s.sid ∉ except → .dropped s.sid ∈ t.log → .dropped s.sid ∈ g.log

/-- The sessions that the sweep has yet to look at stay as they are. -/
theorem lasting_sweeps (g : Gateway) (now : Nat) (except : List Bytes) (rest : List Session) :
    Lasting w (Sweeps g now except rest) := by
  refine lasting_of_stable (fun {g' t} hg ht => ?_) fun hg _ =>
    ⟨hg.expired, hg.kept, hg.live, hg.dropped⟩
  refine ⟨fun s hs => ⟨ht.sessions ▸ (hg.expired s hs).1, (hg.expired s hs).2.trans ht.uploads.now⟩,
    ht.sessions ▸ hg.kept, ?_, ?_⟩
  · rw [ht.sessions, ht.activeSid]
    exact hg.live
  · intro s hs hsid hlog
    rw [ht.sessions] at hs
    obtain ⟨new, hnew, happended⟩ := ht.log
    rw [hnew, List.mem_append] at hlog
    refine hg.dropped s hs hsid (hlog.resolve_left fun h => ?_)
    obtain ⟨key, entry, heq⟩ := happended _ h
    cases heq

theorem lasting_inactive (sid : Bytes) : Lasting w (fun g => sid ≠ g.activeSid) :=
  lasting_of_stable (fun hg ht => ht.activeSid ▸ hg) fun hg _ => hg

section

variable {g₀ : Gateway} {now : Nat} {session : Session} {rest : List Session}

/-- The files of a session, removed one after the other. -/
theorem keeps_unlinks {paths : List Bytes}
    (hg : (Sweeps g₀ now [] (session :: rest) g ∧ session.sid ≠ g.activeSid) ∧
      ∀ path ∈ paths, ∃ row ∈ g.jobs, row.sid = session.sid ∧ row.path = path) :
    Keeps w .cleanup
      (fun _ t => Sweeps g₀ now [] (session :: rest) t ∧ session.sid ≠ t.activeSid)
      (.forEach paths unlink) g := by
  have hlasting : ∀ paths : List Bytes, Lasting w fun g : Gateway =>
      (Sweeps g₀ now [] (session :: rest) g ∧ session.sid ≠ g.activeSid) ∧
        ∀ path ∈ paths, ∃ row ∈ g.jobs, row.sid = session.sid ∧ row.path = path := fun paths =>
    ((lasting_sweeps _ _ _ _).and (lasting_inactive _)).and
      (lasting_of_stable (fun hg ht => ht.jobs ▸ hg) fun hg _ => hg)
  refine (Prog.Follows.forEach (J := fun paths g =>
    (Sweeps g₀ now [] (session :: rest) g ∧ session.sid ≠ g.activeSid) ∧
      ∀ path ∈ paths, ∃ row ∈ g.jobs, row.sid = session.sid ∧ row.path = path) ?_ hg).mono
    fun _ _ h => h.1
  intro path paths t ht
  refine Prog.Follows.seq (Q := fun _ t => (Sweeps g₀ now [] (session :: rest) t ∧
    session.sid ≠ t.activeSid) ∧ ∀ path ∈ paths, ∃ row ∈ t.jobs, row.sid = session.sid ∧
      row.path = path) ?_ ?_
  · refine Prog.Follows.step fun t' ht' _ c => ?_
    obtain ⟨⟨hsweeps, hactive⟩, hpaths⟩ := (hlasting _).rests ht ht'
    have hleft := fun p hp => hpaths p (List.mem_cons_of_mem _ hp)
    split_ifs
    · obtain ⟨row, hrow, hsid, rfl⟩ := hpaths path List.mem_cons_self
      obtain ⟨hsession, hlease⟩ := hsweeps.expired session List.mem_cons_self
      exact ⟨(Effect.unlink hsession hlease hactive hrow hsid).acts,
        ⟨⟨hsweeps.expired, hsweeps.kept, hsweeps.live, hsweeps.dropped⟩, hactive⟩, hleft⟩
    · exact ⟨Acts.refl t', ⟨hsweeps, hactive⟩, hleft⟩
  · intro ok t ht
    split_ifs
    · exact ht
    · trivial

/-- The session deleted, only the others are left. -/
theorem Sweeps.deleteSession (h : Sweeps g₀ now [session.sid] (session :: rest) t)
    (hfresh : session.sid ∉ rest.map (·.sid)) : Sweeps g₀ now [] rest (t.deleteSession session.sid) := by
  have hsub : ∀ s ∈ (t.deleteSession session.sid).sessions, s ∈ t.sessions ∧ s.sid ≠ session.sid :=
    fun s hs => ⟨(List.mem_filter.1 hs).1, of_decide_eq_true (List.mem_filter.1 hs).2⟩
  refine ⟨fun s hs => ?_, fun s hs => h.kept s (hsub s hs).1, fun s hs => ?_, fun s hs _ => ?_⟩
  · obtain ⟨hmem, hle⟩ := h.expired s (List.mem_cons_of_mem _ hs)
    refine ⟨List.mem_filter.2 ⟨hmem, decide_eq_true fun hsid => hfresh ?_⟩, hle⟩
    exact hsid ▸ List.mem_map_of_mem hs
  · rcases h.live s (hsub s hs).1 with hlive | hactive | hrest
    · exact .inl hlive
    · exact .inr (.inl hactive)
    · rcases List.mem_cons.1 hrest with rfl | hrest
      · exact absurd rfl (hsub s hs).2
      · exact .inr (.inr hrest)
  · exact h.dropped s (hsub s hs).1 fun hmem => (hsub s hs).2 (List.mem_singleton.1 hmem)

/-- The sweep takes one session, and leaves those that follow. -/
theorem keeps_cleanupOne (hfresh : session.sid ∉ rest.map (·.sid))
    (hg : Sweeps g₀ now [] (session :: rest) g) :
    Keeps w .cleanup (fun _ t => Sweeps g₀ now [] rest t) (cleanupOne session) g := by
  refine Prog.Follows.seq (Q := fun sid t => Sweeps g₀ now [] (session :: rest) t ∧
    sid = t.activeSid) (keeps_read fun t ht _ => ⟨(lasting_sweeps _ _ _ _).rests hg ht, rfl⟩) ?_
  rintro sid t ⟨ht, rfl⟩
  split_ifs with hactive
  · refine ⟨fun s hs => ht.expired s (List.mem_cons_of_mem _ hs), ht.kept, fun s hs => ?_, ht.dropped⟩
    rcases ht.live s hs with hlive | hsid | hmem
    · exact .inl hlive
    · exact .inr (.inl hsid)
    · rcases List.mem_cons.1 hmem with rfl | hmem
      · exact .inr (.inl hactive)
      · exact .inr (.inr hmem)
  have hlasting := fun except => (lasting_sweeps (w := w) g₀ now except (session :: rest)).and
    (lasting_inactive session.sid)
  refine Prog.Follows.seq (Q := fun paths t =>
    (Sweeps g₀ now [] (session :: rest) t ∧ session.sid ≠ t.activeSid) ∧
      ∀ path ∈ paths, ∃ row ∈ t.jobs, row.sid = session.sid ∧ row.path = path) ?_ ?_
  · refine keeps_read fun t' ht' _ => ⟨(hlasting []).rests ⟨ht, hactive⟩ ht', fun path hpath => ?_⟩
    obtain ⟨row, hrow, hpath⟩ := List.mem_map.1 hpath
    obtain ⟨hmem, hsid⟩ := List.mem_filter.1 hrow
    exact ⟨row, hmem, of_decide_eq_true hsid, hpath⟩
  intro paths t ht
  refine Prog.Follows.seq (keeps_unlinks ht) ?_
  intro _ t ht
  have hdrop : ∀ {t : Gateway}, Sweeps g₀ now [] (session :: rest) t →
      Sweeps g₀ now [session.sid] (session :: rest) (dropStreams session t) := by
    refine fun h => ⟨h.expired, h.kept, h.live, fun s hs hsid hlog => ?_⟩
    refine h.dropped s hs List.not_mem_nil ((List.mem_cons.1 hlog).resolve_left fun heq => hsid ?_)
    exact List.mem_singleton.2 (Happening.dropped.inj heq)
  have hwait : ∀ {t : Gateway}, Sweeps g₀ now [] (session :: rest) t →
      Sweeps g₀ now [session.sid] (session :: rest) t :=
    fun h => ⟨h.expired, h.kept, h.live, fun s hs _ => h.dropped s hs List.not_mem_nil⟩
  refine Prog.Follows.seq (Q := fun _ t => Sweeps g₀ now [session.sid] (session :: rest) t ∧
    session.sid ≠ t.activeSid) ?_ ?_
  · refine keeps_command (hlasting []) ht ?_ (fun _ ht _ => ⟨hdrop ht.1, ht.2⟩)
      (fun _ ht _ => (hlasting _).link ⟨hdrop ht.1, ht.2⟩ false) fun _ ht => ⟨hwait ht.1, ht.2⟩
    intro t ht _
    obtain ⟨hsession, hlease⟩ := ht.1.expired session List.mem_cons_self
    exact ⟨_, _, .drop hsession hlease ht.2, rfl⟩
  · intro _ t ht
    refine keeps_modify (hlasting _) ht ?_
    intro t ht _
    obtain ⟨hsession, hlease⟩ := ht.1.expired session List.mem_cons_self
    exact ⟨.expire hsession hlease ht.2, ht.1.deleteSession hfresh⟩

end

/-- What `Cleanup` leaves of the sessions there were: those that are live at a later time, and the
active one; and no stream is deleted of a session that stays. -/
structure Swept (g t : Gateway) : Prop where
  kept : ∀ s ∈ t.sessions, s ∈ g.sessions
  live : ∀ s ∈ t.sessions, g.uploads.now < s.expires ∨ s.sid = t.activeSid
  dropped : ∀ s ∈ t.sessions, .dropped s.sid ∈ t.log → .dropped s.sid ∈ g.log

/-- `Cleanup`. -/
theorem keeps_cleanup : Keeps w .cleanup (fun _ t => Swept g t) (cleanup w.toSite) g := by
  have hsame : Lasting w fun t : Gateway => t.sessions = g.sessions ∧
      (∀ sid, .dropped sid ∈ t.log → .dropped sid ∈ g.log) ∧ g.uploads.now ≤ t.uploads.now := by
    refine lasting_of_stable (fun {g' t} hg ht => ⟨ht.sessions.trans hg.1, fun sid hlog => ?_,
      hg.2.2.trans ht.uploads.now⟩) fun hg _ => hg
    obtain ⟨new, hnew, happended⟩ := ht.log
    rw [hnew, List.mem_append] at hlog
    refine hg.2.1 sid (hlog.resolve_left fun h => ?_)
    obtain ⟨key, entry, heq⟩ := happended _ h
    cases heq
  refine Prog.Follows.seq (Q := fun _ t => t.sessions = g.sessions ∧
    (∀ sid, .dropped sid ∈ t.log → .dropped sid ∈ g.log) ∧ g.uploads.now ≤ t.uploads.now) ?_ ?_
  · have hexpire : Uploads.Keeps w.env True (fun _ _ => True)
        ((Uploads.expire w.env).confine fun _ c => c) g.uploads :=
      Uploads.keeps_expire (.inl trivial)
    rw [Prog.confine_id] at hexpire
    exact (keeps_transfers (Q := fun _ => True) hsame
      (fun h hnow => ⟨h.1, h.2.1, h.2.2.trans hnow.ge⟩) ⟨rfl, fun _ h => h, le_rfl⟩
      hexpire).mono fun _ _ h => h.1
  intro _ t ht
  refine Prog.Follows.seq (Q := fun now t => (t.sessions = g.sessions ∧
    (∀ sid, .dropped sid ∈ t.log → .dropped sid ∈ g.log) ∧ g.uploads.now ≤ t.uploads.now) ∧
      g.uploads.now ≤ now ∧ now ≤ t.uploads.now) ?_ ?_
  · exact keeps_read fun t' ht' _ =>
      ⟨hsame.rests ht ht', (hsame.rests ht ht').2.2, le_rfl⟩
  rintro now t ⟨ht, hlow, hnow⟩
  refine Prog.Follows.seq (Q := fun sessions t => Sweeps g now [] sessions t ∧
    (sessions.map (·.sid)).Nodup) ?_ ?_
  · refine keeps_read fun t' ht' hc => ?_
    obtain ⟨hsessions, hlog, -⟩ := hsame.rests ht ht'
    refine ⟨⟨fun s hs => ?_, fun s hs => hsessions ▸ hs, fun s hs => ?_, fun s _ _ => hlog s.sid⟩,
      hc.sids.sublist (List.filter_sublist.map _)⟩
    · obtain ⟨hmem, hexpires⟩ := List.mem_filter.1 hs
      exact ⟨hmem, (of_decide_eq_true hexpires).trans (hnow.trans (Rests.stable ht').uploads.now)⟩
    · by_cases hexpires : s.expires ≤ now
      · exact .inr (.inr (List.mem_filter.2 ⟨hs, decide_eq_true hexpires⟩))
      · exact .inl (not_le.1 hexpires)
  rintro sessions t ⟨ht, hnodup⟩
  refine (Prog.Follows.forEach
    (J := fun rest t => Sweeps g now [] rest t ∧ (rest.map (·.sid)).Nodup) ?_
    ⟨ht, hnodup⟩).mono ?_
  · rintro s rest t ⟨ht, hnodup⟩
    obtain ⟨hfresh, hrest⟩ := List.nodup_cons.1 hnodup
    exact (keeps_cleanupOne hfresh ht).mono fun _ _ h => ⟨h, hrest⟩
  · rintro _ t ⟨ht, -⟩
    refine ⟨ht.kept, fun s hs => ?_, fun s hs => ht.dropped s hs List.not_mem_nil⟩
    rcases ht.live s hs with hlive | hactive | hrest
    · exact .inl (hlow.trans_lt hlive)
    · exact .inr hactive
    · cases hrest

end

end Gateway

end VppJson
