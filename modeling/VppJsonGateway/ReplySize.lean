import VppJsonGateway.GatewaySpec
import VppJsonGateway.SpoolBounds
import VppJsonGateway.SpoolFaults

/-!
# How long replies are

The replies the main thread writes itself are small: errors with a short status, capabilities,
renewals and the results of the transfer manager. What the worker writes stays within the limit it
was given, as long as the statuses of the backend are short.
-/

namespace VppJson

open Lib

/-! ## Frames -/

/-- An identifier prints as it is. -/
theorem length_quote_id {id : Bytes} (hid : isIdText id = true) : (Json.quote id).length ≤ 98 := by
  have hlen : id.length ≤ 96 := by
    simp only [isIdText, Bool.and_eq_true, decide_eq_true_eq] at hid
    exact hid.1.2
  rw [Json.length_quote_plain fun b hb => mem_isIdText hid hb]
  omega

/-- An error with a short status is a short frame. -/
theorem length_error_le {id : Bytes} (hid : isIdText id = true) {status : Status}
    (hstatus : status.Brief) {seq : Nat} (hseq : seq < 2 ^ 64) :
    ((error id status).set "seq" (.uint seq)).dump.length + 1 ≤ 1024 := by
  have hform : (error id status).set "seq" (.uint seq) =
      .obj [("error", .obj [("code", .str status.code), ("message", .str status.message)]),
        ("id", .str id), ("seq", .uint seq), ("type", .str "error")] := rfl
  have hquote := length_quote_id hid
  have hnum := length_dump_uint hseq
  have hcode : (Json.dump (.str status.code)).length = (escape status.code).length + 2 := by
    simp [Json.dump, Json.quote]
  have hmessage : (Json.dump (.str status.message)).length = (escape status.message).length + 2 := by
    simp [Json.dump, Json.quote]
  have hkeys : (Json.quote "error").length = 7 ∧ (Json.quote "id").length = 4 ∧
      (Json.quote "seq").length = 5 ∧ (Json.quote "type").length = 6 ∧
      (Json.quote "code").length = 6 ∧ (Json.quote "message").length = 9 ∧
      (Json.dump (.str "error")).length = 7 := by decide
  have hdump : (Json.dump (.str id)) = Json.quote id := rfl
  unfold Status.Brief at hstatus
  rw [hform, Json.length_dump_obj (by simp)]
  simp only [List.map_cons, List.map_nil, List.sum_cons, List.sum_nil, Json.memberLen, hkeys, hdump]
  rw [Json.length_dump_obj (by simp)]
  simp only [List.map_cons, List.map_nil, List.sum_cons, List.sum_nil, Json.memberLen, hkeys,
    hcode, hmessage]
  omega

/-- A result is as long as its value, and a little more. -/
theorem length_result_le {id : Bytes} (hid : isIdText id = true) {value : Json}
    (hvalue : value.dump.length ≤ 3000) {seq : Nat} (hseq : seq < 2 ^ 64) :
    ((result id value).set "seq" (.uint seq)).dump.length + 1 ≤ 4096 := by
  have hform : (result id value).set "seq" (.uint seq) =
      .obj [("id", .str id), ("result", value), ("seq", .uint seq), ("type", .str "result")] := rfl
  have hquote := length_quote_id hid
  have hnum := length_dump_uint hseq
  have hkeys : (Json.quote "id").length = 4 ∧ (Json.quote "result").length = 8 ∧
      (Json.quote "seq").length = 5 ∧ (Json.quote "type").length = 6 ∧
      (Json.dump (.str "result")).length = 8 := by decide
  have hdump : (Json.dump (.str id)) = Json.quote id := rfl
  rw [hform, Json.length_dump_obj (by simp)]
  simp only [List.map_cons, List.map_nil, List.sum_cons, List.sum_nil, Json.memberLen, hkeys, hdump]
  omega

/-! ## Replies of the main thread -/

/-- The result of a call is short. -/
def Terse : Except Status Json → Prop
  | .ok value => value.dump.length ≤ 3000
  | .error status => status.Brief

/-- An answer that says little fits into a short reply. -/
theorem length_answer_le {id : Bytes} (hid : isIdText id = true) {outcome : Except Status Json}
    (houtcome : Terse outcome) :
    ((answer id outcome).set "seq" (.uint 0)).dump.length + 1 ≤ 4096 := by
  cases outcome with
  | ok value => exact length_result_le hid houtcome (by decide)
  | error status =>
    have := @length_error_le id hid status houtcome 0 (by decide)
    exact this.trans (by decide)

/-- The capabilities are short. -/
theorem terse_capabilities (site : Site) : Terse (.ok site.capabilities) := by
  change site.capabilities.dump.length ≤ 3000
  unfold Site.capabilities
  generalize site.backend = engine
  cases engine <;> decide +kernel

/-- A number of 64 bits has at most twenty digits. -/
theorem length_decimalInt_le {n : Nat} (h : n < 2 ^ 64) : (Json.int n).dump.length ≤ 20 := by
  have hdump : (Json.int n).dump = decimal n := by
    simp [Json.dump, decimalInt]
  rw [hdump]
  exact length_dump_uint h

/-- The end of a lease is short. -/
theorem terse_expires {n : Nat} (h : n < 2 ^ 64) :
    Terse (.ok (Json.object [("expires_at", .int n)])) := by
  have hnum := length_decimalInt_le h
  have hform : Json.object [("expires_at", .int n)] = .obj [("expires_at", .int n)] := rfl
  have hkey : (Json.quote "expires_at").length = 12 := by decide
  change (Json.object _).dump.length ≤ 3000
  rw [hform, Json.length_dump_obj (by simp)]
  simp only [List.map_cons, List.map_nil, List.sum_cons, List.sum_nil, Json.memberLen, hkey]
  omega

/-- A frame that is short goes to the file as it is. -/
theorem Spool.file_single {env : Env} {id : Bytes} {m : List (Bytes × Json)} {disk : List Io}
    (hm : m ≠ []) (hseq : Json.find "seq" m = none)
    (hshort : ((Json.obj m).set "seq" (.uint 0)).dump.length + 1 ≤ 4096)
    (hok : ((Spool.create id Limits.spoolBytes disk).single env (.obj m)).1.ok = true) :
    ((Spool.create id Limits.spoolBytes disk).single env (.obj m)).2.file =
      ((Json.obj m).set "seq" (.uint 0)).dump ++ [10] := by
  have hsound := @Spool.serve_of_ok env id Limits.spoolBytes disk (.single (.obj m)) hok
  simp only [Spool.serve] at hsound
  rw [← hsound.2.1]
  have hless : (Json.obj m).dump.length ≤ ((Json.obj m).set "seq" (.uint 0)).dump.length :=
    Json.length_dump_le_setKey hm hseq
  have hfits : (Json.obj m).dump.length + 64 ≤ Limits.frameBytes := by
    simp only [Limits.frameBytes]
    omega
  have hline : ((Spool.create id Limits.spoolBytes).line (.obj m)).length ≤ 4096 := by
    simp only [Spool.line, List.length_append, List.length_singleton]
    exact hshort
  have hroom : ¬ (((Spool.create id Limits.spoolBytes).line (.obj m)).length > Limits.frameBytes ∨
      (false = false ∧ (Spool.create id Limits.spoolBytes).bytes +
        ((Spool.create id Limits.spoolBytes).line (.obj m)).length + 1024 >
          (Spool.create id Limits.spoolBytes).limit)) := by
    have hbytes : (Spool.create id Limits.spoolBytes).bytes = 0 := rfl
    have hlimit : (Spool.create id Limits.spoolBytes).limit = 64 * 1024 * 1024 := rfl
    rw [hbytes, hlimit]
    simp only [Limits.frameBytes]
    omega
  have hopened : ¬ (Spool.create id Limits.spoolBytes).opened = false := by simp [Spool.create, Spool.io]
  have hwrite : ((Spool.create id Limits.spoolBytes).write (.obj m) false).1 = true ∧
      ((Spool.create id Limits.spoolBytes).write (.obj m) false).2.file =
        (Spool.create id Limits.spoolBytes).line (.obj m) ∧
      ((Spool.create id Limits.spoolBytes).write (.obj m) false).2.disk = [] := by
    unfold Spool.write
    dsimp only
    rw [if_neg hroom, if_neg hopened]
    exact ⟨rfl, rfl, rfl⟩
  rw [Spool.single, Spool.writeRecord]
  simp only [if_pos hfits]
  generalize (Spool.create id Limits.spoolBytes).write (.obj m) false = r at hwrite
  obtain ⟨ok, sp⟩ := r
  obtain ⟨rfl, hfile, hdisk⟩ := hwrite
  dsimp only at hfile hdisk
  simp only [Spool.fsync, Spool.io, hdisk]
  exact hfile

/-- The file of a short frame is as short as the frame. -/
theorem Spool.length_single_le {env : Env} {id : Bytes} {m : List (Bytes × Json)} {disk : List Io}
    (hm : m ≠ []) (hseq : Json.find "seq" m = none)
    (hshort : ((Json.obj m).set "seq" (.uint 0)).dump.length + 1 ≤ 4096)
    (hok : ((Spool.create id Limits.spoolBytes disk).single env (.obj m)).1.ok = true) :
    ((Spool.create id Limits.spoolBytes disk).single env (.obj m)).2.file.length ≤ 4096 := by
  rw [Spool.file_single hm hseq hshort hok, List.length_append]
  exact hshort

/-! ## Replies of the transfer manager -/

namespace Uploads

variable {env : Env} {u : Uploads}

/-- How a program of the manager ends, from a sound state. -/
abbrev Returns (env : Env) {α : Type} (Q : α → Prop) (p : Prog Uploads Answer α) (u : Uploads) :
    Prop :=
  p.Follows Waits (fun _ _ => True) (Sound env) (fun a _ => Q a) u

/-- Failures of the file system are told briefly. -/
theorem brief_writeAtomic {target temporary : FileName} {text : Bytes} {events : List Event} :
    Returns env Status.Brief (writeAtomic target temporary text events) u := by
  refine Prog.Follows.seq (Q := fun _ _ => True) (Prog.follows_trivial fun _ _ => trivial) ?_
  intro opened t _
  cases opened with
  | false => exact (by decide : Status.Brief ⟨"storage_error", "Cannot open journal file"⟩)
  | true =>
  refine Prog.Follows.seq (Q := fun _ _ => True) (Prog.follows_trivial fun _ _ => trivial) ?_
  intro written t _
  refine Prog.Follows.seq (Q := fun _ _ => True) (Prog.follows_trivial fun _ _ => trivial) ?_
  intro synced t _
  refine Prog.Follows.seq (Q := fun _ _ => True) (Prog.follows_trivial fun _ _ => trivial) ?_
  intro closed t _
  refine Prog.Follows.seq (Q := fun _ _ => True) (Prog.follows_trivial fun _ _ => trivial) ?_
  intro renamed t _
  cases renamed with
  | false => exact (by decide : Status.Brief ⟨"storage_error", "Cannot commit journal file"⟩)
  | true =>
  refine Prog.Follows.seq (Q := fun _ _ => True) (Prog.follows_trivial fun _ _ => trivial) ?_
  intro dir t _
  refine Prog.Follows.seq (Q := fun _ _ => True) (Prog.follows_trivial fun _ _ => trivial) ?_
  intro ok t _
  cases ok with
  | false => exact (by decide : Status.Brief ⟨"storage_error", "Cannot sync journal directory"⟩)
  | true => exact (by decide : Status.Brief {})

/-- The numbers of a stored manifest fit 64 bits. -/
theorem small_of_valid {m : Manifest} (h : m.Valid) :
    m.nextSeq < 2 ^ 62 ∧ m.bytes < 2 ^ 62 := by
  have htotal := h.total
  have hbytes := h.bytes
  have hseq := h.nextSeq
  simp only [Limits.uploadBytes] at htotal
  omega

/-- The members of a transfer are short, whatever its sizes. -/
theorem terse_members {id : Bytes} (hid : isIdText id = true) {seq bytes : Nat}
    (hseq : seq < 2 ^ 64) (hbytes : bytes < 2 ^ 64) (committed : Bool) :
    Terse (.ok (Json.object [("transfer", .str id), ("next_seq", .uint seq),
      ("bytes", .uint bytes), ("committed", .bool committed)])) := by
  have hform : Json.object [("transfer", .str id), ("next_seq", .uint seq),
      ("bytes", .uint bytes), ("committed", .bool committed)] =
      .obj [("bytes", .uint bytes), ("committed", .bool committed), ("next_seq", .uint seq),
        ("transfer", .str id)] := rfl
  have hquote := length_quote_id hid
  have hnum := length_dump_uint hseq
  have hnum' := length_dump_uint hbytes
  have hbool : (Json.bool committed).dump.length ≤ 5 := by cases committed <;> decide
  have hkeys : (Json.quote "bytes").length = 7 ∧ (Json.quote "committed").length = 11 ∧
      (Json.quote "next_seq").length = 10 ∧ (Json.quote "transfer").length = 10 := by decide
  have hdump : (Json.dump (.str id)) = Json.quote id := rfl
  change (Json.object _).dump.length ≤ 3000
  rw [hform, Json.length_dump_obj (by simp)]
  simp only [List.map_cons, List.map_nil, List.sum_cons, List.sum_nil, Json.memberLen, hkeys, hdump]
  omega

/-- The result of a repeated `transfer.begin`. -/
theorem terse_resumed {id : Bytes} (hid : isIdText id = true) {seq : Nat} (hseq : seq < 2 ^ 64)
    (committed : Bool) :
    Terse (.ok (Json.object [("transfer", .str id), ("next_seq", .uint seq),
      ("committed", .bool committed)])) := by
  have hform : Json.object [("transfer", .str id), ("next_seq", .uint seq),
      ("committed", .bool committed)] =
      .obj [("committed", .bool committed), ("next_seq", .uint seq), ("transfer", .str id)] := rfl
  have hquote := length_quote_id hid
  have hnum := length_dump_uint hseq
  have hbool : (Json.bool committed).dump.length ≤ 5 := by cases committed <;> decide
  have hkeys : (Json.quote "committed").length = 11 ∧ (Json.quote "next_seq").length = 10 ∧
      (Json.quote "transfer").length = 10 := by decide
  have hdump : (Json.dump (.str id)) = Json.quote id := rfl
  change (Json.object _).dump.length ≤ 3000
  rw [hform, Json.length_dump_obj (by simp)]
  simp only [List.map_cons, List.map_nil, List.sum_cons, List.sum_nil, Json.memberLen, hkeys, hdump]
  omega

/-- The result of a repeated chunk. -/
theorem terse_repeated {id : Bytes} (hid : isIdText id = true) {seq : Nat} (hseq : seq < 2 ^ 64) :
    Terse (.ok (Json.object [("transfer", .str id), ("next_seq", .uint seq)])) := by
  have hform : Json.object [("transfer", .str id), ("next_seq", .uint seq)] =
      .obj [("next_seq", .uint seq), ("transfer", .str id)] := rfl
  have hquote := length_quote_id hid
  have hnum := length_dump_uint hseq
  have hkeys : (Json.quote "next_seq").length = 10 ∧ (Json.quote "transfer").length = 10 := by decide
  have hdump : (Json.dump (.str id)) = Json.quote id := rfl
  change (Json.object _).dump.length ≤ 3000
  rw [hform, Json.length_dump_obj (by simp)]
  simp only [List.map_cons, List.map_nil, List.sum_cons, List.sum_nil, Json.memberLen, hkeys, hdump]
  omega

/-- What saving a manifest answers is short. -/
theorem terse_save {id stem : Bytes} (hid : isIdText id = true) {m : Manifest}
    (hseq : m.nextSeq < 2 ^ 64) (hbytes : m.bytes < 2 ^ 64) {events : List Event} :
    Returns env Terse (save id stem m events) u := by
  refine Prog.Follows.seq brief_writeAtomic ?_
  intro status t hstatus
  cases status.ok with
  | true => exact terse_members hid hseq hbytes m.committed
  | false => exact hstatus

/-- A manifest that was loaded is within its bounds. -/
theorem terse_load {stem : Bytes} : Returns env
    (fun r : Except Status Manifest => (∀ st, r = .error st → st.Brief) ∧ ∀ m, r = .ok m → m.Valid)
    (load env stem) u := by
  refine Prog.Follows.seq (Q := fun r _ => ∀ m, r = some m → m.Valid)
    (Prog.Follows.read (fun _ => trivial) fun t _ hs m hm => (hs.2 stem).valid hm) ?_
  intro r t hr
  cases r with
  | none => exact ⟨by rintro _ ⟨⟩; decide, by rintro _ ⟨⟩⟩
  | some m =>
    refine Prog.Follows.seq (Q := fun _ _ => True) (Prog.follows_trivial fun _ _ => trivial) ?_
    intro now t' _
    split
    · exact ⟨by rintro _ ⟨⟩; decide, by rintro _ ⟨⟩⟩
    · refine ⟨by rintro _ ⟨⟩, ?_⟩
      rintro _ ⟨⟩
      exact hr m rfl

theorem terse_invalid : Terse (.error invalid) := (by decide : Status.Brief invalid)

/-- What a chunk is answered is short. -/
theorem terse_handleChunk {id stem : Bytes} (hid : isIdText id = true) {m : Manifest}
    (hm : m.Valid) {params : Json} : Returns env Terse (handleChunk env id stem m params) u := by
  have hsmall := small_of_valid hm
  unfold handleChunk
  split
  · exact terse_invalid
  next seq data _ =>
  simp only
  split_ifs with h₁ h₂ h₃ h₄
  · exact terse_repeated hid (by omega)
  · exact (by decide : Status.Brief ⟨"transfer_committed", "Committed transfers are immutable"⟩)
  · exact (by decide : Status.Brief ⟨"sequence_mismatch", "Resume from transfer.status next_seq"⟩)
  · exact (by decide : Status.Brief ⟨"payload_too_large", "Chunk exceeds declared transfer length"⟩)
  refine Prog.Follows.seq (Q := fun _ _ => True) (Prog.follows_trivial fun _ _ => trivial) ?_
  intro opened t _
  cases opened with
  | false => exact (by decide : Status.Brief ⟨"storage_error", "Cannot open transfer"⟩)
  | true =>
  refine Prog.Follows.seq (Q := fun _ _ => True) (Prog.follows_trivial fun _ _ => trivial) ?_
  intro written t' _
  cases written with
  | false => exact (by decide : Status.Brief ⟨"storage_error", "Cannot persist transfer chunk"⟩)
  | true =>
    have htotal := hm.total
    simp only [Limits.uploadBytes] at htotal
    exact terse_save hid (by dsimp only; omega) (by dsimp only; omega)

/-- What a commit is answered is short. -/
theorem terse_handleCommit {id stem : Bytes} (hid : isIdText id = true) {m : Manifest}
    (hm : m.Valid) {params : Json} : Returns env Terse (handleCommit env id stem m params) u := by
  have hsmall := small_of_valid hm
  unfold handleCommit
  split
  · exact terse_invalid
  split
  · exact (by decide : Status.Brief ⟨"transfer_incomplete", "Declared bytes have not arrived"⟩)
  refine Prog.Follows.seq (Q := fun _ _ => True) (Prog.follows_trivial fun _ _ => trivial) ?_
  intro digest t _
  split
  · exact (by decide : Status.Brief ⟨"checksum_mismatch", "SHA-256 does not match"⟩)
  · exact terse_save hid (by dsimp only; omega) (by dsimp only; omega)

/-- What a begin is answered is short. -/
theorem terse_handleBegin {session id stem : Bytes} (hid : isIdText id = true) {params : Json} :
    Returns env Terse (handleBegin env session id stem params) u := by
  unfold handleBegin
  split
  · exact terse_invalid
  refine Prog.Follows.seq (Q := fun r _ => ∀ m, r = some m → m.Valid)
    (Prog.Follows.read (fun _ => trivial) fun t _ hs m hm => (hs.2 stem).valid hm) ?_
  intro r t hr
  cases r with
  | some m =>
    have hsmall := small_of_valid (hr m rfl)
    simp only
    split_ifs
    · exact (by decide : Status.Brief
        ⟨"id_conflict", "Transfer ID already has a different manifest"⟩)
    · exact terse_resumed hid (by omega) m.committed
  | none =>
    refine Prog.Follows.seq (Q := fun _ _ => True) (Prog.follows_trivial fun _ _ => trivial) ?_
    intro listed t' _
    cases listed with
    | none => exact (by decide : Status.Brief ⟨"storage_error", "Cannot list directory"⟩)
    | some quota =>
    obtain ⟨sum, count⟩ := quota
    simp only
    split_ifs
    · exact (by decide : Status.Brief ⟨"quota_exceeded", "Transfer reservation quota exceeded"⟩)
    refine Prog.Follows.seq brief_writeAtomic ?_
    intro status a hstatus
    cases status.ok with
    | false => exact hstatus
    | true =>
    rw [if_neg (by decide)]
    refine Prog.Follows.seq (Q := fun _ _ => True) (Prog.follows_trivial fun _ _ => trivial) ?_
    intro now b _
    exact terse_save hid (Nat.two_pow_pos 64) (Nat.two_pow_pos 64)

/-- **Every reply of the transfer manager is short.** -/
theorem terse_handle {session method : Bytes} {params : Json} :
    Returns env Terse (handle env session method params) u := by
  unfold handle
  split
  · next id _ =>
    split
    · exact terse_invalid
    next hid =>
    rw [Bool.not_eq_false] at hid
    simp only
    split
    · exact terse_handleBegin hid
    refine Prog.Follows.seq terse_load ?_
    intro r t hr
    cases r with
    | error status => exact hr.1 status rfl
    | ok m =>
      have hm := hr.2 m rfl
      have hsmall := small_of_valid hm
      simp only
      split_ifs
      · exact terse_handleChunk hid hm
      · exact terse_handleCommit hid hm
      · exact terse_invalid
      · exact terse_save hid (by omega) (by omega)
      · exact (by decide : Status.Brief ⟨"method_not_found", "Unknown transfer method"⟩)
  · exact terse_invalid

/-- The refusals of `Resolve` are short. -/
theorem terse_resolve {session id : Bytes} : Returns env
    (fun r : Except Status Json => ∀ st, r = .error st → st.Brief) (resolve env session id) u := by
  refine Prog.Follows.seq terse_load ?_
  intro r t hr
  cases r with
  | error status =>
    rintro _ ⟨⟩
    exact hr.1 status rfl
  | ok m =>
    simp only
    split_ifs
    · rintro _ ⟨⟩
      decide
    · rintro _ ⟨⟩
      decide
    refine Prog.Follows.seq (Q := fun _ _ => True) (Prog.follows_trivial fun _ _ => trivial) ?_
    intro text t' _
    split
    · rintro _ ⟨⟩
      decide
    · rintro _ ⟨⟩

end Uploads

/-! ## Replies of the worker -/

/-- The worker ends with one reply, with a status of the backend or with an error of a later page. -/
theorem outputOf_cases {w : World} (hbrief : w.Brief) {task : Task} {response : Response}
    (hresponse : w.serves task.request response) :
    (∃ outcome, Spool.outputOf task response = .single (answer (idOf task.request) outcome)) ∨
      (∃ items status, Spool.outputOf task response = .stream items status ∧ status.Brief) ∨
      ∃ items status,
        Spool.outputOf task response = .broken items (error (idOf task.request) status) := by
  obtain ⟨hlist, hgeneric⟩ := hbrief _ _ hresponse
  unfold Spool.outputOf
  simp only
  split_ifs
  · exact .inl ⟨_, rfl⟩
  · exact .inl ⟨_, rfl⟩
  · exact .inr (.inl ⟨_, _, rfl, hlist⟩)
  · exact .inl ⟨_, rfl⟩
  · exact .inl ⟨_, rfl⟩
  · exact .inl ⟨_, rfl⟩
  · cases hreaction : response.generic with
    | reply outcome => exact .inl ⟨outcome, rfl⟩
    | stream items status =>
      exact .inr (.inl ⟨items, status, rfl, hgeneric items status hreaction⟩)
    | broken items status => exact .inr (.inr ⟨items, status, rfl⟩)

/-- An answer is an object. -/
theorem isObject_answer (id : Bytes) (outcome : Except Status Json) :
    (answer id outcome).isObject = true := by
  cases outcome <;> rfl

/-- **What the worker writes stays within its limit.** -/
theorem length_run_le {w : World} (hbrief : w.Brief) {task : Task} {response : Response}
    {disk : List Io} (hresponse : w.serves task.request response)
    (hid : isIdText (idOf task.request) = true) (hbound : task.available < 2 ^ 63)
    (hok : (task.run w.env response disk).1.ok = true) :
    ((task.run w.env response disk).2.file.length : Int) ≤ max 1024 task.available := by
  rw [Spool.run_eq_serve] at hok ⊢
  obtain ⟨-, hfile, -⟩ := Spool.serve_of_ok hok
  rw [← hfile]
  have hlow : 1024 ≤ (max 1024 task.available).toNat := by omega
  have hhigh : (max 1024 task.available).toNat < 2 ^ 64 := by omega
  have key : ∀ {n : Nat}, n ≤ (max 1024 task.available).toNat →
      (n : Int) ≤ max 1024 task.available := by
    intro n hn
    omega
  refine key ?_
  rcases outputOf_cases hbrief hresponse with
    ⟨outcome, houtput⟩ | ⟨items, status, houtput, hstatus⟩ | ⟨items, status, houtput⟩
  · rw [houtput]
    obtain ⟨-, hended | ⟨part, st, -, -, -, hended⟩⟩ := Spool.single_bounded w.env hid hlow hhigh
      (isObject_answer _ outcome)
    · exact hended.length_le
    · exact hended.length_le
  · rw [houtput]
    obtain ⟨count, part, last, -, -, hended, -⟩ := Spool.finish_bounded w.env hid hlow hhigh items
      fun _ seq hseq => length_error_le hid hstatus hseq
    exact hended.length_le
  · rw [houtput]
    obtain ⟨count, part, hadded⟩ := Spool.addAll_added w.env items
      (Spool.holding_create (idOf task.request) (max 1024 task.available).toNat) rfl
    simp only [Spool.serve]
    split_ifs
    · obtain ⟨-, ⟨-, hended⟩ | ⟨-, part', -, -, -, hended⟩⟩ := hadded.holding.single w.env hid hlow
        hhigh (isObject_answer _ (.error status))
      · exact hended.length_le
      · exact hended.length_le
    · obtain ⟨count, part, last, -, -, hended, -⟩ := Spool.finish_bounded w.env hid hlow hhigh items
        fun (h : Status.ok {} = false) => (by cases h)
      exact hended.length_le

end VppJson
