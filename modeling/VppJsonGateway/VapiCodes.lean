import VppJsonGateway.DecodeCodes
import VppJsonGateway.ReplySize
import VppJsonGateway.VapiDispatch

/-!
# Whether a call may have run

A caller reads from the code of an error whether its call may have changed anything: the errors
with which `Generic` refuses a request have codes of their own. Behind the send the same codec and
the same spool have the same codes.
-/

namespace VppJson

open Lib Schema

/-! ## The status of a reply -/

/-- The status of an outcome. -/
def statusOf : Except Status Json → Status
  | .ok _ => {}
  | .error status => status

/-- The status of the response that `Single` writes: that of its outcome, or that of the spool
where it refuses the record. -/
def Spool.replied (env : Env) (sp : Spool) (id : Bytes) (outcome : Except Status Json) : Status :=
  let (ok, sp) := sp.writeRecord env (answer id outcome)
  if ok then statusOf outcome else sp.status

namespace Spool

variable {env : Env} {sp : Spool}

/-- What the file of a single response says: its outcome, or the status of the refusal. -/
theorem single_replied {id : Bytes} {limit : Nat} (hid : isIdText id = true) (hlow : 1024 ≤ limit)
    (hhigh : limit < 2 ^ 64) (outcome : Except Status Json) :
    (Ended limit (recordFrames env id 0 (answer id outcome))
        ((create id limit).single env (answer id outcome)).2.file ∧
        (create id limit).replied env id outcome = statusOf outcome) ∨
      ∃ part, Ended limit (part ++ [error id ((create id limit).replied env id outcome)])
        ((create id limit).single env (answer id outcome)).2.file := by
  have hsingle := single_ended env hid hlow hhigh (isObject_answer id outcome)
  unfold replied
  generalize (create id limit).writeRecord env (answer id outcome) = r at hsingle ⊢
  obtain ⟨ok, sp⟩ := r
  rcases hsingle.2 with ⟨hok, hended⟩ | ⟨hok, part, -, -, -, hended⟩
  · dsimp only at hok
    subst hok
    exact .inl ⟨hended, rfl⟩
  · dsimp only at hok
    subst hok
    exact .inr ⟨part, hended⟩

/-- A write that fails is over a quota or meets a disk that fails. -/
theorem write_refused {frame : Json} {terminal : Bool} (h : (sp.write frame terminal).1 = false) :
    (sp.write frame terminal).2.status.code = utf8 "quota_exceeded" ∨
      (sp.write frame terminal).2.status.code = utf8 "storage_error" := by
  unfold write at h ⊢
  simp only at h ⊢
  split_ifs at h ⊢ with hroom hopened
  · exact .inl rfl
  · exact .inr rfl
  · generalize sp.writeAll (sp.line frame) = r at h ⊢
    obtain ⟨ok, sp'⟩ := r
    cases ok with
    | false => exact .inr rfl
    | true => cases h

/-- Fragments fail as one of their writes does. -/
theorem writeFragments_refused {digest : Bytes} {record total : Nat} {pieces : List Bytes} :
    ∀ {sp : Spool} {offset : Nat}, (writeFragments digest record total sp offset pieces).1 = false →
      (writeFragments digest record total sp offset pieces).2.status.code = utf8 "quota_exceeded" ∨
        (writeFragments digest record total sp offset pieces).2.status.code =
          utf8 "storage_error" := by
  induction pieces with
  | nil => exact fun h => (by cases h)
  | cons piece pieces ih =>
    intro sp offset h
    have hw := @write_refused sp (fragment sp.id digest record total offset piece) false
    simp only [writeFragments] at h ⊢
    generalize sp.write (fragment sp.id digest record total offset piece) false = r at h hw ⊢
    obtain ⟨ok, sp'⟩ := r
    cases ok with
    | false => exact hw rfl
    | true => exact ih h

/-- A record over 16 MiB is refused for its length, any other one for a quota or the disk. -/
theorem writeRecord_refused {frame : Json} (h : (sp.writeRecord env frame).1 = false) :
    (Limits.recordBytes < frame.dump.length ∧
      (sp.writeRecord env frame).2.status.code = utf8 "payload_too_large") ∨
    (frame.dump.length ≤ Limits.recordBytes ∧
      ((sp.writeRecord env frame).2.status.code = utf8 "quota_exceeded" ∨
        (sp.writeRecord env frame).2.status.code = utf8 "storage_error")) := by
  unfold writeRecord at h ⊢
  simp only at h ⊢
  split_ifs at h ⊢ with hshort hlong
  · refine .inr ⟨?_, write_refused h⟩
    simp only [Limits.frameBytes] at hshort
    simp only [Limits.recordBytes]
    omega
  · exact .inl ⟨hlong, rfl⟩
  · exact .inr ⟨not_lt.1 hlong, writeFragments_refused h⟩

/-- A record over 16 MiB is refused. -/
theorem writeRecord_long {frame : Json} (h : Limits.recordBytes < frame.dump.length) :
    (sp.writeRecord env frame).1 = false := by
  unfold writeRecord
  simp only
  split_ifs with hshort
  · simp only [Limits.frameBytes] at hshort
    simp only [Limits.recordBytes] at h
    omega
  · rfl

end Spool

namespace Vapi

/-- The codes of the errors with which `Generic` refuses a call, before anything is sent. -/
def requestCodes : List Bytes :=
  ["invalid_params", "resource_not_found", "ambiguous_resource", "payload_too_large",
    "unsupported_type", "unsupported_operation", "backend_unavailable", "method_not_found"]

/-- The status of the response `Generic` ends with. -/
def responseStatus (v : Backend) (b : Behaviour) (request : Json) (w : Work) : Status :=
  match ending v b request w with
  | (.reply outcome, w) => w.spool.replied v.env (idOf request) outcome
  | (.stream status, w) => if w.spool.status.ok then status else w.spool.status

section

variable {env : Env} {sp : Spool} {id : Bytes} {outcome : Except Status Json}

/-- A reply has the code of a refused call if its outcome has, and if it is over 16 MiB. -/
theorem replied_mem_iff : (sp.replied env id outcome).code ∈ requestCodes ↔
    ((sp.writeRecord env (answer id outcome)).1 = true ∧ (statusOf outcome).code ∈ requestCodes) ∨
      Limits.recordBytes < (answer id outcome).dump.length := by
  unfold Spool.replied
  have hrefused := @Spool.writeRecord_refused env sp (answer id outcome)
  have hlong := @Spool.writeRecord_long env sp (answer id outcome)
  generalize sp.writeRecord env (answer id outcome) = r at hrefused hlong ⊢
  obtain ⟨ok, sp'⟩ := r
  cases ok with
  | true =>
    simp only [if_true, true_and]
    refine ⟨.inl, ?_⟩
    intro h
    rcases h with hmem | hlength
    · exact hmem
    · cases hlong hlength
  | false =>
    simp only [Bool.false_eq_true, if_false, false_and, false_or]
    rcases hrefused rfl with ⟨hlength, hcode⟩ | ⟨hlength, hcode | hcode⟩
    · simp only at hcode
      rw [hcode]
      exact ⟨fun _ => hlength, fun _ => by decide⟩
    · simp only at hcode
      rw [hcode]
      exact ⟨fun h => absurd h (by decide), fun h => absurd h (not_lt.2 hlength)⟩
    · simp only at hcode
      rw [hcode]
      exact ⟨fun h => absurd h (by decide), fun h => absurd h (not_lt.2 hlength)⟩

/-- The answer of a short status fits in a record. -/
theorem length_answer_le (hid : isIdText id = true) {status : Status} (hbrief : status.Brief) :
    (answer id (.error status)).dump.length ≤ Limits.recordBytes := by
  have hshort := length_error_le hid hbrief (Nat.two_pow_pos 64)
  have hform : error id status =
      .obj [("error", .obj [("code", .str status.code), ("message", .str status.message)]),
        ("id", .str id), ("type", .str "error")] := rfl
  have hless : (error id status).dump.length ≤
      ((error id status).set "seq" (.uint 0)).dump.length := by
    rw [hform]
    exact Json.length_dump_le_setKey (by simp) (by rfl)
  simp only [answer, Limits.recordBytes]
  omega

/-- A short status is answered with a code of a refused call if that is its own code, and the spool
has room for it. -/
theorem replied_brief_iff (hid : isIdText id = true) {status : Status} (hbrief : status.Brief) :
    (sp.replied env id (.error status)).code ∈ requestCodes ↔
      status.code ∈ requestCodes ∧ (sp.writeRecord env (answer id (.error status))).1 = true := by
  rw [replied_mem_iff, or_iff_left (not_lt.2 (length_answer_le hid hbrief)), and_comm]
  rfl

end

/-! ## Ordinary calls -/

/-- A request for a method with one reply, as the server lets it through. -/
structure OrdinaryCall (v : Backend) (request : Json) (m : Method) : Prop where
  id : isIdText (idOf request) = true
  describe : methodOf request ≠ utf8 "api.describe"
  methods : methodOf request ≠ utf8 "api.methods"
  found : ∃ found, Json.find (methodOf request) v.methods = some found ∧ m = Method.ofJson found
  stream : m.stream = false
  single : m.streamMsg = none

/-- The names the reply is converted with. -/
def namesBehind (v : Backend) (b : Behaviour) (m : Method) (names : Names) : Names :=
  if hasInterface v.cat levels m.output then (refreshNames b.namesAfter).2
  else namesBefore v b m names

/-- A call gets as far as its first send. -/
structure Sends (v : Backend) (b : Behaviour) (request : Json) (m : Method) (names : Names) : Prop
    extends Begins v b request m where
  encodes : ∃ bytes, Encode v.cat v.native (symbols (namesBefore v b m names)) m.input
    (firstParams m (paramsOf request)) = .ok bytes
  fd : (b.pages 0).fd = true
  configured : (b.pages 0).configured = true

/-- The reply of a call is there to be decoded. -/
structure Replies (v : Backend) (b : Behaviour) (m : Method) : Prop where
  answered : (b.pages 0).Answered m
  budgeted : Budgeted v m ((b.pages 0).heard m)
  retval : lastRetval v m ((b.pages 0).heard m) = 0
  refreshed : hasInterface v.cat levels m.output = true → (refreshNames b.namesAfter).1.ok = true

/-- The reply of a call, converted. -/
def decodedReply (v : Backend) (b : Behaviour) (m : Method) (names : Names) : Except Status Json :=
  Decode v.cat v.native (symbols (namesBehind v b m names)) m.output
    (lastReply v m ((b.pages 0).heard m))

/-- The resolver of a call fails with the code of an unknown resource. -/
theorem codes_symbols {P : Bytes → Prop} {native : Native} (hown : ∀ code ∈ decodeCodes, P code)
    (hfloats : ∀ width data, Fails P (native.floatValue width data)) (names : Names) :
    Codes P native (symbols names) where
  own := hown
  floats := hfloats
  names := by
    intro resolve hresolve index
    cases hresolve
    simp only
    cases names.lookup index with
    | none => exact fails_own hown (by decide)
    | some name => exact fails_ok _

/-- A reply that is not decoded has a code of a refused call unless it is malformed or has an enum
value without a name. -/
theorem decode_code {v : Backend} {b : Behaviour} {m : Method} {names : Names} {status : Status}
    (hfloats : ∀ width data, Fails (· = utf8 "invalid_reply") (v.native.floatValue width data))
    (h : decodedReply v b m names = .error status) :
    status.code ∈ requestCodes ↔
      status.code ≠ utf8 "invalid_reply" ∧ status.code ≠ utf8 "unknown_enum" := by
  have hfails : Fails (· ∈ decodeCodes) (decodedReply v b m names) :=
    (codes_symbols (fun _ hcode => hcode)
      (fun _ _ => (hfloats _ _).mono fun code hcode => hcode ▸ by decide) _).Decode _ _
  have hlist : ∀ code ∈ decodeCodes, code ∈ requestCodes ↔
      code ≠ utf8 "invalid_reply" ∧ code ≠ utf8 "unknown_enum" := by decide
  exact hlist _ (hfails status h)

/-- A reply of VPP that is answered with a code of a refused call: it is over the native budget, or
its conversion fails with such a code, and the spool has room to say so; or the answer is too long
for a response. -/
inductive Misleads (v : Backend) (b : Behaviour) (request : Json) (m : Method) (w : Work) : Prop
  | overBudget (restored : (b.pages 0).restored = true) (submitted : (b.pages 0).submitted = true)
      (exceeded : ¬ Budgeted v m ((b.pages 0).heard m))
      (room : (w.spool.writeRecord v.env (answer (idOf request) (.error overBudget))).1 = true)
  | undecodable (replies : Replies v b m) (status : Status)
      (decoded : decodedReply v b m w.names = .error status) (code : status.code ∈ requestCodes)
      (room : (w.spool.writeRecord v.env (answer (idOf request) (.error status))).1 = true)
  | tooLong (replies : Replies v b m)
      (length : Limits.recordBytes < (answer (idOf request)
        ((decodedReply v b m w.names).bind ordinaryResult)).dump.length)

section

variable {v : Backend} {b : Behaviour} {request : Json} {m : Method}

/-- A request that is not discovery is called by the description of its method. -/
theorem ending_call (hdescribe : methodOf request ≠ utf8 "api.describe")
    (hmethods : methodOf request ≠ utf8 "api.methods")
    (hfound : ∃ found, Json.find (methodOf request) v.methods = some found ∧
      m = Method.ofJson found) (b : Behaviour) (w : Work) :
    ending v b request w = call v b (methodOf request) (paramsOf request) m w := by
  obtain ⟨found, hfound, rfl⟩ := hfound
  simp only [ending, if_neg hdescribe, if_neg hmethods, hfound]

/-- The callbacks of an ordinary call bring no items. -/
theorem call_work (h : OrdinaryCall v request m) (page : Page) (bytes : Bytes) (w : Work) :
    (page.call m v bytes w).work = w.note (.sent bytes) := by
  have hbrings : ∀ a, brings m a = false := by
    intro a
    rw [brings, h.single, h.stream]
    rfl
  have hfold : ∀ (arrivals : List Arrival) (c : Call),
      (arrivals.foldl (hear v m) c).work = c.work := by
    intro arrivals
    induction arrivals with
    | nil => exact fun _ => rfl
    | cons a arrivals ih =>
      intro c
      rw [List.foldl_cons, ih, hear_work (hbrings a)]
  exact hfold _ _

/-- The end of a call whose reply is over the budget. -/
theorem ordinaryEnd_over {c : Call} (h : c.status = overBudget) (status : Status) :
    (ordinaryEnd v b m status c).1 = .error overBudget := by
  have hok : c.status.ok = false := by
    rw [h]
    rfl
  rw [ordinaryEnd, if_pos (by simp [hok]), h]

/-- The end of a call that may have run, but has no reply. -/
theorem ordinaryEnd_unknown {c : Call} {status : Status} (h : c.status = {})
    (hstatus : status.ok = false) : (ordinaryEnd v b m status c).1 = .error status := by
  have hok : c.status.ok = true := by
    rw [h]
    rfl
  simp [ordinaryEnd, hok, hstatus]

/-- The end of a call with a reply. -/
theorem ordinaryEnd_answered {c : Call} (h : c.status = {}) :
    (ordinaryEnd v b m {} c).1 =
      if c.retval ≠ 0 then .error ⟨"vpp_rejected", "VPP rejected the operation"⟩
      else if hasInterface v.cat levels m.output = true ∧ (refreshNames b.namesAfter).1.ok = false
      then .error ⟨"outcome_unknown",
        "Reply received but interface names could not be refreshed"⟩
      else (Decode v.cat v.native (symbols (if hasInterface v.cat levels m.output then
        (refreshNames b.namesAfter).2 else c.work.names)) m.output c.reply).bind ordinaryResult := by
  have hok : c.status.ok = true := by
    rw [h]
    rfl
  have hgood : Status.ok {} = true := rfl
  simp only [ordinaryEnd, hok, hgood, Bool.not_true, Bool.false_eq_true, if_false]
  by_cases hretval : c.retval ≠ 0
  · rw [if_pos hretval, if_pos hretval]
  rw [if_neg hretval, if_neg hretval]
  cases hinterface : hasInterface v.cat levels m.output with
  | false => simp [hgood]
  | true =>
    simp only [if_true, Work.refresh]
    cases hrefresh : (refreshNames b.namesAfter).1.ok with
    | false => simp
    | true => simp

/-- The end of a call leaves the spool to the response. -/
theorem ordinaryEnd_spool (b : Behaviour) (status : Status) (c : Call) :
    (ordinaryEnd v b m status c).2.spool = c.work.spool := by
  unfold ordinaryEnd
  simp only
  split_ifs
  · rfl
  · rfl
  · rfl
  · rfl
  · rfl
  · rfl
  · rfl

/-- An ordinary call is one page: it is encoded, submitted and answered. -/
theorem pages_one (hstream : m.stream = false) (left n : Nat) (callParams : Json) (w : Work) :
    pages v b m (left + 1) n callParams w =
      match Encode v.cat v.native (symbols w.names) m.input callParams with
      | .error status => (fail status, w.note (.encoded m.input))
      | .ok bytes =>
        match submit v m (b.pages n) bytes (w.note (.encoded m.input)) with
        | .inl (status, w) => (fail status, w)
        | .inr (status, c) => (.reply (ordinaryEnd v b m status c).1, (ordinaryEnd v b m status c).2) := by
  rw [pages]
  cases Encode v.cat v.native (symbols w.names) m.input callParams with
  | error status => rfl
  | ok bytes =>
    dsimp only
    cases submit v m (b.pages n) bytes (w.note (.encoded m.input)) with
    | inl failed => rfl
    | inr sent =>
      obtain ⟨status, c⟩ := sent
      exact if_neg (by simp [hstream])

/-- The other errors behind the send. -/
def Settled (status : Status) : Prop :=
  Unknown status ∨ status = ⟨"vpp_rejected", "VPP rejected the operation"⟩ ∨
    status = ⟨"outcome_unknown", "Reply received but interface names could not be refreshed"⟩

/-- These errors are short, and have no code of a refused call. -/
theorem Settled.brief {status : Status} (h : Settled status) :
    status.Brief ∧ status.code ∉ requestCodes := by
  rcases h with ((rfl | rfl) | rfl | rfl | rfl) | rfl | rfl
  · decide
  · decide
  · decide
  · decide
  · decide
  · decide
  · decide

/-- What a call is answered with behind its send. -/
inductive Outcome (v : Backend) (b : Behaviour) (m : Method) (names : Names) :
    Except Status Json → Prop
  | overBudget (restored : (b.pages 0).restored = true) (submitted : (b.pages 0).submitted = true)
      (exceeded : ¬ Budgeted v m ((b.pages 0).heard m)) : Outcome v b m names (.error overBudget)
  | decoded (replies : Replies v b m) :
      Outcome v b m names ((decodedReply v b m names).bind ordinaryResult)
  | settled (status : Status) (settled : Settled status) (other : ¬ Replies v b m)
      (budgeted : (b.pages 0).restored = true → (b.pages 0).submitted = true →
        Budgeted v m ((b.pages 0).heard m)) : Outcome v b m names (.error status)

/-- **Behind the send** of an ordinary call. -/
theorem submit_outcome (h : OrdinaryCall v request m) {names : Names}
    (hfd : (b.pages 0).fd = true) (hconfigured : (b.pages 0).configured = true) (bytes : Bytes)
    {w : Work} (hnames : w.names = namesBefore v b m names) :
    ∃ outcome w', (match submit v m (b.pages 0) bytes w with
        | .inl (status, w) => (fail status, w)
        | .inr (status, c) =>
          (.reply (ordinaryEnd v b m status c).1, (ordinaryEnd v b m status c).2)) =
        (.reply outcome, w') ∧ Outcome v b m names outcome ∧ w'.spool = w.spool ∧
      .sent bytes ∈ w'.log := by
  have hwork := call_work h (b.pages 0) bytes w
  have hrest : ∀ status : Status,
      (ordinaryEnd v b m status ((b.pages 0).call m v bytes w)).2.spool = w.spool ∧
        .sent bytes ∈ (ordinaryEnd v b m status ((b.pages 0).call m v bytes w)).2.log := by
    intro status
    obtain ⟨new, hlog, -⟩ := ordinaryEnd_log (v := v) (m := m) b status
      ((b.pages 0).call m v bytes w)
    rw [ordinaryEnd_spool, hlog, hwork]
    exact ⟨rfl, List.mem_append_right _ List.mem_cons_self⟩
  rcases submit_sent hfd hconfigured bytes w with
    ⟨hanswered, hsubmit⟩ | ⟨⟨hrestored, hsubmitted⟩, hnot, status, hunknown, hsubmit⟩ |
      ⟨hnot, status, hunknown, hsubmit⟩
  · rw [hsubmit]
    refine ⟨_, _, rfl, ?_, hrest {}⟩
    by_cases hbudget : Budgeted v m ((b.pages 0).heard m)
    · obtain ⟨hstatus, hreply⟩ := Page.call_budgeted hbudget bytes w
      rw [ordinaryEnd_answered hstatus, Page.call_retval, hreply, hwork]
      by_cases hrejected : lastRetval v m ((b.pages 0).heard m) ≠ 0
      · rw [if_pos hrejected]
        exact .settled _ (.inr (.inl rfl)) (fun h => hrejected h.retval) fun _ _ => hbudget
      rw [if_neg hrejected]
      by_cases hrefresh : hasInterface v.cat levels m.output = true ∧
          (refreshNames b.namesAfter).1.ok = false
      · rw [if_pos hrefresh]
        refine .settled _ (.inr (.inr rfl)) (fun h => ?_) fun _ _ => hbudget
        rw [h.refreshed hrefresh.1] at hrefresh
        cases hrefresh.2
      rw [if_neg hrefresh]
      have hreplies : Replies v b m :=
        ⟨hanswered, hbudget, not_not.1 hrejected, fun h => by simpa [h] using hrefresh⟩
      have hdecoded : Outcome v b m names _ := .decoded hreplies
      rw [decodedReply, namesBehind, ← hnames] at hdecoded
      exact hdecoded
    · rw [ordinaryEnd_over (Page.call_over hbudget bytes w)]
      exact .overBudget hanswered.restored hanswered.submitted hbudget
  · rw [hsubmit]
    refine ⟨_, _, rfl, ?_, hrest status⟩
    by_cases hbudget : Budgeted v m ((b.pages 0).heard m)
    · rw [ordinaryEnd_unknown (Page.call_budgeted hbudget bytes w).1 hunknown.not_ok]
      exact .settled _ (.inl hunknown) (fun h => hnot h.answered) fun _ _ => hbudget
    · rw [ordinaryEnd_over (Page.call_over hbudget bytes w)]
      exact .overBudget hrestored hsubmitted hbudget
  · rw [hsubmit]
    refine ⟨_, _, rfl, .settled _ (.inl hunknown) (fun h => ?_) fun h₁ h₂ => ?_, rfl,
      List.mem_cons_self⟩
    · exact hnot ⟨h.answered.restored, h.answered.submitted⟩
    · exact absurd ⟨h₁, h₂⟩ hnot

/-- The conversion of a reply that succeeds has no code of a refused call. -/
theorem ordinaryResult_not_mem (value : Json) :
    (statusOf (ordinaryResult value)).code ∉ requestCodes := by
  unfold ordinaryResult
  split
  · split_ifs
    · exact (by decide : ([] : Bytes) ∉ requestCodes)
    · exact (by decide : utf8 "vpp_rejected" ∉ requestCodes)
  · exact (by decide : ([] : Bytes) ∉ requestCodes)

/-- The code of a reply behind the send. -/
theorem outcome_mem_iff (hid : isIdText (idOf request) = true) {spool : Spool} {names : Names}
    {outcome : Except Status Json} (h : Outcome v b m names outcome) :
    (spool.replied v.env (idOf request) outcome).code ∈ requestCodes ↔
      Misleads v b request m ⟨spool, names, []⟩ := by
  cases h with
  | overBudget hrestored hsubmitted hexceeded =>
    have hbrief : Status.Brief overBudget := by decide
    have hcode : Status.code overBudget ∈ requestCodes := by decide
    rw [replied_brief_iff hid hbrief, and_iff_right hcode]
    refine ⟨fun hroom => .overBudget hrestored hsubmitted hexceeded hroom, fun h => ?_⟩
    cases h with
    | overBudget _ _ _ hroom => exact hroom
    | undecodable hreplies => exact absurd hreplies.budgeted hexceeded
    | tooLong hreplies => exact absurd hreplies.budgeted hexceeded
  | decoded hreplies =>
    rw [replied_mem_iff]
    constructor
    · intro h
      rcases h with ⟨hroom, hcode⟩ | hlong
      · cases hdecoded : decodedReply v b m names with
        | error status =>
          rw [hdecoded] at hroom hcode
          exact .undecodable hreplies status hdecoded hcode hroom
        | ok value =>
          rw [hdecoded] at hcode
          exact absurd hcode (ordinaryResult_not_mem value)
      · exact .tooLong hreplies hlong
    · intro h
      cases h with
      | overBudget _ _ hexceeded => exact absurd hreplies.budgeted hexceeded
      | undecodable _ status hdecoded hcode hroom =>
        rw [show decodedReply v b m names = .error status from hdecoded]
        exact .inl ⟨hroom, hcode⟩
      | tooLong _ hlong => exact .inr hlong
  | settled status hsettled hother hbudget =>
    rw [replied_brief_iff hid hsettled.brief.1]
    refine ⟨fun h => absurd h.1 hsettled.brief.2, fun h => ?_⟩
    cases h with
    | overBudget hrestored hsubmitted hexceeded =>
      exact absurd (hbudget hrestored hsubmitted) hexceeded
    | undecodable hreplies => exact absurd hreplies hother
    | tooLong hreplies => exact absurd hreplies hother

/-- **An ordinary call** gets to its send and has an outcome, or has sent nothing. -/
theorem ordinary_cases (h : OrdinaryCall v request m) (b : Behaviour) (spool : Spool)
    (names : Names) :
    (Sends v b request m names ∧ ∃ outcome w',
        ending v b request ⟨spool, names, []⟩ = (.reply outcome, w') ∧
        Outcome v b m names outcome ∧ w'.spool = spool ∧ ∃ bytes, .sent bytes ∈ w'.log) ∨
      (¬ Sends v b request m names ∧ ∃ status w',
        ending v b request ⟨spool, names, []⟩ = (fail status, w') ∧ w'.spool = spool ∧
        ∀ bytes, .sent bytes ∉ w'.log) := by
  have hfresh : ∀ w' : Work, Work.Fresh ⟨spool, names, []⟩ w' → ∀ bytes, .sent bytes ∉ w'.log := by
    intro w' hw bytes
    rcases hw.2 with hlog | hlog
    · rw [hlog]
      exact List.not_mem_nil
    · rw [hlog]
      simp
  rw [ending_call h.describe h.methods h.found]
  rcases call_cases v b request m ⟨spool, names, []⟩ with
    ⟨hbegins, w', hw', hnames, hcall⟩ | ⟨hnot, status, w', hw', hcall⟩
  · have hencoded : ∀ bytes, .sent bytes ∉ (w'.note (.encoded m.input)).log := by
      intro bytes hmem
      rcases List.mem_cons.1 hmem with heq | hmem
      · cases heq
      · exact hfresh w' hw' bytes hmem
    rw [hcall, pages_one h.stream, hnames]
    cases hencode : Encode v.cat v.native (symbols (namesBefore v b m names)) m.input
        (firstParams m (paramsOf request)) with
    | error status =>
      refine .inr ⟨fun hs => ?_, status, _, rfl, hw'.1, hencoded⟩
      obtain ⟨bytes, hbytes⟩ := hs.encodes
      rw [hencode] at hbytes
      cases hbytes
    | ok bytes =>
      simp only
      by_cases hready : (b.pages 0).fd = true ∧ (b.pages 0).configured = true
      · obtain ⟨outcome, w'', heq, houtcome, hspool, hsent⟩ := submit_outcome h hready.1 hready.2
          bytes (w := w'.note (.encoded m.input)) hnames
        exact .inl ⟨⟨hbegins, ⟨bytes, hencode⟩, hready.1, hready.2⟩, outcome, w'', heq, houtcome,
          hspool.trans hw'.1, bytes, hsent⟩
      · obtain ⟨status, hsubmit⟩ := submit_unready hready bytes (w'.note (.encoded m.input))
        rw [hsubmit]
        exact .inr ⟨fun hs => hready ⟨hs.fd, hs.configured⟩, status, _, rfl, hw'.1, hencoded⟩
  · rw [hcall]
    exact .inr ⟨fun hs => hnot hs.toBegins, status, w', rfl, hw'.1, hfresh w' hw'⟩

/-- The response of an ordinary call says its status: the file holds the answer with that status, or
ends with an error that has it. -/
theorem ordinary_response (h : OrdinaryCall v request m) (b : Behaviour) (names : Names)
    {limit : Nat} (hlow : 1024 ≤ limit) (hhigh : limit < 2 ^ 64) :
    (∃ outcome, Spool.Ended limit (Spool.recordFrames v.env (idOf request) 0 (answer (idOf request) outcome))
        (generic v b request ⟨Spool.create (idOf request) limit, names, []⟩).2.spool.file ∧
        responseStatus v b request ⟨Spool.create (idOf request) limit, names, []⟩ =
          statusOf outcome) ∨
      ∃ part, Spool.Ended limit (part ++ [error (idOf request)
          (responseStatus v b request ⟨Spool.create (idOf request) limit, names, []⟩)])
        (generic v b request ⟨Spool.create (idOf request) limit, names, []⟩).2.spool.file := by
  obtain ⟨outcome, w', hending, hspool⟩ : ∃ outcome w',
      ending v b request ⟨Spool.create (idOf request) limit, names, []⟩ = (.reply outcome, w') ∧
        w'.spool = Spool.create (idOf request) limit := by
    rcases ordinary_cases h b (Spool.create (idOf request) limit) names with
      ⟨-, outcome, w', hending, -, hspool, -⟩ | ⟨-, status, w', hending, hspool, -⟩
    · exact ⟨outcome, w', hending, hspool⟩
    · exact ⟨.error status, w', hending, hspool⟩
  simp only [generic, responseStatus, hending, Work.close, hspool]
  rcases @Spool.single_replied v.env _ _ h.id hlow hhigh outcome with hwhole | hrefused
  · exact .inl ⟨outcome, hwhole⟩
  · exact .inr hrefused

/-- **Whether a call may have run**: an ordinary call that is answered with a code of a refused
call has not been sent, unless it has a reply that is over the native budget, that does not decode,
or whose answer is too long. -/
theorem code_of_refused_iff (h : OrdinaryCall v request m) (b : Behaviour) (spool : Spool)
    (names : Names) :
    ((responseStatus v b request ⟨spool, names, []⟩).code ∈ requestCodes →
      ∀ bytes, .sent bytes ∉ (generic v b request ⟨spool, names, []⟩).2.log) ↔
      ¬ (Sends v b request m names ∧ Misleads v b request m ⟨spool, names, []⟩) := by
  rw [generic_log]
  rcases ordinary_cases h b spool names with
    ⟨hsends, outcome, w', hending, houtcome, hspool, bytes, hsent⟩ |
      ⟨hnot, status, w', hending, -, hunsent⟩
  · have hcode : (spool.replied v.env (idOf request) outcome).code ∈ requestCodes ↔
        Misleads v b request m ⟨spool, names, []⟩ := outcome_mem_iff h.id houtcome
    rw [responseStatus, hending]
    simp only
    rw [hspool, hcode]
    constructor
    · intro himp hmisleads
      exact himp hmisleads.2 bytes hsent
    · intro hnot hmisleads
      exact absurd ⟨hsends, hmisleads⟩ hnot
  · rw [hending]
    exact ⟨fun _ hmisleads => hnot hmisleads.1, fun _ _ => hunsent⟩

end

/-! ## A loopback that is gone -/

/-- The types of `create_loopback`. -/
def loopbackTypes : List (Bytes × TypeDef) :=
  [("create_loopback", .struct [{ name := "mac_address", type := "vl_api_mac_address_t" }]),
    ("create_loopback_reply", .struct [{ name := "retval", type := "i32" },
      { name := "sw_if_index", type := "vl_api_interface_index_t" }]),
    ("vl_api_interface_index_t", .alias "u32" none)]

/-- A backend with `create_loopback` as its one method. -/
def loopbackBackend : Backend where
  env := Env.plain
  native := Native.plain
  cat name := loopbackTypes.lookup name
  methods := [("vpp.create_loopback", Json.object
    [("request", .str "create_loopback"), ("reply", .str "create_loopback_reply"),
      ("supported", .bool true)])]

/-- The description of `create_loopback`. -/
def loopbackMethod : Method where
  input := "create_loopback"
  reply := "create_loopback_reply"

/-- A call of `create_loopback`. -/
def loopbackRequest : Json :=
  Json.object [("id", .str "r1"), ("method", .str "vpp.create_loopback"),
    ("params", Json.object [("mac_address", .str "02:00:00:00:00:01")])]

/-- VPP creates the loopback with the index 5, and has the names it had before when they are
refreshed: someone else has deleted the loopback. -/
def deletedLoopback : Behaviour where
  names := { turns := [{ arrivals := [{ last := true, reply := some (0, "local0") }] }] }
  pages _ := { turns := [{ arrivals := [{ reply := some [0, 0, 0, 0, 5, 0, 0, 0] }] }] }
  namesAfter := { turns := [{ arrivals := [{ last := true, reply := some (0, "local0") }] }] }

/-- The request of the example is an ordinary call. -/
theorem ordinaryCall_loopback : OrdinaryCall loopbackBackend loopbackRequest loopbackMethod where
  id := by decide
  describe := by decide
  methods := by decide
  found := ⟨_, rfl, rfl⟩
  stream := rfl
  single := rfl

/-- VPP creates the loopback with the index 5, and has its name when they are refreshed. -/
def createdLoopback : Behaviour where
  names := { turns := [{ arrivals := [{ last := true, reply := some (0, "local0") }] }] }
  pages _ := { turns := [{ arrivals := [{ reply := some [0, 0, 0, 0, 5, 0, 0, 0] }] }] }
  namesAfter := { turns := [{ arrivals := [{ last := true, reply := some (5, "loop0") }] }] }

/-- A loopback that is created: the call is sent, and its answer has no code of a refused call. -/
theorem code_of_refused_iff_created :
    .sent [2, 0, 0, 0, 0, 1] ∈ (generic loopbackBackend createdLoopback loopbackRequest
      ⟨Spool.create "r1", ∅, []⟩).2.log ∧
    (responseStatus loopbackBackend createdLoopback loopbackRequest
      ⟨Spool.create "r1", ∅, []⟩).code ∉ requestCodes := by
  have hsent : .sent [2, 0, 0, 0, 0, 1] ∈ (generic loopbackBackend createdLoopback loopbackRequest
      ⟨Spool.create "r1", ∅, []⟩).2.log := by decide +kernel
  have hdecoded : decodedReply loopbackBackend createdLoopback loopbackMethod ∅ =
      .ok (Json.object [("retval", .int 0), ("sw_if_index", .str "loop0")]) := rfl
  refine ⟨hsent, fun hcode => ?_⟩
  refine (code_of_refused_iff ordinaryCall_loopback _ _ _).2 ?_ hcode _ hsent
  rintro ⟨-, hmisleads⟩
  cases hmisleads with
  | overBudget _ _ hexceeded =>
    refine hexceeded fun a ha status hpayload => ?_
    rw [show (createdLoopback.pages 0).heard loopbackMethod =
      [{ reply := some [0, 0, 0, 0, 5, 0, 0, 0] }] from rfl] at ha
    obtain rfl := List.mem_singleton.1 ha
    cases hpayload
  | undecodable _ status herror =>
    rw [show decodedReply _ _ _ _ = _ from hdecoded] at herror
    cases herror
  | tooLong _ hlong =>
    rw [show decodedReply _ _ _ _ = _ from hdecoded] at hlong
    exact absurd hlong (by decide +kernel)

/-- **The code of a refused call behind the send**: the loopback was created, and the response has
the code of a request with an unknown name. -/
theorem sent_with_code_of_refused : ¬ ∀ (v : Backend) (request : Json) (m : Method),
    OrdinaryCall v request m → ∀ b spool names,
      (responseStatus v b request ⟨spool, names, []⟩).code ∈ requestCodes →
        ∀ bytes, .sent bytes ∉ (generic v b request ⟨spool, names, []⟩).2.log := by
  intro hlaw
  refine hlaw _ _ _ ordinaryCall_loopback deletedLoopback (Spool.create "r1") ∅ (by decide +kernel)
    [2, 0, 0, 0, 0, 1] ?_
  decide +kernel

end Vapi

end VppJson
