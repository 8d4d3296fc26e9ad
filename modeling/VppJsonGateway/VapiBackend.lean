import VppJsonGateway.Discovery
import VppJsonGateway.Gateway

/-!
# The VAPI backend

`VapiBackend::Generic` of `src/src/vapi_backend.cc`, with the interface dump behind `RefreshNames`,
the loop of `Dispatch` and the callbacks that `src/tools/schema_generator.cc` generates. What VPP,
the socket and the clock do is a `Behaviour`: one answer for every question the code asks of them.
A dispatch loop that hears nothing more runs into its deadline.

The field `log` of a `Work` is a history: what `Generic` has sent, converted and refreshed.
-/

namespace VppJson

open Lib Schema

namespace Vapi

/-! ## Dispatching -/

/-- What `vapi_dispatch_one` returns. -/
inductive Rc where
  | ok
  | again
  | failed
  deriving DecidableEq

/-- One iteration of the loop of `Dispatch`: the callbacks made, the code returned, and whether the
clock has reached the deadline. -/
structure Turn (α : Type) where
  arrivals : List α := []
  rc : Rc := .ok
  late : Bool := false

/-- `Dispatch`, over what the callbacks keep. -/
def dispatch {α σ : Type} (done : σ → Bool) (hear : σ → α → σ) (mutation : Bool) :
    σ → List (Turn α) → Status × σ
  | s, [] =>
    if done s then ({}, s)
    else (⟨if mutation then "outcome_unknown" else "deadline_exceeded",
      "VAPI request exceeded 30 seconds"⟩, s)
  | s, turn :: turns =>
    if done s then ({}, s)
    else
      let s := turn.arrivals.foldl hear s
      if turn.rc = .failed then
        (⟨if mutation then "outcome_unknown" else "backend_unavailable",
          "VAPI connection failed"⟩, s)
      else if turn.late then
        (⟨if mutation then "outcome_unknown" else "deadline_exceeded",
          "VAPI request exceeded 30 seconds"⟩, s)
      else dispatch done hear mutation s turns

/-! ## Interface names -/

/-- `names_`. -/
abbrev Names := AList fun _ : UInt32 => Bytes

/-- A call of `OnDump`: the interface's index and name, where there is a reply. -/
structure Detail where
  ok : Bool := true
  last : Bool := false
  reply : Option (UInt32 × Bytes) := none

/-- The members of `DumpState` that `RefreshNames` uses. -/
structure DumpState where
  names : Names := ∅
  done : Bool := false
  failed : Bool := false

/-- `OnDump`. -/
def onDump (s : DumpState) (d : Detail) : DumpState :=
  if d.ok = false then { s with failed := true, done := true }
  else
    let s := match d.reply with
      | some (index, name) => { s with names := s.names.insert index name }
      | none => s
    if d.last then { s with done := true } else s

/-- How VPP answers `RefreshNames`. -/
structure Dump where
  available : Bool := true
  allocated : Bool := true
  submitted : Bool := true
  turns : List (Turn Detail) := []

/-- `RefreshNames`: its status and the names it leaves. -/
def refreshNames (d : Dump) : Status × Names :=
  if !d.available then (⟨"unsupported_operation", "Interface resolver unavailable"⟩, ∅)
  else if !d.allocated then (⟨"backend_unavailable", "Cannot allocate VAPI dump"⟩, ∅)
  else if !d.submitted then (⟨"backend_unavailable", "Cannot submit VAPI dump"⟩, ∅)
  else
    let (status, s) := dispatch (·.done) onDump false {} d.turns
    if !status.ok then (status, s.names)
    else if s.failed then (⟨"backend_unavailable", "VAPI dump failed"⟩, s.names)
    else ({}, s.names)

/-- The indexes that have a name. -/
def Names.indexes (names : Names) (name : Bytes) : List UInt32 :=
  (names.entries.filter fun e => e.2 = name).map (·.1)

/-- The `Symbols` of `Generic`. -/
def symbols (names : Names) : Symbols where
  interfaceIndex := some fun name =>
    match names.indexes name with
    | [] => .error ⟨"resource_not_found", "Interface name did not resolve uniquely"⟩
    | [index] => .ok index
    | _ :: _ :: _ => .error ⟨"ambiguous_resource", "Interface name did not resolve uniquely"⟩
  interfaceName := some fun index =>
    match names.lookup index with
    | some name => .ok name
    | none => .error ⟨"resource_not_found", "VPP returned an unresolved interface index"⟩

/-! ## Methods -/

/-- What `Generic` reads of a method's description. -/
structure Method where
  input : Bytes
  reply : Bytes
  streamMsg : Option Bytes := none
  supported : Bool := true
  reason : Bytes := "Unsupported layout"
  stream : Bool := false
  automaticCursor : Bool := false

/-- A text of a description. -/
def text? (key : Bytes) (description : Json) : Option Bytes := (description.get? key).bind Json.str?

/-- A flag of a description. -/
def flag (key : Bytes) (description : Json) : Bool :=
  match description.get? key with
  | some (.bool b) => b
  | _ => false

/-- The description of a method, as the catalog has it. -/
def Method.ofJson (description : Json) : Method where
  input := (text? "request" description).getD []
  reply := (text? "reply" description).getD []
  streamMsg := text? "stream_msg" description
  supported := flag "supported" description
  reason := (text? "reason" description).getD "Unsupported layout"
  stream := flag "stream" description
  automaticCursor := flag "automatic_cursor" description

/-- `output`: the type of what the method answers with. -/
def Method.output (m : Method) : Bytes := m.streamMsg.getD m.reply

/-- The members of `VapiBackend` that stay as they are, and what they are built with. -/
structure Backend where
  env : Env
  native : Native
  cat : Catalog
  methods : List (Bytes × Json) := []

/-! ## One call -/

/-- What `Generic` does beside writing its spool. -/
inductive Act where
  | refreshed
  | encoded (type : Bytes)
  | decoded (type : Bytes)
  | sent (bytes : Bytes)
  deriving DecidableEq

/-- The spool, the names and the history, latest act first. -/
structure Work where
  spool : Spool
  names : Names := ∅
  log : List Act := []

/-- An act is done. -/
def Work.note (w : Work) (act : Act) : Work := { w with log := act :: w.log }

/-- `GeneratedCall`, with what its function `item` writes. -/
structure Call where
  done : Bool := false
  retval : Int := 0
  failed : Bool := false
  status : Status := {}
  reply : Bytes := []
  replyStatus : Status := {}
  work : Work

/-- One call of a generated callback: that of the details, or that of the reply. -/
structure Arrival where
  details : Bool := false
  ok : Bool := true
  last : Bool := true
  reply : Option Bytes := none

/-- How the transport behaves over one page. -/
structure Page where
  fd : Bool := true
  configured : Bool := true
  restored : Bool := true
  submitted : Bool := true
  turns : List (Turn Arrival) := []
  late : Bool := false

/-- What `Connect` can end with. -/
inductive Connection where
  | ok
  | unallocated
  | refused

/-- The status of `Connect`. -/
def Connection.status : Connection → Status
  | .ok => {}
  | .unallocated => ⟨"backend_unavailable", "Cannot allocate VAPI context"⟩
  | .refused => ⟨"backend_unavailable", "Cannot connect to compatible VPP 26.06 API"⟩

/-- Everything VPP and the transport do during one call of `Generic`. -/
structure Behaviour where
  connect : Connection := .ok
  available : Bytes → Bool := fun _ => true
  names : Dump := {}
  pages : Nat → Page := fun _ => {}
  namesAfter : Dump := {}

/-- `VPP_STREAM_CONTINUE`. -/
def streamContinue : Int := -165

section

variable (v : Backend)

/-- The native `retval` member of a reply, where its type has one. -/
def nativeRetval (type message : Bytes) : Option Int :=
  match v.cat type with
  | some (.struct fields) =>
    if fields.any fun f => f.name = utf8 "retval" ∧ f.type = utf8 "i32" then
      (memberOffset v.cat "retval" 0 fields).map fun m =>
        readInt true ((message.drop m.1.toNat).take 4)
    else none
  | _ => none

/-- `call.item`. -/
def item (output : Bytes) (c : Call) (payload : Bytes) : Call :=
  if !c.replyStatus.ok || !c.work.spool.status.ok then c
  else
    let w := c.work.note (.decoded output)
    match Decode v.cat v.native (symbols w.names) output payload with
    | .error status => { c with replyStatus := status, work := w }
    | .ok value => { c with replyStatus := {}, work := { w with spool := (w.spool.add v.env value).2 } }

/-- A generated callback for a reply type: whether it hands its payload on as an item, and whether
it completes the call. -/
def callback (output type : Bytes) (items completes : Bool) (c : Call) (a : Arrival) : Call :=
  if a.ok = false then { c with failed := true, done := true }
  else
    let c := match a.reply with
      | none => c
      | some message =>
        let size := callbackSize v.cat type message
        let c := match size with
          | .error status => { c with status := status }
          | .ok _ => c
        let c := { c with retval := (nativeRetval v type message).getD c.retval }
        match size with
        | .ok size =>
          if c.status.ok then
            if items then item v output c (message.take size)
            else { c with reply := message.take size }
          else c
        | .error _ => c
    if completes && a.last then { c with done := true } else c

/-- The callbacks of a method: an explicit stream has one for its details and one for its reply. -/
def hear (m : Method) (c : Call) (a : Arrival) : Call :=
  if m.streamMsg.isSome then
    if a.details then callback v m.output m.output true false c a
    else callback v m.output m.reply false true c a
  else callback v m.output m.reply m.stream true c a

/-- `RefreshNames` in a call. -/
def Work.refresh (w : Work) (d : Dump) : Status × Work :=
  ((refreshNames d).1, { w with names := (refreshNames d).2, log := .refreshed :: w.log })

/-- The cursor of a request or of a completion. -/
def cursor? (j : Json) : Option Nat := (j.get? "cursor").bind Json.uint?

/-- A number is zero. -/
def isZero : Json → Bool
  | .int i => i = 0
  | .uint n => n = 0
  | .float d => d.text = utf8 "0.0" ∨ d.text = utf8 "-0.0"
  | _ => false

/-- What `Generic` ends with: one reply, where `fail` replies with an error, or `Finish`. -/
inductive Ending where
  | reply (outcome : Except Status Json)
  | stream (status : Status)

/-- `fail`. -/
def fail (status : Status) : Ending := .reply (.error status)

/-- The end of `Generic` on its spool. -/
def Work.close (w : Work) (id : Bytes) : Ending → Status × Work
  | .reply outcome =>
    let (status, spool) := w.spool.single v.env (answer id outcome)
    (status, { w with spool })
  | .stream status =>
    let (status, spool) := w.spool.finish status
    (status, { w with spool })

/-- The reply of an ordinary call, from its decoded value. -/
def ordinaryResult (value : Json) : Except Status Json :=
  match value.get? "retval" with
  | some retval =>
    if isZero retval then .ok (value.erase "retval")
    else .error ⟨"vpp_rejected",
      utf8 "VPP rejected the operation (retval " ++ retval.dump ++ utf8 ")"⟩
  | none => .ok value

/-- `Generic` behind the reply of an ordinary call. -/
def ordinaryEnd (b : Behaviour) (m : Method) (status : Status) (c : Call) :
    Except Status Json × Work :=
  if !c.status.ok then (.error c.status, c.work)
  else if !status.ok then (.error status, c.work)
  else if c.retval ≠ 0 then (.error ⟨"vpp_rejected", "VPP rejected the operation"⟩, c.work)
  else
    let (refresh, w) :=
      if hasInterface v.cat levels m.output then c.work.refresh b.namesAfter else ({}, c.work)
    if !refresh.ok then
      (.error ⟨"outcome_unknown", "Reply received but interface names could not be refreshed"⟩, w)
    else
      ((Decode v.cat v.native (symbols w.names) m.output c.reply).bind ordinaryResult,
        w.note (.decoded m.output))

/-- What a completion says of a stream: its status, or the parameters of the next page. -/
def completionEnd (m : Method) (callParams : Json) (late : Bool) (retval : Int)
    (completion : Json) : Status ⊕ Json :=
  if retval = streamContinue ∧ m.automaticCursor = true then
    match cursor? completion with
    | none => .inl ⟨"deadline_exceeded", "VPP pagination did not complete"⟩
    | some cursor =>
      if cursor? callParams = some cursor ∨ late = true then
        .inl ⟨"deadline_exceeded", "VPP pagination did not complete"⟩
      else .inr (callParams.set "cursor" (.uint cursor))
  else if retval ≠ 0 then .inl ⟨"vpp_rejected", "VPP rejected the stream operation"⟩
  else .inl {}

/-- `Generic` behind a page of a stream: its status, or the parameters of the next page. -/
def streamEnd (m : Method) (callParams : Json) (late : Bool) (status : Status) (c : Call) :
    (Status ⊕ Json) × Work :=
  if !status.ok then (.inl status, c.work)
  else if !c.status.ok then (.inl c.status, c.work)
  else if !c.replyStatus.ok || !c.work.spool.status.ok then (.inl c.replyStatus, c.work)
  else if m.streamMsg.isSome then
    (match Decode v.cat v.native (symbols c.work.names) m.reply c.reply with
      | .error status => .inl status
      | .ok completion => completionEnd m callParams late c.retval completion,
      c.work.note (.decoded m.reply))
  else (.inl {}, c.work)

/-- The submission of a page: why it failed, or what its call ended with. -/
def submit (m : Method) (page : Page) (bytes : Bytes) (w : Work) :
    (Status × Work) ⊕ (Status × Call) :=
  if !page.fd then .inl (⟨"backend_unavailable", "VAPI socket unavailable"⟩, w)
  else if !page.configured then
    .inl (⟨"backend_unavailable", "Cannot configure bounded VAPI send"⟩, w)
  else
    let w := w.note (.sent bytes)
    if !page.restored then
      .inl (⟨"outcome_unknown", "Cannot restore VAPI socket after send"⟩, w)
    else if !page.submitted then
      .inl (⟨"outcome_unknown", "VAPI submission failed; reconcile before retrying"⟩, w)
    else
      let (status, c) := dispatch (·.done) (hear v m) true { work := w } page.turns
      .inr (if status.ok && c.failed then ⟨"outcome_unknown", "VAPI reply failed"⟩ else status, c)

/-- The loop of `Generic` over pages. -/
def pages (b : Behaviour) (m : Method) : Nat → Nat → Json → Work → Ending × Work
  | 0, _, _, w => (.stream ⟨"quota_exceeded", "VPP pagination exceeded 1024 pages"⟩, w)
  | left + 1, n, callParams, w =>
    match Encode v.cat v.native (symbols w.names) m.input callParams with
    | .error status => (fail status, w.note (.encoded m.input))
    | .ok bytes =>
      match submit v m (b.pages n) bytes (w.note (.encoded m.input)) with
      | .inl (status, w) => (fail status, w)
      | .inr (status, c) =>
        if m.stream then
          match streamEnd v m callParams (b.pages n).late status c with
          | (.inl status, w) => (.stream status, w)
          | (.inr callParams, w) => pages b m left (n + 1) callParams w
        else
          let (outcome, w) := ordinaryEnd v b m status c
          (.reply outcome, w)

/-- The first page a call asks for. -/
def firstParams (m : Method) (params : Json) : Json :=
  if m.automaticCursor then params.set "cursor" (.uint 4294967295) else params

/-- `Generic` on a method of the catalog. -/
def call (b : Behaviour) (method : Bytes) (params : Json) (m : Method) (w : Work) : Ending × Work :=
  if !m.supported then (fail ⟨"unsupported_operation", m.reason⟩, w)
  else if !b.connect.status.ok then (fail b.connect.status, w)
  else if !b.available method then
    (fail ⟨"unsupported_operation", "VPP message schema is unavailable or incompatible"⟩, w)
  else if m.automaticCursor && params.contains "cursor" then
    (fail ⟨"invalid_params", "Pagination is managed by the gateway"⟩, w)
  else
    let (refresh, w) :=
      if hasInterface v.cat levels m.input || hasInterface v.cat levels m.output then
        w.refresh b.names
      else ({}, w)
    if !refresh.ok then (fail refresh, w) else pages v b m 1024 0 (firstParams m params) w

/-- What `api.describe` answers about a method. -/
def description (method : Json) : Json :=
  let m := Method.ofJson method
  let d := (method.set "params" (Describe v.cat m.input)).set "result" (Describe v.cat m.output)
  if m.automaticCursor then
    let params := Describe v.cat m.input
    let properties := ((params.get? "properties").getD .null).erase "cursor"
    let required := match params.get? "required" with
      | some (.arr names) => .arr (names.filter fun k => k.str? ≠ some (utf8 "cursor"))
      | other => other.getD .null
    d.set "params" ((params.set "properties" properties).set "required" required)
  else d

/-- `Generic` up to the end on its spool. -/
def ending (b : Behaviour) (request : Json) (w : Work) : Ending × Work :=
  let method := methodOf request
  let params := paramsOf request
  if method = utf8 "api.describe" then
    match params.get? "method" with
    | some (.str name) =>
      if params.size ≠ 1 then (fail ⟨"invalid_params", "Expected a method name"⟩, w)
      else
        match Json.find name v.methods with
        | none => (fail ⟨"method_not_found", "Unknown generated method"⟩, w)
        | some found => (.reply (.ok (description v found)), w)
    | _ => (fail ⟨"invalid_params", "Expected a method name"⟩, w)
  else if method = utf8 "api.methods" then
    if params.size ≠ 0 then (fail ⟨"invalid_params", "api.methods takes no parameters"⟩, w)
    else
      let items := v.methods.map fun kv => (kv.2.set "method" (.str kv.1)).set "available"
        (.bool (b.connect.status.ok && b.available kv.1))
      (.stream {}, { w with spool := (w.spool.addAll v.env items).2 })
  else
    match Json.find method v.methods with
    | none => (fail ⟨"method_not_found", "Method is not supported"⟩, w)
    | some found => call v b method params (Method.ofJson found) w

/-- `VapiBackend::Generic`. -/
def generic (b : Behaviour) (request : Json) (w : Work) : Status × Work :=
  let (ending, w) := ending v b request w
  w.close v (idOf request) ending

end

end Vapi

end VppJson
