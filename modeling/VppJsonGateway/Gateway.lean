import VppJsonGateway.Lib.Streams
import VppJsonGateway.Spool
import VppJsonGateway.Transfer

/-!
# The gateway

`ApiServer` of `src/src/main.cc` with the journal of `src/src/store.cc`, the Redis transport of
`src/src/redis_transport.cc` and `RunBackend` of `src/src/backend.cc`, as programs over one state.
Every statement sent to SQLite, every Redis command and every file operation of the main thread
is one step. The clients, Redis, the clock and the worker thread move in between.

A table is the list of its rows in the order of their row numbers: SQLite gives a new row the
largest number there is, plus one. The keys of Redis are known by what their names are made of;
`Key.text` is the name. The field `log` is a history, latest first.
-/

namespace VppJson

open Lib

/-! ## State -/

/-- What became of a Redis command: carried out and answered, carried out without an answer, or
not carried out. -/
inductive Wire where
  | ok
  | lost
  | fail
  deriving DecidableEq

/-- What a step of the gateway is answered: by Redis, by the file system, and on the writes of a
spool. -/
structure Chance where
  wire : Wire := .ok
  answer : Answer := .ok
  disk : List Io := []

/-- The streams of the gateway in Redis. -/
inductive Key where
  | register
  | bootstrap (client : Bytes)
  | requests (client sid : Bytes)
  | responses (client sid : Bytes)
  deriving DecidableEq

/-- A row of the table `sessions`. -/
structure Session where
  sid : Bytes
  client : Bytes
  registration : Bytes
  expires : Nat
  deriving DecidableEq

/-- The column `state` of the table `jobs`. -/
inductive JobState where
  | queued
  | running
  | done
  deriving DecidableEq

/-- A row of the table `jobs`. -/
structure Job where
  sid : Bytes
  id : Bytes
  body : Bytes
  path : Bytes
  expires : Nat
  state : JobState := .queued
  offset : Nat := 0
  size : Nat := 0
  deriving DecidableEq

/-- The row with the primary key `(sid, id)`. -/
def Job.Is (sid id : Bytes) (j : Job) : Prop := j.sid = sid ∧ j.id = id

instance (sid id : Bytes) (j : Job) : Decidable (j.Is sid id) :=
  inferInstanceAs (Decidable (j.sid = sid ∧ j.id = id))

/-- A call handed to the worker thread: what it captures, and its result once it is there. -/
structure Task where
  request : Json
  path : Bytes
  available : Int
  outcome : Option Status := none

/-- What the history records. -/
inductive Happening where
  /-- A client appended an entry. -/
  | appended (key : Key) (entry : Entry)
  /-- The gateway published a frame. -/
  | published (key : Key) (frame : Bytes)
  /-- A job was journaled. -/
  | inserted (sid id : Bytes)
  /-- A job was marked running. -/
  | started (sid id : Bytes)
  /-- A job was handed to the worker, the transfer manager or the lease renewal. -/
  | executed (sid id : Bytes)
  /-- A replay was asked for a job that is not done. -/
  | awaited (sid id : Bytes)
  /-- A replay reset the delivery of a job. -/
  | rewound (sid id : Bytes)
  /-- The streams of a session were deleted. -/
  | dropped (sid : Bytes)
  deriving DecidableEq

/-- The journal, the spool and upload directories, Redis, the members of the process, and the
history. -/
structure Gateway where
  sessions : List Session := []
  jobs : List Job := []
  spool : Files Bytes := ∅
  uploads : Uploads
  redis : Key → Stream := fun _ => {}
  owner : Option Bytes := none
  drawn : Nat := 0
  log : List Happening := []
  ready : Bool := false
  connected : Bool := false
  future : Option Task := none
  activeSid : Bytes := []
  activeId : Bytes := []
  activePath : Bytes := []
  lastCleanup : Nat := 0

/-! ## The installation -/

/-- The choices of `--backend`. -/
inductive Engine where
  | vapi
  | mock
  deriving DecidableEq

/-- The name of a backend. -/
def Engine.name : Engine → Bytes
  | .vapi => "vapi"
  | .mock => "mock"

/-- What one gateway is set up with: the options it reads, the clients' secrets, its identity, and
the octets `RAND_bytes` draws for one session after the other. -/
structure Site where
  env : Env
  space : Bytes
  state : Bytes
  backend : Engine
  clients : List (Bytes × Bytes)
  owner : Bytes
  random : Nat → { b : Bytes // b.length = 16 }

/-- The session ID of the `n`-th call of `RandomId`. -/
def Site.randomId (site : Site) (n : Nat) : Bytes := hex (site.random n).1

/-- `SessionKey`. -/
def Site.sessionKey (site : Site) (client sid direction : Bytes) : Bytes :=
  site.space ++ utf8 ":session:\x7b" ++ client ++ utf8 ":" ++ sid ++ utf8 "\x7d:" ++ direction

/-- The name of a key in Redis. -/
def Key.text (site : Site) : Key → Bytes
  | .register => site.space ++ utf8 ":register"
  | .bootstrap client => site.space ++ utf8 ":bootstrap:" ++ client
  | .requests client sid => site.sessionKey client sid "requests"
  | .responses client sid => site.sessionKey client sid "responses"

/-- The spool file of a request. -/
def Site.spoolPath (site : Site) (sid id : Bytes) : Bytes :=
  site.state ++ utf8 "/spool/" ++ site.env.sha256 (sid ++ utf8 ":" ++ id) ++ utf8 ".jsonl"

/-- `Capabilities`. -/
def Site.capabilities (site : Site) : Json :=
  Json.object [("protocol", .int 1), ("backend", .str site.backend.name),
    ("methods", .arr [.str "api.describe", .str "api.replay", .str "session.renew",
      .str "interface.list", .str "interface.set_state", .str "transfer.begin",
      .str "transfer.chunk", .str "transfer.commit", .str "transfer.status"]),
    ("frame_bytes", .uint Limits.frameBytes), ("response_window", .int Limits.window),
    ("max_upload_bytes", .uint Limits.uploadBytes),
    ("max_response_bytes", .uint Limits.spoolBytes),
    ("max_params_bytes", .uint Limits.paramsBytes),
    ("max_record_bytes", .uint Limits.recordBytes),
    ("max_native_payload_bytes", .uint Limits.nativePayloadBytes),
    ("response_fragments", .str "base64-json"), ("lease_seconds", .int Limits.leaseSeconds),
    ("request_retention", .str "session_lifetime"),
    ("max_requests_per_session", .int Limits.jobsPerSession),
    ("generated_methods", if site.backend = .vapi then .str "api.methods" else .null),
    ("events", .bool false), ("snapshot", .bool false)]

/-! ## The worker -/

/-- What is done with a spool: one frame, items and a status, or items and a frame. -/
inductive Output where
  | single (frame : Json)
  | stream (items : List Json) (status : Status)
  | broken (items : List Json) (frame : Json)

/-- The result of a call as a reply. -/
def answer (id : Bytes) : Except Status Json → Json
  | .ok value => result id value
  | .error status => error id status

/-- What `Generic` ends with: one reply, items and a status, or items and the error of a later
page. -/
inductive Reaction where
  | reply (outcome : Except Status Json)
  | stream (items : List Json) (status : Status)
  | broken (items : List Json) (status : Status)

/-- What `Generic` does with its spool. -/
def Reaction.output (id : Bytes) : Reaction → Output
  | .reply outcome => .single (answer id outcome)
  | .stream items status => .stream items status
  | .broken items status => .broken items (error id status)

/-- How a backend answers while it serves one request: the items and the status of `List`, the
status of `SetState`, and what `Generic` ends with. -/
structure Response where
  list : List Json × Status := ([], {})
  setState : Status := {}
  generic : Reaction := .stream [] {}

/-- `Single` or `Finish`, after the items were added. There is no later page behind an item that
was refused. -/
def Spool.serve (env : Env) (sp : Spool) : Output → Status × Spool
  | .single frame => sp.single env frame
  | .stream items status => (sp.addAll env items).2.finish status
  | .broken items frame =>
    let sp := (sp.addAll env items).2
    if sp.status.ok then sp.single env frame else sp.finish {}

/-- The parameters of `interface.set_state`. -/
def isSetState (params : Json) : Bool :=
  match params.get? "interface", params.get? "state" with
  | some (.str name), some (.str state) =>
    decide (params.size = 2 ∧ name ≠ [] ∧ name.length ≤ 63) &&
      (state == utf8 "up" || state == utf8 "down")
  | _, _ => false

/-- The method of a request. -/
def methodOf (request : Json) : Bytes := ((request.get? "method").bind Json.str?).getD []

/-- The ID of a request. -/
def idOf (request : Json) : Bytes := ((request.get? "id").bind Json.str?).getD []

/-- `request.value("params", Json::object())`. -/
def paramsOf (request : Json) : Json := (request.get? "params").getD (Json.object [])

/-- `RunBackend`. -/
def runBackend (env : Env) (response : Response) (request : Json) (sp : Spool) : Status × Spool :=
  let method := methodOf request
  let params := paramsOf request
  let id := idOf request
  if method = utf8 "interface.list" then
    if params.size ≠ 0 then
      sp.single env (error id ⟨"invalid_params", "interface.list takes no parameters"⟩)
    else sp.serve env (.stream response.list.1 response.list.2)
  else if method = utf8 "interface.set_state" then
    if !isSetState params then
      sp.single env (error id ⟨"invalid_params", "Expected interface name and state up or down"⟩)
    else
      let status := response.setState
      sp.single env (answer id (if status.ok then .ok (Json.object []) else .error status))
  else sp.serve env (response.generic.output id)

/-- The call `StartJob` submits: its result and its spool. -/
def Task.run (env : Env) (task : Task) (response : Response) (disk : List Io) : Status × Spool :=
  let id := idOf task.request
  let sp := Spool.create id (max 1024 task.available).toNat disk
  if task.available < 4096 then
    sp.single env (error id ⟨"quota_exceeded", "Response storage quota exhausted"⟩)
  else runBackend env response task.request sp

namespace Gateway

/-! ## Redis -/

/-- A stream changed. -/
def setStream (g : Gateway) (key : Key) (s : Stream) : Gateway :=
  { g with redis := Function.update g.redis key s }

/-- `RedisTransport::Connect`. -/
def connect : Prog Gateway Chance Bool := .step fun c g =>
  if g.connected then (true, g)
  else if c.wire = .ok then (true, { g with connected := true })
  else (false, g)

/-- `RedisTransport::Command`: none without an answer, and then the connection is closed. -/
def command {α : Type} (f : Gateway → α × Gateway) : Prog Gateway Chance (Option α) :=
  .step fun c g =>
    if g.connected = false then (none, g)
    else
      match c.wire with
      | .ok => (some (f g).1, (f g).2)
      | .lost => (none, { (f g).2 with connected := false })
      | .fail => (none, { g with connected := false })

/-- The script of `RedisTransport::Publish`. -/
def publishScript (key : Key) (json : Bytes) (g : Gateway) : Bool × Gateway :=
  if (g.redis key).entries.length ≥ Limits.window then (false, g)
  else
    (true, { g.setStream key ((g.redis key).add [("json", json)]) with
      log := .published key json :: g.log })

/-- `RedisTransport::Publish`. -/
def publish (key : Key) (json : Bytes) : Prog Gateway Chance Bool := do
  let reply ← command (publishScript key json)
  return reply = some true

/-- The value of the last field named `json`; empty when there is none. -/
def body (entry : Entry) : Bytes :=
  ((entry.fields.reverse.find? (·.1 = utf8 "json")).map (·.2)).getD []

/-- `ReadFirst`. -/
def readFirst (key : Key) : Prog Gateway Chance (Option Entry) := do
  let reply ← command fun g => ((g.redis key).entries.head?, g)
  return reply.join

/-- `Remove`. -/
def remove (key : Key) (entry : Entry) : Prog Gateway Chance Unit := do
  let _ ← command fun g => ((), g.setStream key ((g.redis key).delete entry.id))

/-- `OwnNamespace`. -/
def ownNamespace (site : Site) : Prog Gateway Chance Bool := do
  let reply ← command fun g =>
    match g.owner with
    | none => (true, { g with owner := some site.owner })
    | some owner => (owner = site.owner, g)
  match reply with
  | none => return false
  | some true => return true
  | some false => .abort

/-! ## The clock, the uploads and the spool directory -/

/-- `Now`. -/
def clock : Prog Gateway Chance Nat := .read (·.uploads.now)

/-- A call of the transfer manager. -/
def transfers {α : Type} (p : Prog Uploads Answer α) : Prog Gateway Chance α :=
  p.lift (·.uploads) (fun u g => { g with uploads := u }) (·.answer)

/-- `Spool::Single` on a new spool of the main thread, which gives up when that fails. -/
def writeSingle (site : Site) (path id : Bytes) (frame : Json) : Prog Gateway Chance Unit := do
  let status ← .step fun c g =>
    let written := (Spool.create id Limits.spoolBytes c.disk).single site.env frame
    (written.1,
      if written.2.opened then { g with spool := g.spool.insert path written.2.file } else g)
  if status.ok then return else .abort

/-- `unlink` of a spool file; a file that is not there is no error. -/
def unlink (path : Bytes) : Prog Gateway Chance Unit := do
  let ok ← .step fun c g =>
    if c.answer = .ok then (true, { g with spool := g.spool.erase path }) else (false, g)
  if ok then return else .abort

/-- `SyncDirectory`. -/
def syncDirectory : Prog Gateway Chance Unit := do
  let ok ← .step fun c g => (decide (c.answer = .ok), g)
  if ok then return else .abort

/-! ## The journal -/

/-- `SELECT ... FROM jobs WHERE sid=? AND id=?`. -/
def jobAt (g : Gateway) (sid id : Bytes) : Option Job := g.jobs.find? (·.Is sid id)

/-- `UPDATE jobs SET ... WHERE sid=? AND id=?`. -/
def updateJob (g : Gateway) (sid id : Bytes) (f : Job → Job) : Gateway :=
  { g with jobs := g.jobs.map fun j => if j.Is sid id then f j else j }

/-- The jobs of a session. -/
def jobsOf (g : Gateway) (sid : Bytes) : List Job := g.jobs.filter (·.sid = sid)

/-- SQLite's `length` of a text: the characters before the first NUL. -/
def length (text : Bytes) : Nat :=
  (text.takeWhile (· ≠ 0)).countP fun b => b.toNat / 64 ≠ 2

/-- `SELECT COALESCE(SUM(length(body)),0) FROM jobs`. -/
def retained (g : Gateway) : Nat := (g.jobs.map fun j => length j.body).sum

/-- `SELECT COALESCE(SUM(size),0) FROM jobs`. -/
def used (g : Gateway) : Nat := (g.jobs.map (·.size)).sum

/-- `SELECT COALESCE(SUM(size),0) FROM jobs WHERE sid=?`. -/
def usedBy (g : Gateway) (sid : Bytes) : Nat := ((g.jobsOf sid).map (·.size)).sum

/-- `INSERT INTO jobs`; a violated constraint ends the process. -/
def insertJob (job : Job) : Prog Gateway Chance Unit := do
  let ok ← .step fun _ g =>
    if g.jobs.any (·.Is job.sid job.id) || !g.sessions.any (·.sid = job.sid) then (false, g)
    else
      (true, { g with jobs := g.jobs ++ [job], log := .inserted job.sid job.id :: g.log })
  if ok then return else .abort

/-- `INSERT INTO sessions` under a new `RandomId`; a violated constraint ends the process. -/
def insertSession (site : Site) (client registration : Bytes) (expires : Nat) :
    Prog Gateway Chance Session := do
  let inserted ← .step fun _ g =>
    let session : Session := ⟨site.randomId g.drawn, client, registration, expires⟩
    if g.sessions.any fun s => s.sid = session.sid ∨
        (s.client = client ∧ s.registration = registration) then (none, g)
    else
      (some session, { g with sessions := g.sessions ++ [session], drawn := g.drawn + 1 })
  match inserted with
  | none => .abort
  | some session => return session

/-- `DELETE FROM sessions WHERE sid=?`, with the jobs that refer to it. -/
def deleteSession (g : Gateway) (sid : Bytes) : Gateway :=
  { g with sessions := g.sessions.filter (·.sid ≠ sid), jobs := g.jobs.filter (·.sid ≠ sid) }

/-! ## Finishing jobs -/

/-- `MarkDone`. -/
def markDone (sid id path : Bytes) : Prog Gateway Chance Unit := do
  syncDirectory
  match ← .read (·.spool.lookup path) with
  | none => .abort
  | some file =>
    .modify (·.updateJob sid id fun j => { j with state := .done, size := file.length, offset := 0 })

/-- `CompleteWorker`. -/
def completeWorker : Prog Gateway Chance Unit := do
  let finished ← .step fun _ g =>
    match g.future.bind (·.outcome) with
    | none => (none, g)
    | some status => (some status, { g with future := none })
  match finished with
  | none => return
  | some status =>
    if !status.ok then .abort
    else
      let (sid, id, path) ← .read fun g => (g.activeSid, g.activeId, g.activePath)
      markDone sid id path
      .modify fun g => { g with activeSid := [], activeId := [], activePath := [] }

/-- The body of the loop of `Recover`. -/
def recoverOne (site : Site) (row : Job) : Prog Gateway Chance Unit := do
  let missing ← .read fun g => decide (row.path ∉ g.spool)
  if row.state = .running || missing then
    writeSingle site row.path row.id (error row.id
      ⟨"outcome_unknown", "Gateway interrupted; do not automatically repeat mutations"⟩)
    markDone row.sid row.id row.path
  else return

/-- `Recover`, after which the process runs. -/
def recover (site : Site) : Prog Gateway Chance Unit := do
  let rows ← .read fun g => g.jobs.filter (·.state ≠ .queued)
  .forEach rows (recoverOne site)
  .modify fun g => { g with ready := true }

/-! ## Registration -/

/-- The client of a registration that names a known client and its secret, with the request. -/
def authorized (site : Site) (text : Bytes) : Option (Bytes × Json) :=
  match parseRequest site.env text with
  | .error _ => none
  | .ok request =>
    match (paramsOf request).get? "client", (paramsOf request).get? "token" with
    | some (.str client), some (.str token) =>
      if methodOf request = utf8 "session.register" ∧ isIdText client = true ∧
          site.clients.lookup client = some token then
        some (client, request)
      else none
    | _, _ => none

/-- `params["protocol"] == 1`, for every kind of number. -/
def isOne : Json → Bool
  | .int i => i = 1
  | .uint n => n = 1
  | .float d => d.text = utf8 "1.0"
  | _ => false

/-- The parameters of a registration are its client, its token and protocol 1. -/
def isRegistration (params : Json) : Bool :=
  params.size = 3 && (params.get? "protocol").any isOne

/-- The reply to a registration that has a session. -/
def welcome (site : Site) (id : Bytes) (session : Session) : Json :=
  result id ((((site.capabilities.set "session" (.str session.sid)).set
    "expires_at" (.int session.expires)).set
    "requests" (.str (site.sessionKey session.client session.sid "requests"))).set
    "responses" (.str (site.sessionKey session.client session.sid "responses")))

/-- The session of a registration, which is made when it is new; none when there are too many. -/
def openSession (site : Site) (client id : Bytes) : Prog Gateway Chance (Option Session) := do
  match ← .read fun g => g.sessions.find? fun s => s.client = client ∧ s.registration = id with
  | some session => return some session
  | none =>
    if (← .read (·.sessions.length)) ≥ Limits.sessions then return none
    else
      let now ← clock
      let session ← insertSession site client id (now + Limits.leaseSeconds)
      return some session

/-- The reply to an authorized registration. -/
def registerReply (site : Site) (client : Bytes) (request : Json) : Prog Gateway Chance Json := do
  let id := idOf request
  if !isRegistration (paramsOf request) then
    return error id
      ⟨"unsupported_protocol", "Registration requires client, token and protocol 1"⟩
  else
    match ← openSession site client id with
    | none => return error id ⟨"quota_exceeded", "Session limit reached"⟩
    | some session => return welcome site id session

/-- The frame of a reply that is not spooled. -/
def direct (reply : Json) : Bytes := (reply.set "seq" (.int 0)).dump

/-- A reply published, and only then its entry removed. -/
def reply (source target : Key) (entry : Entry) (frame : Json) : Prog Gateway Chance Unit := do
  if ← publish target (direct frame) then remove source entry else return

/-- `Register`. -/
def register (site : Site) : Prog Gateway Chance Unit := do
  match ← readFirst .register with
  | none => return
  | some entry =>
    match authorized site (body entry) with
    | none => remove .register entry
    | some (client, request) =>
      let frame ← registerReply site client request
      reply .register (.bootstrap client) entry frame

/-! ## Admission -/

/-- The branch of `Receive` for `api.replay`. -/
def replay (sid : Bytes) (params : Json) : Prog Gateway Chance Status :=
  match params.get? "request" with
  | some (.str target) =>
    if params.size ≠ 1 ∨ isIdText target = false then
      return ⟨"invalid_params", "Replay requires the original request ID"⟩
    else do
      let found ← .step fun _ g =>
        match g.jobAt sid target with
        | none => (none, g)
        | some row =>
          (some row.state,
            if row.state = .done then g else { g with log := .awaited sid target :: g.log })
      match found with
      | none => return ⟨"resource_not_found", "Request is not retained in this session"⟩
      | some state =>
        if state = .done then
          .modify fun g =>
            { g.updateJob sid target ({ · with offset := 0 }) with
              log := .rewound sid target :: g.log }
        return {}
  | _ => return ⟨"invalid_params", "Replay requires the original request ID"⟩

/-- Whether the quota of retained requests has no room for another body. -/
def overQuota (sid body : Bytes) : Prog Gateway Chance Bool := do
  if (← .read fun g => (g.jobsOf sid).length) ≥ Limits.jobsPerSession then return true
  else
    let kept ← .read retained
    return kept + body.length > 16 * 1024 * 1024

/-- The part of `Receive` that journals a request, with the status that refuses it. -/
def journal (site : Site) (sid : Bytes) (request : Json) : Prog Gateway Chance Status := do
  let id := idOf request
  let body := request.dump
  match ← .read (·.jobAt sid id) with
  | some row =>
    return if row.body ≠ body then
      ⟨"id_conflict", "Request ID already identifies a different request"⟩ else {}
  | none =>
    if methodOf request = utf8 "api.replay" then replay sid (paramsOf request)
    else if ← overQuota sid body then
      return ⟨"quota_exceeded",
        "Retained request quota reached; use a new session after draining results"⟩
    else
      let now ← clock
      insertJob { sid, id, body, path := site.spoolPath sid id, expires := now + Limits.leaseSeconds }
      return {}

/-- An upload chunk that carries its parameters itself. -/
def isChunk (request : Json) : Bool :=
  methodOf request = utf8 "transfer.chunk" && !request.contains "params_ref"

/-- `Receive`. -/
def receive (site : Site) (session : Session) : Prog Gateway Chance Unit := do
  let requests := Key.requests session.client session.sid
  let responses := Key.responses session.client session.sid
  match ← readFirst requests with
  | none => return
  | some entry =>
    -- EXPIRE only moves the time at which Redis may drop the stream.
    let _ ← command fun g => ((), g)
    match parseRequest site.env (body entry) with
    | .error status => reply requests responses entry (error "invalid" status)
    | .ok request =>
      if isChunk request then
        let outcome ← transfers
          (Uploads.handle site.env session.sid "transfer.chunk" (paramsOf request))
        reply requests responses entry (answer (idOf request) outcome)
      else
        let status ← journal site session.sid request
        if status.ok then remove requests entry
        else reply requests responses entry (error (idOf request) status)

/-! ## Execution -/

/-- The parameters of a job, which may be an upload; the request names them itself afterwards. -/
def resolveParams (site : Site) (sid : Bytes) (request : Json) :
    Prog Gateway Chance (Except Status Json) :=
  match request.get? "params_ref" with
  | some (.str ref) => do
    match ← transfers (Uploads.resolve site.env sid ref) with
    | .error status => return .error status
    | .ok params => return .ok ((request.erase "params_ref").set "params" params)
  | _ => return .ok request

/-- The methods `StartJob` answers itself; none for those of the worker. -/
def immediate (site : Site) (sid id : Bytes) (request : Json) :
    Prog Gateway Chance (Option (Except Status Json)) := do
  let method := methodOf request
  let params := paramsOf request
  if method = utf8 "api.describe" ∧ params.size = 0 then return some (.ok site.capabilities)
  else if method = utf8 "session.renew" then
    if params.size ≠ 0 then
      return some (.error ⟨"invalid_params", "session.renew takes no parameters"⟩)
    else
      let now ← clock
      let expires := now + Limits.leaseSeconds
      .modify fun g => { g with
        sessions := g.sessions.map fun s => if s.sid = sid then { s with expires } else s
        log := .executed sid id :: g.log }
      return some (.ok (Json.object [("expires_at", .int expires)]))
  else if (utf8 "transfer.").isPrefixOf method then
    .modify fun g => { g with log := .executed sid id :: g.log }
    return some (← transfers (Uploads.handle site.env sid method params))
  else return none

/-- A job handed to the worker with what the budgets leave. -/
def submit (row : Job) (request : Json) : Prog Gateway Chance Unit := do
  let used ← .read used
  let sessionUsed ← .read (usedBy · row.sid)
  let available : Int := min (256 * 1024 * 1024 - used) (64 * 1024 * 1024 - sessionUsed)
  .modify fun g => { g with
    activeSid := row.sid, activeId := row.id, activePath := row.path
    future := some { request, path := row.path, available }
    log := .executed row.sid row.id :: g.log }

/-- A job that `StartJob` answers itself, written and marked. -/
def settle (site : Site) (row : Job) (outcome : Except Status Json) : Prog Gateway Chance Unit := do
  writeSingle site row.path row.id (answer row.id outcome)
  markDone row.sid row.id row.path

/-- The part of `StartJob` after the job was marked running. -/
def execute (site : Site) (row : Job) : Prog Gateway Chance Unit :=
  match Json.parse site.env.strtod row.body with
  | none => .abort
  | some request => do
    match ← resolveParams site row.sid request with
    | .error status => settle site row (.error status)
    | .ok request =>
      match ← immediate site row.sid row.id request with
      | some outcome => settle site row outcome
      | none => submit row request

/-- `StartJob`. -/
def startJob (site : Site) : Prog Gateway Chance Unit := do
  if ← .read (·.future.isSome) then return
  else
    match ← .read fun g => g.jobs.find? (·.state = .queued) with
    | none => return
    | some row =>
      .modify fun g => { g.updateJob row.sid row.id ({ · with state := .running }) with
        log := .started row.sid row.id :: g.log }
      execute site row

/-! ## Delivery and expiry -/

/-- `getline` from an offset of a file; none where there is nothing left. -/
def getline (file : Bytes) (offset : Nat) : Option Bytes :=
  if file.drop offset = [] then none else some ((file.drop offset).takeWhile (· ≠ 10))

/-- The body of the loop of `Deliver`. -/
def deliverOne (session : Session) : Prog Gateway Chance Unit := do
  match ← .read fun g => g.jobs.find? fun j =>
      j.sid = session.sid ∧ j.state = .done ∧ j.offset < j.size with
  | none => return
  | some row =>
    match ← .read fun g => (g.spool.lookup row.path).bind (getline · row.offset) with
    | none => .abort
    | some line =>
      if ← publish (.responses session.client session.sid) line then
        .modify (·.updateJob session.sid row.id
          ({ · with offset := row.offset + line.length + 1 }))
      else return

/-- `Deliver`. -/
def deliver : Prog Gateway Chance Unit := do
  let sessions ← .read (·.sessions)
  .forEach sessions deliverOne

/-- `DEL` of the streams of a session. -/
def dropStreams (session : Session) (g : Gateway) : Gateway :=
  let requests := Key.requests session.client session.sid
  let responses := Key.responses session.client session.sid
  { (g.setStream requests (g.redis requests).clear).setStream responses (g.redis responses).clear
    with log := .dropped session.sid :: g.log }

/-- The body of the loop of `Cleanup`. -/
def cleanupOne (session : Session) : Prog Gateway Chance Unit := do
  if session.sid = (← .read (·.activeSid)) then return
  else
    let paths ← .read fun g => (g.jobsOf session.sid).map (·.path)
    .forEach paths unlink
    let _ ← command fun g => ((), dropStreams session g)
    .modify (·.deleteSession session.sid)

/-- `Cleanup`. -/
def cleanup (site : Site) : Prog Gateway Chance Unit := do
  transfers (Uploads.expire site.env)
  let now ← clock
  let expired ← .read fun g => g.sessions.filter (·.expires ≤ now)
  .forEach expired cleanupOne

/-- The body of the loop of `Run` on a connection. -/
def serve (site : Site) : Prog Gateway Chance Unit := do
  let now ← clock
  let last ← .read (·.lastCleanup)
  if now ≠ last then
    cleanup site
    let now ← clock
    .modify fun g => { g with lastCleanup := now }
  register site
  let now ← clock
  let sessions ← .read fun g => g.sessions.filter (now < ·.expires)
  .forEach sessions (receive site)
  deliver
  startJob site

/-- The body of the loop of `Run`. -/
def turn (site : Site) : Prog Gateway Chance Unit := do
  completeWorker
  if ← connect then
    if ← ownNamespace site then serve site else return
  else return

end Gateway

end VppJson
