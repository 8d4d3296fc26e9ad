import VppJsonGateway.Gateway
import VppJsonGateway.TransferSafety

/-!
# What the gateway can do

`Outside` is everything that happens around the gateway: time passes, clients append and
acknowledge, Redis drops streams, and the worker writes and finishes. `Effect` lists what one step
of the main thread can do, each with what the step has checked before. `Consistent` is the
invariant under which every program of the gateway makes such effects only.
-/

namespace VppJson

open Lib

/-- A gateway with what surrounds it: how the backend may answer a request, and whether Redis may
drop a request stream whose session exists. -/
structure World extends Site where
  serves : Json → Response → Prop
  lossy : Prop

/-- The code and the message of a status are short. -/
def Status.Brief (status : Status) : Prop :=
  (escape status.code).length + (escape status.message).length ≤ 800

instance (status : Status) : Decidable status.Brief :=
  inferInstanceAs (Decidable ((escape status.code).length + (escape status.message).length ≤ 800))

/-- Every status the backend ends a response with is short. -/
def World.Brief (w : World) : Prop :=
  ∀ request response, w.serves request response → response.list.2.Brief ∧
    ∀ items status, response.generic = .stream items status → status.Brief

/-- A number that `strtod` has read is read again from the text it prints as. -/
def Env.Rereads (env : Env) : Prop :=
  ∀ text d, env.strtod text = some d → env.strtod d.text = some d

/-- The streams clients write to. -/
def Key.isInput : Key → Bool
  | .register => true
  | .requests _ _ => true
  | _ => false

namespace Gateway

variable (w : World)

/-! ## The surroundings -/

/-- Everything that can happen around the gateway. -/
inductive Outside (g : Gateway) : Gateway → Prop
  /-- Time passes. `Now` counts seconds in 64 bits and stays clear of their end. -/
  | tick {now : Nat} (hnow : g.uploads.now ≤ now) (hbound : now + Limits.leaseSeconds < 2 ^ 63) :
      Outside g { g with uploads := { g.uploads with now := now } }
  /-- A client appends an entry. -/
  | append {key : Key} (hkey : key.isInput = true) (fields : List (Bytes × Bytes)) :
      Outside g { g.setStream key ((g.redis key).add fields) with
        log := .appended key ((g.redis key).next fields) :: g.log }
  /-- A client acknowledges entries, or Redis drops a stream. -/
  | trim {key : Key} {entries : List Entry} (hsub : entries.Sublist (g.redis key).entries)
      (hkept : w.lossy ∨ ∀ s ∈ g.sessions, key ≠ .requests s.client s.sid) :
      Outside g (g.setStream key { g.redis key with entries })
  /-- The owner key is changed by hand. -/
  | own (owner : Option Bytes) : Outside g { g with owner }
  /-- The worker has created its file and written to it. -/
  | scribble {task : Task} (hfuture : g.future = some task) (hgoing : task.outcome = none)
      (content : Bytes) : Outside g { g with spool := g.spool.insert task.path content }
  /-- The worker is done. -/
  | finish {task : Task} (hfuture : g.future = some task) (hgoing : task.outcome = none)
      {response : Response} (hresponse : w.serves task.request response) (disk : List Io) :
      Outside g { g with
        spool := if (task.run w.env response disk).2.opened then
          g.spool.insert task.path (task.run w.env response disk).2.file else g.spool
        future := some { task with outcome := some (task.run w.env response disk).1 } }

/-- What may have happened around the gateway since. -/
abbrev Rests := Relation.ReflTransGen (Outside w)

/-- What stays as it is while the main thread does nothing. -/
structure Stable (g g' : Gateway) : Prop where
  sessions : g'.sessions = g.sessions
  jobs : g'.jobs = g.jobs
  drawn : g'.drawn = g.drawn
  ready : g'.ready = g.ready
  connected : g'.connected = g.connected
  activeSid : g'.activeSid = g.activeSid
  activeId : g'.activeId = g.activeId
  activePath : g'.activePath = g.activePath
  lastCleanup : g'.lastCleanup = g.lastCleanup
  uploads : Uploads.Waits g.uploads g'.uploads
  future : ∀ task, g.future = some task → ∃ task', g'.future = some task' ∧
    task'.request = task.request ∧ task'.path = task.path ∧ task'.available = task.available ∧
    ∀ status, task.outcome = some status → task'.outcome = some status
  idle : g.future = none → g'.future = none ∧ g'.spool = g.spool
  spool : ∀ path, (∀ task, g.future = some task → path ≠ task.path) →
    g'.spool.lookup path = g.spool.lookup path
  log : ∃ new, g'.log = new ++ g.log ∧ ∀ h ∈ new, ∃ key entry, h = .appended key entry

/-! ## What a step has checked -/

/-- A frame answers an entry of a request stream: an error under its ID, or under `invalid` when
it has none, or the reply to a chunk. -/
def Answers (entry : Entry) (frame : Bytes) : Prop :=
  match parseRequest w.env (body entry) with
  | .error status => frame = direct (error "invalid" status)
  | .ok request =>
    (∃ status, frame = direct (error (idOf request) status)) ∨
      (isChunk request = true ∧ ∃ value, frame = direct (result (idOf request) value))

/-- A well-formed `api.replay` of a request. -/
def Replays (request : Json) (target : Bytes) : Prop :=
  methodOf request = utf8 "api.replay" ∧ (paramsOf request).size = 1 ∧
    (paramsOf request).get? "request" = some (.str target) ∧ isIdText target = true

/-- The journal holds a request. -/
def Journaled (g : Gateway) (sid : Bytes) (request : Json) : Prop :=
  ∃ j ∈ g.jobs, j.Is sid (idOf request) ∧ j.body = request.dump

/-- A reply to a registration is an error, or names a session of the client. -/
def Greets (g : Gateway) (client : Bytes) (frame : Json) : Prop :=
  (∃ id status, frame = error id status) ∨
    ∃ id, ∃ s ∈ g.sessions, s.client = client ∧ frame = welcome w.toSite id s

/-- The history since an entry was appended has an answer to it, or the replay it asks for. -/
def Answered (client sid : Bytes) (entry : Entry) (newer : List Happening) : Prop :=
  (∃ frame, .published (.responses client sid) frame ∈ newer ∧ Answers w entry frame) ∨
    ∃ request target, parseRequest w.env (body entry) = .ok request ∧ Replays request target ∧
      (.awaited sid target ∈ newer ∨ .rewound sid target ∈ newer)

/-- An entry of a request stream has been dealt with. -/
def Settled (g : Gateway) (client sid : Bytes) (entry : Entry) : Prop :=
  (∃ request, parseRequest w.env (body entry) = .ok request ∧ g.Journaled sid request) ∨
    ∃ newer older, g.log = newer ++ older ∧ .appended (.requests client sid) entry ∈ older ∧
      Answered w client sid entry newer

/-- A file of `n` octets fits the budgets, or is a small reply. -/
def Affordable (g : Gateway) (sid : Bytes) (n : Nat) : Prop :=
  n ≤ 4096 ∨ (g.used + n ≤ 256 * 1024 * 1024 ∧ g.usedBy sid + n ≤ 64 * 1024 * 1024)

/-- Different requests of the journal have different spool files. -/
def Apart (g : Gateway) : Prop := ∀ j ∈ g.jobs, ∀ j' ∈ g.jobs, j.path = j'.path → j = j'

/-- A file that a spool has written to its end. -/
def Spooled (id file : Bytes) : Prop :=
  ∃ limit disk output, 1024 ≤ limit ∧
    ((Spool.create id limit disk).serve w.env output).1.ok = true ∧
    ((Spool.create id limit disk).serve w.env output).2.file = file

/-! ## The invariant -/

/-- The call the worker has is of the active job, within the budgets; once it is done, the file is
what it has written. -/
structure Holds (g : Gateway) (task : Task) (row : Job) : Prop where
  mem : row ∈ g.jobs
  sid : row.sid = g.activeSid
  id : row.id = g.activeId
  path : row.path = g.activePath
  running : row.state = .running
  file : task.path = row.path
  request : w.env.Rereads → idOf task.request = row.id
  total : task.available + g.used ≤ 256 * 1024 * 1024
  share : task.available + g.usedBy row.sid ≤ 64 * 1024 * 1024
  result : ∀ status, task.outcome = some status → status.ok = true →
    ∀ file, g.spool.lookup task.path = some file → ∃ response disk,
      w.serves task.request response ∧ (task.run w.env response disk).1 = status ∧
        (task.run w.env response disk).2.file = file

/-- What holds in every state of the gateway. -/
structure Consistent (g : Gateway) : Prop where
  /-- The uploads are sound. -/
  uploads : Uploads.Sound w.env g.uploads
  /-- Session IDs are drawn. -/
  issued : ∀ s ∈ g.sessions, ∃ n < g.drawn, s.sid = w.randomId n
  /-- The primary key of `sessions`. -/
  sids : (g.sessions.map (·.sid)).Nodup
  /-- No lease is longer than the one a registration or a renewal gives. -/
  leased : ∀ s ∈ g.sessions, s.expires ≤ g.uploads.now + Limits.leaseSeconds
  /-- The primary key of `jobs`. -/
  keys : (g.jobs.map fun j => (j.sid, j.id)).Nodup
  /-- The foreign key of `jobs`. -/
  owned : ∀ j ∈ g.jobs, ∃ s ∈ g.sessions, s.sid = j.sid
  /-- Requests have valid IDs, and their text names them. -/
  named : ∀ j ∈ g.jobs, isIdText j.id = true ∧
    (w.env.Rereads → ∀ request, Json.parse w.env.strtod j.body = some request →
      idOf request = j.id)
  /-- Spool files are named after their requests. -/
  placed : ∀ j ∈ g.jobs, j.path = w.spoolPath j.sid j.id
  /-- Only a job that is done has a size. -/
  unsized : ∀ j ∈ g.jobs, j.state ≠ .done → j.size = 0
  /-- The entries of request streams were appended. -/
  noted : ∀ {key : Key} {e : Entry}, key.isInput = true → e ∈ (g.redis key).entries →
    .appended key e ∈ g.log
  /-- The worker has the active job. -/
  active : ∀ {task : Task}, g.future = some task → ∃ row, Holds w g task row

/-! ## The effects -/

/-- The functions of `ApiServer` that make effects; `Receive` for a session. -/
inductive Actor where
  | register
  | receive (sid : Bytes)
  | startJob
  | completeWorker
  | recover
  | deliver
  | cleanup
  | run

/-- Everything one step of the main thread can do, but for the connection and the owner key. -/
inductive Effect (g : Gateway) : Actor → Gateway → Prop
  /-- Nothing. -/
  | stay (a : Actor) : Effect g a g
  /-- `Register` removes an entry. -/
  | discard (entry : Entry) :
      Effect g .register (g.setStream .register ((g.redis .register).delete entry.id))
  /-- `Register` publishes a reply. -/
  | welcome {client : Bytes} {frame : Json} (hframe : Greets w g client frame) :
      Effect g .register (publishScript (.bootstrap client) (direct frame) g).2
  /-- `Register` journals a session. -/
  | enter {client registration : Bytes} {expires : Nat}
      (hnew : ∀ s ∈ g.sessions, s.sid ≠ w.randomId g.drawn)
      (hexpires : expires ≤ g.uploads.now + Limits.leaseSeconds) :
      Effect g .register { g with
        sessions := g.sessions ++ [⟨w.randomId g.drawn, client, registration, expires⟩]
        drawn := g.drawn + 1 }
  /-- `Receive` removes an entry that has been dealt with. -/
  | remove {client sid : Bytes} {entry : Entry}
      (hentry : .appended (.requests client sid) entry ∈ g.log)
      (hsettled : Settled w g client sid entry) :
      Effect g (.receive sid) (g.setStream (.requests client sid)
        ((g.redis (.requests client sid)).delete entry.id))
  /-- `Receive` answers an entry. -/
  | reply {session : Session} {entry : Entry} {frame : Bytes} (hsession : session ∈ g.sessions)
      (hentry : .appended (.requests session.client session.sid) entry ∈ g.log)
      (hframe : Answers w entry frame) :
      Effect g (.receive session.sid)
        (publishScript (.responses session.client session.sid) frame g).2
  /-- `Receive` journals a request. -/
  | enqueue {job : Job} (hfree : ∀ j ∈ g.jobs, ¬ j.Is job.sid job.id)
      (hsession : ∃ s ∈ g.sessions, s.sid = job.sid) (hid : isIdText job.id = true)
      (hbody : w.env.Rereads → ∀ request, Json.parse w.env.strtod job.body = some request →
        idOf request = job.id)
      (htext : ∃ request : Json, job.body = request.dump)
      (hpath : job.path = w.spoolPath job.sid job.id)
      (hfresh : job.state = .queued ∧ job.offset = 0 ∧ job.size = 0)
      (hcount : (g.jobsOf job.sid).length < Limits.jobsPerSession)
      (hroom : g.retained + job.body.length ≤ 16 * 1024 * 1024) :
      Effect g (.receive job.sid) { g with
        jobs := g.jobs ++ [job]
        log := .inserted job.sid job.id :: g.log }
  /-- `Receive` finds that a replay has to wait. -/
  | await {sid id : Bytes} {row : Job} (hrow : row ∈ g.jobs) (his : row.Is sid id)
      (hstate : row.state ≠ .done) :
      Effect g (.receive sid) { g with log := .awaited sid id :: g.log }
  /-- `Receive` resets the delivery of a job. -/
  | rewind {sid id : Bytes} {row : Job} (hrow : row ∈ g.jobs) (his : row.Is sid id)
      (hstate : row.state = .done) :
      Effect g (.receive sid) { g.updateJob sid id ({ · with offset := 0 }) with
        log := .rewound sid id :: g.log }
  /-- A step of the transfer manager. -/
  | transfer (a : Actor) {u : Uploads} (h : Uploads.Steps w.env True g.uploads u) :
      Effect g a { g with uploads := u }
  /-- `StartJob` marks the oldest queued job. -/
  | start {row : Job} (hidle : g.future = none)
      (hfirst : g.jobs.find? (·.state = .queued) = some row) :
      Effect g .startJob { g.updateJob row.sid row.id ({ · with state := .running }) with
        log := .started row.sid row.id :: g.log }
  /-- `StartJob` renews a lease. -/
  | renew {row : Job} {expires : Nat} (hidle : g.future = none) (hrow : row ∈ g.jobs)
      (hstate : row.state = .running) (hexpires : expires ≤ g.uploads.now + Limits.leaseSeconds)
      (hlater : ∀ s ∈ g.sessions, s.expires ≤ expires) :
      Effect g .startJob { g with
        sessions := g.sessions.map fun s => if s.sid = row.sid then { s with expires } else s
        log := .executed row.sid row.id :: g.log }
  /-- `StartJob` calls the transfer manager. -/
  | hand {row : Job} (hidle : g.future = none) (hrow : row ∈ g.jobs)
      (hstate : row.state = .running) :
      Effect g .startJob { g with log := .executed row.sid row.id :: g.log }
  /-- `StartJob` hands a job to the worker. -/
  | submit {row : Job} {request : Json} {available : Int} (hidle : g.future = none)
      (hrow : row ∈ g.jobs) (hstate : row.state = .running) (hid : w.env.Rereads → idOf request = row.id)
      (htotal : available + g.used ≤ 256 * 1024 * 1024)
      (hshare : available + g.usedBy row.sid ≤ 64 * 1024 * 1024) :
      Effect g .startJob { g with
        activeSid := row.sid, activeId := row.id, activePath := row.path
        future := some { request, path := row.path, available }
        log := .executed row.sid row.id :: g.log }
  /-- `CompleteWorker` takes the result. -/
  | collect {task : Task} (hfuture : g.future = some task) (hdone : task.outcome ≠ none) :
      Effect g .completeWorker { g with future := none }
  /-- `CompleteWorker` forgets the active job. -/
  | release (hidle : g.future = none) :
      Effect g .completeWorker { g with activeSid := [], activeId := [], activePath := [] }
  /-- The main thread writes a response. -/
  | write (a : Actor) {row : Job} {file : Bytes} (hidle : g.future = none) (hrow : row ∈ g.jobs)
      (hstate : row.state = .running ∨ (row.state = .done ∧ row.path ∉ g.spool)) :
      Effect g a { g with spool := g.spool.insert row.path file }
  /-- `MarkDone`. -/
  | markDone (a : Actor) {row : Job} {file : Bytes} (hidle : g.future = none) (hrow : row ∈ g.jobs)
      (hstate : row.state = .running ∨ row.state = .done)
      (hfile : g.spool.lookup row.path = some file)
      (hspooled : w.env.Rereads → Spooled w row.id file)
      (hfits : w.env.Rereads → w.Brief → Affordable g row.sid file.length)
      (hsmall : row.state = .done → file.length ≤ 4096) :
      Effect g a (g.updateJob row.sid row.id
        fun j => { j with state := .done, size := file.length, offset := 0 })
  /-- `Recover` is done. -/
  | recovered : Effect g .recover { g with ready := true }
  /-- `Deliver` publishes the next line of a response. -/
  | line {session : Session} {row : Job} {file line : Bytes} (hsession : session ∈ g.sessions)
      (hrow : row ∈ g.jobs) (hsid : row.sid = session.sid) (hstate : row.state = .done)
      (hoffset : row.offset < row.size)
      (hfile : g.Apart → g.spool.lookup row.path = some file)
      (hline : getline file row.offset = some line) :
      Effect g .deliver (publishScript (.responses session.client session.sid) line g).2
  /-- `Deliver` moves on to the line after it. -/
  | advance {session : Session} {row : Job} {file line : Bytes} (hsession : session ∈ g.sessions)
      (hrow : row ∈ g.jobs) (hsid : row.sid = session.sid) (hstate : row.state = .done)
      (hfile : g.Apart → g.spool.lookup row.path = some file)
      (hline : getline file row.offset = some line)
      (hpublished : .published (.responses session.client session.sid) line ∈ g.log) :
      Effect g .deliver
        (g.updateJob row.sid row.id ({ · with offset := row.offset + line.length + 1 }))
  /-- `Cleanup` removes a file of an expired session. -/
  | unlink {session : Session} {row : Job} (hsession : session ∈ g.sessions)
      (hexpired : session.expires ≤ g.uploads.now) (hactive : session.sid ≠ g.activeSid)
      (hrow : row ∈ g.jobs) (hsid : row.sid = session.sid) :
      Effect g .cleanup { g with spool := g.spool.erase row.path }
  /-- `Cleanup` deletes the streams of an expired session. -/
  | drop {session : Session} (hsession : session ∈ g.sessions)
      (hexpired : session.expires ≤ g.uploads.now) (hactive : session.sid ≠ g.activeSid) :
      Effect g .cleanup (dropStreams session g)
  /-- `Cleanup` deletes an expired session. -/
  | expire {session : Session} (hsession : session ∈ g.sessions)
      (hexpired : session.expires ≤ g.uploads.now) (hactive : session.sid ≠ g.activeSid) :
      Effect g .cleanup (g.deleteSession session.sid)
  /-- `Run` notes the time of the cleanup. -/
  | swept {now : Nat} (hnow : now ≤ g.uploads.now) : Effect g .run { g with lastCleanup := now }

/-- One step of a function of the main thread. -/
def Acts (a : Actor) (g g' : Gateway) : Prop :=
  ∃ h connected owner, Effect w g a h ∧ g' = { h with connected, owner }

end Gateway

end VppJson
