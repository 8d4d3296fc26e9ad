import VppJsonGateway.Common
import VppJsonGateway.Lib.Files
import VppJsonGateway.Lib.Prog

/-!
# Upload transfers

`TransferManager` of `src/src/transfer.cc`, with `WriteAtomic` of `src/src/common.cc`, as
programs over the upload directory. Every system call is one step, answered by the file system;
a process may end between any two of them. A call answered `EINTR` is repeated by the source and
makes no step here. The clock is part of the state and advances on its own.

The field `log` is a history: what the manifests stored so far have recorded.
-/

namespace VppJson

open Lib

/-- The answer of a system call: all it was asked for, `n` octets of a write, or an error. -/
inductive Answer where
  | ok
  | short (n : Nat)
  | fail
  deriving DecidableEq

/-- How many octets a write of `n` wrote; none on an error. -/
def Answer.count : Answer → Nat → Nat
  | .ok, n => n
  | .short k, n => min k n
  | .fail, _ => 0

theorem Answer.count_le (c : Answer) (n : Nat) : c.count n ≤ n := by
  cases c with
  | ok => exact le_rfl
  | short k => exact Nat.min_le_right k n
  | fail => exact Nat.zero_le n

/-- The suffixes of a transfer's files: `.data`, `.data.tmp`, `.json` and `.json.tmp`. -/
inductive Kind where
  | data
  | dataTmp
  | manifest
  | manifestTmp
  deriving DecidableEq

/-- A file of the upload directory: the hexadecimal digest `Path` names it by, and its suffix. -/
structure FileName where
  stem : Bytes
  kind : Kind
  deriving DecidableEq

/-- What a stored manifest records: a transfer begun, or a chunk accepted. -/
inductive Event where
  | begun (stem : Bytes)
  | chunk (stem : Bytes) (seq : Nat) (data : Bytes)
  deriving DecidableEq

/-- The transfer an event is about. -/
def Event.stem : Event → Bytes
  | .begun stem => stem
  | .chunk stem _ _ => stem

/-- The upload directory, the clock and the history, latest event first. -/
structure Uploads where
  files : Files FileName := ∅
  now : Nat
  log : List Event := []

/-- The members of a manifest. -/
structure Manifest where
  session : Bytes
  total : Nat
  sha256 : Bytes
  bytes : Nat
  nextSeq : Nat
  lastHash : Bytes
  expires : Nat
  committed : Bool
  deriving DecidableEq

namespace Manifest

/-- The manifest `transfer.begin` makes. -/
def fresh (session digest : Bytes) (total expires : Nat) : Manifest where
  session := session
  total := total
  sha256 := digest
  bytes := 0
  nextSeq := 0
  lastHash := []
  expires := expires
  committed := false

/-- The object a manifest is stored as. -/
def toJson (m : Manifest) : Json :=
  Json.object [("session", .str m.session), ("total", .uint m.total), ("sha256", .str m.sha256),
    ("bytes", .uint m.bytes), ("next_seq", .uint m.nextSeq), ("last_hash", .str m.lastHash),
    ("expires", .uint m.expires), ("committed", .bool m.committed)]

/-- The members read back from a stored object. -/
def ofJson (j : Json) : Option Manifest := do
  let session ← (← j.get? "session").str?
  let total ← (← j.get? "total").uint?
  let sha256 ← (← j.get? "sha256").str?
  let bytes ← (← j.get? "bytes").uint?
  let nextSeq ← (← j.get? "next_seq").uint?
  let lastHash ← (← j.get? "last_hash").str?
  let expires ← (← j.get? "expires").uint?
  match j.get? "committed" with
  | some (.bool committed) =>
    some { session, total, sha256, bytes, nextSeq, lastHash, expires, committed }
  | _ => none

end Manifest

namespace Uploads

/-! ## System calls -/

/-- A call that only succeeds or fails. -/
def call : Prog Uploads Answer Bool := .step fun c u => (c = .ok, u)

/-- `open` with `O_CREAT` and `O_TRUNC`. -/
def openTrunc (f : FileName) : Prog Uploads Answer Bool := .step fun c u =>
  if c = .ok then (true, { u with files := u.files.insert f [] }) else (false, u)

/-- `pwrite` on an open file: the number of octets written, zero on an error. -/
def pwrite (f : FileName) (data : Bytes) (offset : Nat) : Prog Uploads Answer Nat :=
  .step fun c u =>
    match u.files.lookup f with
    | none => (0, u)
    | some content =>
      (c.count data.length, { u with
        files := u.files.insert f (overwrite content offset (data.take (c.count data.length))) })

/-- `ftruncate` on an open file. -/
def ftruncate (f : FileName) (n : Nat) : Prog Uploads Answer Bool := .step fun c u =>
  match u.files.lookup f with
  | none => (false, u)
  | some content =>
    if c = .ok then (true, { u with files := u.files.insert f (truncate content n) }) else (false, u)

/-- `rename`; what the new manifest records goes to the history with it. -/
def rename (a b : FileName) (events : List Event) : Prog Uploads Answer Bool := .step fun c u =>
  if c = .ok ∧ a ∈ u.files then
    (true, { u with files := u.files.rename a b, log := events ++ u.log })
  else (false, u)

/-- `unlink`. -/
def unlink (f : FileName) : Prog Uploads Answer Unit := .step fun c u =>
  ((), if c = .ok then { u with files := u.files.erase f } else u)

/-- `Now`. -/
def clock : Prog Uploads Answer Nat := .read (·.now)

/-- The loop of `pwrite` calls over `data`, from `written` octets on: how many were written. -/
def pwriteLoop (f : FileName) (data : Bytes) (offset : Nat) : Nat → Nat → Prog Uploads Answer Nat
  | 0, written => return written
  | fuel + 1, written =>
    if written < data.length then do
      let count ← pwrite f (data.drop written) (offset + written)
      if count = 0 then return written else pwriteLoop f data offset fuel (written + count)
    else return written

/-- `WriteAll` on a file just opened. -/
def writeAll (f : FileName) (data : Bytes) : Prog Uploads Answer Bool := do
  let written ← pwriteLoop f data 0 data.length 0
  return written = data.length

/-- `a && b`, with `b` called only when `a` held. -/
def andThen (a : Bool) (b : Prog Uploads Answer Bool) : Prog Uploads Answer Bool :=
  if a then b else return false

/-- `WriteAtomic`. -/
def writeAtomic (target temporary : FileName) (text : Bytes) (events : List Event) :
    Prog Uploads Answer Status := do
  if !(← openTrunc temporary) then return ⟨"storage_error", "Cannot open journal file"⟩
  else
    let written ← writeAll temporary text
    let synced ← andThen written call
    let closed ← call
    let renamed ← andThen (synced && closed) (rename temporary target events)
    if !renamed then return ⟨"storage_error", "Cannot commit journal file"⟩
    else
      let opened ← call
      let ok ← andThen opened call
      return if ok then {} else ⟨"storage_error", "Cannot sync journal directory"⟩

/-! ## The transfer manager -/

section Manager

variable (env : Env)

/-- `TransferManager::Path`. -/
def path (session id : Bytes) : Bytes := env.sha256 (session ++ utf8 ":" ++ id)

/-- `ReadManifest` on a transfer's manifest. -/
def readManifest (u : Uploads) (stem : Bytes) : Option Manifest :=
  ((u.files.lookup ⟨stem, .manifest⟩).bind (Json.parse env.strtod)).bind Manifest.ofJson

/-- A transfer's data file. -/
def readData (u : Uploads) (stem : Bytes) : Option Bytes := u.files.lookup ⟨stem, .data⟩

/-- `FileHash` on a transfer's data file; empty when it cannot be read. -/
def fileHash (u : Uploads) (stem : Bytes) : Bytes :=
  match u.readData stem with
  | none => []
  | some data => env.sha256 data

/-- The stems of the entries of the directory that end in `.json`. -/
def manifests (u : Uploads) : List Bytes :=
  (u.files.keys.filter (·.kind = .manifest)).map (·.stem)

/-- `TransferManager::Load`. -/
def load (stem : Bytes) : Prog Uploads Answer (Except Status Manifest) := do
  match ← .read (readManifest env · stem) with
  | none => return .error ⟨"resource_not_found", "Transfer not found"⟩
  | some manifest =>
    let now ← clock
    if manifest.expires ≤ now then
      return .error ⟨"transfer_expired", "Start a new transfer"⟩
    else return .ok manifest

/-- `Invalid`. -/
def invalid : Status := ⟨"invalid_params", "Invalid transfer parameters"⟩

/-- The characters of a declared digest. -/
def isHexDigit (c : UInt8) : Bool :=
  (48 ≤ c.toNat ∧ c.toNat ≤ 57) ∨ (97 ≤ c.toNat ∧ c.toNat ≤ 102)

/-- The parameters of `transfer.begin`: the declared length and digest. -/
def begin? (params : Json) : Option (Nat × Bytes) :=
  match params.get? "bytes", params.get? "sha256" with
  | some (.uint total), some (.str digest) =>
    if params.size = 3 ∧ total ≤ Limits.uploadBytes ∧ digest.length = 64 ∧
        digest.all isHexDigit = true then
      some (total, digest)
    else none
  | _, _ => none

/-- The parameters of `transfer.chunk`: the sequence number and the data. -/
def chunk? (params : Json) : Option (Nat × Bytes) :=
  match params.get? "seq", params.get? "data" with
  | some (.uint seq), some (.str data) =>
    if params.size = 3 ∧ seq ≤ 4294967295 ∧ data ≠ [] then some (seq, data) else none
  | _, _ => none

/-- The end of `Handle`: the manifest is stored and the call answered. -/
def save (id stem : Bytes) (manifest : Manifest) (events : List Event) :
    Prog Uploads Answer (Except Status Json) := do
  let status ← writeAtomic ⟨stem, .manifest⟩ ⟨stem, .manifestTmp⟩ manifest.toJson.dump events
  if status.ok then
    return .ok (Json.object [("transfer", .str id), ("next_seq", .uint manifest.nextSeq),
      ("bytes", .uint manifest.bytes), ("committed", .bool manifest.committed)])
  else return .error status

/-- The reservations of the stored manifests: the sum of their lengths, and how many belong to
the session. -/
def reserved (u : Uploads) (session : Bytes) : Nat × Nat :=
  let stored := u.manifests.filterMap (readManifest env u)
  ((stored.map (·.total)).sum, (stored.filter (·.session = session)).length)

/-- `Handle` on `transfer.begin`. -/
def handleBegin (session id stem : Bytes) (params : Json) :
    Prog Uploads Answer (Except Status Json) :=
  match begin? params with
  | none => return .error invalid
  | some (total, digest) => do
    match ← .read (readManifest env · stem) with
    | some manifest =>
      if manifest.total ≠ total ∨ manifest.sha256 ≠ digest then
        return .error ⟨"id_conflict", "Transfer ID already has a different manifest"⟩
      else
        return .ok (Json.object [("transfer", .str id), ("next_seq", .uint manifest.nextSeq),
          ("committed", .bool manifest.committed)])
    | none =>
      let listed ← .step fun c u => (if c = .ok then some (reserved env u session) else none, u)
      match listed with
      | none => return .error ⟨"storage_error", "Cannot list directory"⟩
      | some (sum, count) =>
        if count ≥ 4 ∨ sum + total > 256 * 1024 * 1024 then
          return .error ⟨"quota_exceeded", "Transfer reservation quota exceeded"⟩
        else
          let status ← writeAtomic ⟨stem, .data⟩ ⟨stem, .dataTmp⟩ [] []
          if !status.ok then return .error status
          else
            let now ← clock
            save id stem (Manifest.fresh session digest total (now + 600)) [.begun stem]

/-- The data of a chunk, written at its place and synced. -/
def writeChunk (stem data : Bytes) (offset : Nat) : Prog Uploads Answer Bool := do
  let written ← pwriteLoop ⟨stem, .data⟩ data offset data.length 0
  let cut ← andThen (written = data.length) (ftruncate ⟨stem, .data⟩ (offset + data.length))
  andThen cut call

/-- `open` of an existing file for writing. -/
def openExisting (f : FileName) : Prog Uploads Answer Bool := .step fun c u =>
  (c = .ok ∧ f ∈ u.files, u)

/-- `Handle` on `transfer.chunk`. -/
def handleChunk (id stem : Bytes) (manifest : Manifest) (params : Json) :
    Prog Uploads Answer (Except Status Json) :=
  match chunk? params with
  | none => return .error invalid
  | some (seq, data) =>
    let next := manifest.nextSeq
    if next > 0 ∧ seq = next - 1 ∧ env.sha256 data = manifest.lastHash then
      return .ok (Json.object [("transfer", .str id), ("next_seq", .uint next)])
    else if manifest.committed then
      return .error ⟨"transfer_committed", "Committed transfers are immutable"⟩
    else if seq ≠ next then
      return .error ⟨"sequence_mismatch", "Resume from transfer.status next_seq"⟩
    else if manifest.bytes + data.length > manifest.total then
      return .error ⟨"payload_too_large", "Chunk exceeds declared transfer length"⟩
    else do
      if !(← openExisting ⟨stem, .data⟩) then
        return .error ⟨"storage_error", "Cannot open transfer"⟩
      else if !(← writeChunk stem data manifest.bytes) then
        return .error ⟨"storage_error", "Cannot persist transfer chunk"⟩
      else
        save id stem { manifest with bytes := manifest.bytes + data.length, nextSeq := next + 1,
                                     lastHash := env.sha256 data } [.chunk stem next data]

/-- `Handle` on `transfer.commit`. -/
def handleCommit (id stem : Bytes) (manifest : Manifest) (params : Json) :
    Prog Uploads Answer (Except Status Json) :=
  if params.size ≠ 1 then return .error invalid
  else if manifest.bytes ≠ manifest.total then
    return .error ⟨"transfer_incomplete", "Declared bytes have not arrived"⟩
  else do
    let digest ← .read (fileHash env · stem)
    if digest ≠ manifest.sha256 then
      return .error ⟨"checksum_mismatch", "SHA-256 does not match"⟩
    else save id stem { manifest with committed := true } []

/-- `TransferManager::Handle`: the result, or the status of the error. -/
def handle (session method : Bytes) (params : Json) : Prog Uploads Answer (Except Status Json) :=
  match params.get? "transfer" with
  | some (.str id) =>
    if isIdText id = false then return .error invalid
    else
      let stem := path env session id
      if method = utf8 "transfer.begin" then handleBegin env session id stem params
      else do
        match ← load env stem with
        | .error status => return .error status
        | .ok manifest =>
          if method = utf8 "transfer.chunk" then handleChunk env id stem manifest params
          else if method = utf8 "transfer.commit" then handleCommit env id stem manifest params
          else if method = utf8 "transfer.status" then
            if params.size ≠ 1 then return .error invalid else save id stem manifest []
          else return .error ⟨"method_not_found", "Unknown transfer method"⟩
  | _ => return .error invalid

/-- `TransferManager::Resolve`: the parameters a committed transfer holds. -/
def resolve (session id : Bytes) : Prog Uploads Answer (Except Status Json) := do
  let stem := path env session id
  match ← load env stem with
  | .error status => return .error status
  | .ok manifest =>
    if manifest.committed = false then
      return .error ⟨"transfer_incomplete", "Commit before using params_ref"⟩
    else if manifest.total > Limits.paramsBytes then
      return .error ⟨"payload_too_large", "JSON parameters exceed 16 MiB"⟩
    else
      let text ← .read fun u => (u.readData stem).getD []
      let envelope := parseRequest env
        (utf8 "\x7b\"id\":\"transfer\",\"method\":\"resolve\",\"params\":" ++ text ++ utf8 "\x7d")
        (Limits.paramsBytes + 128)
      match envelope with
      | .error _ => return .error ⟨"invalid_params",
          "Transfer must contain a JSON parameter object within the adapter limit"⟩
      | .ok request => return .ok ((request.get? "params").getD .null)

/-- The body of the loop of `Expire` for one manifest. -/
def expireOne (stem : Bytes) : Prog Uploads Answer Unit := do
  match ← .read (readManifest env · stem) with
  | none => return
  | some manifest =>
    let now ← clock
    if manifest.expires > now then return
    else
      unlink ⟨stem, .data⟩
      unlink ⟨stem, .manifest⟩

/-- `TransferManager::Expire`. -/
def expire : Prog Uploads Answer Unit := do
  let listed ← .step fun c u => (if c = .ok then some u.manifests else none, u)
  match listed with
  | none => return
  | some stems => .forEach stems (expireOne env)

end Manager

end Uploads

end VppJson
