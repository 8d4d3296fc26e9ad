import VppJsonGateway.Common
import VppJsonGateway.Lib.Base64

/-!
# Response spools

`Spool` of `src/src/common.cc`: the bounded file a response is written to, one JSON frame a
line. A record whose text does not fit one frame is cut into fragments. The file system's
answers are the list `disk`: one outcome for every `open`, `WriteAll` and `fsync` the spool
issues, in order, and success once the list is used up.
-/

namespace VppJson

open Lib

/-- The outcome of one file operation; a failed write may have left some octets. -/
inductive Io where
  | ok
  | fail (written : Nat)
  deriving DecidableEq

/-- The members of `Spool`, with the content of its file. -/
structure Spool where
  id : Bytes
  limit : Nat
  opened : Bool := true
  seq : Nat := 0
  items : Nat := 0
  bytes : Nat := 0
  status : Status := {}
  file : Bytes := []
  disk : List Io := []
  deriving DecidableEq

namespace Spool

/-- The next file operation's outcome is taken off the list. -/
def io (sp : Spool) : Io × Spool :=
  match sp.disk with
  | [] => (.ok, sp)
  | o :: ds => (o, { sp with disk := ds })

/-- `Spool::Spool`: the file is created empty. -/
def create (id : Bytes) (limit : Nat := Limits.spoolBytes) (disk : List Io := []) : Spool :=
  match Spool.io { id, limit, disk } with
  | (.ok, sp) => sp
  | (.fail _, sp) =>
    { sp with opened := false, status := ⟨"storage_error", "Cannot create response spool"⟩ }

/-- `WriteAll` on the spool's file. -/
def writeAll (sp : Spool) (text : Bytes) : Bool × Spool :=
  match sp.io with
  | (.ok, sp) => (true, { sp with file := sp.file ++ text })
  | (.fail n, sp) => (false, { sp with file := sp.file ++ text.take n })

/-- `fsync` on the spool's file. -/
def fsync (sp : Spool) : Bool × Spool :=
  match sp.io with
  | (.ok, sp) => (true, sp)
  | (.fail _, sp) => (false, sp)

/-- The line `Spool::Write` writes for a frame. -/
def line (sp : Spool) (frame : Json) : Bytes := (frame.set "seq" (.uint sp.seq)).dump ++ [10]

/-- `Spool::Write`. -/
def write (sp : Spool) (frame : Json) (terminal : Bool) : Bool × Spool :=
  let text := sp.line frame
  if text.length > Limits.frameBytes ∨
      (terminal = false ∧ sp.bytes + text.length + 1024 > sp.limit) then
    (false, { sp with
      status := ⟨"quota_exceeded", "Response spool or record limit exceeded"⟩ })
  else if sp.opened = false then
    (false, { sp with status := ⟨"storage_error", "Response spool write failed"⟩ })
  else
    match sp.writeAll text with
    | (false, sp) =>
      (false, { sp with status := ⟨"storage_error", "Response spool write failed"⟩ })
    | (true, sp) => (true, { sp with bytes := sp.bytes + text.length, seq := sp.seq + 1 })

/-- `kBlock`: the octets of a record one fragment carries. -/
def block : Nat := 48 * 1024

/-- One fragment of a record. -/
def fragment (id digest : Bytes) (record total offset : Nat) (data : Bytes) : Json :=
  Json.object [("id", .str id), ("type", .str "fragment"), ("record", .uint record),
    ("offset", .uint offset), ("total", .uint total), ("sha256", .str digest),
    ("encoding", .str "base64-json"), ("data", .str (Base64.encode data))]

/-- The loop of `Spool::WriteRecord` over the pieces of a record. -/
def writeFragments (digest : Bytes) (record total : Nat) :
    Spool → Nat → List Bytes → Bool × Spool
  | sp, _, [] => (true, sp)
  | sp, offset, piece :: pieces =>
    match sp.write (fragment sp.id digest record total offset piece) false with
    | (false, sp) => (false, sp)
    | (true, sp) => writeFragments digest record total sp (offset + block) pieces

/-- `Spool::WriteRecord`. -/
def writeRecord (env : Env) (sp : Spool) (frame : Json) : Bool × Spool :=
  let text := frame.dump
  if text.length + 64 ≤ Limits.frameBytes then sp.write frame false
  else if text.length > Limits.recordBytes then
    (false, { sp with status := ⟨"payload_too_large", "Logical response exceeds 16 MiB"⟩ })
  else writeFragments (env.sha256 text) sp.seq text.length sp 0 (blocks block text)

/-- The frame of one dump item. -/
def chunk (id : Bytes) (item : Json) : Json :=
  Json.object [("id", .str id), ("type", .str "chunk"), ("items", .arr [item])]

/-- `Spool::Add`. -/
def add (env : Env) (sp : Spool) (item : Json) : Bool × Spool :=
  if sp.status.ok = false then (false, sp)
  else
    match sp.writeRecord env (chunk sp.id item) with
    | (false, sp) => (false, sp)
    | (true, sp) => (true, { sp with items := sp.items + 1 })

/-- The frame that ends a dump. -/
def complete (id : Bytes) (chunks items : Nat) : Json :=
  Json.object [("id", .str id), ("type", .str "complete"), ("chunks", .uint chunks),
    ("items", .uint items)]

/-- `Spool::Finish`. -/
def finish (sp : Spool) (status : Status) : Status × Spool :=
  if sp.status.code = utf8 "storage_error" then (sp.status, sp)
  else
    let terminal := if sp.status.ok then status else sp.status
    let frame := if terminal.ok then complete sp.id sp.seq sp.items else error sp.id terminal
    match sp.write frame true with
    | (false, sp) => (⟨"storage_error", "Cannot persist response"⟩, sp)
    | (true, sp) =>
      match sp.fsync with
      | (false, sp) => (⟨"storage_error", "Cannot persist response"⟩, sp)
      | (true, sp) => ({}, sp)

/-- `Spool::Single`. -/
def single (env : Env) (sp : Spool) (frame : Json) : Status × Spool :=
  match sp.writeRecord env frame with
  | (false, sp) => sp.finish sp.status
  | (true, sp) =>
    match sp.fsync with
    | (false, sp) => (⟨"storage_error", "Cannot persist response"⟩, sp)
    | (true, sp) => ({}, sp)

/-- A run of `Add` calls, with what each returned. -/
def addAll (env : Env) : Spool → List Json → List Bool × Spool
  | sp, [] => ([], sp)
  | sp, item :: items =>
    let (ok, sp) := sp.add env item
    let (oks, sp) := addAll env sp items
    (ok :: oks, sp)

end Spool

end VppJson
