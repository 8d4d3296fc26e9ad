import VppJsonGateway.Spool

/-!
# Reassembly of fragmented responses

`ResponseAssembler` of `src/src/common.cc`: a frame that is no fragment is handed on, and
fragments are collected until the record is whole, checked against its digest and parsed.
-/

namespace VppJson

open Lib

/-- The members of `ResponseAssembler`. -/
structure Assembler where
  data : Bytes := []
  id : Bytes := []
  digest : Bytes := []
  total : Nat := 0
  record : Nat := 0
  deriving DecidableEq

namespace Assembler

/-- The status of a frame `Accept` refuses. -/
def invalid : Status := ⟨"invalid_reply", "Invalid response fragment"⟩

/-- What a fragment frame carries, once its members have the types `Accept` asks for. -/
structure Fragment where
  id : Bytes
  record : Nat
  offset : Nat
  total : Nat
  seq : Nat
  digest : Bytes
  data : Bytes

/-- The member checks of `Accept` on a fragment frame. -/
def fragment? (frame : Json) : Option Fragment := do
  let id ← (← frame.get? "id").str?
  let record ← (← frame.get? "record").uint?
  let offset ← (← frame.get? "offset").uint?
  let total ← (← frame.get? "total").uint?
  let seq ← (← frame.get? "seq").uint?
  let digest ← (← frame.get? "sha256").str?
  let data ← (← frame.get? "data").str?
  let encoding ← (← frame.get? "encoding").str?
  if encoding = utf8 "base64-json" then some { id, record, offset, total, seq, digest, data }
  else none

/-- The octets of a fragment's canonical base64 text: what `EVP_DecodeBlock` gives, less one
octet for each of the last two characters that is padding. None when the text is not base64 or
not the canonical encoding of the result. -/
def decode (encoded : Bytes) : Option Bytes :=
  match Base64.decodeBlock encoded with
  | none => none
  | some decoded =>
    let data := decoded.take (decoded.length - Base64.pads encoded)
    if Base64.encode data = encoded then some data else none

/-- The checks on a whole record: its digest, its nesting, and the frame it parses to. -/
def logical? (env : Env) (a : Assembler) (seq : Nat) : Option Json :=
  if env.sha256 a.data ≠ a.digest then none
  else if (checkNesting a.data).ok = false then none
  else
    match Json.parse env.strtod a.data with
    | some (.obj m) =>
      let logical := Json.obj m
      if logical.get? "id" |>.any (·.str? = some a.id) then
        if logical.get? "type" |>.any fun t =>
            t.str? = some (utf8 "chunk") ∨ t.str? = some (utf8 "result") ∨
              t.str? = some (utf8 "error") then
          some (logical.set "seq" (.uint seq))
        else none
      else none
    | _ => none

/-- `Accept` on a fragment. -/
def acceptFragment (env : Env) (a : Assembler) (f : Fragment) : Status × Option Json × Assembler :=
  if f.total = 0 ∨ f.total > Limits.recordBytes ∨ f.data = [] ∨ f.data.length > 64 * 1024 ∨
      f.data.length % 4 ≠ 0 then
    (invalid, none, a)
  else if a.total = 0 ∧ f.offset ≠ 0 then (invalid, none, a)
  else
    -- A new record is noted before the rest of its first fragment is checked.
    let a := if a.total = 0 then
      { a with total := f.total, record := f.record, id := f.id, digest := f.digest } else a
    if f.offset ≠ a.data.length ∨ f.total ≠ a.total ∨ f.record ≠ a.record ∨ f.id ≠ a.id ∨
        f.digest ≠ a.digest then
      (invalid, none, a)
    else
      match decode f.data with
      | none => (invalid, none, a)
      | some decoded =>
        if decoded = [] ∨ decoded.length > a.total - a.data.length then (invalid, none, a)
        else
          let a := { a with data := a.data ++ decoded }
          if a.data.length ≠ a.total then ({}, none, a)
          else
            match a.logical? env f.seq with
            | none => (invalid, none, a)
            | some logical => ({}, some logical, { a with data := [], total := 0 })

/-- `ResponseAssembler::Accept`: the status, the logical frame when one is ready, and the
assembler after the call. -/
def accept (env : Env) (a : Assembler) (frame : Json) : Status × Option Json × Assembler :=
  match (frame.get? "type").bind Json.str?, (frame.get? "id").bind Json.str? with
  | some type, some _ =>
    if type ≠ utf8 "fragment" then
      if a.total ≠ 0 ∧ type ≠ utf8 "error" then (invalid, none, a)
      else ({}, some frame, { a with data := [], total := 0 })
    else
      match fragment? frame with
      | none => (invalid, none, a)
      | some f => acceptFragment env a f
  | _, _ => (invalid, none, a)

/-- `Accept` on one frame after the other, as long as it succeeds: what each call reported. -/
def acceptAll (env : Env) : Assembler → List Json → Option (List (Option Json))
  | _, [] => some []
  | a, frame :: frames =>
    match a.accept env frame with
    | (status, ready, a) =>
      if status.ok then (acceptAll env a frames).map (ready :: ·) else none

end Assembler

end VppJson
