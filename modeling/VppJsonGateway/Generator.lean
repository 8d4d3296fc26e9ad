import VppJsonGateway.Schema

/-!
# The schema generator

`Supported`, `ReplyTail`, `ReplyLayout` and the slice length of `Callback`, all of
`src/tools/schema_generator.cc`. `ReplyTail` returns C expressions for the count of a reply's
variable tail and for the size of one of its elements. Here they are a `Tail`: the members the
expressions name. `Tail.count` is the value the first one has in a packed reply, and
`Tail.element` that of the second.
-/

namespace VppJson.Schema

open Lib

section

variable (cat : Catalog)

/-- `Schema::HasInterface`, with the levels left. -/
def hasInterface : Nat → Bytes → Bool
  | 0, name => name = utf8 "vl_api_interface_index_t"
  | fuel + 1, name =>
    if name = utf8 "vl_api_interface_index_t" then true
    else
      match cat name with
      | some (.alias type _) => hasInterface fuel type
      | some (.struct fields) | some (.union fields) => fields.any fun f => hasInterface fuel f.type
      | _ => false

/-- `Supported`, with the levels left. -/
def supported : Nat → Bytes → Bool → Bool
  | 0, _, _ => false
  | fuel + 1, name, tagged =>
    if fixedSize cat levels name < 0 then false
    else
      match cat name with
      | none => true
      | some (.alias type _) => supported fuel type false
      | some (.enum _ _ _) => true
      | some (.struct fields) => fields.all fun f =>
          supported fuel f.type (f.discriminator.isSome || f.type = utf8 "vl_api_address_union_t")
      | some (.union fields) => tagged && fields.all fun f => f.length.isNone &&
          supported fuel f.type (f.discriminator.isSome || f.type = utf8 "vl_api_address_union_t")

/-- The variable tail of a reply: the text of a string, or an array with its counter. Members
are given by the path to them. -/
inductive Tail where
  | text (member : List Bytes)
  | array (counter member : List Bytes) (type : Bytes)

/-- A field makes its struct variable. -/
def variableField (f : Field) : Bool :=
  !f.isFixedString && (f.length = some 0 || isVariable cat levels f.type)

/-- `ReplyTail` at the last field of a struct, the variable one. -/
def fieldTail (tail : Bytes → List Bytes → Option (Option Tail)) (before : List Field)
    (path : List Bytes) (f : Field) : Option (Option Tail) :=
  let member := path ++ [f.name]
  if f.type = utf8 "string" then some (some (.text member))
  else if f.length.isNone then tail f.type member
  else
    match f.count with
    | none => none
    | some counter =>
      if isVariable cat levels f.type then none
      else if before.any fun g => g.name = counter ∧
          (g.type = utf8 "u8" ∨ g.type = utf8 "u16" ∨ g.type = utf8 "u32") then
        some (some (.array (path ++ [counter]) member f.type))
      else none

/-- The loop of `ReplyTail` over the fields of a struct. -/
def fieldsTail (tail : Bytes → List Bytes → Option (Option Tail)) (path : List Bytes) :
    List Field → List Field → Option (Option Tail)
  | _, [] => none
  | before, f :: fs =>
    if variableField cat f then
      if fs.isEmpty then fieldTail cat tail before path f else none
    else fieldsTail tail path (before ++ [f]) fs

/-- `ReplyTail`, with the levels left: none where it refuses the type, no tail where the type is
not variable. -/
def replyTail : Nat → Bytes → List Bytes → Option (Option Tail)
  | 0, _, _ => none
  | fuel + 1, name, path =>
    if !isVariable cat levels name then some none
    else
      match cat name with
      | some (.alias type none) => replyTail fuel type path
      | some (.struct fields) => fieldsTail cat (replyTail fuel) path [] fields
      | _ => none

/-- `ReplyLayout`. -/
def replyLayout (name : Bytes) : Bool := (replyTail cat levels name []).isSome

/-! ## Packed replies -/

/-- The offset of a member among packed fields, and its type. -/
def memberOffset (member : Bytes) : Int → List Field → Option (Int × Bytes)
  | _, [] => none
  | offset, f :: fs =>
    if f.name = member then some (offset, f.type)
    else memberOffset member (offset + fieldSize f (fixedSize cat levels f.type)) fs

/-- The offset of the member at a path in a packed reply, and its type. -/
def locate : Nat → Bytes → List Bytes → Option (Int × Bytes)
  | 0, _, _ => none
  | _ + 1, name, [] => some (0, name)
  | fuel + 1, name, member :: path =>
    match cat name with
    | some (.alias type none) => locate fuel type (member :: path)
    | some (.struct fields) => do
      let (offset, type) ← memberOffset cat member 0 fields
      let (inner, type) ← locate fuel type path
      some (offset + inner, type)
    | _ => none

/-- The unsigned integer stored at an offset. -/
def readAt (reply : Bytes) (offset : Int) (width : Nat) : Nat :=
  leNat ((reply.drop offset.toNat).take width)

/-- The member a count is read from. A native string starts with its length. -/
def Tail.counter : Tail → List Bytes
  | .text member => member
  | .array counter _ _ => counter

/-- The value of the count in a reply of type `name`. -/
def Tail.count (name : Bytes) (reply : Bytes) (tail : Tail) : Option Nat := do
  let (offset, type) ← locate cat (levels + 1) name tail.counter
  let width ← primitiveSize? type
  some (readAt reply offset width.toNat)

/-- The size of an element. -/
def Tail.element : Tail → Nat
  | .text _ => 1
  | .array _ _ type => (fixedSize cat levels type).toNat

/-- The slice length a generated `Callback` computes for a reply. -/
def callbackSize (name : Bytes) (reply : Bytes) : Except Status Nat :=
  let size := (fixedSize cat levels name).toNat
  if isVariable cat levels name then
    match replyTail cat levels name [] with
    | some (some tail) =>
      let count := (tail.count cat name reply).getD 0
      let element := tail.element cat
      if size > Limits.nativePayloadBytes ∨
          count > (Limits.nativePayloadBytes - size) / element then
        .error ⟨"payload_too_large", "Native reply exceeds 1 MiB"⟩
      else .ok (size + count * element)
    | _ => .ok size
  else .ok size

end

end VppJson.Schema
