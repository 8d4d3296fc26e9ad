import VppJsonGateway.Common

/-!
# The native codec

`Schema` of `src/src/schema.cc`: a catalog of VPP types and the conversion between JSON values
and native payloads. The source has one recursive function, `Convert`, for both directions; here
`encode` is `Convert` with an output vector and `decode` is `Convert` with an input span. Both
recurse on the levels of nesting left: 33 at the top, none where the source's depth exceeds 32.

A catalog is what `AddModule` makes of the `.api.json` files, as a typed table. Native integers
are those of a little-endian host.
-/

namespace VppJson

open Lib

/-! ## Catalogs -/

/-- A field of a struct or a member of a union. -/
structure Field where
  name : Bytes
  type : Bytes
  length : Option Nat := none
  count : Option Bytes := none
  default : Option Json := none
  discriminator : Option Bytes := none
  caseName : Option Bytes := none

/-- A field is a string of a fixed number of octets. -/
def Field.isFixedString (f : Field) : Bool := f.type = utf8 "string" ∧ 0 < f.length.getD 0

/-- A type of a catalog. The values of an enum are in the order of their symbols. -/
inductive TypeDef where
  | alias (type : Bytes) (length : Option Nat)
  | enum (type : Bytes) (values : List (Bytes × Int)) (flags : Bool)
  | struct (fields : List Field)
  | union (fields : List Field)

/-- `Schema::Type`. -/
abbrev Catalog := Bytes → Option TypeDef

/-- `Symbols`: the interface resolver, where there is one. -/
structure Symbols where
  interfaceIndex : Option (Bytes → Except Status UInt32) := none
  interfaceName : Option (UInt32 → Except Status Bytes) := none

/-- What the codec takes from the C library: the text of addresses, and floating-point numbers
of four and of eight octets. -/
structure Native where
  pton4 : Bytes → Option { b : Bytes // b.length = 4 }
  ntop4 : Bytes → Option Bytes
  pton6 : Bytes → Option { b : Bytes // b.length = 16 }
  ntop6 : Bytes → Option Bytes
  floatBytes : (width : Nat) → Json → Except Status { b : Bytes // b.length = width }
  floatValue : (width : Nat) → Bytes → Except Status Json

namespace Schema

/-- `Invalid`. -/
def invalid (message : Bytes) : Status := ⟨"invalid_params", message⟩

/-! ## Octets in and out -/

/-- `Bytes` on an output of `size` octets: what it appends. -/
def putBytes (size : Nat) (data : Bytes) : Except Status Bytes :=
  if data.length > Limits.nativePayloadBytes ∨ size > Limits.nativePayloadBytes - data.length then
    .error ⟨"payload_too_large", "Native payload exceeds adapter limit"⟩
  else .ok data

/-- `Bytes` on an input: the octets taken and what is left. -/
def takeBytes (count : Nat) (input : Bytes) : Except Status (Bytes × Bytes) :=
  if input.length < count then .error ⟨"invalid_reply", "Truncated native payload"⟩
  else .ok (input.take count, input.drop count)

/-! ## Numbers -/

/-- The range of an integer type of `width` octets. -/
def inRange (signed : Bool) (width : Nat) (v : Int) : Bool :=
  if signed then -(2 ^ (8 * width - 1) : Int) ≤ v ∧ v < 2 ^ (8 * width - 1)
  else 0 ≤ v ∧ v < 2 ^ (8 * width)

/-- `std::from_chars` in base ten: the number and what follows it. -/
def fromChars (signed : Bool) (width : Nat) (text : Bytes) : Option (Int × Bytes) :=
  let negative := signed && text.head? = some 45
  let body := if negative then text.tail else text
  let digits := body.takeWhile isDigit
  let v : Int := if negative then -(digitsVal digits : Int) else digitsVal digits
  if digits ≠ [] ∧ inRange signed width v = true then some (v, body.dropWhile isDigit) else none

/-- The octets of a native integer. -/
def nativeInt (width : Nat) (v : Int) : Bytes := leBytes width (v % (256 ^ width : Nat)).toNat

/-- The integer some octets hold. -/
def readInt (signed : Bool) (data : Bytes) : Int :=
  if signed ∧ 2 * leNat data ≥ 256 ^ data.length then (leNat data : Int) - 256 ^ data.length
  else leNat data

/-- `Number`, reading a JSON value into a native integer. -/
def intValue (signed : Bool) (width : Nat) (value : Json) : Except Status Int :=
  if width = 8 then
    match value with
    | .str text =>
      match fromChars signed width text with
      | some (v, []) => .ok v
      | _ => .error (invalid "Invalid decimal integer")
    | _ => .error (invalid "64-bit integers must be decimal strings")
  else
    match value with
    | .uint n =>
      if inRange signed width n then .ok n else .error (invalid "Integer is out of range")
    | .int i => if inRange signed width i then .ok i else .error (invalid "Integer is out of range")
    | _ => .error (invalid "Expected an integer")

/-- `Number`, writing a native integer as a JSON value. -/
def intJson (signed : Bool) (width : Nat) (v : Int) : Json :=
  if width = 8 then .str (decimalInt v) else if signed then .int v else .uint v.toNat

/-! ## Scalars -/

/-- The types `Convert` treats by name, before it looks into the catalog. -/
inductive Scalar where
  | int (signed : Bool) (width : Nat)
  | float (width : Nat)
  | bool
  | string
  | interface
  | ip4
  | ip6
  | mac
  deriving DecidableEq

/-- The names of the scalars. -/
def scalars : List (Bytes × Scalar) :=
  [("u8", .int false 1), ("i8", .int true 1), ("u16", .int false 2), ("i16", .int true 2),
    ("u32", .int false 4), ("i32", .int true 4), ("u64", .int false 8), ("i64", .int true 8),
    ("f32", .float 4), ("f64", .float 8), ("bool", .bool), ("string", .string),
    ("vl_api_interface_index_t", .interface), ("vl_api_ip4_address_t", .ip4),
    ("vl_api_ip6_address_t", .ip6), ("vl_api_mac_address_t", .mac)]

/-- The scalar of a type name. -/
def scalar? (name : Bytes) : Option Scalar := scalars.lookup name

/-- A text as the C library sees it: up to the first NUL. -/
def cString (text : Bytes) : Bytes := text.takeWhile (· ≠ 0)

/-- The octets of a MAC address: pairs of hexadecimal digits, separated by colons. -/
def macBytes : Bytes → Option Bytes
  | [] => none
  | [_] => none
  | a :: b :: rest =>
    match Json.hexVal a, Json.hexVal b with
    | some x, some y =>
      match rest with
      | [] => some [UInt8.ofNat (16 * x + y)]
      | c :: rest => if c = 58 then (macBytes rest).map (UInt8.ofNat (16 * x + y) :: ·) else none
    | _, _ => none

/-- The text of a MAC address. -/
def macText : Bytes → Bytes
  | [] => []
  | [b] => hex [b]
  | b :: bs => hex [b] ++ 58 :: macText bs

section Codec

variable (native : Native) (symbols : Symbols)

/-- `UINT32_MAX`, the index of all interfaces. -/
def allInterfaces : UInt32 := 4294967295

/-- The index of an interface name. -/
def interfaceIndex (name : Bytes) : Except Status UInt32 :=
  if name = utf8 "@all" then .ok allInterfaces
  else
    match symbols.interfaceIndex with
    | none => .error ⟨"resource_not_found", "Interface resolver unavailable"⟩
    | some resolve => resolve name

/-- The name of an interface index. -/
def interfaceName (index : UInt32) : Except Status Bytes :=
  if index = allInterfaces then .ok (utf8 "@all")
  else
    match symbols.interfaceName with
    | none => .error ⟨"resource_not_found", "Interface resolver unavailable"⟩
    | some resolve => resolve index

/-- `Convert` on a scalar, encoding. -/
def encodeScalar (size : Nat) (value : Json) : Scalar → Except Status Bytes
  | .int signed width => do
    let v ← intValue signed width value
    putBytes size (nativeInt width v)
  | .float width => do
    let b ← native.floatBytes width value
    putBytes size b.1
  | .bool =>
    match value with
    | .bool b => putBytes size [if b then 1 else 0]
    | _ => .error (invalid "Expected a boolean")
  | .string =>
    match value with
    | .str text => do
      let count := text.length % 2 ^ 32
      let head ← putBytes size (leBytes 4 count)
      if count > Limits.nativePayloadBytes then
        .error ⟨"payload_too_large", "String exceeds adapter limit"⟩
      else
        let body ← putBytes (size + 4) (text.take count)
        .ok (head ++ body)
    | _ => .error (invalid "Expected a string")
  | .interface =>
    match value with
    | .str name => do
      let index ← interfaceIndex symbols name
      putBytes size (leBytes 4 index.toNat)
    | _ => .error (invalid "Use an interface name or @all, not a numeric index")
  | .ip4 =>
    match value with
    | .str text =>
      match native.pton4 (cString text) with
      | some b => putBytes size b.1
      | none => .error (invalid "Invalid IP address")
    | _ => .error (invalid "Expected a textual address")
  | .ip6 =>
    match value with
    | .str text =>
      match native.pton6 (cString text) with
      | some b => putBytes size b.1
      | none => .error (invalid "Invalid IP address")
    | _ => .error (invalid "Expected a textual address")
  | .mac =>
    match value with
    | .str text =>
      match macBytes text with
      | some b => if text.length = 17 then putBytes size b else .error (invalid "Invalid MAC address")
      | none => .error (invalid "Invalid MAC address")
    | _ => .error (invalid "Expected a textual address")

/-- `Convert` on a scalar, decoding: the value and the input left. -/
def decodeScalar (input : Bytes) : Scalar → Except Status (Json × Bytes)
  | .int signed width => do
    let (data, rest) ← takeBytes width input
    .ok (intJson signed width (readInt signed data), rest)
  | .float width => do
    let (data, rest) ← takeBytes width input
    let v ← native.floatValue width data
    .ok (v, rest)
  | .bool => do
    let (data, rest) ← takeBytes 1 input
    if leNat data > 1 then .error ⟨"invalid_reply", "Noncanonical boolean"⟩
    else .ok (.bool (leNat data ≠ 0), rest)
  | .string => do
    let (head, rest) ← takeBytes 4 input
    if leNat head > Limits.nativePayloadBytes then
      .error ⟨"payload_too_large", "String exceeds adapter limit"⟩
    else
      let (text, rest) ← takeBytes (leNat head) rest
      .ok (.str text, rest)
  | .interface => do
    let (data, rest) ← takeBytes 4 input
    let name ← interfaceName symbols (UInt32.ofNat (leNat data))
    .ok (.str name, rest)
  | .ip4 => do
    let (data, rest) ← takeBytes 4 input
    match native.ntop4 data with
    | some text => .ok (.str text, rest)
    | none => .error ⟨"invalid_reply", "Invalid IP address"⟩
  | .ip6 => do
    let (data, rest) ← takeBytes 16 input
    match native.ntop6 data with
    | some text => .ok (.str text, rest)
    | none => .error ⟨"invalid_reply", "Invalid IP address"⟩
  | .mac => do
    let (data, rest) ← takeBytes 6 input
    .ok (.str (macText data), rest)

end Codec

/-! ## Sizes -/

/-- The names `FixedSize` knows. -/
def primitives : List (Bytes × Int) :=
  [("bool", 1), ("u8", 1), ("i8", 1), ("u16", 2), ("i16", 2), ("u32", 4), ("i32", 4), ("f32", 4),
    ("string", 4), ("u64", 8), ("i64", 8), ("f64", 8)]

/-- The size of a primitive. -/
def primitiveSize? (name : Bytes) : Option Int := primitives.lookup name

/-- The part of one field in `FixedSize`, given the size of its type. -/
def fieldSize (f : Field) (typeSize : Int) : Int :=
  if f.type = utf8 "string" ∧ f.length.getD 0 = 0 then 4
  else if f.type = utf8 "string" then f.length.getD 0
  else typeSize * f.length.getD 1

/-- The loop of `FixedSize` over the fields of a struct or a union; negative where it fails. -/
def fieldsSize (union : Bool) (sizeOf : Bytes → Int) : Int → List Field → Int
  | size, [] => size
  | size, f :: fs =>
    let part := fieldSize f (sizeOf f.type)
    if part < 0 ∨ part > Limits.nativePayloadBytes then -1
    else fieldsSize union sizeOf (if union then max size part else size + part) fs

section Sizes

variable (cat : Catalog)

/-- `Schema::FixedSize`, with the levels left; negative where it fails. -/
def fixedSize : Nat → Bytes → Int
  | 0, _ => -1
  | fuel + 1, name =>
    match primitiveSize? name with
    | some size => size
    | none =>
      match cat name with
      | none => -1
      | some (.alias type length) =>
        let size := fixedSize fuel type
        if size < 0 then -1 else size * length.getD 1
      | some (.enum type _ _) =>
        let size := fixedSize fuel type
        if size < 0 then -1 else size
      | some (.struct fields) => fieldsSize false (fixedSize fuel) 0 fields
      | some (.union fields) => fieldsSize true (fixedSize fuel) 0 fields

/-- The loop of `Variable` over fields. -/
def fieldsVariable (variable' : Bytes → Bool) (fields : List Field) : Bool :=
  fields.any fun f => !f.isFixedString && (f.length = some 0 || variable' f.type)

/-- `Schema::Variable`, with the levels left. -/
def isVariable : Nat → Bytes → Bool
  | 0, _ => true
  | fuel + 1, name =>
    if name = utf8 "string" then true
    else
      match cat name with
      | none => false
      | some (.alias type _) => isVariable fuel type
      | some (.enum _ _ _) => false
      | some (.struct fields) => fieldsVariable (isVariable fuel) fields
      | some (.union fields) => fieldsVariable (isVariable fuel) fields

end Sizes

/-- The levels `Convert`, `FixedSize` and `Variable` have at the top. -/
def levels : Nat := 33

/-! ## Enums -/

/-- The JSON number of an enum value. -/
def enumJson (v : Int) : Json := if 0 ≤ v then .uint v.toNat else .int v

/-- The value at a symbol. -/
def enumValue? (values : List (Bytes × Int)) (symbol : Bytes) : Option Int :=
  (values.find? (·.1 = symbol)).map (·.2)

/-- A number as an unsigned integer of 64 bits. -/
def word (v : Int) : Nat := (v % 2 ^ 64).toNat

/-- The bits of an array of flags. -/
def flagBits (values : List (Bytes × Int)) : List Bytes → Nat → List Json → Option Nat
  | _, bits, [] => some bits
  | seen, bits, symbol :: rest =>
    match symbol with
    | .str s =>
      match enumValue? values s with
      | some v => if s ∈ seen then none else flagBits values (s :: seen) (bits ||| word v) rest
      | none => none
    | _ => none

/-- The number of an enum value. -/
def enumNumeric (values : List (Bytes × Int)) (flags : Bool) (value : Json) : Except Status Json :=
  if flags then
    match value with
    | .arr symbols =>
      match flagBits values [] 0 symbols with
      | some bits => .ok (.uint bits)
      | none => .error (invalid "Unknown or duplicate flag")
    | _ => .error (invalid "Flags must be an array of symbolic names")
  else
    match value.str?.bind (enumValue? values) with
    | some v => .ok (enumJson v)
    | none => .error (invalid "Unknown enum symbol")

/-- The number `Convert` encodes for an enum value, as text for the types of 64 bits. -/
def enumNumber (type : Bytes) (values : List (Bytes × Int)) (flags : Bool) (value : Json) :
    Except Status Json :=
  match enumNumeric values flags value with
  | .error e => .error e
  | .ok numeric =>
    if type = utf8 "u64" ∨ type = utf8 "i64" then .ok (.str numeric.dump) else .ok numeric

/-- The bits of a decoded enum number. -/
def enumBits (numeric : Json) : Option Nat :=
  match numeric with
  | .str text => (fromChars false 8 text).map (·.1.toNat)
  | .uint n => some n
  | .int i => some (word i)
  | .bool b => some (if b then 1 else 0)
  | _ => none

/-- The library's comparison of an enum value with a decoded number: numbers of two kinds are
compared as signed integers of 64 bits. -/
def sameNumber (v : Int) : Json → Bool
  | .uint n => if 0 ≤ v then v = n else word v = n
  | .int i => if 0 ≤ v then word i = v else v = i
  | _ => false

/-- The flags of some bits: every symbol of a single bit among them. -/
def flagSymbols (values : List (Bytes × Int)) (bits : Nat) : List (Bytes × Int) :=
  values.filter fun kv =>
    word kv.2 ≠ 0 ∧ word kv.2 &&& (word kv.2 - 1) = 0 ∧ bits &&& word kv.2 ≠ 0

/-- `Convert` on a decoded enum number: the symbol or the flags. -/
def enumSymbol (values : List (Bytes × Int)) (flags : Bool) (numeric : Json) :
    Except Status Json :=
  match enumBits numeric with
  | none => .error ⟨"invalid_reply", "Invalid enum representation"⟩
  | some bits =>
    if flags then
      let found := flagSymbols values bits
      -- The source clears each bit found; a bit left over was not named by any symbol.
      if bits &&& found.foldl (fun m kv => m ||| word kv.2) 0 = bits then
        .ok (.arr (found.map fun kv => .str kv.1))
      else .error ⟨"unknown_enum", "VPP returned unknown flag bits"⟩
    else
      match values.find? fun kv => sameNumber kv.2 numeric || (0 ≤ kv.2 && kv.2.toNat = bits) with
      | some kv => .ok (.str kv.1)
      | none => .error ⟨"unknown_enum", "VPP returned an unknown enum value"⟩

/-! ## Addresses and prefixes -/

/-- The types `Convert` writes as one text. -/
def isAddress (name : Bytes) : Bool := name = utf8 "vl_api_address_t"

/-- The prefix types. -/
def isPrefix (name : Bytes) : Bool :=
  name = utf8 "vl_api_prefix_t" ∨ name = utf8 "vl_api_ip4_prefix_t" ∨
    name = utf8 "vl_api_ip6_prefix_t"

/-- The text before the last slash and the text after it. -/
def splitSlash (text : Bytes) : Option (Bytes × Bytes) :=
  let after := (text.reverse.takeWhile (· ≠ 47)).reverse
  if after.length = text.length then none
  else some (text.take (text.length - after.length - 1), after)

/-- The struct a textual address or prefix stands for; other values are left as they are. -/
def rewrite (name : Bytes) (value : Json) : Except Status Json :=
  if isAddress name || isPrefix name then
    match value with
    | .str text =>
      if isPrefix name then
        match splitSlash text with
        | none => .error (invalid "Expected CIDR prefix")
        | some (ip, digits) =>
          match fromChars false 4 digits with
          | some (length, []) =>
            if length > (if 58 ∈ ip then 128 else 32) then
              .error (invalid "Invalid prefix length")
            else .ok (Json.object [("address", .str ip), ("len", .uint length.toNat)])
          | _ => .error (invalid "Invalid prefix length")
      else if 58 ∈ text then
        .ok (Json.object [("af", .str "ADDRESS_IP6"), ("un", Json.object [("ip6", .str text)])])
      else
        .ok (Json.object [("af", .str "ADDRESS_IP4"), ("un", Json.object [("ip4", .str text)])])
    | _ => .error (invalid "Expected textual IP address or prefix")
  else .ok value

/-- The text of a decoded address or prefix; other structs are left as they are. -/
def unwrite (name : Bytes) (object : Json) : Json :=
  if isAddress name then
    match object.get? "un" with
    | some (.obj ((_, v) :: _)) => v
    | _ => .null
  else if isPrefix name then
    match object.get? "address", object.get? "len" with
    | some (.str ip), some len => .str (ip ++ 47 :: len.dump)
    | _, _ => .null
  else object

/-! ## Structs and unions -/

/-- `PublicDefault`. A default of an enum or of an interface is no floating-point number. -/
def publicDefault (cat : Catalog) (f : Field) (value : Json) : Json :=
  if f.type = utf8 "bool" ∧ value.str? = some (utf8 "true") then .bool true
  else if f.type = utf8 "bool" ∧ value.str? = some (utf8 "false") then .bool false
  else if f.type = utf8 "vl_api_interface_index_t" ∧ sameNumber 4294967295 value then .str "@all"
  else
    let symbolic : Option Json :=
      match cat f.type with
      | some (.enum _ values flags) =>
        if flags && sameNumber 0 value then some (.arr [])
        else (values.find? fun kv => sameNumber kv.2 value).map fun kv => .str kv.1
      | _ => none
    match symbolic, value with
    | some v, _ => v
    | none, .uint n => if f.type = utf8 "u64" ∨ f.type = utf8 "i64" then .str (decimal n) else value
    | none, .int i => if f.type = utf8 "u64" ∨ f.type = utf8 "i64" then .str (decimalInt i) else value
    | none, _ => value

/-- `Counts`: the fields other fields of a struct take their length from. -/
def counts (fields : List Field) : List Bytes := fields.filterMap (·.count)

/-- The check of an object's keys: each names a field that is not derived. -/
def checkKeys (fields : List Field) : List (Bytes × Json) → Except Status Unit
  | [] => .ok ()
  | kv :: m =>
    if (fields.all fun f => f.name ≠ kv.1) || kv.1 ∈ counts fields then
      .error (invalid (utf8 "Unknown or derived field: " ++ kv.1))
    else checkKeys fields m

/-- The lengths of the arrays of an object, set at the fields they are counted by. -/
def setCounts : Json → List Field → Except Status Json
  | object, [] => .ok object
  | object, f :: fs =>
    match f.count with
    | none => setCounts object fs
    | some counter =>
      match object.get? f.name with
      | some (.arr items) => setCounts (object.set counter (.uint items.length)) fs
      | _ => .error (invalid (utf8 "Expected array: " ++ f.name))

/-- The item of a field of an object to encode, with the object as it holds it. -/
def fieldItem (cat : Catalog) (object : Json) (f : Field) : Except Status (Json × Json) :=
  match object.get? f.name, f.default with
  | some item, _ => .ok (item, object)
  | none, some value => .ok (publicDefault cat f value, object.set f.name (publicDefault cat f value))
  | none, none => .error (invalid (utf8 "Missing field: " ++ f.name))

/-- The number a counter's JSON value stands for. -/
def counterValue : Json → Option Nat
  | .uint n => some n
  | .int i => some (word i)
  | _ => none

/-- The number of items of an array field. -/
def arrayCount (object : Json) (f : Field) (length : Nat) : Except Status Nat :=
  let count := match f.count with
    | none => some length
    | some counter => (object.get? counter).bind counterValue
  match count with
  | none => .error ⟨"unsupported_type", "Array count must precede its array"⟩
  | some count =>
    if count > Limits.nativePayloadBytes then
      .error (invalid (utf8 "Invalid array length: " ++ f.name))
    else .ok count

/-- The discriminator of a field; empty where it has none. -/
def discriminator (f : Field) : Bytes :=
  f.discriminator.getD (if f.type = utf8 "vl_api_address_union_t" then "af" else [])

/-- The tag that goes with a field of a struct that itself has the tag `tag`. -/
def selectTag (name : Bytes) (tag : Option Json) (object : Json) (f : Field) :
    Except Status (Option Json) :=
  let selected :=
    if name = utf8 "vl_api_fib_path_t" ∧ f.name = utf8 "nh" then object.get? "proto"
    else if discriminator f ≠ [] then object.get? (discriminator f)
    else none
  match tag with
  | none => .ok selected
  | some t =>
    if name = utf8 "vl_api_fib_path_nh_t" ∧ f.name = utf8 "address" then
      if t.str? = some (utf8 "FIB_API_PATH_NH_PROTO_IP4") then .ok (some (.str "ADDRESS_IP4"))
      else if t.str? = some (utf8 "FIB_API_PATH_NH_PROTO_IP6") then .ok (some (.str "ADDRESS_IP6"))
      else .error ⟨"unsupported_type", "Non-IP FIB next-hop address requires a dedicated adapter"⟩
    else .ok selected

/-- The status of a field's conversion, with the field in its message. -/
def atField {α : Type} (f : Field) : Except Status α → Except Status α
  | .ok a => .ok a
  | .error s => .error ⟨s.code, f.name ++ utf8 ": " ++ s.message⟩

/-- The member of a union that has the key of an object; the last one where there are several. -/
def memberNamed (fields : List Field) (object : Json) : Option Field :=
  fields.reverse.find? fun f => object.contains f.name

/-- A union's member has the case of a tag. -/
def hasCase (tag : Option Json) (f : Field) : Bool :=
  match tag, f.caseName with
  | some t, some c => t.str? = some c
  | _, _ => false

/-- The member of a union a tag selects; the last one where there are several. -/
def memberOf (fields : List Field) (tag : Option Json) : Option Field :=
  fields.reverse.find? (hasCase tag)

/-- `std::vector::resize` with zeros. -/
def resize (size : Nat) (data : Bytes) : Bytes :=
  data.take size ++ List.replicate (size - data.length) 0

/-! ### Encoding -/

/-- The items of an array, one after the other. -/
def encodeItems (enc : Nat → Json → Except Status Bytes) : Nat → List Json → Except Status Bytes
  | _, [] => .ok []
  | size, item :: items => do
    let b ← enc size item
    let rest ← encodeItems enc (size + b.length) items
    .ok (b ++ rest)

section Encode

variable (cat : Catalog) (enc : Bytes → Option Json → Nat → Json → Except Status Bytes)

/-- One field of a struct. -/
def encodeField (name : Bytes) (tag : Option Json) (size : Nat) (object item : Json) (f : Field) :
    Except Status Bytes :=
  if f.isFixedString then
    let count := f.length.getD 0
    if count > Limits.nativePayloadBytes then .error (invalid "String size exceeds limit")
    else
      match item with
      | .str text =>
        if text.length ≥ count ∨ 0 ∈ text then
          .error (invalid "Fixed string is too long or contains NUL")
        else atField f (putBytes size (resize count text))
      | _ => .error (invalid "Fixed string is too long or contains NUL")
  else if f.type ≠ utf8 "string" ∧ f.length.isSome then do
    let count ← arrayCount object f (f.length.getD 0)
    match item with
    | .arr items =>
      if items.length ≠ count then .error (invalid (utf8 "Invalid array length: " ++ f.name))
      else atField f (encodeItems (enc f.type none) size items)
    | _ => .error (invalid (utf8 "Invalid array length: " ++ f.name))
  else do
    let selected ← selectTag name tag object f
    atField f (enc f.type selected size item)

/-- What a field's conversion leaves in the object. -/
def echoField (echo : Bytes → Json → Json) (f : Field) (item : Json) : Json :=
  if f.isFixedString ∨ (f.type ≠ utf8 "string" ∧ f.length.isSome) then item else echo f.type item

/-- The fields of a struct. -/
def encodeFields (echo : Bytes → Json → Json) (name : Bytes) (tag : Option Json) :
    Nat → Json → List Field → Except Status Bytes
  | _, _, [] => .ok []
  | size, object, f :: fs => do
    let (item, object) ← fieldItem cat object f
    let b ← encodeField enc name tag size object item f
    let rest ← encodeFields echo name tag (size + b.length)
      (object.set f.name (echoField echo f item)) fs
    .ok (b ++ rest)

/-- A struct. -/
def encodeStruct (echo : Bytes → Json → Json) (name : Bytes) (fields : List Field)
    (tag : Option Json) (size : Nat) (value : Json) : Except Status Bytes :=
  match value with
  | .obj m => do
    checkKeys fields m
    let object ← setCounts (.obj m) fields
    encodeFields cat enc echo name tag size object fields
  | _ => .error (invalid (utf8 "Expected an object for " ++ name))

/-- A union: its one member, filled up to the size of the union. -/
def encodeUnion (name : Bytes) (fields : List Field) (tag : Option Json) (size : Nat)
    (value : Json) : Except Status Bytes :=
  if fixedSize cat levels name < 0 ∨ isVariable cat levels name then
    .error ⟨"unsupported_type", "Variable union unsupported"⟩
  else if !value.isObject ∨ value.size ≠ 1 then
    .error (invalid "Union must select exactly one named member")
  else
    match memberNamed fields value with
    | none => .error (invalid "Unknown union member")
    | some f =>
      if tag.isSome ∧ f.caseName.isSome ∧ !hasCase tag f then
        .error (invalid "Union member disagrees with discriminator")
      else do
        let b ← enc f.type none 0 ((value.get? f.name).getD .null)
        putBytes size (resize (fixedSize cat levels name).toNat b)

end Encode

section Convert

variable (cat : Catalog) (native : Native) (symbols : Symbols)

/-- What `Convert` leaves in a value it encodes: a textual address or prefix is replaced by the
struct it stands for. -/
def echo : Nat → Bytes → Json → Json
  | 0, _, value => value
  | fuel + 1, name, value =>
    if (scalar? name).isSome then value
    else
      match cat name with
      | some (.alias type none) => echo fuel type value
      | some (.struct _) | some (.union _) => (rewrite name value).toOption.getD value
      | _ => value

/-- `Schema::Convert` with an output of `size` octets: what it appends. -/
def encode : Nat → Bytes → Option Json → Nat → Json → Except Status Bytes
  | 0, _, _, _, _ => .error (invalid "Type nesting exceeds 32 levels")
  | fuel + 1, name, tag, size, value =>
    match scalar? name with
    | some s => encodeScalar native symbols size value s
    | none =>
      match cat name with
      | none => .error ⟨"unsupported_type", utf8 "Unknown schema type: " ++ name⟩
      | some (.alias type none) => encode fuel type tag size value
      | some (.alias type (some count)) =>
        match value with
        | .arr items =>
          if items.length ≠ count then .error (invalid "Wrong fixed array length")
          else encodeItems (encode fuel type none) size items
        | _ => .error (invalid "Wrong fixed array length")
      | some (.enum type values flags) => do
        let numeric ← enumNumber type values flags value
        encode fuel type none size numeric
      | some (.union fields) => do
        let value ← rewrite name value
        encodeUnion cat (encode fuel) name fields tag size value
      | some (.struct fields) => do
        let value ← rewrite name value
        encodeStruct cat (encode fuel) (echo cat fuel) name fields tag size value

end Convert

/-! ### Decoding -/

/-- The items of an array, one after the other. -/
def decodeItems (dec : Bytes → Except Status (Json × Bytes)) :
    Nat → Bytes → Except Status (List Json × Bytes)
  | 0, input => .ok ([], input)
  | count + 1, input => do
    let (item, input) ← dec input
    let (items, input) ← decodeItems dec count input
    .ok (item :: items, input)

section Decode

variable (cat : Catalog) (dec : Bytes → Option Json → Bytes → Except Status (Json × Bytes))

/-- One field of a struct. -/
def decodeField (name : Bytes) (tag : Option Json) (object : Json) (input : Bytes) (f : Field) :
    Except Status (Json × Bytes) :=
  if f.isFixedString then
    let count := f.length.getD 0
    if count > Limits.nativePayloadBytes then .error (invalid "String size exceeds limit")
    else do
      let (text, rest) ← atField f (takeBytes count input)
      .ok (.str (cString text), rest)
  else if f.type ≠ utf8 "string" ∧ f.length.isSome then do
    let count ← arrayCount object f (f.length.getD 0)
    let (items, rest) ← atField f (decodeItems (dec f.type none) count input)
    .ok (.arr items, rest)
  else do
    let selected ← selectTag name tag object f
    atField f (dec f.type selected input)

/-- The fields of a struct: the object they make and the input left. -/
def decodeFields (name : Bytes) (tag : Option Json) :
    Json → Bytes → List Field → Except Status (Json × Bytes)
  | object, input, [] => .ok (object, input)
  | object, input, f :: fs => do
    let (item, rest) ← decodeField dec name tag object input f
    decodeFields name tag (object.set f.name item) rest fs

/-- A struct. -/
def decodeStruct (name : Bytes) (fields : List Field) (tag : Option Json) (input : Bytes) :
    Except Status (Json × Bytes) := do
  let (object, rest) ← decodeFields dec name tag (.obj []) input fields
  .ok (unwrite name ((counts fields).foldl (fun o k => o.erase k) object), rest)

/-- A union: the member the tag selects, out of the octets of the union. -/
def decodeUnion (name : Bytes) (fields : List Field) (tag : Option Json) (input : Bytes) :
    Except Status (Json × Bytes) :=
  let size := fixedSize cat levels name
  if size < 0 ∨ isVariable cat levels name then
    .error ⟨"unsupported_type", "Variable union unsupported"⟩
  else
    match memberOf fields tag with
    | none => .error ⟨"unsupported_type", "Reply union needs an explicit discriminator"⟩
    | some f =>
      if input.length < size.toNat then .error ⟨"invalid_reply", "Truncated union"⟩
      else do
        let (item, _) ← dec f.type none (input.take size.toNat)
        .ok (.obj [(f.name, item)], input.drop size.toNat)

end Decode

section Convert

variable (cat : Catalog) (native : Native) (symbols : Symbols)

/-- `Schema::Convert` with an input span: the value and the input left. -/
def decode : Nat → Bytes → Option Json → Bytes → Except Status (Json × Bytes)
  | 0, _, _, _ => .error (invalid "Type nesting exceeds 32 levels")
  | fuel + 1, name, tag, input =>
    match scalar? name with
    | some s => decodeScalar native symbols input s
    | none =>
      match cat name with
      | none => .error ⟨"unsupported_type", utf8 "Unknown schema type: " ++ name⟩
      | some (.alias type none) => decode fuel type tag input
      | some (.alias type (some count)) => do
        let (items, rest) ← decodeItems (decode fuel type none) count input
        .ok (.arr items, rest)
      | some (.enum type values flags) => do
        let (numeric, rest) ← decode fuel type none input
        let symbol ← enumSymbol values flags numeric
        .ok (symbol, rest)
      | some (.union fields) => decodeUnion cat (decode fuel) name fields tag input
      | some (.struct fields) => decodeStruct (decode fuel) name fields tag input

/-- `Schema::Encode`. -/
def Encode (type : Bytes) (value : Json) : Except Status Bytes :=
  encode cat native symbols levels type none 0 value

/-- `Schema::Decode`. -/
def Decode (type : Bytes) (input : Bytes) : Except Status Json :=
  match decode cat native symbols levels type none input with
  | .error s => .error s
  | .ok (value, []) => .ok value
  | .ok (_, _ :: _) => .error ⟨"invalid_reply", "Unexpected trailing payload bytes"⟩

end Convert

end Schema

end VppJson
