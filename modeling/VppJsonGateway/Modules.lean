import VppJsonGateway.Lib.Registry
import VppJsonGateway.Schema

/-!
# The catalog of several modules

`Fields` and `Schema::AddModule` of `src/src/schema.cc`, and the loop over modules in `main` of
`src/tools/schema_generator.cc`. A module is an `.api.json` document. It repeats the types it
imports, so the catalog takes a type again that compares equal to the one it has.

JSON values are compared as the JSON library compares them: numbers by what they stand for,
whatever they are stored as.
-/

/-! ## Comparing values -/

namespace Lib.Json

/-- A floating-point number up to the sign of zero. -/
def unsigned (d : Double) : Bytes := if d.text = utf8 "-0.0" then "0.0" else d.text

/-- `operator==` of the JSON library on numbers; `toDouble` is the conversion of an integer to a
floating-point number. -/
def sameNumeral (toDouble : Int → Double) : Json → Json → Bool
  | .int i, .int j => i = j
  | .uint m, .uint n => m = n
  | .int i, .uint n => (i % 2 ^ 64).toNat = n
  | .uint n, .int i => (i % 2 ^ 64).toNat = n
  | .float d, .float e => unsigned d = unsigned e
  | .int i, .float d => unsigned (toDouble i) = unsigned d
  | .float d, .int i => unsigned (toDouble i) = unsigned d
  | .uint n, .float d => unsigned (toDouble n) = unsigned d
  | .float d, .uint n => unsigned (toDouble n) = unsigned d
  | _, _ => false

/-- `operator==` of the JSON library. -/
def same (toDouble : Int → Double) : Json → Json → Bool
  | .null, .null => true
  | .bool a, .bool b => a = b
  | .str a, .str b => a = b
  | .arr l, .arr l' => sameItems toDouble l l'
  | .obj m, .obj m' => sameMembers toDouble m m'
  | a, b => sameNumeral toDouble a b
where
  /-- Arrays, item by item. -/
  sameItems (toDouble : Int → Double) : List Json → List Json → Bool
    | [], [] => true
    | x :: l, y :: l' => same toDouble x y && sameItems toDouble l l'
    | _, _ => false
  /-- Objects, member by member. -/
  sameMembers (toDouble : Int → Double) : List (Bytes × Json) → List (Bytes × Json) → Bool
    | [], [] => true
    | (k, v) :: m, (k', v') :: m' => k = k' && same toDouble v v' && sameMembers toDouble m m'
    | _, _ => false

end Lib.Json

namespace VppJson

open Lib

namespace Schema

/-! ## Reading a document -/

/-- How `AddModule` does not succeed: with a status, or with an exception of the JSON library. -/
inductive Failure where
  | status (s : Status)
  | exception

/-- A failure with `invalid_params`. -/
def refuse {α : Type} (message : Bytes) : Except Failure α := .error (.status (invalid message))

/-- The characters of `Identifier`. -/
def isNameByte (c : UInt8) : Bool :=
  (97 ≤ c && c ≤ 122) || (65 ≤ c && c ≤ 90) || (48 ≤ c && c ≤ 57) || c = 95

/-- `Identifier`. -/
def identifier (text : Bytes) : Bool :=
  match text with
  | [] => false
  | c :: _ => text.all isNameByte && !(48 ≤ c && c ≤ 57)

/-- The conversion of a value to `std::string`. -/
def stringOf : Json → Except Failure Bytes
  | .str s => .ok s
  | _ => .error .exception

/-- What a range-based loop goes over. -/
def elements : Json → List Json
  | .null => []
  | .arr l => l
  | .obj m => m.map (·.2)
  | j => [j]

/-- What a loop over `items` goes over. -/
def itemsOf : Json → Except Failure (List (Bytes × Json))
  | .obj m => .ok m
  | .null => .ok []
  | .arr [] => .ok []
  | _ => .error .exception

/-- `document.value(key, default)` with a default that has no elements. -/
def valueOf (key : Bytes) (document : Json) : Json := (document.get? key).getD .null

/-- `object.value(key, default)` for a text. -/
def textOf (key fallback : Bytes) : Json → Except Failure Bytes
  | .obj m =>
    match Json.find key m with
    | none => .ok fallback
    | some value => stringOf value
  | _ => .error .exception

/-- An object, for an assignment to one of its members. -/
def membersOf : Json → Except Failure (List (Bytes × Json))
  | .obj m => .ok m
  | .null => .ok []
  | _ => .error .exception

/-! ## Fields -/

/-- The length of an array: a number whose 64 bits are not negative. -/
def isLength : Json → Bool
  | .uint n => n < 2 ^ 63
  | .int i => 0 ≤ i
  | _ => false

/-- The options of a field, from a part of its description. -/
def withOptions (field : Json) (part : Json) : Json :=
  if part.isObject then
    [utf8 "default", utf8 "discriminator", utf8 "case"].foldl (fun field key =>
      match part.get? key with
      | some value => field.set key value
      | none => field) field
  else field

/-- One iteration of `Fields`: a field, where the description is one. -/
def fieldOf (message : Bool) : Json → Except Failure (Option Json)
  | .arr (type :: name :: rest) => do
    let name ← stringOf name
    if message && (name = utf8 "_vl_msg_id" || name = utf8 "context" || name = utf8 "client_index")
    then .ok none
    else
      let field := Json.object [("type", type), ("name", .str name)]
      let field := match rest with
        | length :: _ => if isLength length then field.set "length" length else field
        | [] => field
      let field := match rest with
        | _ :: .str count :: _ => field.set "count" (.str count)
        | _ => field
      .ok (some ((type :: .str name :: rest).foldl withOptions field))
  | _ => .ok none

/-- `Fields`, on the descriptions of the fields. -/
def fieldsOf (message : Bool) (descriptions : List Json) : Except Failure (List Json) := do
  let fields ← descriptions.mapM (fieldOf message)
  .ok (fields.filterMap id)

/-- The check of a field's names. -/
def checkField (field : Json) : Except Failure Unit := do
  let name ← stringOf (valueOf "name" field)
  if !identifier name then refuse "Unsafe field name in VPP schema"
  let type ← stringOf (valueOf "type" field)
  if !identifier type then refuse "Unsafe field name in VPP schema"
  match field.get? "count" with
  | none => .ok ()
  | some count =>
    let count ← stringOf count
    if !identifier count then refuse "Unsafe field name in VPP schema" else .ok ()

/-! ## Definitions -/

/-- A type, a union or a message of a document, with its name in the catalog. -/
def definitionOf (category : Bytes) : Json → Except Failure (Bytes × Json)
  | .arr (.str name :: descriptions) => do
    let message := category = utf8 "messages"
    let fields ← fieldsOf message descriptions
    fields.forM checkField
    .ok (if message then name else utf8 "vl_api_" ++ name ++ utf8 "_t", Json.object
      [("kind", .str (if category = utf8 "unions" then "union" else "struct")),
        ("fields", .arr fields)])
  | _ => refuse "Malformed VPP type definition"

/-- The values of an enum. A value without its number is not modelled. -/
def symbolOf (values : List (Bytes × Json)) : Json → Except Failure (List (Bytes × Json))
  | .arr (symbol :: number :: _) => do
    let symbol ← stringOf symbol
    .ok (Json.setKey symbol number values)
  | .arr _ => .error .exception
  | _ => .ok values

/-- An enum of a document, with its name in the catalog. -/
def enumOf (category : Bytes) : Json → Except Failure (Bytes × Json)
  | .arr (first :: rest) => do
    let name ← stringOf first
    let values ← rest.foldlM symbolOf []
    let type ← textOf "enumtype" "u32" (rest.getLast?.getD first)
    -- These legacy bitsets predate VPP's enumflag syntax.
    let flags := category = utf8 "enumflags" || name = utf8 "if_status_flags" ||
      name = utf8 "sub_if_flags"
    .ok (utf8 "vl_api_" ++ name ++ utf8 "_t", Json.object [("kind", .str "enum"),
      ("type", .str type), ("values", .obj values), ("flags", .bool flags)])
  | _ => .error .exception

/-- An alias of a document, with its name in the catalog. -/
def aliasOf (item : Bytes × Json) : Except Failure (Bytes × Json) := do
  let members ← membersOf item.2
  .ok (utf8 "vl_api_" ++ item.1 ++ utf8 "_t", .obj (Json.setKey "kind" (.str "alias") members))

/-- The `crc` of a service's message; that of the last one where there are several. -/
def crcOf (name : Bytes) (method : List (Bytes × Json)) :
    Json → Except Failure (List (Bytes × Json))
  | .arr (first :: rest) =>
    if first.str? = some name then do
      let crc ← textOf "crc" [] (rest.getLast?.getD first)
      .ok (Json.setKey "crc" (.str crc) method)
    else .ok method
  | _ => .error .exception

/-- The method of a service. -/
def methodFor (messages : List Json) (module name : Bytes) (method : List (Bytes × Json)) :
    Except Failure Json := do
  let method := Json.setKey "module" (.str module) (Json.setKey "request" (.str name) method)
  let method ← messages.foldlM (crcOf name) method
  .ok (.obj method)

/-! ## The catalog -/

/-- The members of the two objects of `catalog_`. -/
structure Listing where
  types : List (Bytes × Json) := []
  methods : List (Bytes × Json) := []

section

variable (toDouble : Int → Double)

/-- The lambda `add`. -/
def addType (c : Listing) (e : Bytes × Json) : Except Failure Listing :=
  if !identifier e.1 then refuse "Unsafe type name in VPP schema"
  else
    match Json.find e.1 c.types with
    | some old =>
      if !old.same toDouble e.2 then refuse (utf8 "Conflicting VPP type: " ++ e.1)
      else .ok { c with types := Json.setKey e.1 e.2 c.types }
    | none => .ok { c with types := Json.setKey e.1 e.2 c.types }

/-- The method of a service is added. The duplicate is found before the `crc` is read. -/
def addMethod (messages : List Json) (module : Bytes) (c : Listing) (item : Bytes × Json) :
    Except Failure Listing := do
  if !identifier item.1 then refuse "Unsafe message name"
  let method ← membersOf item.2
  if (Json.find (utf8 "vpp." ++ item.1) c.methods).isSome then
    refuse (utf8 "Duplicate VPP method: vpp." ++ item.1)
  let method ← methodFor messages module item.1 method
  .ok { c with methods := Json.setKey (utf8 "vpp." ++ item.1) method c.methods }

/-- `Schema::AddModule`. -/
def AddModule (document : Json) (module : Bytes) (c : Listing) : Except Failure Listing :=
  match identifier module, document.get? "messages", document.get? "services" with
  | true, some (.arr messages), some services => do
    let c ← [utf8 "types", utf8 "unions", utf8 "messages"].foldlM (fun c category =>
      (elements (valueOf category document)).foldlM (fun c raw => do
        addType toDouble c (← definitionOf category raw)) c) c
    let c ← [utf8 "enums", utf8 "enumflags"].foldlM (fun c category =>
      (elements (valueOf category document)).foldlM (fun c raw => do
        addType toDouble c (← enumOf category raw)) c) c
    let aliases ← itemsOf (valueOf "aliases" document)
    let c ← aliases.foldlM (fun c item => do addType toDouble c (← aliasOf item)) c
    let services ← itemsOf services
    services.foldlM (addMethod messages module) c
  | _, _, _ => refuse "Invalid VPP API module"

/-- The loop over the modules: documents and their names. -/
def addModules (modules : List (Json × Bytes)) : Except Failure Listing :=
  modules.foldlM (fun c m => AddModule toDouble m.1 m.2 c) {}

end

end Schema

end VppJson
