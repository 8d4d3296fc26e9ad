import VppJsonGateway.Lib.Json

/-!
# JSON Schema

The meaning of a JSON Schema, for the keywords that describe types, ranges, texts, arrays and
objects. A keyword constrains only values of the kind it is about, and a schema without a keyword
does not constrain. Keywords that are not listed here are annotations.
-/

namespace Lib.Json

/-- The values of a type name. A number with a fraction or an exponent counts as no integer. -/
def hasType (type : Bytes) : Json → Bool
  | .null => type = utf8 "null"
  | .bool _ => type = utf8 "boolean"
  | .int _ | .uint _ => type = utf8 "integer" ∨ type = utf8 "number"
  | .float _ => type = utf8 "number"
  | .str _ => type = utf8 "string"
  | .arr _ => type = utf8 "array"
  | .obj _ => type = utf8 "object"

/-- The number of an integer value. -/
def int? : Json → Option Int
  | .int i => some i
  | .uint n => some n
  | _ => none

/-- The number of characters of a text: its octets that continue no character. -/
def characters (text : Bytes) : Nat := (text.filter fun b => b.toNat / 64 ≠ 2).length

/-- There are no more characters than octets. -/
theorem characters_le (text : Bytes) : characters text ≤ text.length := List.length_filter_le _ _

/-- One or more digits. -/
def isDigits (text : Bytes) : Bool := text ≠ [] ∧ text.all isDigit

/-- A text matches a pattern: the patterns of decimal numbers without and with a sign. -/
def matchesPattern (pattern text : Bytes) : Bool :=
  (pattern ≠ utf8 "^[0-9]+$" ∨ isDigits text) ∧
    (pattern ≠ utf8 "^-?[0-9]+$" ∨ isDigits text ∨ (text.head? = some 45 ∧ isDigits text.tail))

/-- The keywords that say something about a value itself. -/
inductive Keyword where
  | type
  | enum
  | pattern
  | maxLength
  | minimum
  | maximum
  | uniqueItems
  | minItems
  | maxItems
  | required
  | additionalProperties
  | minProperties
  | maxProperties
  deriving DecidableEq

/-- A keyword as it is written. -/
def Keyword.text : Keyword → Bytes
  | .type => "type"
  | .enum => "enum"
  | .pattern => "pattern"
  | .maxLength => "maxLength"
  | .minimum => "minimum"
  | .maximum => "maximum"
  | .uniqueItems => "uniqueItems"
  | .minItems => "minItems"
  | .maxItems => "maxItems"
  | .required => "required"
  | .additionalProperties => "additionalProperties"
  | .minProperties => "minProperties"
  | .maxProperties => "maxProperties"

/-- What a keyword with the value `s` in a schema says about a value. -/
def Keyword.Holds (schema s v : Json) : Keyword → Prop
  | .type => ∀ t, s = .str t → hasType t v = true
  | .enum => ∀ xs, s = .arr xs → v ∈ xs
  | .pattern => ∀ p text, s = .str p → v = .str text → matchesPattern p text = true
  | .maxLength => ∀ n text, s.int? = some n → v = .str text → (characters text : Int) ≤ n
  | .minimum => ∀ n i, s.int? = some n → v.int? = some i → n ≤ i
  | .maximum => ∀ n i, s.int? = some n → v.int? = some i → i ≤ n
  | .uniqueItems => ∀ xs, s = .bool true → v = .arr xs → xs.Nodup
  | .minItems => ∀ n xs, s.int? = some n → v = .arr xs → n ≤ xs.length
  | .maxItems => ∀ n xs, s.int? = some n → v = .arr xs → (xs.length : Int) ≤ n
  | .required => ∀ names m name, s = .arr names → v = .obj m → .str name ∈ names →
      (find name m).isSome
  | .additionalProperties => ∀ m kv, s = .bool false → v = .obj m → kv ∈ m →
      ((schema.get? "properties").bind (·.get? kv.1)).isSome
  | .minProperties => ∀ n m, s.int? = some n → v = .obj m → n ≤ m.length
  | .maxProperties => ∀ n m, s.int? = some n → v = .obj m → (m.length : Int) ≤ n

/-- A value is valid against a schema: what the schema says holds of it, of the items of an array
and of the members of an object. -/
inductive Valid : Json → Json → Prop
  | mk {schema v : Json} (own : ∀ k s, schema.get? (Keyword.text k) = some s → k.Holds schema s v)
      (items : ∀ s xs, schema.get? "items" = some s → v = .arr xs → ∀ x ∈ xs, Valid s x)
      (properties : ∀ props k s x, schema.get? "properties" = some props → props.get? k = some s →
        v.get? k = some x → Valid s x) : Valid schema v

section

variable {schema v : Json}

/-- A valid value keeps every keyword of the schema. -/
theorem Valid.own (h : Valid schema v) {s : Json} (k : Keyword)
    (hs : schema.get? k.text = some s) : k.Holds schema s v := by
  cases h with
  | mk own _ _ => exact own k s hs

/-- Items of a valid array are valid. -/
theorem Valid.items (h : Valid schema v) {s : Json} {xs : List Json}
    (hs : schema.get? "items" = some s) (hv : v = .arr xs) {x : Json} (hx : x ∈ xs) :
    Valid s x := by
  cases h with
  | mk _ items _ => exact items s xs hs hv x hx

/-- Members of a valid object are valid. -/
theorem Valid.properties (h : Valid schema v) {props s x : Json} {k : Bytes}
    (hprops : schema.get? "properties" = some props) (hs : props.get? k = some s)
    (hx : v.get? k = some x) : Valid s x := by
  cases h with
  | mk _ _ properties => exact properties props k s x hprops hs hx

/-- An annotation changes nothing. -/
theorem valid_set {k : Bytes} (hk : ∀ w : Keyword, w.text ≠ k) (hitems : utf8 "items" ≠ k)
    (hprops : utf8 "properties" ≠ k) (s : Json) :
    Valid (schema.set k s) v ↔ Valid schema v := by
  have hsame : ∀ w : Keyword, (schema.set k s).get? w.text = schema.get? w.text :=
    fun w => get?_set_of_ne (hk w) s schema
  have hholds : ∀ (w : Keyword) (x : Json),
      w.Holds (schema.set k s) x v ↔ w.Holds schema x v := by
    intro w x
    cases w with
    | additionalProperties => rw [Keyword.Holds, Keyword.Holds, get?_set_of_ne hprops]
    | _ => exact Iff.rfl
  refine ⟨fun h => .mk ?_ ?_ ?_, fun h => .mk ?_ ?_ ?_⟩
  · exact fun w x hx => (hholds w x).1 (h.own w ((hsame w).trans hx))
  · exact fun x xs hx hv y hy => h.items ((get?_set_of_ne hitems s schema).trans hx) hv hy
  · exact fun ps k' x y hp => h.properties ((get?_set_of_ne hprops s schema).trans hp)
  · exact fun w x hx => (hholds w x).2 (h.own w ((hsame w).symm.trans hx))
  · exact fun x xs hx hv y hy => h.items ((get?_set_of_ne hitems s schema).symm.trans hx) hv hy
  · exact fun ps k' x y hp => h.properties ((get?_set_of_ne hprops s schema).symm.trans hp)

/-- What an object was made of is all that it has. -/
theorem mem_of_get?_object {m : List (Bytes × Json)} {k : Bytes} {s : Json}
    (h : (object m).get? k = some s) : (k, s) ∈ m := by
  have key : ∀ {m o : List (Bytes × Json)},
      find k (m.foldl (fun o kv => setKey kv.1 kv.2 o) o) = some s →
      (k, s) ∈ m ∨ find k o = some s := by
    intro m
    induction m with
    | nil => exact fun h => .inr h
    | cons kv m ih =>
      intro o h
      rcases ih h with h | h
      · exact .inl (List.mem_cons_of_mem _ h)
      · by_cases hk : k = kv.1
        · subst hk
          rw [find_setKey_self] at h
          cases h
          exact .inl List.mem_cons_self
        · rw [find_setKey_of_ne hk] at h
          exact .inr h
  rcases key h with h | h
  · exact h
  · cases h

/-- The rule for a schema given by its members. -/
theorem valid_object {m : List (Bytes × Json)}
    (own : ∀ k s, (Keyword.text k, s) ∈ m → k.Holds (object m) s v)
    (items : ∀ s xs, (utf8 "items", s) ∈ m → v = .arr xs → ∀ x ∈ xs, Valid s x)
    (properties : ∀ props k s x, (utf8 "properties", props) ∈ m → props.get? k = some s →
      v.get? k = some x → Valid s x) : Valid (object m) v :=
  .mk (fun k s hs => own k s (mem_of_get?_object hs))
    (fun s xs hs => items s xs (mem_of_get?_object hs))
    (fun props k s x hp => properties props k s x (mem_of_get?_object hp))

end

end Lib.Json
