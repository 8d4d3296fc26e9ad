import VppJsonGateway.Generator

/-!
# Types without interfaces

`HasInterface` is a recursion of its own over the types `Convert` converts. Where it is false the
conversion never asks the name resolver.
-/

namespace VppJson.Schema

open Lib

/-- The base types of enums are integer primitives. -/
def IntegerEnums (cat : Catalog) : Prop :=
  ∀ name type values flags, cat name = some (.enum type values flags) →
    ∃ signed width, scalar? type = some (.int signed width)

section

variable {cat : Catalog} {native : Native}

theorem scalar?_interface {name : Bytes} :
    scalar? name = some .interface ↔ name = utf8 "vl_api_interface_index_t" := by
  constructor
  · intro h
    have hmem := List.lookup_eq_some_iff.1 h
    obtain ⟨before, after, hsplit, -⟩ := hmem
    have hin : (name, Scalar.interface) ∈ scalars := by
      rw [hsplit]
      simp
    simp only [scalars, List.mem_cons, Prod.mk.injEq, List.not_mem_nil, or_false] at hin
    simpa using hin
  · rintro rfl
    rfl

/-! ## Encoding -/

/-- Only an interface index is encoded by name. -/
theorem encodeScalar_resolver {s : Scalar} (hs : s ≠ .interface) (symbols symbols' : Symbols)
    (size : Nat) (value : Json) :
    encodeScalar native symbols size value s = encodeScalar native symbols' size value s := by
  cases s with
  | interface => exact absurd rfl hs
  | int | float | bool | string | ip4 | ip6 | mac => rfl

section

variable {enc enc' : Bytes → Option Json → Nat → Json → Except Status Bytes} {fields : List Field}

/-- Fields are encoded as their types are. -/
theorem encodeFields_congr (h : ∀ f ∈ fields, enc f.type = enc' f.type)
    (echo : Bytes → Json → Json) (name : Bytes) (tag : Option Json) : ∀ size object,
      encodeFields cat enc echo name tag size object fields =
        encodeFields cat enc' echo name tag size object fields := by
  induction fields with
  | nil => exact fun _ _ => rfl
  | cons f fs ih =>
    intro size object
    obtain ⟨hf, hfs⟩ := List.forall_mem_cons.1 h
    have hfield : ∀ size object item, encodeField enc name tag size object item f =
        encodeField enc' name tag size object item f := by
      intro size object item
      simp only [encodeField, hf]
    simp only [encodeFields, hfield, ih hfs]

/-- So is a union. -/
theorem encodeUnion_congr (h : ∀ f ∈ fields, enc f.type = enc' f.type) (name : Bytes)
    (tag : Option Json) (size : Nat) (value : Json) :
    encodeUnion cat enc name fields tag size value =
      encodeUnion cat enc' name fields tag size value := by
  unfold encodeUnion
  split_ifs
  · rfl
  · rfl
  · cases hmember : memberNamed fields value with
    | none => rfl
    | some f =>
      have hmem : f ∈ fields := List.mem_reverse.1 (List.mem_of_find?_eq_some hmember)
      simp only [h f hmem]

end

/-- What a type without interfaces is made of has none either, one level deeper. -/
theorem encode_resolver (hcat : IntegerEnums cat) (symbols symbols' : Symbols) (fuel : Nat) :
    ∀ {name : Bytes}, hasInterface cat fuel name = false →
      encode cat native symbols fuel name = encode cat native symbols' fuel name := by
  induction fuel with
  | zero =>
    intro name _
    rfl
  | succ fuel ih =>
    intro name hno
    rw [hasInterface] at hno
    split_ifs at hno with hname
    funext tag size value
    rw [encode, encode]
    cases hscalar : scalar? name with
    | some s =>
      refine encodeScalar_resolver ?_ symbols symbols' size value
      rintro rfl
      exact hname (scalar?_interface.1 hscalar)
    | none =>
      cases hdef : cat name with
      | none => rfl
      | some d =>
        rw [hdef] at hno
        cases d with
        | «alias» type length =>
          simp only at hno
          cases length with
          | none => simp only [ih hno]
          | some count => simp only [ih hno]
        | enum type values flags =>
          obtain ⟨signed, width, hbase⟩ := hcat name type values flags hdef
          have hint : encode cat native symbols fuel type = encode cat native symbols' fuel type := by
            cases fuel with
            | zero => rfl
            | succ fuel =>
              funext tag size value
              rw [encode, encode, hbase]
              exact encodeScalar_resolver (by intro h; cases h) symbols symbols' size value
          simp only [hint]
        | struct fields =>
          simp only [List.any_eq_false, Bool.not_eq_true] at hno
          have hstruct : ∀ value, encodeStruct cat (encode cat native symbols fuel) (echo cat fuel)
              name fields tag size value =
                encodeStruct cat (encode cat native symbols' fuel) (echo cat fuel) name fields tag
                  size value := by
            intro value
            unfold encodeStruct
            simp only [encodeFields_congr fun f hf => ih (hno f hf)]
          simp only [hstruct]
        | union fields =>
          simp only [List.any_eq_false, Bool.not_eq_true] at hno
          simp only [encodeUnion_congr fun f hf => ih (hno f hf)]

/-! ## Decoding -/

/-- Only an interface index is decoded by name. -/
theorem decodeScalar_resolver {s : Scalar} (hs : s ≠ .interface) (symbols symbols' : Symbols)
    (input : Bytes) :
    decodeScalar native symbols input s = decodeScalar native symbols' input s := by
  cases s with
  | interface => exact absurd rfl hs
  | int | float | bool | string | ip4 | ip6 | mac => rfl

section

variable {dec dec' : Bytes → Option Json → Bytes → Except Status (Json × Bytes)}
  {fields : List Field}

/-- Fields are decoded as their types are. -/
theorem decodeFields_congr (h : ∀ f ∈ fields, dec f.type = dec' f.type) (name : Bytes)
    (tag : Option Json) : ∀ object input,
      decodeFields dec name tag object input fields =
        decodeFields dec' name tag object input fields := by
  induction fields with
  | nil => exact fun _ _ => rfl
  | cons f fs ih =>
    intro object input
    obtain ⟨hf, hfs⟩ := List.forall_mem_cons.1 h
    have hfield : decodeField dec name tag object input f =
        decodeField dec' name tag object input f := by
      simp only [decodeField, hf]
    simp only [decodeFields, hfield, ih hfs]

/-- So is a union. -/
theorem decodeUnion_congr (h : ∀ f ∈ fields, dec f.type = dec' f.type) (name : Bytes)
    (tag : Option Json) (input : Bytes) :
    decodeUnion cat dec name fields tag input = decodeUnion cat dec' name fields tag input := by
  unfold decodeUnion
  cases hmember : memberOf fields tag with
  | none => rfl
  | some f =>
    have hmem : f ∈ fields := List.mem_reverse.1 (List.mem_of_find?_eq_some hmember)
    simp only [h f hmem]

end

/-- A type without interfaces is decoded without asking for names. -/
theorem decode_resolver (hcat : IntegerEnums cat) (symbols symbols' : Symbols) (fuel : Nat) :
    ∀ {name : Bytes}, hasInterface cat fuel name = false →
      decode cat native symbols fuel name = decode cat native symbols' fuel name := by
  induction fuel with
  | zero =>
    intro name _
    rfl
  | succ fuel ih =>
    intro name hno
    rw [hasInterface] at hno
    split_ifs at hno with hname
    funext tag input
    rw [decode, decode]
    cases hscalar : scalar? name with
    | some s =>
      refine decodeScalar_resolver ?_ symbols symbols' input
      rintro rfl
      exact hname (scalar?_interface.1 hscalar)
    | none =>
      cases hdef : cat name with
      | none => rfl
      | some d =>
        rw [hdef] at hno
        cases d with
        | «alias» type length =>
          simp only at hno
          cases length with
          | none => simp only [ih hno]
          | some count => simp only [ih hno]
        | enum type values flags =>
          obtain ⟨signed, width, hbase⟩ := hcat name type values flags hdef
          have hint : decode cat native symbols fuel type = decode cat native symbols' fuel type := by
            cases fuel with
            | zero => rfl
            | succ fuel =>
              funext tag input
              rw [decode, decode, hbase]
              exact decodeScalar_resolver (by intro h; cases h) symbols symbols' input
          simp only [hint]
        | struct fields =>
          simp only [List.any_eq_false, Bool.not_eq_true] at hno
          simp only [decodeStruct, decodeFields_congr fun f hf => ih (hno f hf)]
        | union fields =>
          simp only [List.any_eq_false, Bool.not_eq_true] at hno
          simp only [decodeUnion_congr fun f hf => ih (hno f hf)]

/-- **`HasInterface` covers every use of the name resolver.** -/
theorem codec_resolver (hcat : IntegerEnums cat) {name : Bytes}
    (hno : hasInterface cat levels name = false) (symbols symbols' : Symbols) :
    (∀ value, Encode cat native symbols name value = Encode cat native symbols' name value) ∧
      ∀ input, Decode cat native symbols name input = Decode cat native symbols' name input := by
  refine ⟨fun value => ?_, fun input => ?_⟩
  · rw [Encode, encode_resolver hcat symbols symbols' levels hno, Encode]
  · rw [Decode, decode_resolver hcat symbols symbols' levels hno, Decode]

end

end VppJson.Schema
