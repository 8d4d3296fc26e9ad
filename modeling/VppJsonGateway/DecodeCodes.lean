import VppJsonGateway.Schema

/-!
# Errors of the decoder

`Decode` fails with codes of its own, and with those of the library functions and of the name
resolver of the call. `Fails` bounds the codes of a conversion by any predicate that the decoder's
own codes have, so that one induction over the types says both that a failure has a code and which
codes there are.
-/

namespace VppJson

open Lib

namespace Schema

/-! ## Failures -/

/-- A failure has a code of a kind. -/
def Fails (P : Bytes → Prop) {α : Type} (r : Except Status α) : Prop :=
  ∀ status, r = .error status → P status.code

/-- The codes of the decoder itself. -/
def decodeCodes : List Bytes :=
  ["invalid_reply", "unknown_enum", "invalid_params", "payload_too_large", "unsupported_type",
    "resource_not_found"]

section

variable {P : Bytes → Prop} {α β : Type}

/-- A success is no failure. -/
theorem fails_ok (a : α) : Fails P (.ok a : Except Status α) :=
  fun _ h => (by cases h)

/-- A failure has its own code. -/
theorem fails_error {status : Status} (h : P status.code) :
    Fails P (.error status : Except Status α) := by
  intro s hs
  cases hs
  exact h

/-- A failure of a kind is one of any wider kind. -/
theorem Fails.mono {Q : Bytes → Prop} {r : Except Status α} (h : Fails P r)
    (hmono : ∀ code, P code → Q code) : Fails Q r :=
  fun status hr => hmono _ (h status hr)

/-- Two conversions in sequence fail with a code of a kind, if both do. -/
theorem Fails.bind {r : Except Status α} {f : α → Except Status β} (h : Fails P r)
    (hf : ∀ a, Fails P (f a)) : Fails P (r >>= f) := by
  cases r with
  | error status => exact fails_error (h status rfl)
  | ok a => exact hf a

/-- The field in the message of a failure leaves its code. -/
theorem Fails.atField {r : Except Status α} (h : Fails P r) (f : Field) :
    Fails P (atField f r) := by
  cases r with
  | error status => exact fails_error (h status rfl)
  | ok a => exact fails_ok a

/-- A failure of the decoder itself. -/
theorem fails_own (hown : ∀ code ∈ decodeCodes, P code) {code message : Bytes}
    (h : code ∈ decodeCodes) : Fails P (.error ⟨code, message⟩ : Except Status α) :=
  fails_error (hown code h)

end

/-! ## Decoding -/

/-- The codes of a call: those of the decoder, of the library functions and of the resolver of
interface names are of a kind. -/
structure Codes (P : Bytes → Prop) (native : Native) (symbols : Symbols) : Prop where
  own : ∀ code ∈ decodeCodes, P code
  floats : ∀ width data, Fails P (native.floatValue width data)
  names : ∀ resolve, symbols.interfaceName = some resolve → ∀ index, Fails P (resolve index)

section

variable {P : Bytes → Prop} {native : Native} {symbols : Symbols} {cat : Catalog}

/-- A payload that is too short. -/
theorem fails_takeBytes (hown : ∀ code ∈ decodeCodes, P code) (count : Nat) (input : Bytes) :
    Fails P (takeBytes count input) := by
  unfold takeBytes
  split_ifs
  · exact fails_own hown (by decide)
  · exact fails_ok _

/-- `InterfaceName` fails without a resolver, or as the resolver does. -/
theorem Codes.interfaceName (h : Codes P native symbols) (index : UInt32) :
    Fails P (interfaceName symbols index) := by
  unfold Schema.interfaceName
  split_ifs
  · exact fails_ok _
  · split
    · exact fails_own h.own (by decide)
    · next resolve hresolve => exact h.names resolve hresolve index

/-- Scalars, case by case as the source distinguishes them. -/
theorem Codes.decodeScalar (h : Codes P native symbols) (input : Bytes) (s : Scalar) :
    Fails P (decodeScalar native symbols input s) := by
  cases s with
  | int signed width => exact (fails_takeBytes h.own _ _).bind fun _ => fails_ok _
  | float width =>
    exact (fails_takeBytes h.own _ _).bind fun _ => (h.floats _ _).bind fun _ => fails_ok _
  | bool =>
    refine (fails_takeBytes h.own _ _).bind fun _ => ?_
    simp only
    split_ifs
    · exact fails_own h.own (by decide)
    · exact fails_ok _
  | string =>
    refine (fails_takeBytes h.own _ _).bind fun _ => ?_
    simp only
    split_ifs
    · exact fails_own h.own (by decide)
    · exact (fails_takeBytes h.own _ _).bind fun _ => fails_ok _
  | interface =>
    exact (fails_takeBytes h.own _ _).bind fun _ =>
      (h.interfaceName _).bind fun _ => fails_ok _
  | ip4 =>
    refine (fails_takeBytes h.own _ _).bind fun data => ?_
    simp only
    cases native.ntop4 data.1 with
    | none => exact fails_own h.own (by decide)
    | some text => exact fails_ok _
  | ip6 =>
    refine (fails_takeBytes h.own _ _).bind fun data => ?_
    simp only
    cases native.ntop6 data.1 with
    | none => exact fails_own h.own (by decide)
    | some text => exact fails_ok _
  | mac => exact (fails_takeBytes h.own _ _).bind fun _ => fails_ok _

/-- The elements of an array fail as one of them does. -/
theorem fails_decodeItems {dec : Bytes → Except Status (Json × Bytes)}
    (hdec : ∀ input, Fails P (dec input)) :
    ∀ (count : Nat) (input : Bytes), Fails P (decodeItems dec count input) := by
  intro count
  induction count with
  | zero => exact fun _ => fails_ok _
  | succ count ih =>
    exact fun input => (hdec input).bind fun r => (ih r.2).bind fun _ => fails_ok _

variable {dec : Bytes → Option Json → Bytes → Except Status (Json × Bytes)}

/-- An array whose count is missing or over the limit. -/
theorem fails_arrayCount (hown : ∀ code ∈ decodeCodes, P code) (object : Json) (f : Field)
    (length : Nat) : Fails P (arrayCount object f length) := by
  unfold arrayCount
  simp only
  split
  · exact fails_own hown (by decide)
  · split_ifs
    · exact fails_own hown (by decide)
    · exact fails_ok _

/-- A union whose discriminator selects no case. -/
theorem fails_selectTag (hown : ∀ code ∈ decodeCodes, P code) (name : Bytes) (tag : Option Json)
    (object : Json) (f : Field) : Fails P (selectTag name tag object f) := by
  unfold selectTag
  cases tag with
  | none => exact fails_ok _
  | some t =>
    simp only
    split_ifs
    · exact fails_ok _
    · exact fails_ok _
    · exact fails_own hown (by decide)
    · exact fails_ok _
    · exact fails_ok _
    · exact fails_ok _

/-- A field fails on its own, or as its type does. -/
theorem fails_decodeField (hown : ∀ code ∈ decodeCodes, P code)
    (hdec : ∀ name tag input, Fails P (dec name tag input)) (name : Bytes) (tag : Option Json)
    (object : Json) (input : Bytes) (f : Field) :
    Fails P (decodeField dec name tag object input f) := by
  unfold decodeField
  simp only
  split_ifs
  · exact fails_own hown (by decide)
  · exact ((fails_takeBytes hown _ _).atField f).bind fun _ => fails_ok _
  · exact (fails_arrayCount hown _ _ _).bind fun _ =>
      ((fails_decodeItems (hdec _ _) _ _).atField f).bind fun _ => fails_ok _
  · exact (fails_selectTag hown _ _ _ _).bind fun _ => (hdec _ _ _).atField f

/-- The fields of a struct fail as one of them does. -/
theorem fails_decodeFields (hown : ∀ code ∈ decodeCodes, P code)
    (hdec : ∀ name tag input, Fails P (dec name tag input)) (name : Bytes) (tag : Option Json)
    (fields : List Field) : ∀ (object : Json) (input : Bytes),
      Fails P (decodeFields dec name tag object input fields) := by
  induction fields with
  | nil => exact fun _ _ => fails_ok _
  | cons f fields ih =>
    exact fun object input =>
      (fails_decodeField hown hdec name tag object input f).bind fun r => ih _ _

/-- A union fails on its own, or as the member that is selected does. -/
theorem fails_decodeUnion (hown : ∀ code ∈ decodeCodes, P code)
    (hdec : ∀ name tag input, Fails P (dec name tag input)) (name : Bytes) (fields : List Field)
    (tag : Option Json) (input : Bytes) :
    Fails P (decodeUnion cat dec name fields tag input) := by
  unfold decodeUnion
  by_cases hvariable : fixedSize cat levels name < 0 ∨ isVariable cat levels name = true
  · simp only [if_pos hvariable]
    exact fails_own hown (by decide)
  simp only [if_neg hvariable]
  cases memberOf fields tag with
  | none => exact fails_own hown (by decide)
  | some f =>
    by_cases hshort : input.length < (fixedSize cat levels name).toNat
    · simp only [if_pos hshort]
      exact fails_own hown (by decide)
    · simp only [if_neg hshort]
      exact (hdec _ _ _).bind fun _ => fails_ok _

/-- A number without a symbol. -/
theorem fails_enumSymbol (hown : ∀ code ∈ decodeCodes, P code) (values : List (Bytes × Int))
    (flags : Bool) (numeric : Json) : Fails P (enumSymbol values flags numeric) := by
  unfold enumSymbol
  cases enumBits numeric with
  | none => exact fails_own hown (by decide)
  | some bits =>
    simp only
    split_ifs
    · exact fails_ok _
    · exact fails_own hown (by decide)
    · split
      · exact fails_ok _
      · exact fails_own hown (by decide)

/-- Induction on the fuel, with one case for each kind of type. -/
theorem Codes.decode (h : Codes P native symbols) (fuel : Nat) :
    ∀ (name : Bytes) (tag : Option Json) (input : Bytes),
      Fails P (decode cat native symbols fuel name tag input) := by
  induction fuel with
  | zero => exact fun _ _ _ => fails_own h.own (by decide)
  | succ fuel ih =>
    intro name tag input
    rw [Schema.decode]
    split
    · exact h.decodeScalar _ _
    split
    · exact fails_own h.own (by decide)
    · exact ih _ _ _
    · exact (fails_decodeItems (ih _ _) _ _).bind fun _ => fails_ok _
    · exact (ih _ _ _).bind fun r => (fails_enumSymbol h.own _ _ _).bind fun _ => fails_ok _
    · exact fails_decodeUnion h.own ih _ _ _ _
    · exact (fails_decodeFields h.own ih _ _ _ _ _).bind fun _ => fails_ok _

/-- **The codes of a failed conversion** are those of the decoder, of the library functions and of
the resolver of interface names. -/
theorem Codes.Decode (h : Codes P native symbols) (type input : Bytes) :
    Fails P (Decode cat native symbols type input) := by
  have hdecode := @Codes.decode P native symbols cat h levels type none input
  unfold Schema.Decode
  generalize Schema.decode cat native symbols levels type none input = r at hdecode
  cases r with
  | error status => exact fails_error (hdecode status rfl)
  | ok result =>
    obtain ⟨value, rest⟩ := result
    cases rest with
    | nil => exact fails_ok _
    | cons c rest => exact fails_own h.own (by decide)

end

end Schema

end VppJson
