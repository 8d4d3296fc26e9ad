import VppJsonGateway.ReplyValues

/-!
# Errors that refuse no type

A status is `Fine` where its code is not `unsupported_type`, or where it is the documented one of a
next hop that is not IP. What `Convert` fails with outside unions and counted arrays is fine, and
the fields around a failure do not change that.
-/

namespace VppJson.Schema

open Lib

/-- The error of a next hop that is not IP, with the fields around it. -/
def NonIp (s : Status) : Prop := ∃ fields : Bytes,
  s.message = fields ++ utf8 "Non-IP FIB next-hop address requires a dedicated adapter"

/-- A status refuses no type, but for a next hop that is not IP. -/
def Fine (s : Status) : Prop := s.code = utf8 "unsupported_type" → NonIp s

/-- A status with another code. -/
theorem fine_of_code {s : Status} (h : s.code ≠ utf8 "unsupported_type") : Fine s :=
  fun h' => absurd h' h

/-- A status of `Invalid`. -/
theorem fine_invalid (message : Bytes) : Fine (invalid message) :=
  fine_of_code (show utf8 "invalid_params" ≠ _ by decide)

/-- Two conversions in sequence fail where the first does, or the second on its result. -/
theorem bind_eq_error {α β : Type} {x : Except Status α} {f : α → Except Status β} {e : Status} :
    (x >>= f) = .error e ↔ x = .error e ∨ ∃ a, x = .ok a ∧ f a = .error e := by
  cases x with
  | error e' => simp [bind, Except.bind]
  | ok a => simp [bind, Except.bind]

/-- Naming the field of an error keeps its code. -/
theorem atField_eq_error {α : Type} {f : Field} {x : Except Status α} {e : Status} :
    atField f x = .error e ↔
      ∃ s, x = .error s ∧ e = ⟨s.code, f.name ++ utf8 ": " ++ s.message⟩ := by
  cases x with
  | ok a => simp [atField]
  | error s => simp [atField, eq_comm]

/-- The message of a next hop that is not IP has no colon, so it is not part of a field's name. -/
theorem nonIp_of_prefixed {name : Bytes} {s : Status}
    (h : NonIp ⟨s.code, name ++ utf8 ": " ++ s.message⟩) : NonIp s := by
  obtain ⟨fields, hfields⟩ := h
  have hlong : utf8 "Non-IP FIB next-hop address requires a dedicated adapter" <:+
      name ++ (58 :: 32 :: s.message) :=
    ⟨fields, by rw [← hfields, List.append_assoc]; rfl⟩
  have hhead : ∀ c message, (c = 58 ∨ c = 32) →
      utf8 "Non-IP FIB next-hop address requires a dedicated adapter" ≠ c :: message := by
    intro c message hc heq
    have hfirst : some 78 = some c := congrArg List.head? heq
    rcases hc with rfl | rfl
    · exact absurd hfirst (by decide)
    · exact absurd hfirst (by decide)
  rcases List.suffix_or_suffix_of_suffix hlong (List.suffix_append name _) with h | h
  · rcases List.suffix_cons_iff.1 h with h | h
    · exact absurd h (hhead _ _ (.inl rfl))
    rcases List.suffix_cons_iff.1 h with h | ⟨t, ht⟩
    · exact absurd h (hhead _ _ (.inr rfl))
    · exact ⟨t, ht.symm⟩
  · exact absurd (h.subset List.mem_cons_self) (by decide)

/-- A field around a status does not change what it refuses. -/
theorem fine_atField_iff {f : Field} {s : Status} :
    Fine ⟨s.code, f.name ++ utf8 ": " ++ s.message⟩ ↔ Fine s := by
  refine ⟨fun h hcode => nonIp_of_prefixed (h hcode), fun h hcode => ?_⟩
  obtain ⟨fields, hfields⟩ := h hcode
  exact ⟨f.name ++ utf8 ": " ++ fields, by simp [hfields]⟩

/-- A status whose text ends otherwise refuses a type. -/
theorem not_fine_of_text {message : Bytes}
    (h : ¬ utf8 "adapter" <:+ message) : ¬ Fine ⟨"unsupported_type", message⟩ := by
  intro hfine
  obtain ⟨fields, hfields⟩ := hfine rfl
  refine h (List.IsSuffix.trans ?_ ⟨fields, hfields.symm⟩)
  exact ⟨utf8 "Non-IP FIB next-hop address requires a dedicated ", by decide⟩

/-- A payload that is too short. -/
theorem fine_takeBytes {count : Nat} {input : Bytes} {e : Status}
    (h : takeBytes count input = .error e) : Fine e := by
  unfold takeBytes at h
  split at h
  · cases h
    exact fine_of_code (by decide)
  · cases h

/-- What is assumed of the resolver of interface names and of the C library: they refuse no type
themselves. -/
structure Resolves (native : Native) (symbols : Symbols) : Prop where
  name : ∀ {resolve}, symbols.interfaceName = some resolve → ∀ {index e},
    resolve index = .error e → e.code ≠ utf8 "unsupported_type"
  float : ∀ {width data e}, native.floatValue width data = .error e →
    e.code ≠ utf8 "unsupported_type"

section Decode

variable {cat : Catalog} {native : Native} {symbols : Symbols}

/-- The resolver of interface names. -/
theorem fine_interfaceName (hr : Resolves native symbols) {index : UInt32} {e : Status}
    (h : interfaceName symbols index = .error e) : Fine e := by
  unfold interfaceName at h
  split at h
  · cases h
  · split at h
    · cases h
      exact fine_of_code (by decide)
    · next resolve hresolve => exact fine_of_code (hr.name hresolve h)

/-- Scalars are never of an unsupported type. -/
theorem fine_decodeScalar (hr : Resolves native symbols) {s : Scalar} {input : Bytes} {e : Status}
    (h : decodeScalar native symbols input s = .error e) : Fine e := by
  cases s with
  | int signed width =>
    rcases bind_eq_error.1 h with h | ⟨_, -, h⟩
    · exact fine_takeBytes h
    · cases h
  | float width =>
    rcases bind_eq_error.1 h with h | ⟨_, -, h⟩
    · exact fine_takeBytes h
    rcases bind_eq_error.1 h with h | ⟨_, -, h⟩
    · exact fine_of_code (hr.float h)
    · cases h
  | bool =>
    rcases bind_eq_error.1 h with h | ⟨_, -, h⟩
    · exact fine_takeBytes h
    dsimp only at h
    split at h
    · cases h
      exact fine_of_code (by decide)
    · cases h
  | string =>
    rcases bind_eq_error.1 h with h | ⟨_, -, h⟩
    · exact fine_takeBytes h
    dsimp only at h
    split at h
    · cases h
      exact fine_of_code (by decide)
    rcases bind_eq_error.1 h with h | ⟨_, -, h⟩
    · exact fine_takeBytes h
    · cases h
  | interface =>
    rcases bind_eq_error.1 h with h | ⟨_, -, h⟩
    · exact fine_takeBytes h
    rcases bind_eq_error.1 h with h | ⟨_, -, h⟩
    · exact fine_interfaceName hr h
    · cases h
  | ip4 =>
    rcases bind_eq_error.1 h with h | ⟨_, -, h⟩
    · exact fine_takeBytes h
    dsimp only at h
    split at h
    · cases h
    · cases h
      exact fine_of_code (by decide)
  | ip6 =>
    rcases bind_eq_error.1 h with h | ⟨_, -, h⟩
    · exact fine_takeBytes h
    dsimp only at h
    split at h
    · cases h
    · cases h
      exact fine_of_code (by decide)
  | mac =>
    rcases bind_eq_error.1 h with h | ⟨_, -, h⟩
    · exact fine_takeBytes h
    · cases h

/-- Enums are never of an unsupported type. -/
theorem fine_enumSymbol {values : List (Bytes × Int)} {flags : Bool} {numeric : Json} {e : Status}
    (h : enumSymbol values flags numeric = .error e) : Fine e := by
  unfold enumSymbol at h
  split at h
  · cases h
    exact fine_of_code (by decide)
  split at h
  · dsimp only at h
    split at h
    · cases h
    · cases h
      exact fine_of_code (by decide)
  · split at h
    · cases h
    · cases h
      exact fine_of_code (by decide)

/-- A discriminator that selects no case. -/
theorem fine_selectTag {name : Bytes} {tag : Option Json} {object : Json} {f : Field} {e : Status}
    (h : selectTag name tag object f = .error e) : Fine e := by
  simp only [selectTag] at h
  cases tag with
  | none => cases h
  | some t =>
    dsimp only at h
    split at h
    · split at h
      · cases h
      · split at h
        · cases h
        · cases h
          exact fun _ => ⟨[], rfl⟩
    · cases h

/-- The count of an array is of an unsupported type only where its counter is no number before
it. -/
theorem arrayCount_error {object : Json} {f : Field} {length : Nat} {e : Status}
    (h : arrayCount object f length = .error e) : Fine e ∨
      ∃ counter, f.count = some counter ∧ (object.get? counter).bind counterValue = none := by
  unfold arrayCount at h
  dsimp only at h
  split at h
  · next hnone =>
    cases hc : f.count with
    | none =>
      rw [hc] at hnone
      cases hnone
    | some counter =>
      rw [hc] at hnone
      exact .inr ⟨counter, rfl, hnone⟩
  · split at h
    · cases h
      exact .inl (fine_invalid _)
    · cases h

end Decode

end VppJson.Schema
