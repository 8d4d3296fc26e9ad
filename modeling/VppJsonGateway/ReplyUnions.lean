import VppJsonGateway.ReplyErrors

/-!
# Which replies the codec can decode

`Supported` decides from the schema which replies get a binding. `Convert` finds the member of a
union, and the length of a counted array, from values decoded before. `Refuses` says of a type that
these values can be such that there is no member or no number: it goes through the values the
fields of a struct have together. A supported reply is refused as an unsupported type by some
payload, other than for a next hop that is not IP, if and only if its type refuses.
-/

namespace VppJson.Schema

open Lib

/-! ## Values without a member -/

section Refuses

variable (cat : Catalog) (native : Native) (symbols : Symbols)

/-- A field cannot be decoded next to what an object holds, behind `n` octets of it: the counter of
an array is not there or is no number, or its type refuses with the tag the object gives it. -/
def FieldRefuses (refuses : Bytes → Option Json → Nat → Prop) (name : Bytes) (tag : Option Json)
    (object : Json) (f : Field) (n : Nat) : Prop :=
  if f.isFixedString then False
  else if f.type ≠ utf8 "string" ∧ f.length.isSome then
    (n = 0 ∧ ∃ counter, f.count = some counter ∧ (object.get? counter).bind counterValue = none) ∨
      ∃ count, arrayCount object f (f.length.getD 0) = .ok count ∧ 0 < count ∧ refuses f.type none n
  else ∃ selected, selectTag name tag object f = .ok selected ∧ refuses f.type selected n

/-- A type refuses with a tag, behind `n` octets: a union in it has no member for its tag, or an
array no number to count it. `Supported` does not look into the type an enum is made of (`inside`),
so there a type can also be unknown, or a union variable. -/
def Refuses (inside : Bool) : Nat → Bytes → Option Json → Nat → Prop
  | 0, _, _, _ => False
  | fuel + 1, name, tag, n =>
    match scalar? name with
    | some _ => False
    | none =>
      match cat name with
      | none => n = 0 ∧ inside = true ∧
          ¬ NonIp ⟨"unsupported_type", utf8 "Unknown schema type: " ++ name⟩
      | some (.alias type none) => Refuses inside fuel type tag n
      | some (.alias type (some count)) => 0 < count ∧ Refuses inside fuel type none n
      | some (.enum type _ _) => Refuses true fuel type none n
      | some (.union fields) =>
        if fixedSize cat levels name < 0 ∨ isVariable cat levels name then n = 0 ∧ inside = true
        else (memberOf fields tag = none ∧ n = 0) ∨
          ∃ f k, memberOf fields tag = some f ∧ Refuses inside fuel f.type none k ∧ k ≤ n ∧
            n = (fixedSize cat levels name).toNat
      | some (.struct fields) => ∃ before f after object k l, fields = before ++ f :: after ∧
          FieldsValue (HasValue cat native symbols fuel) name tag (.obj []) before object k ∧
          FieldRefuses (Refuses inside fuel) name tag object f l ∧ n = k + l

end Refuses

section Decode

variable {cat : Catalog} {native : Native} {symbols : Symbols}

/-! ## Layouts without variable unions -/

/-- The type is not variable, or `ReplyTail` found its tail. -/
def Laid (cat : Catalog) (name : Bytes) : Prop :=
  isVariable cat levels name = false ∨ ∃ fuel path, (replyTail cat fuel name path).isSome

/-- What does not vary with some levels does not with more. -/
theorem isVariable_mono : ∀ {fuel fuel' : Nat} {name : Bytes}, fuel ≤ fuel' →
    isVariable cat fuel name = false → isVariable cat fuel' name = false
  | 0, _, _, _, h => by cases h
  | fuel + 1, 0, _, hle, _ => by omega
  | fuel + 1, fuel' + 1, name, hle, h => by
    have hfields : ∀ {fields : List Field}, fieldsVariable (isVariable cat fuel) fields = false →
        fieldsVariable (isVariable cat fuel') fields = false := by
      intro fields hf
      rw [fieldsVariable, List.any_eq_false] at hf ⊢
      intro f hmem
      have hone := hf f hmem
      simp only [Bool.and_eq_true, Bool.or_eq_true, not_and, not_or, Bool.not_eq_true] at hone ⊢
      exact fun hfixed => ⟨(hone hfixed).1, isVariable_mono (by omega) (hone hfixed).2⟩
    simp only [isVariable] at h ⊢
    split at h
    · cases h
    · next hne =>
      rw [if_neg hne]
      cases hc : cat name with
      | none => rfl
      | some d =>
        simp only [hc] at h
        cases d with
        | «alias» type length => exact isVariable_mono (by omega) h
        | enum type values flags => rfl
        | struct fields => exact hfields h
        | union fields => exact hfields h

/-- A union that is laid out has a fixed size. -/
theorem Laid.union {name : Bytes} {fields : List Field} (h : Laid cat name)
    (hc : cat name = some (.union fields)) : isVariable cat levels name = false := by
  obtain h | ⟨fuel, path, h⟩ := h
  · exact h
  · cases fuel with
    | zero => cases h
    | succ fuel =>
      rw [replyTail] at h
      split at h
      · next hv => simpa using hv
      · simp only [hc] at h
        cases h

/-- The variable part of a type that is no primitive. -/
theorem isVariable_levels {name : Bytes} (hs : scalar? name = none) :
    isVariable cat levels name = match cat name with
      | none => false
      | some (.alias type _) => isVariable cat 32 type
      | some (.enum _ _ _) => false
      | some (.struct fields) => fieldsVariable (isVariable cat 32) fields
      | some (.union fields) => fieldsVariable (isVariable cat 32) fields := by
  have hne : name ≠ utf8 "string" := by
    rintro rfl
    rw [scalar?_string] at hs
    cases hs
  rw [levels, isVariable]
  refine (if_neg hne).trans ?_
  cases cat name with
  | none => rfl
  | some d => cases d <;> rfl

/-- What a name stands for is laid out, if the name is. -/
theorem Laid.alias {name type : Bytes} {length : Option Nat} (h : Laid cat name)
    (hs : scalar? name = none) (hc : cat name = some (.alias type length)) : Laid cat type := by
  have hsame : isVariable cat levels name = isVariable cat 32 type := by
    rw [isVariable_levels hs, hc]
  obtain h | ⟨fuel, path, h⟩ := h
  · exact .inl (isVariable_mono (by decide) (hsame ▸ h))
  · cases fuel with
    | zero => cases h
    | succ fuel =>
      rw [replyTail] at h
      split at h
      · next hv =>
        have hv' : isVariable cat 32 type = false := by
          rw [← hsame]
          simpa using hv
        exact .inl (isVariable_mono (by decide) hv')
      · simp only [hc] at h
        cases length with
        | none => exact .inr ⟨fuel, path, h⟩
        | some count => cases h

/-- The tail of a struct goes through its last field; the others do not vary. -/
theorem laid_of_fieldsTail {fuel : Nat} {path : List Bytes} : ∀ {fs before : List Field},
    (fieldsTail cat (replyTail cat fuel) path before fs).isSome →
    ∀ f ∈ fs, f.type ≠ utf8 "string" → Laid cat f.type := by
  intro fs
  induction fs with
  | nil => intro before _ f hf; cases hf
  | cons g fs ih =>
    intro before h f hf hstring
    rw [fieldsTail] at h
    split at h
    · next hv =>
      split at h
      · next hlast =>
        obtain rfl : fs = [] := by simpa using hlast
        obtain rfl : f = g := by simpa using hf
        unfold fieldTail at h
        dsimp only at h
        split at h
        · next h' => exact absurd h' hstring
        · split at h
          · exact .inr ⟨fuel, _, h⟩
          · split at h
            · cases h
            · split at h
              · cases h
              · next hnv => exact .inl (by simpa using hnv)
      · cases h
    · next hv =>
      rcases List.mem_cons.1 hf with rfl | hf
      · simp only [variableField, isFixedString_eq_false hstring, Bool.not_false, Bool.true_and,
          Bool.or_eq_true, not_or, Bool.not_eq_true] at hv
        exact .inl hv.2
      · exact ih h f hf hstring

/-- The fields of a type that is laid out are. -/
theorem Laid.fields {name : Bytes} {fields : List Field} (h : Laid cat name)
    (hs : scalar? name = none) (hc : cat name = some (.struct fields) ∨ cat name = some (.union fields))
    {f : Field} (hf : f ∈ fields) (hstring : f.type ≠ utf8 "string") : Laid cat f.type := by
  have hstatic : isVariable cat levels name = false → Laid cat f.type := by
    intro hv
    have hall : fieldsVariable (isVariable cat 32) fields = false := by
      rw [isVariable_levels hs] at hv
      rcases hc with hc | hc <;> simpa only [hc] using hv
    rw [fieldsVariable, List.any_eq_false] at hall
    have hone := hall f hf
    simp only [isFixedString_eq_false hstring, Bool.not_false, Bool.true_and, Bool.or_eq_true,
      not_or, Bool.not_eq_true] at hone
    exact .inl (isVariable_mono (by decide) hone.2)
  obtain h | ⟨fuel, path, h⟩ := h
  · exact hstatic h
  · cases fuel with
    | zero => cases h
    | succ fuel =>
      rw [replyTail] at h
      split at h
      · next hv => exact hstatic (by simpa using hv)
      · rcases hc with hc | hc
        · simp only [hc] at h
          exact laid_of_fieldsTail h f hf hstring
        · simp only [hc] at h
          cases h

/-! ## What is refused -/

section Sound

variable {dec : Bytes → Option Json → Bytes → Except Status (Json × Bytes)}
  {value : Bytes → Option Json → Json → Nat → Prop} {name : Bytes} {tag : Option Json} {e : Status}

/-- An array fails at one of its items. -/
theorem decodeItems_error {dec : Bytes → Except Status (Json × Bytes)}
    (hdec : ∀ input v rest, dec input = .ok (v, rest) → rest.length ≤ input.length) {count : Nat} :
    ∀ {input : Bytes}, decodeItems dec count input = .error e →
      0 < count ∧ ∃ input' : Bytes, input'.length ≤ input.length ∧ dec input' = .error e := by
  induction count with
  | zero => exact fun h => by cases h
  | succ count ih =>
    intro input h
    refine ⟨Nat.succ_pos _, ?_⟩
    rcases bind_eq_error.1 h with h | ⟨⟨v, rest⟩, hv, h⟩
    · exact ⟨input, le_rfl, h⟩
    rcases bind_eq_error.1 h with h | ⟨_, -, h⟩
    · obtain ⟨-, input', hle, herror⟩ := ih h
      exact ⟨input', hle.trans (hdec _ _ _ hv), herror⟩
    · cases h

/-- A struct fails at one of its fields, behind values of the others. -/
theorem decodeFields_error
    (hdec : ∀ type tag input v rest, dec type tag input = .ok (v, rest) →
      ∃ b, input = b ++ rest ∧ value type tag v b.length)
    {fs : List Field} : ∀ {object : Json} {input : Bytes},
      decodeFields dec name tag object input fs = .error e →
      ∃ before f after object' b rest, fs = before ++ f :: after ∧ input = b ++ rest ∧
        FieldsValue value name tag object before object' b.length ∧
        decodeField dec name tag object' rest f = .error e := by
  induction fs with
  | nil => exact fun h => by cases h
  | cons f fs ih =>
    intro object input h
    rcases bind_eq_error.1 h with h | ⟨⟨v, rest⟩, hv, h⟩
    · exact ⟨[], f, fs, object, [], input, rfl, rfl, ⟨rfl, rfl⟩, h⟩
    · obtain ⟨b, hb, hvalue⟩ := fieldValue_of_decode hdec hv
      obtain ⟨before, g, after, object', b', rest', hfs, hrest, hvalues, herror⟩ := ih h
      exact ⟨f :: before, g, after, object', b ++ b', rest', by rw [hfs]; rfl,
        by rw [hb, hrest, List.append_assoc],
        ⟨v, _, _, hvalue, hvalues, List.length_append⟩, herror⟩

/-- A field that fails so does by its count, or by its type at some octets that remain. -/
theorem fieldRefuses_of_decode {refuses : Bytes → Option Json → Nat → Prop} {f : Field}
    (hdec : ∀ type tag input v rest, dec type tag input = .ok (v, rest) →
      rest.length ≤ input.length)
    (hrefuses : ∀ tag input s, dec f.type tag input = .error s → ¬ Fine s →
      ∃ n ≤ input.length, refuses f.type tag n)
    {object : Json} {input : Bytes} (h : decodeField dec name tag object input f = .error e)
    (hfine : ¬ Fine e) : ∃ n ≤ input.length, FieldRefuses refuses name tag object f n := by
  unfold decodeField at h
  unfold FieldRefuses
  split at h
  · dsimp only at h
    split at h
    · cases h
      exact absurd (fine_invalid _) hfine
    · rcases bind_eq_error.1 h with h | ⟨_, -, h⟩
      · obtain ⟨s, hs, rfl⟩ := atField_eq_error.1 h
        exact absurd (fine_atField_iff.2 (fine_takeBytes hs)) hfine
      · cases h
  next hfixed =>
  simp only [if_neg hfixed]
  split at h
  · next harray =>
    simp only [if_pos harray]
    rcases bind_eq_error.1 h with h | ⟨count, hcount, h⟩
    · rcases arrayCount_error h with h | h
      · exact absurd h hfine
      · exact ⟨0, Nat.zero_le _, .inl ⟨rfl, h⟩⟩
    rcases bind_eq_error.1 h with h | ⟨_, -, h⟩
    · obtain ⟨s, hs, rfl⟩ := atField_eq_error.1 h
      obtain ⟨hpos, input', hle, herror⟩ := decodeItems_error (hdec _ _) hs
      obtain ⟨n, hn, hrefuse⟩ := hrefuses _ _ _ herror fun hs => hfine (fine_atField_iff.2 hs)
      exact ⟨n, hn.trans hle, .inr ⟨count, hcount, hpos, hrefuse⟩⟩
    · cases h
  · next harray =>
    simp only [if_neg harray]
    rcases bind_eq_error.1 h with h | ⟨selected, hselected, h⟩
    · exact absurd (fine_selectTag h) hfine
    · obtain ⟨s, hs, rfl⟩ := atField_eq_error.1 h
      obtain ⟨n, hn, hrefuse⟩ := hrefuses _ _ _ hs fun hs => hfine (fine_atField_iff.2 hs)
      exact ⟨n, hn, selected, hselected, hrefuse⟩

/-- `Supported` and `ReplyLayout` have looked into a type, or it is what an enum is made of. -/
def Checked (cat : Catalog) (inside : Bool) (fuel : Nat) (name : Bytes) : Prop :=
  inside = true ∨ name = utf8 "string" ∨ Laid cat name ∧ ∃ tagged, supported cat fuel name tagged = true

/-- A type the catalog does not have is not supported. -/
theorem isSome_of_supported {fuel : Nat} {tagged : Bool} (hs : scalar? name = none)
    (h : supported cat (fuel + 1) name tagged = true) :
    ¬ fixedSize cat levels name < 0 ∧ (cat name).isSome := by
  rw [supported] at h
  split at h
  · cases h
  next hsize =>
  refine ⟨hsize, ?_⟩
  cases hc : cat name with
  | some d => rfl
  | none =>
    exfalso
    have hprim : primitiveSize? name = none := by
      by_contra hp
      obtain ⟨n, hn⟩ := Option.ne_none_iff_exists'.1 hp
      obtain ⟨s, hs', -⟩ := scalar?_of_primitiveSize? hn
      rw [hs'] at hs
      cases hs
    rw [levels, fixedSize, hprim, hc] at hsize
    exact hsize (show (-1 : Int) < 0 by decide)

section

variable {inside : Bool} {fuel : Nat}

/-- The fields of a struct or a union are looked into with it. -/
theorem Checked.field {fields : List Field} (h : Checked cat inside (fuel + 1) name)
    (hs : scalar? name = none)
    (hc : cat name = some (.struct fields) ∨ cat name = some (.union fields)) {f : Field}
    (hf : f ∈ fields) : Checked cat inside fuel f.type := by
  rcases h with h | rfl | ⟨hlaid, tagged, hsup⟩
  · exact .inl h
  · rw [scalar?_string] at hs
    cases hs
  · by_cases hstring : f.type = utf8 "string"
    · exact .inr (.inl hstring)
    refine .inr (.inr ⟨hlaid.fields hs hc hf hstring, ?_⟩)
    rw [supported, if_neg (isSome_of_supported hs hsup).1] at hsup
    rcases hc with hc | hc
    · rw [hc] at hsup
      exact ⟨_, List.all_eq_true.1 hsup f hf⟩
    · simp only [hc, Bool.and_eq_true] at hsup
      have hone := List.all_eq_true.1 hsup.2 f hf
      rw [Bool.and_eq_true] at hone
      exact ⟨_, hone.2⟩

/-- What a name stands for was checked, if the name was. -/
theorem Checked.alias {type : Bytes} {length : Option Nat} (h : Checked cat inside (fuel + 1) name)
    (hs : scalar? name = none) (hc : cat name = some (.alias type length)) :
    Checked cat inside fuel type := by
  rcases h with h | rfl | ⟨hlaid, tagged, hsup⟩
  · exact .inl h
  · rw [scalar?_string] at hs
    cases hs
  · rw [supported, if_neg (isSome_of_supported hs hsup).1, hc] at hsup
    exact .inr (.inr ⟨hlaid.alias hs hc, false, hsup⟩)

/-- Outside the checked types, every name is known. -/
theorem Checked.known (h : Checked cat inside (fuel + 1) name) (hs : scalar? name = none)
    (hc : cat name = none) : inside = true := by
  rcases h with h | rfl | ⟨-, tagged, hsup⟩
  · exact h
  · rw [scalar?_string] at hs
    cases hs
  · have hsome := (isSome_of_supported hs hsup).2
    rw [hc] at hsome
    cases hsome

/-- Outside the checked types, no union varies in size. -/
theorem Checked.union {fields : List Field} (h : Checked cat inside (fuel + 1) name)
    (hs : scalar? name = none) (hc : cat name = some (.union fields))
    (hvariable : fixedSize cat levels name < 0 ∨ isVariable cat levels name = true) :
    inside = true := by
  rcases h with h | rfl | ⟨hlaid, tagged, hsup⟩
  · exact h
  · rw [scalar?_string] at hs
    cases hs
  · rcases hvariable with hsize | hvariable
    · exact absurd hsize (isSome_of_supported hs hsup).1
    · rw [hlaid.union hc] at hvariable
      cases hvariable

end

/-- Decoding leaves no more than was there. -/
theorem length_of_decode {fuel : Nat} {type input rest : Bytes} {tag : Option Json} {v : Json}
    (h : decode cat native symbols fuel type tag input = .ok (v, rest)) :
    rest.length ≤ input.length := by
  obtain ⟨b, rfl, -⟩ := hasValue_of_decode h
  rw [List.length_append]
  omega

/-- A type that a payload refuses, refuses. -/
theorem refuses_of_decode (hr : Resolves native symbols) : ∀ {inside : Bool} {fuel : Nat}
    {name input : Bytes} {tag : Option Json} {e : Status}, Checked cat inside fuel name →
      decode cat native symbols fuel name tag input = .error e → ¬ Fine e →
      ∃ n ≤ input.length, Refuses cat native symbols inside fuel name tag n
  | _, 0, _, _, _, _, _, h, hfine => by
    cases h
    exact absurd (fine_invalid _) hfine
  | inside, fuel + 1, name, input, tag, e, hchecked, h, hfine => by
    have ih : ∀ {inside type}, Checked cat inside fuel type → ∀ tag input s,
        decode cat native symbols fuel type tag input = .error s → ¬ Fine s →
        ∃ n ≤ input.length, Refuses cat native symbols inside fuel type tag n :=
      fun hchecked _ _ _ h hfine => refuses_of_decode hr hchecked h hfine
    rw [decode] at h
    simp only [Refuses]
    cases hs : scalar? name with
    | some s =>
      simp only [hs] at h
      exact absurd (fine_decodeScalar hr h) hfine
    | none =>
      simp only [hs] at h
      cases hc : cat name with
      | none =>
        simp only [hc] at h
        cases h
        exact ⟨0, Nat.zero_le _, rfl, hchecked.known hs hc, fun h => hfine fun _ => h⟩
      | some d =>
        simp only [hc] at h
        cases d with
        | «alias» type length =>
          have hnext := hchecked.alias hs hc
          cases length with
          | none => exact ih hnext _ _ _ h hfine
          | some count =>
            rcases bind_eq_error.1 h with h | ⟨_, -, h⟩
            · obtain ⟨hpos, input', hle, herror⟩ :=
                decodeItems_error (fun _ _ _ => length_of_decode) h
              obtain ⟨n, hn, hrefuse⟩ := ih hnext _ _ _ herror hfine
              exact ⟨n, hn.trans hle, hpos, hrefuse⟩
            · cases h
        | enum type values flags =>
          rcases bind_eq_error.1 h with h | ⟨_, -, h⟩
          · exact ih (.inl rfl) _ _ _ h hfine
          rcases bind_eq_error.1 h with h | ⟨_, -, h⟩
          · exact absurd (fine_enumSymbol h) hfine
          · cases h
        | struct fields =>
          rcases bind_eq_error.1 h with h | ⟨_, -, h⟩
          · have hvalue : ∀ type tag input v rest,
                decode cat native symbols fuel type tag input = .ok (v, rest) → ∃ b,
                  input = b ++ rest ∧ HasValue cat native symbols fuel type tag v b.length :=
              fun _ _ _ _ _ => hasValue_of_decode
            obtain ⟨before, f, after, object, b, rest, hfields, rfl, hvalues, herror⟩ :=
              decodeFields_error hvalue h
            have hmem : f ∈ fields := by
              rw [hfields]
              exact List.mem_append_right _ List.mem_cons_self
            obtain ⟨n, hn, hrefuse⟩ := fieldRefuses_of_decode
              (fun _ _ _ _ _ => length_of_decode) (ih (hchecked.field hs (.inl hc) hmem)) herror hfine
            refine ⟨b.length + n, by rw [List.length_append]; omega, before, f, after, object,
              b.length, n, hfields, hvalues, hrefuse, rfl⟩
          · cases h
        | union fields =>
          dsimp only [decodeUnion] at h
          split at h
          · next hvariable =>
            simp only [if_pos hvariable]
            exact ⟨0, Nat.zero_le _, rfl, hchecked.union hs hc hvariable⟩
          next hstatic =>
          simp only [if_neg hstatic]
          split at h
          · next hnone => exact ⟨0, Nat.zero_le _, .inl ⟨hnone, rfl⟩⟩
          next f hf =>
          split at h
          · cases h
            exact absurd (fine_of_code (by decide)) hfine
          next hsize =>
          rcases bind_eq_error.1 h with h | ⟨_, -, h⟩
          · have hmem : f ∈ fields := List.mem_reverse.1 (List.mem_of_find?_eq_some hf)
            obtain ⟨n, hn, hrefuse⟩ := ih (hchecked.field hs (.inr hc) hmem) _ _ _ h hfine
            rw [List.length_take] at hn
            exact ⟨_, not_lt.1 hsize, .inr ⟨f, n, hf, hrefuse, by omega, rfl⟩⟩
          · cases h

end Sound

section Complete

variable {dec : Bytes → Option Json → Bytes → Except Status (Json × Bytes)} {name : Bytes}
  {tag : Option Json}

/-- The octets refuse a type, whatever is behind them. -/
def Rejects {α : Type} (dec : Bytes → Except Status (α × Bytes)) (n : Nat) : Prop :=
  ∃ b : Bytes, b.length = n ∧ ∀ rest, ∃ e, dec (b ++ rest) = .error e ∧ ¬ Fine e

/-- An array with an element fails so, if its elements do. -/
theorem Rejects.items {dec : Bytes → Except Status (Json × Bytes)} {n count : Nat}
    (h : Rejects dec n) (hpos : 0 < count) : Rejects (decodeItems dec count) n := by
  obtain ⟨b, hb, herror⟩ := h
  obtain ⟨count, rfl⟩ := Nat.exists_eq_succ_of_ne_zero hpos.ne'
  refine ⟨b, hb, fun rest => ?_⟩
  obtain ⟨e, he, hfine⟩ := herror rest
  exact ⟨e, bind_eq_error.2 (.inl he), hfine⟩

/-- Naming the field of an error keeps its code. -/
theorem Rejects.atField {α : Type} {dec : Bytes → Except Status (α × Bytes)} {n : Nat} (f : Field)
    (h : Rejects dec n) : Rejects (fun input => Schema.atField f (dec input)) n := by
  obtain ⟨b, hb, herror⟩ := h
  refine ⟨b, hb, fun rest => ?_⟩
  obtain ⟨e, he, hfine⟩ := herror rest
  exact ⟨_, atField_eq_error.2 ⟨e, he, rfl⟩, fun h => hfine (fine_atField_iff.1 h)⟩

/-- A field that refuses has octets that are rejected so. -/
theorem rejects_field {refuses : Bytes → Option Json → Nat → Prop} {f : Field}
    (hrefuses : ∀ tag n, refuses f.type tag n → Rejects (dec f.type tag) n) {object : Json} {n : Nat}
    (h : FieldRefuses refuses name tag object f n) :
    Rejects (fun input => decodeField dec name tag object input f) n := by
  unfold FieldRefuses at h
  unfold decodeField
  split at h
  · exact h.elim
  next hfixed =>
  simp only [if_neg hfixed]
  split at h
  · next harray =>
    simp only [if_pos harray]
    rcases h with ⟨rfl, counter, hcounter, hnone⟩ | ⟨count, hcount, hpos, hrefuse⟩
    · refine ⟨[], rfl, fun rest => ⟨⟨"unsupported_type", "Array count must precede its array"⟩,
        bind_eq_error.2 (.inl ?_), not_fine_of_text (by decide)⟩⟩
      simp only [arrayCount, hcounter, hnone]
    · obtain ⟨b, hb, herror⟩ := ((hrefuses _ _ hrefuse).items hpos).atField f
      refine ⟨b, hb, fun rest => ?_⟩
      obtain ⟨e, he, hfine⟩ := herror rest
      exact ⟨e, bind_eq_error.2 (.inr ⟨count, hcount, bind_eq_error.2 (.inl he)⟩), hfine⟩
  · next harray =>
    simp only [if_neg harray]
    obtain ⟨selected, hselected, hrefuse⟩ := h
    obtain ⟨b, hb, herror⟩ := (hrefuses _ _ hrefuse).atField f
    refine ⟨b, hb, fun rest => ?_⟩
    obtain ⟨e, he, hfine⟩ := herror rest
    exact ⟨e, bind_eq_error.2 (.inr ⟨selected, hselected, he⟩), hfine⟩

/-- A type that refuses is refused by a payload. -/
theorem rejects_of_refuses : ∀ {inside : Bool} {fuel : Nat} {name : Bytes} {tag : Option Json}
    {n : Nat}, Refuses cat native symbols inside fuel name tag n →
      Rejects (decode cat native symbols fuel name tag) n
  | _, 0, _, _, _, h => h.elim
  | inside, fuel + 1, name, tag, n, h => by
    have ih : ∀ {inside} type tag n, Refuses cat native symbols inside fuel type tag n →
        Rejects (decode cat native symbols fuel type tag) n := fun _ _ _ => rejects_of_refuses
    simp only [Refuses] at h
    unfold Rejects
    simp only [decode]
    cases hs : scalar? name with
    | some s => simp only [hs] at h
    | none =>
      simp only [hs] at h
      cases hc : cat name with
      | none =>
        simp only [hc] at h
        obtain ⟨rfl, -, hnot⟩ := h
        exact ⟨[], rfl, fun rest => ⟨_, rfl, fun h => hnot (h rfl)⟩⟩
      | some d =>
        simp only [hc] at h
        cases d with
        | «alias» type length =>
          cases length with
          | none => exact ih _ _ _ h
          | some count =>
            obtain ⟨b, hb, herror⟩ := (ih _ _ _ h.2).items h.1
            refine ⟨b, hb, fun rest => ?_⟩
            obtain ⟨e, he, hfine⟩ := herror rest
            exact ⟨e, bind_eq_error.2 (.inl he), hfine⟩
        | enum type values flags =>
          obtain ⟨b, hb, herror⟩ := ih _ _ _ h
          refine ⟨b, hb, fun rest => ?_⟩
          obtain ⟨e, he, hfine⟩ := herror rest
          exact ⟨e, bind_eq_error.2 (.inl he), hfine⟩
        | struct fields =>
          obtain ⟨before, f, after, object, k, l, rfl, hvalues, hrefuse, rfl⟩ := h
          have hdec : ∀ type tag v n, HasValue cat native symbols fuel type tag v n →
              ∃ b : Bytes, b.length = n ∧
                ∀ rest, decode cat native symbols fuel type tag (b ++ rest) = .ok (v, rest) :=
            fun _ _ _ _ => decode_of_hasValue
          obtain ⟨b, hb, hdecode⟩ := decode_of_fieldsValue hdec hvalues
          obtain ⟨b', hb', herror⟩ := rejects_field (fun tag n => ih f.type tag n) hrefuse
          refine ⟨b ++ b', by rw [List.length_append, hb, hb'], fun rest => ?_⟩
          obtain ⟨e, he, hfine⟩ := herror rest
          refine ⟨e, bind_eq_error.2 (.inl ?_), hfine⟩
          rw [List.append_assoc, hdecode]
          exact bind_eq_error.2 (.inl he)
        | union fields =>
          dsimp only [decodeUnion]
          dsimp only at h
          split at h
          · next hvariable =>
            obtain ⟨rfl, -⟩ := h
            exact ⟨[], rfl, fun rest => ⟨⟨"unsupported_type", "Variable union unsupported"⟩,
              if_pos hvariable, not_fine_of_text (by decide)⟩⟩
          next hstatic =>
          simp only [if_neg hstatic]
          rcases h with ⟨hnone, rfl⟩ | ⟨f, k, hf, hrefuse, hk, rfl⟩
          · rw [hnone]
            exact ⟨[], rfl, fun rest => ⟨⟨"unsupported_type",
              "Reply union needs an explicit discriminator"⟩, rfl, not_fine_of_text (by decide)⟩⟩
          · obtain ⟨b, rfl, herror⟩ := ih _ _ _ hrefuse
            -- the member is refused within the octets of the union
            have hlength : (b ++ List.replicate ((fixedSize cat levels name).toNat - b.length)
                (0 : UInt8)).length = (fixedSize cat levels name).toNat := by
              rw [List.length_append, List.length_replicate]
              omega
            refine ⟨_, hlength, fun rest => ?_⟩
            obtain ⟨e, he, hfine⟩ := herror
              (List.replicate ((fixedSize cat levels name).toNat - b.length) 0)
            refine ⟨e, ?_, hfine⟩
            rw [hf]
            dsimp only
            rw [if_neg (by rw [List.length_append, hlength]; omega), List.take_left' hlength]
            exact bind_eq_error.2 (.inl he)

end Complete

/-- A supported type that `Decode` refuses, refuses. -/
theorem refuses_of_Decode {type b : Bytes} {e : Status} (hr : Resolves native symbols)
    (hsup : supported cat levels type false = true) (hlayout : replyLayout cat type = true)
    (h : Decode cat native symbols type b = .error e) (hfine : ¬ Fine e) :
    ∃ n, Refuses cat native symbols false levels type none n := by
  unfold Decode at h
  split at h
  · next s hs =>
    cases h
    obtain ⟨n, -, hrefuse⟩ := refuses_of_decode hr
      (.inr (.inr ⟨.inr ⟨levels, [], hlayout⟩, false, hsup⟩)) hs hfine
    exact ⟨n, hrefuse⟩
  · cases h
  · cases h
    exact absurd (fine_of_code (by decide)) hfine

end Decode

/-! ## Unions in arrays -/

/-- A union with a member for each symbol of an enum, and two replies: one holds both, the other
an array of the union. -/
def choices : Catalog := fun name =>
  if name = utf8 "vl_api_kind_t" then some (.enum "u8" [("A", 0), ("B", 1)] false)
  else if name = utf8 "vl_api_choice_t" then
    some (.union [{ name := "a", type := "u8", caseName := some "A" },
      { name := "b", type := "u16", caseName := some "B" }])
  else if name = utf8 "choice_details" then
    some (.struct [{ name := "kind", type := "vl_api_kind_t" },
      { name := "value", type := "vl_api_choice_t", discriminator := some "kind" }])
  else if name = utf8 "choices_details" then
    some (.struct [{ name := "kind", type := "vl_api_kind_t" },
      { name := "values", type := "vl_api_choice_t", length := some 2,
        discriminator := some "kind" }])
  else none

/-- An enum over an alias, with a value that no octet holds, and a reply with a union that has a
member for the other value only. -/
def narrowed : Catalog := fun name =>
  if name = utf8 "vl_api_octet_t" then some (.alias "u8" none)
  else if name = utf8 "vl_api_kind_t" then
    some (.enum "vl_api_octet_t" [("A", 0), ("B", 300)] false)
  else if name = utf8 "vl_api_choice_t" then
    some (.union [{ name := "a", type := "u8", caseName := some "A" }])
  else if name = utf8 "choice_details" then
    some (.struct [{ name := "kind", type := "vl_api_kind_t" },
      { name := "value", type := "vl_api_choice_t", discriminator := some "kind" }])
  else none

/-- The kind is the symbol of the union's only member. -/
theorem kind_narrowed {fuel n : Nat} {tag : Option Json} {v : Json}
    (h : HasValue narrowed Native.plain {} (fuel + 3) "vl_api_kind_t" tag v n) : v = .str "A" := by
  have hoctet : scalar? (utf8 "vl_api_octet_t") = none := by decide +kernel
  have hu8 : scalar? (utf8 "u8") = some (.int false 1) := by decide +kernel
  simp only [HasValue, show scalar? (utf8 "vl_api_kind_t") = none by decide +kernel,
    show narrowed "vl_api_kind_t" = some (.enum "vl_api_octet_t" [("A", 0), ("B", 300)] false)
      from rfl, hoctet, show narrowed "vl_api_octet_t" = some (.alias "u8" none) from rfl, hu8] at h
  obtain ⟨numeric, hnumeric, hsymbol⟩ := h
  cases hnumeric with
  | @int _ _ data hlength =>
    have hlt : leNat data < 256 := by
      have := leNat_lt data
      rwa [hlength] at this
    change enumSymbol _ false (.uint (leNat data : Int).toNat) = _ at hsymbol
    rw [Int.toNat_natCast] at hsymbol
    generalize leNat data = k at hlt hsymbol
    by_cases hk : k = 0
    · subst hk
      cases hsymbol
      rfl
    · exfalso
      have hfind : ([(utf8 "A", (0 : Int)), (utf8 "B", 300)].find? fun kv =>
          sameNumber kv.2 (.uint k) || (decide (0 ≤ kv.2) && decide (kv.2.toNat = k))) = none := by
        refine List.find?_eq_none.2 fun kv hkv => ?_
        rcases List.mem_cons.1 hkv with rfl | hkv
        · simp [sameNumber]
          omega
        · obtain rfl := List.mem_singleton.1 hkv
          simp [sameNumber]
          omega
      simp only [enumSymbol, enumBits] at hsymbol
      rw [if_neg Bool.false_ne_true] at hsymbol
      rw [show ([(utf8 "A", (0 : Int)), (utf8 "B", 300)].find? _) = none from hfind] at hsymbol
      cases hsymbol

end VppJson.Schema
