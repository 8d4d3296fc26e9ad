import VppJsonGateway.ReplyUnions

/-!
# Replies that select

`Refuses` asks which values the fields of a struct can have together. `Selects` is a coarser test
of a type, which takes each field by itself: it follows which values a field can hold, as `Convert`
hands them down. A type that selects does not refuse.
-/

namespace VppJson.Schema

open Lib

/-! ## The values of a field -/

section Values

variable (cat : Catalog)

/-- The type at the end of a chain of aliases of no length. -/
def endType : Nat → Bytes → Bytes
  | 0, name => name
  | fuel + 1, name =>
    if (scalar? name).isSome then name
    else
      match cat name with
      | some (.alias type none) => endType fuel type
      | _ => name

/-- What a value of a type can be: a number, a symbol of the enum, or anything. -/
def valuesOf (name : Bytes) : Set Json :=
  match scalar? name, cat name with
  | some (.int _ width), _ => { v | width = 8 ∨ (counterValue v).isSome }
  | none, some (.enum _ values flags) => { v | ∃ n, enumSymbol values flags n = .ok v }
  | _, _ => Set.univ

/-- A field holds one value of its type. -/
def Field.isPlain (f : Field) : Bool :=
  !f.isFixedString && !(f.type ≠ utf8 "string" ∧ f.length.isSome)

/-- What the object of the fields `before` can hold at a key; none where it holds nothing. -/
def valueAt (fuel : Nat) (before : List Field) (key : Bytes) : Option (Set Json) :=
  (before.reverse.find? (·.name = key)).map fun g =>
    if Field.isPlain g then valuesOf cat (endType cat fuel g.type) else Set.univ

/-- The tags that go with a field of a struct that itself has one of the tags `tags`. -/
def fieldTags (fuel : Nat) (name : Bytes) (tags : Option (Set Json)) (before : List Field)
    (f : Field) : Option (Set Json) :=
  let selected :=
    if name = utf8 "vl_api_fib_path_t" ∧ f.name = utf8 "nh" then valueAt cat fuel before "proto"
    else if discriminator f ≠ [] then valueAt cat fuel before (discriminator f)
    else none
  match tags with
  | none => selected
  | some S =>
    if name = utf8 "vl_api_fib_path_nh_t" ∧ f.name = utf8 "address" then
      some { v | ∃ t ∈ S, (t.str? = some (utf8 "FIB_API_PATH_NH_PROTO_IP4") ∧ v = .str "ADDRESS_IP4") ∨
        (t.str? = some (utf8 "FIB_API_PATH_NH_PROTO_IP6") ∧ v = .str "ADDRESS_IP6") }
    else selected

/-- A field after the fields `before`: the counter of an array is there and is a number, and the
type selects with the tags that go with the field. -/
def fieldSelects (fuel : Nat) (sel : Bytes → Option (Set Json) → Prop) (name : Bytes)
    (tags : Option (Set Json)) (before : List Field) (f : Field) : Prop :=
  if f.isFixedString then True
  else if f.type ≠ utf8 "string" ∧ f.length.isSome then
    (∀ counter, f.count = some counter →
      ∃ S, valueAt cat fuel before counter = some S ∧ ∀ v ∈ S, (counterValue v).isSome) ∧
    (f.count = none ∧ f.length = some 0 ∨ sel f.type none)
  else sel f.type (fieldTags cat fuel name tags before f)

/-- The fields of a struct, after the fields `before`. -/
def fieldsSelect (fuel : Nat) (sel : Bytes → Option (Set Json) → Prop) (name : Bytes)
    (tags : Option (Set Json)) : List Field → List Field → Prop
  | _, [] => True
  | before, f :: fs => fieldSelects cat fuel sel name tags before f ∧
      fieldsSelect fuel sel name tags (before ++ [f]) fs

/-- Every union a value of the type reaches has a tag, and a member for every tag it can have;
every counted array has a number to count it; enums are made of scalars. -/
def Selects : Nat → Bytes → Option (Set Json) → Prop
  | 0, _, _ => True
  | fuel + 1, name, tags =>
    match scalar? name, cat name with
    | some _, _ => True
    | none, none => True
    | none, some (.alias type none) => Selects fuel type tags
    | none, some (.alias type (some count)) => count = 0 ∨ Selects fuel type none
    | none, some (.enum type _ _) => (scalar? (endType cat fuel type)).isSome
    | none, some (.union fields) => ∃ S, tags = some S ∧
        ∀ t ∈ S, ∃ f, memberOf fields (some t) = some f ∧ Selects fuel f.type none
    | none, some (.struct fields) => fieldsSelect cat fuel (Selects fuel) name tags [] fields

end Values

section

variable {cat : Catalog} {native : Native} {symbols : Symbols}

/-! ## What the fields before have left -/

/-- A value of a type is one of those the end of its aliases can have. -/
theorem mem_valuesOf : ∀ {fuel : Nat} {name : Bytes} {tag : Option Json} {v : Json} {n : Nat},
    HasValue cat native symbols fuel name tag v n → v ∈ valuesOf cat (endType cat fuel name)
  | 0, _, _, _, _, h => h.elim
  | fuel + 1, name, tag, v, n, h => by
    simp only [HasValue] at h
    rw [endType]
    cases hs : scalar? name with
    | some s =>
      simp only [hs] at h
      rw [if_pos (Option.isSome_some), valuesOf, hs]
      cases h with
      | @int signed width data hlength =>
        change n = 8 ∨ (counterValue (intJson signed n _)).isSome = true
        unfold intJson
        split
        · next hw => exact .inl hw
        · cases signed with
          | true => exact .inr rfl
          | false => exact .inr rfl
      | _ => trivial
    | none =>
      simp only [hs] at h
      rw [if_neg (by simp)]
      cases hc : cat name with
      | none => simp only [hc] at h
      | some d =>
        simp only [hc] at h
        cases d with
        | «alias» type length =>
          cases length with
          | none => exact mem_valuesOf h
          | some count =>
            rw [valuesOf, hs, hc]
            trivial
        | enum type values flags =>
          rw [valuesOf, hs, hc]
          obtain ⟨numeric, -, hsymbol⟩ := h
          exact ⟨numeric, hsymbol⟩
        | struct fields =>
          rw [valuesOf, hs, hc]
          trivial
        | union fields =>
          rw [valuesOf, hs, hc]
          trivial

/-- A value is one of those expected; none where none is. -/
def Expected : Option (Set Json) → Option Json → Prop
  | none, v => v = none
  | some S, v => ∃ t ∈ S, v = some t

/-- The object holds what the fields `before` can have left in it. -/
def Holds (cat : Catalog) (fuel : Nat) (before : List Field) (object : Json) : Prop :=
  object.isObject = true ∧ ∀ key, Expected (valueAt cat fuel before key) (object.get? key)

/-- Before the first field nothing is held. -/
theorem holds_nil {fuel : Nat} : Holds cat fuel [] (.obj []) := ⟨rfl, fun _ => rfl⟩

/-- What one more field holds. -/
theorem Holds.set {fuel : Nat} {before : List Field} {object item : Json} {f : Field}
    (h : Holds cat fuel before object)
    (hitem : Field.isPlain f = true → item ∈ valuesOf cat (endType cat fuel f.type)) :
    Holds cat fuel (before ++ [f]) (object.set f.name item) := by
  obtain ⟨m, rfl⟩ := Json.isObject_iff.1 h.1
  refine ⟨rfl, fun key => ?_⟩
  rw [valueAt, List.reverse_append, List.reverse_singleton, List.singleton_append,
    List.find?_cons]
  by_cases hk : f.name = key
  · subst hk
    rw [decide_eq_true rfl]
    refine ⟨item, ?_, by simp⟩
    dsimp only
    split
    · next hplain => exact hitem hplain
    · trivial
  · rw [decide_eq_false hk, Json.get?_set_of_ne (Ne.symm hk)]
    exact h.2 key

/-- The tag that a field is read with is one of those its discriminator can have. -/
theorem selectTag_expected {fuel : Nat} {name : Bytes} {tags : Option (Set Json)}
    {tag selected : Option Json} {before : List Field} {object : Json} {f : Field}
    (hobject : Holds cat fuel before object) (htag : Expected tags tag)
    (h : selectTag name tag object f = .ok selected) :
    Expected (fieldTags cat fuel name tags before f) selected := by
  have hplain : Expected
      (if name = utf8 "vl_api_fib_path_t" ∧ f.name = utf8 "nh" then valueAt cat fuel before "proto"
        else if discriminator f ≠ [] then valueAt cat fuel before (discriminator f) else none)
      (if name = utf8 "vl_api_fib_path_t" ∧ f.name = utf8 "nh" then object.get? "proto"
        else if discriminator f ≠ [] then object.get? (discriminator f) else none) := by
    split
    · exact hobject.2 _
    · split
      · exact hobject.2 _
      · rfl
  cases tags with
  | none =>
    obtain rfl : tag = none := htag
    cases h
    exact hplain
  | some S =>
    obtain ⟨t, ht, rfl⟩ := htag
    simp only [selectTag] at h
    simp only [fieldTags]
    split at h
    · next hnh =>
      rw [if_pos hnh]
      split at h
      · next h4 =>
        cases h
        exact ⟨_, ⟨t, ht, .inl ⟨h4, rfl⟩⟩, rfl⟩
      · split at h
        · next h6 =>
          cases h
          exact ⟨_, ⟨t, ht, .inr ⟨h6, rfl⟩⟩, rfl⟩
        · cases h
    · next hnh =>
      cases h
      rw [if_neg hnh]
      exact hplain

/-- The object that the fields before make holds what they can have left. -/
theorem Holds.fields {fuel : Nat} {name : Bytes} {tag : Option Json} {fs : List Field} :
    ∀ {before : List Field} {object object' : Json} {n : Nat}, Holds cat fuel before object →
      FieldsValue (HasValue cat native symbols fuel) name tag object fs object' n →
      Holds cat fuel (before ++ fs) object' := by
  induction fs with
  | nil =>
    rintro before object _ _ h ⟨rfl, -⟩
    rwa [List.append_nil]
  | cons f fs ih =>
    rintro before object object' _ h ⟨v, k, l, hvalue, hvalues, -⟩
    have hnext := @Holds.set cat fuel before object v f h fun hplain => by
      simp only [Field.isPlain, Bool.and_eq_true, Bool.not_eq_true'] at hplain
      obtain ⟨hfixed, harray⟩ := hplain
      rw [FieldValue, if_neg (by rw [hfixed]; decide), if_neg (by simpa using harray)] at hvalue
      obtain ⟨selected, -, hvalue⟩ := hvalue
      exact mem_valuesOf hvalue
    have hall := ih hnext hvalues
    rwa [List.append_assoc] at hall

/-! ## A type that selects -/

/-- The fields behind some others. -/
theorem fieldsSelect_append {fuel : Nat} {sel : Bytes → Option (Set Json) → Prop} {name : Bytes}
    {tags : Option (Set Json)} {f : Field} {after : List Field} {fs : List Field} :
    ∀ {before : List Field}, fieldsSelect cat fuel sel name tags before (fs ++ f :: after) →
      fieldSelects cat fuel sel name tags (before ++ fs) f := by
  induction fs with
  | nil =>
    intro before h
    rw [List.append_nil]
    exact h.1
  | cons g fs ih =>
    intro before h
    have hnext := ih h.2
    rwa [List.append_assoc] at hnext

/-- What ends in a scalar does not refuse. -/
theorem not_refuses_of_scalar {inside : Bool} : ∀ {fuel : Nat} {name : Bytes} {tag : Option Json}
    {n : Nat}, (scalar? (endType cat fuel name)).isSome = true →
      ¬ Refuses cat native symbols inside fuel name tag n
  | 0, _, _, _, _, h => h
  | fuel + 1, name, tag, n, hend, h => by
    rw [endType] at hend
    simp only [Refuses] at h
    cases hs : scalar? name with
    | some s => simp only [hs] at h
    | none =>
      rw [if_neg (by simp [hs])] at hend
      simp only [hs] at h
      split at hend
      · next type hc =>
        simp only [hc] at h
        exact not_refuses_of_scalar hend h
      · rw [hs] at hend
        cases hend

/-- A field whose unions are selected does not refuse. -/
theorem not_fieldRefuses {fuel : Nat} {refuses : Bytes → Option Json → Nat → Prop} {name : Bytes}
    {tags : Option (Set Json)} {tag : Option Json}
    (ih : ∀ type tags tag n, Selects cat fuel type tags → Expected tags tag → ¬ refuses type tag n)
    (htag : Expected tags tag) {before : List Field} {object : Json}
    (hobject : Holds cat fuel before object) {f : Field} {n : Nat}
    (hf : fieldSelects cat fuel (Selects cat fuel) name tags before f) :
    ¬ FieldRefuses refuses name tag object f n := by
  intro h
  unfold FieldRefuses at h
  unfold fieldSelects at hf
  split at h
  · exact h
  next hfixed =>
  rw [if_neg hfixed] at hf
  split at h
  · next harray =>
    rw [if_pos harray] at hf
    rcases h with ⟨-, counter, hcounter, hnone⟩ | ⟨count, hcount, hpos, hrefuse⟩
    · obtain ⟨S, hS, hall⟩ := hf.1 counter hcounter
      have hheld := hobject.2 counter
      rw [hS] at hheld
      obtain ⟨v, hv, hget⟩ := hheld
      have hsome := hall v hv
      rw [hget, Option.bind_some] at hnone
      rw [hnone] at hsome
      cases hsome
    · rcases hf.2 with ⟨hnone, hzero⟩ | hsel
      · -- an array of length zero that nothing counts has no items
        simp only [arrayCount, hnone, hzero, Option.getD_some] at hcount
        split at hcount
        · cases hcount
        · exact absurd (Except.ok.inj hcount) hpos.ne
      · exact ih _ _ _ _ hsel rfl hrefuse
  · next harray =>
    rw [if_neg harray] at hf
    obtain ⟨selected, hselected, hrefuse⟩ := h
    exact ih _ _ _ _ hf (selectTag_expected hobject htag hselected) hrefuse

/-- **A type that selects does not refuse.** -/
theorem not_refuses_of_selects : ∀ {fuel : Nat} {name : Bytes} {tags : Option (Set Json)}
    {tag : Option Json} {n : Nat}, Selects cat fuel name tags → Expected tags tag →
      ¬ Refuses cat native symbols false fuel name tag n
  | 0, _, _, _, _, _, _, h => h
  | fuel + 1, name, tags, tag, n, hsel, htag, h => by
    have ih : ∀ type tags tag n, Selects cat fuel type tags → Expected tags tag →
        ¬ Refuses cat native symbols false fuel type tag n :=
      fun _ _ _ _ => not_refuses_of_selects
    rw [Selects] at hsel
    simp only [Refuses] at h
    cases hs : scalar? name with
    | some s => simp only [hs] at h
    | none =>
      simp only [hs] at h hsel
      cases hc : cat name with
      | none =>
        simp only [hc] at h
        cases h.2.1
      | some d =>
        simp only [hc] at h hsel
        cases d with
        | «alias» type length =>
          cases length with
          | none => exact ih _ _ _ _ hsel htag h
          | some count =>
            rcases hsel with rfl | hsel
            · exact absurd h.1 (lt_irrefl 0)
            · exact ih _ _ _ _ hsel rfl h.2
        | enum type values flags => exact not_refuses_of_scalar hsel h
        | struct fields =>
          obtain ⟨before, f, after, object, k, l, rfl, hvalues, hrefuse, -⟩ := h
          exact not_fieldRefuses ih htag (holds_nil.fields hvalues) (fieldsSelect_append hsel) hrefuse
        | union fields =>
          obtain ⟨S, rfl, hmember⟩ := hsel
          obtain ⟨t, ht, rfl⟩ := htag
          obtain ⟨f, hf, hself⟩ := hmember t ht
          dsimp only at h
          split at h
          · cases h.2
          · rcases h with ⟨hnone, -⟩ | ⟨g, k, hg, hrefuse, -⟩
            · rw [hf] at hnone
              cases hnone
            · rw [hf] at hg
              cases hg
              exact ih _ _ _ _ hself rfl hrefuse

/-- A supported reply that selects is never refused as an unsupported type, but for a next hop that
is not IP. -/
theorem decode_selects {type : Bytes} (hr : Resolves native symbols)
    (hsup : supported cat levels type false = true) (hlayout : replyLayout cat type = true)
    (hsel : Selects cat levels type none) :
    ∀ b e, Decode cat native symbols type b = .error e → e.code = utf8 "unsupported_type" →
      NonIp e := by
  intro b e hdecode
  by_contra hfine
  obtain ⟨n, hrefuse⟩ := refuses_of_Decode hr hsup hlayout hdecode hfine
  exact not_refuses_of_selects hsel rfl hrefuse

end

/-! ## A union beside its tag -/

/-- The symbol of a number is one of the enum's. -/
theorem mem_of_enumSymbol {values : List (Bytes × Int)} {n v : Json}
    (h : enumSymbol values false n = .ok v) : ∃ kv ∈ values, v = .str kv.1 := by
  unfold enumSymbol at h
  split at h
  · cases h
  · rw [if_neg (by decide)] at h
    split at h
    · next kv hkv =>
      cases h
      exact ⟨kv, List.mem_of_find?_eq_some hkv, rfl⟩
    · cases h

example : Selects choices levels "choice_details" none := by
  rw [levels, Selects, show scalar? (utf8 "choice_details") = none by decide +kernel]
  refine ⟨?_, ?_, trivial⟩
  · change Selects choices 32 (utf8 "vl_api_kind_t") none
    rw [Selects, show scalar? (utf8 "vl_api_kind_t") = none by decide +kernel]
    change (scalar? (utf8 "u8")).isSome
    decide +kernel
  · change Selects choices 32 (utf8 "vl_api_choice_t")
      (some { v | ∃ n, enumSymbol [("A", 0), ("B", 1)] false n = .ok v })
    rw [Selects, show scalar? (utf8 "vl_api_choice_t") = none by decide +kernel]
    refine ⟨_, rfl, ?_⟩
    rintro t ⟨n, hn⟩
    obtain ⟨kv, hkv, rfl⟩ := mem_of_enumSymbol hn
    rcases List.mem_cons.1 hkv with rfl | hkv
    · refine ⟨_, rfl, ?_⟩
      rw [Selects, show scalar? (utf8 "u8") = some (.int false 1) by decide +kernel]
      trivial
    · obtain rfl := List.mem_singleton.1 hkv
      refine ⟨_, rfl, ?_⟩
      rw [Selects, show scalar? (utf8 "u16") = some (.int false 2) by decide +kernel]
      trivial

end VppJson.Schema
