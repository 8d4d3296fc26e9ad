import VppJsonGateway.ReplyLength
import VppJsonGateway.Lib.JsonSchema

/-!
# Descriptions of types

`Schema::Describe` of `src/src/schema.cc`: the JSON Schema of the parameters of a type. It is a
recursion of its own over the types `Convert` converts. The descriptions of scalars and of fields
admit what `Convert` encodes of them.
-/

namespace VppJson.Schema

open Lib

section Describe

variable (cat : Catalog)

/-- The head of `Describe`: the types it describes by name. An integer of up to 32 bits is one
the catalog has no type for. -/
def describeNamed (name : Bytes) : Option Json :=
  match scalar? name with
  | some .interface => some (Json.object [("type", .str "string"),
      ("format", .str "vpp-interface-name"), ("sentinels", .arr [.str "@all"])])
  | some (.int signed width) =>
    if width = 8 then some (Json.object [("type", .str "string"), ("format", .str name),
      ("pattern", .str (if signed then "^-?[0-9]+$" else "^[0-9]+$"))])
    else if (cat name).isNone then some (Json.object [("type", .str "integer"),
      ("minimum", .int (if signed then -2 ^ (8 * width - 1) else 0)),
      ("maximum", .int ((if signed then 2 ^ (8 * width - 1) else 2 ^ (8 * width)) - 1))])
    else none
  | some .bool => some (Json.object [("type", .str "boolean")])
  | some .string => some (Json.object [("type", .str "string")])
  | some (.float _) => some (Json.object [("type", .str "number")])
  | some .ip4 | some .ip6 | some .mac =>
    some (Json.object [("type", .str "string"), ("format", .str name)])
  | none =>
    if isAddress name || isPrefix name then
      some (Json.object [("type", .str "string"), ("format", .str name)])
    else none

/-- The schema of a field, given that of its type. -/
def describeField (f : Field) (type : Json) : Json :=
  let item :=
    if f.isFixedString then type.set "maxLength" (.int ((f.length.getD 0 : Int) - 1))
    else if f.type ≠ utf8 "string" ∧ f.length.isSome then
      if f.count.isSome then Json.object [("type", .str "array"), ("items", type)]
      else Json.object [("type", .str "array"), ("items", type),
        ("minItems", .uint (f.length.getD 0)), ("maxItems", .uint (f.length.getD 0))]
    else type
  match f.default with
  | some value => item.set "default" (publicDefault cat f value)
  | none => item

/-- The properties of a struct or a union: its fields that count no other. -/
def properties (describe : Bytes → Json) (hidden : List Bytes) (fields : List Field) : Json :=
  fields.foldl (fun o f =>
    if f.name ∈ hidden then o else o.set f.name (describeField cat f (describe f.type))) (.obj [])

/-- The fields of a struct that have to be given. -/
def required (hidden : List Bytes) (fields : List Field) : List Json :=
  (fields.filter fun f => f.name ∉ hidden ∧ f.default.isNone).map fun f => .str f.name

/-- `Schema::Describe`, with the levels left. -/
def describe : Nat → Bytes → Json
  | 0, _ => Json.object [("unsupported", .str "recursive type")]
  | fuel + 1, name =>
    match describeNamed cat name, cat name with
    | some named, _ => named
    | none, none => Json.object [("unsupported", .str name)]
    | none, some (.alias type none) => describe fuel type
    | none, some (.alias type (some count)) =>
      Json.object [("type", .str "array"), ("items", describe fuel type),
        ("minItems", .uint count), ("maxItems", .uint count)]
    | none, some (.enum _ values flags) =>
      let symbols := Json.object [("type", .str "string"),
        ("enum", .arr (values.map fun kv => .str kv.1))]
      if flags then Json.object [("type", .str "array"), ("uniqueItems", .bool true),
        ("items", symbols)]
      else symbols
    | none, some (.struct fields) =>
      Json.object [("type", .str "object"), ("additionalProperties", .bool false),
        ("properties", properties cat (describe fuel) (counts fields) fields),
        ("required", .arr (required (counts fields) fields))]
    | none, some (.union fields) =>
      Json.object [("type", .str "object"), ("additionalProperties", .bool false),
        ("properties", properties cat (describe fuel) (counts fields) fields),
        ("minProperties", .int 1), ("maxProperties", .int 1)]

/-- `Schema::Describe`. -/
def Describe (name : Bytes) : Json := describe cat levels name

end Describe

/-! ## Schemas of one kind -/

open Json (Valid Keyword)

/-- A schema of values of a type, with annotations. -/
theorem valid_typed {t : Bytes} {v : Json} (hv : Json.hasType t v = true) :
    Valid (Json.object [("type", .str t)]) v := by
  refine Json.valid_object ?_ ?_ ?_
  · intro k s hs
    cases k <;> simp [Keyword.text, utf8_inj] at hs
    subst hs
    rintro _ ⟨⟩
    exact hv
  · intro s xs hs
    simp [utf8_inj] at hs
  · intro props k s x hp
    simp [utf8_inj] at hp

/-- A schema with a format, which no validator checks, admits the values of its type. -/
theorem valid_format {t format : Bytes} {v : Json} (hv : Json.hasType t v = true) :
    Valid (Json.object [("type", .str t), ("format", .str format)]) v := by
  refine Json.valid_object ?_ ?_ ?_
  · intro k s hs
    cases k <;> simp [Keyword.text, utf8_inj] at hs
    subst hs
    rintro _ ⟨⟩
    exact hv
  · intro s xs hs
    simp [utf8_inj] at hs
  · intro props k s x hp
    simp [utf8_inj] at hp

/-- Texts of a format with sentinels. -/
theorem valid_sentinels {format : Bytes} {sentinels : List Json} {text : Bytes} :
    Valid (Json.object [("type", .str "string"), ("format", .str format),
      ("sentinels", .arr sentinels)]) (.str text) := by
  refine Json.valid_object ?_ ?_ ?_
  · intro k s hs
    cases k <;> simp [Keyword.text, utf8_inj] at hs
    subst hs
    rintro _ ⟨⟩
    rfl
  · intro s xs hs
    simp [utf8_inj] at hs
  · intro props k s x hp
    simp [utf8_inj] at hp

/-- Texts that match a pattern. -/
theorem valid_pattern {format pattern text : Bytes}
    (h : Json.matchesPattern pattern text = true) :
    Valid (Json.object [("type", .str "string"), ("format", .str format),
      ("pattern", .str pattern)]) (.str text) := by
  refine Json.valid_object ?_ ?_ ?_
  · intro k s hs
    cases k <;> simp [Keyword.text, utf8_inj] at hs
    · subst hs
      rintro _ ⟨⟩
      rfl
    · subst hs
      rintro _ _ ⟨⟩ ⟨⟩
      exact h
  · intro s xs hs
    simp [utf8_inj] at hs
  · intro props k s x hp
    simp [utf8_inj] at hp

/-- Texts of bounded length. -/
theorem valid_maxLength {n : Int} {text : Bytes} (h : (text.length : Int) ≤ n) :
    Valid ((Json.object [("type", .str "string")]).set "maxLength" (.int n)) (.str text) := by
  change Valid (Json.object [("type", .str "string"), ("maxLength", .int n)]) _
  refine Json.valid_object ?_ ?_ ?_
  · intro k s hs
    cases k <;> simp [Keyword.text, utf8_inj] at hs
    · subst hs
      rintro _ ⟨⟩
      rfl
    · subst hs
      rintro _ _ ⟨⟩ ⟨⟩
      exact (Int.ofNat_le.2 (Json.characters_le text)).trans h
  · intro s xs hs
    simp [utf8_inj] at hs
  · intro props k s x hp
    simp [utf8_inj] at hp

/-- Integers in a range. -/
theorem valid_range {low high i : Int} {v : Json} (hv : v.int? = some i) (hlow : low ≤ i)
    (hhigh : i ≤ high) :
    Valid (Json.object [("type", .str "integer"), ("minimum", .int low),
      ("maximum", .int high)]) v := by
  refine Json.valid_object ?_ ?_ ?_
  · intro k s hs
    cases k <;> simp [Keyword.text, utf8_inj] at hs
    · subst hs
      rintro _ ⟨⟩
      cases v <;> first | rfl | cases hv
    · subst hs
      rintro _ j ⟨⟩ hj
      exact Option.some.inj (hv.symm.trans hj) ▸ hlow
    · subst hs
      rintro _ j ⟨⟩ hj
      exact Option.some.inj (hv.symm.trans hj) ▸ hhigh
  · intro s xs hs
    simp [utf8_inj] at hs
  · intro props k s x hp
    simp [utf8_inj] at hp

/-- An array of any length. -/
theorem valid_array {item : Json} {xs : List Json} :
    Valid (Json.object [("type", .str "array"), ("items", item)]) (.arr xs) ↔
      ∀ x ∈ xs, Valid item x := by
  refine ⟨fun h x hx => h.items rfl rfl hx, fun h => Json.valid_object ?_ ?_ ?_⟩
  · intro k s hs
    cases k <;> simp [Keyword.text, utf8_inj] at hs
    subst hs
    rintro _ ⟨⟩
    rfl
  · rintro s _ hs ⟨⟩ x hx
    simp [utf8_inj] at hs
    exact hs ▸ h x hx
  · intro props k s x hp
    simp [utf8_inj] at hp

/-- An array of a fixed length. -/
theorem valid_fixedArray {item : Json} {xs : List Json} :
    Valid (Json.object [("type", .str "array"), ("items", item), ("minItems", .uint xs.length),
      ("maxItems", .uint xs.length)]) (.arr xs) ↔ ∀ x ∈ xs, Valid item x := by
  refine ⟨fun h x hx => h.items rfl rfl hx, fun h => Json.valid_object ?_ ?_ ?_⟩
  · intro k s hs
    cases k <;> simp [Keyword.text, utf8_inj] at hs
    · subst hs
      rintro _ ⟨⟩
      rfl
    · subst hs
      rintro _ _ ⟨⟩ ⟨⟩
      exact le_rfl
    · subst hs
      rintro _ _ ⟨⟩ ⟨⟩
      exact le_rfl
  · rintro s _ hs ⟨⟩ x hx
    simp [utf8_inj] at hs
    exact hs ▸ h x hx
  · intro props k s x hp
    simp [utf8_inj] at hp

/-- A symbol of an enum. -/
theorem valid_symbol {symbols : List Json} {text : Bytes} (h : .str text ∈ symbols) :
    Valid (Json.object [("type", .str "string"), ("enum", .arr symbols)]) (.str text) := by
  refine Json.valid_object ?_ ?_ ?_
  · intro k s hs
    cases k <;> simp [Keyword.text, utf8_inj] at hs
    · subst hs
      rintro _ ⟨⟩
      rfl
    · subst hs
      rintro _ ⟨⟩
      exact h
  · intro s xs hs
    simp [utf8_inj] at hs
  · intro props k s x hp
    simp [utf8_inj] at hp

/-- An array of distinct items. -/
theorem valid_set_items {item : Json} {xs : List Json} (hnodup : xs.Nodup)
    (h : ∀ x ∈ xs, Valid item x) :
    Valid (Json.object [("type", .str "array"), ("uniqueItems", .bool true), ("items", item)])
      (.arr xs) := by
  refine Json.valid_object ?_ ?_ ?_
  · intro k s hs
    cases k <;> simp [Keyword.text, utf8_inj] at hs
    · subst hs
      rintro _ ⟨⟩
      rfl
    · subst hs
      rintro _ - ⟨⟩
      exact hnodup
  · rintro s _ hs ⟨⟩ x hx
    simp [utf8_inj] at hs
    exact hs ▸ h x hx
  · intro props k s x hp
    simp [utf8_inj] at hp

/-! ## Scalars -/

section Scalars

variable {cat : Catalog} {native : Native} {symbols : Symbols}

/-- A text that is all digits, and is not empty. -/
theorem isDigits_of_dropWhile {text : Bytes} (hne : text.takeWhile isDigit ≠ [])
    (hrest : text.dropWhile isDigit = []) : Json.isDigits text = true := by
  have hall : text.takeWhile isDigit = text := by
    have h := List.takeWhile_append_dropWhile (p := isDigit) (l := text)
    rwa [hrest, List.append_nil] at h
  simp only [Json.isDigits, decide_eq_true_eq]
  rw [hall] at hne
  exact ⟨hne, List.all_eq_true.2 fun c hc => List.mem_takeWhile_imp (hall.symm ▸ hc)⟩

/-- A decimal integer of 64 bits matches the pattern that describes it. -/
theorem matchesPattern_of_fromChars {signed : Bool} {text : Bytes} {v : Int}
    (h : fromChars signed 8 text = some (v, [])) :
    Json.matchesPattern (if signed then "^-?[0-9]+$" else "^[0-9]+$") text = true := by
  have key : ∀ {body : Bytes} {n : Int}, (if body.takeWhile isDigit ≠ [] ∧
      inRange signed 8 n = true then some (n, body.dropWhile isDigit) else none) = some (v, []) →
      Json.isDigits body = true := by
    intro body n h
    split at h
    · next hd =>
      rw [Option.some.injEq, Prod.mk.injEq] at h
      exact isDigits_of_dropWhile hd.1 h.2
    · cases h
  simp only [fromChars] at h
  cases signed with
  | false =>
    simp only [Bool.false_and, Bool.false_eq_true, if_false] at h
    simpa [Json.matchesPattern, utf8_inj] using key h
  | true =>
    have hsigned : Json.isDigits text = true ∨
        (text.head? = some 45 ∧ Json.isDigits text.tail = true) := by
      by_cases hminus : text.head? = some 45
      · simp only [Bool.true_and, hminus, decide_true, if_true] at h
        exact .inr ⟨hminus, key h⟩
      · simp only [Bool.true_and, hminus, decide_false, Bool.false_eq_true, if_false] at h
        exact .inl (key h)
    simpa [Json.matchesPattern, utf8_inj] using hsigned

/-- An integer of up to 32 bits lies in the range that describes it. -/
theorem int?_of_intValue {signed : Bool} {width : Nat} {v : Json} {i : Int} (hw : width ≠ 8)
    (h : intValue signed width v = .ok i) : v.int? = some i ∧ inRange signed width i = true := by
  unfold intValue at h
  rw [if_neg hw] at h
  cases v with
  | uint n =>
    dsimp only at h
    split at h
    · next hr =>
      cases h
      exact ⟨rfl, hr⟩
    · cases h
  | int j =>
    dsimp only at h
    split at h
    · next hr =>
      cases h
      exact ⟨rfl, hr⟩
    · cases h
  | _ => cases h

/-- What is assumed of the conversion to floating-point numbers: it converts numbers. -/
def ConvertsNumbers (native : Native) : Prop :=
  ∀ {width v b}, native.floatBytes width v = .ok b → Json.hasType "number" v = true

/-- What `Convert` encodes as a scalar is valid against its description. -/
theorem valid_scalar (hnative : ConvertsNumbers native) {name : Bytes} {sc : Scalar} {j v : Json}
    {size : Nat} {b : Bytes} (hs : scalar? name = some sc) (hj : describeNamed cat name = some j)
    (h : encodeScalar native symbols size v sc = .ok b) : Valid j v := by
  rw [describeNamed, hs] at hj
  cases sc with
  | int signed width =>
    obtain ⟨i, hi, -⟩ := bind_eq_ok.1 h
    dsimp only at hj
    split at hj
    · next hw =>
      cases hj
      unfold intValue at hi
      rw [if_pos hw] at hi
      cases v with
      | str text =>
        dsimp only at hi
        split at hi
        · next i' hparse => exact valid_pattern (matchesPattern_of_fromChars (hw ▸ hparse))
        · cases hi
      | _ => cases hi
    · next hw =>
      obtain ⟨hint, hrange⟩ := int?_of_intValue hw hi
      split at hj
      · cases hj
        unfold inRange at hrange
        cases signed with
        | true =>
          simp only [if_true, decide_eq_true_eq] at hrange
          exact valid_range hint hrange.1 (by simp only [if_true]; omega)
        | false =>
          simp only [Bool.false_eq_true, if_false, decide_eq_true_eq] at hrange
          exact valid_range hint hrange.1 (by simp only [Bool.false_eq_true, if_false]; omega)
      · cases hj
  | float width =>
    cases hj
    obtain ⟨_, hb, -⟩ := bind_eq_ok.1 h
    exact valid_typed (hnative hb)
  | bool =>
    cases hj
    cases v with
    | bool b => exact valid_typed rfl
    | _ => cases h
  | string =>
    cases hj
    cases v with
    | str text => exact valid_typed rfl
    | _ => cases h
  | interface =>
    cases hj
    cases v with
    | str text => exact valid_sentinels
    | _ => cases h
  | ip4 =>
    cases hj
    cases v with
    | str text => exact valid_format rfl
    | _ => cases h
  | ip6 =>
    cases hj
    cases v with
    | str text => exact valid_format rfl
    | _ => cases h
  | mac =>
    cases hj
    cases v with
    | str text => exact valid_format rfl
    | _ => cases h

/-- What `Convert` encodes as an enum is valid against its description. -/
theorem valid_enum {values : List (Bytes × Int)} {flags : Bool} {numeric v : Json}
    (h : enumNumeric values flags v = .ok numeric) :
    let symbols := Json.object [("type", .str "string"),
      ("enum", .arr (values.map fun kv => .str kv.1))]
    Valid (if flags then Json.object [("type", .str "array"), ("uniqueItems", .bool true),
      ("items", symbols)] else symbols) v := by
  have hmem : ∀ {s n}, enumValue? values s = some n →
      (Json.str s) ∈ values.map fun kv => Json.str kv.1 := by
    intro s n hn
    rw [enumValue?, Option.map_eq_some_iff] at hn
    obtain ⟨kv, hkv, -⟩ := hn
    have hname := List.find?_some hkv
    rw [decide_eq_true_eq] at hname
    exact List.mem_map.2 ⟨kv, List.mem_of_find?_eq_some hkv, by rw [hname]⟩
  -- the flags seen so far come before those left, without repetition
  have hflags : ∀ {xs : List Json} {seen : List Bytes} {bits n : Nat},
      flagBits values seen bits xs = some n →
      xs.Nodup ∧ (∀ x ∈ xs, ∃ s, x = .str s ∧ s ∉ seen ∧ (Json.str s) ∈ values.map fun kv => Json.str kv.1) := by
    intro xs
    induction xs with
    | nil => exact fun _ => ⟨List.nodup_nil, by simp⟩
    | cons x xs ih =>
      intro seen bits n hn
      cases x with
      | str s =>
        simp only [flagBits] at hn
        split at hn
        · next v' hv' =>
          split at hn
          · cases hn
          · next hseen =>
            obtain ⟨hnodup, hall⟩ := ih hn
            refine ⟨List.nodup_cons.2 ⟨fun hx => ?_, hnodup⟩, fun x hx => ?_⟩
            · obtain ⟨s', hs', hne, -⟩ := hall _ hx
              cases hs'
              exact hne List.mem_cons_self
            · rcases List.mem_cons.1 hx with rfl | hx
              · exact ⟨s, rfl, hseen, hmem hv'⟩
              · obtain ⟨s', rfl, hne, hin⟩ := hall x hx
                exact ⟨s', rfl, fun h' => hne (List.mem_cons_of_mem _ h'), hin⟩
        · cases hn
      | _ => cases hn
  intro symbols
  unfold enumNumeric at h
  cases flags with
  | true =>
    rw [if_pos rfl] at h ⊢
    cases v with
    | arr xs =>
      dsimp only at h
      split at h
      · next bits hbits =>
        obtain ⟨hnodup, hall⟩ := hflags hbits
        refine valid_set_items hnodup fun x hx => ?_
        obtain ⟨s, rfl, -, hin⟩ := hall x hx
        exact valid_symbol hin
      · cases h
    | _ => cases h
  | false =>
    rw [if_neg (by decide)] at h ⊢
    split at h
    · next n hn =>
      obtain ⟨s, hs, hn⟩ := Option.bind_eq_some_iff.1 hn
      cases v with
      | str text =>
        cases hs
        exact valid_symbol (hmem hn)
      | _ => cases hs
    · cases h

end Scalars

/-! ## Fields -/

section Fields

variable {cat : Catalog}

/-- A default is an annotation. -/
theorem valid_describeField {f : Field} {type v : Json} :
    Valid (describeField cat f type) v ↔
      Valid (if f.isFixedString then type.set "maxLength" (.int ((f.length.getD 0 : Int) - 1))
        else if f.type ≠ utf8 "string" ∧ f.length.isSome then
          if f.count.isSome then Json.object [("type", .str "array"), ("items", type)]
          else Json.object [("type", .str "array"), ("items", type),
            ("minItems", .uint (f.length.getD 0)), ("maxItems", .uint (f.length.getD 0))]
        else type) v := by
  unfold describeField
  cases f.default with
  | none => exact Iff.rfl
  | some value =>
    refine Json.valid_set ?_ ?_ ?_ _
    · intro w
      cases w <;> simp [Keyword.text, utf8_inj]
    · simp [utf8_inj]
    · simp [utf8_inj]

/-- The properties of a list of fields: the last field of a name that counts no other. -/
theorem get?_properties {d : Bytes → Json} {hidden : List Bytes} {fields : List Field} {k : Bytes} :
    (properties cat d hidden fields).get? k =
      (fields.reverse.find? fun f => f.name = k ∧ k ∉ hidden).map fun f =>
        describeField cat f (d f.type) := by
  have hobject : ∀ fields, ∃ m, properties cat d hidden fields = .obj m := by
    intro fields
    induction fields using List.reverseRecOn with
    | nil => exact ⟨[], rfl⟩
    | append_singleton fields f ih =>
      obtain ⟨m, hm⟩ := ih
      rw [properties, List.foldl_append, ← properties, hm]
      simp only [List.foldl_cons, List.foldl_nil]
      split
      · exact ⟨m, rfl⟩
      · exact ⟨_, rfl⟩
  induction fields using List.reverseRecOn with
  | nil => rfl
  | append_singleton fields f ih =>
    obtain ⟨m, hm⟩ := hobject fields
    rw [properties, List.foldl_append, ← properties, List.reverse_append, List.reverse_singleton,
      List.singleton_append, List.find?_cons]
    simp only [List.foldl_cons, List.foldl_nil]
    by_cases hf : f.name ∈ hidden
    · rw [if_pos hf, ih]
      by_cases hk : f.name = k
      · subst hk
        simp [hf]
      · simp [hk]
    · rw [if_neg hf]
      by_cases hk : f.name = k
      · subst hk
        rw [hm]
        simp [hf]
      · rw [Json.get?_set_of_ne (Ne.symm hk), ih]
        simp [hk]

/-- The field of a name, where names are distinct. -/
theorem find?_of_nodup {hidden : List Bytes} {fields : List Field} {f : Field} {k : Bytes}
    (hnodup : (fields.map (·.name)).Nodup) (hf : f ∈ fields) (hk : f.name = k) (hh : k ∉ hidden) :
    fields.reverse.find? (fun g => g.name = k ∧ k ∉ hidden) = some f := by
  cases hfind : fields.reverse.find? (fun g => g.name = k ∧ k ∉ hidden) with
  | none =>
    have := List.find?_eq_none.1 hfind f (List.mem_reverse.2 hf)
    simp [hk, hh] at this
  | some g =>
    have hg := List.find?_some hfind
    simp only [decide_eq_true_eq] at hg
    have hmem := List.mem_reverse.1 (List.mem_of_find?_eq_some hfind)
    rw [List.inj_on_of_nodup_map hnodup hmem hf (hg.1.trans hk.symm)]

/-- The keys of an object that `Convert` takes are fields, and none is a counter. -/
theorem checkKeys_mem {fields : List Field} {m : List (Bytes × Json)}
    (h : checkKeys fields m = .ok ()) : ∀ kv ∈ m,
      (∃ f ∈ fields, f.name = kv.1) ∧ kv.1 ∉ counts fields := by
  induction m with
  | nil => simp
  | cons kv m ih =>
    simp only [checkKeys] at h
    split at h
    · cases h
    · next hkv =>
      simp only [Bool.or_eq_true, List.all_eq_true, decide_eq_true_eq, not_or, not_forall,
        not_not] at hkv
      obtain ⟨⟨f, hf, hname⟩, hcount⟩ := hkv
      intro kv' hkv'
      rcases List.mem_cons.1 hkv' with rfl | hkv'
      · exact ⟨⟨f, hf, hname⟩, hcount⟩
      · exact ih h kv' hkv'

/-- Setting the counts leaves the members that are no counters. -/
theorem get?_setCounts {k : Bytes} : ∀ {fs : List Field} {object object' : Json},
    setCounts object fs = .ok object' → k ∉ counts fs → object'.get? k = object.get? k := by
  intro fs
  induction fs with
  | nil =>
    intro object object' h _
    cases h
    rfl
  | cons f fs ih =>
    intro object object' h hk
    simp only [setCounts] at h
    cases hc : f.count with
    | none =>
      rw [hc] at h
      exact ih h (by simpa [counts, hc] using hk)
    | some counter =>
      rw [hc] at h
      simp only [counts, List.filterMap_cons, hc, List.mem_cons, not_or] at hk
      dsimp only at h
      split at h
      · rw [ih h hk.2, Json.get?_set_of_ne hk.1]
      · cases h

/-- Every field of an encoded struct was there, or has a default; what was there was encoded. -/
theorem mem_encodeFields {enc : Bytes → Option Json → Nat → Json → Except Status Bytes}
    {ech : Bytes → Json → Json} {name : Bytes} {tag : Option Json} :
    ∀ {fs : List Field} {size : Nat} {object : Json} {b : Bytes},
    (fs.map (·.name)).Nodup → encodeFields cat enc ech name tag size object fs = .ok b →
    ∀ f ∈ fs, (object.get? f.name = none → f.default.isSome) ∧
      ∀ x, object.get? f.name = some x →
        ∃ size object b, encodeField enc name tag size object x f = .ok b := by
  intro fs
  induction fs with
  | nil => simp
  | cons f fs ih =>
    intro size object b hnodup h g hg
    rw [List.map_cons, List.nodup_cons] at hnodup
    obtain ⟨⟨item, object₁⟩, hitem, h⟩ := bind_eq_ok.1 h
    obtain ⟨b₁, hb₁, h⟩ := bind_eq_ok.1 h
    obtain ⟨rest, hrest, -⟩ := bind_eq_ok.1 h
    rcases List.mem_cons.1 hg with rfl | hg
    · cases hx : object.get? g.name with
      | some x =>
        simp only [fieldItem, hx] at hitem
        cases hitem
        refine ⟨fun hnone => (by cases hnone), fun y hy => ?_⟩
        cases hy
        exact ⟨_, _, _, hb₁⟩
      | none =>
        cases hd : g.default with
        | none =>
          simp only [fieldItem, hx, hd] at hitem
          cases hitem
        | some value => exact ⟨fun _ => rfl, fun y hy => (by cases hy)⟩
    · have hne : g.name ≠ f.name := fun heq =>
        hnodup.1 (heq ▸ List.mem_map.2 ⟨g, hg, rfl⟩)
      have hsame : (object₁.set f.name (echoField ech f item)).get? g.name = object.get? g.name := by
        rw [Json.get?_set_of_ne hne]
        unfold fieldItem at hitem
        split at hitem
        · cases hitem
          rfl
        · cases hitem
          exact Json.get?_set_of_ne hne _ _
        · cases hitem
      have hnext := ih hnodup.2 hrest g hg
      rwa [hsame] at hnext

end Fields

end VppJson.Schema
