import VppJsonGateway.DefaultValues

/-!
# Defaults of a schema

`PublicDefault` of `src/src/schema.cc` translates the default of a catalog, which is a number or a
word, to the value a client would give. `Convert` encodes the result where a client gives none, and
`Describe` shows it. It goes by the name of the field's type alone, so it misses the flags of an
enum and the aliases of integers of 64 bits.
-/

namespace VppJson.Schema

open Lib

open Json (Valid)

section

variable {cat : Catalog} {native : Native} {symbols : Symbols} {n width size : Nat}
  {name : Bytes} {signed : Bool} {tag : Option Json} {f : Field} {d value : Json} {v i : Int}

/-! ## Fields -/

variable {values : List (Bytes × Int)} {flags : Bool} {b : Bytes}

/-- A field without a length holds one value of its type. -/
theorem encodeField_single {enc : Bytes → Option Json → Nat → Json → Except Status Bytes}
    {object item : Json} (hlen : f.length = none) : ∃ tag,
      encodeField enc name none size object item f = atField f (enc f.type tag size item) := by
  have hfixed : f.isFixedString = false := by
    rw [Field.isFixedString, hlen]
    simp
  have hplain : ¬ (f.type ≠ utf8 "string" ∧ f.length.isSome = true) := by
    rw [hlen]
    simp
  have hselect : ∃ tag, selectTag name none object f = .ok tag := ⟨_, rfl⟩
  obtain ⟨tag, htag⟩ := hselect
  refine ⟨tag, ?_⟩
  rw [encodeField, if_neg (by rw [hfixed]; exact Bool.false_ne_true), if_neg hplain, htag]
  rfl

/-- The first part is what the first field is converted to. -/
theorem fieldParts_head {enc : Bytes → Option Json → Nat → Json → Except Status Bytes}
    {echo : Bytes → Json → Json} {object item object₁ : Json} {fs : List Field}
    (hlen : f.length = none) (hitem : fieldItem cat object f = .ok (item, object₁)) : ∃ tag,
      ((fieldParts cat enc echo name none size object (f :: fs)).1[0]? = some b ↔
        enc f.type tag size item = .ok b) := by
  obtain ⟨tag, htag⟩ := @encodeField_single size name f enc object₁ item hlen
  refine ⟨tag, ?_⟩
  rw [fieldParts, hitem]
  simp only [htag]
  cases enc f.type tag size item with
  | error e => simp [atField]
  | ok b' => simp [atField]

/-- What the translation of a default comes to: the octets are written, where there is room, and the
value is valid against the schema of the type. -/
structure Translates (cat : Catalog) (native : Native) (symbols : Symbols) (f : Field) (d : Json)
    (b : Bytes) : Prop where
  encodes : ∀ tag size,
    encode cat native symbols fieldLevels f.type tag size (publicDefault cat f d) = putBytes size b
  valid : Valid (describe cat fieldLevels f.type) (publicDefault cat f d)

/-- A default is translated where `PublicDefault` has a case for it, and is refused elsewhere. -/
def Translated (cat : Catalog) (native : Native) (symbols : Symbols) (f : Field) (d : Json)
    (b : Bytes) : Prop :=
  (HasPublic cat f.type d ∧ Translates cat native symbols f d b) ∨
    (¬ HasPublic cat f.type d ∧ ∀ tag size,
      ∃ e, encode cat native symbols fieldLevels f.type tag size (publicDefault cat f d) = .error e)

/-- A scalar that is no integer. -/
theorem hasPublic_of_scalar {s : Scalar} (hs : scalar? name = some s)
    (hint : ∀ signed width, s ≠ .int signed width) : HasPublic cat name d := by
  refine ⟨fun _ _ hnone => ?_, fun _ signed width ht => ?_⟩
  · rw [hs] at hnone
    cases hnone
  · cases ht with
    | primitive hs' => exact absurd (Option.some.inj (hs.symm.trans hs')) (hint _ _)
    | «alias» hs' =>
      rw [hs] at hs'
      cases hs'

/-- A default of a scalar that is no integer stays as it is. -/
theorem translated_scalar {s : Scalar} {j : Json} (hs : scalar? f.type = some s)
    (hint : ∀ signed width, s ≠ .int signed width) (hj : describeNamed cat f.type = some j)
    (hencode : ∀ (native : Native) (symbols : Symbols) size,
      encodeScalar native symbols size (publicDefault cat f d) s = putBytes size b)
    (hb : b.length ≤ Limits.nativePayloadBytes) : Translated cat native symbols f d b := by
  refine .inl ⟨hasPublic_of_scalar hs hint, fun tag size => ?_, ?_⟩
  · rw [fieldLevels, encode, hs]
    exact hencode native symbols size
  · refine valid_describe_scalar hs hj ((hencode _ _ 0).trans (putBytes_fits ?_))
    rwa [Nat.zero_add]

/-- The default of an integer: an alias of one of 64 bits would need a text, and has none. -/
theorem translated_integer (ht : IntegerType cat n f.type signed width) (hd : d.int? = some v)
    (hv : inRange signed width v = true) :
    Translated cat native symbols f d (nativeInt width v) := by
  have hpublic := ht.publicDefault_eq hd
  have hnot64 : n ≠ 0 → ¬ (f.type = utf8 "u64" ∨ f.type = utf8 "i64") := by
    intro hn
    cases ht with
    | primitive => exact absurd rfl hn
    | «alias» hs => exact not_untexted hs
  by_cases hcase : (n = 0 ∨ width ≠ 8) ∧ n < fieldLevels
  · obtain ⟨hn, hlt⟩ := hcase
    have hi : intValue signed width (publicDefault cat f d) = .ok v := by
      rw [hpublic]
      rcases Nat.eq_zero_or_pos n with rfl | hpos
      · cases ht with
        | primitive hs => exact intValue_number hs hd hv
      · rw [if_neg (hnot64 hpos.ne')]
        exact intValue_of_ne (hn.resolve_left hpos.ne') hd hv
    refine .inl ⟨⟨fun base values hs hcat => ?_, fun n' signed' width' ht' => ?_⟩,
      fun tag size => ?_, ht.valid_describe hi hlt⟩
    · cases ht with
      | primitive hs' =>
        rw [hs] at hs'
        cases hs'
      | «alias» _ _ hcat' =>
        rw [hcat] at hcat'
        cases hcat'
    · obtain ⟨rfl, rfl, rfl⟩ := ht.unique ht'
      exact ⟨hn, hlt⟩
    · rw [ht.encode_eq hlt, hi]
      rfl
  · refine .inr ⟨fun h => hcase (h.2 n signed width ht), fun tag size => ?_⟩
    by_cases hdeep : fieldLevels ≤ n
    · exact ht.encode_deep hdeep
    · have hn : n ≠ 0 ∧ width = 8 := by
        constructor <;> by_contra hc <;> exact hcase ⟨by tauto, not_le.1 hdeep⟩
      rw [ht.encode_eq (not_le.1 hdeep), hpublic, if_neg (hnot64 hn.1)]
      cases hi : intValue signed width d with
      | error e => exact ⟨e, rfl⟩
      | ok i =>
        obtain rfl := hn.2
        exact absurd hi (intValue_untexted hd)

/-- An enum has a case for its default if its flags, where it has any, are zero. -/
theorem EnumType.hasPublic_iff (ht : EnumType cat name values flags signed width)
    (hd : d.int? = some v) : HasPublic cat name d ↔ (flags = true → v = 0) := by
  obtain ⟨type, hcat, -⟩ := ht.base
  constructor
  · rintro h rfl
    exact Option.some.inj (hd.symm.trans (h.1 type values ht.scalar hcat))
  · intro h
    refine ⟨fun base values' _ hcat' => ?_, fun _ _ _ hi => absurd hi ht.not_integer⟩
    rw [hcat] at hcat'
    cases hcat'
    exact h rfl ▸ hd

/-- The default of an enum is translated to its symbol. -/
theorem translated_symbol (ht : EnumType cat f.type values false signed width) {kv : Bytes × Int}
    (hkv : kv ∈ values) (hd : d.int? = some kv.2) :
    Translated cat native symbols f d (nativeInt width kv.2) := by
  obtain ⟨kv', hmem, heq, hpublic⟩ := ht.publicDefault_symbol hkv hd
  have hnumeric : enumNumeric values false (publicDefault cat f d) = .ok (enumJson kv.2) := by
    rw [hpublic]
    unfold enumNumeric
    rw [if_neg Bool.false_ne_true]
    simp only [Json.str?, Option.bind_some, ht.enumValue?_eq hmem, heq]
  have hnum : (enumJson kv.2).int? = some kv.2 := by
    unfold enumJson
    split
    · next hpos => exact congrArg some (Int.toNat_of_nonneg hpos)
    · rfl
  exact .inl ⟨(ht.hasPublic_iff hd).2 fun h => (by cases h),
    fun tag size => ht.encode_eq hnumeric hnum (ht.fits kv hkv), ht.valid_describe hnumeric⟩

/-- The default of an enum of flags: zero is no flag, and any other number is not translated. -/
theorem translated_flags (ht : EnumType cat f.type values true signed width)
    (hd : d.int? = some v) (hv : inRange signed width v = true) :
    Translated cat native symbols f d (nativeInt width v) := by
  obtain ⟨hpos, hwidth⟩ := ht.width_pos
  have hzero : inRange signed width 0 = true := by
    cases signed
    · simp [inRange]
    · simp [inRange]
  have hsame := sameNumber_iff hpos hwidth hv hzero hd
  have hpublic := ht.publicDefault_eq hd
  have hcase := ht.hasPublic_iff hd
  by_cases hv0 : v = 0
  · subst hv0
    rw [hsame.2 rfl, Bool.and_self, if_pos rfl] at hpublic
    have hnumeric : enumNumeric values true (publicDefault cat f d) = .ok (.uint 0) := by
      rw [hpublic]
      rfl
    exact .inl ⟨hcase.2 fun _ => rfl, fun tag size => ht.encode_eq hnumeric rfl hv,
      ht.valid_describe hnumeric⟩
  · refine .inr ⟨fun h => hv0 (hcase.1 h rfl), fun tag size => ?_⟩
    have hnot : sameNumber 0 d = false := by
      rw [Bool.eq_false_iff]
      exact fun h => hv0 (hsame.1 h).symm
    rw [hnot, Bool.and_false, if_neg Bool.false_ne_true] at hpublic
    have hnumeric : ∃ e, enumNumeric values true (publicDefault cat f d) = .error e := by
      rw [hpublic]
      cases values.find? fun kv => sameNumber kv.2 d with
      | some kv => exact ⟨_, rfl⟩
      | none =>
        cases d with
        | uint n => exact ⟨_, rfl⟩
        | int i => exact ⟨_, rfl⟩
        | _ => cases hd
    obtain ⟨e, he⟩ := hnumeric
    exact ⟨e, ht.encode_error he⟩

/-- Every default that denotes a value is translated or refused. -/
theorem Denotes.translated (hden : Denotes cat f.type d b) (native : Native) (symbols : Symbols) :
    Translated cat native symbols f d b := by
  generalize htype : f.type = type at hden
  cases hden with
  | yes =>
    have hs : scalar? f.type = some .bool := htype ▸ scalar?_bool
    refine translated_scalar hs (fun _ _ h => by cases h) (by rw [describeNamed, hs]) ?_ (by decide)
    intro native symbols size
    rw [publicDefault, if_pos ⟨htype, rfl⟩]
    rfl
  | no =>
    have hs : scalar? f.type = some .bool := htype ▸ scalar?_bool
    refine translated_scalar hs (fun _ _ h => by cases h) (by rw [describeNamed, hs]) ?_ (by decide)
    intro native symbols size
    rw [publicDefault, if_neg (fun h => absurd h.2 (by decide)), if_pos ⟨htype, rfl⟩]
    rfl
  | interface hd =>
    have hs : scalar? f.type = some .interface := scalar?_interface.2 htype
    have hall : sameNumber 4294967295 d = true :=
      (sameNumber_iff (by decide) (le_refl 8) (by decide : inRange false 8 4294967295 = true)
        (by decide) hd).2 rfl
    have hbool : f.type ≠ utf8 "bool" := by
      rw [htype]
      decide
    refine translated_scalar hs (fun _ _ h => by cases h) (by rw [describeNamed, hs]) ?_ (by decide)
    intro native symbols size
    rw [publicDefault, if_neg (fun h => hbool h.1), if_neg (fun h => hbool h.1),
      if_pos ⟨htype, hall⟩]
    rfl
  | integer ht hd hv =>
    subst htype
    exact translated_integer ht hd hv
  | symbol ht hkv hd =>
    subst htype
    exact translated_symbol ht hkv hd
  | flags ht hchosen hd hv hbits =>
    subst htype
    exact translated_flags ht hd hv

/-- A default is written if `PublicDefault` has a case for it and there is room. -/
theorem Denotes.encode_iff (hden : Denotes cat f.type d b) :
    encode cat native symbols fieldLevels f.type tag size (publicDefault cat f d) = .ok b ↔
      size + b.length ≤ Limits.nativePayloadBytes ∧ HasPublic cat f.type d := by
  rcases hden.translated native symbols with ⟨hpublic, h⟩ | ⟨hpublic, h⟩
  · rw [h.encodes, putBytes_eq_ok_iff, and_iff_left rfl, and_iff_left hpublic]
  · obtain ⟨e, he⟩ := h tag size
    rw [he]
    exact ⟨fun h => (by cases h), fun h => absurd h.2 hpublic⟩

/-- The length of an array is written as the default of its counter if it is that number, of a type
that is written as a plain number. -/
theorem Denotes.encode_count_iff (hden : Denotes cat f.type d b) (k : Nat) :
    encode cat native symbols fieldLevels f.type tag size (.uint k) = .ok b ↔
      size + b.length ≤ Limits.nativePayloadBytes ∧ d.int? = some (k : Int) ∧
        ∃ n signed width, IntegerType cat n f.type signed width ∧ width ≠ 8 ∧ n < fieldLevels := by
  have hno : ∀ {type : Bytes} {s : Scalar}, scalar? type = some s →
      (∀ signed width, s ≠ .int signed width) →
      ¬ ∃ n signed width, IntegerType cat n type signed width ∧ width ≠ 8 ∧ n < fieldLevels := by
    rintro type s hs hint ⟨n, signed, width, ht, -⟩
    cases ht with
    | primitive hs' => exact hint _ _ (Option.some.inj (hs.symm.trans hs'))
    | «alias» hs' =>
      rw [hs] at hs'
      cases hs'
  generalize f.type = type at hden ⊢
  cases hden with
  | yes =>
    rw [fieldLevels, encode, scalar?_bool]
    exact iff_of_false (fun h => by cases h) fun h => hno scalar?_bool (by simp) h.2.2
  | no =>
    rw [fieldLevels, encode, scalar?_bool]
    exact iff_of_false (fun h => by cases h) fun h => hno scalar?_bool (by simp) h.2.2
  | interface hd =>
    have hs : scalar? (utf8 "vl_api_interface_index_t") = some .interface := scalar?_interface.2 rfl
    rw [fieldLevels, encode, hs]
    exact iff_of_false (fun h => by cases h) fun h => hno hs (by simp) h.2.2
  | @integer n _ signed width _ v ht hd hv =>
    by_cases hcase : width ≠ 8 ∧ n < fieldLevels
    · obtain ⟨hw, hlt⟩ := hcase
      rw [ht.encode_eq hlt]
      have hvalue : intValue signed width (.uint k) =
          if inRange signed width k then .ok (k : Int)
          else .error (invalid "Integer is out of range") := by
        rw [intValue, if_neg hw]
      rw [hvalue]
      by_cases hk : inRange signed width k = true
      · rw [if_pos hk]
        change putBytes size (nativeInt width k) = _ ↔ _
        rw [putBytes_eq_ok_iff, hd, Option.some_inj]
        refine and_congr_right fun _ => ⟨fun h => ⟨?_, n, signed, width, ht, hw, hlt⟩, fun h => ?_⟩
        · exact (nativeInt_inj ht.width_pos.1 ht.width_pos.2 hk hv h).symm
        · rw [h.1]
      · rw [if_neg hk]
        refine iff_of_false (fun h => by cases h) fun h => hk ?_
        rw [hd, Option.some_inj] at h
        exact h.2.1 ▸ hv
    · refine iff_of_false (fun h => ?_) ?_
      · by_cases hdeep : fieldLevels ≤ n
        · obtain ⟨e, he⟩ := @IntegerType.encode_deep cat native symbols n width size type signed tag
            (.uint k) ht _ hdeep
          rw [he] at h
          cases h
        · obtain rfl : width = 8 := by
            by_contra hw
            exact hcase ⟨hw, not_le.1 hdeep⟩
          rw [ht.encode_eq (not_le.1 hdeep)] at h
          cases h
      · rintro ⟨-, -, n', signed', width', ht', hw, hlt⟩
        obtain ⟨rfl, rfl, rfl⟩ := ht.unique ht'
        exact hcase ⟨hw, hlt⟩
  | symbol ht hkv hd =>
    refine iff_of_false (fun h => ?_) fun h => ?_
    · rw [fieldLevels, ht.encode_error (e := invalid "Unknown enum symbol") rfl] at h
      cases h
    · obtain ⟨-, -, _, _, _, hi, -⟩ := h
      exact ht.not_integer hi
  | flags ht hchosen hd hv hbits =>
    refine iff_of_false (fun h => ?_) fun h => ?_
    · rw [fieldLevels, ht.encode_error
        (e := invalid "Flags must be an array of symbolic names") rfl] at h
      cases h
    · obtain ⟨-, -, _, _, _, hi, -⟩ := h
      exact ht.not_integer hi

/-- What `Describe` shows as the default of a field is what `Encode` takes it for. -/
theorem shown_of_hasPublic {before after : List Field} (hs : scalar? name = none)
    (hcat : cat name = some (.struct (before ++ f :: after)))
    (hname : ∀ g ∈ before ++ after, g.name ≠ f.name) (hlen : f.length = none)
    (hdefault : f.default = some d) (hden : Denotes cat f.type d b)
    (hpublic : f.name ∈ counts (before ++ f :: after) ∨ HasPublic cat f.type d) {item v : Json}
    (hitem : ((Describe cat name).get? "properties").bind (·.get? f.name) = some item)
    (hv : item.get? "default" = some v) : Valid item v := by
  rw [Describe, levels, describe] at hitem
  cases hnamed : describeNamed cat name with
  | some named =>
    -- an address or a prefix is shown as a text, without its fields
    rw [hnamed] at hitem
    simp only [describeNamed, hs] at hnamed
    split at hnamed
    · cases hnamed
      cases hitem
    · cases hnamed
  | none =>
    rw [hnamed, hcat] at hitem
    change ((properties cat (describe cat 32) (counts (before ++ f :: after))
      (before ++ f :: after)).get? f.name) = some item at hitem
    rw [get?_properties, Option.map_eq_some_iff] at hitem
    obtain ⟨g, hg, rfl⟩ := hitem
    have hmem := List.mem_reverse.1 (List.mem_of_find?_eq_some hg)
    obtain ⟨hsame, hcounts⟩ : g.name = f.name ∧ f.name ∉ counts (before ++ f :: after) := by
      simpa using List.find?_some hg
    obtain rfl : g = f := by
      by_contra hne
      refine hname g ?_ hsame
      rcases List.mem_append.1 hmem with h | h
      · exact List.mem_append_left _ h
      · exact List.mem_append_right _ ((List.mem_cons.1 h).resolve_left hne)
    obtain ⟨-, htranslates⟩ := (hden.translated Native.plain {}).resolve_right
      fun h => h.1 (hpublic.resolve_left hcounts)
    have hshown : v = publicDefault cat g d := by
      unfold describeField at hv
      rw [hdefault] at hv
      dsimp only at hv
      generalize (if g.isFixedString = true then _ else _ : Json) = item at hv
      cases item with
      | obj m =>
        rw [Json.set, Json.get?_obj, Json.find_setKey_self] at hv
        exact (Option.some.inj hv).symm
      | _ => cases hv
    rw [valid_describeField, hshown, Field.isFixedString, hlen]
    simpa using show Valid (describe cat 32 g.type) _ from htranslates.valid

end

/-! ## Two defaults that are not usable -/

/-- A flag enum, an alias of an integer of 64 bits, and a message with a default of each. -/
def sampleDefaults : Catalog := fun name =>
  if name = utf8 "vl_api_flags_t" then some (.enum "u8" [("A", 1), ("B", 2)] true)
  else if name = utf8 "vl_api_cookie_t" then some (.alias "u64" none)
  else if name = utf8 "set_flags" then
    some (.struct [{ name := "flags", type := "vl_api_flags_t", default := some (.uint 1) }])
  else if name = utf8 "set_cookie" then
    some (.struct [{ name := "cookie", type := "vl_api_cookie_t", default := some (.uint 7) }])
  else if name = utf8 "set_mtu" then
    some (.struct [{ name := "mtu", type := "u32", default := some (.uint 1500) }])
  else none

end VppJson.Schema
