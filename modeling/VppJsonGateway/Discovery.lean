import VppJsonGateway.Descriptions

/-!
# Discovery

What `Encode` accepts is valid against what `Describe` returns, unless it gives a union by a member
that `Describe` hides as a counter.
-/

namespace VppJson.Schema

open Lib

open Json (Valid Keyword)

/-! ## What `Encode` accepts -/

/-- The assumptions on a catalog: the fields of a struct have distinct names, no type has the
name of a primitive, and the textual addresses and prefixes are structs. -/
structure Described (cat : Catalog) : Prop where
  distinct : ∀ {name fields}, cat name = some (.struct fields) → (fields.map (·.name)).Nodup
  primitives : ∀ {name}, (primitiveSize? name).isSome → cat name = none
  textual : ∀ {name d}, (isAddress name || isPrefix name) = true → cat name = some d →
    ∃ fields, d = .struct fields

/-- A field of a value, by the predicate on values of its type. -/
def fieldShown (shown : Json → Prop) (f : Field) (v : Json) : Prop :=
  if f.isFixedString then True
  else if f.type ≠ utf8 "string" ∧ f.length.isSome then ∀ xs, v = .arr xs → ∀ x ∈ xs, shown x
  else shown v

/-- No union in the value is given by a member that has the name of another member's counter. -/
def Shown (cat : Catalog) : Nat → Bytes → Json → Prop
  | 0, _, _ => True
  | fuel + 1, name, v =>
    match describeNamed cat name, cat name with
    | some _, _ => True
    | none, some (.alias type none) => Shown cat fuel type v
    | none, some (.alias type (some _)) => ∀ xs, v = .arr xs → ∀ x ∈ xs, Shown cat fuel type x
    | none, some (.struct fields) => ∀ f ∈ fields, ∀ x, v.get? f.name = some x →
        fieldShown (Shown cat fuel f.type) f x
    | none, some (.union fields) => ∀ f, memberNamed fields v = some f →
        f.name ∉ counts fields ∧ ∀ x, v.get? f.name = some x → Shown cat fuel f.type x
    | none, _ => True

section Encode

variable {cat : Catalog} {native : Native} {symbols : Symbols}

/-- Each element of an array that is encoded is encoded on its own. -/
theorem encodeItems_mem {enc : Nat → Json → Except Status Bytes} :
    ∀ {xs : List Json} {size : Nat} {b : Bytes}, encodeItems enc size xs = .ok b →
      ∀ x ∈ xs, ∃ size b, enc size x = .ok b := by
  intro xs
  induction xs with
  | nil => simp
  | cons y xs ih =>
    intro size b h x hx
    obtain ⟨b₁, hb₁, h⟩ := bind_eq_ok.1 h
    obtain ⟨rest, hrest, -⟩ := bind_eq_ok.1 h
    rcases List.mem_cons.1 hx with rfl | hx
    · exact ⟨_, _, hb₁⟩
    · exact ih hrest x hx

section Induction

variable {fuel : Nat}

/-- The statement at one level less. -/
def ValidIff (cat : Catalog) (native : Native) (symbols : Symbols) (fuel : Nat) : Prop :=
  ∀ {type : Bytes} {tagged : Bool} {tag : Option Json} {size : Nat} {v : Json} {b : Bytes},
    supported cat fuel type tagged = true → encode cat native symbols fuel type tag size v = .ok b →
    (Valid (describe cat fuel type) v ↔ Shown cat fuel type v)

/-- The value of a field is valid if the type of the field is described rightly: as one value, as a
text of fixed length or as an array. -/
theorem valid_field (ih : ValidIff cat native symbols fuel) {f : Field} {tagged : Bool}
    (hsup : supported cat fuel f.type tagged = true) {name : Bytes} {tag : Option Json}
    {size : Nat} {object v : Json} {b : Bytes}
    (h : encodeField (encode cat native symbols fuel) name tag size object v f = .ok b) :
    Valid (describeField cat f (describe cat fuel f.type)) v ↔
      fieldShown (Shown cat fuel f.type) f v := by
  rw [valid_describeField]
  unfold encodeField at h
  unfold fieldShown
  split at h
  · next hfixed =>
    rw [if_pos hfixed, if_pos hfixed]
    refine ⟨fun _ => trivial, fun _ => ?_⟩
    dsimp only at h
    split at h
    · cases h
    · cases v with
      | str text =>
        dsimp only at h
        split at h
        · cases h
        · next hlen =>
          have hstring : f.type = utf8 "string" := by
            simp only [Field.isFixedString, decide_eq_true_eq] at hfixed
            exact hfixed.1
          cases fuel with
          | zero => cases hsup
          | succ fuel =>
            rw [hstring, describe, describeNamed, scalar?_string]
            exact valid_maxLength (by omega)
      | _ => cases h
  · next hfixed =>
    rw [if_neg hfixed, if_neg hfixed]
    split at h
    · next harray =>
      rw [if_pos harray, if_pos harray]
      obtain ⟨count, hcount, h⟩ := bind_eq_ok.1 h
      cases v with
      | arr items =>
        dsimp only at h
        split at h
        · cases h
        · next hlen =>
          have hitems := encodeItems_mem (atField_eq_ok.1 h)
          have hall : (∀ x ∈ items, Valid (describe cat fuel f.type) x) ↔
              ∀ xs, Json.arr items = .arr xs → ∀ x ∈ xs, Shown cat fuel f.type x := by
            refine ⟨?_, fun hx x hmem => ?_⟩
            · rintro hx _ ⟨⟩ x hmem
              obtain ⟨size, b, henc⟩ := hitems x hmem
              exact (ih hsup henc).1 (hx x hmem)
            · obtain ⟨size, b, henc⟩ := hitems x hmem
              exact (ih hsup henc).2 (hx _ rfl x hmem)
          split
          · exact valid_array.trans hall
          · next hnone =>
            have hlength : f.length.getD 0 = items.length := by
              simp only [arrayCount, Option.not_isSome_iff_eq_none.1 hnone] at hcount
              split at hcount
              · cases hcount
              · cases hcount
                omega
            rw [hlength]
            exact valid_fixedArray.trans hall
      | _ => cases h
    · next harray =>
      rw [if_neg harray, if_neg harray]
      obtain ⟨selected, -, h⟩ := bind_eq_ok.1 h
      exact ih hsup (atField_eq_ok.1 h)

/-- An object is valid if its fields are: it has no other keys, and those that it lacks have a
default or are counters. -/
theorem valid_struct (wf : Described cat) (ih : ValidIff cat native symbols fuel) {name : Bytes}
    {fields : List Field} (hc : cat name = some (.struct fields))
    (hsup : ∀ f ∈ fields, ∃ tagged, supported cat fuel f.type tagged = true)
    {tag : Option Json} {size : Nat} {v : Json} {b : Bytes}
    (h : encodeStruct cat (encode cat native symbols fuel) (echo cat fuel) name fields tag size v =
      .ok b) :
    Valid (Json.object [("type", .str "object"), ("additionalProperties", .bool false),
        ("properties", properties cat (describe cat fuel) (counts fields) fields),
        ("required", .arr (required (counts fields) fields))]) v ↔
      ∀ f ∈ fields, ∀ x, v.get? f.name = some x → fieldShown (Shown cat fuel f.type) f x := by
  cases v with
  | obj m =>
    obtain ⟨_, hkeys, h⟩ := bind_eq_ok.1 h
    obtain ⟨object, hobject, h⟩ := bind_eq_ok.1 h
    have hmem := checkKeys_mem hkeys
    have hfields := mem_encodeFields (wf.distinct hc) h
    -- a member of the value is what the fields are encoded from
    have hget : ∀ {k x}, Json.find k m = some x → k ∉ counts fields ∧ object.get? k = some x := by
      intro k x hx
      obtain ⟨kv, hkv, rfl⟩ : ∃ kv ∈ m, kv.1 = k := Json.exists_of_find hx
      have hcount := (hmem kv hkv).2
      exact ⟨hcount, (get?_setCounts hobject hcount).trans hx⟩
    have hprops : ∀ {k f}, f ∈ fields → f.name = k → k ∉ counts fields →
        (properties cat (describe cat fuel) (counts fields) fields).get? k =
          some (describeField cat f (describe cat fuel f.type)) := by
      intro k f hf hk hcount
      rw [get?_properties, find?_of_nodup (wf.distinct hc) hf hk hcount]
      rfl
    refine ⟨?_, fun hshown => Json.valid_object ?_ ?_ ?_⟩
    · intro hvalid f hf x hx
      obtain ⟨hcount, hx'⟩ := hget hx
      obtain ⟨_, _, _, henc⟩ := (hfields f hf).2 x hx'
      obtain ⟨tagged, hsup⟩ := hsup f hf
      exact (valid_field ih hsup henc).1 (hvalid.properties rfl (hprops hf rfl hcount) hx)
    · intro k s hs
      cases k <;> simp [Keyword.text, utf8_inj] at hs
      · subst hs
        rintro _ ⟨⟩
        rfl
      · subst hs
        rintro _ _ n ⟨⟩ ⟨⟩ hn
        obtain ⟨f, hf, hname⟩ := List.mem_map.1 hn
        cases hname
        simp only [List.mem_filter, decide_eq_true_eq] at hf
        obtain ⟨hf, hcount, hdefault⟩ := hf
        cases hx : object.get? f.name with
        | none =>
          have := (hfields f hf).1 hx
          rw [Option.isNone_iff_eq_none.1 hdefault] at this
          cases this
        | some x =>
          rw [get?_setCounts hobject hcount] at hx
          exact Option.isSome_iff_exists.2 ⟨x, hx⟩
      · subst hs
        rintro _ kv - ⟨⟩ hkv
        obtain ⟨⟨f, hf, hname⟩, hcount⟩ := hmem kv hkv
        change ((properties cat (describe cat fuel) (counts fields) fields).get? kv.1).isSome
        rw [hprops hf hname hcount]
        rfl
    · intro s xs hs
      simp [utf8_inj] at hs
    · intro props k s x hp hs hx
      simp [utf8_inj] at hp
      subst hp
      obtain ⟨hcount, hx'⟩ := hget hx
      rw [get?_properties, Option.map_eq_some_iff] at hs
      obtain ⟨f, hf, rfl⟩ := hs
      have hname := List.find?_some hf
      simp only [decide_eq_true_eq] at hname
      have hmemf := List.mem_reverse.1 (List.mem_of_find?_eq_some hf)
      obtain ⟨rfl, -⟩ := hname
      obtain ⟨_, _, _, henc⟩ := (hfields f hmemf).2 x hx'
      obtain ⟨tagged, hsup⟩ := hsup f hmemf
      exact (valid_field ih hsup henc).2 (hshown f hmemf x hx)
  | _ => cases h

/-- A union is valid if it gives one member, and that one is shown. -/
theorem valid_union (ih : ValidIff cat native symbols fuel) {name : Bytes} {fields : List Field}
    (hsup : ∀ f ∈ fields, f.length = none ∧ ∃ tagged, supported cat fuel f.type tagged = true)
    {tag : Option Json} {size : Nat} {v : Json} {b : Bytes}
    (h : encodeUnion cat (encode cat native symbols fuel) name fields tag size v = .ok b) :
    Valid (Json.object [("type", .str "object"), ("additionalProperties", .bool false),
        ("properties", properties cat (describe cat fuel) (counts fields) fields),
        ("minProperties", .int 1), ("maxProperties", .int 1)]) v ↔
      ∀ f, memberNamed fields v = some f →
        f.name ∉ counts fields ∧ ∀ x, v.get? f.name = some x → Shown cat fuel f.type x := by
  unfold encodeUnion at h
  split at h
  · cases h
  split at h
  · cases h
  next hone =>
  simp only [Bool.not_eq_true', not_or, Bool.not_eq_false, ne_eq, not_not] at hone
  obtain ⟨m, rfl⟩ := Json.isObject_iff.1 hone.1
  obtain ⟨⟨k, x⟩, rfl⟩ := List.length_eq_one_iff.1 hone.2
  split at h
  · cases h
  next f hf =>
  split at h
  · cases h
  obtain ⟨_, henc, -⟩ := bind_eq_ok.1 h
  have hcontains : ∀ g : Field, (Json.obj [(k, x)]).contains g.name = decide (g.name = k) := by
    intro g
    by_cases hg : g.name = k
    · simp [Json.contains, Json.find, hg]
    · simp [Json.contains, Json.find, hg]
  have hmemf : f ∈ fields := List.mem_reverse.1 (List.mem_of_find?_eq_some hf)
  obtain ⟨hlength, tagged, hsupf⟩ := hsup f hmemf
  have hname : f.name = k := by
    have := List.find?_some hf
    rw [hcontains] at this
    simpa using this
  subst hname
  have hvalue : (Json.obj [(f.name, x)]).get? f.name = some x := by simp [Json.find]
  rw [hvalue] at henc
  have hprops : f.name ∉ counts fields →
      (properties cat (describe cat fuel) (counts fields) fields).get? f.name =
        some (describeField cat f (describe cat fuel f.type)) := by
    intro hcount
    have hsame : fields.reverse.find? (fun g => g.name = f.name ∧ f.name ∉ counts fields) =
        some f := by
      rw [← hf, memberNamed]
      congr 1
      funext g
      rw [hcontains]
      simp [hcount]
    rw [get?_properties, hsame]
    rfl
  have hplain : Valid (describeField cat f (describe cat fuel f.type)) x ↔
      Shown cat fuel f.type x := by
    rw [valid_describeField, if_neg (by simp [Field.isFixedString, hlength]),
      if_neg (by simp [hlength])]
    exact ih hsupf henc
  refine ⟨fun hvalid => ?_, fun hshown => ?_⟩
  · intro g hg
    obtain rfl : f = g := Option.some.inj (hf.symm.trans hg)
    have hkey := hvalid.own .additionalProperties rfl _ (f.name, x) rfl rfl List.mem_cons_self
    have hcount : f.name ∉ counts fields := by
      intro hcount
      change ((properties cat (describe cat fuel) (counts fields) fields).get? f.name).isSome at hkey
      rw [get?_properties, List.find?_eq_none.2 (fun g _ => by simp [hcount])] at hkey
      cases hkey
    refine ⟨hcount, fun y hy => ?_⟩
    obtain rfl : x = y := Option.some.inj (hvalue.symm.trans hy)
    exact hplain.1 (hvalid.properties rfl (hprops hcount) hvalue)
  · obtain ⟨hcount, hx⟩ := hshown f hf
    refine Json.valid_object ?_ ?_ ?_
    · intro k s hs
      cases k <;> simp [Keyword.text, utf8_inj] at hs
      · subst hs
        rintro _ ⟨⟩
        rfl
      · subst hs
        rintro _ kv - ⟨⟩ hkv
        obtain rfl := List.mem_singleton.1 hkv
        change ((properties cat (describe cat fuel) (counts fields) fields).get? f.name).isSome
        rw [hprops hcount]
        rfl
      · subst hs
        rintro _ _ ⟨⟩ ⟨⟩
        exact le_rfl
      · subst hs
        rintro _ _ ⟨⟩ ⟨⟩
        exact le_rfl
    · intro s xs hs
      simp [utf8_inj] at hs
    · intro props k s y hp hs hy
      simp [utf8_inj] at hp
      subst hp
      have hk : k = f.name := by
        by_contra hk
        simp [Json.find, hk] at hy
      subst hk
      obtain rfl : x = y := Option.some.inj (hvalue.symm.trans hy)
      obtain rfl := Option.some.inj ((hprops hcount).symm.trans hs)
      exact hplain.2 (hx x hvalue)

end Induction

/-- A value that is encoded is valid against the description, exactly when it is shown. -/
theorem valid_encode (wf : Described cat) (hnative : ConvertsNumbers native) :
    ∀ fuel, ValidIff cat native symbols fuel := by
  intro fuel
  induction fuel with
  | zero =>
    intro name tagged tag size v b hsup
    cases hsup
  | succ fuel ih =>
    intro name tagged tag size v b hsup h
    rw [encode] at h
    rw [describe, Shown]
    rw [supported] at hsup
    split at hsup
    · cases hsup
    cases hs : scalar? name with
    | some sc =>
      rw [hs] at h
      cases hj : describeNamed cat name with
      | some j => exact ⟨fun _ => trivial, fun _ => valid_scalar hnative hs hj h⟩
      | none =>
        exfalso
        have hprim := primitiveSize?_of_scalar hs
        rw [describeNamed, hs] at hj
        cases sc with
        | int signed width =>
          dsimp only at hj
          split at hj
          · cases hj
          · rw [wf.primitives (by rw [hprim]; rfl)] at hj
            cases hj
        | _ => cases hj
    | none =>
      rw [hs] at h
      cases hc : cat name with
      | none =>
        simp only [hc] at h
        cases h
      | some d =>
      simp only [hc] at h hsup
      cases htext : isAddress name || isPrefix name with
      | true =>
        have hj : describeNamed cat name =
            some (Json.object [("type", .str "string"), ("format", .str name)]) := by
          rw [describeNamed, hs, htext]
          rfl
        rw [hj]
        refine ⟨fun _ => trivial, fun _ => ?_⟩
        obtain ⟨fields, rfl⟩ := wf.textual htext hc
        obtain ⟨v', hv', -⟩ := bind_eq_ok.1 h
        unfold rewrite at hv'
        rw [if_pos htext] at hv'
        cases v with
        | str text => exact valid_format rfl
        | _ => cases hv'
      | false =>
        have hj : describeNamed cat name = none := by
          rw [describeNamed, hs, htext]
          rfl
        have hrewrite : rewrite name v = .ok v := by
          unfold rewrite
          rw [if_neg (by rw [htext]; decide)]
        rw [hj]
        cases d with
        | «alias» type length =>
          cases length with
          | none => exact ih hsup h
          | some count =>
            cases v with
            | arr items =>
              dsimp only at h
              split at h
              · cases h
              · next hlen =>
                have hitems := encodeItems_mem h
                obtain rfl : items.length = count := by simpa using hlen
                refine valid_fixedArray.trans ⟨?_, fun hx x hmem => ?_⟩
                · rintro hx _ ⟨⟩ x hmem
                  obtain ⟨_, _, henc⟩ := hitems x hmem
                  exact (ih hsup henc).1 (hx x hmem)
                · obtain ⟨_, _, henc⟩ := hitems x hmem
                  exact (ih hsup henc).2 (hx _ rfl x hmem)
            | _ => cases h
        | enum type values flags =>
          obtain ⟨numeric, hnumeric, -⟩ := bind_eq_ok.1 h
          unfold enumNumber at hnumeric
          split at hnumeric
          · cases hnumeric
          · next n hn => exact ⟨fun _ => trivial, fun _ => valid_enum hn⟩
        | struct fields =>
          obtain ⟨v', hv', h⟩ := bind_eq_ok.1 h
          cases hrewrite.symm.trans hv'
          exact valid_struct wf ih hc (fun f hf => ⟨_, List.all_eq_true.1 hsup f hf⟩) h
        | union fields =>
          obtain ⟨v', hv', h⟩ := bind_eq_ok.1 h
          cases hrewrite.symm.trans hv'
          rw [Bool.and_eq_true] at hsup
          refine valid_union ih (fun f hf => ?_) h
          have hf := List.all_eq_true.1 hsup.2 f hf
          rw [Bool.and_eq_true] at hf
          exact ⟨Option.isNone_iff_eq_none.1 hf.1, _, hf.2⟩

/-- **Discovery and encoding.** A value that `Encode` accepts for a supported type is valid against
the schema that `Describe` returns, if and only if it gives no union by a member that has the
name of a counter. -/
theorem describe_encode {type : Bytes} (wf : Described cat) (hnative : ConvertsNumbers native)
    (hsup : supported cat levels type false = true) :
    ∀ v b, Encode cat native symbols type v = .ok b →
      (Valid (Describe cat type) v ↔ Shown cat levels type v) :=
  fun _ _ h => valid_encode wf hnative levels hsup h

end Encode

/-! ## A hidden member -/

/-- A union with a member that has the name of the other's counter. -/
def hiddenMember : Catalog := fun name =>
  if name = utf8 "vl_api_pair_t" then
    some (.union [{ name := "a", type := "u8", count := some "b" }, { name := "b", type := "u8" }])
  else if name = utf8 "pair_set" then
    some (.struct [{ name := "pair", type := "vl_api_pair_t", discriminator := some "kind" }])
  else none

/-- The catalog of the example has descriptions for all its types. -/
theorem described_hiddenMember : Described hiddenMember := by
  have hcat : ∀ {name d}, hiddenMember name = some d →
      (name = utf8 "vl_api_pair_t" ∧ ∃ fields, d = .union fields) ∨
        (name = utf8 "pair_set" ∧ ∃ fields, d = .struct fields ∧ (fields.map (·.name)).Nodup) := by
    intro name d h
    unfold hiddenMember at h
    split at h
    · next hn =>
      cases h
      exact .inl ⟨hn, _, rfl⟩
    · split at h
      · next hn =>
        cases h
        exact .inr ⟨hn, _, rfl, by simp⟩
      · cases h
  refine ⟨?_, ?_, ?_⟩
  · intro name fields h
    rcases hcat h with ⟨-, _, hd⟩ | ⟨-, _, hd, hnodup⟩
    · cases hd
    · cases hd
      exact hnodup
  · intro name hname
    cases hc : hiddenMember name with
    | none => rfl
    | some d =>
      rcases hcat hc with ⟨rfl, -⟩ | ⟨rfl, -⟩
      · exact absurd hname (by decide +kernel)
      · exact absurd hname (by decide +kernel)
  · intro name d hname h
    rcases hcat h with ⟨rfl, -⟩ | ⟨rfl, fields, hd, -⟩
    · exact absurd hname (by decide +kernel)
    · exact ⟨fields, hd⟩

/-- The library functions of the examples take JSON numbers only. -/
theorem convertsNumbers_plain : ConvertsNumbers Native.plain := by
  rintro width v b ⟨⟩

/-- A value by the hidden member is encoded and is not valid. -/
theorem describe_encode_hidden :
    supported hiddenMember levels "pair_set" false = true ∧
    Encode hiddenMember Native.plain {} "pair_set"
      (Json.object [("pair", Json.object [("b", .uint 5)])]) = .ok [5] ∧
    ¬ Valid (Describe hiddenMember "pair_set")
      (Json.object [("pair", Json.object [("b", .uint 5)])]) := by
  refine ⟨by decide +kernel, rfl, fun hvalid => ?_⟩
  have hpair : Valid (describe hiddenMember 32 "vl_api_pair_t") (Json.object [("b", .uint 5)]) :=
    @Valid.properties _ _ hvalid _ _ _ (utf8 "pair") rfl rfl rfl
  exact absurd (hpair.own .additionalProperties rfl _ _ rfl rfl List.mem_cons_self) (by decide +kernel)

/-- A value by the other member is encoded and is valid. -/
theorem describe_encode_shown :
    Encode hiddenMember Native.plain {} "pair_set"
      (Json.object [("pair", Json.object [("a", .uint 5)])]) = .ok [5] ∧
    Valid (Describe hiddenMember "pair_set")
      (Json.object [("pair", Json.object [("a", .uint 5)])]) := by
  have hencode : Encode hiddenMember Native.plain {} "pair_set"
      (Json.object [("pair", Json.object [("a", .uint 5)])]) = .ok [5] := rfl
  refine ⟨hencode, (describe_encode described_hiddenMember convertsNumbers_plain
    (by decide +kernel) _ _ hencode).2 ?_⟩
  rw [levels, Shown, show describeNamed hiddenMember (utf8 "pair_set") = none from rfl]
  intro f hf x hx
  obtain rfl := List.mem_singleton.1 hf
  cases hx
  change Shown hiddenMember 32 (utf8 "vl_api_pair_t") (Json.object [("a", .uint 5)])
  rw [Shown, show describeNamed hiddenMember (utf8 "vl_api_pair_t") = none from rfl]
  intro f hf
  have hmember : f = { name := "a", type := "u8", count := some "b" } :=
    (Option.some.inj hf).symm
  subst hmember
  refine ⟨by decide, fun x _ => ?_⟩
  rw [Shown]
  trivial

end VppJson.Schema
