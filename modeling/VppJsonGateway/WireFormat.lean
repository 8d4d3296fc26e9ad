import VppJsonGateway.Generator
import VppJsonGateway.Lib.Reading

/-!
# Native payloads

`Shaped` says what octets a native value of a type is made of, without reading any of its JSON.
What `encode` appends and what `decode` consumes is shaped (`encode_shaped`, `decode_shaped`), so
a fact about the layout of payloads needs one proof, about `Shaped`, for both directions.
-/

namespace VppJson.Schema

open Lib

/-! ## Well-formed catalogs -/

/-- The size of the types `Convert` treats by name and `FixedSize` looks up. -/
def Scalar.builtinSize? : Scalar → Option Nat
  | .interface | .ip4 => some 4
  | .ip6 => some 16
  | .mac => some 6
  | _ => none

/-- What the layout of a catalog is assumed to satisfy. -/
structure Layouts (cat : Catalog) : Prop where
  distinct : ∀ {name fields}, cat name = some (.struct fields) → (fields.map (·.name)).Nodup
  counted : ∀ {name fields}, cat name = some (.struct fields) →
    ∀ f ∈ fields, f.count.isSome → f.length = some 0
  enums : ∀ {name type values flags}, cat name = some (.enum type values flags) →
    ∃ signed width, scalar? type = some (.int signed width)
  primitives : ∀ {name}, (primitiveSize? name).isSome → cat name = none
  builtins : ∀ {name s n}, scalar? name = some s → s.builtinSize? = some n → (cat name).isSome →
    fixedSize cat levels name = n ∧ isVariable cat levels name = false

/-- The size of the types `FixedSize` knows by name, by scalar. -/
def Scalar.primitive? : Scalar → Option Int
  | .int _ width => some width
  | .float width => some width
  | .bool => some 1
  | .string => some 4
  | _ => none

/-- What a lookup finds is in the list. -/
theorem mem_of_lookup {α : Type} {l : List (Bytes × α)} {k : Bytes} {v : α}
    (h : l.lookup k = some v) : (k, v) ∈ l := by
  induction l with
  | nil => cases h
  | cons kv l ih =>
    obtain ⟨k', v'⟩ := kv
    rw [List.lookup_cons] at h
    split at h
    · next hk =>
      cases h
      rw [eq_of_beq hk]
      exact List.mem_cons_self
    · exact List.mem_cons_of_mem _ (ih h)

/-- A scalar is a primitive of `FixedSize`, except for the addresses and the interface index. -/
theorem primitiveSize?_of_scalar {name : Bytes} {s : Scalar} (h : scalar? name = some s) :
    primitiveSize? name = s.primitive? := by
  have hall : ∀ p ∈ scalars, primitiveSize? p.1 = p.2.primitive? := by decide +kernel
  exact hall _ (mem_of_lookup h)

/-- A name with a size in the source's table is one of the types of numbers, truth values or
texts. -/
theorem scalar?_of_primitiveSize? {name : Bytes} {n : Int} (h : primitiveSize? name = some n) :
    ∃ s, scalar? name = some s ∧ s.primitive? = some n := by
  have hall : ∀ p ∈ primitives, (scalar? p.1).bind Scalar.primitive? = some p.2 := by decide +kernel
  exact Option.bind_eq_some_iff.1 (hall _ (mem_of_lookup h))

theorem scalar?_string : scalar? (utf8 "string") = some .string := by decide +kernel

/-- `string` is the only name of a text. -/
theorem eq_string_of_scalar {name : Bytes} (h : scalar? name = some .string) :
    name = utf8 "string" := by
  have hall : ∀ p ∈ scalars, p.2 = .string → p.1 = utf8 "string" := by decide +kernel
  exact hall _ (mem_of_lookup h) rfl

/-! ## Sizes and levels -/

section Levels

variable {cat : Catalog}

/-- The part of a field does not change with the size of its type, where that is known. -/
theorem fieldSize_congr {f : Field} {s t : Int} (h : 0 ≤ s → t = s) (hs : 0 ≤ fieldSize f s) :
    fieldSize f t = fieldSize f s := by
  unfold fieldSize at hs ⊢
  split
  · rfl
  · next h1 =>
    split
    · rfl
    · next h2 =>
      rw [if_neg h1, if_neg h2] at hs
      by_cases hl : f.length.getD 1 = 0
      · simp [hl]
      · have : 0 ≤ s := nonneg_of_mul_nonneg_left hs (by omega)
        rw [h this]

/-- The size of a structure or union depends on the sizes of its fields only, and a size that is
known is that of each field. -/
theorem fieldsSize_congr {u : Bool} {s t : Bytes → Int} {fs : List Field}
    (h : ∀ f ∈ fs, 0 ≤ s f.type → t f.type = s f.type) :
    ∀ {acc : Int}, 0 ≤ fieldsSize u s acc fs → fieldsSize u t acc fs = fieldsSize u s acc fs := by
  induction fs with
  | nil => intro acc _; rfl
  | cons f fs ih =>
    intro acc hs
    simp only [fieldsSize] at hs ⊢
    split at hs
    · omega
    · next hpart =>
      have hf : fieldSize f (t f.type) = fieldSize f (s f.type) :=
        fieldSize_congr (h f (by simp)) (by omega)
      rw [hf, if_neg hpart, if_neg hpart]
      exact ih (fun g hg => h g (by simp [hg])) hs

/-- A size found with some levels is found with more. -/
theorem fixedSize_succ : ∀ {fuel : Nat} {name : Bytes}, 0 ≤ fixedSize cat fuel name →
    fixedSize cat (fuel + 1) name = fixedSize cat fuel name
  | 0, _, h => by simp [fixedSize] at h
  | fuel + 1, name, h => by
    rw [fixedSize] at h ⊢
    conv_rhs => rw [fixedSize]
    cases hp : primitiveSize? name with
    | some n => rfl
    | none =>
      simp only [hp] at h ⊢
      cases hc : cat name with
      | none => rfl
      | some d =>
        simp only [hc] at h ⊢
        cases d with
        | «alias» type length =>
          dsimp only at h ⊢
          split at h
          · omega
          · next hs => rw [fixedSize_succ (by omega)]
        | enum type values flags =>
          dsimp only at h ⊢
          split at h
          · omega
          · next hs => rw [fixedSize_succ (by omega)]
        | struct fields => exact fieldsSize_congr (fun f _ hf => fixedSize_succ hf) h
        | union fields => exact fieldsSize_congr (fun f _ hf => fixedSize_succ hf) h

/-- A size that is found with some fuel is the one found with more. -/
theorem fixedSize_mono {fuel fuel' : Nat} {name : Bytes} (hle : fuel ≤ fuel')
    (h : 0 ≤ fixedSize cat fuel name) : fixedSize cat fuel' name = fixedSize cat fuel name := by
  induction fuel', hle using Nat.le_induction with
  | base => rfl
  | succ n _ ih => rw [fixedSize_succ (by omega), ih]

/-- Two levels that both find a size find the same. -/
theorem fixedSize_unique {fuel fuel' : Nat} {name : Bytes} (h : 0 ≤ fixedSize cat fuel name)
    (h' : 0 ≤ fixedSize cat fuel' name) : fixedSize cat fuel' name = fixedSize cat fuel name := by
  rcases Nat.le_total fuel fuel' with hle | hle
  · exact fixedSize_mono hle h
  · exact (fixedSize_mono hle h').symm

end Levels

/-! ## The shape of a payload -/

/-- The octets of a scalar. -/
def ScalarShaped : Scalar → Bytes → Prop
  | .int _ width, b => b.length = width
  | .float width, b => b.length = width
  | .bool, b => b.length = 1
  | .string, b => ∃ head text : Bytes, b = head ++ text ∧ head.length = 4 ∧ leNat head = text.length
  | .interface, b => b.length = 4
  | .ip4, b => b.length = 4
  | .ip6, b => b.length = 16
  | .mac, b => b.length = 6

/-- An array of `count` items. -/
def ItemsShaped (shaped : Bytes → Prop) (count : Nat) (b : Bytes) : Prop :=
  ∃ parts : List Bytes, parts.length = count ∧ (∀ p ∈ parts, shaped p) ∧ b = parts.flatten

/-- The types of a counter. -/
def isCounter (type : Bytes) : Prop :=
  type = utf8 "u8" ∨ type = utf8 "u16" ∨ type = utf8 "u32"

/-- A field after the fields `before` with their octets. An array that is counted has as many
items as the octets of its counter say. -/
def FieldShaped (shaped : Bytes → Bytes → Prop) (before : List (Field × Bytes)) (f : Field)
    (b : Bytes) : Prop :=
  if f.isFixedString then b.length = f.length.getD 0
  else if f.type ≠ utf8 "string" ∧ f.length.isSome then
    ∃ count, ItemsShaped (shaped f.type) count b ∧ (f.count = none → f.length = some count) ∧
      ∀ g q, (g, q) ∈ before → f.count = some g.name → isCounter g.type →
        g.length = none ∧ count = leNat q
  else shaped f.type b

/-- The fields of a struct, after the fields `before`. -/
def FieldsShaped (shaped : Bytes → Bytes → Prop) : List (Field × Bytes) → List Field → Bytes → Prop
  | _, [], b => b = []
  | before, f :: fs, b => ∃ p rest, b = p ++ rest ∧ FieldShaped shaped before f p ∧
      FieldsShaped shaped (before ++ [(f, p)]) fs rest

/-- Octets a value of a type is made of. -/
def Shaped (cat : Catalog) : Nat → Bytes → Bytes → Prop
  | 0, _, _ => False
  | fuel + 1, name, b =>
    match scalar? name with
    | some s => ScalarShaped s b
    | none =>
      match cat name with
      | none => False
      | some (.alias type none) => Shaped cat fuel type b
      | some (.alias type (some count)) => ItemsShaped (Shaped cat fuel type) count b
      | some (.enum type _ _) => Shaped cat fuel type b
      | some (.union _) => (b.length : Int) = fixedSize cat levels name
      | some (.struct fields) => FieldsShaped (Shaped cat fuel) [] fields b

/-! ## What is encoded is shaped -/

/-- Naming the field of an error leaves a result as it is. -/
theorem atField_eq_ok {α : Type} {f : Field} {x : Except Status α} {a : α} :
    atField f x = .ok a ↔ x = .ok a := by
  cases x with
  | error e => simp [atField]
  | ok a => simp [atField]

/-- What is appended are the octets themselves. -/
theorem putBytes_eq_ok {size : Nat} {data b : Bytes} (h : putBytes size data = .ok b) :
    b = data := by
  unfold putBytes at h
  split at h
  · cases h
  · cases h; rfl

/-- What is taken is the front of the input. -/
theorem takeBytes_eq_ok {count : Nat} {input b rest : Bytes}
    (h : takeBytes count input = .ok (b, rest)) : input = b ++ rest ∧ b.length = count := by
  unfold takeBytes at h
  split at h
  · cases h
  · cases h
    exact ⟨(List.take_append_drop _ _).symm, by rw [List.length_take]; omega⟩

/-- Each octet of a MAC address has two digits, with a colon between two octets. -/
theorem length_of_macBytes : ∀ {text b : Bytes}, macBytes text = some b →
    text.length + 1 = 3 * b.length
  | [], _, h => by simp [macBytes] at h
  | [_], _, h => by simp [macBytes] at h
  | x :: y :: rest, b, h => by
    unfold macBytes at h
    split at h
    · split at h
      · cases h; rfl
      · split at h
        · obtain ⟨b', hb', rfl⟩ := Option.map_eq_some_iff.1 h
          have := length_of_macBytes hb'
          simp only [List.length_cons] at this ⊢
          omega
        · cases h
    · cases h

/-- A text that is padded or cut has the length asked for. -/
theorem length_resize (n : Nat) (b : Bytes) : (resize n b).length = n := by
  simp only [resize, List.length_append, List.length_take, List.length_replicate]
  omega

section Encode

variable {cat : Catalog} {native : Native} {symbols : Symbols}

/-- What a scalar appends is shaped, case by case as the source distinguishes them. -/
theorem encodeScalar_shaped {size : Nat} {value : Json} {s : Scalar} {b : Bytes}
    (h : encodeScalar native symbols size value s = .ok b) : ScalarShaped s b := by
  cases s with
  | int signed width =>
    obtain ⟨v, -, hv⟩ := bind_eq_ok.1 h
    rw [putBytes_eq_ok hv]
    exact length_leBytes _ _
  | float width =>
    obtain ⟨v, -, hv⟩ := bind_eq_ok.1 h
    rw [putBytes_eq_ok hv]
    exact v.2
  | bool =>
    simp only [encodeScalar] at h
    split at h
    · rw [putBytes_eq_ok h]; rfl
    · cases h
  | string =>
    simp only [encodeScalar] at h
    split at h
    · next text =>
      obtain ⟨head, hhead, h⟩ := bind_eq_ok.1 h
      split at h
      · cases h
      · obtain ⟨body, hbody, h⟩ := bind_eq_ok.1 h
        cases h
        refine ⟨head, body, rfl, ?_, ?_⟩
        · rw [putBytes_eq_ok hhead]; exact length_leBytes _ _
        · have hmod : text.length % 2 ^ 32 < 256 ^ 4 := Nat.mod_lt _ (by decide)
          rw [putBytes_eq_ok hhead, putBytes_eq_ok hbody, leNat_leBytes_of_lt hmod,
            List.length_take, Nat.min_eq_left (Nat.mod_le _ _)]
    · cases h
  | interface =>
    simp only [encodeScalar] at h
    split at h
    · obtain ⟨i, -, hi⟩ := bind_eq_ok.1 h
      rw [putBytes_eq_ok hi]
      exact length_leBytes _ _
    · cases h
  | ip4 =>
    simp only [encodeScalar] at h
    split at h
    · split at h
      · next a _ => rw [putBytes_eq_ok h]; exact a.2
      · cases h
    · cases h
  | ip6 =>
    simp only [encodeScalar] at h
    split at h
    · split at h
      · next a _ => rw [putBytes_eq_ok h]; exact a.2
      · cases h
    · cases h
  | mac =>
    simp only [encodeScalar] at h
    split at h
    · split at h
      · next a ha =>
        split at h
        · next hlen =>
          have := length_of_macBytes ha
          rw [putBytes_eq_ok h]
          show a.length = 6
          omega
        · cases h
      · cases h
    · cases h

/-- The elements of an array append one shaped part each. -/
theorem encodeItems_shaped {enc : Nat → Json → Except Status Bytes} {shaped : Bytes → Prop}
    (henc : ∀ {size v b}, enc size v = .ok b → shaped b) {items : List Json} :
    ∀ {size : Nat} {b : Bytes}, encodeItems enc size items = .ok b →
      ItemsShaped shaped items.length b := by
  induction items with
  | nil =>
    intro size b h
    cases h
    exact ⟨[], rfl, by simp, rfl⟩
  | cons item items ih =>
    intro size b h
    obtain ⟨p, hp, h⟩ := bind_eq_ok.1 h
    obtain ⟨rest, hrest, h⟩ := bind_eq_ok.1 h
    cases h
    obtain ⟨parts, hlen, hall, rfl⟩ := ih hrest
    refine ⟨p :: parts, by simp [hlen], ?_, rfl⟩
    intro q hq
    rcases List.mem_cons.1 hq with rfl | hq
    · exact henc hp
    · exact hall q hq

/-- An object holds the numbers of the counters among the fields `before`, whose octets are
given with them. -/
def Tracks (object : Json) (before : List (Field × Bytes)) : Prop :=
  ∀ g q, (g, q) ∈ before → isCounter g.type →
    (object.get? g.name).bind counterValue = if g.length = none then some (leNat q) else none

/-- The count of an array is its fixed length, or what its counting field says in the object. -/
theorem arrayCount_eq_ok {object : Json} {f : Field} {length count : Nat}
    (h : arrayCount object f length = .ok count) :
    (f.count = none → count = length) ∧
      ∀ c, f.count = some c → (object.get? c).bind counterValue = some count := by
  unfold arrayCount at h
  dsimp only at h
  split at h
  · cases h
  · next n hn =>
    split at h
    · cases h
    · cases h
      constructor
      · intro hc
        rw [hc] at hn
        exact (Option.some.inj hn).symm
      · intro c hc
        rw [hc] at hn
        exact hn

/-- The count of an array is the number its counting field was written with. -/
theorem Tracks.counted {object : Json} {before : List (Field × Bytes)} {f : Field} {length count : Nat}
    (h : Tracks object before) (hcount : arrayCount object f length = .ok count) :
    ∀ g q, (g, q) ∈ before → f.count = some g.name → isCounter g.type →
      g.length = none ∧ count = leNat q := by
  intro g q hg hname hcounter
  have h1 := h g q hg hcounter
  rw [(arrayCount_eq_ok hcount).2 _ hname] at h1
  split at h1
  · next hl => exact ⟨hl, Option.some.inj h1⟩
  · cases h1

/-- A counting field is an unsigned number of less than eight octets. -/
theorem scalar?_of_isCounter {type : Bytes} (h : isCounter type) :
    ∃ width, scalar? type = some (.int false width) ∧ width < 8 := by
  rcases h with rfl | rfl | rfl
  · exact ⟨1, by decide +kernel, by decide⟩
  · exact ⟨2, by decide +kernel, by decide⟩
  · exact ⟨4, by decide +kernel, by decide⟩

/-- A counting field is no text. -/
theorem ne_string_of_isCounter {type : Bytes} (h : isCounter type) : type ≠ utf8 "string" := by
  obtain ⟨w, hw, -⟩ := scalar?_of_isCounter h
  rintro rfl
  rw [scalar?_string] at hw
  cases hw

/-- The range of an unsigned number of some width. -/
theorem inRange_unsigned {width : Nat} {v : Int} (h : inRange false width v = true) :
    0 ≤ v ∧ v < (256 ^ width : Nat) := by
  simp only [inRange, Bool.false_eq_true, if_false, decide_eq_true_eq] at h
  refine ⟨h.1, lt_of_lt_of_eq h.2 ?_⟩
  rw [pow_mul]
  norm_num

/-- The octets of an unsigned number in range read back as the number. -/
theorem leNat_nativeInt {width : Nat} {v : Int} (h : inRange false width v = true) :
    leNat (nativeInt width v) = v.toNat := by
  obtain ⟨h0, h1⟩ := inRange_unsigned h
  rw [nativeInt, Int.emod_eq_of_lt h0 h1, leNat_leBytes_of_lt (by omega)]

/-- The 64-bit word of a number that fits in it is the number. -/
theorem word_of_nonneg {v : Int} (h0 : 0 ≤ v) (h1 : v < 2 ^ 64) : word v = v.toNat := by
  rw [word, Int.emod_eq_of_lt h0 h1]

/-- The octets of a counter hold the number its value stands for. -/
theorem counterValue_of_encode {fuel : Nat} {type : Bytes} {tag : Option Json} {size : Nat}
    {item : Json} {b : Bytes} (hc : isCounter type)
    (h : encode cat native symbols fuel type tag size item = .ok b) :
    counterValue item = some (leNat b) := by
  obtain ⟨w, hw, hw8⟩ := scalar?_of_isCounter hc
  cases fuel with
  | zero => cases h
  | succ fuel =>
    simp only [encode, hw] at h
    obtain ⟨v, hv, h⟩ := bind_eq_ok.1 h
    have hbound : (256 : Nat) ^ w < 2 ^ 64 := by
      calc 256 ^ w < 256 ^ 8 := Nat.pow_lt_pow_right (by decide) hw8
        _ = 2 ^ 64 := by norm_num
    rw [putBytes_eq_ok h]
    unfold intValue at hv
    rw [if_neg (by omega)] at hv
    split at hv
    · split at hv
      · next hr => cases hv; rw [leNat_nativeInt hr]; rfl
      · cases hv
    · split at hv
      · next hr =>
        cases hv
        obtain ⟨h0, h1⟩ := inRange_unsigned hr
        rw [leNat_nativeInt hr, counterValue, word_of_nonneg h0 (by omega)]
      · cases hv
    · cases hv

/-- Converting a scalar leaves the JSON value as it was. -/
theorem echo_scalar {fuel : Nat} {name : Bytes} {s : Scalar} (h : scalar? name = some s)
    (v : Json) : echo cat fuel name v = v := by
  cases fuel with
  | zero => rfl
  | succ fuel => simp [echo, h]

/-- An array field is neither a fixed string nor a plain value. -/
theorem isFixedString_eq_false {f : Field} (h : f.type ≠ utf8 "string") : f.isFixedString = false := by
  simp [Field.isFixedString, h]

/-- What one field appends is shaped. The octets of the fields before it are needed for the count of
an array. -/
theorem encodeField_shaped {fuel : Nat} {name : Bytes} {tag : Option Json} {size : Nat}
    {object item : Json} {f : Field} {b : Bytes} {before : List (Field × Bytes)}
    (ih : ∀ {type tag size v b}, encode cat native symbols fuel type tag size v = .ok b →
      Shaped cat fuel type b)
    (ht : Tracks object before)
    (h : encodeField (encode cat native symbols fuel) name tag size object item f = .ok b) :
    FieldShaped (Shaped cat fuel) before f b := by
  unfold encodeField at h
  unfold FieldShaped
  split at h
  · next hfix =>
    rw [if_pos hfix]
    dsimp only at h
    split at h
    · cases h
    · split at h
      · split at h
        · cases h
        · rw [putBytes_eq_ok (atField_eq_ok.1 h)]
          exact length_resize _ _
      · cases h
  · next hfix =>
    rw [if_neg hfix]
    split at h
    · next harr =>
      rw [if_pos harr]
      obtain ⟨count, hcount, h⟩ := bind_eq_ok.1 h
      split at h
      · next items =>
        split at h
        · cases h
        · next hlen =>
          have hitems := encodeItems_shaped (fun hb => ih hb) (atField_eq_ok.1 h)
          obtain ⟨n, hn⟩ := Option.isSome_iff_exists.1 harr.2
          refine ⟨count, by rwa [not_not.1 hlen] at hitems, ?_, ht.counted hcount⟩
          intro hnone
          rw [(arrayCount_eq_ok hcount).1 hnone, hn]
          rfl
      · cases h
    · next harr =>
      rw [if_neg harr]
      obtain ⟨selected, -, h⟩ := bind_eq_ok.1 h
      exact ih (atField_eq_ok.1 h)

/-- The value of a field is what the object has under its name afterwards; the other members
stay. -/
theorem fieldItem_eq_ok {object item object' : Json} {f : Field} (hobj : object.isObject = true)
    (h : fieldItem cat object f = .ok (item, object')) :
    object'.isObject = true ∧ object'.get? f.name = some item ∧
      ∀ k, k ≠ f.name → object'.get? k = object.get? k := by
  unfold fieldItem at h
  split at h
  · next hg => cases h; exact ⟨hobj, hg, fun _ _ => rfl⟩
  · cases h
    obtain ⟨m, rfl⟩ := Json.isObject_iff.1 hobj
    exact ⟨rfl, Json.find_setKey_self _ _ _, fun k hk => Json.find_setKey_of_ne hk _ _⟩
  · cases h

/-- A counter that is encoded is tracked. -/
theorem counterValue_of_encodeField {fuel : Nat} {name : Bytes} {tag : Option Json} {size : Nat}
    {object item : Json} {f : Field} {b : Bytes} (hc : isCounter f.type)
    (h : encodeField (encode cat native symbols fuel) name tag size object item f = .ok b) :
    counterValue (echoField (echo cat fuel) f item) =
      if f.length = none then some (leNat b) else none := by
  have hne := ne_string_of_isCounter hc
  have hfix := isFixedString_eq_false hne
  obtain ⟨w, hw, -⟩ := scalar?_of_isCounter hc
  unfold encodeField at h
  rw [if_neg (by simp [hfix])] at h
  unfold echoField
  cases hl : f.length with
  | none =>
    rw [if_neg (by simp [hl])] at h
    obtain ⟨selected, -, h⟩ := bind_eq_ok.1 h
    rw [if_neg (by simp [hfix]), if_pos rfl, echo_scalar hw]
    exact counterValue_of_encode hc (atField_eq_ok.1 h)
  | some n =>
    rw [if_pos (by simp [hl, hne])] at h
    obtain ⟨count, -, h⟩ := bind_eq_ok.1 h
    rw [if_pos (by simp [hne])]
    split at h
    · rfl
    · cases h

/-- The fields in turn: induction on the list, with the fields already written and their octets in
the invariant. -/
theorem encodeFields_shaped {fuel : Nat} {name : Bytes} {tag : Option Json}
    (ih : ∀ {type tag size v b}, encode cat native symbols fuel type tag size v = .ok b →
      Shaped cat fuel type b) {fs : List Field} :
    ∀ {before : List (Field × Bytes)} {size : Nat} {object : Json} {b : Bytes},
      object.isObject = true → Tracks object before →
      (before.map (·.1.name) ++ fs.map (·.name)).Nodup →
      encodeFields cat (encode cat native symbols fuel) (echo cat fuel) name tag size object fs
        = .ok b →
      FieldsShaped (Shaped cat fuel) before fs b := by
  induction fs with
  | nil =>
    intro before size object b _ _ _ h
    cases h
    rfl
  | cons f fs ihf =>
    intro before size object b hobj ht hnd h
    obtain ⟨⟨item, object'⟩, hitem, h⟩ := bind_eq_ok.1 h
    obtain ⟨p, hp, h⟩ := bind_eq_ok.1 h
    obtain ⟨rest, hrest, h⟩ := bind_eq_ok.1 h
    cases h
    obtain ⟨hobj', -, hother⟩ := fieldItem_eq_ok hobj hitem
    have hfresh : ∀ g q, (g, q) ∈ before → g.name ≠ f.name := by
      intro g q hg heq
      rw [List.map_cons, List.nodup_append] at hnd
      exact hnd.2.2 g.name (List.mem_map.2 ⟨(g, q), hg, rfl⟩) f.name (by simp) heq
    have ht' : Tracks object' before := by
      intro g q hg hc
      rw [hother _ (hfresh g q hg)]
      exact ht g q hg hc
    refine ⟨p, rest, rfl, encodeField_shaped ih ht' hp, ihf ?_ ?_ ?_ hrest⟩
    · obtain ⟨m, rfl⟩ := Json.isObject_iff.1 hobj'
      rfl
    · obtain ⟨m, rfl⟩ := Json.isObject_iff.1 hobj'
      intro g q hg hc
      rcases List.mem_append.1 hg with hg | hg
      · rw [Json.get?_set_of_ne (hfresh g q hg)]
        exact ht' g q hg hc
      · obtain ⟨rfl, rfl⟩ := Prod.mk.inj (List.mem_singleton.1 hg)
        rw [Json.set_obj, Json.get?_obj, Json.find_setKey_self]
        exact counterValue_of_encodeField hc hp
    · simpa using hnd

/-- Setting the counts keeps an object an object. -/
theorem isObject_of_setCounts {fs : List Field} : ∀ {object object' : Json},
    object.isObject = true → setCounts object fs = .ok object' → object'.isObject = true := by
  induction fs with
  | nil => intro object object' hobj h; cases h; exact hobj
  | cons f fs ih =>
    intro object object' hobj h
    obtain ⟨m, rfl⟩ := Json.isObject_iff.1 hobj
    simp only [setCounts] at h
    split at h
    · exact ih rfl h
    · split at h
      · exact ih rfl h
      · cases h

/-- Before the first field there is nothing to track. -/
theorem tracks_nil (object : Json) : Tracks object [] := fun _ _ h => by cases h

/-- What `encode` appends is shaped. -/
theorem encode_shaped (wf : Layouts cat) : ∀ {fuel : Nat} {name : Bytes} {tag : Option Json}
    {size : Nat} {v : Json} {b : Bytes}, encode cat native symbols fuel name tag size v = .ok b →
    Shaped cat fuel name b
  | 0, _, _, _, _, _, h => by cases h
  | fuel + 1, name, tag, size, v, b, h => by
    have ih : ∀ {type tag size v b}, encode cat native symbols fuel type tag size v = .ok b →
        Shaped cat fuel type b := encode_shaped wf
    simp only [encode] at h
    simp only [Shaped]
    cases hs : scalar? name with
    | some s =>
      simp only [hs] at h
      exact encodeScalar_shaped h
    | none =>
      simp only [hs] at h
      cases hc : cat name with
      | none => simp only [hc] at h; cases h
      | some d =>
        simp only [hc] at h
        cases d with
        | «alias» type length =>
          cases length with
          | none => exact ih h
          | some count =>
            dsimp only at h ⊢
            split at h
            · split at h
              · cases h
              · next hlen =>
                rw [← not_not.1 hlen]
                exact encodeItems_shaped (fun hb => ih hb) h
            · cases h
        | enum type values flags =>
          obtain ⟨numeric, -, h⟩ := bind_eq_ok.1 h
          exact ih h
        | union fields =>
          obtain ⟨v', -, h⟩ := bind_eq_ok.1 h
          unfold encodeUnion at h
          split at h
          · cases h
          · next hsize =>
            split at h
            · cases h
            · split at h
              · cases h
              · split at h
                · cases h
                · obtain ⟨p, -, h⟩ := bind_eq_ok.1 h
                  rw [putBytes_eq_ok h]
                  dsimp only
                  rw [length_resize]
                  omega
        | struct fields =>
          obtain ⟨v', -, h⟩ := bind_eq_ok.1 h
          unfold encodeStruct at h
          split at h
          · obtain ⟨_, -, h⟩ := bind_eq_ok.1 h
            obtain ⟨object, hobject, h⟩ := bind_eq_ok.1 h
            exact encodeFields_shaped ih (isObject_of_setCounts rfl hobject) (tracks_nil _)
              (wf.distinct hc) h
          · cases h

end Encode

/-! ## What is decoded is shaped -/

section Decode

variable {cat : Catalog} {native : Native} {symbols : Symbols}

/-- What a scalar consumes is shaped. -/
theorem decodeScalar_shaped {input rest : Bytes} {v : Json} {s : Scalar}
    (h : decodeScalar native symbols input s = .ok (v, rest)) :
    ∃ b, input = b ++ rest ∧ ScalarShaped s b := by
  cases s with
  | int signed width =>
    obtain ⟨⟨data, rest'⟩, hd, h⟩ := bind_eq_ok.1 h
    cases h
    exact ⟨data, takeBytes_eq_ok hd⟩
  | float width =>
    obtain ⟨⟨data, rest'⟩, hd, h⟩ := bind_eq_ok.1 h
    obtain ⟨x, -, h⟩ := bind_eq_ok.1 h
    cases h
    exact ⟨data, takeBytes_eq_ok hd⟩
  | bool =>
    obtain ⟨⟨data, rest'⟩, hd, h⟩ := bind_eq_ok.1 h
    dsimp only at h
    split at h
    · cases h
    · cases h
      exact ⟨data, takeBytes_eq_ok hd⟩
  | string =>
    obtain ⟨⟨head, rest'⟩, hd, h⟩ := bind_eq_ok.1 h
    dsimp only at h
    split at h
    · cases h
    · obtain ⟨⟨text, rest''⟩, ht, h⟩ := bind_eq_ok.1 h
      cases h
      obtain ⟨rfl, hhead⟩ := takeBytes_eq_ok hd
      obtain ⟨rfl, htext⟩ := takeBytes_eq_ok ht
      exact ⟨head ++ text, (List.append_assoc _ _ _).symm, head, text, rfl, hhead, htext.symm⟩
  | interface =>
    obtain ⟨⟨data, rest'⟩, hd, h⟩ := bind_eq_ok.1 h
    obtain ⟨x, -, h⟩ := bind_eq_ok.1 h
    cases h
    exact ⟨data, takeBytes_eq_ok hd⟩
  | ip4 =>
    obtain ⟨⟨data, rest'⟩, hd, h⟩ := bind_eq_ok.1 h
    dsimp only at h
    split at h
    · cases h
      exact ⟨data, takeBytes_eq_ok hd⟩
    · cases h
  | ip6 =>
    obtain ⟨⟨data, rest'⟩, hd, h⟩ := bind_eq_ok.1 h
    dsimp only at h
    split at h
    · cases h
      exact ⟨data, takeBytes_eq_ok hd⟩
    · cases h
  | mac =>
    obtain ⟨⟨data, rest'⟩, hd, h⟩ := bind_eq_ok.1 h
    cases h
    exact ⟨data, takeBytes_eq_ok hd⟩

/-- The elements of an array consume one shaped part each. -/
theorem decodeItems_shaped {dec : Bytes → Except Status (Json × Bytes)} {shaped : Bytes → Prop}
    (hdec : ∀ {input v rest}, dec input = .ok (v, rest) → ∃ b, input = b ++ rest ∧ shaped b)
    {count : Nat} : ∀ {input rest : Bytes} {items : List Json},
      decodeItems dec count input = .ok (items, rest) →
      ∃ b, input = b ++ rest ∧ ItemsShaped shaped count b := by
  induction count with
  | zero =>
    intro input rest items h
    cases h
    exact ⟨[], rfl, [], rfl, by simp, rfl⟩
  | succ count ih =>
    intro input rest items h
    obtain ⟨⟨item, input'⟩, hitem, h⟩ := bind_eq_ok.1 h
    obtain ⟨⟨items', rest'⟩, hitems, h⟩ := bind_eq_ok.1 h
    cases h
    obtain ⟨p, rfl, hp⟩ := hdec hitem
    obtain ⟨b, rfl, parts, hlen, hall, rfl⟩ := ih hitems
    refine ⟨p ++ parts.flatten, (List.append_assoc _ _ _).symm, p :: parts, by simp [hlen], ?_, rfl⟩
    intro q hq
    rcases List.mem_cons.1 hq with rfl | hq
    · exact hp
    · exact hall q hq

/-- What a counting field decodes to counts as many elements as its octets say. -/
theorem counterValue_of_decode {fuel : Nat} {type : Bytes} {tag : Option Json}
    {b rest : Bytes} {item : Json} (hc : isCounter type)
    (h : decode cat native symbols fuel type tag (b ++ rest) = .ok (item, rest)) :
    counterValue item = some (leNat b) := by
  obtain ⟨w, hw, hw8⟩ := scalar?_of_isCounter hc
  cases fuel with
  | zero => cases h
  | succ fuel =>
    simp only [decode, hw] at h
    obtain ⟨⟨data, rest'⟩, hd, h⟩ := bind_eq_ok.1 h
    cases h
    obtain rfl := List.append_cancel_right (takeBytes_eq_ok hd).1
    rw [intJson, if_neg (by omega), if_neg (by decide), readInt, if_neg (by simp)]
    rfl

/-- A field that is decoded is shaped, and a counter is tracked. -/
theorem decodeField_shaped {fuel : Nat} {name : Bytes} {tag : Option Json} {object : Json}
    {f : Field} {input rest : Bytes} {item : Json} {before : List (Field × Bytes)}
    (ih : ∀ {type tag input v rest}, decode cat native symbols fuel type tag input = .ok (v, rest) →
      ∃ b, input = b ++ rest ∧ Shaped cat fuel type b)
    (ht : Tracks object before)
    (h : decodeField (decode cat native symbols fuel) name tag object input f = .ok (item, rest)) :
    ∃ b, input = b ++ rest ∧ FieldShaped (Shaped cat fuel) before f b ∧
      (isCounter f.type →
        counterValue item = if f.length = none then some (leNat b) else none) := by
  unfold decodeField at h
  unfold FieldShaped
  split at h
  · next hfix =>
    dsimp only at h
    split at h
    · cases h
    · obtain ⟨⟨text, rest'⟩, ht, h⟩ := bind_eq_ok.1 h
      cases h
      obtain ⟨rfl, htext⟩ := takeBytes_eq_ok (atField_eq_ok.1 ht)
      refine ⟨text, rfl, by rwa [if_pos hfix], fun hc => ?_⟩
      rw [isFixedString_eq_false (ne_string_of_isCounter hc)] at hfix
      cases hfix
  · next hfix =>
    split at h
    · next harr =>
      obtain ⟨count, hcount, h⟩ := bind_eq_ok.1 h
      obtain ⟨⟨items, rest'⟩, hitems, h⟩ := bind_eq_ok.1 h
      cases h
      obtain ⟨b, rfl, hb⟩ := decodeItems_shaped (fun hd => ih hd) (atField_eq_ok.1 hitems)
      obtain ⟨n, hn⟩ := Option.isSome_iff_exists.1 harr.2
      refine ⟨b, rfl, ?_, fun _ => by rw [if_neg (by simp [hn])]; rfl⟩
      rw [if_neg hfix, if_pos harr]
      refine ⟨count, hb, ?_, ht.counted hcount⟩
      intro hnone
      rw [(arrayCount_eq_ok hcount).1 hnone, hn]
      rfl
    · next harr =>
      obtain ⟨selected, -, h⟩ := bind_eq_ok.1 h
      have hd := atField_eq_ok.1 h
      obtain ⟨b, rfl, hb⟩ := ih hd
      refine ⟨b, rfl, by rwa [if_neg hfix, if_neg harr], fun hc => ?_⟩
      have hnone : f.length = none := by
        by_contra hl
        exact harr ⟨ne_string_of_isCounter hc, Option.isSome_iff_ne_none.2 hl⟩
      rw [if_pos hnone]
      exact counterValue_of_decode hc hd

/-- The fields in turn, as for `encodeFields_shaped`. -/
theorem decodeFields_shaped {fuel : Nat} {name : Bytes} {tag : Option Json}
    (ih : ∀ {type tag input v rest}, decode cat native symbols fuel type tag input = .ok (v, rest) →
      ∃ b, input = b ++ rest ∧ Shaped cat fuel type b) {fs : List Field} :
    ∀ {before : List (Field × Bytes)} {object object' : Json} {input rest : Bytes},
      object.isObject = true → Tracks object before →
      (before.map (·.1.name) ++ fs.map (·.name)).Nodup →
      decodeFields (decode cat native symbols fuel) name tag object input fs = .ok (object', rest) →
      ∃ b, input = b ++ rest ∧ FieldsShaped (Shaped cat fuel) before fs b := by
  induction fs with
  | nil =>
    intro before object object' input rest _ _ _ h
    cases h
    exact ⟨[], rfl, rfl⟩
  | cons f fs ihf =>
    intro before object object' input rest hobj ht hnd h
    obtain ⟨⟨item, input'⟩, hitem, hrest⟩ := bind_eq_ok.1 h
    obtain ⟨p, rfl, hp, hcounter⟩ := decodeField_shaped ih ht hitem
    have hfresh : ∀ g q, (g, q) ∈ before → g.name ≠ f.name := by
      intro g q hg heq
      rw [List.map_cons, List.nodup_append] at hnd
      exact hnd.2.2 g.name (List.mem_map.2 ⟨(g, q), hg, rfl⟩) f.name (by simp) heq
    obtain ⟨m, rfl⟩ := Json.isObject_iff.1 hobj
    have ht' : Tracks ((Json.obj m).set f.name item) (before ++ [(f, p)]) := by
      intro g q hg hc
      rcases List.mem_append.1 hg with hg | hg
      · rw [Json.get?_set_of_ne (hfresh g q hg)]
        exact ht g q hg hc
      · obtain ⟨rfl, rfl⟩ := Prod.mk.inj (List.mem_singleton.1 hg)
        rw [Json.set_obj, Json.get?_obj, Json.find_setKey_self]
        exact hcounter hc
    obtain ⟨b, rfl, hb⟩ := ihf rfl ht' (by simpa using hnd) hrest
    exact ⟨p ++ b, (List.append_assoc _ _ _).symm, p, b, rfl, hp, hb⟩

/-- What `decode` consumes is shaped. -/
theorem decode_shaped (wf : Layouts cat) : ∀ {fuel : Nat} {name : Bytes} {tag : Option Json}
    {input : Bytes} {v : Json} {rest : Bytes},
    decode cat native symbols fuel name tag input = .ok (v, rest) →
    ∃ b, input = b ++ rest ∧ Shaped cat fuel name b
  | 0, _, _, _, _, _, h => by cases h
  | fuel + 1, name, tag, input, v, rest, h => by
    have ih : ∀ {type tag input v rest},
        decode cat native symbols fuel type tag input = .ok (v, rest) →
        ∃ b, input = b ++ rest ∧ Shaped cat fuel type b := decode_shaped wf
    simp only [decode] at h
    simp only [Shaped]
    cases hs : scalar? name with
    | some s =>
      simp only [hs] at h
      exact decodeScalar_shaped h
    | none =>
      simp only [hs] at h
      cases hc : cat name with
      | none => simp only [hc] at h; cases h
      | some d =>
        simp only [hc] at h
        cases d with
        | «alias» type length =>
          cases length with
          | none => exact ih h
          | some count =>
            obtain ⟨⟨items, rest'⟩, hitems, h⟩ := bind_eq_ok.1 h
            cases h
            exact decodeItems_shaped (fun hd => ih hd) hitems
        | enum type values flags =>
          obtain ⟨⟨numeric, rest'⟩, hnumeric, h⟩ := bind_eq_ok.1 h
          obtain ⟨symbol, -, h⟩ := bind_eq_ok.1 h
          cases h
          exact ih hnumeric
        | union fields =>
          dsimp only at h
          unfold decodeUnion at h
          dsimp only at h
          split at h
          · cases h
          · next hsize =>
            split at h
            · cases h
            · split at h
              · cases h
              · next hlen =>
                obtain ⟨⟨item, _⟩, -, h⟩ := bind_eq_ok.1 h
                cases h
                refine ⟨input.take (fixedSize cat levels name).toNat,
                  (List.take_append_drop _ _).symm, ?_⟩
                dsimp only
                rw [List.length_take]
                omega
        | struct fields =>
          obtain ⟨⟨object, rest'⟩, hfields, h⟩ := bind_eq_ok.1 h
          cases h
          exact decodeFields_shaped ih rfl (tracks_nil _) (wf.distinct hc) hfields

end Decode

end VppJson.Schema
