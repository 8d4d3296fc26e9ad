import VppJsonGateway.ReplyLength

/-!
# The values of a type

`HasValue` says which values a type of a catalog has, and how many octets each takes, from the
catalog alone: a struct has the values its fields have one after the other, a union those of the
member its tag selects. `hasValue_of_decode` and `decode_of_hasValue` say that these are the values
`Convert` decodes. A fact about which values can meet in a payload then needs no payload.
-/

namespace VppJson.Schema

open Lib

section Values

variable (cat : Catalog) (native : Native) (symbols : Symbols)

/-- The values of a scalar, with the octets they take. -/
inductive ScalarValue : Scalar → Json → Nat → Prop
  | int {signed : Bool} {width : Nat} {data : Bytes} (hlength : data.length = width) :
      ScalarValue (.int signed width) (intJson signed width (readInt signed data)) width
  | float {width : Nat} {data : Bytes} {v : Json} (hlength : data.length = width)
      (hv : native.floatValue width data = .ok v) : ScalarValue (.float width) v width
  | bool (b : Bool) : ScalarValue .bool (.bool b) 1
  | string {text : Bytes} (hlength : text.length ≤ Limits.nativePayloadBytes) :
      ScalarValue .string (.str text) (4 + text.length)
  | interface {index : UInt32} {name : Bytes} (hname : interfaceName symbols index = .ok name) :
      ScalarValue .interface (.str name) 4
  | ip4 {data text : Bytes} (hlength : data.length = 4) (htext : native.ntop4 data = some text) :
      ScalarValue .ip4 (.str text) 4
  | ip6 {data text : Bytes} (hlength : data.length = 16) (htext : native.ntop6 data = some text) :
      ScalarValue .ip6 (.str text) 16
  | mac {data : Bytes} (hlength : data.length = 6) : ScalarValue .mac (.str (macText data)) 6

/-- The items of an array, one after the other. -/
def ItemsValue (value : Json → Nat → Prop) : List Json → Nat → Prop
  | [], n => n = 0
  | item :: items, n => ∃ k l, value item k ∧ ItemsValue value items l ∧ n = k + l

/-- The values of a field, next to those an object holds. -/
def FieldValue (value : Bytes → Option Json → Json → Nat → Prop) (name : Bytes) (tag : Option Json)
    (object : Json) (f : Field) (v : Json) (n : Nat) : Prop :=
  if f.isFixedString then
    n = f.length.getD 0 ∧ n ≤ Limits.nativePayloadBytes ∧
      ∃ text : Bytes, text.length ≤ n ∧ 0 ∉ text ∧ v = .str text
  else if f.type ≠ utf8 "string" ∧ f.length.isSome then
    ∃ items, v = .arr items ∧ arrayCount object f (f.length.getD 0) = .ok items.length ∧
      ItemsValue (value f.type none) items n
  else ∃ selected, selectTag name tag object f = .ok selected ∧ value f.type selected v n

/-- The objects the fields of a struct make of one. -/
def FieldsValue (value : Bytes → Option Json → Json → Nat → Prop) (name : Bytes)
    (tag : Option Json) : Json → List Field → Json → Nat → Prop
  | object, [], object', n => object' = object ∧ n = 0
  | object, f :: fs, object', n => ∃ v k l, FieldValue value name tag object f v k ∧
      FieldsValue value name tag (object.set f.name v) fs object' l ∧ n = k + l

/-- The values of a type with a tag, with the octets they take. -/
def HasValue : Nat → Bytes → Option Json → Json → Nat → Prop
  | 0, _, _, _, _ => False
  | fuel + 1, name, tag, v, n =>
    match scalar? name with
    | some s => ScalarValue native symbols s v n
    | none =>
      match cat name with
      | none => False
      | some (.alias type none) => HasValue fuel type tag v n
      | some (.alias type (some count)) => ∃ items, items.length = count ∧ v = .arr items ∧
          ItemsValue (HasValue fuel type none) items n
      | some (.enum type values flags) => ∃ numeric, HasValue fuel type none numeric n ∧
          enumSymbol values flags numeric = .ok v
      | some (.union fields) =>
        ¬ (fixedSize cat levels name < 0 ∨ isVariable cat levels name) ∧
          n = (fixedSize cat levels name).toNat ∧ ∃ f item k, memberOf fields tag = some f ∧
            HasValue fuel f.type none item k ∧ k ≤ n ∧ v = .obj [(f.name, item)]
      | some (.struct fields) => ∃ object, FieldsValue (HasValue fuel) name tag (.obj []) fields object n ∧
          v = unwrite name ((counts fields).foldl (fun o k => o.erase k) object)

end Values

/-! ## What is decoded is a value -/

section Sound

variable {cat : Catalog} {native : Native} {symbols : Symbols}

/-- What a scalar decodes to is one of its values, of as many octets as were taken. -/
theorem scalarValue_of_decode {s : Scalar} {input rest : Bytes} {v : Json}
    (h : decodeScalar native symbols input s = .ok (v, rest)) :
    ∃ b, input = b ++ rest ∧ ScalarValue native symbols s v b.length := by
  cases s with
  | int signed width =>
    obtain ⟨⟨data, rest'⟩, htake, h⟩ := bind_eq_ok.1 h
    cases h
    obtain ⟨hinput, hlength⟩ := takeBytes_eq_ok htake
    refine ⟨data, hinput, ?_⟩
    rw [hlength]
    exact .int hlength
  | float width =>
    obtain ⟨⟨data, rest'⟩, htake, h⟩ := bind_eq_ok.1 h
    obtain ⟨v', hv, h⟩ := bind_eq_ok.1 h
    cases h
    obtain ⟨hinput, hlength⟩ := takeBytes_eq_ok htake
    refine ⟨data, hinput, ?_⟩
    rw [hlength]
    exact .float hlength hv
  | bool =>
    obtain ⟨⟨data, rest'⟩, htake, h⟩ := bind_eq_ok.1 h
    dsimp only at h
    split at h
    · cases h
    · cases h
      obtain ⟨hinput, hlength⟩ := takeBytes_eq_ok htake
      exact ⟨data, hinput, hlength ▸ .bool _⟩
  | string =>
    obtain ⟨⟨head, rest'⟩, htake, h⟩ := bind_eq_ok.1 h
    dsimp only at h
    split at h
    · cases h
    · next hsize =>
      obtain ⟨⟨text, rest''⟩, htake', h⟩ := bind_eq_ok.1 h
      cases h
      obtain ⟨hinput, hlength⟩ := takeBytes_eq_ok htake
      obtain ⟨hinput', hlength'⟩ := takeBytes_eq_ok htake'
      refine ⟨head ++ text, by rw [hinput, hinput', List.append_assoc], ?_⟩
      rw [List.length_append, hlength]
      exact .string (hlength'.le.trans (not_lt.1 hsize))
  | interface =>
    obtain ⟨⟨data, rest'⟩, htake, h⟩ := bind_eq_ok.1 h
    obtain ⟨name, hname, h⟩ := bind_eq_ok.1 h
    cases h
    obtain ⟨hinput, hlength⟩ := takeBytes_eq_ok htake
    exact ⟨data, hinput, hlength ▸ .interface hname⟩
  | ip4 =>
    obtain ⟨⟨data, rest'⟩, htake, h⟩ := bind_eq_ok.1 h
    dsimp only at h
    split at h
    · next text htext =>
      cases h
      obtain ⟨hinput, hlength⟩ := takeBytes_eq_ok htake
      exact ⟨data, hinput, hlength ▸ .ip4 hlength htext⟩
    · cases h
  | ip6 =>
    obtain ⟨⟨data, rest'⟩, htake, h⟩ := bind_eq_ok.1 h
    dsimp only at h
    split at h
    · next text htext =>
      cases h
      obtain ⟨hinput, hlength⟩ := takeBytes_eq_ok htake
      exact ⟨data, hinput, hlength ▸ .ip6 hlength htext⟩
    · cases h
  | mac =>
    obtain ⟨⟨data, rest'⟩, htake, h⟩ := bind_eq_ok.1 h
    cases h
    obtain ⟨hinput, hlength⟩ := takeBytes_eq_ok htake
    exact ⟨data, hinput, hlength ▸ .mac hlength⟩

/-- The elements of an array decode to values of their type. -/
theorem itemsValue_of_decode {dec : Bytes → Except Status (Json × Bytes)}
    {value : Json → Nat → Prop}
    (hdec : ∀ input v rest, dec input = .ok (v, rest) → ∃ b, input = b ++ rest ∧ value v b.length)
    {count : Nat} : ∀ {input rest : Bytes} {items : List Json},
      decodeItems dec count input = .ok (items, rest) →
      items.length = count ∧ ∃ b, input = b ++ rest ∧ ItemsValue value items b.length := by
  induction count with
  | zero =>
    intro input rest items h
    cases h
    exact ⟨rfl, [], rfl, rfl⟩
  | succ count ih =>
    intro input rest items h
    obtain ⟨⟨item, rest'⟩, hitem, h⟩ := bind_eq_ok.1 h
    obtain ⟨⟨items', rest''⟩, hitems, h⟩ := bind_eq_ok.1 h
    cases h
    obtain ⟨b, rfl, hvalue⟩ := hdec _ _ _ hitem
    obtain ⟨hlength, b', rfl, hvalues⟩ := ih hitems
    exact ⟨by rw [List.length_cons, hlength], b ++ b', (List.append_assoc ..).symm, _, _, hvalue,
      hvalues, List.length_append⟩

section Fields

variable {dec : Bytes → Option Json → Bytes → Except Status (Json × Bytes)}
  {value : Bytes → Option Json → Json → Nat → Prop} {name : Bytes} {tag : Option Json}

/-- A field decodes to a value of its type, read with the tag that the object selects. -/
theorem fieldValue_of_decode
    (hdec : ∀ type tag input v rest, dec type tag input = .ok (v, rest) →
      ∃ b, input = b ++ rest ∧ value type tag v b.length)
    {object v : Json} {input rest : Bytes} {f : Field}
    (h : decodeField dec name tag object input f = .ok (v, rest)) :
    ∃ b, input = b ++ rest ∧ FieldValue value name tag object f v b.length := by
  unfold decodeField at h
  split at h
  · next hfixed =>
    dsimp only at h
    split at h
    · cases h
    · next hsize =>
      obtain ⟨⟨text, rest'⟩, htake, h⟩ := bind_eq_ok.1 h
      cases h
      obtain ⟨hinput, hlength⟩ := takeBytes_eq_ok (atField_eq_ok.1 htake)
      refine ⟨text, hinput, ?_⟩
      rw [FieldValue, if_pos hfixed]
      refine ⟨hlength, by omega, cString text, (List.takeWhile_sublist _).length_le, ?_, rfl⟩
      intro hzero
      exact absurd (List.mem_takeWhile_imp hzero) (by decide)
  next hfixed =>
  split at h
  · next harray =>
    obtain ⟨count, hcount, h⟩ := bind_eq_ok.1 h
    obtain ⟨⟨items, rest'⟩, hitems, h⟩ := bind_eq_ok.1 h
    cases h
    obtain ⟨rfl, b, rfl, hvalue⟩ := itemsValue_of_decode (hdec _ _) (atField_eq_ok.1 hitems)
    refine ⟨b, rfl, ?_⟩
    rw [FieldValue, if_neg hfixed, if_pos harray]
    exact ⟨items, rfl, hcount, hvalue⟩
  · next harray =>
    obtain ⟨selected, hselected, h⟩ := bind_eq_ok.1 h
    obtain ⟨b, rfl, hvalue⟩ := hdec _ _ _ _ _ (atField_eq_ok.1 h)
    refine ⟨b, rfl, ?_⟩
    rw [FieldValue, if_neg hfixed, if_neg harray]
    exact ⟨selected, hselected, hvalue⟩

/-- The fields in turn: what each decodes to may depend on those before it. -/
theorem fieldsValue_of_decode
    (hdec : ∀ type tag input v rest, dec type tag input = .ok (v, rest) →
      ∃ b, input = b ++ rest ∧ value type tag v b.length)
    {fs : List Field} : ∀ {object object' : Json} {input rest : Bytes},
      decodeFields dec name tag object input fs = .ok (object', rest) →
      ∃ b, input = b ++ rest ∧ FieldsValue value name tag object fs object' b.length := by
  induction fs with
  | nil =>
    intro object object' input rest h
    cases h
    exact ⟨[], rfl, rfl, rfl⟩
  | cons f fs ih =>
    intro object object' input rest h
    obtain ⟨⟨v, rest'⟩, hv, h⟩ := bind_eq_ok.1 h
    obtain ⟨b, hb, hvalue⟩ := fieldValue_of_decode hdec hv
    obtain ⟨b', hb', hvalues⟩ := ih h
    exact ⟨b ++ b', by rw [hb, hb', List.append_assoc], v, _, _, hvalue, hvalues,
      List.length_append⟩

end Fields

/-- What is decoded is a value of the type, of as many octets as are read. -/
theorem hasValue_of_decode : ∀ {fuel : Nat} {name input rest : Bytes} {tag : Option Json} {v : Json},
    decode cat native symbols fuel name tag input = .ok (v, rest) →
    ∃ b, input = b ++ rest ∧ HasValue cat native symbols fuel name tag v b.length
  | 0, _, _, _, _, _, h => by cases h
  | fuel + 1, name, input, rest, tag, v, h => by
    have ih : ∀ type tag input v rest, decode cat native symbols fuel type tag input = .ok (v, rest) →
        ∃ b, input = b ++ rest ∧ HasValue cat native symbols fuel type tag v b.length :=
      fun _ _ _ _ _ => hasValue_of_decode
    rw [decode] at h
    simp only [HasValue]
    cases hs : scalar? name with
    | some s =>
      simp only [hs] at h
      exact scalarValue_of_decode h
    | none =>
      simp only [hs] at h
      cases hc : cat name with
      | none => simp only [hc] at h; cases h
      | some d =>
        simp only [hc] at h
        cases d with
        | «alias» type length =>
          cases length with
          | none => exact ih _ _ _ _ _ h
          | some count =>
            obtain ⟨⟨items, rest'⟩, hitems, h⟩ := bind_eq_ok.1 h
            cases h
            obtain ⟨hlength, b, rfl, hvalue⟩ := itemsValue_of_decode (ih _ _) hitems
            exact ⟨b, rfl, items, hlength, rfl, hvalue⟩
        | enum type values flags =>
          obtain ⟨⟨numeric, rest'⟩, hnumeric, h⟩ := bind_eq_ok.1 h
          obtain ⟨symbol, hsymbol, h⟩ := bind_eq_ok.1 h
          cases h
          obtain ⟨b, rfl, hvalue⟩ := ih _ _ _ _ _ hnumeric
          exact ⟨b, rfl, numeric, hvalue, hsymbol⟩
        | struct fields =>
          obtain ⟨⟨object, rest'⟩, hobject, h⟩ := bind_eq_ok.1 h
          cases h
          obtain ⟨b, rfl, hvalue⟩ := fieldsValue_of_decode ih hobject
          exact ⟨b, rfl, object, hvalue, rfl⟩
        | union fields =>
          dsimp only [decodeUnion] at h
          split at h
          · cases h
          next hstatic =>
          split at h
          · cases h
          next f hf =>
          split at h
          · cases h
          next hsize =>
          obtain ⟨⟨item, rest'⟩, hitem, h⟩ := bind_eq_ok.1 h
          cases h
          obtain ⟨b, htake, hvalue⟩ := ih _ _ _ _ _ hitem
          have hlength : (input.take (fixedSize cat levels name).toNat).length =
              (fixedSize cat levels name).toNat := List.length_take_of_le (by omega)
          refine ⟨input.take (fixedSize cat levels name).toNat, (List.take_append_drop ..).symm,
            hstatic, hlength, f, item, b.length, hf, hvalue, ?_, rfl⟩
          rw [htake, List.length_append]
          omega

end Sound

/-! ## Every value is decoded -/

section Complete

variable {cat : Catalog} {native : Native} {symbols : Symbols}

/-- What is asked for is taken, if it is there. -/
theorem takeBytes_append {count : Nat} {data : Bytes} (h : data.length = count) (rest : Bytes) :
    takeBytes count (data ++ rest) = .ok (data, rest) := by
  rw [takeBytes, if_neg (by rw [List.length_append]; omega), List.take_left' h, List.drop_left' h]

/-- Every value of a scalar has octets that decode to it. -/
theorem decode_of_scalarValue {s : Scalar} {v : Json} {n : Nat} (h : ScalarValue native symbols s v n) :
    ∃ b : Bytes, b.length = n ∧ ∀ rest, decodeScalar native symbols (b ++ rest) s = .ok (v, rest) := by
  cases h with
  | @int signed width data hlength =>
    refine ⟨data, hlength, fun rest => ?_⟩
    rw [decodeScalar, takeBytes_append hlength]
    rfl
  | @float width data v hlength hv =>
    refine ⟨data, hlength, fun rest => ?_⟩
    rw [decodeScalar, takeBytes_append hlength]
    change (native.floatValue n data >>= fun v => _) = _
    rw [hv]
    rfl
  | bool b =>
    cases b
    · exact ⟨[0], rfl, fun rest => rfl⟩
    · exact ⟨[1], rfl, fun rest => rfl⟩
  | @string text hlength =>
    have hhead : leNat (leBytes 4 text.length) = text.length :=
      leNat_leBytes_of_lt (lt_of_le_of_lt hlength (by decide))
    refine ⟨leBytes 4 text.length ++ text, by rw [List.length_append, length_leBytes], fun rest => ?_⟩
    rw [decodeScalar, List.append_assoc, takeBytes_append (length_leBytes ..)]
    change (if leNat (leBytes 4 text.length) > Limits.nativePayloadBytes then _ else _) = _
    rw [hhead, if_neg (not_lt.2 hlength), takeBytes_append rfl]
    rfl
  | @interface index name hname =>
    have hindex : UInt32.ofNat (leNat (leBytes 4 index.toNat)) = index := by
      rw [leNat_leBytes_of_lt (show index.toNat < 256 ^ 4 from index.toNat_lt), UInt32.ofNat_toNat]
    refine ⟨leBytes 4 index.toNat, length_leBytes .., fun rest => ?_⟩
    rw [decodeScalar, takeBytes_append (length_leBytes ..)]
    change (interfaceName symbols (UInt32.ofNat (leNat (leBytes 4 index.toNat))) >>= fun name => _) = _
    rw [hindex, hname]
    rfl
  | @ip4 data text hlength htext =>
    refine ⟨data, hlength, fun rest => ?_⟩
    simp only [decodeScalar, takeBytes_append hlength, bind, Except.bind, htext]
  | @ip6 data text hlength htext =>
    refine ⟨data, hlength, fun rest => ?_⟩
    simp only [decodeScalar, takeBytes_append hlength, bind, Except.bind, htext]
  | @mac data hlength =>
    refine ⟨data, hlength, fun rest => ?_⟩
    rw [decodeScalar, takeBytes_append hlength]
    rfl

/-- Every array of values has octets that decode to it. -/
theorem decode_of_itemsValue {dec : Bytes → Except Status (Json × Bytes)}
    {value : Json → Nat → Prop}
    (hdec : ∀ v n, value v n → ∃ b : Bytes, b.length = n ∧ ∀ rest, dec (b ++ rest) = .ok (v, rest))
    {items : List Json} : ∀ {n : Nat}, ItemsValue value items n →
      ∃ b : Bytes, b.length = n ∧
        ∀ rest, decodeItems dec items.length (b ++ rest) = .ok (items, rest) := by
  induction items with
  | nil => exact fun {n} h => ⟨[], h.symm, fun rest => rfl⟩
  | cons item items ih =>
    rintro _ ⟨k, l, hvalue, hvalues, rfl⟩
    obtain ⟨b, hb, hdecode⟩ := hdec _ _ hvalue
    obtain ⟨b', hb', hdecodes⟩ := ih hvalues
    refine ⟨b ++ b', by rw [List.length_append, hb, hb'], fun rest => ?_⟩
    rw [List.length_cons, decodeItems, List.append_assoc, hdecode]
    change (decodeItems dec items.length (b' ++ rest) >>= fun r => _) = _
    rw [hdecodes]
    rfl

section Fields

variable {dec : Bytes → Option Json → Bytes → Except Status (Json × Bytes)}
  {value : Bytes → Option Json → Json → Nat → Prop} {name : Bytes} {tag : Option Json}

/-- Every value of a field has octets that decode to it. -/
theorem decode_of_fieldValue
    (hdec : ∀ type tag v n, value type tag v n →
      ∃ b : Bytes, b.length = n ∧ ∀ rest, dec type tag (b ++ rest) = .ok (v, rest))
    {object v : Json} {n : Nat} {f : Field} (h : FieldValue value name tag object f v n) :
    ∃ b : Bytes, b.length = n ∧
      ∀ rest, decodeField dec name tag object (b ++ rest) f = .ok (v, rest) := by
  unfold FieldValue at h
  split at h
  · next hfixed =>
    obtain ⟨rfl, hlimit, text, htext, hzero, rfl⟩ := h
    have hlength : (text ++ List.replicate (f.length.getD 0 - text.length) (0 : UInt8)).length =
        f.length.getD 0 := by
      rw [List.length_append, List.length_replicate]
      omega
    refine ⟨_, hlength, fun rest => ?_⟩
    have hall : ∀ c ∈ text, decide (c ≠ 0) = true := fun c hc =>
      decide_eq_true fun heq => hzero (heq ▸ hc)
    have hcut : cString (text ++ List.replicate (f.length.getD 0 - text.length) 0) = text := by
      rw [cString, List.takeWhile_append_of_pos hall]
      cases f.length.getD 0 - text.length with
      | zero => simp
      | succ n => simp [List.replicate_succ]
    unfold decodeField
    rw [if_pos hfixed, if_neg (not_lt.2 hlimit), takeBytes_append hlength]
    change Except.ok (Json.str (cString _), rest) = _
    rw [hcut]
  next hfixed =>
  split at h
  · next harray =>
    obtain ⟨items, rfl, hcount, hvalue⟩ := h
    obtain ⟨b, hb, hdecode⟩ := decode_of_itemsValue (hdec _ _) hvalue
    refine ⟨b, hb, fun rest => ?_⟩
    rw [decodeField, if_neg hfixed, if_pos harray, hcount]
    change (atField f (decodeItems (dec f.type none) items.length (b ++ rest)) >>= fun r => _) = _
    rw [hdecode]
    rfl
  · next harray =>
    obtain ⟨selected, hselected, hvalue⟩ := h
    obtain ⟨b, hb, hdecode⟩ := hdec _ _ _ _ hvalue
    refine ⟨b, hb, fun rest => ?_⟩
    rw [decodeField, if_neg hfixed, if_neg harray, hselected]
    change atField f (dec f.type selected (b ++ rest)) = _
    rw [hdecode]
    rfl

/-- The fields behind some are decoded with the object these make. -/
theorem decode_of_fieldsValue
    (hdec : ∀ type tag v n, value type tag v n →
      ∃ b : Bytes, b.length = n ∧ ∀ rest, dec type tag (b ++ rest) = .ok (v, rest))
    {before : List Field} : ∀ {object object' : Json} {n : Nat},
      FieldsValue value name tag object before object' n →
      ∃ b : Bytes, b.length = n ∧ ∀ rest fs,
        decodeFields dec name tag object (b ++ rest) (before ++ fs) =
          decodeFields dec name tag object' rest fs := by
  induction before with
  | nil =>
    rintro object _ _ ⟨rfl, rfl⟩
    exact ⟨[], rfl, fun rest fs => rfl⟩
  | cons f before ih =>
    rintro object object' _ ⟨v, k, l, hvalue, hvalues, rfl⟩
    obtain ⟨b, hb, hdecode⟩ := decode_of_fieldValue hdec hvalue
    obtain ⟨b', hb', hdecodes⟩ := ih hvalues
    refine ⟨b ++ b', by rw [List.length_append, hb, hb'], fun rest fs => ?_⟩
    rw [List.cons_append, decodeFields, List.append_assoc, hdecode]
    exact hdecodes rest fs

end Fields

/-- Every value of a type is decoded from some octets, whatever is behind them. -/
theorem decode_of_hasValue : ∀ {fuel : Nat} {name : Bytes} {tag : Option Json} {v : Json} {n : Nat},
    HasValue cat native symbols fuel name tag v n → ∃ b : Bytes, b.length = n ∧
      ∀ rest, decode cat native symbols fuel name tag (b ++ rest) = .ok (v, rest)
  | 0, _, _, _, _, h => h.elim
  | fuel + 1, name, tag, v, n, h => by
    have ih : ∀ type tag v n, HasValue cat native symbols fuel type tag v n →
        ∃ b : Bytes, b.length = n ∧
          ∀ rest, decode cat native symbols fuel type tag (b ++ rest) = .ok (v, rest) :=
      fun _ _ _ _ => decode_of_hasValue
    simp only [HasValue] at h
    simp only [decode]
    cases hs : scalar? name with
    | some s =>
      simp only [hs] at h
      exact decode_of_scalarValue h
    | none =>
      simp only [hs] at h
      cases hc : cat name with
      | none =>
        simp only [hc] at h
      | some d =>
        simp only [hc] at h
        cases d with
        | «alias» type length =>
          cases length with
          | none => exact ih _ _ _ _ h
          | some count =>
            obtain ⟨items, rfl, rfl, hvalue⟩ := h
            obtain ⟨b, hb, hdecode⟩ := decode_of_itemsValue (ih _ _) hvalue
            refine ⟨b, hb, fun rest => ?_⟩
            change (decodeItems _ _ (b ++ rest) >>= fun r => _) = _
            rw [hdecode]
            rfl
        | enum type values flags =>
          obtain ⟨numeric, hvalue, hsymbol⟩ := h
          obtain ⟨b, hb, hdecode⟩ := ih _ _ _ _ hvalue
          refine ⟨b, hb, fun rest => ?_⟩
          change (decode cat native symbols fuel type none (b ++ rest) >>= fun r => _) = _
          rw [hdecode]
          change (enumSymbol values flags numeric >>= fun symbol => _) = _
          rw [hsymbol]
          rfl
        | struct fields =>
          obtain ⟨object, hvalue, rfl⟩ := h
          obtain ⟨b, hb, hdecode⟩ := decode_of_fieldsValue ih hvalue
          refine ⟨b, hb, fun rest => ?_⟩
          have hall := hdecode rest []
          rw [List.append_nil] at hall
          change (decodeFields _ name tag (.obj []) (b ++ rest) fields >>= fun r => _) = _
          rw [hall]
          rfl
        | union fields =>
          obtain ⟨hstatic, rfl, f, item, k, hf, hvalue, hk, rfl⟩ := h
          obtain ⟨b, rfl, hdecode⟩ := ih _ _ _ _ hvalue
          -- the member takes its octets of the union, which are filled up with any others
          have hlength : (b ++ List.replicate ((fixedSize cat levels name).toNat - b.length)
              (0 : UInt8)).length = (fixedSize cat levels name).toNat := by
            rw [List.length_append, List.length_replicate]
            omega
          refine ⟨_, hlength, fun rest => ?_⟩
          dsimp only [decodeUnion]
          rw [if_neg hstatic, hf]
          dsimp only
          rw [if_neg (by rw [List.length_append, hlength]; omega), List.take_left' hlength,
            List.drop_left' hlength, hdecode]
          rfl

end Complete

end VppJson.Schema
