import VppJsonGateway.AddressTexts

/-!
# The codec of addresses

What `Encode` appends for a text of each of the types: a scalar, or the struct or union that the
text is rewritten as.
-/

namespace VppJson.Schema

open Lib

section

variable {cat : Catalog} {native : Native} {symbols : Symbols} {fuel size : Nat} {name : Bytes}
  {tag : Option Json} {value : Json} {s b : Bytes}

/-- There is room for a short value near the start of a payload. -/
theorem putBytes_short {data : Bytes} (hsize : size ≤ 64) (hdata : data.length ≤ 64) :
    putBytes size data = .ok data := by
  rw [putBytes, if_neg]
  simp only [Limits.nativePayloadBytes]
  omega

/-- A type that `Convert` knows by name is a scalar, whatever the catalog has. -/
theorem encode_scalar {c : Scalar} (h : scalar? name = some c) :
    encode cat native symbols (fuel + 1) name tag size value =
      encodeScalar native symbols size value c := by
  rw [encode, h]

/-- What is appended of an address that the library has read. -/
theorem encoded_iff_found {n : Nat} {found : Option { b : Bytes // b.length = n }}
    {encoded : Except Status Bytes} (hn : n ≤ 64) (hsize : size ≤ 64)
    (hsome : ∀ r, found = some r → encoded = putBytes size r.1)
    (hnone : found = none → ∃ e, encoded = .error e) :
    encoded = .ok b ↔ ∃ r, found = some r ∧ b = r.1 := by
  cases found with
  | none =>
    obtain ⟨e, rfl⟩ := hnone rfl
    constructor
    · intro h
      cases h
    · rintro ⟨_, h, _⟩
      cases h
  | some r =>
    rw [hsome r rfl, putBytes_short hsize (r.2.trans_le hn)]
    constructor
    · exact fun h => ⟨r, rfl, (Except.ok.inj h).symm⟩
    · rintro ⟨r', hr, hb⟩
      cases hr
      rw [hb]

/-- An IPv4 address is encoded if `inet_pton` reads it, up to its first NUL. -/
theorem encode_ip4 (hsize : size ≤ 64) :
    encode cat native symbols (fuel + 1) "vl_api_ip4_address_t" tag size (.str s) = .ok b ↔
      ReadsIp4 native s b := by
  rw [encode_scalar (show scalar? _ = some .ip4 from rfl), encodeScalar, ReadsIp4]
  exact encoded_iff_found (show 4 ≤ 64 by decide) hsize (fun r hr => by rw [hr]) fun h =>
    ⟨_, by rw [h]⟩

/-- An IPv6 address is encoded if `inet_pton` reads it, up to its first NUL. -/
theorem encode_ip6 (hsize : size ≤ 64) :
    encode cat native symbols (fuel + 1) "vl_api_ip6_address_t" tag size (.str s) = .ok b ↔
      ReadsIp6 native s b := by
  rw [encode_scalar (show scalar? _ = some .ip6 from rfl), encodeScalar, ReadsIp6]
  exact encoded_iff_found (show 16 ≤ 64 by decide) hsize (fun r hr => by rw [hr]) fun h =>
    ⟨_, by rw [h]⟩

/-- A MAC address is encoded if it is one; a NUL is no digit. -/
theorem encode_mac (hsize : size ≤ 64) :
    encode cat native symbols (fuel + 1) "vl_api_mac_address_t" tag size (.str s) = .ok b ↔
      IsMac s b := by
  rw [encode_scalar (show scalar? _ = some .mac from rfl), encodeScalar, ← mac_iff]
  cases hmac : macBytes s with
  | none =>
    constructor
    · intro h
      cases h
    · rintro ⟨h, _⟩
      cases h
  | some a =>
    dsimp only
    have hlen := length_of_macBytes hmac
    by_cases hseventeen : s.length = 17
    · rw [if_pos hseventeen, putBytes_short hsize (by omega)]
      constructor
      · exact fun h => ⟨congrArg some (Except.ok.inj h), hseventeen⟩
      · exact fun h => congrArg Except.ok (Option.some.inj h.1)
    · rw [if_neg hseventeen]
      exact ⟨fun h => (by cases h), fun h => absurd h.2 hseventeen⟩

/-- A small number in one octet. -/
theorem encode_octet {n : Nat} (hsize : size ≤ 64) (hn : n < 256) :
    encode cat native symbols (fuel + 1) "u8" tag size (.uint n) = .ok [UInt8.ofNat n] := by
  have hrange : inRange false 1 (n : Int) = true := by
    rw [inRange, if_neg (by decide)]
    simp only [Bool.decide_and, Bool.and_eq_true, decide_eq_true_eq]
    omega
  have hbytes : nativeInt 1 (n : Int) = [UInt8.ofNat n] := by
    rw [nativeInt, Int.emod_eq_of_lt (by omega) (by omega)]
    simp [leBytes]
  have hvalue : intValue false 1 (.uint n) = .ok (n : Int) := by
    rw [intValue, if_neg (by decide)]
    exact if_pos hrange
  rw [encode_scalar (show scalar? _ = some (.int false 1) from rfl), encodeScalar, hvalue]
  show putBytes size (nativeInt 1 n) = _
  rw [hbytes, putBytes_short hsize (by simp)]

/-- The symbol of a family. -/
def family (six : Bool) : Json := .str (if six then "ADDRESS_IP6" else "ADDRESS_IP4")

/-- The address of a family, in the union of both. -/
def inUnion (six : Bool) (s : Bytes) : Json :=
  .obj [(if six then utf8 "ip6" else utf8 "ip4", .str s)]

/-- The family of an address is encoded in one octet. -/
theorem encode_family (hcat : AddressTypes cat) (hsize : size ≤ 64) (six : Bool) :
    encode cat native symbols (fuel + 2) "vl_api_address_family_t" tag size (family six) =
      .ok [if six then 1 else 0] := by
  have hnumber : enumNumber "u8" [("ADDRESS_IP4", 0), ("ADDRESS_IP6", 1)] false (family six) =
      .ok (.uint (if six then 1 else 0)) := by
    cases six <;> rfl
  rw [encode, show scalar? "vl_api_address_family_t" = none from rfl]
  simp only [hcat.family, hnumber, bind, Except.bind]
  cases six
  · exact encode_octet hsize (by decide)
  · exact encode_octet hsize (by decide)

/-- The levels of the address union. -/
theorem union_levels (hcat : AddressTypes cat) :
    fixedSize cat levels "vl_api_address_union_t" = 16 ∧
      isVariable cat levels "vl_api_address_union_t" = false := by
  obtain ⟨case4, case6, -, -, hunion⟩ := hcat.union
  have hsize : ∀ {type : Bytes} {length : Nat}, primitiveSize? type = none →
      cat type = some (.alias "u8" (some length)) → ∀ n, fixedSize cat (n + 2) type = length := by
    intro type length hnone hcat n
    have hu8 : fixedSize cat (n + 1) "u8" = 1 := by
      rw [fixedSize, show primitiveSize? "u8" = some 1 from rfl]
    rw [fixedSize, hnone]
    simp [hcat, hu8]
  have hvar : ∀ {type : Bytes} {length : Nat}, type ≠ utf8 "string" →
      cat type = some (.alias "u8" (some length)) → ∀ n, isVariable cat (n + 2) type = false := by
    intro type length hne hcat' n
    have hu8 : isVariable cat (n + 1) "u8" = false := by
      rw [isVariable, if_neg (by decide), hcat.octet]
    rw [isVariable, if_neg hne]
    simp [hcat', hu8]
  have h4 := hsize (by decide) hcat.ip4 30
  have h6 := hsize (by decide) hcat.ip6 30
  have v4 := hvar (by decide) hcat.ip4 30
  have v6 := hvar (by decide) hcat.ip6 30
  have n4 : utf8 "vl_api_ip4_address_t" ≠ utf8 "string" := by decide
  have n6 : utf8 "vl_api_ip6_address_t" ≠ utf8 "string" := by decide
  constructor
  · rw [levels, fixedSize, show primitiveSize? "vl_api_address_union_t" = none from rfl]
    simp [hunion, fieldsSize, fieldSize, h4, h6, n4, n6, Limits.nativePayloadBytes]
  · rw [levels, isVariable, if_neg (by decide)]
    simp [hunion, fieldsVariable, v4, v6]

/-- The member of the union that is selected has the case of the family. -/
theorem hasCase_family {six : Bool} {f : Field}
    (h : ∀ c ∈ f.caseName, c = if six then utf8 "ADDRESS_IP6" else utf8 "ADDRESS_IP4") :
    ¬ ((some (family six)).isSome ∧ f.caseName.isSome ∧ !hasCase (some (family six)) f) := by
  intro ⟨_, hsome, hno⟩
  obtain ⟨c, hc⟩ := Option.isSome_iff_exists.1 hsome
  obtain rfl := h c hc
  have hyes : hasCase (some (family six)) f = true := by
    unfold hasCase
    rw [hc]
    exact decide_eq_true rfl
  rw [hyes] at hno
  cases hno

/-- The one member of a value that selects the member `f` of the address union. -/
theorem encodeUnion_family {enc : Bytes → Option Json → Nat → Json → Except Status Bytes}
    (hcat : AddressTypes cat) (six : Bool) {fields : List Field} (f : Field)
    (hname : f.name = if six then utf8 "ip6" else utf8 "ip4")
    (hmember : memberNamed fields (inUnion six s) = some f)
    (hcase : ∀ c ∈ f.caseName, c = if six then utf8 "ADDRESS_IP6" else utf8 "ADDRESS_IP4") :
    encodeUnion cat enc "vl_api_address_union_t" fields (some (family six)) size (inUnion six s) =
      .ok b ↔ ∃ a, enc f.type none 0 (.str s) = .ok a ∧ putBytes size (resize 16 a) = .ok b := by
  obtain ⟨hfixed, hvariable⟩ := union_levels hcat
  have hitem : ((inUnion six s).get? f.name).getD .null = .str s := by
    rw [hname, inUnion, Json.get?_obj, Json.find, if_pos rfl]
    rfl
  rw [encodeUnion, if_neg (by rw [hfixed, hvariable]; decide),
    if_neg (by simp [inUnion, Json.isObject, Json.size]), hmember]
  dsimp only
  rw [if_neg (hasCase_family hcase), bind_eq_ok, hitem, hfixed]
  rfl

/-- An address is padded with zeros. -/
theorem resize_of_length {n : Nat} {a : Bytes} (h : a.length ≤ n) :
    resize n a = a ++ List.replicate (n - a.length) 0 := by
  rw [resize, List.take_of_length_le h]

/-- An address is put at the start of the union, which is filled up with zeros. -/
theorem encode_inUnion (hcat : AddressTypes cat) (hsize : size ≤ 48) {six : Bool} :
    encode cat native symbols (fuel + 2) "vl_api_address_union_t" (some (family six)) size
        (inUnion six s) = .ok b ↔
      ∃ a, (if six then ReadsIp6 native s a else ReadsIp4 native s a) ∧
        b = if six then a else a ++ List.replicate 12 0 := by
  obtain ⟨case4, case6, h4, h6, hunion⟩ := hcat.union
  have hwrite : rewrite "vl_api_address_union_t" (inUnion six s) = .ok (inUnion six s) := by
    unfold rewrite
    exact if_neg (by decide)
  have hput : ∀ {a : Bytes}, putBytes size (resize 16 a) = .ok (resize 16 a) := fun {a} =>
    putBytes_short (by omega) (by rw [length_resize]; decide)
  rw [encode, show scalar? "vl_api_address_union_t" = none from rfl]
  simp only [hunion, hwrite, bind, Except.bind]
  cases six with
  | false =>
    rw [encodeUnion_family hcat false
      { name := "ip4", type := "vl_api_ip4_address_t", caseName := case4 } rfl rfl h4]
    simp only [encode_ip4 (Nat.zero_le 64), hput, Except.ok.injEq]
    refine exists_congr fun a => and_congr_right fun h => ?_
    obtain ⟨r, _, ha⟩ := h
    rw [resize_of_length (by rw [ha, r.2]; decide), ha, r.2]
    exact eq_comm
  | true =>
    rw [encodeUnion_family hcat true
      { name := "ip6", type := "vl_api_ip6_address_t", caseName := case6 } rfl rfl h6]
    simp only [encode_ip6 (Nat.zero_le 64), hput, Except.ok.injEq]
    refine exists_congr fun a => and_congr_right fun h => ?_
    obtain ⟨r, _, ha⟩ := h
    rw [resize_of_length (by rw [ha, r.2]), ha, r.2]
    simp [eq_comm]

/-! ## Structs of two fields -/

/-- A field is one value of its type. -/
def Field.IsPlain (f : Field) : Prop := f.length = none ∧ f.count = none

/-- A field that is neither a text nor an array is encoded as its type. -/
theorem encodeField_plain {enc : Bytes → Option Json → Nat → Json → Except Status Bytes}
    {f : Field} {object item : Json} {selected : Option Json} (hf : Field.IsPlain f)
    (htag : selectTag name tag object f = .ok selected) :
    encodeField enc name tag size object item f = .ok b ↔ enc f.type selected size item = .ok b := by
  have hfixed : f.isFixedString = false := by
    rw [Field.isFixedString, hf.1]
    simp
  rw [encodeField, if_neg (by rw [hfixed]; decide), if_neg (by rw [hf.1]; simp), bind_eq_ok]
  constructor
  · rintro ⟨selected', hsel, h⟩
    rw [htag] at hsel
    cases hsel
    exact atField_eq_ok.1 h
  · exact fun h => ⟨selected, htag, atField_eq_ok.2 h⟩

/-- A struct of two fields is the one and then the other. -/
theorem encodeStruct_pair {enc : Bytes → Option Json → Nat → Json → Except Status Bytes}
    {echo : Bytes → Json → Json} {f g : Field} {v w : Json} {tf tg : Option Json}
    (hf : Field.IsPlain f) (hg : Field.IsPlain g) (hne : f.name ≠ g.name)
    (htf : ∀ object, selectTag name tag object f = .ok tf)
    (htg : ∀ object : Json, object.get? f.name = some (echo f.type v) →
      selectTag name tag object g = .ok tg) :
    encodeStruct cat enc echo name [f, g] tag size (.obj [(f.name, v), (g.name, w)]) = .ok b ↔
      ∃ p q, enc f.type tf size v = .ok p ∧ enc g.type tg (size + p.length) w = .ok q ∧
        b = p ++ q := by
  have hcounts : counts [f, g] = [] := by
    simp [counts, hf.2, hg.2]
  have hkeys : checkKeys [f, g] [(f.name, v), (g.name, w)] = .ok () := by
    simp [checkKeys, hcounts]
  have hset : ∀ object, setCounts object [f, g] = .ok object := by
    intro object
    simp [setCounts, hf.2, hg.2]
  have hecho : echoField echo f v = echo f.type v := by
    rw [echoField, if_neg]
    simp [Field.isFixedString, hf.1]
  have hfirst : (Json.obj [(f.name, v), (g.name, w)]).get? f.name = some v := by
    simp [Json.find]
  have hsecond : (Json.obj ((f.name, echo f.type v) :: [(g.name, w)])).get? g.name = some w := by
    simp [Json.find, Ne.symm hne]
  have hkeep : (Json.obj ((f.name, echo f.type v) :: [(g.name, w)])).get? f.name =
      some (echo f.type v) := by
    simp [Json.find]
  have hobject : (Json.obj [(f.name, v), (g.name, w)]).set f.name (echo f.type v) =
      .obj ((f.name, echo f.type v) :: [(g.name, w)]) := by
    simp [Json.set, Json.setKey]
  have hitem : ∀ {object item : Json} {f : Field}, object.get? f.name = some item →
      fieldItem cat object f = .ok (item, object) := by
    intro object item f h
    unfold fieldItem
    rw [h]
  have hok : ∀ {α β : Type} (x : α) (k : α → Except Status β), (Except.ok x >>= k) = k x :=
    fun _ _ => rfl
  simp only [encodeStruct, hkeys, hset, encodeFields, hok, hitem hfirst, hecho, hobject,
    hitem hsecond, bind_eq_ok, encodeField_plain hf (htf _), encodeField_plain hg (htg _ hkeep)]
  constructor
  · rintro ⟨p, hp, rest, ⟨q, hq, hrest⟩, hb⟩
    cases hrest
    cases hb
    exact ⟨p, q, hp, hq, by rw [List.append_nil]⟩
  · rintro ⟨p, q, hp, hq, hb⟩
    exact ⟨p, hp, q, ⟨q, hq, by rw [List.append_nil]⟩, by rw [hb]⟩

/-! ## Addresses of either family -/

/-- Only the types of a FIB path pass tags on. -/
theorem selectTag_of_ne {object : Json} {f : Field} (hpath : name ≠ utf8 "vl_api_fib_path_t")
    (hhop : name ≠ utf8 "vl_api_fib_path_nh_t") :
    selectTag name tag object f =
      .ok (if discriminator f ≠ [] then object.get? (discriminator f) else none) := by
  unfold selectTag
  rw [if_neg fun h => hpath h.1]
  cases tag with
  | none => rfl
  | some t => exact if_neg fun h => hhop h.1

/-- The struct of an address. -/
theorem rewrite_address :
    rewrite "vl_api_address_t" (.str s) =
      .ok (.obj [("af", family (decide (58 ∈ s))), ("un", inUnion (decide (58 ∈ s)) s)]) := by
  have haddress : isAddress "vl_api_address_t" = true := rfl
  have hprefix : isPrefix "vl_api_address_t" = false := rfl
  unfold rewrite
  rw [haddress, hprefix, Bool.true_or, if_pos rfl]
  dsimp only
  rw [if_neg (by decide)]
  by_cases h : 58 ∈ s
  · rw [if_pos h, decide_eq_true h]
    rfl
  · rw [if_neg h, decide_eq_false h]
    rfl

/-- An address of either family: a colon decides which of the two is read, and the octet before
it. -/
theorem readsEither_iff : ReadsEither native s b ↔
    ∃ a, (if decide (58 ∈ s) then ReadsIp6 native s a else ReadsIp4 native s a) ∧
      b = [if decide (58 ∈ s) then 1 else 0] ++
        if decide (58 ∈ s) then a else a ++ List.replicate 12 0 := by
  rw [ReadsEither]
  by_cases h : 58 ∈ s
  · rw [if_pos h, decide_eq_true h]
    exact Iff.rfl
  · rw [if_neg h, decide_eq_false h]
    exact Iff.rfl

/-- An address of either family is rewritten as an object with its family and its member of the
union, and encoded so. -/
theorem encode_address (hcat : AddressTypes cat) (hsize : size ≤ 40) :
    encode cat native symbols (fuel + 3) "vl_api_address_t" tag size (.str s) = .ok b ↔
      ReadsEither native s b := by
  have hpath : utf8 "vl_api_address_t" ≠ utf8 "vl_api_fib_path_t" := by decide
  have hhop : utf8 "vl_api_address_t" ≠ utf8 "vl_api_fib_path_nh_t" := by decide
  have hfamily : discriminator { name := "af", type := "vl_api_address_family_t" } = [] := by
    decide
  have hunion : discriminator { name := "un", type := "vl_api_address_union_t" } = utf8 "af" := by
    decide
  have hecho : ∀ v, echo cat (fuel + 2) "vl_api_address_family_t" v = v := by
    intro v
    rw [echo, if_neg (by decide), hcat.family]
  rw [encode, show scalar? "vl_api_address_t" = none from rfl]
  simp only [hcat.address, rewrite_address, bind, Except.bind]
  have hpair := @encodeStruct_pair cat size "vl_api_address_t" tag b
    (encode cat native symbols (fuel + 2)) (echo cat (fuel + 2))
    { name := "af", type := "vl_api_address_family_t" }
    { name := "un", type := "vl_api_address_union_t" } (family (decide (58 ∈ s)))
    (inUnion (decide (58 ∈ s)) s) none (some (family (decide (58 ∈ s)))) ⟨rfl, rfl⟩ ⟨rfl, rfl⟩
    (by decide) (fun object => by rw [selectTag_of_ne hpath hhop, hfamily]; rfl)
    (fun object h => by
      rw [selectTag_of_ne hpath hhop, hunion, if_pos (by decide), h, hecho])
  rw [hpair]
  simp only [encode_family hcat (show size ≤ 64 by omega)]
  rw [readsEither_iff]
  constructor
  · rintro ⟨p, q, hp, hq, hb⟩
    cases hp
    rw [List.length_singleton] at hq
    obtain ⟨a, ha, rfl⟩ := (encode_inUnion hcat (by omega)).1 hq
    exact ⟨a, ha, hb⟩
  · rintro ⟨a, ha, hb⟩
    refine ⟨_, _, rfl, ?_, hb⟩
    rw [List.length_singleton]
    exact (encode_inUnion hcat (by omega)).2 ⟨a, ha, rfl⟩

/-! ## Networks -/

/-- A prefix is rewritten as an object with the address before its last slash and the length behind
it. -/
theorem rewrite_network {v : Json} (hname : isPrefix name = true) :
    rewrite name (.str s) = .ok v ↔ ∃ ip t n, s = ip ++ t ∧
      IsLength (if 58 ∈ ip then 128 else 32) t n ∧
        v = .obj [("address", .str ip), ("len", .uint n)] := by
  unfold rewrite
  rw [hname, Bool.or_true, if_pos rfl]
  dsimp only
  rw [if_pos rfl]
  have hcast : ∀ ip : Bytes, ((if 58 ∈ ip then 128 else 32 : Nat) : Int) =
      if 58 ∈ ip then 128 else 32 := by
    intro ip
    split <;> rfl
  have hsplit : ∀ {ip t : Bytes} {n limit : Nat}, s = ip ++ t → IsLength limit t n →
      ∃ digits, t = 47 :: digits ∧ splitSlash s = some (ip, digits) := by
    intro ip t n limit hs ⟨digits, _, hall, ht, _⟩
    refine ⟨digits, ht, splitSlash_eq_some.2 ⟨by rw [hs, ht], fun hslash => ?_⟩⟩
    exact absurd (hall 47 hslash) (by decide)
  constructor
  · intro h
    cases hs : splitSlash s with
    | none =>
      rw [hs] at h
      cases h
    | some r =>
      obtain ⟨ip, digits⟩ := r
      rw [hs] at h
      dsimp only at h
      split at h
      · next length hread =>
        rw [← hcast] at h
        by_cases hbound : length > ((if 58 ∈ ip then 128 else 32 : Nat) : Int)
        · rw [if_pos hbound] at h
          cases h
        · rw [if_neg hbound] at h
          cases h
          obtain ⟨k, rfl, hlength⟩ := (fromChars_eq_some (by split <;> decide)).1
            ⟨hread, not_lt.1 hbound⟩
          obtain ⟨hs, -⟩ := splitSlash_eq_some.1 hs
          exact ⟨ip, 47 :: digits, k, hs, hlength, rfl⟩
      · cases h
  · intro ⟨ip, t, n, hs, hlength, hv⟩
    obtain ⟨digits, rfl, hsome⟩ := hsplit hs hlength
    rw [hsome]
    dsimp only
    obtain ⟨hread, hle⟩ := (fromChars_eq_some (by split <;> decide)).2 ⟨n, rfl, hlength⟩
    rw [hread]
    dsimp only
    rw [← hcast, if_neg (not_lt.2 hle), hv]
    rfl

/-- A length fits in its octet. -/
theorem isLength_lt {ip t : Bytes} {n : Nat} (h : IsLength (if 58 ∈ ip then 128 else 32) t n) :
    n < 256 := by
  obtain ⟨_, -, -, -, -, hn⟩ := h
  split at hn <;> omega

/-- A prefix is encoded if its address is and its length is within the bound of the family. -/
theorem encode_network {type : Bytes} {part : Bytes → Bytes → Prop} (hname : isPrefix name = true)
    (hcat : cat name = some (.struct (networkFields type))) (htype : type ≠ utf8 "vl_api_address_union_t")
    (hpart : ∀ {tag size s b}, size ≤ 40 →
      (encode cat native symbols (fuel + 3) type tag size (.str s) = .ok b ↔ part s b))
    (hlen : ∀ {s b}, part s b → b.length ≤ 17) (hsize : size ≤ 40) :
    encode cat native symbols (fuel + 4) name tag size (.str s) = .ok b ↔
      ReadsNetwork part s b := by
  have hnames : ∀ {n : Bytes}, isPrefix n = true → scalar? n = none ∧
      n ≠ utf8 "vl_api_fib_path_t" ∧ n ≠ utf8 "vl_api_fib_path_nh_t" := by
    intro n hn
    simp only [isPrefix, Bool.decide_or, Bool.or_eq_true, decide_eq_true_eq] at hn
    rcases hn with rfl | rfl | rfl <;> decide
  obtain ⟨hscalar, hpath, hhop⟩ := hnames hname
  have hnone : ∀ {f : Field}, f.discriminator = none → f.type ≠ utf8 "vl_api_address_union_t" →
      ∀ object, selectTag name tag object f = .ok none := by
    intro f hf hne object
    rw [selectTag_of_ne hpath hhop, discriminator, hf, if_neg hne]
    rfl
  have hlenType : utf8 "u8" ≠ utf8 "vl_api_address_union_t" := by decide
  have hdistinct : utf8 "address" ≠ utf8 "len" := by decide
  have hpair : ∀ {ip : Bytes} {n : Nat},
      encodeStruct cat (encode cat native symbols (fuel + 3)) (echo cat (fuel + 3)) name
          (networkFields type) tag size (.obj [("address", .str ip), ("len", .uint n)]) = .ok b ↔
        ∃ p q, encode cat native symbols (fuel + 3) type none size (.str ip) = .ok p ∧
          encode cat native symbols (fuel + 3) "u8" none (size + p.length) (.uint n) = .ok q ∧
            b = p ++ q := fun {ip n} =>
    @encodeStruct_pair cat size name tag b (encode cat native symbols (fuel + 3))
      (echo cat (fuel + 3)) { name := "address", type } { name := "len", type := "u8" } (.str ip)
      (.uint n) none none ⟨rfl, rfl⟩ ⟨rfl, rfl⟩ hdistinct (hnone rfl htype)
      fun object _ => hnone rfl hlenType object
  rw [encode, hscalar]
  simp only [hcat, bind_eq_ok, rewrite_network hname]
  constructor
  · rintro ⟨v, ⟨ip, t, n, hs, hlength, hv⟩, h⟩
    subst hv
    obtain ⟨p, q, hp, hq, hb⟩ := hpair.1 h
    have hread := (hpart hsize).1 hp
    rw [encode_octet (by have := hlen hread; omega) (isLength_lt hlength)] at hq
    cases hq
    exact ⟨ip, t, p, n, hs, hread, hlength, hb⟩
  · rintro ⟨ip, t, a, n, hs, hread, hlength, hb⟩
    refine ⟨_, ⟨ip, t, n, hs, hlength, rfl⟩, hpair.2 ⟨a, _, (hpart hsize).2 hread, ?_, hb⟩⟩
    exact encode_octet (by have := hlen hread; omega) (isLength_lt hlength)

/-- The codec takes the texts it reads. -/
theorem encode_iff_reads (hcat : AddressTypes cat) (kind : TextType) :
    Encode cat native symbols kind.name (.str s) = .ok b ↔ Reads native kind s b := by
  have h17 : ∀ {s b}, ReadsEither native s b → b.length ≤ 17 := by
    intro s b h
    obtain ⟨a, ha, rfl⟩ := readsEither_iff.1 h
    by_cases hcolon : 58 ∈ s
    · simp only [decide_eq_true hcolon, if_pos] at ha ⊢
      obtain ⟨r, -, rfl⟩ := ha
      simp [r.2]
    · simp only [decide_eq_false hcolon, Bool.false_eq_true, if_false] at ha ⊢
      obtain ⟨r, -, rfl⟩ := ha
      simp [r.2]
  cases kind with
  | mac => exact encode_mac (Nat.zero_le 64)
  | ip4 => exact encode_ip4 (Nat.zero_le 64)
  | ip6 => exact encode_ip6 (Nat.zero_le 64)
  | address => exact encode_address hcat (Nat.zero_le 40)
  | network =>
    exact encode_network (by decide) hcat.network (by decide)
      (fun hsize => encode_address hcat hsize) h17 (Nat.zero_le 40)
  | network4 =>
    refine encode_network (by decide) hcat.network4 (by decide)
      (fun hsize => encode_ip4 (by omega)) ?_ (Nat.zero_le 40)
    rintro _ _ ⟨r, -, rfl⟩
    rw [r.2]
    decide
  | network6 =>
    refine encode_network (by decide) hcat.network6 (by decide)
      (fun hsize => encode_ip6 (by omega)) ?_ (Nat.zero_le 40)
    rintro _ _ ⟨r, -, rfl⟩
    rw [r.2]
    decide

end

end VppJson.Schema
