import VppJsonGateway.AddressCodec

/-!
# Addresses are encoded as they are spelled

A text with a NUL in it is no address. The codec hands such a text to `inet_pton` all the same, so
it takes what stands before the NUL.
-/

namespace VppJson.Schema

open Lib

/-! ## Where texts hide a NUL -/

section

variable (native : Native)

/-- A NUL in the text of an address, with an address before it. -/
def Hidden4 (s : Bytes) : Prop := 0 ∈ s ∧ (native.pton4 (cString s)).isSome

/-- A NUL in the text of an IPv6 address. -/
def Hidden6 (s : Bytes) : Prop := 0 ∈ s ∧ (native.pton6 (cString s)).isSome

/-- A NUL in the text of an address of the family that a colon tells. -/
def HiddenEither (s : Bytes) : Prop := if 58 ∈ s then Hidden6 native s else Hidden4 native s

/-- A NUL in the address of a network. -/
def HiddenNetwork (hidden : Bytes → Prop) (s : Bytes) : Prop :=
  ∃ ip t n, s = ip ++ t ∧ hidden ip ∧ IsLength (if 58 ∈ ip then 128 else 32) t n

/-- The texts whose NUL goes unseen. -/
def Hidden : TextType → Bytes → Prop
  | .mac => fun _ => False
  | .ip4 => Hidden4 native
  | .ip6 => Hidden6 native
  | .address => HiddenEither native
  | .network => HiddenNetwork (HiddenEither native)
  | .network4 => HiddenNetwork (Hidden4 native)
  | .network6 => HiddenNetwork (Hidden6 native)

end

section

variable {native : Native} {s b : Bytes}

/-- A text without NUL is read as a whole. -/
theorem cString_eq_self (h : 0 ∉ s) : cString s = s :=
  List.takeWhile_eq_self_iff.2 fun _ hc => decide_eq_true fun heq => h (heq ▸ hc)

/-- A length has no NUL. -/
theorem zero_notMem_of_isLength {t : Bytes} {limit n : Nat} (h : IsLength limit t n) : 0 ∉ t := by
  obtain ⟨digits, -, hall, rfl, -⟩ := h
  have hslash : (0 : UInt8) ≠ 47 := by decide
  have hdigit : ¬ isDigit 0 = true := by decide
  exact List.not_mem_cons_of_ne_of_not_mem hslash fun hin => hdigit (hall 0 hin)

/-- What a part of a text is read as, and what it is meant for, differ at a NUL. -/
structure Parted (reads spells : Bytes → Bytes → Prop) (hidden : Bytes → Prop) : Prop where
  clean : ∀ {s b}, 0 ∉ s → (reads s b ↔ spells s b)
  whole : ∀ {s b}, spells s b → 0 ∉ s
  seen : ∀ {s}, hidden s ↔ 0 ∈ s ∧ ∃ b, reads s b

/-- A type whose texts are read up to a NUL is read as it is spelled but for the hidden texts. -/
theorem Parted.iff_not_hidden {reads spells : Bytes → Bytes → Prop} {hidden : Bytes → Prop}
    (h : Parted reads spells hidden) : (∀ b, reads s b ↔ spells s b) ↔ ¬ hidden s := by
  rw [h.seen]
  constructor
  · intro hall ⟨hzero, b, hb⟩
    exact h.whole ((hall b).1 hb) hzero
  · intro hnot b
    by_cases hzero : 0 ∈ s
    · exact ⟨fun hb => (hnot ⟨hzero, b, hb⟩).elim, fun hb => (h.whole hb hzero).elim⟩
    · exact h.clean hzero

/-- There is an image wherever there is something to map. -/
theorem exists_image {α β : Type} {p : α → Prop} (f : α → β) :
    (∃ b a, p a ∧ b = f a) ↔ ∃ a, p a := by
  constructor
  · intro h
    obtain ⟨_, a, ha, -⟩ := h
    exact ⟨a, ha⟩
  · intro h
    obtain ⟨a, ha⟩ := h
    exact ⟨f a, a, ha, rfl⟩

/-- A text that the library reads up to its first NUL. -/
theorem parted_pton {n : Nat} (pton : Bytes → Option { b : Bytes // b.length = n }) :
    Parted (fun s b => ∃ r, pton (cString s) = some r ∧ b = r.1)
      (fun s b => 0 ∉ s ∧ ∃ r, pton s = some r ∧ b = r.1)
      (fun s => 0 ∈ s ∧ (pton (cString s)).isSome) where
  clean hzero := by
    rw [cString_eq_self hzero, and_iff_right hzero]
  whole h := h.1
  seen := by
    intro s
    rw [Option.isSome_iff_exists]
    exact and_congr_right fun _ => (exists_image _).symm

/-- IPv4 addresses are read up to a NUL. -/
theorem parted_ip4 : Parted (ReadsIp4 native) (IsIp4 native) (Hidden4 native) :=
  parted_pton native.pton4

/-- IPv6 addresses are read up to a NUL. -/
theorem parted_ip6 : Parted (ReadsIp6 native) (IsIp6 native) (Hidden6 native) :=
  parted_pton native.pton6

/-- The text of an IPv6 address has a colon. -/
theorem colon_of_isIp6 (hcolons : Colons native) (h : IsIp6 native s b) : 58 ∈ s :=
  h.2.elim fun _ hr => hcolons.six hr.1

/-- The text of an IPv4 address has none. -/
theorem no_colon_of_isIp4 (hcolons : Colons native) (h : IsIp4 native s b) : 58 ∉ s :=
  h.2.elim fun _ hr => hcolons.four hr.1

/-- Addresses of either family are read up to a NUL. -/
theorem parted_either (hcolons : Colons native) :
    Parted (ReadsEither native) (Spells native .address) (HiddenEither native) where
  clean := by
    intro s b hzero
    rw [ReadsEither, Spells]
    by_cases h : 58 ∈ s
    · rw [if_pos h]
      simp only [parted_ip6.clean hzero]
      refine ⟨.inr, fun hor => hor.resolve_left fun hfour => ?_⟩
      obtain ⟨a, ha, -⟩ := hfour
      exact no_colon_of_isIp4 hcolons ha h
    · rw [if_neg h]
      simp only [parted_ip4.clean hzero]
      refine ⟨.inl, fun hor => hor.resolve_right fun hsix => ?_⟩
      obtain ⟨a, ha, -⟩ := hsix
      exact h (colon_of_isIp6 hcolons ha)
  whole := by
    intro s b h
    rcases h with ⟨a, ha, -⟩ | ⟨a, ha, -⟩
    · exact ha.1
    · exact ha.1
  seen := by
    intro s
    rw [HiddenEither]
    simp only [ReadsEither]
    by_cases h : 58 ∈ s
    · simp only [if_pos h, parted_ip6.seen]
      exact and_congr_right fun _ => (exists_image _).symm
    · simp only [if_neg h, parted_ip4.seen]
      exact and_congr_right fun _ => (exists_image _).symm

/-- A network is as its address. -/
theorem Parted.network {reads spells : Bytes → Bytes → Prop} {hidden : Bytes → Prop}
    (h : Parted reads spells hidden) :
    Parted (ReadsNetwork reads) (ReadsNetwork spells) (HiddenNetwork hidden) where
  clean := by
    intro s b hzero
    refine exists_congr fun ip => exists_congr fun t => exists_congr fun a => exists_congr fun n =>
      and_congr_right fun hs => ?_
    rw [h.clean fun hin => hzero (hs ▸ List.mem_append_left _ hin)]
  whole := by
    intro s b ⟨ip, t, a, n, hs, ha, hlength, _⟩ hin
    rcases List.mem_append.1 (hs ▸ hin) with hin | hin
    · exact h.whole ha hin
    · exact zero_notMem_of_isLength hlength hin
  seen := by
    intro s
    constructor
    · intro ⟨ip, t, n, hs, hhidden, hlength⟩
      obtain ⟨hzero, a, ha⟩ := h.seen.1 hhidden
      exact ⟨hs ▸ List.mem_append_left _ hzero, _, ip, t, a, n, hs, ha, hlength, rfl⟩
    · intro ⟨hzero, b, ip, t, a, n, hs, ha, hlength, _⟩
      refine ⟨ip, t, n, hs, h.seen.2 ⟨?_, a, ha⟩, hlength⟩
      exact (List.mem_append.1 (hs ▸ hzero)).resolve_right (zero_notMem_of_isLength hlength)

/-- The length of a network is bounded by the family of its address. -/
theorem readsNetwork_spells (hcolons : Colons native) :
    (ReadsNetwork (IsIp4 native) s b ↔ Spells native .network4 s b) ∧
      (ReadsNetwork (IsIp6 native) s b ↔ Spells native .network6 s b) ∧
        (ReadsNetwork (Spells native .address) s b ↔ Spells native .network s b) := by
  have h4 : ∀ {ip a}, IsIp4 native ip a → (if 58 ∈ ip then 128 else 32) = 32 := fun ha =>
    if_neg (no_colon_of_isIp4 hcolons ha)
  have h6 : ∀ {ip a}, IsIp6 native ip a → (if 58 ∈ ip then 128 else 32) = 128 := fun ha =>
    if_pos (colon_of_isIp6 hcolons ha)
  refine ⟨?_, ?_, ?_⟩
  · refine exists_congr fun ip => exists_congr fun t => exists_congr fun a => exists_congr fun n =>
      and_congr_right fun _ => and_congr_right fun ha => ?_
    rw [h4 ha]
  · refine exists_congr fun ip => exists_congr fun t => exists_congr fun a => exists_congr fun n =>
      and_congr_right fun _ => and_congr_right fun ha => ?_
    rw [h6 ha]
  · constructor
    · rintro ⟨ip, t, _, n, hs, ⟨a, ha, rfl⟩ | ⟨a, ha, rfl⟩, hlength, hb⟩
      · exact .inl ⟨ip, t, a, n, hs, ha, h4 ha ▸ hlength, hb⟩
      · exact .inr ⟨ip, t, a, n, hs, ha, h6 ha ▸ hlength, hb⟩
    · rintro (⟨ip, t, a, n, hs, ha, hlength, hb⟩ | ⟨ip, t, a, n, hs, ha, hlength, hb⟩)
      · exact ⟨ip, t, _, n, hs, .inl ⟨a, ha, rfl⟩, (h4 ha).symm ▸ hlength, hb⟩
      · exact ⟨ip, t, _, n, hs, .inr ⟨a, ha, rfl⟩, (h6 ha).symm ▸ hlength, hb⟩

/-- The texts read for a type are those that are meant, unless a NUL is hidden. -/
theorem reads_iff_spells (hcolons : Colons native) (kind : TextType) :
    (∀ b, Reads native kind s b ↔ Spells native kind s b) ↔ ¬ Hidden native kind s := by
  obtain ⟨h4, h6, heither⟩ :=
    And.intro (fun b => (@readsNetwork_spells native s b hcolons).1)
      (And.intro (fun b => (@readsNetwork_spells native s b hcolons).2.1)
        fun b => (@readsNetwork_spells native s b hcolons).2.2)
  cases kind with
  | mac => exact ⟨fun _ h => h, fun _ _ => Iff.rfl⟩
  | ip4 => exact parted_ip4.iff_not_hidden
  | ip6 => exact parted_ip6.iff_not_hidden
  | address => exact (parted_either hcolons).iff_not_hidden
  | network =>
    rw [← forall_congr' fun b => iff_congr Iff.rfl (heither b)]
    exact (parted_either hcolons).network.iff_not_hidden
  | network4 =>
    rw [← forall_congr' fun b => iff_congr Iff.rfl (h4 b)]
    exact parted_ip4.network.iff_not_hidden
  | network6 =>
    rw [← forall_congr' fun b => iff_congr Iff.rfl (h6 b)]
    exact parted_ip6.network.iff_not_hidden

end

/-- `Encode` takes exactly the texts of an address or network, unless one hides a NUL. -/
theorem encode_spells {cat : Catalog} {native : Native} (hcat : AddressTypes cat)
    (hcolons : Colons native) (symbols : Symbols) (kind : TextType) (s : Bytes) :
    (∀ b, Encode cat native symbols kind.name (.str s) = .ok b ↔ Spells native kind s b) ↔
      ¬ Hidden native kind s := by
  rw [← reads_iff_spells hcolons kind]
  exact forall_congr' fun b => iff_congr (encode_iff_reads hcat kind) Iff.rfl

/-! ### An address with a NUL -/

/-- A catalog of these types alone. -/
def addressCatalog : Catalog := fun name => List.lookup name
  [("vl_api_ip4_address_t", .alias "u8" (some 4)), ("vl_api_ip6_address_t", .alias "u8" (some 16)),
    ("vl_api_address_family_t", .enum "u8" [("ADDRESS_IP4", 0), ("ADDRESS_IP6", 1)] false),
    ("vl_api_address_union_t", .union [{ name := "ip4", type := "vl_api_ip4_address_t" },
      { name := "ip6", type := "vl_api_ip6_address_t" }]),
    ("vl_api_address_t", .struct [{ name := "af", type := "vl_api_address_family_t" },
      { name := "un", type := "vl_api_address_union_t" }]),
    ("vl_api_prefix_t", .struct (networkFields "vl_api_address_t")),
    ("vl_api_ip4_prefix_t", .struct (networkFields "vl_api_ip4_address_t")),
    ("vl_api_ip6_prefix_t", .struct (networkFields "vl_api_ip6_address_t"))]

/-- The catalog of the example has the address types of VPP. -/
theorem addressCatalog_types : AddressTypes addressCatalog where
  octet := rfl
  ip4 := rfl
  ip6 := rfl
  family := rfl
  union := ⟨none, none, fun _ h => (by cases h), fun _ h => (by cases h), rfl⟩
  address := rfl
  network := rfl
  network4 := rfl
  network6 := rfl

theorem length_ten : ([10, 0, 0, 1] : Bytes).length = 4 := rfl

/-- A C library that knows one address. -/
def oneAddress : Native where
  pton4 t := if t = utf8 "10.0.0.1" then some ⟨[10, 0, 0, 1], length_ten⟩ else none
  ntop4 _ := none
  pton6 _ := none
  ntop6 _ := none
  floatBytes _ _ := .error (invalid "Expected a number")
  floatValue _ _ := .error ⟨"invalid_reply", "Invalid number"⟩

/-- The library function of the example tells the families by the colon. -/
theorem oneAddress_colons : Colons oneAddress where
  four {t r} h := by
    have ht : t = utf8 "10.0.0.1" := by
      by_contra hne
      rw [oneAddress] at h
      simp [hne] at h
    rw [ht]
    decide
  six h := by cases h

/-- `10.0.0.1` is an address. -/
theorem encode_spells_plain :
    Encode addressCatalog oneAddress {} "vl_api_address_t" (.str "10.0.0.1") =
        .ok (either4 [10, 0, 0, 1]) ↔
      Spells oneAddress .address "10.0.0.1" (either4 [10, 0, 0, 1]) := by
  have hcolon : 58 ∉ utf8 "10.0.0.1" := by decide
  have hzero : 0 ∉ utf8 "10.0.0.1" := by decide
  have hseen : ¬ Hidden oneAddress .address "10.0.0.1" := by
    rw [Hidden, HiddenEither, if_neg hcolon]
    exact fun h => hzero h.1
  exact (encode_spells addressCatalog_types oneAddress_colons {} .address "10.0.0.1").2 hseen _

/-- A text with a NUL is taken for the address before it. -/
theorem encode_spells_hidden :
    Encode addressCatalog oneAddress {} "vl_api_address_t" (.str (utf8 "10.0.0.1" ++ [0, 120])) =
        .ok (either4 [10, 0, 0, 1]) ∧
      ∀ b, ¬ Spells oneAddress .address (utf8 "10.0.0.1" ++ [0, 120]) b := by
  have hread : ReadsEither oneAddress (utf8 "10.0.0.1" ++ [0, 120]) (either4 [10, 0, 0, 1]) := by
    rw [ReadsEither, if_neg (by decide)]
    exact ⟨_, ⟨⟨[10, 0, 0, 1], length_ten⟩, by decide, rfl⟩, rfl⟩
  refine ⟨(encode_iff_reads addressCatalog_types .address).2 hread, fun b hspells => ?_⟩
  exact absurd ((parted_either oneAddress_colons).whole hspells) (by decide)

end VppJson.Schema
