import VppJsonGateway.WireFormat

/-!
# Texts of addresses

The types that `Convert` of `src/src/schema.cc` reads from one text: MAC addresses, IP addresses
and prefixes. `Spells` says which texts are meant for which octets, `Reads` which ones the codec
takes; `inet_pton` of the C library, which reads a text up to its first NUL, decides what an IP
address is.
-/

namespace VppJson.Schema

open Lib

/-! ## The types -/

/-- The types that are read from one text. -/
inductive TextType where
  | mac
  | ip4
  | ip6
  | address
  | network
  | network4
  | network6

/-- Their names. -/
def TextType.name : TextType → Bytes
  | .mac => "vl_api_mac_address_t"
  | .ip4 => "vl_api_ip4_address_t"
  | .ip6 => "vl_api_ip6_address_t"
  | .address => "vl_api_address_t"
  | .network => "vl_api_prefix_t"
  | .network4 => "vl_api_ip4_prefix_t"
  | .network6 => "vl_api_ip6_prefix_t"

/-- The fields of a prefix type, after the type of its address. -/
def networkFields (type : Bytes) : List Field :=
  [{ name := "address", type }, { name := "len", type := "u8" }]

/-- VPP's layouts of these types. A member of the address union has its own family as its case, or
no case. -/
structure AddressTypes (cat : Catalog) : Prop where
  octet : cat "u8" = none
  ip4 : cat "vl_api_ip4_address_t" = some (.alias "u8" (some 4))
  ip6 : cat "vl_api_ip6_address_t" = some (.alias "u8" (some 16))
  family : cat "vl_api_address_family_t" =
    some (.enum "u8" [("ADDRESS_IP4", 0), ("ADDRESS_IP6", 1)] false)
  union : ∃ case4 case6 : Option Bytes, (∀ c ∈ case4, c = utf8 "ADDRESS_IP4") ∧
    (∀ c ∈ case6, c = utf8 "ADDRESS_IP6") ∧ cat "vl_api_address_union_t" = some (.union
      [{ name := "ip4", type := "vl_api_ip4_address_t", caseName := case4 },
        { name := "ip6", type := "vl_api_ip6_address_t", caseName := case6 }])
  address : cat "vl_api_address_t" = some (.struct
    [{ name := "af", type := "vl_api_address_family_t" },
      { name := "un", type := "vl_api_address_union_t" }])
  network : cat "vl_api_prefix_t" = some (.struct (networkFields "vl_api_address_t"))
  network4 : cat "vl_api_ip4_prefix_t" = some (.struct (networkFields "vl_api_ip4_address_t"))
  network6 : cat "vl_api_ip6_prefix_t" = some (.struct (networkFields "vl_api_ip6_address_t"))

/-- `inet_pton`: an IPv6 address has a colon, an IPv4 address has none. -/
structure Colons (native : Native) : Prop where
  four : ∀ {t r}, native.pton4 t = some r → 58 ∉ t
  six : ∀ {t r}, native.pton6 t = some r → 58 ∈ t

/-! ## What texts are meant for -/

/-- Two hexadecimal digits, for an octet. -/
def IsGroup (g : Bytes) (b : UInt8) : Prop :=
  ∃ x y m n, g = [x, y] ∧ Json.hexVal x = some m ∧ Json.hexVal y = some n ∧ b = UInt8.ofNat (16 * m + n)

/-- Groups joined by colons. -/
def colonJoined : List Bytes → Bytes
  | [] => []
  | [g] => g
  | g :: gs => g ++ 58 :: colonJoined gs

/-- The text of a MAC address: six groups. -/
def IsMac (s b : Bytes) : Prop :=
  ∃ groups, groups.length = 6 ∧ List.Forall₂ IsGroup groups b ∧ s = colonJoined groups

section

variable (native : Native)

/-- The text of an IPv4 address. -/
def IsIp4 (s b : Bytes) : Prop := 0 ∉ s ∧ ∃ r, native.pton4 s = some r ∧ b = r.1

/-- The text of an IPv6 address. -/
def IsIp6 (s b : Bytes) : Prop := 0 ∉ s ∧ ∃ r, native.pton6 s = some r ∧ b = r.1

/-- An IPv4 address in a field for either family. -/
def either4 (a : Bytes) : Bytes := 0 :: (a ++ List.replicate 12 0)

/-- An IPv6 address in a field for either family. -/
def either6 (a : Bytes) : Bytes := 1 :: a

/-- A slash, decimal digits and their value up to a bound. -/
def IsLength (limit : Nat) (t : Bytes) (n : Nat) : Prop :=
  ∃ digits, digits ≠ [] ∧ (∀ d ∈ digits, isDigit d = true) ∧ t = 47 :: digits ∧
    digitsVal digits = n ∧ n ≤ limit

/-- The texts of a type, with the octets they are for. -/
def Spells : TextType → Bytes → Bytes → Prop
  | .mac, s, b => IsMac s b
  | .ip4, s, b => IsIp4 native s b
  | .ip6, s, b => IsIp6 native s b
  | .address, s, b => (∃ a, IsIp4 native s a ∧ b = either4 a) ∨ ∃ a, IsIp6 native s a ∧ b = either6 a
  | .network, s, b =>
    (∃ ip t a n, s = ip ++ t ∧ IsIp4 native ip a ∧ IsLength 32 t n ∧ b = either4 a ++ [UInt8.ofNat n]) ∨
      ∃ ip t a n, s = ip ++ t ∧ IsIp6 native ip a ∧ IsLength 128 t n ∧ b = either6 a ++ [UInt8.ofNat n]
  | .network4, s, b =>
    ∃ ip t a n, s = ip ++ t ∧ IsIp4 native ip a ∧ IsLength 32 t n ∧ b = a ++ [UInt8.ofNat n]
  | .network6, s, b =>
    ∃ ip t a n, s = ip ++ t ∧ IsIp6 native ip a ∧ IsLength 128 t n ∧ b = a ++ [UInt8.ofNat n]

end

/-! ## MAC addresses -/

/-- Two hexadecimal digits are a group for the octet they spell. -/
theorem isGroup_self {x y : UInt8} {m n : Nat} (hx : Json.hexVal x = some m)
    (hy : Json.hexVal y = some n) : IsGroup [x, y] (UInt8.ofNat (16 * m + n)) :=
  ⟨x, y, m, n, rfl, hx, hy, rfl⟩

/-- The octets of groups joined by colons. -/
theorem macBytes_eq_some {s b : Bytes} : macBytes s = some b ↔
    ∃ groups, groups ≠ [] ∧ List.Forall₂ IsGroup groups b ∧ s = colonJoined groups := by
  constructor
  · intro h
    induction s using macBytes.induct generalizing b with
    | case1 => cases h
    | case2 => cases h
    | case3 x y m n hn hm =>
      rw [macBytes, hm, hn] at h
      cases h
      exact ⟨[[x, y]], by simp, .cons (isGroup_self hm hn) .nil, rfl⟩
    | case4 x y m n hn hm rest ih =>
      rw [macBytes, hm, hn] at h
      obtain ⟨b', hb', rfl⟩ := Option.map_eq_some_iff.1 h
      obtain ⟨groups, hne, hall, rfl⟩ := ih hb'
      obtain ⟨g, gs, rfl⟩ := List.exists_cons_of_ne_nil hne
      exact ⟨[x, y] :: g :: gs, by simp, .cons (isGroup_self hm hn) hall, rfl⟩
    | case5 x y m n hn hm c rest hc =>
      rw [macBytes, hm, hn] at h
      simp [hc] at h
    | case6 x y rest hnone =>
      rw [macBytes] at h
      split at h
      · next m n hm hn => exact (hnone m n hm hn).elim
      · cases h
  · rintro ⟨groups, hne, hall, hs⟩
    subst hs
    induction hall with
    | nil => exact absurd rfl hne
    | @cons g b gs bs hg hgs ih =>
      obtain ⟨x, y, m, n, rfl, hx, hy, rfl⟩ := hg
      cases gs with
      | nil =>
        cases hgs
        simp [colonJoined, macBytes, hx, hy]
      | cons g' gs =>
        have hrest := ih (List.cons_ne_nil _ _)
        simp [colonJoined, macBytes, hx, hy, hrest]

/-- Groups of two digits, joined by colons, have three characters each but for the last. -/
theorem length_colonJoined {groups : List Bytes} (hne : groups ≠ []) (h : ∀ g ∈ groups, g.length = 2) :
    (colonJoined groups).length + 1 = 3 * groups.length := by
  induction groups with
  | nil => exact absurd rfl hne
  | cons g gs ih =>
    obtain ⟨hg, hgs⟩ := List.forall_mem_cons.1 h
    cases gs with
    | nil => simp [colonJoined, hg]
    | cons g' gs =>
      have hrest := ih (List.cons_ne_nil _ _) hgs
      simp only [colonJoined, List.length_append, List.length_cons] at hrest ⊢
      omega

/-- `Convert` of a MAC address reads the texts that are meant. -/
theorem mac_iff {s b : Bytes} : macBytes s = some b ∧ s.length = 17 ↔ IsMac s b := by
  have htwo : ∀ {groups : List Bytes} {b : Bytes}, List.Forall₂ IsGroup groups b →
      ∀ g ∈ groups, g.length = 2 := by
    intro groups b hall
    induction hall with
    | nil => exact fun g hg => (by cases hg)
    | cons hg _ ih =>
      obtain ⟨x, y, m, n, rfl, -⟩ := hg
      exact List.forall_mem_cons.2 ⟨rfl, ih⟩
  constructor
  · intro ⟨hmac, hlen⟩
    obtain ⟨groups, hne, hall, rfl⟩ := macBytes_eq_some.1 hmac
    have hjoined := length_colonJoined hne (htwo hall)
    exact ⟨groups, by omega, hall, rfl⟩
  · intro ⟨groups, hsix, hall, hs⟩
    have hne : groups ≠ [] := fun h => by simp [h] at hsix
    have hjoined := length_colonJoined hne (htwo hall)
    exact ⟨macBytes_eq_some.2 ⟨groups, hne, hall, hs⟩, by rw [hs]; omega⟩

/-! ## Prefixes -/

/-- A text is split at its last slash. -/
theorem splitSlash_append {ip digits : Bytes} (h : 47 ∉ digits) :
    splitSlash (ip ++ 47 :: digits) = some (ip, digits) := by
  have hafter : ((ip ++ 47 :: digits).reverse.takeWhile (· ≠ 47)).reverse = digits := by
    rw [List.reverse_append, List.reverse_cons, List.append_assoc, List.singleton_append,
      List.takeWhile_append_of_pos, List.takeWhile_cons_of_neg (by simp), List.append_nil,
      List.reverse_reverse]
    intro d hd
    exact decide_eq_true fun heq => h (heq ▸ List.mem_reverse.1 hd)
  have hlen : (ip ++ 47 :: digits).length - digits.length - 1 = ip.length := by
    rw [List.length_append, List.length_cons]
    omega
  rw [splitSlash, hafter, hlen, List.take_left, if_neg]
  rw [List.length_append, List.length_cons]
  omega

/-- `Convert` splits a prefix at its last slash. -/
theorem splitSlash_eq_some {s ip digits : Bytes} :
    splitSlash s = some (ip, digits) ↔ s = ip ++ 47 :: digits ∧ 47 ∉ digits := by
  constructor
  · intro h
    by_cases hmem : 47 ∈ s.reverse
    · obtain ⟨after, before, heq, hnone⟩ := List.eq_append_cons_of_mem hmem
      have hs : s = before.reverse ++ 47 :: after.reverse := by
        rw [← List.reverse_reverse s, heq]
        simp
      have hnone' : 47 ∉ after.reverse := fun hin => hnone (List.mem_reverse.1 hin)
      rw [hs, splitSlash_append hnone'] at h
      cases h
      exact ⟨hs, hnone'⟩
    · have hall : s.reverse.takeWhile (· ≠ 47) = s.reverse :=
        List.takeWhile_eq_self_iff.2 fun d hd => decide_eq_true fun heq => hmem (heq ▸ hd)
      rw [splitSlash, hall, List.reverse_reverse] at h
      simp at h
  · intro ⟨hs, hnone⟩
    rw [hs, splitSlash_append hnone]

/-- `std::from_chars` reads decimal digits and nothing else. -/
theorem fromChars_eq_some {digits : Bytes} {n : Int} {limit : Nat} (hlimit : limit < 2 ^ 32) :
    fromChars false 4 digits = some (n, []) ∧ n ≤ limit ↔
      ∃ k : Nat, n = k ∧ IsLength limit (47 :: digits) k := by
  have hread : fromChars false 4 digits =
      if digits.takeWhile isDigit ≠ [] ∧
          inRange false 4 (digitsVal (digits.takeWhile isDigit)) = true then
        some ((digitsVal (digits.takeWhile isDigit) : Int), digits.dropWhile isDigit) else none := rfl
  rw [hread]
  constructor
  · intro ⟨hsome, hle⟩
    split_ifs at hsome with hdigits
    obtain ⟨hn, hdrop⟩ := Prod.mk.inj (Option.some.inj hsome)
    have hall : ∀ d ∈ digits, isDigit d = true := List.dropWhile_eq_nil_iff.1 hdrop
    have htake : digits.takeWhile isDigit = digits := List.takeWhile_eq_self_iff.2 hall
    rw [htake] at hdigits hn
    subst hn
    exact ⟨_, rfl, digits, hdigits.1, hall, rfl, rfl, by omega⟩
  · intro ⟨k, hn, digits', hne, hall, heq, hk, hle⟩
    obtain rfl : digits = digits' := (List.cons.inj heq).2
    have htake : digits.takeWhile isDigit = digits := List.takeWhile_eq_self_iff.2 hall
    have hrange : inRange false 4 (digitsVal digits) = true := by
      rw [inRange, if_neg (by decide), hk]
      simp only [Bool.decide_and, Bool.and_eq_true, decide_eq_true_eq]
      omega
    rw [htake, if_pos ⟨hne, hrange⟩, List.dropWhile_eq_nil_iff.2 hall, hk, hn]
    exact ⟨rfl, by omega⟩

/-! ## What the codec reads -/

section

variable (native : Native)

/-- An IPv4 address, up to the first NUL. -/
def ReadsIp4 (s b : Bytes) : Prop := ∃ r, native.pton4 (cString s) = some r ∧ b = r.1

/-- An IPv6 address, up to the first NUL. -/
def ReadsIp6 (s b : Bytes) : Prop := ∃ r, native.pton6 (cString s) = some r ∧ b = r.1

/-- An address of the family that a colon tells, anywhere in the text. -/
def ReadsEither (s b : Bytes) : Prop :=
  if 58 ∈ s then ∃ a, ReadsIp6 native s a ∧ b = either6 a
  else ∃ a, ReadsIp4 native s a ∧ b = either4 a

/-- An address and a length, whose bound a colon tells. -/
def ReadsNetwork (part : Bytes → Bytes → Prop) (s b : Bytes) : Prop :=
  ∃ ip t a n, s = ip ++ t ∧ part ip a ∧ IsLength (if 58 ∈ ip then 128 else 32) t n ∧
    b = a ++ [UInt8.ofNat n]

/-- What the codec takes for the texts of a type. -/
def Reads : TextType → Bytes → Bytes → Prop
  | .mac => IsMac
  | .ip4 => ReadsIp4 native
  | .ip6 => ReadsIp6 native
  | .address => ReadsEither native
  | .network => ReadsNetwork (ReadsEither native)
  | .network4 => ReadsNetwork (ReadsIp4 native)
  | .network6 => ReadsNetwork (ReadsIp6 native)

end

end VppJson.Schema
