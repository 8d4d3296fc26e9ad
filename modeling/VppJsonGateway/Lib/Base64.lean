import VppJsonGateway.Lib.Bytes

/-!
# Base64

The standard encoder, and the block decoder that leaves padding to its caller: a padding
character is decoded as six zero bits, so the result has three octets for every four
characters. `decodeBlock_encode` says what the caller then cuts off.
-/

namespace Lib

namespace Base64

/-- The character of a six-bit value. -/
def char (v : Nat) : UInt8 :=
  UInt8.ofNat (if v < 26 then 65 + v else if v < 52 then 71 + v else if v < 62 then v - 4
    else if v = 62 then 43 else 47)

/-- The six-bit value of a character, a padding character counting as zero. -/
def value (b : UInt8) : Option Nat :=
  let n := b.toNat
  if 65 ≤ n ∧ n ≤ 90 then some (n - 65)
  else if 97 ≤ n ∧ n ≤ 122 then some (n - 71)
  else if 48 ≤ n ∧ n ≤ 57 then some (n + 4)
  else if n = 43 then some 62
  else if n = 47 then some 63
  else if n = 61 then some 0
  else none

/-- The four characters of a 24-bit group. -/
def group (n : Nat) : Bytes :=
  [char (n / 262144), char (n / 4096 % 64), char (n / 64 % 64), char (n % 64)]

/-- The encoding of a string of octets, padded to whole groups. -/
def encode : Bytes → Bytes
  | [] => []
  | [a] => (group (a.toNat * 65536)).take 2 ++ [61, 61]
  | [a, b] => (group (a.toNat * 65536 + b.toNat * 256)).take 3 ++ [61]
  | a :: b :: c :: s => group (a.toNat * 65536 + b.toNat * 256 + c.toNat) ++ encode s

/-- The three octets of a 24-bit group. -/
def octets (n : Nat) : Bytes :=
  [UInt8.ofNat (n / 65536), UInt8.ofNat (n / 256), UInt8.ofNat n]

/-- Whole groups of four characters, decoded; none when a character is foreign or the length
is no multiple of four. -/
def decodeBlock : Bytes → Option Bytes
  | [] => some []
  | a :: b :: c :: d :: s =>
    match value a, value b, value c, value d, decodeBlock s with
    | some v, some w, some x, some y, some r =>
      some (octets (((v * 64 + w) * 64 + x) * 64 + y) ++ r)
    | _, _, _, _, _ => none
  | _ => none

/-- A digit is read as it is written. -/
theorem value_char {v : Nat} (h : v < 64) : value (char v) = some v := by
  interval_cases v <;> rfl

/-- No digit is the padding. -/
theorem char_ne_pad {v : Nat} (h : v < 64) : char v ≠ 61 := by
  interval_cases v <;> decide

/-- A group of four digits is decoded to its three octets. -/
theorem decodeBlock_group {n : Nat} (h : n < 16777216) (s : Bytes) :
    decodeBlock (group n ++ s) = (decodeBlock s).map (octets n ++ ·) := by
  have hn : ((n / 262144 * 64 + n / 4096 % 64) * 64 + n / 64 % 64) * 64 + n % 64 = n := by omega
  simp only [group, List.cons_append, List.nil_append, decodeBlock,
    value_char (show n / 262144 < 64 by omega), value_char (show n / 4096 % 64 < 64 by omega),
    value_char (show n / 64 % 64 < 64 by omega), value_char (show n % 64 < 64 by omega)]
  cases decodeBlock s with
  | none => rfl
  | some r => simp only [hn, Option.map_some]

/-- A group holds the octets it was made of. -/
theorem octets_eq (a b c : UInt8) :
    octets (a.toNat * 65536 + b.toNat * 256 + c.toNat) = [a, b, c] := by
  have ha := a.toNat_lt
  have hb := b.toNat_lt
  have hc := c.toNat_lt
  have key : ∀ (n : Nat) (x : UInt8), n % 256 = x.toNat → UInt8.ofNat n = x := by
    intro n x h
    apply UInt8.toNat_inj.1
    rw [UInt8.toNat_ofNat']
    exact h
  simp only [octets, List.cons.injEq, and_true]
  exact ⟨key _ _ (by omega), key _ _ (by omega), key _ _ (by omega)⟩

/-- The number of padding characters of an encoding. -/
def padding (s : Bytes) : Nat := (3 - s.length % 3) % 3

/-- Decoding an encoding gives the octets back, followed by one zero octet for each padding
character. -/
theorem decodeBlock_encode :
    ∀ s : Bytes, decodeBlock (encode s) = some (s ++ List.replicate (padding s) 0)
  | [] => rfl
  | [a] => by
    have ha := a.toNat_lt
    have hv : value 61 = some 0 := rfl
    have ho := octets_eq a 0 0
    have hn : ((a.toNat * 65536 / 262144 * 64 + a.toNat * 65536 / 4096 % 64) * 64 + 0) * 64 + 0
        = a.toNat * 65536 := by omega
    simp only [UInt8.toNat_zero, Nat.zero_mul, Nat.add_zero] at ho
    simp only [encode, group, List.take_succ_cons, List.take_zero, List.cons_append,
      List.nil_append, decodeBlock, hv,
      value_char (show a.toNat * 65536 / 262144 < 64 by omega),
      value_char (show a.toNat * 65536 / 4096 % 64 < 64 by omega), hn, ho]
    rfl
  | [a, b] => by
    have ha := a.toNat_lt
    have hb := b.toNat_lt
    have hv : value 61 = some 0 := rfl
    have ho := octets_eq a b 0
    have hn : (((a.toNat * 65536 + b.toNat * 256) / 262144 * 64 +
        (a.toNat * 65536 + b.toNat * 256) / 4096 % 64) * 64 +
        (a.toNat * 65536 + b.toNat * 256) / 64 % 64) * 64 + 0
        = a.toNat * 65536 + b.toNat * 256 := by omega
    simp only [UInt8.toNat_zero, Nat.add_zero] at ho
    simp only [encode, group, List.take_succ_cons, List.take_zero, List.cons_append,
      List.nil_append, decodeBlock, hv,
      value_char (show (a.toNat * 65536 + b.toNat * 256) / 262144 < 64 by omega),
      value_char (show (a.toNat * 65536 + b.toNat * 256) / 4096 % 64 < 64 by omega),
      value_char (show (a.toNat * 65536 + b.toNat * 256) / 64 % 64 < 64 by omega), hn, ho]
    rfl
  | a :: b :: c :: s => by
    have ha := a.toNat_lt
    have hb := b.toNat_lt
    have hc := c.toNat_lt
    have hpad : padding (a :: b :: c :: s) = padding s := by
      simp only [padding, List.length_cons]; omega
    rw [encode, decodeBlock_group (by omega), decodeBlock_encode s, octets_eq, hpad]
    rfl

/-- The padding characters among the last two of a text. -/
def pads (text : Bytes) : Nat :=
  (if text.getLast? = some 61 then 1 else 0) + (if text.dropLast.getLast? = some 61 then 1 else 0)

/-- The padding of a text of two characters and more is decided by its tail. -/
theorem pads_append (s : Bytes) {t : Bytes} (ht : 2 ≤ t.length) : pads (s ++ t) = pads t := by
  have h₁ : t ≠ [] := by rintro rfl; simp at ht
  have h₂ : t.dropLast ≠ [] := by
    intro h
    have := congrArg List.length h
    simp only [List.length_dropLast, List.length_nil] at this
    omega
  rw [pads, pads, List.getLast?_append_of_ne_nil _ h₁, List.dropLast_append_of_ne_nil h₁,
    List.getLast?_append_of_ne_nil _ h₂]

/-- Four characters for every three octets, rounded up. -/
theorem length_encode : ∀ s : Bytes, (encode s).length = 4 * ((s.length + 2) / 3)
  | [] => rfl
  | [a] => by simp [encode, group]
  | [a, b] => by simp [encode, group]
  | a :: b :: c :: s => by
    simp only [encode, List.length_append, length_encode s, List.length_cons, group,
      List.length_nil]
    omega

/-- An encoding ends in its padding. -/
theorem pads_encode : ∀ s : Bytes, pads (encode s) = padding s
  | [] => rfl
  | [a] => by
    have ha := a.toNat_lt
    have hc := char_ne_pad (show a.toNat * 65536 / 4096 % 64 < 64 by omega)
    rfl
  | [a, b] => by
    have ha := a.toNat_lt
    have hb := b.toNat_lt
    have hc := char_ne_pad
      (show (a.toNat * 65536 + b.toNat * 256) / 64 % 64 < 64 by omega)
    simp [encode, group, pads, padding, hc]
  | a :: b :: c :: s => by
    have hpad : padding (a :: b :: c :: s) = padding s := by
      simp only [padding, List.length_cons]
      omega
    rw [encode, hpad]
    cases s with
    | nil =>
      have h₁ := char_ne_pad
        (show (a.toNat * 65536 + b.toNat * 256 + c.toNat) / 64 % 64 < 64 by omega)
      have h₂ := char_ne_pad (show (a.toNat * 65536 + b.toNat * 256 + c.toNat) % 64 < 64 by omega)
      simp [encode, group, pads, padding, h₁, h₂]
    | cons d s =>
      rw [pads_append, pads_encode (d :: s)]
      rw [length_encode, List.length_cons]
      omega

/-- Every character of an encoding is printable ASCII other than a quote and a backslash. -/
theorem mem_encode {b : UInt8} : ∀ {s : Bytes}, b ∈ encode s →
    0x20 ≤ b ∧ b ≤ 0x7F ∧ b ≠ 34 ∧ b ≠ 92 := by
  have hchar : ∀ v : Nat, v < 64 → 0x20 ≤ char v ∧ char v ≤ 0x7F ∧ char v ≠ 34 ∧ char v ≠ 92 := by
    intro v hv
    interval_cases v <;> decide
  have hgroup : ∀ {n : Nat}, n < 16777216 → b ∈ group n →
      0x20 ≤ b ∧ b ≤ 0x7F ∧ b ≠ 34 ∧ b ≠ 92 := by
    intro n hn hb
    simp only [group, List.mem_cons, List.not_mem_nil, or_false] at hb
    rcases hb with rfl | rfl | rfl | rfl <;> exact hchar _ (by omega)
  have hpad : b = 61 → 0x20 ≤ b ∧ b ≤ 0x7F ∧ b ≠ 34 ∧ b ≠ 92 := by rintro rfl; decide
  intro s
  fun_induction encode s with
  | case1 => simp
  | case2 a =>
    have := a.toNat_lt
    intro hb
    rcases List.mem_append.1 hb with hb | hb
    · exact hgroup (by omega) (List.mem_of_mem_take hb)
    · exact hpad (by simpa using hb)
  | case3 a b' =>
    have := a.toNat_lt
    have := b'.toNat_lt
    intro hb
    rcases List.mem_append.1 hb with hb | hb
    · exact hgroup (by omega) (List.mem_of_mem_take hb)
    · exact hpad (by simpa using hb)
  | case4 a b' c s ih =>
    have := a.toNat_lt
    have := b'.toNat_lt
    have := c.toNat_lt
    intro hb
    rcases List.mem_append.1 hb with hb | hb
    · exact hgroup (by omega) hb
    · exact ih hb

end Base64

end Lib
