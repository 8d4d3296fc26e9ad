import Mathlib

/-!
# Byte strings

A byte string is a list of octets. The module gives the two number formats every wire
format here is built from, each with the law that reading undoes writing: decimal text
(`decimal`, `digitsVal`) and little-endian fields of a fixed width (`leBytes`, `leNat`).
`blocks` cuts a string into consecutive pieces of a bounded length.
-/

namespace Lib

/-- A string of octets. -/
abbrev Bytes := List UInt8

instance : LawfulBEq Bytes := inferInstanceAs (LawfulBEq (List UInt8))

/-- The octets of a literal text, in UTF-8. -/
def utf8 (s : String) : Bytes := s.toByteArray.data.toList

instance : Coe String Bytes := ⟨utf8⟩

/-- Texts with the same octets are the same. -/
theorem utf8_inj {a b : String} : utf8 a = utf8 b ↔ a = b := by
  refine ⟨fun h => ?_, fun h => congrArg utf8 h⟩
  rw [utf8, utf8] at h
  exact String.toByteArray_inj.1 (ByteArray.ext (Array.toList_inj.1 h))

/-! ## Decimal text -/

/-- `b` is an ASCII decimal digit. -/
def isDigit (b : UInt8) : Bool := 48 ≤ b.toNat ∧ b.toNat ≤ 57

/-- The ASCII digit of a number below ten. -/
def digitByte (d : Nat) : UInt8 := UInt8.ofNat (48 + d)

/-- The decimal text of `n`, without leading zeros. -/
def decimal (n : Nat) : Bytes :=
  if n = 0 then [48] else ((Nat.digits 10 n).map digitByte).reverse

/-- The decimal text of an integer, with a minus sign when it is negative. -/
def decimalInt (i : Int) : Bytes :=
  if i < 0 then 45 :: decimal i.natAbs else decimal i.toNat

/-- The number a string of digits denotes, most significant digit first. -/
def digitsVal (ds : Bytes) : Nat := ds.foldl (fun a d => a * 10 + (d.toNat - 48)) 0

/-- The octet of a digit. -/
theorem digitByte_toNat {d : Nat} (h : d < 10) : (digitByte d).toNat = 48 + d := by
  simp only [digitByte, UInt8.toNat_ofNat']
  omega

theorem isDigit_digitByte {d : Nat} (h : d < 10) : isDigit (digitByte d) = true := by
  simp only [isDigit, digitByte_toNat h, decide_eq_true_eq]
  omega

/-- Every octet of a decimal text is a digit. -/
theorem isDigit_of_mem_decimal {n : Nat} {b : UInt8} (h : b ∈ decimal n) : isDigit b = true := by
  unfold decimal at h
  split at h
  · rw [List.mem_singleton] at h
    subst h
    rfl
  · rw [List.mem_reverse, List.mem_map] at h
    obtain ⟨d, hd, rfl⟩ := h
    exact isDigit_digitByte (Nat.digits_lt_base (by norm_num) hd)

/-- A decimal has a digit. -/
theorem decimal_ne_nil (n : Nat) : decimal n ≠ [] := by
  unfold decimal
  split
  · simp
  · next h => simpa [Nat.digits_ne_nil_iff_ne_zero] using h

/-- Reading the digits of a decimal text gives its number back. -/
@[simp] theorem digitsVal_decimal (n : Nat) : digitsVal (decimal n) = n := by
  unfold decimal
  split
  · next h => subst h; rfl
  · next h =>
    rw [digitsVal, List.foldl_reverse, List.foldr_map]
    have key : ∀ l : List Nat, (∀ d ∈ l, d < 10) →
        l.foldr (fun d a => a * 10 + ((digitByte d).toNat - 48)) 0 = Nat.ofDigits 10 l := by
      intro l hl
      induction l with
      | nil => rfl
      | cons d l ih =>
        rw [List.foldr_cons, ih (fun x hx => hl x (List.mem_cons_of_mem _ hx)),
          digitByte_toNat (hl d (by simp)), Nat.ofDigits_cons]
        omega
    rw [key _ (fun d hd => Nat.digits_lt_base (by norm_num) hd), Nat.ofDigits_digits]

/-- A number below `10 ^ k` has a decimal text of at most `k` octets. -/
theorem length_decimal_le {n k : Nat} (hk : 0 < k) (h : n < 10 ^ k) : (decimal n).length ≤ k := by
  unfold decimal
  split
  · exact hk
  · rw [List.length_reverse, List.length_map]
    exact (Nat.digits_length_le_iff (by norm_num) n).2 h

/-- A decimal text of more than one digit does not start with a zero. -/
theorem decimal_head_ne_zero {n : Nat} {ds : Bytes} (h : decimal n = 48 :: ds) : ds = [] := by
  unfold decimal at h
  split at h
  · simpa using h.symm
  · next hn =>
    have hne : Nat.digits 10 n ≠ [] := Nat.digits_ne_nil_iff_ne_zero.2 hn
    have hlast := Nat.getLast_digit_ne_zero 10 hn
    have hlt : (Nat.digits 10 n).getLast hne < 10 :=
      Nat.digits_lt_base (by norm_num) (List.getLast_mem hne)
    have hhead : (((Nat.digits 10 n).map digitByte).reverse).head? = some 48 := by rw [h]; rfl
    rw [List.head?_reverse, List.getLast?_map, List.getLast?_eq_some_getLast hne] at hhead
    simp only [Option.map_some, Option.some.injEq] at hhead
    have := digitByte_toNat hlt
    rw [hhead] at this
    simp at this
    omega

/-! ## Little-endian fields -/

/-- `n` as `w` octets, least significant first; what does not fit is dropped. -/
def leBytes : Nat → Nat → Bytes
  | 0, _ => []
  | w + 1, n => UInt8.ofNat n :: leBytes w (n / 256)

/-- The number a little-endian field holds. -/
def leNat : Bytes → Nat
  | [] => 0
  | b :: bs => b.toNat + 256 * leNat bs

@[simp] theorem length_leBytes (w n : Nat) : (leBytes w n).length = w := by
  induction w generalizing n with
  | zero => rfl
  | succ w ih => simp [leBytes, ih]

/-- Reading a field gives the number written, modulo the field's range. -/
theorem leNat_leBytes (w n : Nat) : leNat (leBytes w n) = n % 256 ^ w := by
  induction w generalizing n with
  | zero => simp [leBytes, leNat, Nat.mod_one]
  | succ w ih =>
    rw [leBytes, leNat, ih, UInt8.toNat_ofNat', pow_succ 256 w, Nat.mul_comm (256 ^ w) 256,
      Nat.mod_mul]

/-- A number that fits its field is read back. -/
theorem leNat_leBytes_of_lt {w n : Nat} (h : n < 256 ^ w) : leNat (leBytes w n) = n := by
  rw [leNat_leBytes, Nat.mod_eq_of_lt h]

/-- A number is below the bound its octets allow. -/
theorem leNat_lt (bs : Bytes) : leNat bs < 256 ^ bs.length := by
  induction bs with
  | nil => simp [leNat]
  | cons b bs ih =>
    have := b.toNat_lt
    rw [leNat, List.length_cons, pow_succ]
    omega

/-! ## Blocks -/

/-- `blocks`, with a bound on the number of pieces. -/
def blocksAux {α : Type*} (n : Nat) : Nat → List α → List (List α)
  | 0, _ => []
  | _ + 1, [] => []
  | fuel + 1, x :: xs => (x :: xs).take n :: blocksAux n fuel ((x :: xs).drop n)

/-- `l` cut into consecutive pieces of `n` elements, the last one possibly shorter. -/
def blocks {α : Type*} (n : Nat) (l : List α) : List (List α) := blocksAux n l.length l

variable {α : Type*} {n : Nat}

theorem flatten_blocksAux (hn : 0 < n) :
    ∀ (fuel : Nat) (l : List α), l.length ≤ fuel → (blocksAux n fuel l).flatten = l
  | 0, l, h => by simp [List.eq_nil_of_length_eq_zero (Nat.le_zero.1 h), blocksAux]
  | _ + 1, [], _ => by simp [blocksAux]
  | fuel + 1, x :: xs, h => by
    rw [blocksAux, List.flatten_cons, flatten_blocksAux hn fuel, List.take_append_drop]
    simp only [List.length_drop, List.length_cons] at h ⊢
    omega

/-- The pieces, put together, are the string that was cut. -/
@[simp] theorem flatten_blocks (hn : 0 < n) (l : List α) : (blocks n l).flatten = l :=
  flatten_blocksAux hn _ _ le_rfl

theorem mem_blocksAux {b : List α} (hn : 0 < n) :
    ∀ (fuel : Nat) (l : List α), b ∈ blocksAux n fuel l → b ≠ [] ∧ b.length ≤ n
  | 0, _, h => by simp [blocksAux] at h
  | _ + 1, [], h => by simp [blocksAux] at h
  | fuel + 1, x :: xs, h => by
    rcases List.mem_cons.1 h with rfl | h
    · refine ⟨?_, by simp⟩
      cases n with
      | zero => exact absurd hn (lt_irrefl 0)
      | succ n => simp
    · exact mem_blocksAux hn fuel _ h

/-- A piece is not empty and has at most `n` elements. -/
theorem mem_blocks {b l : List α} (hn : 0 < n) (h : b ∈ blocks n l) : b ≠ [] ∧ b.length ≤ n :=
  mem_blocksAux hn _ _ h

/-- All blocks but the last are full. -/
theorem length_of_mem_dropLast_blocksAux {b : List α} :
    ∀ (fuel : Nat) (l : List α), b ∈ (blocksAux n fuel l).dropLast → b.length = n
  | 0, _, h => by simp [blocksAux] at h
  | _ + 1, [], h => by simp [blocksAux] at h
  | fuel + 1, x :: xs, h => by
    rw [blocksAux] at h
    cases hrest : blocksAux n fuel ((x :: xs).drop n) with
    | nil => simp [hrest] at h
    | cons c cs =>
      rw [hrest, List.dropLast_cons_cons, List.mem_cons] at h
      rcases h with rfl | h
      · refine List.length_take_of_le ?_
        by_contra hlt
        rw [List.drop_eq_nil_of_le (by omega)] at hrest
        cases fuel <;> simp [blocksAux] at hrest
      · exact length_of_mem_dropLast_blocksAux fuel _ (hrest ▸ h)

/-- All blocks but the last are full. -/
theorem length_of_mem_dropLast_blocks {b l : List α} (h : b ∈ (blocks n l).dropLast) :
    b.length = n := length_of_mem_dropLast_blocksAux _ _ h

/-- There are no more blocks than elements. -/
theorem length_blocksAux_le : ∀ (fuel : Nat) (l : List α), (blocksAux n fuel l).length ≤ fuel
  | 0, _ => by simp [blocksAux]
  | _ + 1, [] => by simp [blocksAux]
  | fuel + 1, x :: xs => by
    rw [blocksAux, List.length_cons]
    exact Nat.succ_le_succ (length_blocksAux_le fuel _)

/-- There are no more blocks than items. -/
theorem length_blocks_le (l : List α) : (blocks n l).length ≤ l.length := length_blocksAux_le _ _

theorem mul_length_blocksAux_lt (hn : 0 < n) :
    ∀ (fuel : Nat) (l : List α), n * (blocksAux n fuel l).length < l.length + n
  | 0, l => by
    simp only [blocksAux, List.length_nil, Nat.mul_zero]
    omega
  | _ + 1, [] => by simpa [blocksAux] using hn
  | fuel + 1, x :: xs => by
    have hrest := mul_length_blocksAux_lt hn fuel ((x :: xs).drop n)
    rw [blocksAux, List.length_cons, Nat.mul_succ]
    rw [List.length_drop] at hrest
    rcases Nat.eq_zero_or_pos (blocksAux n fuel ((x :: xs).drop n)).length with hzero | hpos
    · rw [hzero, Nat.mul_zero, List.length_cons]
      omega
    · have hfull := Nat.le_mul_of_pos_right n hpos
      omega

/-- All blocks but the last one are full, so there are not many of them. -/
theorem mul_length_blocks_lt (hn : 0 < n) (l : List α) : n * (blocks n l).length < l.length + n :=
  mul_length_blocksAux_lt hn _ _

/-- What is not empty has a block. -/
theorem blocks_ne_nil {l : List α} (h : l ≠ []) : blocks n l ≠ [] := by
  cases l with
  | nil => exact absurd rfl h
  | cons x xs => simp [blocks, blocksAux]

end Lib
