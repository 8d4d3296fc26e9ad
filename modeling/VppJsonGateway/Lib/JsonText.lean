import VppJsonGateway.Lib.Json

/-!
# The octets of a value's text

What an observer of `dump` sees octet by octet: the text of a value has no newline, so it
fills one line of a file, and it is a sequence of *pieces* an automaton over octets can be run
through, one rule for each kind of value. Texts are also split into lines here.
-/

namespace Lib

/-! ## Lines -/

/-- The lines `std::getline` reads from a file. -/
def lines : Bytes → List Bytes
  | [] => []
  | b :: s =>
    if b = 10 then [] :: lines s
    else
      match lines s with
      | [] => [[b]]
      | l :: ls => (b :: l) :: ls

/-- A text without a newline, ended by one, is the first line. -/
theorem lines_cons {l s : Bytes} (h : ∀ b ∈ l, b ≠ 10) : lines (l ++ 10 :: s) = l :: lines s := by
  induction l with
  | nil => simp [lines]
  | cons b l ih =>
    have hl := ih fun c hc => h c (List.mem_cons_of_mem _ hc)
    simp [lines, h b List.mem_cons_self, hl]

/-- Texts without newlines, each ended by one, are the lines of the whole. -/
theorem lines_flatten {ls : List Bytes} (h : ∀ l ∈ ls, ∀ b ∈ l, b ≠ 10) :
    lines (ls.map (· ++ [10])).flatten = ls := by
  induction ls with
  | nil => rfl
  | cons l ls ih =>
    have hls := ih fun m hm => h m (List.mem_cons_of_mem _ hm)
    simp only [List.map_cons, List.flatten_cons, List.append_assoc, List.cons_append,
      List.nil_append]
    rw [lines_cons (h l List.mem_cons_self), hls]

/-! ## Number tokens -/

/-- The octets a number token is made of. -/
def isNumByte (b : UInt8) : Bool := isDigit b || b = 43 || b = 45 || b = 46 || b = 69 || b = 101

theorem isNumByte_of_isDigit {b : UInt8} (h : isDigit b = true) : isNumByte b = true := by
  simp [isNumByte, h]

theorem isNumByte_of_mem_takeWhile {s : Bytes} {b : UInt8} (h : b ∈ s.takeWhile isDigit) :
    isNumByte b = true := isNumByte_of_isDigit (List.mem_takeWhile_imp h)

/-- A whole part has only bytes of numbers. -/
theorem isNumByte_of_scanInt {s : Bytes} {p : Bytes × Bytes} (h : scanInt s = some p) :
    ∀ b ∈ p.1, isNumByte b = true := by
  cases s with
  | nil => cases h
  | cons c s =>
    simp only [scanInt] at h
    split at h
    · cases h; intro b hb; rw [List.mem_singleton] at hb; subst hb; rfl
    · split at h
      · cases h; exact fun b hb => isNumByte_of_mem_takeWhile hb
      · cases h

/-- So have digits. -/
theorem isNumByte_of_scanDigits {s : Bytes} {p : Bytes × Bytes} (h : scanDigits s = some p) :
    ∀ b ∈ p.1, isNumByte b = true := by
  unfold scanDigits at h
  split at h
  · cases h
  · cases h; exact fun b hb => isNumByte_of_mem_takeWhile hb

/-- So has a fraction. -/
theorem isNumByte_of_scanFrac {s : Bytes} {p : Bytes × Bytes} (h : scanFrac s = some p) :
    ∀ b ∈ p.1, isNumByte b = true := by
  cases s with
  | nil => cases h; simp
  | cons c s =>
    simp only [scanFrac] at h
    split at h
    · obtain ⟨q, hq, rfl⟩ := Option.map_eq_some_iff.1 h
      intro b hb
      rcases List.mem_cons.1 hb with rfl | hb
      · rfl
      · exact isNumByte_of_scanDigits hq b hb
    · cases h; simp

/-- So has an exponent. -/
theorem isNumByte_of_scanExp {s : Bytes} {p : Bytes × Bytes} (h : scanExp s = some p) :
    ∀ b ∈ p.1, isNumByte b = true := by
  have hdigits : ∀ {s' : Bytes} {t : Bytes}, (∀ b ∈ t, isNumByte b = true) →
      (scanDigits s').map (fun q => (t ++ q.1, q.2)) = some p → ∀ b ∈ p.1, isNumByte b = true := by
    intro s' t ht hp b hb
    obtain ⟨q, hq, rfl⟩ := Option.map_eq_some_iff.1 hp
    rcases List.mem_append.1 hb with hb | hb
    · exact ht b hb
    · exact isNumByte_of_scanDigits hq b hb
  have hexp : ∀ {c : UInt8}, c = 101 ∨ c = 69 → isNumByte c = true := by
    rintro c (rfl | rfl) <;> rfl
  have hsign : ∀ {c : UInt8}, c = 43 ∨ c = 45 → isNumByte c = true := by
    rintro c (rfl | rfl) <;> rfl
  cases s with
  | nil => cases h; simp
  | cons c s =>
    simp only [scanExp] at h
    split at h
    · next hc =>
      cases s with
      | nil => cases h
      | cons d s =>
        simp only at h
        split at h
        · next hd => exact hdigits (t := [c, d]) (by simpa using ⟨hexp hc, hsign hd⟩) h
        · exact hdigits (t := [c]) (by simpa using hexp hc) h
    · cases h; simp

/-- The text of a number token. -/
theorem isNumByte_of_scanNumber {s t r : Bytes} {fl : Bool}
    (h : scanNumber s = some (t, fl, r)) : ∀ b ∈ t, isNumByte b = true := by
  simp only [scanNumber, Option.bind_eq_bind, Option.bind_eq_some_iff] at h
  obtain ⟨i, hi, f, hf, e, he, hr⟩ := h
  simp only [Option.some.injEq, Prod.mk.injEq] at hr
  obtain ⟨rfl, -, -⟩ := hr
  have hsign : ∀ b ∈ (scanSign s).1, isNumByte b = true := by
    cases s with
    | nil => simp [scanSign]
    | cons c s =>
      simp only [scanSign]
      split
      · intro b hb; rw [List.mem_singleton] at hb; subst hb; rfl
      · simp
  intro b hb
  rcases List.mem_append.1 hb with hb | hb
  · rcases List.mem_append.1 hb with hb | hb
    · rcases List.mem_append.1 hb with hb | hb
      · exact hsign b hb
      · exact isNumByte_of_scanInt hi b hb
    · exact isNumByte_of_scanFrac hf b hb
  · exact isNumByte_of_scanExp he b hb

/-! ## Escapes -/

/-- The text of a character: the character itself, or a backslash, a character and plain
characters. -/
theorem escapeByte_cases (b : UInt8) :
    (escapeByte b = [b] ∧ 0x20 ≤ b ∧ b ≠ 34 ∧ b ≠ 92) ∨
      ∃ c s, escapeByte b = 92 :: c :: s ∧ 0x20 ≤ c ∧ ∀ d ∈ s, 0x20 ≤ d ∧ d ≠ 34 ∧ d ≠ 92 := by
  have hhex : ∀ d, d < 16 → 0x20 ≤ hexByte d ∧ hexByte d ≠ 34 ∧ hexByte d ≠ 92 := by decide
  unfold escapeByte
  split_ifs with h1 h2 h3 h4 h5 h6 h7 h8
  · exact .inr ⟨98, [], rfl, by decide, by simp⟩
  · exact .inr ⟨116, [], rfl, by decide, by simp⟩
  · exact .inr ⟨110, [], rfl, by decide, by simp⟩
  · exact .inr ⟨102, [], rfl, by decide, by simp⟩
  · exact .inr ⟨114, [], rfl, by decide, by simp⟩
  · exact .inr ⟨34, [], rfl, by decide, by simp⟩
  · exact .inr ⟨92, [], rfl, by decide, by simp⟩
  · have hb : b.toNat < 32 := UInt8.lt_iff_toNat_lt.1 h8
    refine .inr ⟨117, [48, 48, hexByte (b.toNat / 16), hexByte (b.toNat % 16)], rfl,
      by decide, ?_⟩
    intro d hd
    simp only [List.mem_cons, List.not_mem_nil, or_false] at hd
    rcases hd with rfl | rfl | rfl | rfl
    · decide
    · decide
    · exact hhex _ (by omega)
    · exact hhex _ (by omega)
  · exact .inl ⟨rfl, UInt8.not_lt.1 h8, h6, h7⟩

/-- An escape takes six bytes at most. -/
theorem length_escapeByte_le (b : UInt8) : (escapeByte b).length ≤ 6 := by
  unfold escapeByte
  split_ifs
  iterate 7 exact (by decide : 2 ≤ 6)
  · exact le_refl 6
  · exact (by decide : 1 ≤ 6)

namespace Json

/-- A string prints as at most six octets for each of its own. -/
theorem length_quote_le {s : Bytes} (h : Utf8.Valid s) : (quote s).length ≤ 6 * s.length + 2 := by
  have hsum : ∀ t : Bytes, (t.flatMap escapeByte).length ≤ 6 * t.length := by
    intro t
    induction t with
    | nil => simp
    | cons b t ih =>
      have := length_escapeByte_le b
      rw [List.flatMap_cons, List.length_append, List.length_cons]
      omega
  have := hsum s
  rw [quote, escape_of_valid h, List.length_cons, List.length_append, List.length_singleton]
  omega

/-- A string of printable ASCII without quotation marks and backslashes prints as it is. -/
theorem length_quote_plain {s : Bytes} (h : ∀ b ∈ s, 0x20 ≤ b ∧ b ≤ 0x7F ∧ b ≠ 34 ∧ b ≠ 92) :
    (quote s).length = s.length + 2 := by
  have hall : ∀ b ∈ s, escapeByte b = [b] := by
    intro b hb
    obtain ⟨hlow, -, h34, h92⟩ := h b hb
    unfold escapeByte
    have hlt : ∀ c : UInt8, c < 0x20 → b ≠ c := by
      rintro c hc rfl
      exact absurd hc (UInt8.not_lt.2 hlow)
    rw [if_neg h34, if_neg h92, if_neg (hlt _ (by decide)), if_neg (hlt _ (by decide)),
      if_neg (hlt _ (by decide)), if_neg (hlt _ (by decide)), if_neg (hlt _ (by decide)),
      if_neg (UInt8.not_lt.2 hlow)]
  have hplain : s.flatMap escapeByte = s := by
    clear h
    induction s with
    | nil => rfl
    | cons b s ih =>
      rw [List.flatMap_cons, hall b List.mem_cons_self,
        ih fun c hc => hall c (List.mem_cons_of_mem _ hc)]
      rfl
  rw [quote, escape_of_valid (Utf8.valid_of_ascii fun b hb => (h b hb).2.1), hplain]
  simp only [List.length_cons, List.length_append, List.length_nil]

/-- The kinds of text a value without containers and strings prints as: number octets or
lower-case letters. -/
def isPlainByte (b : UInt8) : Bool := isNumByte b || (97 ≤ b.toNat ∧ b.toNat ≤ 122)

/-- Bytes of numbers need no escape. -/
theorem isPlainByte_of_isNumByte {b : UInt8} (h : isNumByte b = true) : isPlainByte b = true := by
  simp [isPlainByte, h]

theorem isPlainByte_decimal {n : Nat} {b : UInt8} (h : b ∈ decimal n) : isPlainByte b = true :=
  isPlainByte_of_isNumByte (isNumByte_of_isDigit (isDigit_of_mem_decimal h))

theorem isPlainByte_decimalInt {i : Int} {b : UInt8} (h : b ∈ decimalInt i) :
    isPlainByte b = true := by
  unfold decimalInt at h
  split at h
  · rcases List.mem_cons.1 h with rfl | h
    · rfl
    · exact isPlainByte_decimal h
  · exact isPlainByte_decimal h

theorem isPlainByte_double {d : Double} {b : UInt8} (h : b ∈ d.text) : isPlainByte b = true :=
  isPlainByte_of_isNumByte (isNumByte_of_scanNumber d.isToken b h)

/-! ## A rule for automata over the text -/

/-- What a predicate over texts, by nesting level, has to satisfy to hold of the text of every
value: it holds of the pieces a text is put together from. -/
structure Reads (P : Nat → Bytes → Prop) : Prop where
  plain : ∀ {n s}, (∀ b ∈ s, isPlainByte b = true) → P n s
  quoted : ∀ {n} (s : Bytes), P n (34 :: (s.flatMap escapeByte ++ [34]))
  punct : ∀ {n} {b : UInt8}, b = 44 ∨ b = 58 → P n [b]
  append : ∀ {n s t}, P n s → P n t → P n (s ++ t)
  nest : ∀ {n s} {b c : UInt8}, (b = 91 ∧ c = 93) ∨ (b = 123 ∧ c = 125) → P n s →
    P (n + 1) (b :: (s ++ [c]))

section Rule

variable {P : Nat → Bytes → Prop} (h : Reads P)

include h

theorem Reads.quote {n : Nat} (s : Bytes) : P n (quote s) := by
  obtain ⟨t, ht⟩ := exists_escape s
  rw [Json.quote, ht]
  exact h.quoted t

theorem Reads.nil {n : Nat} : P n [] := h.plain (by simp)

/-- The elements after the first, given their texts. -/
theorem Reads.dumpItems {n : Nat} {l : List Json} (hl : ∀ x ∈ l, P n (dump x)) :
    ∃ s, dumpItems l = s ++ [93] ∧ P n s := by
  induction l with
  | nil => exact ⟨[], rfl, h.nil⟩
  | cons x l ih =>
    obtain ⟨s, hs, hP⟩ := ih fun y hy => hl y (List.mem_cons_of_mem _ hy)
    refine ⟨[44] ++ (dump x ++ s), by simp [Json.dumpItems, hs], ?_⟩
    exact h.append (h.punct (.inl rfl)) (h.append (hl x List.mem_cons_self) hP)

/-- One member of an object. -/
theorem Reads.member {n : Nat} (k : Bytes) {v : Json} (hv : P n (dump v)) :
    P n (Json.quote k ++ 58 :: dump v) := by
  rw [← List.singleton_append]
  exact h.append (h.quote k) (h.append (h.punct (.inr rfl)) hv)

/-- The members after the first, given the texts of their values. -/
theorem Reads.dumpMembers {n : Nat} {m : List (Bytes × Json)}
    (hm : ∀ kv ∈ m, P n (dump kv.2)) :
    ∃ s, dumpMembers m = s ++ [125] ∧ P n s := by
  induction m with
  | nil => exact ⟨[], rfl, h.nil⟩
  | cons kv m ih =>
    obtain ⟨k, v⟩ := kv
    obtain ⟨s, hs, hP⟩ := ih fun y hy => hm y (List.mem_cons_of_mem _ hy)
    have hkv := hm (k, v) List.mem_cons_self
    refine ⟨[44] ++ ((Json.quote k ++ 58 :: dump v) ++ s), by simp [Json.dumpMembers, hs], ?_⟩
    exact h.append (h.punct (.inl rfl)) (h.append (h.member k hkv) hP)

/-- The rule: the predicate holds of the text of a value, at every level from its depth on. -/
theorem Reads.dump : ∀ j : Json, ∀ {n}, depth j ≤ n → P n (dump j) := by
  refine Json.ind ?null ?bool ?int ?uint ?float ?str ?arr ?obj
  case null => exact fun _ => h.plain (by decide +kernel)
  case bool =>
    intro b n _
    cases b
    · exact h.plain (by decide +kernel)
    · exact h.plain (by decide +kernel)
  case int => exact fun i _ _ => h.plain fun b hb => isPlainByte_decimalInt hb
  case uint => exact fun k _ _ => h.plain fun b hb => isPlainByte_decimal hb
  case float => exact fun d _ _ => h.plain fun b hb => isPlainByte_double hb
  case str => exact fun s _ _ => h.quote s
  case arr =>
    intro l ih n hn
    obtain ⟨n, rfl⟩ : ∃ k, n = k + 1 := ⟨n - 1, by simp only [depth] at hn; omega⟩
    have hl : ∀ x ∈ l, P n (Json.dump x) := by
      intro x hx
      refine ih x hx ?_
      have := depth_le_depthItems hx
      simp only [depth] at hn
      omega
    cases l with
    | nil => exact h.nest (.inl ⟨rfl, rfl⟩) h.nil
    | cons x xs =>
      obtain ⟨s, hs, hP⟩ := h.dumpItems fun y hy => hl y (List.mem_cons_of_mem _ hy)
      rw [Json.dump, hs, ← List.append_assoc]
      exact h.nest (.inl ⟨rfl, rfl⟩) (h.append (hl x List.mem_cons_self) hP)
  case obj =>
    intro m ih n hn
    obtain ⟨n, rfl⟩ : ∃ k, n = k + 1 := ⟨n - 1, by simp only [depth] at hn; omega⟩
    have hm : ∀ kv ∈ m, P n (Json.dump kv.2) := by
      intro kv hkv
      refine ih kv hkv ?_
      have := depth_le_depthMembers hkv
      simp only [depth] at hn
      omega
    cases m with
    | nil => exact h.nest (.inr ⟨rfl, rfl⟩) h.nil
    | cons kv m =>
      obtain ⟨k, v⟩ := kv
      obtain ⟨s, hs, hP⟩ := h.dumpMembers fun y hy => hm y (List.mem_cons_of_mem _ hy)
      have hkv := hm (k, v) List.mem_cons_self
      have hsplit : Json.quote k ++ 58 :: (Json.dump v ++ (s ++ [125])) =
          ((Json.quote k ++ 58 :: Json.dump v) ++ s) ++ [125] := by simp
      rw [Json.dump, hs, hsplit]
      exact h.nest (.inr ⟨rfl, rfl⟩) (h.append (h.member k hkv) hP)

end Rule

/-! ## The text of a value is printable -/

/-- Escapes are printable. -/
theorem printable_of_mem_escapeByte {b c : UInt8} (h : c ∈ escapeByte b) : 0x20 ≤ c := by
  rcases escapeByte_cases b with ⟨he, hb, -, -⟩ | ⟨d, s, he, hd, hs⟩
  · rw [he, List.mem_singleton] at h
    rw [h]
    exact hb
  · rw [he, List.mem_cons, List.mem_cons] at h
    rcases h with rfl | rfl | h
    · decide
    · exact hd
    · exact (hs c h).1

/-- So is what needs no escape. -/
theorem printable_of_isPlainByte {b : UInt8} (h : isPlainByte b = true) : 0x20 ≤ b := by
  by_contra hlt
  have hb : b.toNat < 32 := UInt8.lt_iff_toNat_lt.1 (UInt8.not_le.1 hlt)
  have hnone : ∀ n, n < 32 → isPlainByte (UInt8.ofNat n) = false := by decide
  rw [← UInt8.ofNat_toNat (x := b), hnone _ hb] at h
  cases h

/-- The text of a value has no control characters. -/
theorem printable_of_mem_dump {j : Json} {b : UInt8} (hb : b ∈ dump j) : 0x20 ≤ b := by
  have h : Reads fun _ s => ∀ b ∈ s, 0x20 ≤ b := {
    plain := fun hs b hb => printable_of_isPlainByte (hs b hb)
    quoted := by
      intro n s b hb
      simp only [List.mem_cons, List.mem_append, List.mem_flatMap, List.not_mem_nil,
        or_false] at hb
      rcases hb with rfl | ⟨c, -, hc⟩ | rfl
      · decide
      · exact printable_of_mem_escapeByte hc
      · decide
    punct := by rintro n b (rfl | rfl) c hc <;> rw [List.mem_singleton] at hc <;> subst hc <;> decide
    append := by
      intro n s t hs ht b hb
      rcases List.mem_append.1 hb with hb | hb
      · exact hs b hb
      · exact ht b hb
    nest := by
      intro n s b c hbc hs d hd
      simp only [List.mem_cons, List.mem_append, List.not_mem_nil, or_false] at hd
      rcases hd with rfl | hd | rfl
      · rcases hbc with ⟨rfl, -⟩ | ⟨rfl, -⟩ <;> decide
      · exact hs d hd
      · rcases hbc with ⟨-, rfl⟩ | ⟨-, rfl⟩ <;> decide }
  exact h.dump j le_rfl b hb

/-- The text of a value is one line. -/
theorem ne_newline_of_mem_dump {j : Json} {b : UInt8} (hb : b ∈ dump j) : b ≠ 10 := by
  rintro rfl
  exact absurd (printable_of_mem_dump hb) (by decide)

end Json

end Lib
