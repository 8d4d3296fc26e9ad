import VppJsonGateway.Lib.JsonParse

/-!
# What is read is a value the library can hold

Whatever text `Json.parse` accepts, the value it gives is `Good`: its strings are well-formed, its
integers fit and its members are in order. So it prints as a text that reads back.
-/

namespace Lib

namespace Utf8

/-- An octet made from a number below 256, in a range. -/
theorem within_ofNat {lo hi : UInt8} {n : Nat} (hn : n < 256) (hlo : lo.toNat ≤ n)
    (hhi : n ≤ hi.toNat) (next : State) : within lo hi (UInt8.ofNat n) next = some next := by
  have hb : (UInt8.ofNat n).toNat = n := by
    rw [UInt8.toNat_ofNat']
    omega
  unfold within
  rw [if_pos]
  rw [UInt8.le_iff_toNat_le, UInt8.le_iff_toNat_le, hb]
  exact ⟨hlo, hhi⟩

/-- The first octet of a character, by its number. -/
theorem first_ofNat {n : Nat} (hn : n < 256) : first (UInt8.ofNat n) =
    if n ≤ 127 then some .start
    else if 194 ≤ n ∧ n ≤ 223 then some .tail1
    else if n = 224 then some .afterE0
    else if n = 237 then some .afterED
    else if 225 ≤ n ∧ n ≤ 239 then some .tail2
    else if n = 240 then some .afterF0
    else if 241 ≤ n ∧ n ≤ 243 then some .tail3
    else if n = 244 then some .afterF4
    else none := by
  have hb : (UInt8.ofNat n).toNat = n := by
    rw [UInt8.toNat_ofNat']
    omega
  simp only [first, UInt8.le_iff_toNat_le, ← UInt8.toNat_inj, hb]
  rfl

end Utf8

namespace Json

open Utf8

/-- A character that is no surrogate is written as well-formed UTF-8. -/
theorem valid_encodeChar {n : Nat} (hmax : n < 0x110000) (hsur : n < 0xD800 ∨ 0xDFFF < n) :
    Valid (encodeChar n) := by
  unfold encodeChar
  split_ifs with h₁ h₂ h₃
  · refine ⟨.start, ?_, rfl⟩
    rw [step, first_ofNat (by omega), if_pos (by omega)]
  · refine ⟨.tail1, ?_, .start, ?_, rfl⟩
    · rw [step, first_ofNat (by omega), if_neg (by omega), if_pos (by omega)]
    · exact within_ofNat (by omega) (by change 128 ≤ _; omega) (by change _ ≤ 191; omega) _
  · by_cases hE0 : n / 4096 = 0
    · refine ⟨.afterE0, ?_, .tail1, ?_, .start, ?_, rfl⟩
      · rw [step, first_ofNat (by omega), if_neg (by omega), if_neg (by omega), if_pos (by omega)]
      · exact within_ofNat (by omega) (by change 160 ≤ _; omega) (by change _ ≤ 191; omega) _
      · exact within_ofNat (by omega) (by change 128 ≤ _; omega) (by change _ ≤ 191; omega) _
    by_cases hED : n / 4096 = 13
    · refine ⟨.afterED, ?_, .tail1, ?_, .start, ?_, rfl⟩
      · rw [step, first_ofNat (by omega), if_neg (by omega), if_neg (by omega), if_neg (by omega),
          if_pos (by omega)]
      · exact within_ofNat (by omega) (by change 128 ≤ _; omega) (by change _ ≤ 159; omega) _
      · exact within_ofNat (by omega) (by change 128 ≤ _; omega) (by change _ ≤ 191; omega) _
    · refine ⟨.tail2, ?_, .tail1, ?_, .start, ?_, rfl⟩
      · rw [step, first_ofNat (by omega), if_neg (by omega), if_neg (by omega), if_neg (by omega),
          if_neg (by omega), if_pos (by omega)]
      · exact within_ofNat (by omega) (by change 128 ≤ _; omega) (by change _ ≤ 191; omega) _
      · exact within_ofNat (by omega) (by change 128 ≤ _; omega) (by change _ ≤ 191; omega) _
  · by_cases hF0 : n / 262144 = 0
    · refine ⟨.afterF0, ?_, .tail2, ?_, .tail1, ?_, .start, ?_, rfl⟩
      · rw [step, first_ofNat (by omega), if_neg (by omega), if_neg (by omega), if_neg (by omega),
          if_neg (by omega), if_neg (by omega), if_pos (by omega)]
      · exact within_ofNat (by omega) (by change 144 ≤ _; omega) (by change _ ≤ 191; omega) _
      · exact within_ofNat (by omega) (by change 128 ≤ _; omega) (by change _ ≤ 191; omega) _
      · exact within_ofNat (by omega) (by change 128 ≤ _; omega) (by change _ ≤ 191; omega) _
    by_cases hF4 : n / 262144 = 4
    · refine ⟨.afterF4, ?_, .tail2, ?_, .tail1, ?_, .start, ?_, rfl⟩
      · rw [step, first_ofNat (by omega), if_neg (by omega), if_neg (by omega), if_neg (by omega),
          if_neg (by omega), if_neg (by omega), if_neg (by omega), if_neg (by omega),
          if_pos (by omega)]
      · exact within_ofNat (by omega) (by change 128 ≤ _; omega) (by change _ ≤ 143; omega) _
      · exact within_ofNat (by omega) (by change 128 ≤ _; omega) (by change _ ≤ 191; omega) _
      · exact within_ofNat (by omega) (by change 128 ≤ _; omega) (by change _ ≤ 191; omega) _
    · refine ⟨.tail3, ?_, .tail2, ?_, .tail1, ?_, .start, ?_, rfl⟩
      · rw [step, first_ofNat (by omega), if_neg (by omega), if_neg (by omega), if_neg (by omega),
          if_neg (by omega), if_neg (by omega), if_neg (by omega), if_pos (by omega)]
      · exact within_ofNat (by omega) (by change 128 ≤ _; omega) (by change _ ≤ 191; omega) _
      · exact within_ofNat (by omega) (by change 128 ≤ _; omega) (by change _ ≤ 191; omega) _
      · exact within_ofNat (by omega) (by change 128 ≤ _; omega) (by change _ ≤ 191; omega) _

/-- A hexadecimal digit is below sixteen. -/
theorem hexVal_lt {b : UInt8} {n : Nat} (h : hexVal b = some n) : n < 16 := by
  unfold hexVal at h
  split_ifs at h with h₁ h₂ h₃
  · simp only [isDigit, decide_eq_true_eq] at h₁
    cases h
    omega
  · cases h
    omega
  · cases h
    omega

/-- Four of them are below 2^16. -/
theorem hex4_lt {a b c d : UInt8} {n : Nat} (h : hex4 a b c d = some n) : n < 0x10000 := by
  simp only [hex4, Option.bind_eq_bind, Option.bind_eq_some_iff, Option.some.injEq] at h
  obtain ⟨x, hx, y, hy, z, hz, v, hv, rfl⟩ := h
  have := hexVal_lt hx
  have := hexVal_lt hy
  have := hexVal_lt hz
  have := hexVal_lt hv
  omega

/-- Short escapes stand for ASCII characters. -/
theorem simpleEscape_ascii {e c : UInt8} (h : simpleEscape e = some c) : c ≤ 0x7F := by
  unfold simpleEscape at h
  split_ifs at h <;> cases h <;> decide

/-- A string that was read is well-formed UTF-8. -/
theorem validFrom_parseString {q : Utf8.State} {s : Bytes} : ∀ {v r : Bytes},
    parseString q s = some (v, r) → ValidFrom q v := by
  fun_induction parseString q s with
  | case1 q => rintro v r ⟨⟩
  | case2 q b s h =>
    rintro v r ⟨⟩
    exact h.1
  | case3 => rintro v r ⟨⟩
  | case4 => rintro v r ⟨⟩
  | case5 => rintro v r ⟨⟩
  | case6 q b h34 h92 a b' c d n hn hlow x y a' b'' c' d' s l hl hpair ih =>
    intro v r h
    generalize hk : 0x10000 + (n - 0xD800) * 1024 + (l - 0xDC00) = k at h
    obtain ⟨p, hp, heq⟩ := Option.map_eq_some_iff.1 h
    cases heq
    rw [h92.1]
    exact (valid_encodeChar (by omega) (by omega)).append (ih hp)
  | case7 => rintro v r ⟨⟩
  | case8 => rintro v r ⟨⟩
  | case9 => rintro v r ⟨⟩
  | case10 q b h34 h92 a b' c d s n hn hlow hhigh ih =>
    intro v r h
    obtain ⟨p, hp, heq⟩ := Option.map_eq_some_iff.1 h
    cases heq
    have hlt := hex4_lt hn
    rw [h92.1]
    exact (valid_encodeChar (by omega) (by omega)).append (ih hp)
  | case11 => rintro v r ⟨⟩
  | case12 => rintro v r ⟨⟩
  | case13 q b h34 h92 e s hu c hc ih =>
    intro v r h
    obtain ⟨p, hp, heq⟩ := Option.map_eq_some_iff.1 h
    cases heq
    rw [h92.1]
    exact ⟨.start, first_of_ascii (simpleEscape_ascii hc), ih hp⟩
  | case14 => rintro v r ⟨⟩
  | case15 => rintro v r ⟨⟩
  | case16 q b s h34 h92 h20 q' hq' ih =>
    intro v r h
    obtain ⟨p, hp, heq⟩ := Option.map_eq_some_iff.1 h
    cases heq
    exact ⟨q', hq', ih hp⟩

section

variable {strtod : Bytes → Option Double}

/-- A number that was read fits, when `strtod` reads again what it has read. -/
theorem good_numberValue (hstrtod : ∀ t d, strtod t = some d → strtod d.text = some d) {t : Bytes}
    {fl : Bool} {j : Json} (h : numberValue strtod t fl = some j) : Good strtod j := by
  have hfloat : ∀ {j}, (strtod t).map Json.float = some j → Good strtod j := by
    intro j hj
    obtain ⟨d, hd, rfl⟩ := Option.map_eq_some_iff.1 hj
    exact hstrtod t d hd
  unfold numberValue at h
  split_ifs at h with h₁ h₂ h₃ h₄
  · exact hfloat h
  · cases h
    change -2 ^ 63 ≤ -(digitsVal t.tail : Int) ∧ -(digitsVal t.tail : Int) < 2 ^ 63
    omega
  · exact hfloat h
  · cases h
    exact h₄
  · exact hfloat h

/-- A value without containers that was read is good. -/
theorem good_parseScalar (hstrtod : ∀ t d, strtod t = some d → strtod d.text = some d)
    {s r : Bytes} {j : Json} (h : parseScalar strtod s = some (j, r)) : Good strtod j := by
  unfold parseScalar at h
  split_ifs at h
  · cases h
    trivial
  · cases h
    trivial
  · cases h
    trivial
  · simp only [Option.bind_eq_bind, Option.bind_eq_some_iff] at h
    obtain ⟨⟨t, fl, r'⟩, -, j', hj, heq⟩ := h
    cases heq
    exact good_numberValue hstrtod hj

/-- One value, a list of elements and a list of members, by the fuel of the three parsers. -/
theorem good_parsers (hstrtod : ∀ t d, strtod t = some d → strtod d.text = some d) (fuel : Nat) :
    (∀ s j r, parseValue strtod fuel s = some (j, r) → Good strtod j) ∧
      (∀ s l r, parseItems strtod fuel s = some (l, r) → ∀ x ∈ l, Good strtod x) ∧
      ∀ m s j r, Good strtod (.obj m) → parseMembers strtod fuel m s = some (j, r) →
        Good strtod j := by
  induction fuel with
  | zero =>
    refine ⟨?_, ?_, ?_⟩
    · intro s j r h
      rw [parseValue] at h
      cases h
    · intro s l r h
      rw [parseItems] at h
      cases h
    · intro m s j r _ h
      rw [parseMembers] at h
      cases h
  | succ fuel ih =>
    obtain ⟨ihValue, ihItems, ihMembers⟩ := ih
    refine ⟨?_, ?_, ?_⟩
    · intro s j r h
      rw [parseValue] at h
      split at h
      · cases h
      next b s' _ =>
      split_ifs at h
      · split at h
        · cases h
        next c r' _ =>
        split_ifs at h
        · cases h
          exact (good_obj []).2 ⟨List.Pairwise.nil, by simp⟩
        · exact ihMembers [] _ j r ((good_obj []).2 ⟨List.Pairwise.nil, by simp⟩) h
      · split at h
        · cases h
        next c r' _ =>
        split_ifs at h
        · cases h
          exact (good_arr []).2 (by simp)
        · obtain ⟨⟨l, r''⟩, hl, heq⟩ := Option.map_eq_some_iff.1 h
          cases heq
          exact (good_arr l).2 (ihItems _ l _ hl)
      · obtain ⟨⟨v, r'⟩, hv, heq⟩ := Option.map_eq_some_iff.1 h
        cases heq
        exact validFrom_parseString hv
      · exact good_parseScalar hstrtod h
    · intro s l r h
      rw [parseItems] at h
      split at h
      · cases h
      next x r' hx =>
      split at h
      · cases h
      split_ifs at h
      · obtain ⟨⟨l', r''⟩, hl, heq⟩ := Option.map_eq_some_iff.1 h
        cases heq
        intro y hy
        rcases List.mem_cons.1 hy with rfl | hy
        · exact ihValue _ _ _ hx
        · exact ihItems _ _ _ hl y hy
      · cases h
        intro y hy
        rw [List.mem_singleton.1 hy]
        exact ihValue _ _ _ hx
    · intro m s j r hm h
      rw [parseMembers] at h
      split at h
      · cases h
      split_ifs at h
      split at h
      · cases h
      next k r' hk =>
      split at h
      · cases h
      split_ifs at h
      split at h
      · cases h
      next v r'' hv =>
      have hset : Good strtod (.obj (setKey k v m)) :=
        Good.set hm (validFrom_parseString hk) (ihValue _ _ _ hv)
      split at h
      · cases h
      split_ifs at h
      · exact ihMembers _ _ _ _ hset h
      · cases h
        exact hset

/-- **What is read is a value the library can hold.** -/
theorem good_of_parse (hstrtod : ∀ t d, strtod t = some d → strtod d.text = some d) {text : Bytes}
    {j : Json} (h : parse strtod text = some j) : Good strtod j := by
  unfold parse at h
  split at h
  · cases h
  next j' r hj =>
  have hgood := (good_parsers hstrtod _).1 _ _ _ hj
  split at h
  · cases h
    exact hgood
  · split_ifs at h
    cases h
    exact hgood

end

end Json

end Lib
