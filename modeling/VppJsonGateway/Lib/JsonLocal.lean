import VppJsonGateway.Lib.JsonGrammar

/-!
# What the parser reads does not depend on what follows

The three parsers read a first part of their text, and read the same from it whatever stands behind
it, as long as no number goes on there. So a text can be cut, and what was read can be moved into
another text (`Json.reads_of_parsers`).
-/

namespace Lib

/-! ## Tokens -/

namespace Grammar

/-- Digits are taken to their end. -/
theorem IsDigits.takeWhile {s t : Bytes} (h : IsDigits s)
    (ht : ∀ b ∈ t.head?, isDigit b = false) : (s ++ t).takeWhile isDigit = s := by
  rw [List.takeWhile_append_of_pos h.2]
  cases t with
  | nil => simp
  | cons b t => simp [ht b rfl]

/-- What follows the digits is left. -/
theorem IsDigits.dropWhile {s t : Bytes} (h : IsDigits s)
    (ht : ∀ b ∈ t.head?, isDigit b = false) : (s ++ t).dropWhile isDigit = t := by
  rw [List.dropWhile_append_of_pos h.2]
  cases t with
  | nil => rfl
  | cons b t => simp [ht b rfl]

/-- Digits are scanned to their end. -/
theorem scanDigits_of_isDigits {s t : Bytes} (h : IsDigits s)
    (ht : ∀ b ∈ t.head?, isDigit b = false) : scanDigits (s ++ t) = some (s, t) := by
  rw [scanDigits, h.takeWhile ht, h.dropWhile ht, if_neg h.1]

/-- So is a whole part. -/
theorem scanInt_of_isInteger {i t : Bytes} (h : IsInteger i)
    (ht : ∀ b ∈ t.head?, isDigit b = false) : scanInt (i ++ t) = some (i, t) := by
  rcases h with rfl | ⟨hdigits, hhead⟩
  · rfl
  · have htake := hdigits.takeWhile ht
    have hdrop := hdigits.dropWhile ht
    cases i with
    | nil => exact absurd rfl hdigits.1
    | cons b i =>
      have h48 : b ≠ 48 := by simpa using hhead
      rw [List.cons_append] at htake hdrop ⊢
      rw [scanInt, if_neg h48, if_pos (hdigits.2 b List.mem_cons_self), htake, hdrop]

/-- So is a fraction. -/
theorem scanFrac_of_isFraction {f t : Bytes} (h : IsFraction f)
    (ht : ∀ b ∈ t.head?, isDigit b = false ∧ b ≠ 46) : scanFrac (f ++ t) = some (f, t) := by
  rcases h with rfl | ⟨digits, hdigits, rfl⟩
  · cases t with
    | nil => rfl
    | cons b t =>
      rw [List.nil_append, scanFrac, if_neg (ht b rfl).2]
  · rw [List.cons_append, scanFrac, if_pos rfl,
      scanDigits_of_isDigits hdigits fun b hb => (ht b hb).1]
    rfl

/-- So is an exponent. -/
theorem scanExp_of_isExponent {e : Bytes} (h : IsExponent e) : scanExp e = some (e, []) := by
  have hscan : ∀ {digits : Bytes}, IsDigits digits → scanDigits digits = some (digits, []) := by
    intro digits hdigits
    have happ := scanDigits_of_isDigits (t := []) hdigits fun b hb => (by cases hb)
    rwa [List.append_nil] at happ
  rcases h with rfl | ⟨e, sign, digits, he, hsign, hdigits, rfl⟩
  · rfl
  · rw [scanExp.eq_def]
    rcases hsign with rfl | rfl | rfl
    · cases digits with
      | nil => exact absurd rfl hdigits.1
      | cons b digits =>
        have hb : ¬ (b = 43 ∨ b = 45) := by
          intro hor
          have hdigit := hdigits.2 b List.mem_cons_self
          rcases hor with rfl | rfl
          · cases hdigit
          · cases hdigit
        simp only [List.nil_append]
        rw [if_pos he, if_neg hb, hscan hdigits]
        rfl
    · simp [he, hscan hdigits]
    · simp [he, hscan hdigits]

end Grammar

namespace Json

open Grammar

/-- The token of a number that was read, on its own. -/
theorem scanNumber_self {s t r : Bytes} {fl : Bool} (h : scanNumber s = some (t, fl, r)) :
    scanNumber t = some (t, fl, []) := by
  simp only [scanNumber, Option.bind_eq_bind, Option.bind_eq_some_iff, Option.some.injEq,
    Prod.mk.injEq] at h
  obtain ⟨⟨i, r₁⟩, hi, ⟨f, r₂⟩, hf, ⟨e, r₃⟩, he, ht, hfl, -⟩ := h
  obtain ⟨hsign, -⟩ := split_scanSign s
  obtain ⟨hint, -⟩ := isInteger_of_scanInt hi
  obtain ⟨hfrac, -⟩ := isFraction_of_scanFrac hf
  obtain ⟨hexp, -⟩ := isExponent_of_scanExp he
  simp only at ht hfl
  -- An exponent starts with its letter and a fraction with its point.
  have hexphead : ∀ b ∈ e.head?, isDigit b = false ∧ b ≠ 46 := by
    intro b hb
    rcases hexp with rfl | ⟨c, sign, digits, hc, -, -, rfl⟩
    · cases hb
    · cases hb
      rcases hc with rfl | rfl
      · exact ⟨rfl, by decide⟩
      · exact ⟨rfl, by decide⟩
  have hfrachead : ∀ b ∈ (f ++ e).head?, isDigit b = false := by
    intro b hb
    rcases hfrac with rfl | ⟨digits, -, rfl⟩
    · exact (hexphead b hb).1
    · cases hb
      rfl
  have hsplit : scanSign t = ((scanSign s).1, i ++ (f ++ e)) := by
    have hi45 : ∀ u : Bytes, (i ++ u).head? ≠ some 45 := by
      intro u hu
      rcases hint with rfl | ⟨hdigits, -⟩
      · cases hu
      · cases i with
        | nil => exact absurd rfl hdigits.1
        | cons b i =>
          cases hu
          cases hdigits.2 45 List.mem_cons_self
    rw [← ht]
    rcases hsign with hsign | hsign
    · rw [hsign, List.nil_append, List.append_assoc]
      have h45 := hi45 (f ++ e)
      cases hcases : i ++ (f ++ e) with
      | nil => rfl
      | cons b u =>
        rw [hcases] at h45
        rw [scanSign, if_neg (by simpa using h45)]
    · rw [hsign]
      simp [scanSign]
  have hscan : scanExp e = some (e, []) := scanExp_of_isExponent hexp
  simp only [scanNumber, hsplit, scanInt_of_isInteger hint hfrachead, Option.bind_eq_bind,
    Option.bind_some, scanFrac_of_isFraction hfrac hexphead, hscan, ht, hfl]

/-- A string is read from a first part of its text. -/
theorem read_of_parseString {q : Utf8.State} {s : Bytes} : ∀ {v r : Bytes},
    parseString q s = some (v, r) → ∃ used, s = used ++ r ∧
      ∀ t, parseString q (used ++ t) = some (v, t) := by
  fun_induction parseString q s with
  | case1 q => intro v r h; cases h
  | case2 q b s h =>
    intro v r hread
    cases hread
    refine ⟨[b], rfl, fun t => ?_⟩
    rw [List.singleton_append, parseString.eq_def]
    simp only
    rw [if_pos h]
  | case3 => intro v r h; cases h
  | case4 => intro v r h; cases h
  | case5 => intro v r h; cases h
  | case6 q b h34 h92 a b' c d n hn hlow x y a' b'' c' d' s l hl hpair ih =>
    intro v r h
    generalize hk : 0x10000 + (n - 0xD800) * 1024 + (l - 0xDC00) = k at h
    obtain ⟨p, hp, heq⟩ := Option.map_eq_some_iff.1 h
    cases heq
    obtain ⟨used, hs, hread⟩ := ih hp
    refine ⟨b :: 117 :: a :: b' :: c :: d :: x :: y :: a' :: b'' :: c' :: d' :: used,
      by rw [hs]; rfl, fun t => ?_⟩
    rw [parseString.eq_def]
    simp only [List.cons_append]
    rw [if_neg h34, if_pos h92, if_pos trivial, hn]
    simp only
    rw [if_pos hlow, hl]
    simp only
    rw [if_pos hpair, hread, hk]
    rfl
  | case7 => intro v r h; cases h
  | case8 => intro v r h; cases h
  | case9 => intro v r h; cases h
  | case10 q b h34 h92 a b' c d s n hn hlow hhigh ih =>
    intro v r h
    obtain ⟨p, hp, heq⟩ := Option.map_eq_some_iff.1 h
    cases heq
    obtain ⟨used, hs, hread⟩ := ih hp
    refine ⟨b :: 117 :: a :: b' :: c :: d :: used, by rw [hs]; rfl, fun t => ?_⟩
    rw [parseString.eq_def]
    simp only [List.cons_append]
    rw [if_neg h34, if_pos h92, if_pos trivial, hn]
    simp only
    rw [if_neg hlow, if_neg hhigh, hread]
    rfl
  | case11 => intro v r h; cases h
  | case12 => intro v r h; cases h
  | case13 q b h34 h92 e s hu c hc ih =>
    intro v r h
    obtain ⟨p, hp, heq⟩ := Option.map_eq_some_iff.1 h
    cases heq
    obtain ⟨used, hs, hread⟩ := ih hp
    refine ⟨b :: e :: used, by rw [hs]; rfl, fun t => ?_⟩
    rw [parseString.eq_def]
    simp only [List.cons_append]
    rw [if_neg h34, if_pos h92, if_neg hu, hc]
    simp only
    rw [hread]
    rfl
  | case14 => intro v r h; cases h
  | case15 => intro v r h; cases h
  | case16 q b s h34 h92 h20 q' hq' ih =>
    intro v r h
    obtain ⟨p, hp, heq⟩ := Option.map_eq_some_iff.1 h
    cases heq
    obtain ⟨used, hs, hread⟩ := ih hp
    refine ⟨b :: used, by rw [hs]; rfl, fun t => ?_⟩
    rw [parseString.eq_def]
    simp only [List.cons_append]
    rw [if_neg h34, if_neg h92, if_neg h20, hq']
    simp only
    rw [hread]
    rfl

/-! ## White space -/

/-- Blanks are skipped. -/
theorem skipWs_space {ws : Bytes} (h : IsSpace ws) (s : Bytes) : skipWs (ws ++ s) = skipWs s := by
  induction ws with
  | nil => rfl
  | cons b ws ih =>
    obtain ⟨hb, hws⟩ := List.forall_mem_cons.1 h
    rw [List.cons_append, skipWs, if_pos hb]
    exact ih hws

/-- Blanks are skipped up to the next delimiter. -/
theorem skipWs_delimiter {ws : Bytes} (h : IsSpace ws) {c : UInt8} (hc : NotWs c) (s : Bytes) :
    skipWs (ws ++ c :: s) = c :: s := by
  rw [skipWs_space h, skipWs_cons hc]

/-- What is left begins with no blank. -/
theorem notWs_of_skipWs {s r : Bytes} {c : UInt8} (h : skipWs s = c :: r) : NotWs c := by
  induction s with
  | nil => cases h
  | cons b s ih =>
    by_cases hb : b = 0x20 ∨ b = 0x09 ∨ b = 0x0A ∨ b = 0x0D
    · rw [skipWs, if_pos hb] at h
      exact ih h
    · rw [skipWs, if_neg hb] at h
      cases h
      exact hb

/-- A text of blanks is skipped to its end. -/
theorem isSpace_iff_skipWs (s : Bytes) : IsSpace s ↔ skipWs s = [] := by
  constructor
  · intro h
    have hskip := skipWs_space h []
    rwa [List.append_nil] at hskip
  · intro h
    obtain ⟨ws, hws, hs⟩ := isSpace_skipWs s
    rw [hs, h, List.append_nil]
    exact hws

/-- No number goes on with white space. -/
theorem numEnd_space {ws t : Bytes} (h : IsSpace ws) (ht : NumEnd t) : NumEnd (ws ++ t) := by
  cases ws with
  | nil => exact ht
  | cons b ws =>
    rcases h b List.mem_cons_self with rfl | rfl | rfl | rfl
    all_goals exact numEnd_cons rfl (by decide) (by decide) (by decide)

/-- A part of a text on which no number goes on. -/
theorem NumEnd.left {s t : Bytes} (h : NumEnd (s ++ t)) : NumEnd s := by
  cases s with
  | nil => exact fun b hb => (by cases hb)
  | cons b s => exact h

/-! ## Values -/

section

variable {strtod : Bytes → Option Double}

/-- A text the parser reads a value from, whatever follows that no number goes on with. -/
def ReadsValue (strtod : Bytes → Option Double) (used : Bytes) (j : Json) : Prop :=
  ∀ fuel t, used.length ≤ fuel → NumEnd t → parseValue strtod fuel (used ++ t) = some (j, t)

/-- The same of the elements of an array, with the closing bracket. -/
def ReadsItems (strtod : Bytes → Option Double) (used : Bytes) (l : List Json) : Prop :=
  ∀ fuel t, used.length ≤ fuel → parseItems strtod fuel (used ++ t) = some (l, t)

/-- The same of the members of an object, with the closing brace. -/
def ReadsMembers (strtod : Bytes → Option Double) (m : List (Bytes × Json)) (used : Bytes)
    (j : Json) : Prop :=
  ∀ fuel t, used.length ≤ fuel → parseMembers strtod fuel m (used ++ t) = some (j, t)

/-- Blanks before a value do not matter. -/
theorem parseValue_space (strtod : Bytes → Option Double) {ws : Bytes} (h : IsSpace ws)
    (fuel : Nat) (s : Bytes) : parseValue strtod fuel (ws ++ s) = parseValue strtod fuel s := by
  cases fuel with
  | zero => rw [parseValue, parseValue]
  | succ fuel => rw [parseValue, parseValue, skipWs_space h]

/-- They may be added. -/
theorem ReadsValue.pad {ws used : Bytes} {j : Json} (hws : IsSpace ws) (h : ReadsValue strtod used j) :
    ReadsValue strtod (ws ++ used) j := by
  intro fuel t hfuel ht
  rw [List.length_append] at hfuel
  rw [List.append_assoc, parseValue_space strtod hws]
  exact h fuel t (by omega) ht

/-- A literal name or a number is read whatever follows that no number goes on with. -/
theorem read_of_parseScalar {b : UInt8} {s r : Bytes} {j : Json} (hb : NotWs b) (h123 : b ≠ 123)
    (h91 : b ≠ 91) (h34 : b ≠ 34) (h : parseScalar strtod (b :: s) = some (j, r)) :
    ∃ used, used ≠ [] ∧ b :: s = used ++ r ∧ ReadsValue strtod used j := by
  have hvalue : ∀ {u : Bytes} {fuel : Nat}, parseValue strtod (fuel + 1) (b :: u) =
      parseScalar strtod (b :: u) := by
    intro u fuel
    rw [parseValue, skipWs_cons hb]
    simp only
    rw [if_neg h123, if_neg h91, if_neg h34]
  have hliteral : ∀ {name : Bytes} {j : Json}, name ≠ [] → name <+: b :: s →
      (∀ t, parseScalar strtod (name ++ t) = some (j, t)) →
      ReadsValue strtod name j := by
    intro name j hne hname hread fuel t hfuel _
    have hpos : 0 < name.length := List.length_pos_iff.2 hne
    obtain ⟨fuel, rfl⟩ : ∃ f, fuel = f + 1 := ⟨fuel - 1, by omega⟩
    obtain ⟨u, rfl⟩ : ∃ u, name = b :: u := by
      obtain ⟨w, hw⟩ := hname
      cases name with
      | nil => exact absurd rfl hne
      | cons c u =>
        cases hw
        exact ⟨u, rfl⟩
    rw [List.cons_append, hvalue]
    exact hread t
  have hparse := h
  unfold parseScalar at h
  split_ifs at h with hnull htrue hfalse
  · cases h
    refine ⟨utf8 "null", by decide, (List.prefix_iff_eq_append.1 hnull).symm, ?_⟩
    exact hliteral (by decide) hnull fun _ => rfl
  · cases h
    refine ⟨utf8 "true", by decide, (List.prefix_iff_eq_append.1 htrue).symm, ?_⟩
    exact hliteral (by decide) htrue fun _ => rfl
  · cases h
    refine ⟨utf8 "false", by decide, (List.prefix_iff_eq_append.1 hfalse).symm, ?_⟩
    exact hliteral (by decide) hfalse fun _ => rfl
  · simp only [Option.bind_eq_bind, Option.bind_eq_some_iff] at h
    obtain ⟨⟨token, fl, r'⟩, hscan, j', hj, heq⟩ := h
    cases heq
    have hself := scanNumber_self hscan
    obtain ⟨c, u, htoken, -⟩ := scanNumber_head hself
    refine ⟨token, by rw [htoken]; exact List.cons_ne_nil _ _, (isNumber_of_scanNumber hscan).2, ?_⟩
    intro fuel t hfuel ht
    obtain ⟨fuel, rfl⟩ : ∃ f, fuel = f + 1 := by
      rw [htoken, List.length_cons] at hfuel
      exact ⟨fuel - 1, by omega⟩
    exact parseValue_number hself hj ht

/-- Behind a value comes white space and a delimiter. -/
theorem ReadsValue.delimited {used ws : Bytes} {j : Json} {c : UInt8}
    (h : ReadsValue strtod used j) (hws : IsSpace ws) (hc : c = 44 ∨ c = 93 ∨ c = 125)
    {fuel : Nat} (hfuel : used.length ≤ fuel) (t : Bytes) :
    parseValue strtod fuel (used ++ (ws ++ c :: t)) = some (j, ws ++ c :: t) ∧
      skipWs (ws ++ c :: t) = c :: t := by
  have hend : NumEnd (c :: t) ∧ NotWs c := by
    rcases hc with rfl | rfl | rfl
    all_goals exact ⟨numEnd_cons rfl (by decide) (by decide) (by decide), by simp [NotWs]⟩
  exact ⟨h fuel _ hfuel (numEnd_space hws hend.1), skipWs_delimiter hws hend.2 t⟩

/-- The rest of an object behind the members `m`: more of them, or its closing brace. -/
def parseRest (strtod : Bytes → Option Double) (fuel : Nat) (m : List (Bytes × Json)) (s : Bytes) :
    Option (Json × Bytes) :=
  match skipWs s with
  | [] => none
  | c :: r =>
    if c = 44 then parseMembers strtod fuel m r
    else if c = 125 then some (.obj m, r)
    else none

/-- White space is skipped in front of what follows, too. -/
theorem skipWs_append {s r : Bytes} {c : UInt8} (h : skipWs s = c :: r) (t : Bytes) :
    skipWs (s ++ t) = c :: (r ++ t) := by
  induction s with
  | nil => cases h
  | cons b s ih =>
    rw [skipWs] at h
    rw [List.cons_append, skipWs]
    split_ifs at h ⊢
    · exact ih h
    · cases h
      rfl

/-- Members are added one after the other. -/
theorem parseMembers_adds {strtod : Bytes → Option Double} {fuel : Nat} :
    ∀ {m : List (Bytes × Json)} {s r : Bytes} {j : Json}, parseMembers strtod fuel m s = some (j, r) →
      ∃ added : List (Bytes × Json), j = .obj (added.foldl (fun m kv => setKey kv.1 kv.2 m) m) := by
  induction fuel with
  | zero => exact fun h => (by cases h)
  | succ fuel ih =>
    intro m s r j h
    rw [parseMembers] at h
    split at h
    · cases h
    split_ifs at h
    split at h
    · cases h
    next k _ _ =>
    split at h
    · cases h
    split_ifs at h
    split at h
    · cases h
    next v _ _ =>
    split at h
    · cases h
    split_ifs at h
    · obtain ⟨added, hj⟩ := ih h
      exact ⟨(k, v) :: added, hj⟩
    · cases h
      exact ⟨[(k, v)], rfl⟩

/-- One value, a list of elements and a list of members, by the fuel of the three parsers. -/
theorem reads_of_parsers (strtod : Bytes → Option Double) (fuel : Nat) :
    (∀ s j r, parseValue strtod fuel s = some (j, r) →
      ∃ used, used ≠ [] ∧ s = used ++ r ∧ ReadsValue strtod used j) ∧
    (∀ s l r, parseItems strtod fuel s = some (l, r) →
      ∃ used, used ≠ [] ∧ s = used ++ r ∧ ReadsItems strtod used l) ∧
    ∀ m s j r, parseMembers strtod fuel m s = some (j, r) →
      ∃ used, used ≠ [] ∧ s = used ++ r ∧ ReadsMembers strtod m used j := by
  induction fuel with
  | zero =>
    refine ⟨?_, ?_, ?_⟩
    · intro s j r h
      rw [parseValue] at h
      cases h
    · intro s l r h
      rw [parseItems] at h
      cases h
    · intro m s j r h
      rw [parseMembers] at h
      cases h
  | succ fuel ih =>
    obtain ⟨ihValue, ihItems, ihMembers⟩ := ih
    refine ⟨?_, ?_, ?_⟩
    · intro s j r h
      obtain ⟨ws, hws, hs⟩ := isSpace_skipWs s
      suffices hsuffix : ∃ used, used ≠ [] ∧ skipWs s = used ++ r ∧ ReadsValue strtod used j by
        obtain ⟨used, hne, hrest, hread⟩ := hsuffix
        exact ⟨ws ++ used, by simp [hne], by rw [hs, hrest, List.append_assoc], hread.pad hws⟩
      rw [parseValue] at h
      split at h
      · cases h
      next b s' hskip =>
      have hb := notWs_of_skipWs hskip
      rw [hskip]
      obtain ⟨ws', hws', hs'⟩ := isSpace_skipWs s'
      split_ifs at h with hobject harray hstring
      · subst hobject
        split at h
        · cases h
        next c r' hskip' =>
        have hc := notWs_of_skipWs hskip'
        rw [hskip'] at hs'
        split_ifs at h with hclose
        · cases h
          refine ⟨123 :: (ws' ++ [125]), List.cons_ne_nil _ _, by simp [hs', hclose], ?_⟩
          intro fuel t hfuel _
          obtain ⟨fuel, rfl⟩ : ∃ f, fuel = f + 1 := ⟨fuel - 1, by simp at hfuel; omega⟩
          rw [List.cons_append, List.append_assoc, List.singleton_append, parseValue,
            skipWs_cons hb]
          simp [skipWs_delimiter hws' (hclose ▸ hc)]
        · obtain ⟨used, hne, hrest, hread⟩ := ihMembers _ _ _ _ h
          refine ⟨123 :: (ws' ++ used), List.cons_ne_nil _ _, by simp [hs', hrest], ?_⟩
          intro fuel t hfuel _
          obtain ⟨fuel, rfl⟩ : ∃ f, fuel = f + 1 := ⟨fuel - 1, by simp at hfuel; omega⟩
          obtain ⟨u, rfl⟩ : ∃ u, used = c :: u := by
            cases used with
            | nil => exact absurd rfl hne
            | cons d u =>
              cases hrest
              exact ⟨u, rfl⟩
          have hmembers := hread fuel t (by simp at hfuel ⊢; omega)
          rw [List.cons_append, List.append_assoc, parseValue, skipWs_cons hb]
          simp only [if_true]
          rw [List.cons_append, skipWs_delimiter hws' hc]
          simp only
          rw [if_neg hclose]
          exact hmembers
      · subst harray
        split at h
        · cases h
        next c r' hskip' =>
        have hc := notWs_of_skipWs hskip'
        rw [hskip'] at hs'
        split_ifs at h with hclose
        · cases h
          refine ⟨91 :: (ws' ++ [93]), List.cons_ne_nil _ _, by simp [hs', hclose], ?_⟩
          intro fuel t hfuel _
          obtain ⟨fuel, rfl⟩ : ∃ f, fuel = f + 1 := ⟨fuel - 1, by simp at hfuel; omega⟩
          rw [List.cons_append, List.append_assoc, List.singleton_append, parseValue,
            skipWs_cons hb]
          simp [skipWs_delimiter hws' (hclose ▸ hc)]
        · obtain ⟨⟨l, r''⟩, hl, heq⟩ := Option.map_eq_some_iff.1 h
          cases heq
          obtain ⟨used, hne, hrest, hread⟩ := ihItems _ _ _ hl
          refine ⟨91 :: (ws' ++ used), List.cons_ne_nil _ _, by simp [hs', hrest], ?_⟩
          intro fuel t hfuel _
          obtain ⟨fuel, rfl⟩ : ∃ f, fuel = f + 1 := ⟨fuel - 1, by simp at hfuel; omega⟩
          obtain ⟨u, rfl⟩ : ∃ u, used = c :: u := by
            cases used with
            | nil => exact absurd rfl hne
            | cons d u =>
              cases hrest
              exact ⟨u, rfl⟩
          have hitems := hread fuel t (by simp at hfuel ⊢; omega)
          rw [List.cons_append] at hitems
          rw [List.cons_append, List.append_assoc, parseValue, skipWs_cons hb]
          simp only
          rw [if_neg (by decide), if_pos trivial, List.cons_append, skipWs_delimiter hws' hc]
          simp only
          rw [if_neg hclose, hitems]
          rfl
      · subst hstring
        obtain ⟨⟨v, r'⟩, hv, heq⟩ := Option.map_eq_some_iff.1 h
        cases heq
        obtain ⟨used, hrest, hread⟩ := read_of_parseString hv
        refine ⟨34 :: used, List.cons_ne_nil _ _, by rw [hrest]; rfl, ?_⟩
        intro fuel t hfuel _
        obtain ⟨fuel, rfl⟩ : ∃ f, fuel = f + 1 := ⟨fuel - 1, by simp at hfuel; omega⟩
        rw [List.cons_append, parseValue, skipWs_cons hb]
        simp [hread]
      · exact read_of_parseScalar hb hobject harray hstring h
    · intro s l r h
      rw [parseItems] at h
      split at h
      · cases h
      next x r' hx =>
      split at h
      · cases h
      next c r'' hskip =>
      obtain ⟨used, hne, hs, hread⟩ := ihValue _ _ _ hx
      have hpos : 0 < used.length := List.length_pos_iff.2 hne
      obtain ⟨ws, hws, hr⟩ := isSpace_skipWs r'
      rw [hskip] at hr
      split_ifs at h with hcomma hclose
      · subst hcomma
        obtain ⟨⟨l', r₁⟩, hl, heq⟩ := Option.map_eq_some_iff.1 h
        cases heq
        obtain ⟨used', hne', hrest, hread'⟩ := ihItems _ _ _ hl
        refine ⟨used ++ (ws ++ 44 :: used'), by simp, by simp [hs, hr, hrest], ?_⟩
        intro fuel t hfuel
        simp only [List.length_append, List.length_cons] at hfuel
        obtain ⟨fuel, rfl⟩ : ∃ f, fuel = f + 1 := ⟨fuel - 1, by omega⟩
        obtain ⟨hvalue, hdelimiter⟩ := hread.delimited hws (.inl rfl)
          (show used.length ≤ fuel by omega) (used' ++ t)
        rw [List.append_assoc, List.append_assoc, List.cons_append, parseItems, hvalue]
        simp only [hdelimiter]
        rw [if_pos trivial, hread' fuel t (by omega)]
        rfl
      · subst hclose
        cases h
        refine ⟨used ++ (ws ++ [93]), by simp, by simp [hs, hr], ?_⟩
        intro fuel t hfuel
        simp only [List.length_append, List.length_cons, List.length_nil] at hfuel
        obtain ⟨fuel, rfl⟩ : ∃ f, fuel = f + 1 := ⟨fuel - 1, by omega⟩
        obtain ⟨hvalue, hdelimiter⟩ := hread.delimited hws (.inr (.inl rfl))
          (show used.length ≤ fuel by omega) t
        rw [List.append_assoc, List.append_assoc, List.singleton_append, parseItems, hvalue]
        simp [hdelimiter]
    · intro m s j r h
      rw [parseMembers] at h
      split at h
      · cases h
      next b s' hskip =>
      have hb := notWs_of_skipWs hskip
      split_ifs at h with hquote
      subst hquote
      split at h
      · cases h
      next k r' hk =>
      split at h
      · cases h
      next c r'' hskip' =>
      split_ifs at h with hcolon
      subst hcolon
      split at h
      · cases h
      next x r₁ hx =>
      split at h
      · cases h
      next c' r₂ hskip'' =>
      obtain ⟨ws, hws, hs⟩ := isSpace_skipWs s
      obtain ⟨name, hname, hreadName⟩ := read_of_parseString hk
      obtain ⟨ws', hws', hs'⟩ := isSpace_skipWs r'
      obtain ⟨used, hne, hvalue, hread⟩ := ihValue _ _ _ hx
      have hpos : 0 < used.length := List.length_pos_iff.2 hne
      obtain ⟨ws'', hws'', hr⟩ := isSpace_skipWs r₁
      rw [hskip] at hs
      rw [hskip'] at hs'
      rw [hskip''] at hr
      -- The key and the value are read in front of any text.
      have hmember : ∀ {fuel : Nat} {t : Bytes} {v : Json} {r : Bytes},
          parseValue strtod fuel t = some (v, r) →
            parseMembers strtod (fuel + 1) m (ws ++ 34 :: (name ++ (ws' ++ 58 :: t))) =
              parseRest strtod fuel (setKey k v m) r := by
        intro fuel t v r hv
        rw [parseMembers, skipWs_delimiter hws hb]
        simp only [if_true, hreadName, skipWs_delimiter hws' (notWs_of_skipWs hskip'), hv]
        unfold parseRest
        cases skipWs r <;> rfl
      split_ifs at h with hcomma hclose
      · subst hcomma
        obtain ⟨used', hne', hrest, hread'⟩ := ihMembers _ _ _ _ h
        refine ⟨ws ++ 34 :: (name ++ (ws' ++ 58 :: (used ++ (ws'' ++ 44 :: used')))), by simp,
          by simp [hs, hname, hs', hvalue, hr, hrest], ?_⟩
        intro fuel t hfuel
        simp only [List.length_append, List.length_cons] at hfuel
        obtain ⟨fuel, rfl⟩ : ∃ f, fuel = f + 1 := ⟨fuel - 1, by omega⟩
        obtain ⟨hvalue, hdelimiter⟩ := hread.delimited hws'' (.inl rfl)
          (show used.length ≤ fuel by omega) (used' ++ t)
        simp only [List.append_assoc, List.cons_append]
        rw [hmember hvalue, parseRest, hdelimiter]
        dsimp only
        rw [if_pos rfl]
        exact hread' fuel t (by omega)
      · subst hclose
        cases h
        refine ⟨ws ++ 34 :: (name ++ (ws' ++ 58 :: (used ++ (ws'' ++ [125])))), by simp,
          by simp [hs, hname, hs', hvalue, hr], ?_⟩
        intro fuel t hfuel
        simp only [List.length_append, List.length_cons, List.length_nil] at hfuel
        obtain ⟨fuel, rfl⟩ : ∃ f, fuel = f + 1 := ⟨fuel - 1, by omega⟩
        obtain ⟨hvalue, hdelimiter⟩ := hread.delimited hws'' (.inr (.inr rfl))
          (show used.length ≤ fuel by omega) t
        simp only [List.append_assoc, List.cons_append, List.nil_append]
        rw [hmember hvalue, parseRest]
        simp [hdelimiter]

/-! ## Whole texts and parts of objects -/

/-- The value of a text that is one value with white space around it, and nothing else. -/
def whole (strtod : Bytes → Option Double) (text : Bytes) : Option Json :=
  match parseValue strtod (text.length + 1) text with
  | none => none
  | some (j, r) => if skipWs r = [] then some j else none

/-- A text that is one value is a text of the grammar. -/
theorem text_of_whole {text : Bytes} {j : Json} (h : whole strtod text = some j) :
    ∃ m, IsText m ∧ m.text = text := by
  unfold whole at h
  split at h
  · cases h
  next v r hv =>
  split_ifs at h with hskip
  obtain ⟨ws, m, hws, hm, htext⟩ := (derives_of_parsers strtod _).1 _ _ _ hv 0
  exact ⟨_, .element hws hm ((isSpace_iff_skipWs r).2 hskip), by simp [htext]⟩

/-- The rest of an object is read the same in front of any text, with any fuel that suffices. -/
theorem parseRest_local {fuel : Nat} {m : List (Bytes × Json)} {s r : Bytes} {j : Json}
    (h : parseRest strtod fuel m s = some (j, r)) : NumEnd s ∧ ∃ used, used ≠ [] ∧ s = used ++ r ∧
      ∀ fuel t, used.length ≤ fuel → parseRest strtod fuel m (used ++ t) = some (j, t) := by
  obtain ⟨ws, hws, hs⟩ := isSpace_skipWs s
  unfold parseRest at h
  split at h
  · cases h
  next c r' hskip =>
  have hc := notWs_of_skipWs hskip
  rw [hskip] at hs
  rw [hs]
  split_ifs at h with hcomma hclose
  · subst hcomma
    refine ⟨numEnd_space hws (numEnd_cons rfl (by decide) (by decide) (by decide)), ?_⟩
    obtain ⟨used, -, hrest, hread⟩ := (reads_of_parsers strtod fuel).2.2 _ _ _ _ h
    refine ⟨ws ++ 44 :: used, by simp, by simp [hrest], fun fuel t hfuel => ?_⟩
    rw [List.append_assoc, List.cons_append, parseRest, skipWs_delimiter hws hc]
    simp only [if_true]
    exact hread fuel t (by simp at hfuel; omega)
  · subst hclose
    cases h
    refine ⟨numEnd_space hws (numEnd_cons rfl (by decide) (by decide) (by decide)), ?_⟩
    refine ⟨ws ++ [125], by simp, by simp, fun fuel t _ => ?_⟩
    rw [List.append_assoc, List.singleton_append, parseRest, skipWs_delimiter hws hc]
    simp

/-- A member with a key that is well-formed. -/
theorem parseMembers_member {k : Bytes} (hk : Utf8.Valid k) (fuel : Nat)
    (m : List (Bytes × Json)) (s : Bytes) :
    parseMembers strtod (fuel + 1) m (quote k ++ 58 :: s) =
      (parseValue strtod fuel s).bind fun p => parseRest strtod fuel (setKey k p.1 m) p.2 := by
  rw [quote, List.cons_append, List.append_assoc, List.singleton_append, parseMembers,
    skipWs_cons (by simp [NotWs])]
  simp only [if_true, parseString_escape hk]
  rw [skipWs_cons (by simp [NotWs])]
  simp only [if_true]
  cases parseValue strtod fuel s with
  | none => rfl
  | some p => rfl

end

end Json

end Lib
