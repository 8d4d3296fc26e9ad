import VppJsonGateway.Lib.JsonText
import VppJsonGateway.Lib.JsonRead

/-!
# The grammar of JSON texts

A derivation of a text marks every octet with the number of arrays and objects that are open after
it. What the parser reads is a text of the grammar (`derives_of_parsers`), and `Json.nested` is how
deep the parser nests on any text with some fuel, whether it accepts the text or not.
-/

namespace Lib

/-! ## Tokens -/

namespace Grammar

/-- White space between tokens. -/
def IsSpace (s : Bytes) : Prop := ∀ b ∈ s, b = 0x20 ∨ b = 0x09 ∨ b = 0x0A ∨ b = 0x0D

/-- A piece of a string: an octet that stands for itself, or an escape. -/
inductive Piece : Bytes → Prop
  | octet {b : UInt8} (hprint : 0x20 ≤ b) (hquote : b ≠ 34) (hslash : b ≠ 92) : Piece [b]
  | escape {e : UInt8} (he : e ∈ utf8 "\"\\/bfnrt") : Piece [92, e]
  | unicode {a b c d : UInt8}
      (h : ∀ x ∈ [a, b, c, d], (Json.hexVal x).isSome = true) : Piece [92, 117, a, b, c, d]

/-- A string token. -/
def IsString (s : Bytes) : Prop :=
  ∃ pieces : List Bytes, (∀ p ∈ pieces, Piece p) ∧ Utf8.Valid pieces.flatten ∧
    s = 34 :: (pieces.flatten ++ [34])

/-- One or more digits. -/
def IsDigits (s : Bytes) : Prop := s ≠ [] ∧ ∀ b ∈ s, isDigit b = true

/-- The integer part of a number. -/
def IsInteger (s : Bytes) : Prop := s = [48] ∨ (IsDigits s ∧ s.head? ≠ some 48)

/-- The fraction of a number, if it has one. -/
def IsFraction (s : Bytes) : Prop := s = [] ∨ ∃ digits, IsDigits digits ∧ s = 46 :: digits

/-- The exponent of a number, if it has one. -/
def IsExponent (s : Bytes) : Prop :=
  s = [] ∨ ∃ e sign digits, (e = 101 ∨ e = 69) ∧ (sign = [] ∨ sign = [43] ∨ sign = [45]) ∧
    IsDigits digits ∧ s = e :: (sign ++ digits)

/-- A number token. -/
def IsNumber (s : Bytes) : Prop :=
  ∃ sign i f e, (sign = [] ∨ sign = [45]) ∧ IsInteger i ∧ IsFraction f ∧ IsExponent e ∧
    s = sign ++ i ++ f ++ e

/-- A value that is no container. -/
def IsScalar (s : Bytes) : Prop :=
  s = utf8 "null" ∨ s = utf8 "true" ∨ s = utf8 "false" ∨ IsString s ∨ IsNumber s

/-- The key of a member, up to its value. -/
def IsKey (s : Bytes) : Prop :=
  ∃ before key after, IsSpace before ∧ IsString key ∧ IsSpace after ∧
    s = before ++ key ++ after ++ [58]

end Grammar

/-! ## Derivations -/

/-- A text each octet of which is marked with the number of containers that are open after it. -/
abbrev Marked := List (UInt8 × Nat)

namespace Marked

/-- The text without the marks. -/
def text (m : Marked) : Bytes := m.map Prod.fst

/-- A text all inside the same containers. -/
def flat (d : Nat) (s : Bytes) : Marked := s.map (·, d)

@[simp] theorem text_flat (d : Nat) (s : Bytes) : (flat d s).text = s := by
  simp [text, flat, Function.comp_def]

@[simp] theorem text_nil : text [] = [] := rfl

@[simp] theorem text_append (m m' : Marked) : (m ++ m').text = m.text ++ m'.text :=
  List.map_append

@[simp] theorem text_cons (b : UInt8) (d : Nat) (m : Marked) : text ((b, d) :: m) = b :: m.text :=
  rfl

/-- The text inside one more container. -/
def deeper (m : Marked) : Marked := m.map fun x => (x.1, x.2 + 1)

@[simp] theorem text_deeper (m : Marked) : m.deeper.text = m.text := by
  simp [text, deeper, Function.comp_def]

theorem deeper_cons (b : UInt8) (d : Nat) (m : Marked) :
    deeper ((b, d) :: m) = (b, d + 1) :: m.deeper := rfl

/-- Two pieces are put deeper one after the other. -/
theorem deeper_append (m m' : Marked) : (m ++ m').deeper = m.deeper ++ m'.deeper :=
  List.map_append

/-- So is a piece without containers. -/
theorem deeper_flat (d : Nat) (s : Bytes) : (flat d s).deeper = flat (d + 1) s := by
  simp [flat, deeper, Function.comp_def]

end Marked

namespace Grammar

/-- What is derived: a value, a value with white space around it, and what stands between the
brackets of an array or an object that is not empty. -/
inductive Kind where
  | value
  | element
  | items
  | members

/-- A marked text inside `d` containers. -/
inductive Derives : Kind → Nat → Marked → Prop
  | scalar {d : Nat} {s : Bytes} (h : IsScalar s) : Derives .value d (Marked.flat d s)
  | emptyArray {d : Nat} {ws : Bytes} (h : IsSpace ws) :
      Derives .value d ((91, d + 1) :: (Marked.flat (d + 1) ws ++ [(93, d)]))
  | array {d : Nat} {m : Marked} (h : Derives .items (d + 1) m) :
      Derives .value d ((91, d + 1) :: (m ++ [(93, d)]))
  | emptyObject {d : Nat} {ws : Bytes} (h : IsSpace ws) :
      Derives .value d ((123, d + 1) :: (Marked.flat (d + 1) ws ++ [(125, d)]))
  | object {d : Nat} {m : Marked} (h : Derives .members (d + 1) m) :
      Derives .value d ((123, d + 1) :: (m ++ [(125, d)]))
  | element {d : Nat} {before after : Bytes} {m : Marked} (hbefore : IsSpace before)
      (h : Derives .value d m) (hafter : IsSpace after) :
      Derives .element d (Marked.flat d before ++ m ++ Marked.flat d after)
  | item {d : Nat} {m : Marked} (h : Derives .element d m) : Derives .items d m
  | items {d : Nat} {m m' : Marked} (h : Derives .element d m) (h' : Derives .items d m') :
      Derives .items d (m ++ (44, d) :: m')
  | member {d : Nat} {key : Bytes} {m : Marked} (hkey : IsKey key) (h : Derives .element d m) :
      Derives .members d (Marked.flat d key ++ m)
  | members {d : Nat} {key : Bytes} {m m' : Marked} (hkey : IsKey key)
      (h : Derives .element d m) (h' : Derives .members d m') :
      Derives .members d (Marked.flat d key ++ m ++ (44, d) :: m')

/-- A JSON text with its marks. -/
def IsText (m : Marked) : Prop := Derives .element 0 m

theorem IsSpace.append {s t : Bytes} (hs : IsSpace s) (ht : IsSpace t) : IsSpace (s ++ t) :=
  List.forall_mem_append.2 ⟨hs, ht⟩

theorem IsKey.pad {ws key : Bytes} (hws : IsSpace ws) (h : IsKey key) : IsKey (ws ++ key) := by
  obtain ⟨before, name, after, hbefore, hname, hafter, rfl⟩ := h
  exact ⟨ws ++ before, name, after, hws.append hbefore, hname, hafter, by simp⟩

/-- A derivation inside one more container. -/
theorem Derives.inside {k : Kind} {d : Nat} {m : Marked} (h : Derives k d m) :
    Derives k (d + 1) m.deeper := by
  induction h with
  | scalar h => exact Marked.deeper_flat _ _ ▸ .scalar h
  | emptyArray h =>
    simp only [Marked.deeper_cons, Marked.deeper_append, Marked.deeper_flat]
    exact .emptyArray h
  | array h ih =>
    simp only [Marked.deeper_cons, Marked.deeper_append]
    exact .array ih
  | emptyObject h =>
    simp only [Marked.deeper_cons, Marked.deeper_append, Marked.deeper_flat]
    exact .emptyObject h
  | object h ih =>
    simp only [Marked.deeper_cons, Marked.deeper_append]
    exact .object ih
  | element hbefore h hafter ih =>
    simp only [Marked.deeper_append, Marked.deeper_flat]
    exact .element hbefore ih hafter
  | item h ih => exact .item ih
  | items h h' ih ih' =>
    simp only [Marked.deeper_append, Marked.deeper_cons]
    exact .items ih ih'
  | member hkey h ih =>
    simp only [Marked.deeper_append, Marked.deeper_flat]
    exact .member hkey ih
  | members hkey h h' ih ih' =>
    simp only [Marked.deeper_append, Marked.deeper_cons, Marked.deeper_flat]
    exact .members hkey ih ih'

/-- White space may stand before anything but a value alone. -/
theorem Derives.pad {k : Kind} {d : Nat} {m : Marked} {ws : Bytes} (hws : IsSpace ws)
    (h : Derives k d m) (hk : k ≠ .value) : Derives k d (.flat d ws ++ m) := by
  have hflat : ∀ s t : Bytes, Marked.flat d (s ++ t) = .flat d s ++ .flat d t := fun _ _ =>
    List.map_append
  have helement : ∀ {m : Marked}, Derives .element d m → Derives .element d (.flat d ws ++ m) := by
    intro m h
    cases h with
    | element hbefore h hafter =>
      have hpadded := Derives.element (hws.append hbefore) h hafter
      rw [hflat] at hpadded
      simpa using hpadded
  cases h with
  | scalar | emptyArray | array | emptyObject | object => exact absurd rfl hk
  | element hbefore h hafter => exact helement (.element hbefore h hafter)
  | item h => exact .item (helement h)
  | items h h' =>
    have hpadded := Derives.items (helement h) h'
    simpa using hpadded
  | member hkey h =>
    have hpadded := Derives.member (hkey.pad hws) h
    rw [hflat] at hpadded
    simpa using hpadded
  | members hkey h h' =>
    have hpadded := Derives.members (hkey.pad hws) h h'
    rw [hflat] at hpadded
    simpa using hpadded

end Grammar

/-! ## What the parser reads -/

namespace Json

open Grammar

/-- What is skipped are blanks. -/
theorem isSpace_skipWs (s : Bytes) : ∃ ws, IsSpace ws ∧ s = ws ++ skipWs s := by
  induction s with
  | nil => exact ⟨[], fun _ h => (by cases h), rfl⟩
  | cons b s ih =>
    obtain ⟨ws, hws, hs⟩ := ih
    by_cases hb : b = 0x20 ∨ b = 0x09 ∨ b = 0x0A ∨ b = 0x0D
    · refine ⟨b :: ws, ?_, ?_⟩
      · exact List.forall_mem_cons.2 ⟨hb, hws⟩
      · rw [skipWs, if_pos hb, List.cons_append, ← hs]
    · refine ⟨[], fun _ h => (by cases h), ?_⟩
      rw [skipWs, if_neg hb, List.nil_append]

/-- Four hexadecimal digits are digits each. -/
theorem isSome_of_hex4 {a b c d : UInt8} {n : Nat} (h : hex4 a b c d = some n) :
    ∀ x ∈ [a, b, c, d], (hexVal x).isSome = true := by
  simp only [hex4, Option.bind_eq_bind, Option.bind_eq_some_iff, Option.some.injEq] at h
  obtain ⟨p, hp, q, hq, u, hu, v, hv, -⟩ := h
  simp [hp, hq, hu, hv]

/-- A hexadecimal digit is ASCII. -/
theorem ascii_of_hexVal {x : UInt8} (h : (hexVal x).isSome = true) : x ≤ 0x7F := by
  by_contra hgt
  have hx : 127 < x.toNat := UInt8.lt_iff_toNat_lt.1 (UInt8.not_le.1 hgt)
  unfold hexVal at h
  rw [if_neg (by simp only [isDigit, decide_eq_true_eq]; omega), if_neg (by omega),
    if_neg (by omega)] at h
  cases h

/-- There are eight short escapes. -/
theorem mem_of_simpleEscape {e c : UInt8} (h : simpleEscape e = some c) :
    e ∈ utf8 "\"\\/bfnrt" := by
  unfold simpleEscape at h
  split_ifs at h with h₁ h₂ h₃ h₄ h₅ h₆ h₇ h₈
  · subst h₁; decide
  · subst h₂; decide
  · subst h₃; decide
  · subst h₄; decide
  · subst h₅; decide
  · subst h₆; decide
  · subst h₇; decide
  · subst h₈; decide

/-- A string that was read is a string token. -/
theorem pieces_of_parseString {q : Utf8.State} {s : Bytes} : ∀ {v r : Bytes},
    parseString q s = some (v, r) → ∃ pieces : List Bytes, (∀ p ∈ pieces, Piece p) ∧
      Utf8.ValidFrom q pieces.flatten ∧ s = pieces.flatten ++ 34 :: r := by
  have hcons : ∀ {p : Bytes} {pieces : List Bytes} {q : Utf8.State}, Piece p →
      (∀ b ∈ p, b ≤ 0x7F) → q = .start → (∀ x ∈ pieces, Piece x) →
      Utf8.ValidFrom .start pieces.flatten → (∀ x ∈ p :: pieces, Piece x) ∧
        Utf8.ValidFrom q (p :: pieces).flatten := by
    rintro p pieces q hp hascii rfl hpieces hvalid
    refine ⟨List.forall_mem_cons.2 ⟨hp, hpieces⟩, ?_⟩
    rw [List.flatten_cons]
    exact (Utf8.valid_of_ascii hascii).append hvalid
  have hunicode : ∀ {a b c d : UInt8} {n : Nat}, hex4 a b c d = some n →
      Piece [92, 117, a, b, c, d] ∧ ∀ x ∈ [92, 117, a, b, c, d], x ≤ (0x7F : UInt8) := by
    intro a b c d n h
    have hsome := isSome_of_hex4 h
    refine ⟨.unicode hsome, ?_⟩
    intro x hx
    rcases List.mem_cons.1 hx with rfl | hx
    · decide
    · rcases List.mem_cons.1 hx with rfl | hx
      · decide
      · exact ascii_of_hexVal (hsome x hx)
  fun_induction parseString q s with
  | case1 q => rintro v r ⟨⟩
  | case2 q b s h =>
    rintro v r ⟨⟩
    exact ⟨[], fun _ hp => (by cases hp), h.1, by rw [h.2]; rfl⟩
  | case3 => rintro v r ⟨⟩
  | case4 => rintro v r ⟨⟩
  | case5 => rintro v r ⟨⟩
  | case6 q b h34 h92 a b' c d n hn hlow x y a' b'' c' d' s l hl hpair ih =>
    intro v r h
    generalize 0x10000 + (n - 0xD800) * 1024 + (l - 0xDC00) = k at h
    obtain ⟨p, hp, heq⟩ := Option.map_eq_some_iff.1 h
    cases heq
    obtain ⟨pieces, hpieces, hvalid, hs⟩ := ih hp
    obtain ⟨hsecond, hascii'⟩ := hunicode hl
    obtain ⟨hfirst, hascii⟩ := hunicode hn
    obtain ⟨hpieces', hvalid'⟩ := hcons hsecond hascii' rfl hpieces hvalid
    obtain ⟨hall, hvalid''⟩ := hcons hfirst hascii h92.1 hpieces' hvalid'
    exact ⟨_, hall, hvalid'', by rw [hs, h92.2, hpair.1, hpair.2.1]; rfl⟩
  | case7 => rintro v r ⟨⟩
  | case8 => rintro v r ⟨⟩
  | case9 => rintro v r ⟨⟩
  | case10 q b h34 h92 a b' c d s n hn hlow hhigh ih =>
    intro v r h
    obtain ⟨p, hp, heq⟩ := Option.map_eq_some_iff.1 h
    cases heq
    obtain ⟨pieces, hpieces, hvalid, hs⟩ := ih hp
    obtain ⟨hpiece, hascii⟩ := hunicode hn
    obtain ⟨hall, hvalid'⟩ := hcons hpiece hascii h92.1 hpieces hvalid
    exact ⟨_, hall, hvalid', by rw [hs, h92.2]; rfl⟩
  | case11 => rintro v r ⟨⟩
  | case12 => rintro v r ⟨⟩
  | case13 q b h34 h92 e s hu c hc ih =>
    intro v r h
    obtain ⟨p, hp, heq⟩ := Option.map_eq_some_iff.1 h
    cases heq
    obtain ⟨pieces, hpieces, hvalid, hs⟩ := ih hp
    have hmem := mem_of_simpleEscape hc
    have hascii : ∀ x ∈ [92, e], x ≤ (0x7F : UInt8) := by
      have hall : ∀ x ∈ utf8 "\"\\/bfnrt", x ≤ (0x7F : UInt8) := by decide +kernel
      simpa using hall e hmem
    obtain ⟨hall, hvalid'⟩ := hcons (.escape hmem) hascii h92.1 hpieces hvalid
    exact ⟨_, hall, hvalid', by rw [hs, h92.2]; rfl⟩
  | case14 => rintro v r ⟨⟩
  | case15 => rintro v r ⟨⟩
  | case16 q b s h34 h92 h20 q' hq' ih =>
    intro v r h
    obtain ⟨p, hp, heq⟩ := Option.map_eq_some_iff.1 h
    cases heq
    obtain ⟨pieces, hpieces, hvalid, hs⟩ := ih hp
    refine ⟨[b] :: pieces, List.forall_mem_cons.2 ⟨?_, hpieces⟩, ⟨q', hq', hvalid⟩, by rw [hs]; rfl⟩
    by_cases hq : q = .start
    · exact .octet (UInt8.not_lt.1 fun hb => h20 ⟨hq, hb⟩) (fun hb => h34 ⟨hq, hb⟩)
        fun hb => h92 ⟨hq, hb⟩
    · have hge := Utf8.ge_of_step hq hq'
      have hne : ∀ c : UInt8, c < 0x80 → b ≠ c := by
        rintro c hc rfl
        exact absurd hge (UInt8.not_le.2 hc)
      exact .octet (UInt8.le_trans (by decide) hge) (hne 34 (by decide)) (hne 92 (by decide))

/-- What is read as a string is one. -/
theorem isString_of_parseString {s v r : Bytes} (h : parseString .start s = some (v, r)) :
    ∃ body, IsString (34 :: (body ++ [34])) ∧ s = body ++ 34 :: r := by
  obtain ⟨pieces, hpieces, hvalid, hs⟩ := pieces_of_parseString h
  exact ⟨pieces.flatten, ⟨pieces, hpieces, hvalid, rfl⟩, hs⟩

/-- What is scanned as digits are digits. -/
theorem isDigits_of_scanDigits {s : Bytes} {p : Bytes × Bytes} (h : scanDigits s = some p) :
    IsDigits p.1 ∧ s = p.1 ++ p.2 := by
  unfold scanDigits at h
  split at h
  · cases h
  · next hne =>
    cases h
    exact ⟨⟨hne, fun b hb => List.mem_takeWhile_imp hb⟩, List.takeWhile_append_dropWhile.symm⟩

/-- A number may have a sign. -/
theorem split_scanSign (s : Bytes) : ((scanSign s).1 = [] ∨ (scanSign s).1 = [45]) ∧
    s = (scanSign s).1 ++ (scanSign s).2 := by
  cases s with
  | nil => exact ⟨.inl rfl, rfl⟩
  | cons b s =>
    by_cases hb : b = 45
    · rw [scanSign, if_pos hb, hb]
      exact ⟨.inr rfl, rfl⟩
    · rw [scanSign, if_neg hb]
      exact ⟨.inl rfl, rfl⟩

/-- What is scanned as a whole part is one. -/
theorem isInteger_of_scanInt {s i r : Bytes} (h : scanInt s = some (i, r)) :
    IsInteger i ∧ s = i ++ r := by
  cases s with
  | nil => cases h
  | cons b s =>
    simp only [scanInt] at h
    split_ifs at h with h48 hdigit
    · cases h
      exact ⟨.inl rfl, by rw [h48]; rfl⟩
    · cases h
      refine ⟨.inr ⟨⟨?_, fun c hc => List.mem_takeWhile_imp hc⟩, ?_⟩,
        List.takeWhile_append_dropWhile.symm⟩
      · rw [List.takeWhile_cons_of_pos hdigit]
        exact List.cons_ne_nil _ _
      · rw [List.takeWhile_cons_of_pos hdigit]
        simpa using h48

/-- What is scanned as a fraction is one. -/
theorem isFraction_of_scanFrac {s f r : Bytes} (h : scanFrac s = some (f, r)) :
    IsFraction f ∧ s = f ++ r := by
  cases s with
  | nil =>
    cases h
    exact ⟨.inl rfl, rfl⟩
  | cons b s =>
    simp only [scanFrac] at h
    split_ifs at h with h46
    · obtain ⟨p, hp, heq⟩ := Option.map_eq_some_iff.1 h
      cases heq
      obtain ⟨hdigits, hs⟩ := isDigits_of_scanDigits hp
      exact ⟨.inr ⟨_, hdigits, rfl⟩, by rw [h46, hs]; rfl⟩
    · cases h
      exact ⟨.inl rfl, rfl⟩

/-- What is scanned as an exponent is one. -/
theorem isExponent_of_scanExp {s e r : Bytes} (h : scanExp s = some (e, r)) :
    IsExponent e ∧ s = e ++ r := by
  cases s with
  | nil =>
    cases h
    exact ⟨.inl rfl, rfl⟩
  | cons b s =>
    simp only [scanExp] at h
    split_ifs at h with hb
    · cases s with
      | nil => cases h
      | cons c s =>
        simp only at h
        split_ifs at h with hc
        · obtain ⟨p, hp, heq⟩ := Option.map_eq_some_iff.1 h
          cases heq
          obtain ⟨hdigits, hs⟩ := isDigits_of_scanDigits hp
          refine ⟨.inr ⟨b, [c], p.1, hb, .inr ?_, hdigits, rfl⟩, by rw [hs]; rfl⟩
          rcases hc with rfl | rfl
          · exact .inl rfl
          · exact .inr rfl
        · obtain ⟨p, hp, heq⟩ := Option.map_eq_some_iff.1 h
          cases heq
          obtain ⟨hdigits, hs⟩ := isDigits_of_scanDigits hp
          exact ⟨.inr ⟨b, [], p.1, hb, .inl rfl, hdigits, rfl⟩, by rw [hs]; rfl⟩
    · cases h
      exact ⟨.inl rfl, rfl⟩

/-- A number that was read is a number token. -/
theorem isNumber_of_scanNumber {s t r : Bytes} {fl : Bool} (h : scanNumber s = some (t, fl, r)) :
    IsNumber t ∧ s = t ++ r := by
  simp only [scanNumber, Option.bind_eq_bind, Option.bind_eq_some_iff, Option.some.injEq,
    Prod.mk.injEq] at h
  obtain ⟨⟨i, r₁⟩, hi, ⟨f, r₂⟩, hf, ⟨e, r₃⟩, he, rfl, -, rfl⟩ := h
  obtain ⟨hsign, hs⟩ := split_scanSign s
  obtain ⟨hint, hs₁⟩ := isInteger_of_scanInt hi
  obtain ⟨hfrac, hs₂⟩ := isFraction_of_scanFrac hf
  obtain ⟨hexp, hs₃⟩ := isExponent_of_scanExp he
  simp only at hs₂ hs₃
  refine ⟨⟨_, i, f, e, hsign, hint, hfrac, hexp, rfl⟩, ?_⟩
  calc s = (scanSign s).1 ++ (scanSign s).2 := hs
    _ = (scanSign s).1 ++ i ++ f ++ e ++ r₃ := by
      rw [hs₁, hs₂, hs₃]
      simp only [List.append_assoc]

/-- What is read as a value without containers is one. -/
theorem isScalar_of_parseScalar {strtod : Bytes → Option Double} {s r : Bytes} {j : Json}
    (h : parseScalar strtod s = some (j, r)) : ∃ t, IsScalar t ∧ s = t ++ r := by
  unfold parseScalar at h
  split_ifs at h with hnull htrue hfalse
  · cases h
    exact ⟨_, .inl rfl, (List.prefix_iff_eq_append.1 hnull).symm⟩
  · cases h
    exact ⟨_, .inr (.inl rfl), (List.prefix_iff_eq_append.1 htrue).symm⟩
  · cases h
    exact ⟨_, .inr (.inr (.inl rfl)), (List.prefix_iff_eq_append.1 hfalse).symm⟩
  · simp only [Option.bind_eq_bind, Option.bind_eq_some_iff] at h
    obtain ⟨⟨t, fl, r'⟩, hscan, j', -, heq⟩ := h
    cases heq
    obtain ⟨hnumber, hs⟩ := isNumber_of_scanNumber hscan
    exact ⟨t, .inr (.inr (.inr (.inr hnumber))), hs⟩

/-- One value, a list of elements and a list of members, by the fuel of the three parsers. -/
theorem derives_of_parsers (strtod : Bytes → Option Double) (fuel : Nat) :
    (∀ s j r, parseValue strtod fuel s = some (j, r) → ∀ d, ∃ ws m, IsSpace ws ∧
      Derives .value d m ∧ s = ws ++ m.text ++ r) ∧
    (∀ s l r, parseItems strtod fuel s = some (l, r) → ∀ d, ∃ m,
      Derives .items d m ∧ s = m.text ++ 93 :: r) ∧
    ∀ v s j r, parseMembers strtod fuel v s = some (j, r) → ∀ d, ∃ m,
      Derives .members d m ∧ s = m.text ++ 125 :: r := by
  induction fuel with
  | zero =>
    refine ⟨?_, ?_, ?_⟩
    · intro s j r h
      rw [parseValue] at h
      cases h
    · intro s l r h
      rw [parseItems] at h
      cases h
    · intro v s j r h
      rw [parseMembers] at h
      cases h
  | succ fuel ih =>
    obtain ⟨ihValue, ihItems, ihMembers⟩ := ih
    -- What follows a value up to a delimiter makes it an element.
    have helement : ∀ {s r r' : Bytes} {j : Json} {c : UInt8},
        parseValue strtod fuel s = some (j, r) → skipWs r = c :: r' → ∀ d, ∃ m, Derives .element d m ∧ s = m.text ++ c :: r' := by
      intro s r r' j c hvalue hskip d
      obtain ⟨ws, m, hws, hm, rfl⟩ := ihValue s j r hvalue d
      obtain ⟨ws', hws', hr⟩ := isSpace_skipWs r
      refine ⟨_, .element hws hm hws', ?_⟩
      rw [hskip] at hr
      simp [hr]
    refine ⟨?_, ?_, ?_⟩
    · intro s j r h d
      obtain ⟨ws, hws, hs⟩ := isSpace_skipWs s
      suffices hsuffix : ∃ m, Derives .value d m ∧ skipWs s = m.text ++ r by
        obtain ⟨m, hm, hrest⟩ := hsuffix
        exact ⟨ws, m, hws, hm, by rw [hs, hrest, List.append_assoc]⟩
      rw [parseValue] at h
      split at h
      · cases h
      next b s' hskip =>
      rw [hskip]
      obtain ⟨ws', hws', hs'⟩ := isSpace_skipWs s'
      split_ifs at h with hobject harray hstring
      · subst hobject
        split at h
        · cases h
        next c r' hskip' =>
        rw [hskip'] at hs'
        split_ifs at h with hclose
        · cases h
          exact ⟨_, .emptyObject hws', by simp [hs', hclose]⟩
        · obtain ⟨m, hm, hrest⟩ := ihMembers _ _ _ _ h (d + 1)
          exact ⟨_, .object (hm.pad hws' (by intro h; cases h)), by simp [hs', hrest]⟩
      · subst harray
        split at h
        · cases h
        next c r' hskip' =>
        rw [hskip'] at hs'
        split_ifs at h with hclose
        · cases h
          exact ⟨_, .emptyArray hws', by simp [hs', hclose]⟩
        · obtain ⟨⟨l, r''⟩, hl, heq⟩ := Option.map_eq_some_iff.1 h
          cases heq
          obtain ⟨m, hm, hrest⟩ := ihItems _ _ _ hl (d + 1)
          exact ⟨_, .array (hm.pad hws' (by intro h; cases h)), by simp [hs', hrest]⟩
      · obtain ⟨⟨v, r'⟩, hv, heq⟩ := Option.map_eq_some_iff.1 h
        cases heq
        obtain ⟨body, hbody, hrest⟩ := isString_of_parseString hv
        exact ⟨_, .scalar (.inr (.inr (.inr (.inl hbody)))), by simp [hstring, hrest]⟩
      · obtain ⟨t, ht, hrest⟩ := isScalar_of_parseScalar h
        exact ⟨_, .scalar ht, by simp [hrest]⟩
    · intro s l r h d
      rw [parseItems] at h
      split at h
      · cases h
      next x r' hx =>
      split at h
      · cases h
      next c r'' hskip =>
      obtain ⟨m, hm, hs⟩ := helement hx hskip d
      split_ifs at h with hcomma hclose
      · obtain ⟨⟨l', r₁⟩, hl, heq⟩ := Option.map_eq_some_iff.1 h
        cases heq
        obtain ⟨m', hm', hrest⟩ := ihItems _ _ _ hl d
        exact ⟨_, .items hm hm', by simp [hs, hcomma, hrest]⟩
      · cases h
        exact ⟨_, .item hm, by rw [hs, hclose]⟩
    · intro v s j r h d
      rw [parseMembers] at h
      split at h
      · cases h
      next b s' hskip =>
      split_ifs at h with hquote
      split at h
      · cases h
      next k r' hk =>
      split at h
      · cases h
      next c r'' hskip' =>
      split_ifs at h with hcolon
      split at h
      · cases h
      next x r₁ hx =>
      split at h
      · cases h
      next c' r₂ hskip'' =>
      obtain ⟨ws, hws, hs⟩ := isSpace_skipWs s
      obtain ⟨body, hbody, hname⟩ := isString_of_parseString hk
      obtain ⟨ws', hws', hs'⟩ := isSpace_skipWs r'
      have hkey : IsKey (ws ++ 34 :: (body ++ [34]) ++ ws' ++ [58]) :=
        ⟨ws, _, ws', hws, hbody, hws', rfl⟩
      have htext : s = ws ++ 34 :: (body ++ [34]) ++ ws' ++ [58] ++ r'' := by
        rw [hs, hskip, hquote, hname, hs', hskip', hcolon]
        simp
      obtain ⟨m, hm, hrest⟩ := helement hx hskip'' d
      split_ifs at h with hcomma hclose
      · obtain ⟨m', hm', hrest'⟩ := ihMembers _ _ _ _ h d
        exact ⟨_, .members hkey hm hm', by simp [htext, hrest, hcomma, hrest']⟩
      · cases h
        exact ⟨_, .member hkey hm, by simp [htext, hrest, hclose]⟩

/-! ## How deep the parser nests -/

mutual

/-- How many containers deep the parser gets with one value, whether it accepts it or not. -/
def nestedValue (strtod : Bytes → Option Double) : Nat → Bytes → Nat
  | 0, _ => 0
  | fuel + 1, s =>
    match skipWs s with
    | [] => 0
    | b :: s =>
      if b = 123 then
        match skipWs s with
        | [] => 1
        | c :: r => if c = 125 then 1 else 1 + nestedMembers strtod fuel (c :: r)
      else if b = 91 then
        match skipWs s with
        | [] => 1
        | c :: r => if c = 93 then 1 else 1 + nestedItems strtod fuel (c :: r)
      else 0

/-- The same of the elements of an array. -/
def nestedItems (strtod : Bytes → Option Double) : Nat → Bytes → Nat
  | 0, _ => 0
  | fuel + 1, s =>
    max (nestedValue strtod fuel s)
      (match parseValue strtod fuel s with
      | none => 0
      | some (_, r) =>
        match skipWs r with
        | [] => 0
        | c :: r => if c = 44 then nestedItems strtod fuel r else 0)

/-- The same of the members of an object. -/
def nestedMembers (strtod : Bytes → Option Double) : Nat → Bytes → Nat
  | 0, _ => 0
  | fuel + 1, s =>
    match skipWs s with
    | [] => 0
    | b :: s =>
      if b = 34 then
        match parseString .start s with
        | none => 0
        | some (_, r) =>
          match skipWs r with
          | [] => 0
          | c :: r =>
            if c = 58 then
              max (nestedValue strtod fuel r)
                (match parseValue strtod fuel r with
                | none => 0
                | some (_, r) =>
                  match skipWs r with
                  | [] => 0
                  | c :: r => if c = 44 then nestedMembers strtod fuel r else 0)
            else 0
      else 0

end

/-- How many containers deep the parser gets with a text before it stops, or runs out of fuel. Each
container takes two of it, so only with all of it does this count every container of a text. -/
def nested (strtod : Bytes → Option Double) (fuel : Nat) (text : Bytes) : Nat :=
  nestedValue strtod fuel (skipBom text)

end Json

end Lib
