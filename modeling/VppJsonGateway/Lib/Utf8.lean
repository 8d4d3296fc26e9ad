import VppJsonGateway.Lib.Bytes

/-!
# UTF-8 and JSON string escapes

`Utf8.step` is the octet-by-octet recogniser of well-formed UTF-8. `escape` writes a string
between JSON quotes: a control character, a quote or a backslash becomes an escape sequence,
and an ill-formed sequence becomes U+FFFD, one per maximal ill-formed piece. On a well-formed
string no replacement happens (`escape_of_valid`).
-/

namespace Lib

namespace Utf8

/-- Where the recogniser stands between octets: at a character boundary, or owing tails. -/
inductive State where
  | start
  | tail1
  | tail2
  | tail3
  | afterE0
  | afterED
  | afterF0
  | afterF4
  deriving DecidableEq, Repr

/-- `next` when the octet lies in a range. -/
def within (lo hi b : UInt8) (next : State) : Option State :=
  if lo ≤ b ∧ b ≤ hi then some next else none

/-- The state after the first octet of a character. -/
def first (b : UInt8) : Option State :=
  if b ≤ 0x7F then some .start
  else if 0xC2 ≤ b ∧ b ≤ 0xDF then some .tail1
  else if b = 0xE0 then some .afterE0
  else if b = 0xED then some .afterED
  else if 0xE1 ≤ b ∧ b ≤ 0xEF then some .tail2
  else if b = 0xF0 then some .afterF0
  else if 0xF1 ≤ b ∧ b ≤ 0xF3 then some .tail3
  else if b = 0xF4 then some .afterF4
  else none

/-- One octet: the state after it, or none where no well-formed text goes on with it. -/
def step : State → UInt8 → Option State
  | .start, b => first b
  | .tail1, b => within 0x80 0xBF b .start
  | .tail2, b => within 0x80 0xBF b .tail1
  | .tail3, b => within 0x80 0xBF b .tail2
  | .afterE0, b => within 0xA0 0xBF b .tail1
  | .afterED, b => within 0x80 0x9F b .tail1
  | .afterF0, b => within 0x90 0xBF b .tail2
  | .afterF4, b => within 0x80 0x8F b .tail2

/-- The octets `s` lead from `q` back to a character boundary. -/
def ValidFrom : State → Bytes → Prop
  | q, [] => q = .start
  | q, b :: s => ∃ q', step q b = some q' ∧ ValidFrom q' s

/-- `s` is well-formed UTF-8. -/
def Valid (s : Bytes) : Prop := ValidFrom .start s

/-- `ValidFrom`, decided by running the recogniser. -/
def decValidFrom : (q : State) → (s : Bytes) → Decidable (ValidFrom q s)
  | q, [] => inferInstanceAs (Decidable (q = .start))
  | q, b :: s =>
    match h : step q b with
    | none => isFalse (by rintro ⟨q', hq, -⟩; rw [h] at hq; cases hq)
    | some q' =>
      match decValidFrom q' s with
      | isTrue hv => isTrue ⟨q', h, hv⟩
      | isFalse hv => isFalse (by rintro ⟨q'', hq, hs⟩; rw [h] at hq; cases hq; exact hv hs)

instance (s : Bytes) : Decidable (Valid s) := decValidFrom .start s

/-- An octet that continues a character is above the ASCII range. -/
theorem ge_of_step {q q' : State} {b : UInt8} (hq : q ≠ .start) (h : step q b = some q') :
    0x80 ≤ b := by
  have key : ∀ {lo hi : UInt8} {n : State}, 0x80 ≤ lo → within lo hi b n = some q' → 0x80 ≤ b := by
    intro lo hi n hlo hw
    unfold within at hw
    split at hw
    · next hb => exact UInt8.le_trans hlo hb.1
    · cases hw
  cases q with
  | start => exact absurd rfl hq
  | tail1 | tail2 | tail3 | afterE0 | afterED | afterF0 | afterF4 => exact key (by decide) h

/-- A first octet that leaves the character open is above the ASCII range. -/
theorem ge_of_first {q' : State} {b : UInt8} (hq : q' ≠ .start) (h : first b = some q') :
    0x80 ≤ b := by
  unfold first at h
  split at h
  · cases h; exact absurd rfl hq
  · next hb =>
    have hlt : 127 < b.toNat := UInt8.lt_iff_toNat_lt.1 (UInt8.not_le.1 hb)
    exact UInt8.le_iff_toNat_le.2 hlt

/-- An ASCII character is complete. -/
theorem first_of_ascii {b : UInt8} (h : b ≤ 0x7F) : first b = some .start := by
  simp [first, h]

/-- Well-formed texts put side by side are well formed. -/
theorem ValidFrom.append {s t : Bytes} (ht : Valid t) :
    ∀ {q : State}, ValidFrom q s → ValidFrom q (s ++ t) := by
  induction s with
  | nil => intro q h; cases h; exact ht
  | cons b s ih =>
    rintro q ⟨q', hq, hs⟩
    exact ⟨q', hq, ih hs⟩

/-- Valid texts may be joined. -/
theorem Valid.append {s t : Bytes} (hs : Valid s) (ht : Valid t) : Valid (s ++ t) :=
  ValidFrom.append ht hs

/-- A text of ASCII octets is well formed. -/
theorem valid_of_ascii {s : Bytes} (h : ∀ b ∈ s, b ≤ 0x7F) : Valid s := by
  induction s with
  | nil => rfl
  | cons b s ih =>
    exact ⟨.start, first_of_ascii (h b (by simp)), ih fun x hx => h x (by simp [hx])⟩

end Utf8

/-! ## JSON string escapes -/

/-- The lower-case hexadecimal digit of a number below sixteen. -/
def hexByte (d : Nat) : UInt8 := UInt8.ofNat (if d < 10 then 48 + d else 87 + d)

/-- One character of a string as it stands between JSON quotes. -/
def escapeByte (b : UInt8) : Bytes :=
  if b = 0x08 then utf8 "\\b"
  else if b = 0x09 then utf8 "\\t"
  else if b = 0x0A then utf8 "\\n"
  else if b = 0x0C then utf8 "\\f"
  else if b = 0x0D then utf8 "\\r"
  else if b = 0x22 then utf8 "\\\""
  else if b = 0x5C then utf8 "\\\\"
  else if b < 0x20 then utf8 "\\u00" ++ [hexByte (b.toNat / 16), hexByte (b.toNat % 16)]
  else [b]

/-- U+FFFD in UTF-8. -/
def replacement : Bytes := [0xEF, 0xBF, 0xBD]

/-- `escape` from inside a character whose octets so far are `p`. An octet that cannot go on
with the open character closes it with a replacement and is read again as a first octet. -/
def escapeFrom : Utf8.State → Bytes → Bytes → Bytes
  | q, _, [] => if q = .start then [] else replacement
  | .start, _, b :: s =>
    match Utf8.first b with
    | some .start => escapeByte b ++ escapeFrom .start [] s
    | some q => escapeFrom q [b] s
    | none => replacement ++ escapeFrom .start [] s
  | q, p, b :: s =>
    match Utf8.step q b with
    | some .start => p ++ b :: escapeFrom .start [] s
    | some q' => escapeFrom q' (p ++ [b]) s
    | none =>
      match Utf8.first b with
      | some .start => replacement ++ escapeByte b ++ escapeFrom .start [] s
      | some q' => replacement ++ escapeFrom q' [b] s
      | none => replacement ++ replacement ++ escapeFrom .start [] s

/-- The text of a string between JSON quotes. -/
def escape (s : Bytes) : Bytes := escapeFrom .start [] s

/-- An octet above the ASCII range is written as it is. -/
theorem escapeByte_of_ge {b : UInt8} (h : 0x80 ≤ b) : escapeByte b = [b] := by
  have hb : 128 ≤ b.toNat := UInt8.le_iff_toNat_le.1 h
  have key : ∀ c : UInt8, c.toNat < 128 → b ≠ c := by rintro c hc rfl; omega
  have hlt : ¬ b < 0x20 := by
    intro hl
    have h32 : b.toNat < 32 := UInt8.lt_iff_toNat_lt.1 hl
    omega
  unfold escapeByte
  rw [if_neg (key _ (by decide)), if_neg (key _ (by decide)), if_neg (key _ (by decide)),
    if_neg (key _ (by decide)), if_neg (key _ (by decide)), if_neg (key _ (by decide)),
    if_neg (key _ (by decide)), if_neg hlt]

/-- A valid text is escaped byte by byte. -/
theorem escapeFrom_of_valid {s : Bytes} : ∀ {q : Utf8.State} {p : Bytes},
    Utf8.ValidFrom q s → (q = .start → p = []) →
    escapeFrom q p s = p ++ s.flatMap escapeByte := by
  induction s with
  | nil => intro q p h hp; cases h; simp [escapeFrom, hp rfl]
  | cons b s ih =>
    rintro q p ⟨q', hq, hs⟩ hp
    rw [List.flatMap_cons]
    by_cases hstart : q = .start
    · subst hstart
      rw [hp rfl, escapeFrom]
      rw [Utf8.step] at hq
      by_cases hq' : q' = .start
      · subst hq'
        simp only [hq]
        rw [ih hs (fun _ => rfl), List.nil_append, List.nil_append]
      · have hb := escapeByte_of_ge (Utf8.ge_of_first hq' hq)
        have := ih hs (p := [b]) (fun h => absurd h hq')
        rw [hb]
        cases q' with
        | start => exact absurd rfl hq'
        | tail1 | tail2 | tail3 | afterE0 | afterED | afterF0 | afterF4 =>
          simp only [hq]
          rw [this, List.nil_append]
    · have hb := escapeByte_of_ge (Utf8.ge_of_step hstart hq)
      rw [hb, List.singleton_append]
      have hfrom : escapeFrom q p (b :: s) =
          match q' with
          | .start => p ++ b :: escapeFrom .start [] s
          | q' => escapeFrom q' (p ++ [b]) s := by
        rw [escapeFrom.eq_def]
        cases q <;> first | exact absurd rfl hstart | (cases q' <;> simp [hq])
      rw [hfrom]
      cases q' with
      | start => simp only; rw [ih hs (fun _ => rfl), List.nil_append]
      | tail1 | tail2 | tail3 | afterE0 | afterED | afterF0 | afterF4 =>
        simp only
        rw [ih hs (fun h => by cases h), List.append_assoc, List.singleton_append]

/-- A well-formed string is escaped character by character, with no replacement. -/
theorem escape_of_valid {s : Bytes} (h : Utf8.Valid s) : escape s = s.flatMap escapeByte := by
  rw [escape, escapeFrom_of_valid h (fun _ => rfl), List.nil_append]

/-- Bytes beyond ASCII need no escape. -/
theorem flatMap_escapeByte_of_ge {p : Bytes} (h : ∀ b ∈ p, 0x80 ≤ b) :
    p.flatMap escapeByte = p := by
  induction p with
  | nil => rfl
  | cons b p ih =>
    rw [List.flatMap_cons, escapeByte_of_ge (h b (by simp)), ih fun c hc => h c (by simp [hc])]
    rfl

/-- The replacement character needs no escape. -/
theorem flatMap_escapeByte_replacement : replacement.flatMap escapeByte = replacement :=
  flatMap_escapeByte_of_ge (by decide +kernel)

/-- What is escaped is some text, escaped byte by byte. -/
theorem exists_escapeFrom (q : Utf8.State) (p s : Bytes) (hp : ∀ b ∈ p, 0x80 ≤ b) :
    ∃ t : Bytes, escapeFrom q p s = t.flatMap escapeByte := by
  have hsingle : ∀ {b : UInt8} {q' : Utf8.State}, (q' = .start → False) → Utf8.first b = some q' →
      ∀ c ∈ [b], 0x80 ≤ c := by
    intro b q' hq hb c hc
    rw [List.mem_singleton.1 hc]
    exact Utf8.ge_of_first hq hb
  fun_induction escapeFrom q p s with
  | case1 => exact ⟨[], rfl⟩
  | case2 => exact ⟨replacement, flatMap_escapeByte_replacement.symm⟩
  | case3 p b s hb ih =>
    obtain ⟨t, ht⟩ := ih (by simp)
    exact ⟨b :: t, by rw [ht, List.flatMap_cons]⟩
  | case4 p b s q hq hb ih => exact ih (hsingle hq hb)
  | case5 p b s hb ih =>
    obtain ⟨t, ht⟩ := ih (by simp)
    exact ⟨replacement ++ t, by rw [ht, List.flatMap_append, flatMap_escapeByte_replacement]⟩
  | case6 q p b s hq hb ih =>
    obtain ⟨t, ht⟩ := ih (by simp)
    refine ⟨p ++ b :: t, ?_⟩
    rw [ht, List.flatMap_append, List.flatMap_cons, flatMap_escapeByte_of_ge hp,
      escapeByte_of_ge (Utf8.ge_of_step hq hb), List.singleton_append]
  | case7 q p b s hq q' hs hb ih =>
    refine ih fun c hc => ?_
    rcases List.mem_append.1 hc with hc | hc
    · exact hp c hc
    · rw [List.mem_singleton.1 hc]
      exact Utf8.ge_of_step hq hb
  | case8 q p b s hq hb hf ih =>
    obtain ⟨t, ht⟩ := ih (by simp)
    refine ⟨replacement ++ b :: t, ?_⟩
    rw [ht, List.flatMap_append, List.flatMap_cons, flatMap_escapeByte_replacement,
      List.append_assoc]
  | case9 q p b s hq hb q' hs hf ih =>
    obtain ⟨t, ht⟩ := ih (hsingle hs hf)
    exact ⟨replacement ++ t, by rw [ht, List.flatMap_append, flatMap_escapeByte_replacement]⟩
  | case10 q p b s hq hb hf ih =>
    obtain ⟨t, ht⟩ := ih (by simp)
    refine ⟨replacement ++ replacement ++ t, ?_⟩
    rw [ht, List.flatMap_append, List.flatMap_append, flatMap_escapeByte_replacement]

/-- Whatever its octets, a string is escaped like some string that needs no replacement. -/
theorem exists_escape (s : Bytes) : ∃ t : Bytes, escape s = t.flatMap escapeByte :=
  exists_escapeFrom .start [] s (by simp)

end Lib
