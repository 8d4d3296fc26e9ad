import VppJsonGateway.Lib.Json

/-!
# Reading JSON text

`Json.parse` reads a text the way the C++ JSON library does with exceptions turned off: a
byte order mark is skipped, a NUL octet where a token is expected ends the input, repeated
keys keep the last value, an integer that fits 64 bits stays an integer and every other number
is handed to `strtod`, a parameter. `Json.parse_dump` is the round trip: the compact text of a
value reads back as the value, up to the kind of its integers.
-/

namespace Lib

namespace Json

/-- The text after leading JSON whitespace. -/
def skipWs : Bytes → Bytes
  | [] => []
  | b :: s => if b = 0x20 ∨ b = 0x09 ∨ b = 0x0A ∨ b = 0x0D then skipWs s else b :: s

/-- The value of a hexadecimal digit. -/
def hexVal (b : UInt8) : Option Nat :=
  if isDigit b then some (b.toNat - 48)
  else if 97 ≤ b.toNat ∧ b.toNat ≤ 102 then some (b.toNat - 87)
  else if 65 ≤ b.toNat ∧ b.toNat ≤ 70 then some (b.toNat - 55)
  else none

/-- The code unit of four hexadecimal digits. -/
def hex4 (a b c d : UInt8) : Option Nat := do
  some ((((← hexVal a) * 16 + (← hexVal b)) * 16 + (← hexVal c)) * 16 + (← hexVal d))

/-- A code point in UTF-8. -/
def encodeChar (n : Nat) : Bytes :=
  if n < 0x80 then [UInt8.ofNat n]
  else if n < 0x800 then [UInt8.ofNat (0xC0 + n / 64), UInt8.ofNat (0x80 + n % 64)]
  else if n < 0x10000 then
    [UInt8.ofNat (0xE0 + n / 4096), UInt8.ofNat (0x80 + n / 64 % 64), UInt8.ofNat (0x80 + n % 64)]
  else
    [UInt8.ofNat (0xF0 + n / 262144), UInt8.ofNat (0x80 + n / 4096 % 64),
      UInt8.ofNat (0x80 + n / 64 % 64), UInt8.ofNat (0x80 + n % 64)]

/-- The character a one-letter escape stands for. -/
def simpleEscape (e : UInt8) : Option UInt8 :=
  if e = 34 then some 34
  else if e = 92 then some 92
  else if e = 47 then some 47
  else if e = 98 then some 8
  else if e = 102 then some 12
  else if e = 110 then some 10
  else if e = 114 then some 13
  else if e = 116 then some 9
  else none

/-- A string after its opening quote: its value, and the text after the closing quote. -/
def parseString : Utf8.State → Bytes → Option (Bytes × Bytes)
  | _, [] => none
  | q, b :: s =>
    if q = .start ∧ b = 34 then some ([], s)
    else if q = .start ∧ b = 92 then
      match s with
      | [] => none
      | e :: s =>
        if e = 117 then
          match s with
          | a :: b :: c :: d :: s =>
            match hex4 a b c d with
            | none => none
            | some n =>
              if 0xD800 ≤ n ∧ n ≤ 0xDBFF then
                match s with
                | x :: y :: a :: b :: c :: d :: s =>
                  match hex4 a b c d with
                  | none => none
                  | some l =>
                    if x = 92 ∧ y = 117 ∧ 0xDC00 ≤ l ∧ l ≤ 0xDFFF then
                      (parseString .start s).map fun p =>
                        (encodeChar (0x10000 + (n - 0xD800) * 1024 + (l - 0xDC00)) ++ p.1, p.2)
                    else none
                | _ => none
              else if 0xDC00 ≤ n ∧ n ≤ 0xDFFF then none
              else (parseString .start s).map fun p => (encodeChar n ++ p.1, p.2)
          | _ => none
        else
          match simpleEscape e with
          | none => none
          | some c => (parseString .start s).map fun p => (c :: p.1, p.2)
    else if q = .start ∧ b < 0x20 then none
    else
      match Utf8.step q b with
      | none => none
      | some q' => (parseString q' s).map fun p => (b :: p.1, p.2)

/-- The value of a number token. -/
def numberValue (strtod : Bytes → Option Double) (t : Bytes) (isFloat : Bool) : Option Json :=
  if isFloat then (strtod t).map .float
  else if t.head? = some 45 then
    if digitsVal t.tail ≤ 2 ^ 63 then some (.int (-(digitsVal t.tail : Int)))
    else (strtod t).map .float
  else if digitsVal t < 2 ^ 64 then some (.uint (digitsVal t))
  else (strtod t).map .float

/-- A literal name or a number. -/
def parseScalar (strtod : Bytes → Option Double) (s : Bytes) : Option (Json × Bytes) :=
  if utf8 "null" <+: s then some (.null, s.drop 4)
  else if utf8 "true" <+: s then some (.bool true, s.drop 4)
  else if utf8 "false" <+: s then some (.bool false, s.drop 5)
  else do
    let (t, fl, r) ← scanNumber s
    some (← numberValue strtod t fl, r)

mutual

/-- One value and the text after it. -/
def parseValue (strtod : Bytes → Option Double) : Nat → Bytes → Option (Json × Bytes)
  | 0, _ => none
  | fuel + 1, s =>
    match skipWs s with
    | [] => none
    | b :: s =>
      if b = 123 then
        match skipWs s with
        | [] => none
        | c :: r => if c = 125 then some (.obj [], r) else parseMembers strtod fuel [] (c :: r)
      else if b = 91 then
        match skipWs s with
        | [] => none
        | c :: r =>
          if c = 93 then some (.arr [], r)
          else (parseItems strtod fuel (c :: r)).map fun p => (.arr p.1, p.2)
      else if b = 34 then (parseString .start s).map fun p => (.str p.1, p.2)
      else parseScalar strtod (b :: s)

/-- One or more elements, up to the closing bracket. -/
def parseItems (strtod : Bytes → Option Double) : Nat → Bytes → Option (List Json × Bytes)
  | 0, _ => none
  | fuel + 1, s =>
    match parseValue strtod fuel s with
    | none => none
    | some (x, r) =>
      match skipWs r with
      | [] => none
      | c :: r =>
        if c = 44 then (parseItems strtod fuel r).map fun p => (x :: p.1, p.2)
        else if c = 93 then some ([x], r)
        else none

/-- One or more members, up to the closing brace, added to the map `m`. -/
def parseMembers (strtod : Bytes → Option Double) :
    Nat → List (Bytes × Json) → Bytes → Option (Json × Bytes)
  | 0, _, _ => none
  | fuel + 1, m, s =>
    match skipWs s with
    | [] => none
    | b :: s =>
      if b = 34 then
        match parseString .start s with
        | none => none
        | some (k, r) =>
          match skipWs r with
          | [] => none
          | c :: r =>
            if c = 58 then
              match parseValue strtod fuel r with
              | none => none
              | some (v, r) =>
                match skipWs r with
                | [] => none
                | c :: r =>
                  if c = 44 then parseMembers strtod fuel (setKey k v m) r
                  else if c = 125 then some (.obj (setKey k v m), r)
                  else none
            else none
      else none

end

/-- The text without a leading byte order mark. -/
def skipBom : Bytes → Bytes
  | a :: b :: c :: s => if a = 0xEF ∧ b = 0xBB ∧ c = 0xBF then s else a :: b :: c :: s
  | s => s

/-- The value of a whole text; none when the text is not one JSON value. -/
def parse (strtod : Bytes → Option Double) (text : Bytes) : Option Json :=
  match parseValue strtod (text.length + 1) (skipBom text) with
  | none => none
  | some (j, r) =>
    match skipWs r with
    | [] => some j
    | b :: _ => if b = 0 then some j else none

/-! ## Strings read back -/

/-- A byte of a string that needs no escape is taken as it is. -/
theorem parseString_cons_of_step {q q' : Utf8.State} {b : UInt8} {s : Bytes}
    (h34 : q = .start → b ≠ 34) (h92 : q = .start → b ≠ 92) (h20 : q = .start → ¬ b < 0x20)
    (h : Utf8.step q b = some q') :
    parseString q (b :: s) = (parseString q' s).map fun p => (b :: p.1, p.2) := by
  rw [parseString.eq_def]
  simp only
  rw [if_neg (fun hc => h34 hc.1 hc.2), if_neg (fun hc => h92 hc.1 hc.2),
    if_neg (fun hc => h20 hc.1 hc.2), h]

/-- A short escape stands for its character. -/
theorem parseString_simple {e c : UInt8} {s : Bytes} (he : e ≠ 117)
    (h : simpleEscape e = some c) :
    parseString .start (92 :: e :: s) = (parseString .start s).map fun p => (c :: p.1, p.2) := by
  rw [parseString.eq_def]
  simp [he, h]

/-- A hexadecimal digit is read as it is written. -/
theorem hexVal_hexByte {d : Nat} (h : d < 16) : hexVal (hexByte d) = some d := by
  interval_cases d <;> rfl

/-- A control character is read from its escape. -/
theorem parseString_control {b : UInt8} {s : Bytes} (h : b < 0x20) :
    parseString .start
        (utf8 "\\u00" ++ [hexByte (b.toNat / 16), hexByte (b.toNat % 16)] ++ s) =
      (parseString .start s).map fun p => (b :: p.1, p.2) := by
  have hb : b.toNat < 32 := UInt8.lt_iff_toNat_lt.1 h
  have h4 : hex4 48 48 (hexByte (b.toNat / 16)) (hexByte (b.toNat % 16)) = some b.toNat := by
    have h0 : hexVal 48 = some 0 := rfl
    simp only [hex4, h0, hexVal_hexByte (show b.toNat / 16 < 16 by omega),
      hexVal_hexByte (show b.toNat % 16 < 16 by omega), Option.bind_eq_bind, Option.bind_some,
      Option.some.injEq]
    omega
  have henc : encodeChar b.toNat = [b] := by
    rw [encodeChar, if_pos (by omega), UInt8.ofNat_toNat]
  show parseString .start (92 :: 117 :: 48 :: 48 :: hexByte (b.toNat / 16) ::
    hexByte (b.toNat % 16) :: s) = _
  rw [parseString.eq_def]
  simp only [h4, henc]
  rw [if_neg (by decide), if_pos (by decide), if_pos trivial, if_neg (by omega), if_neg (by omega)]
  rfl

/-- One escaped ASCII character reads back. -/
theorem parseString_escapeByte {b : UInt8} {s : Bytes} (h : b ≤ 0x7F) :
    parseString .start (escapeByte b ++ s) =
      (parseString .start s).map fun p => (b :: p.1, p.2) := by
  have hstep : Utf8.step .start b = some .start := Utf8.first_of_ascii h
  unfold escapeByte
  split
  · next hb => subst hb; exact parseString_simple (by decide) rfl
  split
  · next hb => subst hb; exact parseString_simple (by decide) rfl
  split
  · next hb => subst hb; exact parseString_simple (by decide) rfl
  split
  · next hb => subst hb; exact parseString_simple (by decide) rfl
  split
  · next hb => subst hb; exact parseString_simple (by decide) rfl
  split
  · next hb => subst hb; exact parseString_simple (by decide) rfl
  split
  · next hb => subst hb; exact parseString_simple (by decide) rfl
  split
  · next hb => exact parseString_control hb
  · next h34 h92 h20 =>
    exact parseString_cons_of_step (fun _ => h34) (fun _ => h92) (fun _ => h20) hstep

/-- A string is read back from its escapes. -/
theorem parseString_flatMap_escapeByte {s r : Bytes} : ∀ {q : Utf8.State}, Utf8.ValidFrom q s →
    parseString q (s.flatMap escapeByte ++ 34 :: r) = some (s, r) := by
  induction s with
  | nil => intro q h; cases h; rw [List.flatMap_nil, List.nil_append, parseString.eq_def]; simp
  | cons b s ih =>
    rintro q ⟨q', hq, hs⟩
    rw [List.flatMap_cons, List.append_assoc]
    have hih := ih hs
    by_cases hascii : b ≤ 0x7F
    · have hstart : q = .start := by
        by_contra hne
        have hge : 128 ≤ b.toNat := UInt8.le_iff_toNat_le.1 (Utf8.ge_of_step hne hq)
        have hle : b.toNat ≤ 127 := UInt8.le_iff_toNat_le.1 hascii
        omega
      subst hstart
      have : q' = .start := by
        have h := Utf8.first_of_ascii hascii
        rw [Utf8.step, h] at hq
        cases hq
        rfl
      subst this
      rw [parseString_escapeByte hascii, hih]
      rfl
    · have hgt : 127 < b.toNat := UInt8.lt_iff_toNat_lt.1 (UInt8.not_le.1 hascii)
      have hge : 0x80 ≤ b := UInt8.le_iff_toNat_le.2 hgt
      have hne : ∀ c : UInt8, c.toNat < 128 → b ≠ c := by rintro c hc rfl; omega
      have h20 : ¬ b < 0x20 := by
        intro hl
        have : b.toNat < 32 := UInt8.lt_iff_toNat_lt.1 hl
        omega
      rw [escapeByte_of_ge hge, List.singleton_append,
        parseString_cons_of_step (fun _ => hne _ (by decide)) (fun _ => hne _ (by decide))
          (fun _ => h20) hq, hih]
      rfl

/-- A quoted well-formed string reads back. -/
theorem parseString_escape {s r : Bytes} (h : Utf8.Valid s) :
    parseString .start (escape s ++ 34 :: r) = some (s, r) := by
  rw [escape_of_valid h]
  exact parseString_flatMap_escapeByte h

/-! ## Values read back -/

/-- An octet that is no JSON whitespace. -/
def NotWs (b : UInt8) : Prop := ¬ (b = 0x20 ∨ b = 0x09 ∨ b = 0x0A ∨ b = 0x0D)

/-- There is nothing to skip in front of anything else. -/
theorem skipWs_cons {b : UInt8} (h : NotWs b) (s : Bytes) : skipWs (b :: s) = b :: s := by
  rw [skipWs, if_neg h]

/-- A digit is no blank. -/
theorem notWs_of_isDigit {b : UInt8} (h : isDigit b = true) : NotWs b := by
  rintro (rfl | rfl | rfl | rfl) <;> exact absurd h (by decide)

/-- A number token starts with a digit or a minus sign. -/
theorem scanNumber_head {s : Bytes} {p : Bytes × Bool × Bytes} (h : scanNumber s = some p) :
    ∃ b u, s = b :: u ∧ (b = 45 ∨ isDigit b = true) := by
  simp only [scanNumber, Option.bind_eq_bind, Option.bind_eq_some_iff] at h
  obtain ⟨q, h1, -⟩ := h
  cases s with
  | nil => simp [scanSign, scanInt] at h1
  | cons b u =>
    refine ⟨b, u, rfl, ?_⟩
    simp only [scanSign] at h1
    split at h1
    · next hb => exact .inl hb
    · simp only [scanInt] at h1
      split at h1
      · next hb => subst hb; exact .inr rfl
      · split at h1
        · next hb => exact .inr hb
        · cases h1

/-- What a number's text does at the head of `parseValue`: it is scanned as a number. -/
theorem parseValue_number {strtod : Bytes → Option Double} {t r : Bytes} {fl : Bool} {j : Json}
    {fuel : Nat} (ht : scanNumber t = some (t, fl, [])) (hj : numberValue strtod t fl = some j)
    (hr : NumEnd r) : parseValue strtod (fuel + 1) (t ++ r) = some (j, r) := by
  have happ := scanNumber_append hr ht
  obtain ⟨b, u, rfl, hb⟩ := scanNumber_head ht
  have hne : ∀ c : UInt8, c ≠ 45 → isDigit c = false → b ≠ c := by
    rintro c h1 h2 rfl
    rcases hb with hb | hb
    · exact h1 hb
    · rw [h2] at hb; cases hb
  have hws : NotWs b := by
    rcases hb with rfl | hb
    · simp [NotWs]
    · exact notWs_of_isDigit hb
  have hpre : ∀ (c : UInt8) (l : Bytes), l.head? = some c → b ≠ c → ¬ l <+: (b :: (u ++ r)) := by
    rintro c l hl hbc ⟨w, hw⟩
    cases l with
    | nil => cases hl
    | cons d l =>
      cases hl
      rw [List.cons_append, List.cons.injEq] at hw
      exact hbc hw.1.symm
  rw [List.cons_append] at happ ⊢
  rw [parseValue.eq_def]
  simp only [skipWs_cons hws]
  rw [if_neg (hne 123 (by decide) (by decide)), if_neg (hne 91 (by decide) (by decide)),
    if_neg (hne 34 (by decide) (by decide)), parseScalar,
    if_neg (hpre 110 _ rfl (hne 110 (by decide) (by decide))),
    if_neg (hpre 116 _ rfl (hne 116 (by decide) (by decide))),
    if_neg (hpre 102 _ rfl (hne 102 (by decide) (by decide))), happ]
  simp [hj]

theorem numEnd_cons {b : UInt8} {r : Bytes} (h : isDigit b = false) (h46 : b ≠ 46)
    (h101 : b ≠ 101) (h69 : b ≠ 69) : NumEnd (b :: r) := by
  intro c hc
  rw [List.head?_cons, Option.mem_some_iff] at hc
  subst hc
  exact ⟨h, h46, h101, h69⟩

/-- A number ends where the next item begins. -/
theorem numEnd_dumpItems (l : List Json) (r : Bytes) : NumEnd (dumpItems l ++ r) := by
  cases l with
  | nil => exact numEnd_cons (by decide) (by decide) (by decide) (by decide)
  | cons x xs =>
    rw [dumpItems]
    exact numEnd_cons (by decide) (by decide) (by decide) (by decide)

/-- A number ends where the next member begins. -/
theorem numEnd_dumpMembers (m : List (Bytes × Json)) (r : Bytes) : NumEnd (dumpMembers m ++ r) := by
  cases m with
  | nil => exact numEnd_cons (by decide) (by decide) (by decide) (by decide)
  | cons kv m =>
    rw [dumpMembers]
    exact numEnd_cons (by decide) (by decide) (by decide) (by decide)

theorem length_dumpItems_pos (l : List Json) : 0 < (dumpItems l).length := by
  cases l <;> simp [dumpItems]

theorem length_dumpMembers_pos (m : List (Bytes × Json)) : 0 < (dumpMembers m).length := by
  rw [length_dumpMembers]; omega

/-- The text of a value is not empty. -/
theorem length_dump_pos (j : Json) : 0 < (dump j).length := by
  have hd : ∀ n, 0 < (decimal n).length := fun n => List.length_pos_iff.2 (decimal_ne_nil n)
  cases j with
  | null => decide
  | bool b => cases b <;> decide
  | int i => rw [dump, decimalInt]; split <;> simp [hd]
  | uint n => exact hd n
  | float d =>
    obtain ⟨b, u, hb, -⟩ := scanNumber_head d.isToken
    rw [dump, hb]
    simp
  | str s => simp [dump, quote]
  | arr l => cases l <;> simp [dump]
  | obj m =>
    cases m with
    | nil => simp [dump]
    | cons kv m => simp [dump]

/-- The first octet of a value's text is no white space, no closing bracket and no part of a
byte order mark. -/
theorem dump_head (j : Json) :
    ∃ b u, dump j = b :: u ∧ NotWs b ∧ b ≠ 93 ∧ b ≠ 0xEF := by
  have hd : ∀ n, ∃ b u, decimal n = b :: u ∧ NotWs b ∧ b ≠ 93 ∧ b ≠ 0xEF := by
    intro n
    cases h : decimal n with
    | nil => exact absurd h (decimal_ne_nil n)
    | cons b u =>
      have hb : isDigit b = true := isDigit_of_mem_decimal (n := n) (by simp [h])
      refine ⟨b, u, rfl, notWs_of_isDigit hb, ?_, ?_⟩ <;>
      · rintro rfl; exact absurd hb (by decide)
  cases j with
  | null => exact ⟨110, _, rfl, by simp [NotWs], by decide, by decide⟩
  | bool b =>
    cases b with
    | true => exact ⟨116, _, rfl, by simp [NotWs], by decide, by decide⟩
    | false => exact ⟨102, _, rfl, by simp [NotWs], by decide, by decide⟩
  | int i =>
    rw [dump, decimalInt]
    split
    · exact ⟨45, _, rfl, by simp [NotWs], by decide, by decide⟩
    · exact hd _
  | uint n => exact hd n
  | float d =>
    obtain ⟨b, u, hb, hb'⟩ := scanNumber_head d.isToken
    refine ⟨b, u, by rw [dump, hb], ?_⟩
    rcases hb' with rfl | hb'
    · exact ⟨by simp [NotWs], by decide, by decide⟩
    · refine ⟨notWs_of_isDigit hb', ?_, ?_⟩ <;>
      · rintro rfl; exact absurd hb' (by decide)
  | str s => exact ⟨34, _, by rw [dump, quote], by simp [NotWs], by decide, by decide⟩
  | arr l =>
    cases l with
    | nil => exact ⟨91, _, by rw [dump], by simp [NotWs], by decide, by decide⟩
    | cons x xs => exact ⟨91, _, by rw [dump], by simp [NotWs], by decide, by decide⟩
  | obj m =>
    cases m with
    | nil => exact ⟨123, _, by rw [dump], by simp [NotWs], by decide, by decide⟩
    | cons kv m => exact ⟨123, _, by rw [dump], by simp [NotWs], by decide, by decide⟩

/-- A number of 64 bits is read as an unsigned one. -/
theorem numberValue_decimal {strtod : Bytes → Option Double} {n : Nat} (h : n < 2 ^ 64) :
    numberValue strtod (decimal n) false = some (.uint n) := by
  have h45 : (decimal n).head? ≠ some 45 := by
    intro he
    exact absurd (isDigit_of_mem_decimal (List.mem_of_mem_head? he)) (by decide)
  simp only [numberValue, Bool.false_eq_true, if_false, if_neg h45, digitsVal_decimal, if_pos h]

/-- A negative number of 64 bits is read as a signed one. -/
theorem numberValue_neg {strtod : Bytes → Option Double} {i : Int} (hi : i < 0)
    (h : -2 ^ 63 ≤ i) : numberValue strtod (45 :: decimal i.natAbs) false = some (.int i) := by
  have hle : i.natAbs ≤ 2 ^ 63 := by omega
  have hneg : -(i.natAbs : Int) = i := by omega
  simp only [numberValue, Bool.false_eq_true, if_false, List.head?_cons, if_true, List.tail_cons,
    digitsVal_decimal, if_pos hle, hneg]

section
variable {strtod : Bytes → Option Double}

/-- The reading of a text is the value, in front of any text that ends a number. -/
def ReadsBack (strtod : Bytes → Option Double) (j : Json) : Prop :=
  ∀ fuel r, (dump j).length ≤ fuel → NumEnd r →
    parseValue strtod fuel (dump j ++ r) = some (norm j, r)

/-- Items are read back if each is. -/
theorem parseItems_dump {xs : List Json} (hxs : ∀ x ∈ xs, ReadsBack strtod x) :
    ∀ {x : Json}, ReadsBack strtod x → ∀ (fuel : Nat) (r : Bytes),
      (dump x).length + (dumpItems xs).length ≤ fuel →
      parseItems strtod fuel (dump x ++ (dumpItems xs ++ r)) =
        some (norm x :: xs.map norm, r) := by
  induction xs with
  | nil =>
    intro x hx fuel r hf
    have hpos := length_dumpItems_pos []
    obtain ⟨f, rfl⟩ : ∃ f, fuel = f + 1 := ⟨fuel - 1, by omega⟩
    rw [parseItems, hx f _ (by omega) (numEnd_dumpItems [] r)]
    simp only [dumpItems, List.singleton_append]
    rw [skipWs_cons (by simp [NotWs])]
    simp
  | cons y ys ih =>
    intro x hx fuel r hf
    have hlen : (dumpItems (y :: ys)).length = 1 + (dump y).length + (dumpItems ys).length := by
      simp only [dumpItems, List.length_cons, List.length_append]; omega
    have hposx := length_dump_pos x
    obtain ⟨f, rfl⟩ : ∃ f, fuel = f + 1 := ⟨fuel - 1, by omega⟩
    rw [parseItems, hx f _ (by omega) (numEnd_dumpItems (y :: ys) r)]
    simp only [dumpItems, List.cons_append]
    rw [skipWs_cons (by simp [NotWs])]
    simp only [if_true, List.append_assoc]
    rw [ih (fun z hz => hxs z (by simp [hz])) (hxs y (by simp)) f r (by omega)]
    rfl

/-- Members are read back, in the order of their names, if each value is. -/
theorem parseMembers_dump {m : List (Bytes × Json)}
    (hm : ∀ kv ∈ m, Utf8.Valid kv.1 ∧ ReadsBack strtod kv.2) :
    ∀ {k : Bytes} {v : Json} {o : List (Bytes × Json)}, Utf8.Valid k → ReadsBack strtod v →
      Sorted (o ++ (k, v) :: m) → ∀ (fuel : Nat) (r : Bytes),
      (quote k).length + (dump v).length + (dumpMembers m).length ≤ fuel →
      parseMembers strtod fuel o (quote k ++ 58 :: (dump v ++ (dumpMembers m ++ r))) =
        some (.obj (o ++ (k, norm v) :: m.map fun kv => (kv.1, norm kv.2)), r) := by
  induction m with
  | nil =>
    intro k v o hk hv hs fuel r hf
    have hq : (quote k).length = (escape k).length + 2 := by simp [quote]
    have hpos := length_dumpMembers_pos []
    obtain ⟨f, rfl⟩ : ∃ f, fuel = f + 1 := ⟨fuel - 1, by omega⟩
    have hlt : ∀ kv ∈ o, kv.1 < k := fun kv hkv =>
      (List.pairwise_append.1 hs).2.2 kv hkv (k, v) (by simp)
    rw [parseMembers, quote]
    simp only [List.cons_append]
    rw [skipWs_cons (by simp [NotWs])]
    simp only [if_true, List.append_assoc, List.singleton_append, parseString_escape hk]
    rw [skipWs_cons (by simp [NotWs])]
    simp only [if_true]
    rw [hv f _ (by omega) (numEnd_dumpMembers [] r)]
    simp only [dumpMembers, List.singleton_append]
    rw [skipWs_cons (by simp [NotWs])]
    simp [setKey_of_forall_lt _ hlt]
  | cons kv m ih =>
    intro k v o hk hv hs fuel r hf
    obtain ⟨k', v'⟩ := kv
    have hq : (quote k).length = (escape k).length + 2 := by simp [quote]
    have hlen : (dumpMembers ((k', v') :: m)).length =
        2 + (quote k').length + (dump v').length + (dumpMembers m).length := by
      simp only [dumpMembers, List.length_cons, List.length_append]; omega
    rw [hlen] at hf
    have hposv := length_dump_pos v
    obtain ⟨f, rfl⟩ : ∃ f, fuel = f + 1 := ⟨fuel - 1, by omega⟩
    have hlt : ∀ kv ∈ o, kv.1 < k := fun kv hkv =>
      (List.pairwise_append.1 hs).2.2 kv hkv (k, v) (by simp)
    have hs' : Sorted ((o ++ [(k, norm v)]) ++ (k', v') :: m) := by
      have hmap : ∀ l : List (Bytes × Json), Sorted l ↔ (l.map Prod.fst).Pairwise (· < ·) := by
        intro l; rw [List.pairwise_map]; rfl
      rw [hmap] at hs ⊢
      simpa using hs
    rw [parseMembers, quote]
    simp only [List.cons_append]
    rw [skipWs_cons (by simp [NotWs])]
    simp only [if_true, List.append_assoc, List.singleton_append, parseString_escape hk]
    rw [skipWs_cons (by simp [NotWs])]
    simp only [if_true]
    rw [hv f _ (by omega) (numEnd_dumpMembers _ r)]
    simp only [dumpMembers, List.cons_append]
    rw [skipWs_cons (by simp [NotWs])]
    simp only [if_true, List.append_assoc, List.cons_append]
    have hkv : Utf8.Valid k' ∧ ReadsBack strtod v' := hm (k', v') (by simp)
    rw [setKey_of_forall_lt _ hlt, ih (fun z hz => hm z (by simp [hz])) hkv.1 hkv.2 hs' f r (by omega)]
    simp

/-- A value that is good is read back as it is printed. -/
theorem readsBack_of_good (j : Json) :
    Good strtod j → ReadsBack strtod j := by
  induction j using Json.ind with
  | null =>
    intro _ fuel r hf _
    obtain ⟨f, rfl⟩ : ∃ f, fuel = f + 1 := ⟨fuel - 1, by have := length_dump_pos .null; omega⟩
    rfl
  | bool b =>
    intro _ fuel r hf _
    obtain ⟨f, rfl⟩ : ∃ f, fuel = f + 1 := ⟨fuel - 1, by have := length_dump_pos (.bool b); omega⟩
    cases b <;> rfl
  | int i =>
    intro hg fuel r hf hr
    obtain ⟨f, rfl⟩ : ∃ f, fuel = f + 1 := ⟨fuel - 1, by have := length_dump_pos (.int i); omega⟩
    rw [Good] at hg
    simp only [dump, decimalInt, norm]
    split
    · next hi =>
      rw [if_neg (by omega)]
      exact parseValue_number (scanNumber_neg_decimal _) (numberValue_neg hi hg.1) hr
    · next hi =>
      rw [if_pos (by omega)]
      exact parseValue_number (scanNumber_decimal _) (numberValue_decimal (by omega)) hr
  | uint n =>
    intro hg fuel r hf hr
    obtain ⟨f, rfl⟩ : ∃ f, fuel = f + 1 := ⟨fuel - 1, by have := length_dump_pos (.uint n); omega⟩
    exact parseValue_number (scanNumber_decimal n) (numberValue_decimal hg) hr
  | float d =>
    intro hg fuel r hf hr
    obtain ⟨f, rfl⟩ : ∃ f, fuel = f + 1 := ⟨fuel - 1, by have := length_dump_pos (.float d); omega⟩
    exact parseValue_number d.isToken (by rw [numberValue, if_pos rfl, dump, hg]; rfl) hr
  | str s =>
    intro hg fuel r hf hr
    obtain ⟨f, rfl⟩ : ∃ f, fuel = f + 1 := ⟨fuel - 1, by have := length_dump_pos (.str s); omega⟩
    simp only [dump, quote, List.cons_append, List.append_assoc, norm]
    rw [parseValue, skipWs_cons (by simp [NotWs])]
    simp [parseString_escape hg]
  | arr l ih =>
    intro hg fuel r hf hr
    obtain ⟨f, rfl⟩ : ∃ f, fuel = f + 1 := ⟨fuel - 1, by have := length_dump_pos (.arr l); omega⟩
    rw [good_arr] at hg
    cases l with
    | nil => rfl
    | cons x xs =>
      obtain ⟨b, u, hb, hws, h93, -⟩ := dump_head x
      have hxs : ∀ y ∈ xs, ReadsBack strtod y := fun y hy =>
        ih y (by simp [hy]) (hg y (by simp [hy]))
      have hitems := parseItems_dump hxs (ih x (by simp) (hg x (by simp))) f r
        (by simp only [dump, List.length_cons, List.length_append] at hf; omega)
      rw [hb, List.cons_append] at hitems
      simp only [dump, List.cons_append, List.append_assoc, hb]
      rw [parseValue, skipWs_cons (by simp [NotWs])]
      simp only [skipWs_cons hws]
      rw [if_neg (by decide), if_pos trivial, if_neg h93, hitems]
      simp [norm, normItems_eq_map]
  | obj m ih =>
    intro hg fuel r hf hr
    obtain ⟨f, rfl⟩ : ∃ f, fuel = f + 1 := ⟨fuel - 1, by have := length_dump_pos (.obj m); omega⟩
    rw [good_obj] at hg
    cases m with
    | nil => rfl
    | cons kv m =>
      obtain ⟨k, v⟩ := kv
      have hkv : Utf8.Valid k ∧ Good strtod v := hg.2 (k, v) (by simp)
      have hv : ReadsBack strtod v := ih (k, v) (by simp) hkv.2
      have hm : ∀ y ∈ m, Utf8.Valid y.1 ∧ ReadsBack strtod y.2 := fun y hy =>
        ⟨(hg.2 y (by simp [hy])).1, ih y (by simp [hy]) (hg.2 y (by simp [hy])).2⟩
      have hmem := parseMembers_dump hm (o := []) hkv.1 hv hg.1 f r
        (by simp only [dump, List.length_cons, List.length_append] at hf; omega)
      simp only [quote, List.cons_append] at hmem
      simp only [dump, quote, List.cons_append, List.append_assoc] at hmem ⊢
      rw [parseValue, skipWs_cons (by simp [NotWs])]
      simp only [if_true]
      rw [skipWs_cons (by simp [NotWs])]
      simp only
      rw [if_neg (by decide), hmem]
      simp [norm, normMembers_eq_map, norm.normMembers]

/-- **Parsing undoes dumping**, up to the kind of integers. -/
theorem parse_dump {j : Json} (h : Good strtod j) :
    parse strtod (dump j) = some (norm j) := by
  have hbom : skipBom (dump j) = dump j := by
    obtain ⟨b, u, hb, -, -, hef⟩ := dump_head j
    rw [hb]
    unfold skipBom
    split
    · next heq =>
      cases heq
      exact if_neg fun h => hef h.1
    · rfl
  have hread := readsBack_of_good j h ((dump j).length + 1) [] (by omega) (by simp [NumEnd])
  rw [List.append_nil] at hread
  rw [parse, hbom, hread]
  rfl

end

end Json

end Lib
