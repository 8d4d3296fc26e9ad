import VppJsonGateway.Lib.Utf8
import Mathlib.Data.List.TakeWhile

/-!
# JSON values and their compact text

`Json` has the value kinds a C++ JSON library keeps apart: signed and unsigned integers are
two kinds, and a floating-point number is known by the text it prints as. An object is the
list of its members in key order, as an ordered map iterates them; `setKey` is the map's
insertion and `Good` says that a value is one such a library can hold. `dump` is the compact
text of a value.
-/

namespace Lib

/-! ## Number tokens -/

/-- The integer part of a number: a single zero, or digits that do not start with one. -/
def scanInt : Bytes → Option (Bytes × Bytes)
  | [] => none
  | b :: s =>
    if b = 48 then some ([48], s)
    else if isDigit b then some ((b :: s).takeWhile isDigit, (b :: s).dropWhile isDigit)
    else none

/-- One or more digits. -/
def scanDigits (s : Bytes) : Option (Bytes × Bytes) :=
  if s.takeWhile isDigit = [] then none else some (s.takeWhile isDigit, s.dropWhile isDigit)

/-- The fraction of a number, if it has one: a point and digits. -/
def scanFrac : Bytes → Option (Bytes × Bytes)
  | [] => some ([], [])
  | b :: s =>
    if b = 46 then (scanDigits s).map fun p => (46 :: p.1, p.2) else some ([], b :: s)

/-- The exponent of a number, if it has one: `e` or `E`, an optional sign and digits. -/
def scanExp : Bytes → Option (Bytes × Bytes)
  | [] => some ([], [])
  | b :: s =>
    if b = 101 ∨ b = 69 then
      match s with
      | [] => none
      | c :: s' =>
        if c = 43 ∨ c = 45 then (scanDigits s').map fun p => (b :: c :: p.1, p.2)
        else (scanDigits (c :: s')).map fun p => (b :: p.1, p.2)
    else some ([], b :: s)

/-- An optional minus sign. -/
def scanSign : Bytes → Bytes × Bytes
  | [] => ([], [])
  | b :: s => if b = 45 then ([45], s) else ([], b :: s)

/-- A number token: its text, whether it has a fraction or an exponent, and what follows. -/
def scanNumber (s : Bytes) : Option (Bytes × Bool × Bytes) := do
  let (i, r) ← scanInt (scanSign s).2
  let (f, r) ← scanFrac r
  let (e, r) ← scanExp r
  some ((scanSign s).1 ++ i ++ f ++ e, decide (f ++ e ≠ []), r)

/-- No number token goes on with the text `r`. -/
def NumEnd (r : Bytes) : Prop :=
  ∀ b ∈ r.head?, isDigit b = false ∧ b ≠ 46 ∧ b ≠ 101 ∧ b ≠ 69

/-- Digits end where the number does. -/
theorem takeWhile_append_numEnd {s r : Bytes} (hr : NumEnd r) :
    (s ++ r).takeWhile isDigit = s.takeWhile isDigit := by
  induction s with
  | nil =>
    cases r with
    | nil => rfl
    | cons b r => simp [(hr b (by simp)).1]
  | cons a s ih =>
    rw [List.cons_append, List.takeWhile_cons, List.takeWhile_cons, ih]

/-- What follows the digits is what follows the number. -/
theorem dropWhile_append_numEnd {s r : Bytes} (hr : NumEnd r) :
    (s ++ r).dropWhile isDigit = s.dropWhile isDigit ++ r := by
  induction s with
  | nil =>
    cases r with
    | nil => rfl
    | cons b r => simp [(hr b (by simp)).1]
  | cons a s ih =>
    rw [List.cons_append, List.dropWhile_cons, List.dropWhile_cons, ih]
    split <;> rfl

/-- What follows a number does not change its whole part. -/
theorem scanInt_append {s r : Bytes} {p : Bytes × Bytes} (hr : NumEnd r)
    (h : scanInt s = some p) : scanInt (s ++ r) = some (p.1, p.2 ++ r) := by
  cases s with
  | nil => cases h
  | cons b s =>
    have ht := takeWhile_append_numEnd (s := b :: s) hr
    have hd := dropWhile_append_numEnd (s := b :: s) hr
    simp only [List.cons_append] at ht hd
    simp only [List.cons_append, scanInt] at h ⊢
    split at h
    · next hb => cases h; simp [hb]
    · next hb =>
      split at h
      · next hg => cases h; simp [hb, hg, ht, hd]
      · cases h

/-- So it is with digits. -/
theorem scanDigits_append {s r : Bytes} {p : Bytes × Bytes} (hr : NumEnd r)
    (h : scanDigits s = some p) : scanDigits (s ++ r) = some (p.1, p.2 ++ r) := by
  unfold scanDigits at h ⊢
  rw [takeWhile_append_numEnd hr, dropWhile_append_numEnd hr]
  split at h
  · cases h
  · next hne => cases h; rw [if_neg hne]

/-- So it is with a fraction. -/
theorem scanFrac_append {s r : Bytes} {p : Bytes × Bytes} (hr : NumEnd r)
    (h : scanFrac s = some p) : scanFrac (s ++ r) = some (p.1, p.2 ++ r) := by
  cases s with
  | nil =>
    cases h
    cases r with
    | nil => rfl
    | cons b r => simp [scanFrac, (hr b (by simp)).2.1]
  | cons b s =>
    simp only [List.cons_append, scanFrac] at h ⊢
    split at h
    · next hb =>
      obtain ⟨q, hq, rfl⟩ := Option.map_eq_some_iff.1 h
      rw [if_pos hb, scanDigits_append hr hq]
      rfl
    · next hb => cases h; rw [if_neg hb]; rfl

/-- So it is with an exponent. -/
theorem scanExp_append {s r : Bytes} {p : Bytes × Bytes} (hr : NumEnd r)
    (h : scanExp s = some p) : scanExp (s ++ r) = some (p.1, p.2 ++ r) := by
  cases s with
  | nil =>
    cases h
    cases r with
    | nil => rfl
    | cons b r =>
      have hb := (hr b (by simp)).2.2
      simp [scanExp, hb.1, hb.2]
  | cons b s =>
    simp only [List.cons_append, scanExp] at h ⊢
    split at h
    · next hb =>
      rw [if_pos hb]
      cases s with
      | nil => cases h
      | cons c s =>
        simp only [List.cons_append] at h ⊢
        split at h
        · next hc =>
          obtain ⟨q, hq, rfl⟩ := Option.map_eq_some_iff.1 h
          rw [if_pos hc, scanDigits_append hr hq]
          rfl
        · next hc =>
          obtain ⟨q, hq, rfl⟩ := Option.map_eq_some_iff.1 h
          have := scanDigits_append hr hq
          rw [List.cons_append] at this
          rw [if_neg hc, this]
          rfl
    · next hb => cases h; rw [if_neg hb]; rfl

/-- A whole number token is found again in front of a text that does not go on with it. -/
theorem scanNumber_append {s r : Bytes} {t : Bytes} {fl : Bool} {u : Bytes} (hr : NumEnd r)
    (h : scanNumber s = some (t, fl, u)) : scanNumber (s ++ r) = some (t, fl, u ++ r) := by
  unfold scanNumber at h ⊢
  simp only [Option.bind_eq_bind, Option.bind_eq_some_iff] at h
  obtain ⟨⟨i, r₁⟩, h1, ⟨f, r₂⟩, h2, ⟨e, r₃⟩, h3, h4⟩ := h
  have hs : scanSign (s ++ r) = ((scanSign s).1, (scanSign s).2 ++ r) := by
    cases s with
    | nil => simp [scanSign, scanInt] at h1
    | cons b s => simp only [List.cons_append, scanSign]; split <;> rfl
  simp only [Option.some.injEq, Prod.mk.injEq] at h4
  obtain ⟨rfl, rfl, rfl⟩ := h4
  simp only [hs, scanInt_append hr h1, Option.bind_eq_bind, Option.bind_some,
    scanFrac_append hr h2, scanExp_append hr h3]

/-- A decimal is scanned to its end. -/
theorem scanNumber_decimal (n : Nat) : scanNumber (decimal n) = some (decimal n, false, []) := by
  have hall : ∀ b ∈ decimal n, isDigit b = true := fun b hb => isDigit_of_mem_decimal hb
  cases hd : decimal n with
  | nil => exact absurd hd (decimal_ne_nil n)
  | cons b s =>
    rw [hd] at hall
    have hb45 : b ≠ 45 := by
      rintro rfl
      exact absurd (hall 45 (by simp)) (by decide)
    have hint : scanInt (b :: s) = some (b :: s, []) := by
      rw [scanInt]
      split
      · next hb => subst hb; rw [decimal_head_ne_zero hd]
      · rw [if_pos (hall b (by simp)), List.takeWhile_eq_self_iff.2 hall,
          List.dropWhile_eq_nil_iff.2 hall]
    simp [scanNumber, scanSign, hb45, hint, scanFrac, scanExp]

/-- So is a negative one. -/
theorem scanNumber_neg_decimal (n : Nat) :
    scanNumber (45 :: decimal n) = some (45 :: decimal n, false, []) := by
  have h := scanNumber_decimal n
  cases hd : decimal n with
  | nil => exact absurd hd (decimal_ne_nil n)
  | cons b s =>
    rw [hd] at h
    have hb45 : b ≠ 45 := by
      rintro rfl
      exact absurd (isDigit_of_mem_decimal (n := n) (b := 45) (by simp [hd])) (by decide)
    simp only [scanNumber, scanSign, if_neg hb45, if_true] at h ⊢
    simp only [Option.bind_eq_bind, Option.bind_eq_some_iff] at h ⊢
    obtain ⟨p, h1, q, h2, e, h3, h4⟩ := h
    refine ⟨p, h1, q, h2, e, h3, ?_⟩
    simp only [Option.some.injEq, Prod.mk.injEq, List.nil_append] at h4
    obtain ⟨ht, hf, hr⟩ := h4
    simp only [Option.some.injEq, Prod.mk.injEq, List.cons_append, List.nil_append]
    exact ⟨by rw [ht], hf, hr⟩

/-- A finite floating-point number, known by the text it prints as: a number token with a
fraction or an exponent. -/
structure Double where
  text : Bytes
  isToken : scanNumber text = some (text, true, [])
  deriving DecidableEq

/-! ## Values -/

/-- A JSON value. Object members are in key order. -/
inductive Json where
  | null
  | bool (b : Bool)
  | int (i : Int)
  | uint (n : Nat)
  | float (d : Double)
  | str (s : Bytes)
  | arr (l : List Json)
  | obj (m : List (Bytes × Json))

namespace Json

instance : Inhabited Json := ⟨.null⟩

/-- Induction over a value with the hypotheses per element and per member. -/
theorem ind {P : Json → Prop} (null : P .null) (bool : ∀ b, P (.bool b)) (int : ∀ i, P (.int i))
    (uint : ∀ n, P (.uint n)) (float : ∀ d, P (.float d)) (str : ∀ s, P (.str s))
    (arr : ∀ l, (∀ x ∈ l, P x) → P (.arr l)) (obj : ∀ m, (∀ kv ∈ m, P kv.2) → P (.obj m)) :
    ∀ j, P j :=
  @Json.rec P (fun l => ∀ x ∈ l, P x) (fun m => ∀ kv ∈ m, P kv.2) (fun kv => P kv.2) null bool int uint float str arr obj
    (by simp) (fun _ _ hx hl => by simpa using ⟨hx, hl⟩)
    (by simp) (fun _ _ hx hl => by simpa using ⟨hx, by simpa using hl⟩) (fun _ _ h => h)

/-! ## Objects -/

/-- The value at key `k` of a member list. -/
def find (k : Bytes) : List (Bytes × Json) → Option Json
  | [] => none
  | (k', v) :: m => if k = k' then some v else find k m

/-- Insertion into the ordered map, replacing what the key held. -/
def setKey (k : Bytes) (v : Json) : List (Bytes × Json) → List (Bytes × Json)
  | [] => [(k, v)]
  | (k', v') :: m =>
    if k = k' then (k, v) :: m
    else if k < k' then (k, v) :: (k', v') :: m
    else (k', v') :: setKey k v m

/-- Removal from the ordered map. -/
def eraseKey (k : Bytes) (m : List (Bytes × Json)) : List (Bytes × Json) :=
  m.filter fun kv => kv.1 ≠ k

/-- The object with the given members. -/
def object (m : List (Bytes × Json)) : Json := .obj (m.foldl (fun o kv => setKey kv.1 kv.2 o) [])

/-- The member at key `k`; none when there is none or the value is no object. -/
def get? (k : Bytes) : Json → Option Json
  | .obj m => find k m
  | _ => none

/-- Whether an object has a member at key `k`. -/
def contains (k : Bytes) (j : Json) : Bool := (j.get? k).isSome

/-- The object with the member at `k` set; other values are left as they are. -/
def set : Json → Bytes → Json → Json
  | .obj m, k, v => .obj (setKey k v m)
  | j, _, _ => j

/-- The object without the member at `k`. -/
def erase (k : Bytes) : Json → Json
  | .obj m => .obj (eraseKey k m)
  | j => j

/-- Whether the value is an object. -/
def isObject : Json → Bool
  | .obj _ => true
  | _ => false

/-- The string of a string value. -/
def str? : Json → Option Bytes
  | .str s => some s
  | _ => none

/-- The number of an unsigned value. -/
def uint? : Json → Option Nat
  | .uint n => some n
  | _ => none

/-- The number of elements or members; a scalar counts as one, null as none. -/
def size : Json → Nat
  | .null => 0
  | .arr l => l.length
  | .obj m => m.length
  | _ => 1

@[simp] theorem get?_obj (k : Bytes) (m : List (Bytes × Json)) : (Json.obj m).get? k = find k m := rfl
@[simp] theorem set_obj (k : Bytes) (v : Json) (m : List (Bytes × Json)) :
    (Json.obj m).set k v = .obj (setKey k v m) := rfl
@[simp] theorem isObject_obj (m : List (Bytes × Json)) : (Json.obj m).isObject = true := rfl

/-- An object is made of its members. -/
theorem isObject_iff {j : Json} : j.isObject = true ↔ ∃ m, j = .obj m := by
  cases j <;> simp [isObject]

/-- A key set is found. -/
@[simp] theorem find_setKey_self (k : Bytes) (v : Json) (m : List (Bytes × Json)) :
    find k (setKey k v m) = some v := by
  induction m with
  | nil => simp [setKey, find]
  | cons kv m ih =>
    obtain ⟨k', v'⟩ := kv
    simp only [setKey]
    split
    · simp [find]
    · next h => split <;> simp [find, h, ih]

/-- Setting a key leaves the other keys. -/
theorem find_setKey_of_ne {k k' : Bytes} (h : k ≠ k') (v : Json) (m : List (Bytes × Json)) :
    find k (setKey k' v m) = find k m := by
  induction m with
  | nil => simp [setKey, find, h]
  | cons kv m ih =>
    obtain ⟨k₁, v₁⟩ := kv
    simp only [setKey]
    split
    · next he => subst he; simp [find, h]
    · split
      · simp [find, h]
      · simp [find, ih]

/-- What is found at a key is a member. -/
theorem exists_of_find {k : Bytes} {v : Json} {m : List (Bytes × Json)} (h : find k m = some v) :
    ∃ kv ∈ m, kv.1 = k := by
  induction m with
  | nil => cases h
  | cons kv m ih =>
    obtain ⟨k', v'⟩ := kv
    by_cases hk : k = k'
    · exact ⟨(k', v'), List.mem_cons_self, hk.symm⟩
    · rw [find, if_neg hk] at h
      obtain ⟨kv, hmem, hkv⟩ := ih h
      exact ⟨kv, List.mem_cons_of_mem _ hmem, hkv⟩

/-! ## Order of keys -/

/-- Keys in strictly increasing order. -/
def Sorted (m : List (Bytes × Json)) : Prop := m.Pairwise fun a b => a.1 < b.1

theorem key_lt_trans {a b c : Bytes} (h₁ : a < b) (h₂ : b < c) : a < c := List.lt_trans h₁ h₂

theorem key_lt_irrefl (a : Bytes) : ¬ a < a := List.lt_irrefl a

theorem key_not_lt_of_lt {a b : Bytes} (h : a < b) : ¬ b < a := fun h' =>
  key_lt_irrefl a (key_lt_trans h h')

theorem key_lt_or_lt_of_ne {a b : Bytes} (h : a ≠ b) : a < b ∨ b < a := by
  induction a generalizing b with
  | nil =>
    cases b with
    | nil => exact absurd rfl h
    | cons y b => exact .inl (List.nil_lt_cons y b)
  | cons x a ih =>
    cases b with
    | nil => exact .inr (List.nil_lt_cons x a)
    | cons y b =>
      rw [List.cons_lt_cons_iff, List.cons_lt_cons_iff]
      rcases Nat.lt_trichotomy x.toNat y.toNat with hxy | hxy | hxy
      · exact .inl (.inl (UInt8.lt_iff_toNat_lt.2 hxy))
      · obtain rfl := UInt8.toNat_inj.1 hxy
        rcases ih (fun he => h (by rw [he])) with h' | h'
        · exact .inl (.inr ⟨rfl, h'⟩)
        · exact .inr (.inr ⟨rfl, h'⟩)
      · exact .inr (.inl (UInt8.lt_iff_toNat_lt.2 hxy))

/-- A key above every key of the map goes to its end. -/
theorem setKey_of_forall_lt {k : Bytes} (v : Json) {m : List (Bytes × Json)}
    (h : ∀ kv ∈ m, kv.1 < k) : setKey k v m = m ++ [(k, v)] := by
  induction m with
  | nil => rfl
  | cons kv m ih =>
    obtain ⟨k', v'⟩ := kv
    have hlt : k' < k := h (k', v') (by simp)
    have hne : k ≠ k' := by rintro rfl; exact key_lt_irrefl k hlt
    rw [setKey, if_neg hne, if_neg (key_not_lt_of_lt hlt), ih fun x hx => h x (by simp [hx]),
      List.cons_append]

/-- The keys after an insertion are the new key and the old ones. -/
theorem mem_setKey {k : Bytes} {v : Json} {m : List (Bytes × Json)} {kv : Bytes × Json}
    (h : kv ∈ setKey k v m) : kv = (k, v) ∨ kv ∈ m := by
  induction m with
  | nil => simpa [setKey] using h
  | cons kv' m ih =>
    obtain ⟨k', v'⟩ := kv'
    simp only [setKey] at h
    split at h
    · rcases List.mem_cons.1 h with h | h
      · exact .inl h
      · exact .inr (List.mem_cons_of_mem _ h)
    · split at h
      · exact (List.mem_cons.1 h).imp id id
      · rcases List.mem_cons.1 h with rfl | h
        · exact .inr (by simp)
        · exact (ih h).imp id (List.mem_cons_of_mem _)

/-- Insertion keeps the keys in order. -/
theorem Sorted.setKey {k : Bytes} {v : Json} {m : List (Bytes × Json)} (h : Sorted m) :
    Sorted (setKey k v m) := by
  induction m with
  | nil => simp [Json.setKey, Sorted]
  | cons kv m ih =>
    obtain ⟨k', v'⟩ := kv
    obtain ⟨hlt, hm⟩ := List.pairwise_cons.1 h
    simp only [Json.setKey]
    split
    · next he => exact List.pairwise_cons.2 ⟨fun a ha => he ▸ hlt a ha, hm⟩
    · next hne =>
      split
      · next hk =>
        refine List.pairwise_cons.2 ⟨fun a ha => ?_, h⟩
        rcases List.mem_cons.1 ha with rfl | ha
        · exact hk
        · exact key_lt_trans hk (hlt a ha)
      · next hk =>
        refine List.pairwise_cons.2 ⟨fun a ha => ?_, ih hm⟩
        rcases mem_setKey ha with rfl | ha
        · exact (key_lt_or_lt_of_ne hne).resolve_left hk
        · exact hlt a ha

/-- The other members stay. -/
theorem get?_set_of_ne {k k' : Bytes} (h : k ≠ k') (v : Json) (j : Json) :
    (j.set k' v).get? k = j.get? k := by
  cases j with
  | obj m => exact find_setKey_of_ne h v m
  | _ => rfl

/-! ## Compact text -/

/-- A quoted string. -/
def quote (s : Bytes) : Bytes := 34 :: (escape s ++ [34])

mutual

/-- The compact text of a value. -/
def dump : Json → Bytes
  | .null => utf8 "null"
  | .bool b => if b then utf8 "true" else utf8 "false"
  | .int i => decimalInt i
  | .uint n => decimal n
  | .float d => d.text
  | .str s => quote s
  | .arr [] => [91, 93]
  | .arr (x :: xs) => 91 :: (dump x ++ dumpItems xs)
  | .obj [] => [123, 125]
  | .obj ((k, v) :: m) => 123 :: (quote k ++ 58 :: (dump v ++ dumpMembers m))

/-- The elements after the first, up to the closing bracket. -/
def dumpItems : List Json → Bytes
  | [] => [93]
  | x :: xs => 44 :: (dump x ++ dumpItems xs)

/-- The members after the first, up to the closing brace. -/
def dumpMembers : List (Bytes × Json) → Bytes
  | [] => [125]
  | (k, v) :: m => 44 :: (quote k ++ 58 :: (dump v ++ dumpMembers m))

end

/-- What a member adds to the text of its object: key, colon, value and a separator. -/
def memberLen (kv : Bytes × Json) : Nat := (quote kv.1).length + (dump kv.2).length + 2

/-- Members take their lengths, and a brace. -/
theorem length_dumpMembers (m : List (Bytes × Json)) :
    (dumpMembers m).length = 1 + (m.map memberLen).sum := by
  induction m with
  | nil => rfl
  | cons kv m ih =>
    obtain ⟨k, v⟩ := kv
    simp only [dumpMembers, List.length_cons, List.length_append, ih, List.map_cons,
      List.sum_cons, memberLen]
    omega

/-- The length of an object's text is a sum over its members. -/
theorem length_dump_obj {m : List (Bytes × Json)} (h : m ≠ []) :
    (dump (.obj m)).length = 1 + (m.map memberLen).sum := by
  cases m with
  | nil => exact absurd rfl h
  | cons kv m =>
    obtain ⟨k, v⟩ := kv
    simp only [dump, List.length_cons, List.length_append, length_dumpMembers, List.map_cons,
      List.sum_cons, memberLen]
    omega

theorem setKey_ne_nil (k : Bytes) (v : Json) (m : List (Bytes × Json)) : setKey k v m ≠ [] := by
  cases m with
  | nil => simp [setKey]
  | cons kv m =>
    simp only [setKey]
    split
    · simp
    · split <;> simp

/-- A member more makes the text longer. -/
theorem length_dump_le_setKey {k : Bytes} {v : Json} {m : List (Bytes × Json)} (h : m ≠ [])
    (hk : find k m = none) : (dump (.obj m)).length ≤ (dump (.obj (setKey k v m))).length := by
  have key : ∀ m : List (Bytes × Json), find k m = none →
      (m.map memberLen).sum ≤ ((setKey k v m).map memberLen).sum := by
    intro m
    induction m with
    | nil => exact fun _ => Nat.zero_le _
    | cons kv m ih =>
      obtain ⟨k', v'⟩ := kv
      intro hk
      rw [find] at hk
      split at hk
      · cases hk
      next hne =>
      rw [setKey, if_neg hne]
      split
      · simp only [List.map_cons, List.sum_cons]
        omega
      · have := ih hk
        simp only [List.map_cons, List.sum_cons]
        omega
  rw [length_dump_obj h, length_dump_obj (setKey_ne_nil k v m)]
  have := key m hk
  omega

/-! ## Values the library can hold -/

/-- Integers lie in their 64-bit ranges, strings and keys are well-formed UTF-8, the members of
every object are in key order, and a floating-point number is one that `strtod` reads from the
text it prints as. -/
def Good (strtod : Bytes → Option Double) : Json → Prop
  | .null => True
  | .bool _ => True
  | .int i => -2 ^ 63 ≤ i ∧ i < 2 ^ 63
  | .uint n => n < 2 ^ 64
  | .float d => strtod d.text = some d
  | .str s => Utf8.Valid s
  | .arr l => GoodItems l
  | .obj m => Sorted m ∧ GoodMembers m
where
  /-- `Good` over the elements of an array. -/
  GoodItems : List Json → Prop
    | [] => True
    | x :: xs => Good strtod x ∧ GoodItems xs
  /-- `Good` over the members of an object. -/
  GoodMembers : List (Bytes × Json) → Prop
    | [] => True
    | (k, v) :: m => Utf8.Valid k ∧ Good strtod v ∧ GoodMembers m

section Good

variable {strtod : Bytes → Option Double}

/-- Items are good each by itself. -/
theorem goodItems_iff (l : List Json) : Good.GoodItems strtod l ↔ ∀ x ∈ l, Good strtod x := by
  induction l with
  | nil => simp [Good.GoodItems]
  | cons x xs ih => simp [Good.GoodItems, ih]

/-- So are members. -/
theorem goodMembers_iff (m : List (Bytes × Json)) :
    Good.GoodMembers strtod m ↔ ∀ kv ∈ m, Utf8.Valid kv.1 ∧ Good strtod kv.2 := by
  induction m with
  | nil => simp [Good.GoodMembers]
  | cons kv m ih => obtain ⟨k, v⟩ := kv; simp [Good.GoodMembers, ih, and_assoc]

@[simp] theorem good_arr (l : List Json) : Good strtod (.arr l) ↔ ∀ x ∈ l, Good strtod x := by
  rw [Good, goodItems_iff]

@[simp] theorem good_obj (m : List (Bytes × Json)) :
    Good strtod (.obj m) ↔ Sorted m ∧ ∀ kv ∈ m, Utf8.Valid kv.1 ∧ Good strtod kv.2 := by
  rw [Good, goodMembers_iff]

/-- Setting a key of a good object to a good value keeps it good. -/
theorem Good.set {j : Json} {k : Bytes} {v : Json} (hj : Good strtod j) (hk : Utf8.Valid k)
    (hv : Good strtod v) : Good strtod (j.set k v) := by
  cases j with
  | obj m =>
    rw [good_obj] at hj
    rw [set_obj, good_obj]
    refine ⟨hj.1.setKey, fun kv hkv => ?_⟩
    rcases mem_setKey hkv with rfl | h
    · exact ⟨hk, hv⟩
    · exact hj.2 kv h
  | null | bool | int | uint | float | str | arr => exact hj

/-- An object built from good members is good. -/
theorem good_object {m : List (Bytes × Json)} (h : ∀ kv ∈ m, Utf8.Valid kv.1 ∧ Good strtod kv.2) :
    Good strtod (object m) := by
  have key : ∀ (m o : List (Bytes × Json)), (∀ kv ∈ m, Utf8.Valid kv.1 ∧ Good strtod kv.2) →
      Good strtod (.obj o) → Good strtod (.obj (m.foldl (fun o kv => setKey kv.1 kv.2 o) o)) := by
    intro m
    induction m with
    | nil => intro o _ ho; exact ho
    | cons kv m ih =>
      intro o hm ho
      have hkv := hm kv (by simp)
      exact ih _ (fun x hx => hm x (by simp [hx])) (Good.set ho hkv.1 hkv.2)
  exact key m [] h ((good_obj []).2 ⟨List.Pairwise.nil, by simp⟩)

end Good

/-- The number kind a parser gives: an integer that is not negative is unsigned. Two values
compare equal in the library when their numbers agree, whichever kind holds them. -/
def norm : Json → Json
  | .int i => if 0 ≤ i then .uint i.toNat else .int i
  | .arr l => .arr (normItems l)
  | .obj m => .obj (normMembers m)
  | j => j
where
  /-- `norm` over the elements of an array. -/
  normItems : List Json → List Json
    | [] => []
    | x :: xs => norm x :: normItems xs
  /-- `norm` over the members of an object. -/
  normMembers : List (Bytes × Json) → List (Bytes × Json)
    | [] => []
    | (k, v) :: m => (k, norm v) :: normMembers m

/-- Items are read each by itself. -/
theorem normItems_eq_map (l : List Json) : norm.normItems l = l.map norm := by
  induction l with
  | nil => rfl
  | cons x xs ih => rw [norm.normItems, ih, List.map_cons]

/-- So are members. -/
theorem normMembers_eq_map (m : List (Bytes × Json)) :
    norm.normMembers m = m.map fun kv => (kv.1, norm kv.2) := by
  induction m with
  | nil => rfl
  | cons kv m ih => obtain ⟨k, v⟩ := kv; rw [norm.normMembers, ih, List.map_cons]

/-- Setting a member and normalising commute. -/
theorem norm_set (j : Json) (k : Bytes) (v : Json) : norm (j.set k v) = (norm j).set k (norm v) := by
  have key : ∀ m : List (Bytes × Json), (setKey k v m).map (fun kv => (kv.1, norm kv.2)) =
      setKey k (norm v) (m.map fun kv => (kv.1, norm kv.2)) := by
    intro m
    induction m with
    | nil => rfl
    | cons kv m ih =>
      simp only [setKey, List.map_cons]
      split
      · rfl
      · split
        · rfl
        · rw [List.map_cons, ih]
  cases j with
  | obj m =>
    simp only [set, norm, normMembers_eq_map, key]
  | int i =>
    simp only [set, norm]
    split <;> rfl
  | _ => rfl

/-- Looking a member up and normalising commute. -/
theorem get?_norm (k : Bytes) (j : Json) : (norm j).get? k = (j.get? k).map norm := by
  cases j with
  | obj m =>
    simp only [norm, normMembers_eq_map, get?]
    induction m with
    | nil => rfl
    | cons kv m ih =>
      obtain ⟨k', v⟩ := kv
      simp only [List.map_cons, find]
      split
      · rfl
      · exact ih
  | int i =>
    simp only [norm]
    split <;> rfl
  | _ => rfl

/-- The deepest nesting of containers in a value. -/
def depth : Json → Nat
  | .arr l => 1 + depthItems l
  | .obj m => 1 + depthMembers m
  | _ => 0
where
  /-- `depth` over the elements of an array. -/
  depthItems : List Json → Nat
    | [] => 0
    | x :: xs => max (depth x) (depthItems xs)
  /-- `depth` over the members of an object. -/
  depthMembers : List (Bytes × Json) → Nat
    | [] => 0
    | (_, v) :: m => max (depth v) (depthMembers m)

/-- An item is no deeper than the items. -/
theorem depth_le_depthItems {l : List Json} {x : Json} (h : x ∈ l) :
    depth x ≤ depth.depthItems l := by
  induction l with
  | nil => cases h
  | cons y l ih =>
    rw [depth.depthItems]
    rcases List.mem_cons.1 h with rfl | h
    · exact le_max_left _ _
    · exact (ih h).trans (le_max_right _ _)

/-- A member is no deeper than the members. -/
theorem depth_le_depthMembers {m : List (Bytes × Json)} {kv : Bytes × Json} (h : kv ∈ m) :
    depth kv.2 ≤ depth.depthMembers m := by
  induction m with
  | nil => cases h
  | cons y m ih =>
    obtain ⟨k, v⟩ := y
    rw [depth.depthMembers]
    rcases List.mem_cons.1 h with rfl | h
    · exact le_max_left _ _
    · exact (ih h).trans (le_max_right _ _)

end Json

end Lib
