import VppJsonGateway.Lib.JsonGrammar
import VppJsonGateway.RoundTrip

/-!
# The nesting guard

`CheckNesting` scans a text without parsing it. On a text of the grammar it counts the containers
that are open, octet by octet; and it stops any other text before a parser could get deeper than
the limit.
-/

namespace VppJson

open Lib Grammar

namespace Nesting

/-! ## The scan of a derivation -/

/-- From the level of a marked text, the scan gets through a first part of it where its marks are
within the limit, and through all of it to the same level. -/
structure Scans (d : Nat) (m : Marked) : Prop where
  within : ∀ k, (run { depth := d } (Marked.text (m.take k))).isSome = true ↔
    ∀ x ∈ m.take k, x.2 ≤ 32
  back : (∀ x ∈ m, x.2 ≤ 32) → run { depth := d } m.text = some { depth := d }

/-- A text that is within the bound is so from its start on. -/
theorem isSome_run_append {s : Nesting} {x y : Bytes} (h : (s.run (x ++ y)).isSome = true) :
    (s.run x).isSome = true := by
  rw [run_append] at h
  cases hrun : s.run x with
  | none =>
    rw [hrun] at h
    cases h
  | some t => rfl

variable {d : Nat} {m m' : Marked}

/-- One piece after the other. -/
theorem Scans.append (h : Scans d m) (h' : Scans d m') : Scans d (m ++ m') where
  within := by
    intro k
    rw [List.take_append, Marked.text_append]
    constructor
    · intro hsome
      have hfirst := (h.within k).1 (isSome_run_append hsome)
      refine List.forall_mem_append.2 ⟨hfirst, ?_⟩
      by_cases hk : k ≤ m.length
      · rw [Nat.sub_eq_zero_of_le hk]
        simp
      · rw [List.take_of_length_le (not_le.1 hk).le] at hfirst hsome
        rw [run_append, h.back hfirst] at hsome
        exact (h'.within _).1 hsome
    · intro hall
      obtain ⟨hfirst, hrest⟩ := List.forall_mem_append.1 hall
      by_cases hk : k ≤ m.length
      · rw [Nat.sub_eq_zero_of_le hk]
        simpa using (h.within k).2 hfirst
      · rw [List.take_of_length_le (not_le.1 hk).le] at hfirst ⊢
        rw [run_append, h.back hfirst]
        exact (h'.within _).2 hrest
  back := by
    intro hall
    obtain ⟨hfirst, hrest⟩ := List.forall_mem_append.1 hall
    rw [Marked.text_append, run_append, h.back hfirst]
    exact h'.back hrest

/-- A text inside the same containers, where the scan comes back to its level. -/
theorem Scans.flat {s : Bytes} (hd : d ≤ 32) (h : run { depth := d } s = some { depth := d }) :
    Scans d (.flat d s) where
  within := by
    intro k
    have hmarks : ∀ x ∈ (Marked.flat d s).take k, x.2 ≤ 32 := by
      intro x hx
      obtain ⟨b, -, rfl⟩ := List.mem_map.1 (List.mem_of_mem_take hx)
      exact hd
    refine ⟨fun _ => hmarks, fun _ => ?_⟩
    have htake : Marked.text ((Marked.flat d s).take k) = s.take k := by
      rw [show (Marked.flat d s).take k = Marked.flat d (s.take k) from List.map_take.symm,
        Marked.text_flat]
    rw [htake]
    refine isSome_run_append (y := s.drop k) ?_
    rw [List.take_append_drop, h]
    rfl
  back := by
    intro _
    rw [Marked.text_flat]
    exact h

/-- What stands in brackets. -/
theorem Scans.nest {b c : UInt8} (hb : (b = 91 ∧ c = 93) ∨ (b = 123 ∧ c = 125)) (hd : d ≤ 32)
    (h : d + 1 ≤ 32 → Scans (d + 1) m) : Scans d ((b, d + 1) :: (m ++ [(c, d)])) := by
  by_cases hroom : d + 1 ≤ 32
  · have hopen : step { depth := d } b = some { depth := (d + 1 : Nat) } := by
      have hfits : ¬ (d : Int) + 1 > 32 := by omega
      rcases hb with ⟨rfl, -⟩ | ⟨rfl, -⟩ <;> simp [step, hfits]
    have hclose : run { depth := (d + 1 : Nat) } [c] = some { depth := d } := by
      rcases hb with ⟨-, rfl⟩ | ⟨-, rfl⟩ <;> simp [run, step]
    obtain ⟨hwithin, hback⟩ := h hroom
    constructor
    · intro k
      cases k with
      | zero => simp [run]
      | succ k =>
        rw [List.take_succ_cons, Marked.text_cons, run, hopen, Option.bind_some,
          List.forall_mem_cons, List.take_append, Marked.text_append]
        constructor
        · intro hsome
          have hfirst := (hwithin k).1 (isSome_run_append hsome)
          refine ⟨hroom, List.forall_mem_append.2 ⟨hfirst, fun x hx => ?_⟩⟩
          rw [List.mem_singleton.1 (List.mem_of_mem_take hx)]
          exact hd
        · rintro ⟨-, hall⟩
          obtain ⟨hfirst, -⟩ := List.forall_mem_append.1 hall
          by_cases hk : k ≤ m.length
          · rw [Nat.sub_eq_zero_of_le hk]
            simpa using (hwithin k).2 hfirst
          · rw [List.take_of_length_le (not_le.1 hk).le] at hfirst ⊢
            rw [run_append, hback hfirst, Option.bind_some]
            refine isSome_run_append (y := Marked.text ([(c, d)].drop (k - m.length))) ?_
            rw [← Marked.text_append, List.take_append_drop]
            simpa using congrArg Option.isSome hclose
    · intro hall
      obtain ⟨-, hall⟩ := List.forall_mem_cons.1 hall
      rw [Marked.text_cons, run, hopen, Option.bind_some, Marked.text_append, run_append,
        hback (List.forall_mem_append.1 hall).1]
      exact hclose
  · -- The opening bracket is one too many.
    have hopen : step { depth := d } b = none := by
      have hfull : (d : Int) + 1 > 32 := by omega
      rcases hb with ⟨rfl, -⟩ | ⟨rfl, -⟩ <;> simp [step, hfull]
    constructor
    · intro k
      cases k with
      | zero => simp [run]
      | succ k =>
        rw [List.take_succ_cons, Marked.text_cons, run, hopen, List.forall_mem_cons]
        exact ⟨fun h => (by cases h), fun h => absurd h.1 hroom⟩
    · exact fun hall => absurd (List.forall_mem_cons.1 hall).1 hroom

/-! ## Tokens -/

/-- Blanks do not count. -/
theorem run_space {s : Bytes} (h : IsSpace s) (d : Int) :
    run { depth := d } s = some { depth := d } := by
  induction s with
  | nil => rfl
  | cons b s ih =>
    have hstep : step { depth := d } b = some { depth := d } := by
      rcases h b List.mem_cons_self with rfl | rfl | rfl | rfl <;> rfl
    rw [run, hstep]
    exact ih fun c hc => h c (List.mem_cons_of_mem _ hc)

/-- Nothing within a string counts. -/
theorem run_piece {s : Bytes} (h : Piece s) (d : Int) :
    run { depth := d, quoted := true } s = some { depth := d, quoted := true } := by
  cases h with
  | octet hprint hquote hslash => exact run_quoted_plain (by simpa using ⟨hquote, hslash⟩)
  | escape he => rfl
  | @unicode a b c e h =>
    have hne : ∀ x ∈ [a, b, c, e], x ≠ 34 ∧ x ≠ 92 := by
      intro x hx
      have hhex := h x hx
      refine ⟨?_, ?_⟩
      · rintro rfl
        cases hhex
      · rintro rfl
        cases hhex
    exact run_quoted_plain (s := [a, b, c, e]) hne

/-- So a string leaves the depth. -/
theorem run_string {s : Bytes} (h : IsString s) (d : Int) :
    run { depth := d } s = some { depth := d } := by
  obtain ⟨pieces, hpieces, -, rfl⟩ := h
  have hbody : run { depth := d, quoted := true } pieces.flatten =
      some { depth := d, quoted := true } := by
    induction pieces with
    | nil => rfl
    | cons p pieces ih =>
      obtain ⟨hp, hrest⟩ := List.forall_mem_cons.1 hpieces
      rw [List.flatten_cons, run_append, run_piece hp]
      exact ih hrest
  rw [run, show step { depth := d } 34 = some { depth := d, quoted := true } from rfl,
    Option.bind_some, run_append, hbody]
  rfl

/-- A number consists of digits, signs, points and exponents. -/
theorem isNumByte_of_isNumber {s : Bytes} (h : IsNumber s) : ∀ b ∈ s, isNumByte b = true := by
  have hdigits : ∀ {t : Bytes}, IsDigits t → ∀ b ∈ t, isNumByte b = true :=
    fun h b hb => isNumByte_of_isDigit (h.2 b hb)
  obtain ⟨sign, i, f, e, hsign, hi, hf, he, rfl⟩ := h
  simp only [List.forall_mem_append]
  refine ⟨⟨⟨?_, ?_⟩, ?_⟩, ?_⟩
  · rcases hsign with rfl | rfl
    · simp
    · exact List.forall_mem_singleton.2 rfl
  · rcases hi with rfl | ⟨hi, -⟩
    · exact List.forall_mem_singleton.2 rfl
    · exact hdigits hi
  · rcases hf with rfl | ⟨ds, hds, rfl⟩
    · simp
    · exact List.forall_mem_cons.2 ⟨rfl, hdigits hds⟩
  · rcases he with rfl | ⟨c, sign, ds, hc, hsign, hds, rfl⟩
    · simp
    · refine List.forall_mem_cons.2 ⟨?_, List.forall_mem_append.2 ⟨?_, hdigits hds⟩⟩
      · rcases hc with rfl | rfl <;> rfl
      · rcases hsign with rfl | rfl | rfl
        · simp
        · exact List.forall_mem_singleton.2 rfl
        · exact List.forall_mem_singleton.2 rfl

/-- A value without containers leaves the depth. -/
theorem run_scalar {s : Bytes} (h : IsScalar s) (d : Int) :
    run { depth := d } s = some { depth := d } := by
  rcases h with rfl | rfl | rfl | h | h
  · exact run_plain (by decide +kernel)
  · exact run_plain (by decide +kernel)
  · exact run_plain (by decide +kernel)
  · exact run_string h d
  · exact run_plain fun b hb => Json.isPlainByte_of_isNumByte (isNumByte_of_isNumber h b hb)

/-- So does a key. -/
theorem run_key {s : Bytes} (h : IsKey s) (d : Int) :
    run { depth := d } s = some { depth := d } := by
  obtain ⟨before, key, after, hbefore, hkey, hafter, rfl⟩ := h
  rw [run_append, run_append, run_append, run_space hbefore, Option.bind_some, run_string hkey,
    Option.bind_some, run_space hafter]
  rfl

/-- **The scan counts the containers of a derivation.** -/
theorem scans_of_derives {k : Kind} (h : Derives k d m) : d ≤ 32 → Scans d m := by
  induction h with
  | scalar h => exact fun hd => .flat hd (run_scalar h _)
  | emptyArray h => exact fun hd => .nest (.inl ⟨rfl, rfl⟩) hd fun hd => .flat hd (run_space h _)
  | array h ih => exact fun hd => .nest (.inl ⟨rfl, rfl⟩) hd ih
  | emptyObject h => exact fun hd => .nest (.inr ⟨rfl, rfl⟩) hd fun hd => .flat hd (run_space h _)
  | object h ih => exact fun hd => .nest (.inr ⟨rfl, rfl⟩) hd ih
  | element hbefore h hafter ih =>
    exact fun hd => ((Scans.flat hd (run_space hbefore _)).append (ih hd)).append
      (.flat hd (run_space hafter _))
  | item h ih => exact ih
  | @items d m m' h h' ih ih' =>
    intro hd
    have hcomma : Scans d (.flat d [44]) := .flat hd rfl
    exact (ih hd).append (hcomma.append (ih' hd))
  | member hkey h ih => exact fun hd => (Scans.flat hd (run_key hkey _)).append (ih hd)
  | @members d key m m' hkey h h' ih ih' =>
    intro hd
    have hcomma : Scans d (.flat d [44]) := .flat hd rfl
    exact ((Scans.flat hd (run_key hkey _)).append (ih hd)).append (hcomma.append (ih' hd))

/-! ## The parser behind the guard -/

section

variable {strtod : Bytes → Option Double} {s r : Bytes}

/-- The scan goes on behind a derivation at the level it had before. -/
theorem run_derives {k : Kind} (hm : Derives k d m) (hd : d ≤ 32)
    (h : (run { depth := d } (m.text ++ r)).isSome = true) :
    run { depth := d } (m.text ++ r) = run { depth := d } r := by
  have hscans := scans_of_derives hm hd
  have hmarks := (hscans.within m.length).1 (by rw [List.take_length]; exact isSome_run_append h)
  rw [List.take_length] at hmarks
  rw [run_append, hscans.back hmarks, Option.bind_some]

/-- Blanks may be skipped first. -/
theorem run_skipWs (s : Bytes) (d : Int) :
    run { depth := d } s = run { depth := d } (Json.skipWs s) := by
  obtain ⟨ws, hws, hs⟩ := Json.isSpace_skipWs s
  calc run { depth := d } s = run { depth := d } (ws ++ Json.skipWs s) := by rw [← hs]
    _ = run { depth := d } (Json.skipWs s) := by
      rw [run_append, run_space hws, Option.bind_some]

/-- A value that the parser reads is counted up and down again, or ends the guard at its bound. -/
theorem run_parseValue {fuel : Nat} {j : Json} (h : Json.parseValue strtod fuel s = some (j, r))
    (hd : d ≤ 32) (hrun : (run { depth := d } s).isSome = true) :
    (run { depth := d } r).isSome = true := by
  obtain ⟨ws, m, hws, hm, rfl⟩ := (Json.derives_of_parsers strtod fuel).1 s j r h d
  rw [List.append_assoc, run_append, run_space hws, Option.bind_some] at hrun
  rw [← run_derives hm hd hrun]
  exact hrun

/-- A string that the parser reads leaves the depth. -/
theorem run_parseString {v : Bytes} (h : Json.parseString .start s = some (v, r)) (d : Int) :
    run { depth := d } (34 :: s) = run { depth := d } r := by
  obtain ⟨body, hbody, rfl⟩ := Json.isString_of_parseString h
  rw [show 34 :: (body ++ 34 :: r) = 34 :: (body ++ [34]) ++ r by simp, run_append,
    run_string hbody, Option.bind_some]

/-- Where the scan gets through a text, the parser does not get deeper than the limit. -/
theorem nested_le (strtod : Bytes → Option Double) (fuel : Nat) :
    (∀ (s : Bytes) (d : Nat), d ≤ 32 → (run { depth := d } s).isSome = true →
      d + Json.nestedValue strtod fuel s ≤ 32) ∧
    (∀ (s : Bytes) (d : Nat), d ≤ 32 → (run { depth := d } s).isSome = true →
      d + Json.nestedItems strtod fuel s ≤ 32) ∧
    ∀ (s : Bytes) (d : Nat), d ≤ 32 → (run { depth := d } s).isSome = true →
      d + Json.nestedMembers strtod fuel s ≤ 32 := by
  induction fuel with
  | zero =>
    simp only [Json.nestedValue, Json.nestedItems, Json.nestedMembers, Nat.add_zero]
    exact ⟨fun _ _ hd _ => hd, fun _ _ hd _ => hd, fun _ _ hd _ => hd⟩
  | succ fuel ih =>
    obtain ⟨ihValue, ihItems, ihMembers⟩ := ih
    -- An opening bracket that the scan gets past leaves room, and the scan goes on behind it.
    have hopen : ∀ {b : UInt8} {s : Bytes} {d : Nat}, b = 123 ∨ b = 91 →
        (run { depth := d } (b :: s)).isSome = true →
        d + 1 ≤ 32 ∧ (run { depth := (d + 1 : Nat) } (Json.skipWs s)).isSome = true := by
      intro b s d hb hrun
      by_cases hroom : d + 1 ≤ 32
      · have hstep : step { depth := d } b = some { depth := (d + 1 : Nat) } := by
          have hfits : ¬ (d : Int) + 1 > 32 := by omega
          rcases hb with rfl | rfl <;> simp [step, hfits]
        rw [run, hstep, Option.bind_some, run_skipWs] at hrun
        exact ⟨hroom, hrun⟩
      · have hstep : step { depth := d } b = none := by
          have hfull : (d : Int) + 1 > 32 := by omega
          rcases hb with rfl | rfl <;> simp [step, hfull]
        rw [run, hstep] at hrun
        cases hrun
    -- Behind a value, a comma is followed by the rest of the list.
    have hcomma : ∀ {s r r' : Bytes} {j : Json} {d : Nat}, d ≤ 32 →
        (run { depth := d } s).isSome = true → Json.parseValue strtod fuel s = some (j, r) →
        Json.skipWs r = 44 :: r' → (run { depth := d } r').isSome = true := by
      intro s r r' j d hd hrun hvalue hskip
      have hbehind := run_parseValue hvalue hd hrun
      rw [run_skipWs, hskip] at hbehind
      exact hbehind
    refine ⟨?_, ?_, ?_⟩
    · intro s d hd hrun
      rw [run_skipWs] at hrun
      rw [Json.nestedValue]
      split
      · exact hd
      next b s' hskip =>
      rw [hskip] at hrun
      split_ifs with hobject harray
      · obtain ⟨hroom, hrest⟩ := hopen (.inl hobject) hrun
        split
        · exact hroom
        next c r hskip' =>
        split_ifs
        · exact hroom
        · rw [hskip'] at hrest
          have := ihMembers _ _ hroom hrest
          omega
      · obtain ⟨hroom, hrest⟩ := hopen (.inr harray) hrun
        split
        · exact hroom
        next c r hskip' =>
        split_ifs
        · exact hroom
        · rw [hskip'] at hrest
          have := ihItems _ _ hroom hrest
          omega
      · exact hd
    · intro s d hd hrun
      rw [Json.nestedItems, ← Nat.add_max_add_left]
      refine max_le (ihValue s d hd hrun) ?_
      split
      · exact hd
      next x r hx =>
      split
      · exact hd
      next c r' hskip =>
      split_ifs with hc
      · subst hc
        exact ihItems _ _ hd (hcomma hd hrun hx hskip)
      · exact hd
    · intro s d hd hrun
      rw [run_skipWs] at hrun
      rw [Json.nestedMembers]
      split
      · exact hd
      next b s' hskip =>
      rw [hskip] at hrun
      split_ifs with hquote
      · subst hquote
        split
        · exact hd
        next k r hk =>
        rw [run_parseString hk, run_skipWs] at hrun
        split
        · exact hd
        next c r' hskip' =>
        rw [hskip'] at hrun
        split_ifs with hcolon
        · subst hcolon
          have hvalue : (run { depth := d } r').isSome = true := hrun
          rw [← Nat.add_max_add_left]
          refine max_le (ihValue r' d hd hvalue) ?_
          split
          · exact hd
          next x r₁ hx =>
          split
          · exact hd
          next c' r₂ hskip'' =>
          split_ifs with hc
          · subst hc
            exact ihMembers _ _ hd (hcomma hd hvalue hx hskip'')
          · exact hd
        · exact hd
      · exact hd

end

end Nesting

/-! ## The guard -/

/-- The guard accepts what is counted to the end. -/
theorem checkNesting_ok (t : Bytes) :
    (checkNesting t).ok = (Nesting.run {} t).isSome := by
  unfold checkNesting
  cases Nesting.run {} t with
  | none => rfl
  | some s => rfl

/-- **The nesting guard.** A JSON text passes if and only if no octet of it is inside more than 32
containers. When any text passes, no first part of it that a JSON text goes on from is inside more
than 32 containers, and the parser does not get deeper before it stops, with any fuel. -/
theorem nesting_guard (t : Bytes) :
    (∀ m, IsText m → m.text = t → ((checkNesting t).ok = true ↔ ∀ x ∈ m, x.2 ≤ 32)) ∧
      ((checkNesting t).ok = true →
        (∀ s rest m, s <+: t → IsText m → m.text = s ++ rest → ∀ x ∈ m.take s.length, x.2 ≤ 32) ∧
          ∀ strtod fuel, Json.nested strtod fuel t ≤ 32) := by
  have hscans : ∀ {m : Marked}, IsText m → Nesting.Scans 0 m := fun h =>
    Nesting.scans_of_derives h (Nat.zero_le _)
  rw [checkNesting_ok]
  refine ⟨?_, fun hok => ⟨?_, ?_⟩⟩
  · rintro m hm rfl
    have hall := (hscans hm).within m.length
    rw [List.take_length] at hall
    exact hall
  · intro s rest m hs hm htext
    refine ((hscans hm).within s.length).1 ?_
    have htake : Marked.text (m.take s.length) = s := by
      rw [show Marked.text (m.take s.length) = m.text.take s.length from List.map_take, htext,
        List.take_left]
    obtain ⟨tail, rfl⟩ := hs
    rw [htake]
    exact Nesting.isSome_run_append hok
  · intro strtod fuel
    have hskip : (Nesting.run {} (Json.skipBom t)).isSome = true := by
      unfold Json.skipBom
      split
      · split_ifs with hbom
        · obtain ⟨rfl, rfl, rfl⟩ := hbom
          exact hok
        · exact hok
      · exact hok
    have hle := (Nesting.nested_le strtod fuel).1 (Json.skipBom t) 0 (by omega) hskip
    rw [Nat.zero_add] at hle
    exact hle

end VppJson
