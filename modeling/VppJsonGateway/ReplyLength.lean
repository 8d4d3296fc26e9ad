import VppJsonGateway.WireFormat

/-!
# The length of a reply

`FixedSize`, `Variable`, `ReplyTail` and `Convert` recurse over the types of a catalog each in
their own way. They agree on the length of a reply: a value of a type that is not variable has the
size of the type (`length_of_shaped`), a value of a type with a tail has that size and the size of
the tail (`length_of_tail`), and so the slice a generated callback takes is the reply
(`length_of_reply`).
-/

namespace VppJson.Schema

open Lib

/-! ## Lengths -/

section Lengths

variable {cat : Catalog}

/-- Items of one length are as long as their number says. -/
theorem length_of_itemsShaped {shaped : Bytes → Prop} {count n : Nat} {b : Bytes}
    (h : ItemsShaped shaped count b) (hn : ∀ p, shaped p → p.length = n) :
    b.length = count * n := by
  obtain ⟨parts, rfl, hall, rfl⟩ := h
  rw [List.length_flatten, List.map_eq_replicate_iff.2 fun p hp => hn p (hall p hp)]
  simp

/-- A type that is no variable one has no part that is. -/
theorem isVariable_primitive (wf : Layouts cat) {fuel : Nat} {name : Bytes} {signed : Bool}
    {width : Nat} (h : scalar? name = some (.int signed width)) (hf : 0 < fuel) :
    isVariable cat fuel name = false := by
  obtain ⟨fuel, rfl⟩ := Nat.exists_eq_succ_of_ne_zero (Nat.pos_iff_ne_zero.1 hf)
  have hne : name ≠ utf8 "string" := by
    rintro rfl
    rw [scalar?_string] at h
    cases h
  have hcat : cat name = none := wf.primitives (by rw [primitiveSize?_of_scalar h]; rfl)
  simp [isVariable, hne, hcat]

/-- A text has no fixed length. -/
theorem isVariable_string (fuel : Nat) : isVariable cat fuel (utf8 "string") = true := by
  cases fuel with
  | zero => rfl
  | succ fuel => simp [isVariable]

/-- The octets of a field that is not variable. -/
theorem length_of_fieldShaped {f : Field} {shaped : Bytes → Bytes → Prop} {size : Bytes → Int}
    {var : Bytes → Bool} {before : List (Field × Bytes)} {p : Bytes}
    (hcount : f.count.isSome → f.length = some 0)
    (hvar : (!f.isFixedString && (f.length = some 0 || var f.type)) = false)
    (hstring : var (utf8 "string") = true)
    (ih : 0 ≤ size f.type → var f.type = false → ∀ p, shaped f.type p → (p.length : Int) = size f.type)
    (hs : 0 ≤ fieldSize f (size f.type)) (h : FieldShaped shaped before f p) :
    (p.length : Int) = fieldSize f (size f.type) := by
  unfold FieldShaped at h
  unfold fieldSize at hs ⊢
  by_cases hfix : f.isFixedString = true
  · rw [if_pos hfix] at h
    have hf : f.type = utf8 "string" ∧ 0 < f.length.getD 0 := by
      simpa [Field.isFixedString] using hfix
    rw [if_neg (by omega), if_pos hf.1, h]
  · rw [if_neg hfix] at h
    simp only [hfix, Bool.not_false, Bool.true_and, Bool.or_eq_false_iff,
      decide_eq_false_iff_not] at hvar
    have hne : f.type ≠ utf8 "string" := by
      intro ht
      rw [ht, hstring] at hvar
      cases hvar.2
    rw [if_neg (fun h => hne h.1), if_neg hne] at hs ⊢
    cases hl : f.length with
    | none =>
      rw [if_neg (by simp [hl])] at h
      simp only [hl, Option.getD_none, Nat.cast_one, mul_one] at hs ⊢
      exact ih hs hvar.2 p h
    | some n =>
      rw [if_pos (by simp [hl, hne])] at h
      obtain ⟨count, hitems, hnone, -⟩ := h
      have hn : n ≠ 0 := by
        rintro rfl
        exact hvar.1 hl
      have hfc : f.count = none := by
        by_contra hsome
        exact hvar.1 (hcount (Option.isSome_iff_ne_none.2 hsome))
      have hcn : count = n := by
        have := hnone hfc
        rw [hl] at this
        exact (Option.some.inj this).symm
      rw [hl] at hs
      simp only [Option.getD_some] at hs ⊢
      have hsize : 0 ≤ size f.type := nonneg_of_mul_nonneg_left hs (by omega)
      have hlen := length_of_itemsShaped (n := (size f.type).toNat) hitems fun q hq => by
        have := ih hsize hvar.2 q hq
        omega
      rw [hlen, hcn]
      push_cast
      rw [Int.toNat_of_nonneg hsize, mul_comm]

/-- Fields of a fixed length all have one. -/
theorem le_of_fieldsSize {size : Bytes → Int} {fs : List Field} : ∀ {acc : Int},
    0 ≤ fieldsSize false size acc fs → ∀ f ∈ fs, 0 ≤ fieldSize f (size f.type) := by
  induction fs with
  | nil => simp
  | cons g fs ih =>
    intro acc h f hf
    simp only [fieldsSize] at h
    split at h
    · omega
    · next hpart =>
      rcases List.mem_cons.1 hf with rfl | hf
      · omega
      · exact ih h f hf

/-- Fields of fixed lengths are as long as they are together. -/
theorem length_of_fieldsShaped {shaped : Bytes → Bytes → Prop} {size : Bytes → Int} {fs : List Field}
    (hparts : ∀ f ∈ fs, 0 ≤ fieldSize f (size f.type) → ∀ before p, FieldShaped shaped before f p →
      (p.length : Int) = fieldSize f (size f.type)) :
    ∀ {acc : Int} {before : List (Field × Bytes)} {b : Bytes}, 0 ≤ fieldsSize false size acc fs →
      FieldsShaped shaped before fs b → acc + b.length = fieldsSize false size acc fs := by
  induction fs with
  | nil =>
    intro acc before b _ h
    rw [show b = [] from h]
    simp [fieldsSize]
  | cons f fs ih =>
    intro acc before b hs h
    obtain ⟨p, rest, rfl, hp, hrest⟩ := h
    have hf := le_of_fieldsSize hs f (by simp)
    simp only [fieldsSize] at hs ⊢
    split at hs
    · omega
    · next hpart =>
      simp only [Bool.false_eq_true, if_false] at hs
      rw [if_neg hpart]
      simp only [Bool.false_eq_true, if_false]
      rw [← ih (fun g hg => hparts g (by simp [hg])) hs hrest,
        ← hparts f (by simp) hf before p hp, List.length_append]
      push_cast
      omega

/-- A value of a type that is not variable has the size of the type. -/
theorem length_of_shaped (wf : Layouts cat) : ∀ {fuel : Nat} {name b : Bytes} {F V : Nat},
    fuel ≤ F → F ≤ levels → fuel ≤ V → 0 ≤ fixedSize cat F name → isVariable cat V name = false →
    Shaped cat fuel name b → (b.length : Int) = fixedSize cat F name
  | 0, _, _, _, _, _, _, _, _, _, h => h.elim
  | fuel + 1, name, b, F, V, hF, hF', hV, hs, hv, h => by
    obtain ⟨F, rfl⟩ := Nat.exists_eq_succ_of_ne_zero (show F ≠ 0 by omega)
    obtain ⟨V, rfl⟩ := Nat.exists_eq_succ_of_ne_zero (show V ≠ 0 by omega)
    have ih : ∀ {type : Bytes}, 0 ≤ fixedSize cat F type → isVariable cat V type = false → ∀ p,
        Shaped cat fuel type p → (p.length : Int) = fixedSize cat F type := fun h1 h2 p hp =>
      length_of_shaped wf (by omega) (by omega) (by omega) h1 h2 hp
    simp only [Shaped] at h
    cases hsc : scalar? name with
    | some s =>
      simp only [hsc] at h
      have hprim := primitiveSize?_of_scalar hsc
      cases hn : s.builtinSize? with
      | some n =>
        have hnone : primitiveSize? name = none := by
          rw [hprim]
          cases s <;> first | rfl | cases hn
        have hcat : (cat name).isSome := by
          by_contra hcat
          rw [Option.not_isSome_iff_eq_none] at hcat
          simp [fixedSize, hnone, hcat] at hs
        have hsize := (wf.builtins hsc hn hcat).1
        rw [← fixedSize_mono hF' hs, hsize]
        cases s <;> simp_all [Scalar.builtinSize?, ScalarShaped]
      | none =>
        have hne : s ≠ .string := by
          rintro rfl
          rw [eq_string_of_scalar hsc] at hv
          simp [isVariable] at hv
        simp only [fixedSize, hprim]
        cases s <;> simp_all [Scalar.builtinSize?, Scalar.primitive?, ScalarShaped]
    | none =>
      simp only [hsc] at h
      have hprim : primitiveSize? name = none := by
        by_contra hp
        obtain ⟨n, hn⟩ := Option.ne_none_iff_exists'.1 hp
        obtain ⟨s, hs', -⟩ := scalar?_of_primitiveSize? hn
        rw [hs'] at hsc
        cases hsc
      have hne : name ≠ utf8 "string" := by
        rintro rfl
        rw [scalar?_string] at hsc
        cases hsc
      cases hc : cat name with
      | none => simp only [hc] at h
      | some d =>
        simp only [hc] at h
        simp only [fixedSize, hprim, hc] at hs ⊢
        simp only [isVariable, if_neg hne, hc] at hv
        cases d with
        | «alias» type length =>
          dsimp only at hs hv h ⊢
          split at hs
          · omega
          · next hsize =>
            rw [if_neg hsize]
            cases length with
            | none => simpa using ih (by omega) hv b h
            | some count =>
              have hlen := length_of_itemsShaped (n := (fixedSize cat F type).toNat) h fun q hq => by
                have := ih (by omega) hv q hq
                omega
              rw [hlen]
              push_cast
              rw [Int.toNat_of_nonneg (by omega), mul_comm]
              rfl
        | enum type values flags =>
          dsimp only at hs h ⊢
          obtain ⟨signed, width, hint⟩ := wf.enums hc
          split at hs
          · omega
          · next hsize =>
            rw [if_neg hsize]
            have hfuel : 0 < fuel := by
              by_contra h0
              obtain rfl : fuel = 0 := by omega
              exact h.elim
            exact ih (by omega) (isVariable_primitive wf hint (by omega)) b h
        | union fields =>
          have hsize := @fixedSize_unique cat (F + 1) levels name
            (by simpa only [fixedSize, hprim, hc] using hs) (by dsimp only at h; omega)
          dsimp only at h ⊢
          rw [h, hsize]
          simp only [fixedSize, hprim, hc]
        | struct fields =>
          dsimp only at hs hv h ⊢
          have hfs : ∀ f ∈ fields, 0 ≤ fieldSize f (fixedSize cat F f.type) → ∀ before p,
              FieldShaped (Shaped cat fuel) before f p →
              (p.length : Int) = fieldSize f (fixedSize cat F f.type) := by
            intro f hf hsize before p hp
            have hvf : (!f.isFixedString && (f.length = some 0 || isVariable cat V f.type)) = false := by
              rw [fieldsVariable, List.any_eq_false] at hv
              simpa using hv f hf
            exact length_of_fieldShaped (wf.counted hc f hf) hvf (isVariable_string V)
              (fun h1 h2 => ih h1 h2) hsize hp
          have := length_of_fieldsShaped hfs hs h
          omega

/-! ## Tails -/

/-- Octets of the fields `before`, each of the size of its field. -/
def Packed (cat : Catalog) (before : List (Field × Bytes)) : Prop :=
  ∀ g q, (g, q) ∈ before → (q.length : Int) = fieldSize g (fixedSize cat levels g.type)

/-- A member stands after the octets of the fields before it. -/
theorem memberOffset_append {before : List (Field × Bytes)} {f : Field} (fs : List Field)
    (hp : Packed cat before) (hf : f.name ∉ before.map (·.1.name)) : ∀ acc : Int,
    memberOffset cat f.name acc (before.map (·.1) ++ f :: fs) =
      some (acc + ((before.map (·.2)).flatten.length : Nat), f.type) := by
  induction before with
  | nil => simp [memberOffset]
  | cons gq before ih =>
    obtain ⟨g, q⟩ := gq
    intro acc
    simp only [List.map_cons, List.mem_cons, not_or] at hf
    simp only [List.map_cons, List.cons_append, memberOffset]
    rw [if_neg (fun h => hf.1 h.symm), ih (fun g' q' h => hp g' q' (by simp [h])) hf.2,
      ← hp g q (by simp)]
    simp only [List.flatten_cons, List.length_append]
    push_cast
    rw [add_assoc]

/-- Reading behind a known part. -/
theorem readAt_append (a b : Bytes) {off : Int} (hoff : 0 ≤ off) (width : Nat) :
    readAt (a ++ b) ((a.length : Int) + off) width = readAt b off width := by
  unfold readAt
  rw [show ((a.length : Int) + off).toNat = a.length + off.toNat by omega, List.drop_append,
    List.drop_of_length_le (by omega)]
  simp

/-- A number is read where it was put. -/
theorem readAt_append_zero (a q b : Bytes) {width : Nat} (hw : q.length = width) :
    readAt (a ++ (q ++ b)) (a.length : Int) width = leNat q := by
  have h := readAt_append a (q ++ b) (le_refl 0) width
  rw [add_zero] at h
  rw [h, readAt]
  subst hw
  simp

/-- What a tail says about octets: they are as long as `size` and the elements the octets at the
member of the tail's counter count. -/
def TailSays (cat : Catalog) (fuel : Nat) (name : Bytes) (path : List Bytes) (tail : Tail)
    (size : Int) (b : Bytes) : Prop :=
  ∃ rel offset type width, tail.counter = path ++ rel ∧ rel ≠ [] ∧
    locate cat fuel name rel = some (offset, type) ∧ 0 ≤ offset ∧
    primitiveSize? type = some width ∧ offset + width ≤ b.length ∧
    (b.length : Int) = size + readAt b offset width.toNat * tail.element cat

/-- A counter is a primitive. -/
theorem primitiveSize?_of_isCounter {type : Bytes} (h : isCounter type) :
    ∃ w : Nat, primitiveSize? type = some (w : Int) := by
  obtain ⟨w, hw, -⟩ := scalar?_of_isCounter h
  exact ⟨w, primitiveSize?_of_scalar hw⟩

/-- A counted array at the end of a struct. -/
theorem tailSays_array {d : Nat} {name : Bytes} {path : List Bytes} {f : Field} {counter : Bytes}
    {before : List (Field × Bytes)} {shaped : Bytes → Bytes → Prop} {p : Bytes}
    (hc : cat name = some (.struct (before.map (·.1) ++ [f])))
    (hnd : (before.map (·.1.name)).Nodup) (hpacked : Packed cat before)
    (hcount : f.count = some counter) (harr : f.type ≠ utf8 "string" ∧ f.length.isSome)
    (hany : ∃ g ∈ before.map (·.1), g.name = counter ∧ isCounter g.type)
    (helem : 0 ≤ fixedSize cat levels f.type)
    (hlen : ∀ q, shaped f.type q → (q.length : Int) = fixedSize cat levels f.type)
    (hp : FieldShaped shaped before f p) :
    TailSays cat (d + 2) name path (.array (path ++ [counter]) (path ++ [f.name]) f.type)
      (before.map (·.2)).flatten.length ((before.map (·.2)).flatten ++ p) := by
  obtain ⟨g, hg, rfl, hcounter⟩ := hany
  obtain ⟨⟨g', q⟩, hgq, rfl⟩ := List.mem_map.1 hg
  dsimp only at hcounter hcount ⊢
  have hfix : ¬ f.isFixedString = true := by rw [isFixedString_eq_false harr.1]; decide
  rw [FieldShaped, if_neg hfix, if_pos harr] at hp
  obtain ⟨n, hitems, -, hn⟩ := hp
  obtain ⟨hgl, rfl⟩ := hn g' q hgq hcount hcounter
  obtain ⟨before₁, before₂, rfl⟩ := List.append_of_mem hgq
  obtain ⟨w, hw⟩ := primitiveSize?_of_isCounter hcounter
  have hq : (q.length : Int) = w := by
    rw [hpacked g' q hgq, fieldSize, if_neg (fun h => ne_string_of_isCounter hcounter h.1),
      if_neg (ne_string_of_isCounter hcounter), hgl, levels, fixedSize, hw]
    simp
  have hfresh : g'.name ∉ before₁.map (·.1.name) := by
    intro hmem
    rw [List.map_append, List.map_cons, List.nodup_append] at hnd
    exact hnd.2.2 _ hmem _ (by simp) rfl
  have hoff := memberOffset_append (before₂.map (·.1) ++ [f])
    (fun g q h => hpacked g q (by simp [h])) hfresh 0
  refine ⟨[g'.name], ((before₁.map (·.2)).flatten.length : Nat), g'.type, w, rfl, by simp, ?_, by omega,
    hw, ?_, ?_⟩
  · simp only [List.map_append, List.map_cons, List.append_assoc, List.cons_append] at hc hoff
    simp only [locate, hc, hoff]
    simp
  · simp only [List.map_append, List.map_cons, List.flatten_append, List.flatten_cons,
      List.length_append]
    push_cast
    omega
  · have hplen := length_of_itemsShaped (n := (fixedSize cat levels f.type).toNat) hitems
      fun r hr => by have := hlen r hr; omega
    have hread := readAt_append_zero (before₁.map (·.2)).flatten q
      ((before₂.map (·.2)).flatten ++ p) (show q.length = w by omega)
    simp only [List.map_append, List.map_cons, List.flatten_append, List.flatten_cons,
      List.append_assoc, Int.toNat_natCast] at hread ⊢
    rw [hread, Tail.element]
    simp only [List.length_append, hplen]
    push_cast
    omega

/-- A string at the end of a struct. -/
theorem tailSays_text {d : Nat} {name : Bytes} {path : List Bytes} {f : Field}
    {before : List (Field × Bytes)} {p : Bytes}
    (hc : cat name = some (.struct (before.map (·.1) ++ [f])))
    (hfresh : f.name ∉ before.map (·.1.name)) (hpacked : Packed cat before)
    (hstring : f.type = utf8 "string") (hp : ScalarShaped .string p) :
    TailSays cat (d + 2) name path (.text (path ++ [f.name]))
      ((before.map (·.2)).flatten.length + 4) ((before.map (·.2)).flatten ++ p) := by
  obtain ⟨head, text, rfl, hhead, hlen⟩ := hp
  have hoff := memberOffset_append [] hpacked hfresh 0
  refine ⟨[f.name], ((before.map (·.2)).flatten.length : Nat), f.type, 4, rfl, by simp, ?_, by omega,
    by rw [hstring]; decide +kernel, ?_, ?_⟩
  · simp only [locate, hc, hoff]
    simp
  · simp only [List.length_append, hhead]
    push_cast
    omega
  · have hread := readAt_append_zero (before.map (·.2)).flatten head text hhead
    rw [show ((4 : Int).toNat) = 4 from rfl, hread, hlen, Tail.element]
    simp only [List.length_append, hhead]
    push_cast
    omega

/-- A struct with a tail at the end of a struct. -/
theorem tailSays_struct {d : Nat} {name : Bytes} {path : List Bytes} {f : Field} {tail : Tail}
    {before : List (Field × Bytes)} {p : Bytes} {size : Int}
    (hc : cat name = some (.struct (before.map (·.1) ++ [f])))
    (hfresh : f.name ∉ before.map (·.1.name)) (hpacked : Packed cat before)
    (hp : TailSays cat (d + 1) f.type (path ++ [f.name]) tail size p) :
    TailSays cat (d + 2) name path tail ((before.map (·.2)).flatten.length + size)
      ((before.map (·.2)).flatten ++ p) := by
  obtain ⟨rel, offset, type, width, hcounter, hrel, hloc, hoffset, hwidth, hfits, hlen⟩ := hp
  have hoff := memberOffset_append [] hpacked hfresh 0
  refine ⟨f.name :: rel, (before.map (·.2)).flatten.length + offset, type, width,
    by simpa using hcounter, by simp, ?_, by omega, hwidth, ?_, ?_⟩
  · simp only [locate, hc, hoff]
    simp [hloc]
  · simp only [List.length_append]
    push_cast
    omega
  · rw [readAt_append _ _ hoffset]
    simp only [List.length_append]
    push_cast
    omega

/-- The fields of a struct with a tail, after the fields `before`. -/
theorem tailSays_fields (wf : Layouts cat) {d fuel F s : Nat} {name : Bytes} {path : List Bytes}
    {tail : Tail} {fields : List Field} (hF : fuel ≤ F) (hF' : F ≤ levels)
    (hc : cat name = some (.struct fields))
    (hsup : ∀ f ∈ fields, ∃ tagged, supported cat s f.type tagged = true)
    (ih : ∀ {type path b tagged}, replyTail cat d type path = some (some tail) →
      supported cat s type tagged = true → 0 ≤ fixedSize cat F type → Shaped cat fuel type b →
      TailSays cat (d + 1) type path tail (fixedSize cat F type) b) {fs : List Field} :
    ∀ {before : List (Field × Bytes)} {b : Bytes}, fields = before.map (·.1) ++ fs →
      Packed cat before → fieldsTail cat (replyTail cat d) path (before.map (·.1)) fs = some (some tail) →
      0 ≤ fieldsSize false (fixedSize cat F) (before.map (·.2)).flatten.length fs →
      FieldsShaped (Shaped cat fuel) before fs b →
      TailSays cat (d + 2) name path tail
        (fieldsSize false (fixedSize cat F) (before.map (·.2)).flatten.length fs)
        ((before.map (·.2)).flatten ++ b) := by
  induction fs with
  | nil => intro before b _ _ h; cases h
  | cons f fs ihf =>
    intro before b hfields hpacked htail hsize hb
    obtain ⟨p, rest, rfl, hp, hrest⟩ := hb
    have hmem : f ∈ fields := by simp [hfields]
    have hnd := wf.distinct hc
    rw [hfields, List.map_append, List.map_map] at hnd
    have hfresh : f.name ∉ before.map (·.1.name) := by
      intro hf
      rw [List.nodup_append] at hnd
      exact hnd.2.2 _ hf _ (by simp) rfl
    have hpart := le_of_fieldsSize hsize f (by simp)
    obtain ⟨tagged, hfs⟩ := hsup f hmem
    have helem : 0 ≤ fixedSize cat levels f.type := by
      cases s with
      | zero => cases hfs
      | succ s =>
        simp only [supported] at hfs
        split at hfs
        · cases hfs
        · omega
    simp only [fieldsTail] at htail
    simp only [fieldsSize] at hsize ⊢
    split at hsize
    · omega
    · next hok =>
      rw [if_neg hok]
      simp only [Bool.false_eq_true, if_false] at hsize ⊢
      split at htail
      · next hvar =>
        split at htail
        · next hlast =>
          obtain rfl : fs = [] := List.isEmpty_iff.1 hlast
          rw [show rest = [] from hrest, List.append_nil]
          simp only [fieldsSize] at hsize ⊢
          simp only [variableField, Bool.and_eq_true, Bool.not_eq_true'] at hvar
          have hfix : ¬ f.isFixedString = true := by rw [hvar.1]; decide
          simp only [fieldTail] at htail
          split at htail
          · next hstring =>
            cases htail
            have hlen0 : f.length.getD 0 = 0 := by
              simpa [Field.isFixedString, hstring] using hvar.1
            rw [FieldShaped, if_neg hfix, if_neg (by simp [hstring]), hstring] at hp
            rw [fieldSize, if_pos ⟨hstring, hlen0⟩]
            refine tailSays_text (hfields ▸ hc) hfresh hpacked hstring ?_
            cases fuel with
            | zero => exact hp.elim
            | succ fuel => simpa only [Shaped, scalar?_string] using hp
          · next hne =>
            have hfs' : fieldSize f (fixedSize cat F f.type) =
                fixedSize cat F f.type * f.length.getD 1 := by
              rw [fieldSize, if_neg (fun h => hne h.1), if_neg hne]
            split at htail
            · next hnone =>
              have hl : f.length = none := Option.isNone_iff_eq_none.1 hnone
              rw [FieldShaped, if_neg hfix, if_neg (by simp [hl])] at hp
              rw [hfs', hl, Option.getD_none, Nat.cast_one, mul_one] at hpart ⊢
              exact tailSays_struct (hfields ▸ hc) hfresh hpacked (ih htail hfs hpart hp)
            · next hsome =>
              split at htail
              · cases htail
              · next counter hcount =>
                split at htail
                · cases htail
                · next hfixed =>
                  split at htail
                  · next hany =>
                    cases htail
                    have hl : f.length = some 0 := wf.counted hc f hmem (by rw [hcount]; rfl)
                    rw [hfs', hl, Option.getD_some, Nat.cast_zero, mul_zero, add_zero]
                    refine tailSays_array (hfields ▸ hc) (List.nodup_append.1 hnd).1 hpacked hcount
                      ⟨hne, by rw [hl]; rfl⟩ ?_ helem ?_ hp
                    · obtain ⟨g, hg, hcounter⟩ := List.any_eq_true.1 hany
                      rw [decide_eq_true_eq] at hcounter
                      exact ⟨g, hg, hcounter⟩
                    · intro q hq
                      exact length_of_shaped wf (by omega) (le_refl _) (show fuel ≤ levels by omega)
                        helem (by simpa using hfixed) hq
                  · cases htail
        · cases htail
      · next hvar =>
        have hplen : (p.length : Int) = fieldSize f (fixedSize cat F f.type) := by
          refine @length_of_fieldShaped _ _ (fixedSize cat F) _ _ _ (wf.counted hc f hmem)
            (by simpa [variableField] using hvar) (isVariable_string levels) ?_ hpart hp
          intro h1 h2 q hq
          exact length_of_shaped wf hF hF' (show fuel ≤ levels by omega) h1 h2 hq
        have hpacked' : Packed cat (before ++ [(f, p)]) := by
          intro g q hg
          rcases List.mem_append.1 hg with hg | hg
          · exact hpacked g q hg
          · obtain ⟨rfl, rfl⟩ := Prod.mk.inj (List.mem_singleton.1 hg)
            rw [hplen]
            exact (fieldSize_congr (fun h => fixedSize_mono hF' h) hpart).symm
        have hflat : ((before ++ [(f, p)]).map (·.2)).flatten = (before.map (·.2)).flatten ++ p := by
          simp
        have := @ihf (before ++ [(f, p)]) rest (by simpa using hfields) hpacked'
          (by simpa using htail)
        rw [hflat, List.length_append, List.append_assoc] at this
        push_cast at this
        rw [hplen] at this
        exact this hsize hrest

/-- A value of a type with a tail has the size of the type and of its tail. -/
theorem length_of_tail (wf : Layouts cat) {tail : Tail} : ∀ {d fuel F s : Nat} {name : Bytes}
    {path : List Bytes} {b : Bytes} {tagged : Bool}, fuel ≤ F → F ≤ levels →
    replyTail cat d name path = some (some tail) → supported cat s name tagged = true →
    0 ≤ fixedSize cat F name → Shaped cat fuel name b →
    TailSays cat (d + 1) name path tail (fixedSize cat F name) b
  | 0, _, _, _, _, _, _, _, _, _, h, _, _, _ => by cases h
  | d + 1, 0, _, _, _, _, _, _, _, _, _, _, _, hb => hb.elim
  | d + 1, fuel + 1, F, s, name, path, b, tagged, hF, hF', h, hsup, hsize, hb => by
    obtain ⟨F, rfl⟩ := Nat.exists_eq_succ_of_ne_zero (show F ≠ 0 by omega)
    obtain ⟨s, rfl⟩ := Nat.exists_eq_succ_of_ne_zero (show s ≠ 0 by rintro rfl; cases hsup)
    simp only [replyTail] at h
    split at h
    · cases h
    · next hvar =>
      replace hvar : isVariable cat levels name = true := by simpa using hvar
      have hcat : (cat name).isSome := by
        by_contra hnone
        rw [Option.not_isSome_iff_eq_none] at hnone
        simp [hnone] at h
      have hprim : primitiveSize? name = none := by
        by_contra hp
        rw [wf.primitives (Option.isSome_iff_ne_none.2 hp)] at hcat
        cases hcat
      have hsc : scalar? name = none := by
        cases hs : scalar? name with
        | none => rfl
        | some sc =>
          have hp := primitiveSize?_of_scalar hs
          cases hn : sc.builtinSize? with
          | some n =>
            rw [(wf.builtins hs hn hcat).2] at hvar
            cases hvar
          | none =>
            rw [hprim] at hp
            cases sc <;> cases hp <;> cases hn
      simp only [supported] at hsup
      simp only [Shaped, hsc] at hb
      simp only [fixedSize, hprim] at hsize ⊢
      split at hsup
      · cases hsup
      · split at h
        · next type hc =>
          simp only [hc] at hsup hb hsize ⊢
          split at hsize
          · omega
          · next hs =>
            rw [if_neg hs]
            simp only [Option.getD_none, Nat.cast_one, mul_one] at hsize ⊢
            obtain ⟨rel, offset, ty, width, h1, hrel, hloc, h2⟩ :=
              length_of_tail wf (show fuel ≤ F by omega) (by omega) h hsup hsize hb
            refine ⟨rel, offset, ty, width, h1, hrel, ?_, h2⟩
            cases rel with
            | nil => exact absurd rfl hrel
            | cons m rel => rw [locate, hc]; exact hloc
        · next fields hc =>
          simp only [hc] at hsup hb hsize ⊢
          have hfields : ∀ f ∈ fields, ∃ tagged, supported cat s f.type tagged = true :=
            fun f hf => ⟨_, List.all_eq_true.1 hsup f hf⟩
          have := @tailSays_fields cat wf d fuel F s name path tail fields (by omega) (by omega) hc
            hfields (fun h1 h2 h3 h4 => length_of_tail wf (by omega) (by omega) h1 h2 h3 h4)
            fields [] b rfl (fun g q hg => by cases hg) h hsize hb
          simpa using this
        · cases h

end Lengths

/-! ## Replies -/

section Replies

variable {cat : Catalog} {native : Native} {symbols : Symbols}

/-- What comes behind is not read. -/
theorem readAt_append_right {b : Bytes} {offset : Int} {width : Nat} (h0 : 0 ≤ offset)
    (h : offset + width ≤ b.length) (extra : Bytes) :
    readAt (b ++ extra) offset width = readAt b offset width := by
  unfold readAt
  rw [List.drop_append_of_le_length (by omega), List.take_append_of_le_length]
  rw [List.length_drop]
  omega

/-- What is encoded or decoded as a whole is shaped. -/
theorem shaped_of_convert (wf : Layouts cat) {name b : Bytes}
    (h : (∃ v, Encode cat native symbols name v = .ok b) ∨
      ∃ v, Decode cat native symbols name b = .ok v) : Shaped cat levels name b := by
  obtain ⟨v, h⟩ | ⟨v, h⟩ := h
  · exact encode_shaped wf h
  · unfold Decode at h
    split at h
    · cases h
    · next value hd =>
      obtain ⟨b', rfl, hb⟩ := decode_shaped wf hd
      rwa [List.append_nil]
    · cases h

/-- The count of a tail, with any octets after the reply. -/
theorem count_of_tailSays {name : Bytes} {tail : Tail} {size : Int} {b : Bytes}
    (h : TailSays cat (levels + 1) name [] tail size b) :
    ∃ count, (∀ extra, tail.count cat name (b ++ extra) = some count) ∧
      (b.length : Int) = size + count * tail.element cat := by
  obtain ⟨rel, offset, type, width, hcounter, -, hloc, hoffset, hwidth, hfits, hlen⟩ := h
  refine ⟨readAt b offset width.toNat, ?_, hlen⟩
  intro extra
  have hw : 0 ≤ width := by
    obtain ⟨s, -, hs⟩ := scalar?_of_primitiveSize? hwidth
    cases s <;> cases hs <;> omega
  rw [Tail.count, hcounter, List.nil_append, hloc]
  show (primitiveSize? type).bind _ = _
  rw [hwidth]
  exact congrArg some (readAt_append_right hoffset (by omega) extra)

/-- Below the levels of a type that `Supported` accepts, `Variable` does not depend on them. -/
theorem isVariable_of_supported : ∀ {s V V' : Nat} {name : Bytes} {tagged : Bool},
    supported cat s name tagged = true → s ≤ V → s ≤ V' →
    isVariable cat V name = isVariable cat V' name
  | 0, _, _, _, _, h, _, _ => by cases h
  | s + 1, V, V', name, tagged, h, hV, hV' => by
    obtain ⟨V, rfl⟩ := Nat.exists_eq_succ_of_ne_zero (show V ≠ 0 by omega)
    obtain ⟨V', rfl⟩ := Nat.exists_eq_succ_of_ne_zero (show V' ≠ 0 by omega)
    have ih : ∀ {type tagged}, supported cat s type tagged = true →
        isVariable cat V type = isVariable cat V' type := fun h =>
      isVariable_of_supported h (by omega) (by omega)
    have hfields : ∀ {fields : List Field}, (∀ f ∈ fields, ∃ tagged,
        supported cat s f.type tagged = true) →
        fieldsVariable (isVariable cat V) fields = fieldsVariable (isVariable cat V') fields := by
      intro fields hall
      unfold fieldsVariable
      rw [Bool.eq_iff_iff, List.any_eq_true, List.any_eq_true]
      refine exists_congr fun f => and_congr_right fun hf => ?_
      obtain ⟨tagged, hf⟩ := hall f hf
      rw [ih hf]
    simp only [supported] at h
    simp only [isVariable]
    split at h
    · cases h
    · split
      · rfl
      · cases hc : cat name with
        | none => rfl
        | some d =>
          simp only [hc] at h
          cases d with
          | «alias» type length => exact ih h
          | enum type values flags => rfl
          | struct fields => exact hfields fun f hf => ⟨_, List.all_eq_true.1 h f hf⟩
          | union fields =>
            rw [Bool.and_eq_true] at h
            refine hfields fun f hf => ?_
            have := List.all_eq_true.1 h.2 f hf
            rw [Bool.and_eq_true] at this
            exact ⟨_, this.2⟩

/-- What is found among the fields is a tail. -/
theorem fieldsTail_ne_some_none {tail : Bytes → List Bytes → Option (Option Tail)}
    {path : List Bytes} {fs : List Field}
    (ih : ∀ f ∈ fs, isVariable cat levels f.type = true → ∀ path, tail f.type path ≠ some none) :
    ∀ {before : List Field}, fieldsTail cat tail path before fs ≠ some none := by
  induction fs with
  | nil => intro before h; cases h
  | cons f fs ihf =>
    intro before h
    simp only [fieldsTail] at h
    split at h
    · next hvar =>
      split at h
      · simp only [fieldTail] at h
        split at h
        · cases h
        · split at h
          · next hnone =>
            have hl : f.length = none := Option.isNone_iff_eq_none.1 hnone
            simp only [variableField, hl, Bool.and_eq_true, Bool.or_eq_true] at hvar
            exact ih f (by simp) (hvar.2.resolve_left (by simp)) _ h
          · split at h
            · cases h
            · split at h
              · cases h
              · split at h
                · cases h
                · cases h
      · cases h
    · exact ihf (fun g hg => ih g (by simp [hg])) h

/-- A variable type is never accepted without a tail. -/
theorem replyTail_ne_some_none (wf : Layouts cat) : ∀ {d s : Nat} {name : Bytes}
    {path : List Bytes} {tagged : Bool}, supported cat s name tagged = true → s ≤ levels →
    isVariable cat levels name = true → replyTail cat d name path ≠ some none
  | 0, _, _, _, _, _, _, _ => by rw [replyTail]; exact fun h => by cases h
  | d + 1, 0, _, _, _, h, _, _ => by cases h
  | d + 1, s + 1, name, path, tagged, hsup, hs, hvar => by
    have ih : ∀ {type path tagged}, supported cat s type tagged = true →
        isVariable cat levels type = true → replyTail cat d type path ≠ some none := fun h hv =>
      replyTail_ne_some_none wf h (by omega) hv
    rw [replyTail, if_neg (by simp [hvar])]
    rw [supported] at hsup
    split at hsup
    · cases hsup
    · split
      · next type hc =>
        simp only [hc] at hsup
        have hne : name ≠ utf8 "string" := by
          rintro rfl
          rw [wf.primitives (by decide +kernel)] at hc
          cases hc
        rw [levels, isVariable, if_neg hne, hc] at hvar
        refine ih hsup ?_
        rw [levels] at hs
        rw [← hvar]
        exact isVariable_of_supported hsup (by rw [levels]; omega) (by omega)
      · next fields hc =>
        simp only [hc] at hsup
        exact fieldsTail_ne_some_none fun f hf hv path => ih (List.all_eq_true.1 hsup f hf) hv
      · exact fun h => by cases h

/-- A type that `Supported` and `ReplyLayout` accept: every payload that `Encode` produces or
`Decode` accepts is as long as `FixedSize` says, with the elements of the tail where the type is
variable; and whatever follows the payload in memory, a generated `Callback` slices exactly its
octets, unless a reply of the variable type is above the payload limit or has a tail of elements
without octets. -/
theorem length_of_reply (wf : Layouts cat) {name : Bytes}
    (hsup : supported cat levels name false = true) (hlayout : replyLayout cat name = true) {b : Bytes}
    (hb : (∃ v, Encode cat native symbols name v = .ok b) ∨
      ∃ v, Decode cat native symbols name b = .ok v) :
    (isVariable cat levels name = false →
      (b.length : Int) = fixedSize cat levels name ∧
        ∀ extra, callbackSize cat name (b ++ extra) = .ok b.length) ∧
    (isVariable cat levels name = true →
      ∃ tail count, replyTail cat levels name [] = some (some tail) ∧
        tail.count cat name b = some count ∧
        (b.length : Int) = fixedSize cat levels name + count * tail.element cat ∧
        ∀ extra, callbackSize cat name (b ++ extra) =
          if b.length ≤ Limits.nativePayloadBytes ∧ (tail.element cat = 0 → count = 0) then
            .ok b.length
          else .error ⟨"payload_too_large", "Native reply exceeds 1 MiB"⟩) := by
  have hshaped := shaped_of_convert wf hb
  have hsize : 0 ≤ fixedSize cat levels name := by
    rw [levels, supported] at hsup
    split at hsup
    · cases hsup
    · exact not_lt.1 ‹_›
  constructor
  · intro hvar
    have hlen := length_of_shaped wf (le_refl _) (le_refl _) (le_refl _) hsize hvar hshaped
    refine ⟨hlen, fun extra => ?_⟩
    rw [callbackSize, hvar, if_neg (by decide)]
    exact congrArg _ (by omega)
  · intro hvar
    obtain ⟨t, ht⟩ := Option.isSome_iff_exists.1 hlayout
    cases t with
    | none =>
      -- A struct that is variable is never accepted without a tail.
      exfalso
      exact replyTail_ne_some_none wf hsup (le_refl _) hvar ht
    | some tail =>
      have hsays := length_of_tail wf (le_refl levels) (le_refl _) ht hsup hsize hshaped
      obtain ⟨count, hcount, hlen⟩ := count_of_tailSays hsays
      refine ⟨tail, count, ht, by simpa using hcount [], hlen, fun extra => ?_⟩
      rw [callbackSize, if_pos hvar, ht]
      dsimp only
      rw [hcount extra, Option.getD_some]
      have hfits : ((fixedSize cat levels name).toNat > Limits.nativePayloadBytes ∨
          count > (Limits.nativePayloadBytes - (fixedSize cat levels name).toNat) /
            tail.element cat) ↔
          ¬ (b.length ≤ Limits.nativePayloadBytes ∧ (tail.element cat = 0 → count = 0)) := by
        generalize tail.element cat = e at hlen ⊢
        rcases Nat.eq_zero_or_pos e with rfl | he
        · simp only [Nat.cast_zero, mul_zero, add_zero] at hlen
          simp only [Nat.div_zero, true_imp_iff]
          omega
        · have hdiv : count > (Limits.nativePayloadBytes - (fixedSize cat levels name).toNat) / e ↔
              Limits.nativePayloadBytes - (fixedSize cat levels name).toNat < count * e :=
            Nat.div_lt_iff_lt_mul he
          have hlen' : b.length = (fixedSize cat levels name).toNat + count * e := by
            zify
            rw [Int.toNat_of_nonneg hsize]
            exact hlen
          rw [hdiv]
          generalize count * e = m at hlen' ⊢
          omega
      by_cases hok : b.length ≤ Limits.nativePayloadBytes ∧ (tail.element cat = 0 → count = 0)
      · rw [if_neg (fun h => hfits.1 h hok), if_pos hok]
        refine congrArg _ ?_
        zify
        rw [Int.toNat_of_nonneg hsize]
        exact hlen.symm
      · rw [if_pos (hfits.2 hok), if_neg hok]

/-- Two numbers in a reply with a counted tail. -/
def countedReply : Catalog := fun name =>
  if name = utf8 "stats_reply" then
    some (.struct [⟨"retval", "i32", none, none, none, none, none⟩,
      ⟨"count", "u8", none, none, none, none, none⟩,
      ⟨"values", "u16", some 0, some "count", none, none, none⟩])
  else none

/-- A C library for replies without addresses and floating-point numbers. -/
def Native.plain : Native where
  pton4 := fun _ => none
  ntop4 := fun _ => none
  pton6 := fun _ => none
  ntop6 := fun _ => none
  floatBytes := fun _ _ => .error (invalid [])
  floatValue := fun _ _ => .error (invalid [])

/-- A reply with a counted array has a layout. -/
theorem layouts_countedReply : Layouts countedReply := by
  have hcat : ∀ {name d}, countedReply name = some d → name = utf8 "stats_reply" ∧
      ∃ fields, d = .struct fields ∧ (fields.map (·.name)).Nodup ∧
        ∀ f ∈ fields, f.count.isSome → f.length = some 0 := by
    intro name d h
    unfold countedReply at h
    split at h
    · next hn =>
      cases h
      exact ⟨hn, _, rfl, by decide +kernel, by decide +kernel⟩
    · cases h
  constructor
  · intro name fields h
    obtain ⟨-, fs, heq, hnd, -⟩ := hcat h
    cases heq
    exact hnd
  · intro name fields h
    obtain ⟨-, fs, heq, -, hcount⟩ := hcat h
    cases heq
    exact hcount
  · intro name type values flags h
    obtain ⟨-, fs, heq, -⟩ := hcat h
    cases heq
  · intro name h
    by_contra hsome
    obtain ⟨d, hd⟩ := Option.ne_none_iff_exists'.1 hsome
    rw [(hcat hd).1] at h
    exact absurd h (by decide +kernel)
  · intro name s n hs _ hsome
    obtain ⟨d, hd⟩ := Option.isSome_iff_exists.1 hsome
    rw [(hcat hd).1, show scalar? (utf8 "stats_reply") = none by decide +kernel] at hs
    cases hs

/-- A reply with two items, and two octets behind it. -/
theorem length_of_reply_counted :
    ∃ b, Encode countedReply Native.plain {} "stats_reply"
        (Json.object [("retval", .int 0), ("values", .arr [.uint 7, .uint 9])]) = .ok b ∧
      b.length = 9 ∧ callbackSize countedReply "stats_reply" (b ++ [1, 2, 3]) = .ok 9 := by
  have hencode : Encode countedReply Native.plain {} "stats_reply"
      (Json.object [("retval", .int 0), ("values", .arr [.uint 7, .uint 9])]) =
        .ok [0, 0, 0, 0, 2, 7, 0, 9, 0] := by rfl
  have htail : replyTail countedReply levels "stats_reply" [] =
      some (some (.array ["count"] ["values"] "u16")) := by rfl
  obtain ⟨tail, count, ht, hcount, -, hslice⟩ :=
    (length_of_reply layouts_countedReply (by decide +kernel) (by decide +kernel)
      (.inl ⟨_, hencode⟩)).2 (by decide +kernel)
  cases htail.symm.trans ht
  refine ⟨_, hencode, rfl, ?_⟩
  rw [hslice [1, 2, 3], if_pos ⟨by decide, fun h => absurd h (by decide +kernel)⟩]
  rfl

end Replies

end VppJson.Schema
