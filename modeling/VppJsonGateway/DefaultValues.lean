import VppJsonGateway.DefaultParts

/-!
# Values of defaults

The numbers, enums and flags that a default can stand for: what each of them is encoded as, and what
its description admits.
-/

namespace VppJson.Schema

open Lib

open Json (Valid)

/-! ## Numbers -/

section Numbers

/-- The widths of integers; those of 64 bits have names of their own. -/
theorem width_of_scalar {name : Bytes} {signed : Bool} {width : Nat}
    (hs : scalar? name = some (.int signed width)) :
    0 < width ∧ width ≤ 8 ∧ ((name = utf8 "u64" ∨ name = utf8 "i64") ↔ width = 8) := by
  have hwidth : ∀ p ∈ scalars, p.2.primitive?.all (fun n => decide (0 < n ∧ n ≤ 8)) = true := by
    decide +kernel
  have h64 : ∀ p ∈ scalars, (p.1 = utf8 "u64" ∨ p.1 = utf8 "i64") ↔
      (p.2 = .int false 8 ∨ p.2 = .int true 8) := by decide +kernel
  have hwidth := hwidth _ (mem_of_lookup hs)
  have h64 := h64 _ (mem_of_lookup hs)
  simp [Scalar.primitive?] at hwidth
  refine ⟨by omega, by omega, h64.trans ?_⟩
  cases signed <;> simp

/-- The text of a number is read as the number. -/
theorem fromChars_decimalInt {signed : Bool} {v : Int} (hv : inRange signed 8 v = true) :
    fromChars signed 8 (decimalInt v) = some (v, []) := by
  have htake : ∀ n, (decimal n).takeWhile isDigit = decimal n := fun n =>
    List.takeWhile_eq_self_iff.2 fun b hb => isDigit_of_mem_decimal hb
  have hdrop : ∀ n, (decimal n).dropWhile isDigit = [] := fun n =>
    List.dropWhile_eq_nil_iff.2 fun b hb => isDigit_of_mem_decimal hb
  have hhead : ∀ n, (decimal n).head? ≠ some 45 := by
    intro n hn
    have := isDigit_of_mem_decimal (List.mem_of_mem_head? hn)
    exact absurd this (by decide)
  unfold fromChars decimalInt
  by_cases hneg : v < 0
  · obtain rfl : signed = true := by
      cases signed with
      | true => rfl
      | false =>
        simp only [inRange] at hv
        simp at hv
        omega
    have habs : (-(v.natAbs : Int)) = v := by omega
    simp only [if_pos hneg, List.head?_cons, List.tail_cons, decide_true, Bool.and_self,
      htake, hdrop, if_true, digitsVal_decimal, habs, hv]
    simp [decimal_ne_nil]
  · have habs : (v.toNat : Int) = v := Int.toNat_of_nonneg (by omega)
    have hplain : (signed && decide ((decimal v.toNat).head? = some 45)) = false := by
      simp [hhead]
    simp only [if_neg hneg, hplain, htake, hdrop, digitsVal_decimal, habs, hv, Bool.false_eq_true,
      if_false]
    simp [decimal_ne_nil]

/-- The text of a natural number has no sign. -/
theorem decimalInt_natCast (n : Nat) : decimalInt n = decimal n := by
  rw [decimalInt, if_neg (by omega), Int.toNat_natCast]

/-- A number in range is taken as it is, but for 64 bits. -/
theorem intValue_of_ne {signed : Bool} {width : Nat} {d : Json} {v : Int} (hw : width ≠ 8)
    (hd : d.int? = some v) (hv : inRange signed width v = true) :
    intValue signed width d = .ok v := by
  unfold intValue
  rw [if_neg hw]
  cases d with
  | int i =>
    cases hd
    simp only [hv, if_true]
  | uint n =>
    cases hd
    simp only [hv, if_true]
  | _ => cases hd

/-- A number in the form `Convert` reads it in for a type. -/
theorem intValue_number {name : Bytes} {signed : Bool} {width : Nat} {d : Json} {v : Int}
    (hs : scalar? name = some (.int signed width)) (hd : d.int? = some v)
    (hv : inRange signed width v = true) :
    intValue signed width (if name = utf8 "u64" ∨ name = utf8 "i64" then .str (decimalInt v)
      else d) = .ok v := by
  obtain ⟨-, -, h64⟩ := width_of_scalar hs
  by_cases hw : width = 8
  · subst hw
    rw [if_pos (h64.2 rfl), intValue, if_pos rfl]
    simp only [fromChars_decimalInt hv]
  · rw [if_neg (mt h64.1 hw)]
    exact intValue_of_ne hw hd hv

/-- A number is not read where `Convert` wants text. -/
theorem intValue_untexted {signed : Bool} {d : Json} {v i : Int} (hd : d.int? = some v) :
    intValue signed 8 d ≠ .ok i := by
  unfold intValue
  rw [if_pos rfl]
  intro h
  cases d with
  | str text => cases hd
  | _ => cases h

/-- What is within the native budget is appended. -/
theorem putBytes_fits {size : Nat} {data : Bytes}
    (h : size + data.length ≤ Limits.nativePayloadBytes) : putBytes size data = .ok data := by
  rw [putBytes, if_neg]
  omega

/-- Octets are put where there is room for them. -/
theorem putBytes_eq_ok_iff {size : Nat} {data b : Bytes} :
    putBytes size data = .ok b ↔ size + b.length ≤ Limits.nativePayloadBytes ∧ data = b := by
  unfold putBytes
  split
  · next h =>
    refine ⟨fun h' => (by cases h'), ?_⟩
    rintro ⟨hfit, rfl⟩
    omega
  · next h =>
    constructor
    · intro heq
      cases heq
      exact ⟨by omega, rfl⟩
    · rintro ⟨-, rfl⟩
      rfl

/-- The bounds that all integers have in common. -/
theorem inRange_bounds {signed : Bool} {width : Nat} {v : Int} (hpos : 0 < width)
    (hwidth : width ≤ 8) (hv : inRange signed width v = true) :
    -(2 ^ 63) ≤ v ∧ v < 2 ^ 64 ∧ (signed = true → v < 2 ^ 63) ∧ (signed = false → 0 ≤ v) := by
  cases signed <;> interval_cases width <;> simp [inRange] at hv ⊢ <;> omega

/-- Two values of a type are the same number only if they are equal. -/
theorem sameNumber_iff {signed : Bool} {width : Nat} {v w : Int} {d : Json} (hpos : 0 < width)
    (hwidth : width ≤ 8) (hv : inRange signed width v = true) (hw : inRange signed width w = true)
    (hd : d.int? = some v) : sameNumber w d = true ↔ w = v := by
  obtain ⟨hvlow, hvhigh, hvsigned, hvplain⟩ := inRange_bounds hpos hwidth hv
  obtain ⟨hwlow, hwhigh, hwsigned, hwplain⟩ := inRange_bounds hpos hwidth hw
  cases d with
  | uint n =>
    cases hd
    unfold sameNumber word
    cases signed <;> simp at * <;> intro _ <;> omega
  | int i =>
    cases hd
    unfold sameNumber word
    cases signed <;> simp at * <;> intro _ <;> omega
  | _ => cases hd

/-- Two values of a type have the same octets only if they are equal. -/
theorem nativeInt_inj {signed : Bool} {width : Nat} {v w : Int} (hpos : 0 < width)
    (hwidth : width ≤ 8) (hv : inRange signed width v = true) (hw : inRange signed width w = true)
    (h : nativeInt width v = nativeInt width w) : v = w := by
  have hmod := congrArg leNat h
  rw [nativeInt, nativeInt, leNat_leBytes, leNat_leBytes] at hmod
  cases signed <;> interval_cases width <;> simp [inRange] at hv hw hmod <;> omega

end Numbers

/-! ## Integers -/

section Integers

variable {cat : Catalog} {native : Native} {symbols : Symbols} {n width size : Nat}
  {name : Bytes} {signed : Bool} {tag : Option Json} {f : Field} {d value : Json} {v i : Int}

/-- An alias stands for one integer only. -/
theorem IntegerType.unique (h : IntegerType cat n name signed width) :
    ∀ {n' : Nat} {signed' : Bool} {width' : Nat}, IntegerType cat n' name signed' width' →
      n' = n ∧ signed' = signed ∧ width' = width := by
  induction h with
  | primitive hs hcat =>
    intro _ _ _ h'
    cases h' with
    | primitive hs' =>
      rw [hs] at hs'
      cases hs'
      exact ⟨rfl, rfl, rfl⟩
    | «alias» hs' =>
      rw [hs] at hs'
      cases hs'
  | «alias» hs htext hcat htype ih =>
    intro _ _ _ h'
    cases h' with
    | primitive hs' =>
      rw [hs] at hs'
      cases hs'
    | «alias» _ _ hcat' htype' =>
      rw [hcat] at hcat'
      cases hcat'
      obtain ⟨rfl, rfl, rfl⟩ := ih htype'
      exact ⟨rfl, rfl, rfl⟩

/-- An alias is converted as its primitive, where the levels suffice. -/
theorem IntegerType.encode_eq (h : IntegerType cat n name signed width) :
    ∀ {fuel : Nat}, n < fuel → encode cat native symbols fuel name tag size value =
      intValue signed width value >>= fun i => putBytes size (nativeInt width i) := by
  induction h with
  | primitive hs hcat =>
    intro fuel hfuel
    obtain ⟨fuel, rfl⟩ := Nat.exists_eq_succ_of_ne_zero hfuel.ne'
    rw [encode, hs]
    rfl
  | «alias» hs htext hcat htype ih =>
    intro fuel hfuel
    obtain ⟨fuel, rfl⟩ := Nat.exists_eq_succ_of_ne_zero (Nat.ne_of_gt (Nat.zero_lt_of_lt hfuel))
    rw [encode, hs]
    simp only [hcat]
    exact ih (by omega)

/-- An alias that is followed too far is refused. -/
theorem IntegerType.encode_deep (h : IntegerType cat n name signed width) :
    ∀ {fuel : Nat}, fuel ≤ n → ∃ e, encode cat native symbols fuel name tag size value =
      .error e := by
  induction h with
  | primitive hs hcat =>
    intro fuel hfuel
    obtain rfl := Nat.le_zero.1 hfuel
    exact ⟨_, rfl⟩
  | «alias» hs htext hcat htype ih =>
    intro fuel hfuel
    cases fuel with
    | zero => exact ⟨_, rfl⟩
    | succ fuel =>
      rw [encode, hs]
      simp only [hcat]
      exact ih (Nat.le_of_succ_le_succ hfuel)

/-- The widths of an integer's octets. -/
theorem IntegerType.width_pos (h : IntegerType cat n name signed width) :
    0 < width ∧ width ≤ 8 := by
  induction h with
  | primitive hs hcat => exact ⟨(width_of_scalar hs).1, (width_of_scalar hs).2.1⟩
  | «alias» _ _ _ _ ih => exact ih

/-- What is encoded as a scalar is valid against the description of the scalar. -/
theorem valid_describe_scalar {s : Scalar} {j : Json} {b : Bytes} {fuel : Nat}
    (hs : scalar? name = some s) (hj : describeNamed cat name = some j)
    (h : encodeScalar Native.plain {} 0 value s = .ok b) :
    Valid (describe cat (fuel + 1) name) value := by
  rw [describe, hj]
  exact valid_scalar convertsNumbers_plain hs hj h

/-- What is read as an integer is valid against the description of its type. -/
theorem IntegerType.valid_describe (h : IntegerType cat n name signed width)
    (hi : intValue signed width value = .ok i) :
    ∀ {fuel : Nat}, n < fuel → Valid (describe cat fuel name) value := by
  induction h with
  | @primitive name signed width hs hcat =>
    intro fuel hfuel
    obtain ⟨fuel, rfl⟩ := Nat.exists_eq_succ_of_ne_zero hfuel.ne'
    have hj : ∃ j, describeNamed cat name = some j := by
      rw [describeNamed, hs]
      dsimp only
      split
      · exact ⟨_, rfl⟩
      · rw [hcat]
        exact ⟨_, rfl⟩
    obtain ⟨j, hj⟩ := hj
    have hwidth := (width_of_scalar hs).2.1
    refine @valid_describe_scalar cat name value (.int signed width) j (nativeInt width i) fuel
      hs hj ?_
    rw [encodeScalar, hi]
    refine putBytes_fits ?_
    rw [nativeInt, length_leBytes, Limits.nativePayloadBytes]
    omega
  | @«alias» n name type signed width hs htext hcat htype ih =>
    intro fuel hfuel
    obtain ⟨fuel, rfl⟩ := Nat.exists_eq_succ_of_ne_zero (Nat.ne_of_gt (Nat.zero_lt_of_lt hfuel))
    have hj : describeNamed cat name = none := by
      rw [describeNamed, hs, htext]
      rfl
    rw [describe, hj, hcat]
    exact ih hi (by omega)

theorem scalar?_bool : scalar? (utf8 "bool") = some .bool := by decide +kernel

/-- A type that is no scalar or an integer is none of the types `PublicDefault` goes by. -/
theorem ne_of_integer (h : ∀ s, scalar? name = some s → ∃ signed width, s = .int signed width) :
    name ≠ utf8 "bool" ∧ name ≠ utf8 "vl_api_interface_index_t" := by
  constructor
  · intro he
    obtain ⟨signed, width, hs⟩ := h .bool (he ▸ scalar?_bool)
    cases hs
  · intro he
    obtain ⟨signed, width, hs⟩ := h .interface (scalar?_interface.2 he)
    cases hs

/-- A name that is no scalar is no integer of 64 bits. -/
theorem not_untexted (hs : scalar? name = none) : ¬ (name = utf8 "u64" ∨ name = utf8 "i64") := by
  rintro (rfl | rfl)
  · exact absurd hs (by decide +kernel)
  · exact absurd hs (by decide +kernel)

/-- The default of a field of integers. -/
theorem IntegerType.publicDefault_eq (h : IntegerType cat n f.type signed width)
    (hd : d.int? = some v) : publicDefault cat f d =
      if f.type = utf8 "u64" ∨ f.type = utf8 "i64" then .str (decimalInt v) else d := by
  have hscalar : ∀ s, scalar? f.type = some s → ∃ signed width, s = .int signed width := by
    intro s hs
    cases h with
    | primitive hs' => exact ⟨_, _, Option.some.inj (hs.symm.trans hs')⟩
    | «alias» hs' =>
      rw [hs] at hs'
      cases hs'
  obtain ⟨hbool, hinterface⟩ := ne_of_integer hscalar
  unfold publicDefault
  rw [if_neg (fun hc => hbool hc.1), if_neg (fun hc => hbool hc.1),
    if_neg (fun hc => hinterface hc.1)]
  have hcat : cat f.type = none ∨ ∃ type, cat f.type = some (.alias type none) := by
    cases h with
    | primitive _ hcat => exact .inl hcat
    | «alias» _ _ hcat _ => exact .inr ⟨_, hcat⟩
  rcases hcat with hcat | ⟨type, hcat⟩
  all_goals
    rw [hcat]
    cases d with
    | uint n =>
      cases hd
      rw [decimalInt_natCast]
    | int i =>
      cases hd
      rfl
    | _ => cases hd

/-! ## Enums -/

variable {values : List (Bytes × Int)} {flags : Bool}

/-- The widths of an enum's octets. -/
theorem EnumType.width_pos (h : EnumType cat name values flags signed width) :
    0 < width ∧ width ≤ 8 := by
  obtain ⟨type, -, hs⟩ := h.base
  exact ⟨(width_of_scalar hs).1, (width_of_scalar hs).2.1⟩

/-- An enum is no alias of an integer. -/
theorem EnumType.not_integer (h : EnumType cat name values flags signed width) {n' : Nat}
    {signed' : Bool} {width' : Nat} : ¬ IntegerType cat n' name signed' width' := by
  intro hi
  obtain ⟨type, hcat, -⟩ := h.base
  cases hi with
  | primitive _ hcat' =>
    rw [hcat] at hcat'
    cases hcat'
  | «alias» _ _ hcat' _ =>
    rw [hcat] at hcat'
    cases hcat'

/-- The default of a field of an enum: the symbol of its number, and no flags for zero. -/
theorem EnumType.publicDefault_eq (h : EnumType cat f.type values flags signed width)
    (hd : d.int? = some v) : publicDefault cat f d =
      if flags && sameNumber 0 d then .arr []
      else ((values.find? fun kv => sameNumber kv.2 d).map fun kv => .str kv.1).getD d := by
  obtain ⟨hbool, hinterface⟩ := @ne_of_integer f.type fun s hs => by
    rw [h.scalar] at hs
    cases hs
  have h64 := not_untexted h.scalar
  obtain ⟨type, hcat, -⟩ := h.base
  unfold publicDefault
  rw [if_neg (fun hc => hbool hc.1), if_neg (fun hc => hbool hc.1),
    if_neg (fun hc => hinterface hc.1), hcat]
  cases hzero : (flags && sameNumber 0 d) with
  | true => simp only [hzero, if_true]
  | false =>
    simp only [hzero, Bool.false_eq_true, if_false]
    cases values.find? fun kv => sameNumber kv.2 d with
    | some kv => rfl
    | none =>
      cases d with
      | uint n => exact if_neg h64
      | int i => exact if_neg h64
      | _ => cases hd

/-- A plain default is shown as a symbol of its number. -/
theorem EnumType.publicDefault_symbol (h : EnumType cat f.type values false signed width)
    {kv : Bytes × Int} (hkv : kv ∈ values) (hd : d.int? = some kv.2) :
    ∃ kv' ∈ values, kv'.2 = kv.2 ∧ publicDefault cat f d = .str kv'.1 := by
  obtain ⟨hpos, hwidth⟩ := h.width_pos
  rw [h.publicDefault_eq hd, Bool.false_and, if_neg Bool.false_ne_true]
  cases hfind : values.find? fun kv => sameNumber kv.2 d with
  | none =>
    have hno := List.find?_eq_none.1 hfind kv hkv
    exact absurd ((sameNumber_iff hpos hwidth (h.fits kv hkv) (h.fits kv hkv) hd).2 rfl) hno
  | some kv' =>
    have hmem := List.mem_of_find?_eq_some hfind
    have hsame := List.find?_some hfind
    exact ⟨kv', hmem,
      (sameNumber_iff hpos hwidth (h.fits kv hkv) (h.fits kv' hmem) hd).1 hsame, rfl⟩

/-- The number at a symbol of an enum. -/
theorem EnumType.enumValue?_eq (h : EnumType cat name values flags signed width)
    {kv : Bytes × Int} (hkv : kv ∈ values) : enumValue? values kv.1 = some kv.2 := by
  rw [enumValue?, Option.map_eq_some_iff]
  refine ⟨kv, ?_, rfl⟩
  have hnodup := h.symbols
  clear h
  induction values with
  | nil => cases hkv
  | cons kv₀ values ih =>
    rw [List.map_cons, List.nodup_cons] at hnodup
    rw [List.find?_cons]
    rcases List.mem_cons.1 hkv with rfl | hmem
    · simp
    · have hne : kv₀.1 ≠ kv.1 := fun he => hnodup.1 (he ▸ List.mem_map_of_mem hmem)
      simp only [hne, decide_false]
      exact ih hmem hnodup.2

/-- An enum is converted as its number. -/
theorem EnumType.encode_eq (h : EnumType cat name values flags signed width) {fuel : Nat}
    {numeric : Json} (hn : enumNumeric values flags value = .ok numeric)
    (hnum : numeric.int? = some v) (hv : inRange signed width v = true) :
    encode cat native symbols (fuel + 2) name tag size value =
      putBytes size (nativeInt width v) := by
  obtain ⟨type, hcat, hs⟩ := h.base
  have hdump : numeric.dump = decimalInt v := by
    cases numeric with
    | uint n =>
      cases hnum
      exact (decimalInt_natCast n).symm
    | int i =>
      cases hnum
      rfl
    | _ => cases hnum
  have hnumber : enumNumber type values flags value =
      .ok (if type = utf8 "u64" ∨ type = utf8 "i64" then .str (decimalInt v) else numeric) := by
    rw [enumNumber, hn]
    dsimp only
    rw [hdump]
    split <;> rfl
  rw [encode, h.scalar]
  simp only [hcat, hnumber]
  change encode cat native symbols (fuel + 1) type none size _ = _
  rw [encode, hs]
  dsimp only
  rw [encodeScalar, intValue_number hs hnum hv]
  rfl

/-- A value without a number is refused. -/
theorem EnumType.encode_error (h : EnumType cat name values flags signed width) {fuel : Nat}
    {e : Status} (hn : enumNumeric values flags value = .error e) :
    encode cat native symbols (fuel + 1) name tag size value = .error e := by
  obtain ⟨type, hcat, hs⟩ := h.base
  rw [encode, h.scalar]
  simp only [hcat, enumNumber, hn]
  rfl

/-- A value with a number is one that the description admits. -/
theorem EnumType.valid_describe (h : EnumType cat name values flags signed width) {fuel : Nat}
    {numeric : Json} (hn : enumNumeric values flags value = .ok numeric) :
    Valid (describe cat (fuel + 1) name) value := by
  obtain ⟨type, hcat, hs⟩ := h.base
  have hj : describeNamed cat name = none := by
    rw [describeNamed, h.scalar, h.text]
    rfl
  rw [describe, hj, hcat]
  exact valid_enum hn

end Integers

end VppJson.Schema
