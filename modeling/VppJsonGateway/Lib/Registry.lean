import Mathlib.Data.List.Forall2
import Mathlib.Data.List.Pairwise
import Mathlib.Data.List.Perm.Basic
import Mathlib.Data.Option.Basic
import Mathlib.Logic.Function.Basic
import VppJsonGateway.Lib.Reading

/-!
# Registers

A register takes entries one after the other. An entry whose key it has must agree with the value
there, and replaces it. Where agreement is transitive, the order of the entries does not matter.
-/

namespace Lib.Registry

variable {κ ν : Type} [DecidableEq κ]

/-- The table with one more entry. -/
def put (t : κ → Option ν) (e : κ × ν) : κ → Option ν := Function.update t e.1 (some e.2)

/-- An entry agrees with what the table has at its key. -/
def Accepts (same : ν → ν → Prop) (t : κ → Option ν) (e : κ × ν) : Prop :=
  ∀ old, t e.1 = some old → same old e.2

/-- Entries are registered in a table, one after the other. -/
inductive Registered (same : ν → ν → Prop) : (κ → Option ν) → List (κ × ν) → (κ → Option ν) → Prop
  | nil (t : κ → Option ν) : Registered same t [] t
  | cons {t t' : κ → Option ν} {e : κ × ν} {es : List (κ × ν)} (accepts : Accepts same t e)
      (rest : Registered same (put t e) es t') : Registered same t (e :: es) t'

/-- Entries of one key agree. -/
def Agree (same : ν → ν → Prop) (a b : κ × ν) : Prop := a.1 = b.1 → same a.2 b.2

/-- Agreement is symmetric, and transitive on the values that some entries have for one key. -/
structure Coherent (same : ν → ν → Prop) (es : List (κ × ν)) : Prop where
  symm : ∀ v w, same v w → same w v
  trans : ∀ a ∈ es, ∀ b ∈ es, ∀ c ∈ es, a.1 = b.1 → b.1 = c.1 →
    same a.2 b.2 → same b.2 c.2 → same a.2 c.2

section

variable {same : ν → ν → Prop} {t t' t'' : κ → Option ν} {es es' : List (κ × ν)}

@[simp] theorem put_self (t : κ → Option ν) (e : κ × ν) : put t e e.1 = some e.2 :=
  Function.update_self _ _ _

/-- The other keys stay. -/
theorem put_of_ne {k : κ} (t : κ → Option ν) {e : κ × ν} (h : k ≠ e.1) : put t e k = t k :=
  Function.update_of_ne h _ _

/-- Entries may be registered in two parts. -/
theorem Registered.append (h : Registered same t es t') (h' : Registered same t' es' t'') :
    Registered same t (es ++ es') t'' := by
  induction h with
  | nil => exact h'
  | cons haccepts _ ih => exact .cons haccepts (ih h')

/-- What is registered at once is registered in two parts. -/
theorem Registered.split : ∀ {es : List (κ × ν)} {t : κ → Option ν},
    Registered same t (es ++ es') t'' →
      ∃ t', Registered same t es t' ∧ Registered same t' es' t'' := by
  intro es
  induction es with
  | nil => exact fun h => ⟨_, .nil _, h⟩
  | cons e es ih =>
    intro t h
    cases h with
    | cons haccepts hrest =>
      obtain ⟨t', hes, hes'⟩ := ih hrest
      exact ⟨t', .cons haccepts hes, hes'⟩

/-- A table has what was there or was registered. -/
theorem Registered.mem (h : Registered same t es t') {k : κ} {v : ν} (hv : t' k = some v) :
    t k = some v ∨ (k, v) ∈ es := by
  induction h with
  | nil => exact .inl hv
  | @cons t t' e es _ _ ih =>
    rcases ih hv with hput | hmem
    · by_cases hk : k = e.1
      · subst hk
        rw [put_self] at hput
        obtain rfl := Option.some.inj hput
        exact .inr List.mem_cons_self
      · rw [put_of_ne t hk] at hput
        exact .inl hput
    · exact .inr (List.mem_cons_of_mem _ hmem)

/-- A key stays in the table. -/
theorem Registered.isSome (h : Registered same t es t') {k : κ}
    (hk : (t k).isSome = true ∨ ∃ v, (k, v) ∈ es) : (t' k).isSome = true := by
  induction h with
  | nil =>
    rcases hk with hk | ⟨v, hv⟩
    · exact hk
    · cases hv
  | @cons t t' e es _ _ ih =>
    refine ih ?_
    by_cases heq : k = e.1
    · subst heq
      rw [put_self]
      exact .inl rfl
    · rw [put_of_ne t heq]
      refine hk.imp_right fun ⟨v, hv⟩ => ⟨v, ?_⟩
      rcases List.mem_cons.1 hv with rfl | hv
      · exact absurd rfl heq
      · exact hv

/-- The table is that of the entries put one after the other. -/
theorem Registered.eq_foldl (h : Registered same t es t') : t' = es.foldl put t := by
  induction h with
  | nil => rfl
  | cons _ _ ih => exact ih

/-- Agreement may be weaker. -/
theorem Registered.mono {same' : ν → ν → Prop} (hsame : ∀ v w, same v w → same' v w)
    (h : Registered same t es t') : Registered same' t es t' := by
  induction h with
  | nil => exact .nil _
  | cons haccepts _ ih => exact .cons (fun old hold => hsame _ _ (haccepts old hold)) ih

/-- Entries that agree with each other and with the table can be registered. -/
theorem exists_registered (hagree : es.Pairwise (Agree same)) : ∀ {t : κ → Option ν},
    (∀ e ∈ es, Accepts same t e) → ∃ t', Registered same t es t' := by
  induction es with
  | nil => exact fun _ => ⟨_, .nil _⟩
  | cons e es ih =>
    intro t haccepts
    obtain ⟨hfirst, hrest⟩ := List.pairwise_cons.1 hagree
    have hnext : ∀ b ∈ es, Accepts same (put t e) b := by
      intro b hb old hold
      by_cases hk : b.1 = e.1
      · rw [hk, put_self] at hold
        obtain rfl := Option.some.inj hold
        exact hfirst b hb hk.symm
      · rw [put_of_ne t hk] at hold
        exact haccepts b (List.mem_cons_of_mem _ hb) old hold
    obtain ⟨t', ht'⟩ := ih hrest hnext
    exact ⟨t', .cons (haccepts e List.mem_cons_self) ht'⟩

/-- What is registered agrees with an entry that was there. -/
theorem Registered.agrees (h : Registered same t es t') {a : κ × ν} (ha : t a.1 = some a.2)
    (htrans : ∀ b ∈ es, ∀ c ∈ es, a.1 = b.1 → b.1 = c.1 →
      same a.2 b.2 → same b.2 c.2 → same a.2 c.2)
    (hcoherent : Coherent same es) : ∀ b ∈ es, Agree same a b := by
  induction h generalizing a with
  | nil => exact fun b hb => (by cases hb)
  | @cons t t' e es haccepts _ ih =>
    have hrest : Coherent same es := ⟨hcoherent.symm, fun x hx y hy z hz =>
      hcoherent.trans x (List.mem_cons_of_mem _ hx) y (List.mem_cons_of_mem _ hy) z
        (List.mem_cons_of_mem _ hz)⟩
    have hafter := @ih e (put_self t e) (fun b hb c hc => hcoherent.trans e List.mem_cons_self b
      (List.mem_cons_of_mem _ hb) c (List.mem_cons_of_mem _ hc)) hrest
    have hfirst : Agree same a e := fun hk => haccepts a.2 (hk ▸ ha)
    intro b hb hk
    rcases List.mem_cons.1 hb with rfl | hb'
    · exact hfirst hk
    · by_cases hke : a.1 = e.1
      · have heb : e.1 = b.1 := hke.symm.trans hk
        exact htrans e List.mem_cons_self b hb hke heb (hfirst hke) (hafter b hb' heb)
      · have hput : put t e a.1 = some a.2 := (put_of_ne t hke).trans ha
        exact ih hput (fun x hx y hy => htrans x (List.mem_cons_of_mem _ hx) y
          (List.mem_cons_of_mem _ hy)) hrest b hb' hk

/-- **What can be registered agrees.** -/
theorem Registered.pairwise (h : Registered same t es t') (hcoherent : Coherent same es) :
    es.Pairwise (Agree same) := by
  induction h with
  | nil => exact .nil
  | @cons t t' e es _ hes ih =>
    have hrest : Coherent same es := ⟨hcoherent.symm, fun x hx y hy z hz =>
      hcoherent.trans x (List.mem_cons_of_mem _ hx) y (List.mem_cons_of_mem _ hy) z
        (List.mem_cons_of_mem _ hz)⟩
    refine List.pairwise_cons.2 ⟨?_, ih hrest⟩
    exact hes.agrees (put_self t e) (fun b hb c hc => hcoherent.trans e List.mem_cons_self b
      (List.mem_cons_of_mem _ hb) c (List.mem_cons_of_mem _ hc)) hrest

omit [DecidableEq κ] in
/-- The order of the entries does not matter. -/
theorem Coherent.perm (h : Coherent same es) (hperm : es.Perm es') : Coherent same es' :=
  ⟨h.symm, fun a ha b hb c hc => h.trans a (hperm.mem_iff.2 ha) b (hperm.mem_iff.2 hb) c
    (hperm.mem_iff.2 hc)⟩

omit [DecidableEq κ] in
theorem Coherent.agree_symm (h : Coherent same es) {a b : κ × ν} (hab : Agree same a b) :
    Agree same b a := fun hk => h.symm _ _ (hab hk.symm)

/-- **The order of entries does not matter**: in another order they can be registered too. -/
theorem Registered.perm (hcoherent : Coherent same es) (hperm : es.Perm es')
    (h : Registered same (fun _ => none) es t) : ∃ t', Registered same (fun _ => none) es' t' := by
  refine exists_registered ?_ fun e _ old hold => (by cases hold)
  exact (hperm.pairwise_iff fun hab => hcoherent.agree_symm hab).1 (h.pairwise hcoherent)

/-- **The tables are the same**, key by key. -/
theorem Registered.same_of_perm (hrefl : ∀ v, same v v) (hcoherent : Coherent same es) (hperm : es.Perm es')
    (h : Registered same (fun _ => none) es t) (h' : Registered same (fun _ => none) es' t') (k : κ) :
    Option.Rel same (t k) (t' k) := by
  have hall : ∀ a ∈ es, ∀ b ∈ es, Agree same a b := by
    have : Std.Symm (Agree same) := ⟨fun _ _ => hcoherent.agree_symm⟩
    intro a ha b hb
    exact (h.pairwise hcoherent).forall_of_forall (fun a _ _ => hrefl a.2) ha hb
  have hmem : ∀ {t : κ → Option ν} {es : List (κ × ν)}, Registered same (fun _ => none) es t →
      ∀ {v}, t k = some v → (k, v) ∈ es := by
    intro t es h v hv
    rcases h.mem hv with hnone | hmem
    · cases hnone
    · exact hmem
  cases hk : t k with
  | none =>
    cases hk' : t' k with
    | none => exact .none
    | some w =>
      have hsome := h.isSome (.inr ⟨w, hperm.mem_iff.2 (hmem h' hk')⟩)
      rw [hk] at hsome
      cases hsome
  | some v =>
    cases hk' : t' k with
    | none =>
      have hsome := h'.isSome (.inr ⟨v, hperm.mem_iff.1 (hmem h hk)⟩)
      rw [hk'] at hsome
      cases hsome
    | some w => exact .some (hall _ (hmem h hk) _ (hperm.mem_iff.2 (hmem h' hk')) rfl)

end

/-! ## States with a table -/

section

variable {ε σ : Type} {same : ν → ν → Prop} {table : σ → κ → Option ν} {add : σ → κ × ν → σ}

/-- Entries fill a table one by one. -/
theorem table_foldl (hadd : ∀ c e, table (add c e) = put (table c) e) (es : List (κ × ν)) :
    ∀ c, table (es.foldl add c) = es.foldl put (table c) := by
  induction es with
  | nil => exact fun c => rfl
  | cons e es ih => exact fun c => by rw [List.foldl_cons, List.foldl_cons, ih, hadd]

/-- A program that adds entries to its state registers them, where each addition does. -/
theorem foldlM_registered {good : κ × ν → Prop} {g : σ → κ × ν → Except ε σ}
    (hadd : ∀ c e, table (add c e) = put (table c) e)
    (hg : ∀ c e c', g c e = .ok c' ↔ good e ∧ Accepts same (table c) e ∧ c' = add c e)
    (es : List (κ × ν)) : ∀ {c c' : σ}, es.foldlM g c = .ok c' ↔
      (∀ e ∈ es, good e) ∧ Registered same (table c) es (table c') ∧ c' = es.foldl add c := by
  induction es with
  | nil =>
    intro c c'
    constructor
    · intro h
      cases h
      exact ⟨fun e he => (by cases he), .nil _, rfl⟩
    · intro ⟨_, _, h⟩
      exact congrArg Except.ok h.symm
  | cons e es ih =>
    intro c c'
    rw [List.foldlM_cons, bind_eq_ok]
    constructor
    · intro ⟨c₁, hc₁, hc'⟩
      obtain ⟨hgood, haccepts, rfl⟩ := (hg c e c₁).1 hc₁
      obtain ⟨hgoods, hrest, hfold⟩ := ih.1 hc'
      rw [hadd] at hrest
      exact ⟨List.forall_mem_cons.2 ⟨hgood, hgoods⟩, .cons haccepts hrest, hfold⟩
    · intro ⟨hgoods, hregistered, hfold⟩
      obtain ⟨hgood, hgoods⟩ := List.forall_mem_cons.1 hgoods
      cases hregistered with
      | cons haccepts hrest =>
        rw [← hadd] at hrest
        exact ⟨add c e, (hg c e _).2 ⟨hgood, haccepts, rfl⟩, ih.2 ⟨hgoods, hrest, hfold⟩⟩

end

end Lib.Registry
