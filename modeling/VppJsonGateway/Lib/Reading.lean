import Mathlib.Data.List.Forall2
import Mathlib.Data.List.Perm.Basic

/-!
# Programs that may fail

A program that has a result has one of each of its parts. Where it reads its entries as it goes on,
and reading may fail, it is the same that it reads them all first.
-/

namespace Lib

variable {α β σ δ ε : Type}

/-- Two programs in sequence have a result where both have. -/
theorem bind_eq_ok {x : Except ε α} {f : α → Except ε β} {b : β} :
    (x >>= f) = .ok b ↔ ∃ a, x = .ok a ∧ f a = .ok b := by
  cases x with
  | error e => exact ⟨fun h => (by cases h), fun ⟨_, h, _⟩ => (by cases h)⟩
  | ok a => exact ⟨fun h => ⟨a, rfl, h⟩, fun ⟨_, h, hf⟩ => (by cases h; exact hf)⟩

/-- What is read one by one. -/
theorem mapM_eq_ok {f : α → Except ε β} {l : List α} : ∀ {ys : List β},
    l.mapM f = .ok ys ↔ List.Forall₂ (fun x y => f x = .ok y) l ys := by
  induction l with
  | nil => exact fun {ys} => ⟨fun h => (by cases h; exact .nil), fun h => (by cases h; rfl)⟩
  | cons x l ih =>
    intro ys
    simp only [List.mapM_cons, bind_eq_ok]
    constructor
    · intro ⟨y, hy, ys', hys, hpure⟩
      cases hpure
      exact .cons hy (ih.1 hys)
    · intro h
      cases h with
      | cons hy hys => exact ⟨_, hy, _, ih.2 hys, rfl⟩

/-- Reading all entries first is as good as reading each before its turn. -/
theorem foldlM_read {f : α → Except ε β} {g : σ → β → Except ε σ} {h : σ → α → Except ε σ}
    (hread : ∀ c x c', h c x = .ok c' ↔ ∃ y, f x = .ok y ∧ g c y = .ok c') {l : List α} :
    ∀ {c c' : σ}, l.foldlM h c = .ok c' ↔ ∃ ys, l.mapM f = .ok ys ∧ ys.foldlM g c = .ok c' := by
  induction l with
  | nil => exact ⟨fun h => ⟨[], rfl, h⟩, fun ⟨_, h, hc⟩ => (by cases h; exact hc)⟩
  | cons x l ih =>
    intro c c'
    simp only [List.foldlM_cons, List.mapM_cons, bind_eq_ok, ih, hread]
    constructor
    · intro ⟨c₁, ⟨y, hy, hc₁⟩, ys, hys, hc'⟩
      refine ⟨y :: ys, ⟨y, hy, ys, hys, rfl⟩, ?_⟩
      rw [List.foldlM_cons]
      exact bind_eq_ok.2 ⟨c₁, hc₁, hc'⟩
    · intro ⟨_, ⟨y, hy, ys, hys, hpure⟩, hfold⟩
      cases hpure
      rw [List.foldlM_cons] at hfold
      obtain ⟨c₁, hc₁, hc'⟩ := bind_eq_ok.1 hfold
      exact ⟨c₁, ⟨y, hy, hc₁⟩, ys, hys, hc'⟩

/-- The same for entries of several kinds, one kind after the other. -/
theorem foldlM_read_flatten {f : δ → α → Except ε β} {g : σ → β → Except ε σ} {L : δ → List α}
    {l : List δ} {c c' : σ} :
    l.foldlM (fun c d => (L d).foldlM (fun c x => f d x >>= g c) c) c = .ok c' ↔
      ∃ yss, l.mapM (fun d => (L d).mapM (f d)) = .ok yss ∧ yss.flatten.foldlM g c = .ok c' := by
  induction l generalizing c with
  | nil => exact ⟨fun h => ⟨[], rfl, h⟩, fun ⟨_, h, hc⟩ => (by cases h; exact hc)⟩
  | cons d l ih =>
    simp only [List.foldlM_cons, List.mapM_cons, bind_eq_ok, ih,
      foldlM_read fun _ _ _ => bind_eq_ok]
    constructor
    · intro ⟨c₁, ⟨ys, hys, hc₁⟩, yss, hyss, hc'⟩
      refine ⟨ys :: yss, ⟨ys, hys, yss, hyss, rfl⟩, ?_⟩
      rw [List.flatten_cons, List.foldlM_append]
      exact bind_eq_ok.2 ⟨c₁, hc₁, hc'⟩
    · intro ⟨_, ⟨ys, hys, yss, hyss, hpure⟩, hfold⟩
      cases hpure
      rw [List.flatten_cons, List.foldlM_append] at hfold
      obtain ⟨c₁, hc₁, hc'⟩ := bind_eq_ok.1 hfold
      exact ⟨c₁, ⟨ys, hys, hc₁⟩, yss, hyss, hc'⟩

/-- What can be read can be read in another order. -/
theorem mapM_perm {f : α → Except ε β} {l l' : List α} {ys : List β} (hperm : l.Perm l')
    (h : l.mapM f = .ok ys) : ∃ ys', l'.mapM f = .ok ys' ∧ ys.Perm ys' := by
  obtain ⟨ys', hys', hp⟩ := List.perm_comp_forall₂ hperm.symm (mapM_eq_ok.1 h)
  exact ⟨ys', mapM_eq_ok.2 hys', hp.symm⟩

end Lib
