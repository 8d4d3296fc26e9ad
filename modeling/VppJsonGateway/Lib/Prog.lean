import Mathlib.Logic.Relation

/-!
# Programs over shared state that may stop between any two steps

`Prog σ C α` is a program that changes a state `σ` in atomic steps. A step sees an answer of
type `C` the environment chooses (the outcome of a system call, say) and the state; between two
steps the environment may change the state, and the program may be cut off. `Machine` runs one
program after another with such interference and crashes.

`Follows` is the proof rule: under a rely `R` of the environment and an invariant `I`, every
step of the program is allowed by the guarantee `G`, and the program ends in `Q`. What a
machine can reach is then decided by `R`, `G` and the crash alone (`Machine.reachable`), with
no more program in sight.
-/

namespace Lib

/-- A program over states `σ` with answers `C` and a result in `α`. -/
inductive Prog (σ C : Type) (α : Type) : Type where
  /-- The program is done. -/
  | ret (a : α)
  /-- The program ends its process. -/
  | abort
  /-- One atomic step, and how to go on after it. -/
  | act (f : C → σ → σ) (k : C → σ → Prog σ C α)

namespace Prog

variable {σ C α β : Type}

/-- Sequencing. -/
def bind : Prog σ C α → (α → Prog σ C β) → Prog σ C β
  | .ret a, g => g a
  | .abort, _ => .abort
  | .act f k, g => .act f fun c s => (k c s).bind g

instance : Monad (Prog σ C) where
  pure := .ret
  bind := bind

/-- One atomic step with a result. -/
def step (f : C → σ → α × σ) : Prog σ C α := .act (fun c s => (f c s).2) fun c s => .ret (f c s).1

/-- One atomic step that reads. -/
def read (f : σ → α) : Prog σ C α := step fun _ s => (f s, s)

/-- One atomic step that changes the state, whatever the answer. -/
def modify (f : σ → σ) : Prog σ C Unit := step fun _ s => ((), f s)

/-- The body run for each element in turn. -/
def forEach : List α → (α → Prog σ C Unit) → Prog σ C Unit
  | [], _ => .ret ()
  | x :: xs, body => (body x).bind fun _ => forEach xs body

/-- The program runs to its end on the given answers without interference: its result, the
state after it and the answers it left. None when it aborts or the answers run out. -/
def exec : Prog σ C α → List C → σ → Option (α × List C × σ)
  | .ret a, cs, s => some (a, cs, s)
  | .abort, _, _ => none
  | .act _ _, [], _ => none
  | .act f k, c :: cs, s => (k c s).exec cs (f c s)

/-- The program after at most `n` steps with the same answer to each and without interference, with
the state there. -/
def advance (c : C) : Nat → Prog σ C α → σ → Prog σ C α × σ
  | n + 1, .act f k, s => (k c s).advance c n (f c s)
  | _, p, s => (p, s)

/-- Whether a step is left. -/
def waits : Prog σ C α → Bool
  | .act _ _ => true
  | _ => false

/-- The program run to its end with the same answer to each step and without interference. -/
def total (c : C) : Prog σ C α → σ → Option (α × σ)
  | .ret a, s => some (a, s)
  | .abort, _ => none
  | .act f k, s => (k c s).total c (f c s)

@[simp] theorem total_pure (c : C) (a : α) (s : σ) :
    (pure a : Prog σ C α).total c s = some (a, s) := rfl

@[simp] theorem total_bind (c : C) (p : Prog σ C α) (g : α → Prog σ C β) : ∀ s : σ,
    (p >>= g).total c s = (p.total c s).bind fun r => (g r.1).total c r.2 := by
  induction p with
  | ret a => exact fun _ => rfl
  | abort => exact fun _ => rfl
  | act f k ih => exact fun s => ih c s (f c s)

@[simp] theorem total_step (c : C) (f : C → σ → α × σ) (s : σ) :
    (step f).total c s = some (f c s) := rfl

@[simp] theorem total_read (c : C) (f : σ → α) (s : σ) :
    (read f : Prog σ C α).total c s = some (f s, s) := rfl

@[simp] theorem total_modify (c : C) (f : σ → σ) (s : σ) :
    (modify f : Prog σ C Unit).total c s = some ((), f s) := rfl

@[simp] theorem total_forEach_nil (c : C) (body : α → Prog σ C Unit) (s : σ) :
    (forEach [] body).total c s = some ((), s) := rfl

@[simp] theorem total_forEach_cons (c : C) (x : α) (xs : List α) (body : α → Prog σ C Unit) (s : σ) :
    (forEach (x :: xs) body).total c s =
      ((body x).total c s).bind fun r => (forEach xs body).total c r.2 :=
  total_bind c (body x) (fun _ => forEach xs body) s

/-- Whether these steps are all of a certain kind. -/
def checks (c : C) (ok : σ → σ → Bool) : Nat → Prog σ C α → σ → Bool
  | n + 1, .act f k, s => ok s (f c s) && (k c s).checks c ok n (f c s)
  | _, _, _ => true

theorem checks_true (c : C) (n : Nat) : ∀ (p : Prog σ C α) (s : σ),
    p.checks c (fun _ _ => true) n s = true := by
  induction n with
  | zero => intro p s; cases p <;> rfl
  | succ n ih =>
    intro p s
    cases p with
    | ret a => rfl
    | abort => rfl
    | act f k => exact ih (k c s) (f c s)

theorem checks_le {c : C} {ok : σ → σ → Bool} {m n : Nat} (hle : m ≤ n) :
    ∀ {p : Prog σ C α} {s : σ}, p.checks c ok n s = true → p.checks c ok m s = true := by
  induction m generalizing n with
  | zero => intro p s _; cases p <;> rfl
  | succ m ih =>
    obtain ⟨n, rfl⟩ : ∃ k, n = k + 1 := ⟨n - 1, by omega⟩
    intro p s h
    cases p with
    | ret a => rfl
    | abort => rfl
    | act f k =>
      obtain ⟨hfirst, hrest⟩ := (Bool.and_eq_true _ _).mp h
      exact (Bool.and_eq_true _ _).mpr ⟨hfirst, ih (Nat.le_of_succ_le_succ hle) hrest⟩

/-- Whether the program is done. -/
def isDone : Prog σ C α → Bool
  | .ret _ => true
  | _ => false

/-- The program in a better environment: to a step that would change the state by `f`, the
answer `c` is given as `g f c`. -/
def confine (g : (C → σ → σ) → C → C) : Prog σ C α → Prog σ C α
  | .ret a => .ret a
  | .abort => .abort
  | .act f k => .act (fun c s => f (g f c) s) fun c s => (k (g f c) s).confine g

/-- The program on a part of a larger state, with the part of the answers that concerns it. -/
def lift {τ D : Type} (get : τ → σ) (set : σ → τ → τ) (answer : D → C) :
    Prog σ C α → Prog τ D α
  | .ret a => .ret a
  | .abort => .abort
  | .act f k => .act (fun d t => set (f (answer d) (get t)) t)
      fun d t => (k (answer d) (get t)).lift get set answer

/-- A whole execution of a program, with interference by `R`: its result and the state after. -/
inductive Runs (R : σ → σ → Prop) : Prog σ C α → σ → α → σ → Prop
  /-- The program is done. -/
  | ret {a : α} {s : σ} : Runs R (.ret a) s a s
  /-- The environment moves. -/
  | env {p : Prog σ C α} {a : α} {s t u : σ} (h : R s t) (rest : Runs R p t a u) : Runs R p s a u
  /-- The program makes a step. -/
  | act {f : C → σ → σ} {k : C → σ → Prog σ C α} {a : α} {s u : σ} (c : C)
      (rest : Runs R (k c s) (f c s) a u) : Runs R (.act f k) s a u

/-- A part of an execution of a program, with interference by `R`: what is left of it, and the
state there. -/
inductive Goes (R : σ → σ → Prop) : Prog σ C α → σ → Prog σ C α → σ → Prop
  /-- The execution is here. -/
  | here {p : Prog σ C α} {s : σ} : Goes R p s p s
  /-- The environment moves. -/
  | env {p q : Prog σ C α} {s t u : σ} (h : R s t) (rest : Goes R p t q u) : Goes R p s q u
  /-- The program makes a step. -/
  | act {f : C → σ → σ} {k : C → σ → Prog σ C α} {q : Prog σ C α} {s u : σ} (c : C)
      (rest : Goes R (k c s) (f c s) q u) : Goes R (.act f k) s q u

/-- The program runs on a script: before each step the environment moves, and then it answers.
The result, what is left of the script, and the state after. -/
def play {E : Type} (move : E → σ → σ) :
    Prog σ C α → List (E × C) → σ → Option (α × List (E × C) × σ)
  | .ret a, script, s => some (a, script, s)
  | .abort, _, _ => none
  | .act _ _, [], _ => none
  | .act f k, (e, c) :: script, s => (k c (move e s)).play move script (f c (move e s))

/-- Answers that the better environment gives as they are. -/
theorem exec_confine {g : (C → σ → σ) → C → C} {p : Prog σ C α} :
    ∀ {cs : List C} {s : σ}, (∀ f, ∀ c ∈ cs, g f c = c) → (p.confine g).exec cs s = p.exec cs s := by
  induction p with
  | ret a => exact fun _ => rfl
  | abort => exact fun _ => rfl
  | act f k ih =>
    intro cs s h
    cases cs with
    | nil => rfl
    | cons c cs =>
      rw [confine, exec, h f c List.mem_cons_self, exec]
      exact ih c s fun f' c' hc' => h f' c' (List.mem_cons_of_mem _ hc')

/-! ## The rule -/

section Follows

variable (R G : σ → σ → Prop) (I : σ → Prop)

/-- From the state `s`, every step of the program is allowed by `G`, whatever the environment
does within `R` in between, and the program ends in `Q`. The invariant may be used at every
step: `R` and `G` keep it. -/
def Follows (Q : α → σ → Prop) : Prog σ C α → σ → Prop
  | .ret a, s => Q a s
  | .abort, _ => True
  | .act f k, s => ∀ s', R s s' → I s' → ∀ c, G s' (f c s') ∧ Follows Q (k c s') (f c s')

variable {R G I} {Q : α → σ → Prop} {s : σ}

/-- What was shown is still true after the environment has moved. -/
theorem Follows.rely {p : Prog σ C α} {s' : σ} (h : Follows R G I Q p s)
    (htrans : ∀ {a b c}, R a b → R b c → R a c) (hR : R s s')
    (hQ : ∀ a, Q a s → Q a s') : Follows R G I Q p s' := by
  cases p with
  | ret a => exact hQ a h
  | abort => trivial
  | act f k => exact fun t ht hI c => h t (htrans hR ht) hI c

/-- Nothing is asked of the steps, and nothing of the end. -/
theorem follows_trivial {p : Prog σ C α} (hQ : ∀ a s, Q a s) :
    ∀ {s : σ}, Follows R (fun _ _ => True) I Q p s := by
  induction p with
  | ret a => exact hQ a _
  | abort => exact trivial
  | act f k ih => exact fun t _ _ c => ⟨trivial, ih c t⟩

theorem Follows.mono {Q' : α → σ → Prop} (hQ : ∀ a s, Q a s → Q' a s)
    {p : Prog σ C α} : ∀ {s : σ}, Follows R G I Q p s → Follows R G I Q' p s := by
  induction p with
  | ret a => exact fun h => hQ a _ h
  | abort => exact fun _ => trivial
  | act f k ih => exact fun h t ht hI c => ⟨(h t ht hI c).1, ih c t (h t ht hI c).2⟩

/-- A weaker guarantee. -/
theorem Follows.guarantee {G' : σ → σ → Prop} {p : Prog σ C α} :
    ∀ {s : σ}, Follows R G I Q p s → (∀ s s', G s s' → G' s s') → Follows R G' I Q p s := by
  induction p with
  | ret a => exact fun h _ => h
  | abort => exact fun _ _ => trivial
  | act f k ih =>
    exact fun h hG t ht hI c => ⟨hG _ _ (h t ht hI c).1, ih c t (h t ht hI c).2 hG⟩

/-- Two guarantees and two ends at once. -/
theorem Follows.and {G' : σ → σ → Prop} {Q' : α → σ → Prop} {p : Prog σ C α} :
    ∀ {s : σ}, Follows R G I Q p s → Follows R G' I Q' p s →
      Follows R (fun s s' => G s s' ∧ G' s s') I (fun a s => Q a s ∧ Q' a s) p s := by
  induction p with
  | ret a => exact fun h h' => ⟨h, h'⟩
  | abort => exact fun _ _ => trivial
  | act f k ih =>
    exact fun h h' t ht hI c => ⟨⟨(h t ht hI c).1, (h' t ht hI c).1⟩,
      ih c t (h t ht hI c).2 (h' t ht hI c).2⟩

/-- What the environment and every step allowed by the guarantee preserve holds at the end. -/
theorem Follows.keep {F : σ → Prop} (hR : ∀ {s t}, F s → R s t → F t)
    (hG : ∀ {s t}, I s → F s → G s t → F t) {p : Prog σ C α} :
    ∀ {s : σ}, Follows R G I Q p s → F s → Follows R G I (fun a t => Q a t ∧ F t) p s := by
  induction p with
  | ret a => exact fun h hF => ⟨h, hF⟩
  | abort => exact fun _ _ => trivial
  | act f k ih =>
    exact fun h hF t ht hI c => ⟨(h t ht hI c).1,
      ih c t (h t ht hI c).2 (hG hI (hR hF ht) (h t ht hI c).1)⟩

/-- Sequencing: what the first part ends in is where the second part starts. -/
theorem Follows.bind {Q' : β → σ → Prop} {g : α → Prog σ C β} {p : Prog σ C α} :
    ∀ {s : σ}, Follows R G I (fun a t => Follows R G I Q' (g a) t) p s →
      Follows R G I Q' (p.bind g) s := by
  induction p with
  | ret a => exact fun h => h
  | abort => exact fun _ => trivial
  | act f k ih => exact fun h t ht hI c => ⟨(h t ht hI c).1, ih c t (h t ht hI c).2⟩

/-- Sequencing, with what the first part ends in stated on its own. -/
theorem Follows.seq {Q' : β → σ → Prop} {g : α → Prog σ C β} {p : Prog σ C α}
    (h : Follows R G I Q p s) (hg : ∀ a t, Q a t → Follows R G I Q' (g a) t) :
    Follows R G I Q' (p >>= g) s :=
  Follows.bind (h.mono hg)

theorem Follows.step {f : C → σ → α × σ}
    (h : ∀ t, R s t → I t → ∀ c, G t (f c t).2 ∧ Q (f c t).1 (f c t).2) :
    Follows R G I Q (step f) s := h

theorem Follows.read (hG : ∀ t, G t t) {f : σ → α} (h : ∀ t, R s t → I t → Q (f t) t) :
    Follows R G I Q (read f : Prog σ C α) s :=
  Follows.step fun t ht hI _ => ⟨hG t, h t ht hI⟩

/-- The rule is about whole executions, when the invariant is trivial. -/
theorem Follows.runs {p : Prog σ C α} {a : α} {u : σ}
    (h : Follows R G (fun _ => True) Q p s) (hrun : Runs R p s a u) (hrefl : ∀ s, R s s)
    (htrans : ∀ {a b c}, R a b → R b c → R a c) (hQ : ∀ a s t, R s t → Q a s → Q a t) :
    Q a u := by
  induction hrun with
  | ret => exact h
  | env hR _ ih => exact ih (h.rely htrans hR fun a => hQ a _ _ hR)
  | act c _ ih => exact ih (h _ (hrefl _) trivial c).2

/-- A quieter environment. -/
theorem Follows.narrow {R' : σ → σ → Prop} (hR : ∀ {s t}, R' s t → R s t) {p : Prog σ C α} :
    ∀ {s : σ}, Follows R G I Q p s → Follows R' G I Q p s := by
  induction p with
  | ret a => exact fun h => h
  | abort => exact fun _ => trivial
  | act f k ih => exact fun h t ht hI c => ⟨(h t (hR ht) hI c).1, ih c t (h t (hR ht) hI c).2⟩

/-- The rule is about whole executions without interference, with what the steps keep. -/
theorem Follows.runs_still {p : Prog σ C α} {a : α} {u : σ} {K : σ → Prop}
    (h : Follows R G I Q p s) (hrun : Runs Eq p s a u) (hrefl : ∀ s, R s s) (hI : I s)
    (hkeep : ∀ {s t}, I s → G s t → I t) (hK : K s) (hG : ∀ {s t}, K s → G s t → K t) :
    Q a u ∧ K u := by
  induction hrun with
  | ret => exact ⟨h, hK⟩
  | env heq _ ih =>
    subst heq
    exact ih h hI hK
  | act c _ ih =>
    obtain ⟨hstep, hrest⟩ := h _ (hrefl _) hI c
    exact ih hrest (hkeep hI hstep) (hG hK hstep)

/-- An execution to the end with the same answer to each step. -/
theorem Runs.of_total {R : σ → σ → Prop} {c : C} {p : Prog σ C α} : ∀ {s t : σ} {a : α},
    p.total c s = some (a, t) → Runs R p s a t := by
  induction p with
  | ret a =>
    intro s t b h
    cases h
    exact .ret
  | abort => exact fun h => by cases h
  | act f k ih => exact fun h => .act c (ih c _ h)

/-- A preorder that the environment and the steps respect relates the states of an execution. -/
theorem Follows.goes {p q : Prog σ C α} {t : σ} {K : σ → σ → Prop}
    (h : Follows R K (fun _ => True) Q p s) (hgoes : Goes R p s q t) (hrefl : ∀ s, R s s)
    (htrans : ∀ {a b c}, R a b → R b c → R a c) (hQ : ∀ a s t, R s t → Q a s → Q a t)
    (hK : ∀ s, K s s) (hcomp : ∀ {a b c}, K a b → K b c → K a c)
    (hR : ∀ {a b}, R a b → K a b) : K s t := by
  induction hgoes with
  | here => exact hK _
  | env henv _ ih => exact hcomp (hR henv) (ih (h.rely htrans henv fun a => hQ a _ _ henv))
  | act c _ ih => exact hcomp (h _ (hrefl _) trivial c).1 (ih (h _ (hrefl _) trivial c).2)

/-- An execution up to a number of steps, with the same answer to each. -/
theorem goes_advance {R : σ → σ → Prop} (c : C) (n : Nat) : ∀ (p : Prog σ C α) (s : σ),
    p.Goes R s (p.advance c n s).1 (p.advance c n s).2 := by
  induction n with
  | zero =>
    intro p s
    cases p <;> exact .here
  | succ n ih =>
    intro p s
    cases p with
    | ret a => exact .here
    | abort => exact .here
    | act f k => exact .act c (ih (k c s) (f c s))

/-- A loop over a list, by a loop invariant over what is left of the list. -/
theorem Follows.forEach {J : List α → σ → Prop} {body : α → Prog σ C Unit}
    (hbody : ∀ x xs t, J (x :: xs) t → Follows R G I (fun _ u => J xs u) (body x) t) :
    ∀ {l : List α} {s : σ}, J l s → Follows R G I (fun _ u => J [] u) (forEach l body) s := by
  intro l
  induction l with
  | nil => exact fun h => h
  | cons x xs ih =>
    intro s h
    exact Follows.seq (hbody x xs s h) fun _ t ht => ih ht

/-- What was shown for every answer holds in a better environment. -/
theorem Follows.confine {g : (C → σ → σ) → C → C} {p : Prog σ C α} :
    ∀ {s : σ}, Follows R G I Q p s → Follows R G I Q (p.confine g) s := by
  induction p with
  | ret a => exact fun h => h
  | abort => exact fun _ => trivial
  | act f k ih => exact fun h t ht hI c => ⟨(h t ht hI _).1, ih _ t (h t ht hI _).2⟩

/-- Sequencing in a better environment. -/
theorem Follows.confine_seq {g : (C → σ → σ) → C → C} {Q' : β → σ → Prop} {k : α → Prog σ C β}
    {p : Prog σ C α} (hk : ∀ a t, Q a t → Follows R G I Q' ((k a).confine g) t) :
    ∀ {s : σ}, Follows R G I Q (p.confine g) s → Follows R G I Q' ((p >>= k).confine g) s := by
  induction p with
  | ret a => exact fun h => hk a _ h
  | abort => exact fun _ => trivial
  | act f l ih => exact fun h t ht hI c => ⟨(h t ht hI c).1, ih _ t (h t ht hI c).2⟩

/-- A loop over a list in a better environment. -/
theorem Follows.confine_forEach {g : (C → σ → σ) → C → C} {J : List α → σ → Prop}
    {body : α → Prog σ C Unit}
    (hbody : ∀ x xs t, J (x :: xs) t →
      Follows R G I (fun _ u => J xs u) ((body x).confine g) t) :
    ∀ {l : List α} {s : σ}, J l s →
      Follows R G I (fun _ u => J [] u) ((Prog.forEach l body).confine g) s := by
  intro l
  induction l with
  | nil => exact fun h => h
  | cons x xs ih =>
    intro s h
    exact Follows.confine_seq (fun _ t ht => ih ht) (hbody x xs s h)

/-- What was shown of a program holds where it runs on a part of a larger state. -/
theorem Follows.lift {τ D : Type} {get : τ → σ} {set : σ → τ → τ} {answer : D → C}
    {R' G' : τ → τ → Prop} {I' : τ → Prop} {Q' : α → τ → Prop} (hget : ∀ s t, get (set s t) = s)
    (hR : ∀ {t t'}, R' t t' → R (get t) (get t')) (hI : ∀ {t}, I' t → I (get t))
    (hG : ∀ {t s}, I' t → G (get t) s → G' t (set s t)) {P : τ → Prop}
    (hP : ∀ {t t'}, P t → R' t t' → P t') (hPset : ∀ {t s}, P t → G (get t) s → P (set s t))
    (hQ : ∀ {a t}, P t → Q a (get t) → Q' a t) {p : Prog σ C α} :
    ∀ {t : τ}, P t → Follows R G I Q p (get t) → Follows R' G' I' Q' (p.lift get set answer) t := by
  induction p with
  | ret a => exact fun hPt h => hQ hPt h
  | abort => exact fun _ _ => trivial
  | act f k ih =>
    intro t hPt h t' ht hI' d
    obtain ⟨hstep, hrest⟩ := h (get t') (hR ht) (hI hI') (answer d)
    refine ⟨hG hI' hstep, ih _ _ (hPset (hP hPt ht) hstep) ?_⟩
    rw [hget]
    exact hrest

/-- An environment that changes no answer is the one there was. -/
theorem confine_id (p : Prog σ C α) : p.confine (fun _ c => c) = p := by
  induction p with
  | ret a => rfl
  | abort => rfl
  | act f k ih => exact congrArg (Prog.act f) (funext fun c => funext fun s => ih c s)

end Follows

/-! ## Two executions on one script -/

section Coupled

variable {E : Type} (move : E → σ → σ)

/-- Two programs in lockstep on every script: they end in `Q` together, but for an excuse by a
result in `X` on the left or in `Y` on the right. -/
def Coupled (X : α → Prop) (Y : β → Prop) (Q : α → σ → β → σ → Prop) :
    Prog σ C α → Prog σ C β → σ → σ → Prop
  | .ret a, .ret b, s, t => Q a s b t ∨ X a ∨ Y b
  | .ret a, _, _, _ => X a
  | .act f k, .act g l, s, t => ∀ e c,
      Coupled X Y Q (k c (move e s)) (l c (move e t)) (f c (move e s)) (g c (move e t))
  | _, .ret b, _, _ => Y b
  | _, _, _, _ => False

variable {move} {X : α → Prop} {Y : β → Prop} {Q : α → σ → β → σ → Prop}

/-- What coupled programs do on a script. -/
theorem Coupled.play {p : Prog σ C α} : ∀ {q : Prog σ C β} {s t s' : σ} {a : α}
    {script rest : List (E × C)}, Coupled move X Y Q p q s t →
    p.play move script s = some (a, rest, s') →
    (∃ b t', q.play move script t = some (b, rest, t') ∧ Q a s' b t') ∨ X a ∨
      ∃ b rest' t', q.play move script t = some (b, rest', t') ∧ Y b := by
  induction p with
  | ret a =>
    intro q s t s' a' script rest h hplay
    cases hplay
    cases q with
    | ret b =>
      rcases h with h | h | h
      · exact .inl ⟨b, t, rfl, h⟩
      · exact .inr (.inl h)
      · exact .inr (.inr ⟨b, script, t, rfl, h⟩)
    | abort => exact .inr (.inl h)
    | act g l => exact .inr (.inl h)
  | abort =>
    intro q s t s' a' script rest h hplay
    cases hplay
  | act f k ih =>
    intro q s t s' a' script rest h hplay
    cases q with
    | ret b => exact .inr (.inr ⟨b, script, t, rfl, h⟩)
    | abort => exact h.elim
    | act g l =>
      cases script with
      | nil => cases hplay
      | cons ec script =>
        obtain ⟨e, c⟩ := ec
        have hrest : (k c (move e s)).play move script (f c (move e s)) = some (a', rest, s') :=
          hplay
        have key := ih c (move e s) (h e c) hrest
        exact key

/-- Sequencing, after parts that need no excuse. -/
theorem Coupled.seq {α' β' : Type} {P : α' → σ → β' → σ → Prop} {k : α' → Prog σ C α}
    {l : β' → Prog σ C β} {p : Prog σ C α'}
    (hk : ∀ a s b t, P a s b t → Coupled move X Y Q (k a) (l b) s t) :
    ∀ {q : Prog σ C β'} {s t : σ},
      Coupled move (fun _ => False) (fun _ => False) P p q s t →
      Coupled move X Y Q (p >>= k) (q >>= l) s t := by
  induction p with
  | ret a =>
    intro q s t h
    cases q with
    | ret b =>
      rcases h with h | h | h
      · exact hk a s b t h
      · exact h.elim
      · exact h.elim
    | abort => exact h.elim
    | act g l' => exact h.elim
  | abort =>
    intro q s t h
    cases q <;> exact h.elim
  | act f k' ih =>
    intro q s t h
    cases q with
    | ret b => exact h.elim
    | abort => exact h.elim
    | act g l' => exact fun e c => ih _ _ (h e c)

theorem Coupled.ret {a : α} {b : β} {s t : σ} (h : Q a s b t) :
    Coupled move X Y Q (pure a : Prog σ C α) (pure b : Prog σ C β) s t := .inl h

theorem Coupled.step {f : C → σ → α × σ} {g : C → σ → β × σ} {s t : σ}
    (h : ∀ e c, Q (f c (move e s)).1 (f c (move e s)).2 (g c (move e t)).1 (g c (move e t)).2) :
    Coupled move X Y Q (Prog.step f) (Prog.step g) s t := fun e c => .inl (h e c)

end Coupled

end Prog

/-! ## Machines -/

/-- A process that runs programs over a state one after the other: which program may be
started where, what the environment may do at any time, and what a crash leaves. -/
structure Machine (σ C : Type) where
  init : σ → Prop
  start : σ → Prog σ C Unit → Prop
  env : σ → σ → Prop
  crash : σ → σ

namespace Machine

variable {σ C : Type}

/-- One step of a machine: the state and what is left of the running program, if one runs. -/
inductive Step (m : Machine σ C) :
    σ × Option (Prog σ C Unit) → σ × Option (Prog σ C Unit) → Prop
  /-- The environment moves. -/
  | env {s s' : σ} {p : Option (Prog σ C Unit)} (h : m.env s s') : Step m (s, p) (s', p)
  /-- A program is started. -/
  | start {s : σ} {p : Prog σ C Unit} (h : m.start s p) : Step m (s, none) (s, some p)
  /-- The running program makes a step. -/
  | act {s : σ} {f : C → σ → σ} {k : C → σ → Prog σ C Unit} (c : C) :
      Step m (s, some (.act f k)) (f c s, some (k c s))
  /-- The running program is done. -/
  | done {s : σ} : Step m (s, some (.ret ())) (s, none)
  /-- The process ends, or is ended, and starts again. -/
  | crash {s : σ} {p : Option (Prog σ C Unit)} : Step m (s, p) (m.crash s, none)

/-- Runs. -/
abbrev Run (m : Machine σ C) := Relation.ReflTransGen m.Step

/-- What a machine can reach from one of its initial states. -/
def Reachable (m : Machine σ C) (x : σ × Option (Prog σ C Unit)) : Prop :=
  ∃ s, m.init s ∧ m.Run (s, none) x

/-- A program run to its end on some answers is a run of the machine. -/
theorem run_exec {m : Machine σ C} {cs rest : List C} {p : Prog σ C Unit} {s s' : σ}
    (hstart : m.start s p) (h : p.exec cs s = some ((), rest, s')) :
    m.Run (s, none) (s', none) := by
  have key : ∀ {p : Prog σ C Unit} {cs : List C} {s : σ}, p.exec cs s = some ((), rest, s') →
      m.Run (s, some p) (s', none) := by
    intro p
    induction p with
    | ret a =>
      intro cs s h
      simp only [Prog.exec, Option.some.injEq, Prod.mk.injEq] at h
      obtain ⟨-, -, rfl⟩ := h
      exact Relation.ReflTransGen.single .done
    | abort =>
      intro cs s h
      cases h
    | act f k ih =>
      intro cs s h
      cases cs with
      | nil => cases h
      | cons c cs => exact Relation.ReflTransGen.head (.act c) (ih c s h)
  exact Relation.ReflTransGen.head (.start hstart) (key h)

/-- A program run to its end is a run of the machine. -/
theorem run_total {m : Machine σ C} {c : C} {p : Prog σ C Unit} {s t : σ} (hstart : m.start s p)
    (h : p.total c s = some ((), t)) : m.Run (s, none) (t, none) := by
  have key : ∀ {p : Prog σ C Unit} {s : σ}, p.total c s = some ((), t) →
      m.Run (s, some p) (t, none) := by
    intro p
    induction p with
    | ret a =>
      intro s h
      cases h
      exact .single .done
    | abort =>
      intro s h
      cases h
    | act f k ih =>
      intro s h
      exact .head (.act c) (ih c s h)
  exact .head (.start hstart) (key h)

/-- What has to be shown of a machine to know its runs: `I` holds in every state, `B` wherever
no program runs, and every step made by a program is allowed by `G`. -/
structure Sound (m : Machine σ C) (R G : σ → σ → Prop) (I B : σ → Prop) : Prop where
  refl : ∀ s, R s s
  trans : ∀ {a b c}, R a b → R b c → R a c
  env : ∀ {s s'}, m.env s s' → R s s'
  init : ∀ {s}, m.init s → I s ∧ B s
  keep : ∀ {s s'}, I s → R s s' → I s'
  idle : ∀ {s s'}, I s → B s → R s s' → B s'
  own : ∀ {s s'}, I s → G s s' → I s'
  crash : ∀ {s}, I s → I (m.crash s) ∧ B (m.crash s)
  start : ∀ {s p}, I s → B s → m.start s p → p.Follows R G I (fun _ => B) s

section Rule

variable {m : Machine σ C} {R G : σ → σ → Prop} {I B : σ → Prop}

/-- What holds of a state together with the running program. -/
def Holds (R G : σ → σ → Prop) (I B : σ → Prop) (x : σ × Option (Prog σ C Unit)) : Prop :=
  I x.1 ∧
    match x.2 with
    | none => B x.1
    | some p => p.Follows R G I (fun _ => B) x.1

/-- One step of the machine is one of the environment, one the guarantee allows, a crash, or
leaves the state as it is. -/
theorem Sound.step (h : Sound m R G I B) {x y : σ × Option (Prog σ C Unit)}
    (hx : Holds R G I B x) (hstep : m.Step x y) :
    Holds R G I B y ∧ (R x.1 y.1 ∨ G x.1 y.1 ∨ y.1 = m.crash x.1) := by
  obtain ⟨hI, hx⟩ := hx
  cases hstep with
  | @env s s' p henv =>
    have hR := h.env henv
    refine ⟨⟨h.keep hI hR, ?_⟩, .inl hR⟩
    cases p with
    | none => exact h.idle hI hx hR
    | some p =>
      have hp : p.Follows R G I (fun _ => B) s := hx
      exact hp.rely h.trans hR fun _ hB => h.idle hI hB hR
  | @start s p hp => exact ⟨⟨hI, h.start hI hx hp⟩, .inl (h.refl s)⟩
  | @act s f k c =>
    have hact := hx s (h.refl s) hI c
    exact ⟨⟨h.own hI hact.1, hact.2⟩, .inr (.inl hact.1)⟩
  | @done s => exact ⟨⟨hI, hx⟩, .inl (h.refl s)⟩
  | @crash s p => exact ⟨h.crash hI, .inr (.inr rfl)⟩

/-- **The invariant rule.** -/
theorem Sound.run (h : Sound m R G I B) {x y : σ × Option (Prog σ C Unit)}
    (hx : Holds R G I B x) (hrun : m.Run x y) : Holds R G I B y := by
  induction hrun with
  | refl => exact hx
  | tail _ hstep ih => exact (h.step ih hstep).1

theorem Sound.reachable (h : Sound m R G I B) {x : σ × Option (Prog σ C Unit)}
    (hx : m.Reachable x) : Holds R G I B x := by
  obtain ⟨s, hs, hrun⟩ := hx
  exact h.run (x := (s, none)) (h.init hs) hrun

/-- A further invariant that the environment, the guarantee and a crash keep. -/
theorem Sound.reachable_inv (h : Sound m R G I B) {J : σ → Prop} (hinit : ∀ {s}, m.init s → J s)
    (hR : ∀ {s s'}, I s → J s → R s s' → J s') (hG : ∀ {s s'}, I s → J s → G s s' → J s')
    (hcrash : ∀ {s}, I s → J s → J (m.crash s)) {x : σ × Option (Prog σ C Unit)}
    (hx : m.Reachable x) : J x.1 := by
  obtain ⟨s, hs, hrun⟩ := hx
  have key : Holds R G I B x ∧ J x.1 := by
    induction hrun with
    | refl => exact ⟨h.init hs, hinit hs⟩
    | @tail y z _ hstep ih =>
      obtain ⟨hy, hJ⟩ := ih
      obtain ⟨hz, hR' | hG' | hc⟩ := h.step hy hstep
      · exact ⟨hz, hR hy.1 hJ hR'⟩
      · exact ⟨hz, hG hy.1 hJ hG'⟩
      · exact ⟨hz, hc ▸ hcrash hy.1 hJ⟩
  exact key.2

/-- A preorder that the environment, the guarantee and a crash respect relates the states of a
run. -/
theorem Sound.run_rel (h : Sound m R G I B) {K : σ → σ → Prop} (hrefl : ∀ s, K s s)
    (htrans : ∀ {a b c}, K a b → K b c → K a c) (hR : ∀ {s s'}, I s → R s s' → K s s')
    (hG : ∀ {s s'}, I s → G s s' → K s s') (hcrash : ∀ {s}, I s → K s (m.crash s))
    {x y : σ × Option (Prog σ C Unit)} (hx : Holds R G I B x) (hrun : m.Run x y) :
    K x.1 y.1 := by
  have key : Holds R G I B y ∧ K x.1 y.1 := by
    induction hrun with
    | refl => exact ⟨hx, hrefl _⟩
    | @tail y z _ hstep ih =>
      obtain ⟨hy, hK⟩ := ih
      obtain ⟨hz, hR' | hG' | hc⟩ := h.step hy hstep
      · exact ⟨hz, htrans hK (hR hy.1 hR')⟩
      · exact ⟨hz, htrans hK (hG hy.1 hG')⟩
      · exact ⟨hz, htrans hK (hc ▸ hcrash hy.1)⟩
  exact key.2

end Rule

end Machine

end Lib
