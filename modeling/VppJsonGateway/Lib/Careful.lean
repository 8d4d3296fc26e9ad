import VppJsonGateway.Lib.Prog

/-!
# Runs whose steps meet a condition

Some properties of a machine hold in those of its runs only whose steps are of a certain kind.
`StepIf m calm ok` are the steps of a machine `m` where the environment moves by `calm` while a
program runs, and every step of a program is one of `ok`. `FollowsIf` is the proof rule `Follows`
under such a condition: a step that is not `ok` need not be accounted for, and nothing after it.
-/

namespace Lib

namespace Prog

variable {σ C α β : Type}

/-- From the state `s`, every step of the program that comes after steps of `ok` only, and is such
a step itself, is allowed by `G`, and after such steps only the program ends in `Q`. -/
def FollowsIf (ok R G : σ → σ → Prop) (I : σ → Prop) (Q : α → σ → Prop) : Prog σ C α → σ → Prop
  | .ret a, s => Q a s
  | .abort, _ => True
  | .act f k, s => ∀ s', R s s' → I s' → ∀ c, ok s' (f c s') →
      G s' (f c s') ∧ FollowsIf ok R G I Q (k c s') (f c s')

section

variable {ok R R' G G' : σ → σ → Prop} {I I' : σ → Prop} {Q : α → σ → Prop} {s : σ}

/-- What was shown of a program, with a fact that the environment and the steps of `ok` carry
along, and what they are allowed to do while it holds. -/
theorem Follows.carry {F : σ → Prop} (hrely : ∀ {s t}, R' s t → R s t) (hinv : ∀ {s}, I' s → I s)
    (henv : ∀ {s t}, F s → R' s t → F t)
    (hstep : ∀ {s t}, I' s → F s → G s t → ok s t → F t ∧ G' s t) {p : Prog σ C α} :
    ∀ {s : σ}, Follows R G I Q p s → F s →
      FollowsIf ok R' G' I' (fun a t => Q a t ∧ F t) p s := by
  induction p with
  | ret a => exact fun h hF => ⟨h, hF⟩
  | abort => exact fun _ _ => trivial
  | act f k ih =>
    intro s h hF t ht hI c hok
    obtain ⟨hG, hrest⟩ := h t (hrely ht) (hinv hI) c
    obtain ⟨hF', hG'⟩ := hstep hI (henv hF ht) hG hok
    exact ⟨hG', ih c t hrest hF'⟩

theorem FollowsIf.mono {Q' : α → σ → Prop} (hQ : ∀ a s, Q a s → Q' a s) {p : Prog σ C α} :
    ∀ {s : σ}, FollowsIf ok R G I Q p s → FollowsIf ok R G I Q' p s := by
  induction p with
  | ret a => exact fun h => hQ a _ h
  | abort => exact fun _ => trivial
  | act f k ih =>
    exact fun h t ht hI c hok => ⟨(h t ht hI c hok).1, ih c t (h t ht hI c hok).2⟩

/-- Sequencing. -/
theorem FollowsIf.seq {Q' : β → σ → Prop} {g : α → Prog σ C β} {p : Prog σ C α}
    (hg : ∀ a t, Q a t → FollowsIf ok R G I Q' (g a) t) :
    ∀ {s : σ}, FollowsIf ok R G I Q p s → FollowsIf ok R G I Q' (p >>= g) s := by
  induction p with
  | ret a => exact fun h => hg a _ h
  | abort => exact fun _ => trivial
  | act f k ih =>
    exact fun h t ht hI c hok => ⟨(h t ht hI c hok).1, ih c t (h t ht hI c hok).2⟩

/-- A guarantee shown for every run beside one shown under a condition. -/
theorem FollowsIf.and {Q' : α → σ → Prop} (hrely : ∀ {s t}, R s t → R' s t)
    (hinv : ∀ {s}, I s → I' s) {p : Prog σ C α} : ∀ {s : σ}, FollowsIf ok R G I Q p s →
      Follows R' G' I' Q' p s → FollowsIf ok R (fun s t => G s t ∧ G' s t) I Q p s := by
  induction p with
  | ret a => exact fun h _ => h
  | abort => exact fun _ _ => trivial
  | act f k ih =>
    intro s h h' t ht hI c hok
    obtain ⟨hG, hrest⟩ := h t ht hI c hok
    obtain ⟨hG', hrest'⟩ := h' t (hrely ht) (hinv hI) c
    exact ⟨⟨hG, hG'⟩, ih c t hrest hrest'⟩

/-- A stronger condition. -/
theorem FollowsIf.weaken {ok' : σ → σ → Prop} (hok : ∀ {s t}, ok' s t → ok s t)
    (hrely : ∀ {s t}, R' s t → R s t) {p : Prog σ C α} :
    ∀ {s : σ}, FollowsIf ok R G I Q p s → FollowsIf ok' R' G I Q p s := by
  induction p with
  | ret a => exact fun h => h
  | abort => exact fun _ => trivial
  | act f k ih =>
    exact fun h t ht hI c hc => ⟨(h t (hrely ht) hI c (hok hc)).1,
      ih c t (h t (hrely ht) hI c (hok hc)).2⟩

/-- A step that reads. -/
theorem FollowsIf.read (hG : ∀ t, G t t) {f : σ → α} (h : ∀ t, R s t → I t → Q (f t) t) :
    FollowsIf ok R G I Q (Prog.read f : Prog σ C α) s :=
  fun t ht hI _ _ => ⟨hG t, h t ht hI⟩

/-- A loop over a list, by a loop invariant over what is left of the list. -/
theorem FollowsIf.forEach {J : List α → σ → Prop} {body : α → Prog σ C Unit}
    (hbody : ∀ x xs t, J (x :: xs) t → FollowsIf ok R G I (fun _ u => J xs u) (body x) t) :
    ∀ {l : List α} {s : σ}, J l s → FollowsIf ok R G I (fun _ u => J [] u) (Prog.forEach l body) s := by
  intro l
  induction l with
  | nil => exact fun h => h
  | cons x xs ih =>
    intro s h
    exact FollowsIf.seq (fun _ t ht => ih ht) (hbody x xs s h)

end

end Prog

namespace Machine

variable {σ C : Type}

/-- A step of a machine where the environment moves by `calm` while a program runs, and the program
by `ok`. -/
inductive StepIf (m : Machine σ C) (calm ok : σ → σ → Prop) :
    σ × Option (Prog σ C Unit) → σ × Option (Prog σ C Unit) → Prop
  /-- The environment moves, and no program runs. -/
  | idle {s s' : σ} (h : m.env s s') : StepIf m calm ok (s, none) (s', none)
  /-- The environment moves while a program runs. -/
  | env {s s' : σ} {p : Prog σ C Unit} (h : m.env s s') (hcalm : calm s s') :
      StepIf m calm ok (s, some p) (s', some p)
  /-- A program is started. -/
  | start {s : σ} {p : Prog σ C Unit} (h : m.start s p) : StepIf m calm ok (s, none) (s, some p)
  /-- The running program makes a step. -/
  | act {s : σ} {f : C → σ → σ} {k : C → σ → Prog σ C Unit} (c : C) (hok : ok s (f c s)) :
      StepIf m calm ok (s, some (.act f k)) (f c s, some (k c s))
  /-- The running program is done. -/
  | done {s : σ} : StepIf m calm ok (s, some (.ret ())) (s, none)
  /-- The process ends, or is ended, and starts again. -/
  | crash {s : σ} {p : Option (Prog σ C Unit)} : StepIf m calm ok (s, p) (m.crash s, none)

section

variable {m : Machine σ C} {calm ok : σ → σ → Prop} {x y : σ × Option (Prog σ C Unit)}

/-- The condition leaves steps of the machine. -/
theorem StepIf.step (h : m.StepIf calm ok x y) : m.Step x y := by
  cases h with
  | idle h => exact .env h
  | env h _ => exact .env h
  | start h => exact .start h
  | act c _ => exact .act c
  | done => exact .done
  | crash => exact .crash

/-- Without a condition, the steps are those of the machine. -/
theorem Step.stepIf (h : m.Step x y) : m.StepIf (fun _ _ => True) (fun _ _ => True) x y := by
  cases h with
  | @env s s' p h =>
    cases p with
    | none => exact .idle h
    | some p => exact .env h trivial
  | start h => exact .start h
  | act c => exact .act c trivial
  | done => exact .done
  | crash => exact .crash

end

/-! ## Runs without failures -/

section

variable {m : Machine σ C} {calm ok : σ → σ → Prop}

/-- Some steps of a program, all of the kind. -/
theorem run_advance {check : σ → σ → Bool} (hcheck : ∀ s t, check s t = true → ok s t) (c : C)
    (n : Nat) : ∀ (p : Prog σ C Unit) (s : σ), p.checks c check n s = true →
      Relation.ReflTransGen (m.StepIf calm ok) (s, some p)
        ((p.advance c n s).2, some (p.advance c n s).1) := by
  induction n with
  | zero =>
    intro p s _
    cases p <;> exact .refl
  | succ n ih =>
    intro p s h
    cases p with
    | ret a => exact .refl
    | abort => exact .refl
    | act f k =>
      obtain ⟨hstep, hrest⟩ := (Bool.and_eq_true _ _).mp h
      exact .head (.act c (hcheck _ _ hstep)) (ih (k c s) (f c s) hrest)

/-- The step after some steps. -/
theorem stepIf_advance {check : σ → σ → Bool} (hcheck : ∀ s t, check s t = true → ok s t) (c : C)
    (n : Nat) : ∀ (p : Prog σ C Unit) (s : σ), p.checks c check (n + 1) s = true →
      (p.advance c n s).1.waits = true → m.StepIf calm ok
        ((p.advance c n s).2, some (p.advance c n s).1)
        ((p.advance c (n + 1) s).2, some (p.advance c (n + 1) s).1) := by
  induction n with
  | zero =>
    intro p s h hwaits
    cases p with
    | ret a => cases hwaits
    | abort => cases hwaits
    | act f k => exact .act c (hcheck _ _ ((Bool.and_eq_true _ _).mp h).1)
  | succ n ih =>
    intro p s h hwaits
    cases p with
    | ret a => cases hwaits
    | abort => cases hwaits
    | act f k => exact ih (k c s) (f c s) ((Bool.and_eq_true _ _).mp h).2 hwaits

/-- A program that is done after some steps. -/
theorem run_done {check : σ → σ → Bool} (hcheck : ∀ s t, check s t = true → ok s t) {c : C}
    {n : Nat} {p : Prog σ C Unit} {s : σ} (hstart : m.start s p) (hok : p.checks c check n s = true)
    (h : (p.advance c n s).1.isDone = true) :
    Relation.ReflTransGen (m.StepIf calm ok) (s, none) ((p.advance c n s).2, none) := by
  refine .head (.start hstart) ((run_advance hcheck c n p s hok).tail ?_)
  generalize p.advance c n s = r at h ⊢
  obtain ⟨q, t⟩ := r
  cases q with
  | ret a => exact .done
  | abort => cases h
  | act f k => cases h

end

/-! ## The rule for machines -/

/-- What a machine can reach under a condition. -/
def ReachableIf (m : Machine σ C) (calm ok : σ → σ → Prop) (x : σ × Option (Prog σ C Unit)) : Prop :=
  ∃ s, m.init s ∧ Relation.ReflTransGen (m.StepIf calm ok) (s, none) x

theorem Reachable.reachableIf {m : Machine σ C} {x : σ × Option (Prog σ C Unit)}
    (h : m.Reachable x) : m.ReachableIf (fun _ _ => True) (fun _ _ => True) x := by
  obtain ⟨s, hs, hrun⟩ := h
  exact ⟨s, hs, Relation.ReflTransGen.mono (fun _ _ h => h.stepIf) _ _ hrun⟩

theorem ReachableIf.reachable {m : Machine σ C} {calm ok : σ → σ → Prop}
    {x : σ × Option (Prog σ C Unit)} (h : m.ReachableIf calm ok x) : m.Reachable x := by
  obtain ⟨s, hs, hrun⟩ := h
  exact ⟨s, hs, Relation.ReflTransGen.mono (fun _ _ h => h.step) _ _ hrun⟩

/-- What has to be shown of a machine to know the runs under a condition: `I` holds in every
state, `B` wherever no program runs, and every step of a program is allowed by `G`. -/
structure SoundIf (m : Machine σ C) (calm ok G : σ → σ → Prop) (I B : σ → Prop) : Prop where
  init : ∀ {s}, m.init s → I s ∧ B s
  env : ∀ {s s'}, I s → m.env s s' → I s'
  idle : ∀ {s s'}, I s → B s → m.env s s' → B s'
  own : ∀ {s s'}, I s → G s s' → I s'
  crash : ∀ {s}, I s → I (m.crash s) ∧ B (m.crash s)
  start : ∀ {s p}, I s → B s → m.start s p → p.FollowsIf ok
    (Relation.ReflTransGen fun s s' => m.env s s' ∧ calm s s') G I (fun _ => B) s

section

variable {m : Machine σ C} {calm ok G : σ → σ → Prop} {I B : σ → Prop}

/-- What holds of a state together with the running program. -/
def HoldsIf (m : Machine σ C) (calm ok G : σ → σ → Prop) (I B : σ → Prop)
    (x : σ × Option (Prog σ C Unit)) : Prop :=
  I x.1 ∧
    match x.2 with
    | none => B x.1
    | some p => p.FollowsIf ok (Relation.ReflTransGen fun s s' => m.env s s' ∧ calm s s') G I
        (fun _ => B) x.1

/-- What is sound is so under a stronger condition. -/
theorem SoundIf.weaken {calm' ok' : σ → σ → Prop} (h : SoundIf m calm ok G I B)
    (hcalm : ∀ {s t}, calm' s t → calm s t) (hok : ∀ {s t}, ok' s t → ok s t) :
    SoundIf m calm' ok' G I B :=
  { h with
    init := h.init
    start := fun hI hB hp => (h.start hI hB hp).weaken hok fun ht =>
      Relation.ReflTransGen.mono (fun _ _ hm => ⟨hm.1, hcalm hm.2⟩) _ _ ht }

/-- One step under the condition is one of the environment, one the guarantee allows, a crash, or
leaves the state as it is. -/
theorem SoundIf.step (h : SoundIf m calm ok G I B) {x y : σ × Option (Prog σ C Unit)}
    (hx : HoldsIf m calm ok G I B x) (hstep : m.StepIf calm ok x y) :
    HoldsIf m calm ok G I B y ∧
      (m.env x.1 y.1 ∨ (G x.1 y.1 ∧ ok x.1 y.1) ∨ y.1 = m.crash x.1 ∨ y.1 = x.1) := by
  obtain ⟨hI, hx⟩ := hx
  cases hstep with
  | idle henv => exact ⟨⟨h.env hI henv, h.idle hI hx henv⟩, .inl henv⟩
  | @env s s' p henv hcalm =>
    refine ⟨⟨h.env hI henv, ?_⟩, .inl henv⟩
    cases p with
    | ret a => exact h.idle hI hx henv
    | abort => trivial
    | act f k => exact fun t ht => hx t (.head ⟨henv, hcalm⟩ ht)
  | start hp => exact ⟨⟨hI, h.start hI hx hp⟩, .inr (.inr (.inr rfl))⟩
  | act c hok =>
    obtain ⟨hG, hrest⟩ := hx _ .refl hI c hok
    exact ⟨⟨h.own hI hG, hrest⟩, .inr (.inl ⟨hG, hok⟩)⟩
  | done => exact ⟨⟨hI, hx⟩, .inr (.inr (.inr rfl))⟩
  | crash => exact ⟨h.crash hI, .inr (.inr (.inl rfl))⟩

/-- **The invariant rule under a condition**, with a further invariant that the environment, the
steps of programs and a crash keep. -/
theorem SoundIf.run (h : SoundIf m calm ok G I B) {J : σ → Prop}
    (henv : ∀ {s s'}, I s → J s → m.env s s' → J s')
    (hG : ∀ {s s'}, I s → J s → G s s' → ok s s' → J s')
    (hcrash : ∀ {s}, I s → J s → J (m.crash s)) {x y : σ × Option (Prog σ C Unit)}
    (hx : HoldsIf m calm ok G I B x) (hJ : J x.1)
    (hrun : Relation.ReflTransGen (m.StepIf calm ok) x y) :
    HoldsIf m calm ok G I B y ∧ J y.1 := by
  induction hrun with
  | refl => exact ⟨hx, hJ⟩
  | tail _ hstep ih =>
    obtain ⟨hy, hJ⟩ := ih
    obtain ⟨hz, hmove | ⟨hmove, hok⟩ | hmove | hmove⟩ := h.step hy hstep
    · exact ⟨hz, henv hy.1 hJ hmove⟩
    · exact ⟨hz, hG hy.1 hJ hmove hok⟩
    · exact ⟨hz, hmove ▸ hcrash hy.1 hJ⟩
    · exact ⟨hz, hmove ▸ hJ⟩

theorem SoundIf.reachable (h : SoundIf m calm ok G I B) {J : σ → Prop}
    (hinit : ∀ {s}, m.init s → J s) (henv : ∀ {s s'}, I s → J s → m.env s s' → J s')
    (hG : ∀ {s s'}, I s → J s → G s s' → ok s s' → J s')
    (hcrash : ∀ {s}, I s → J s → J (m.crash s)) {x : σ × Option (Prog σ C Unit)}
    (hx : m.ReachableIf calm ok x) : HoldsIf m calm ok G I B x ∧ J x.1 := by
  obtain ⟨s, hs, hrun⟩ := hx
  have hstart : HoldsIf m calm ok G I B (s, none) := h.init hs
  exact h.run henv hG hcrash hstart (hinit hs) hrun

end

end Machine

end Lib
