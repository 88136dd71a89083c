import Mathlib.Data.List.Basic

/-!
# Machines driven by a list of inputs

A step takes a state and an input to a new state and an output, or fails. `run` feeds it a list of
inputs; `total` is the same for a step that cannot fail. An invariant of the steps is one of the
runs, and a machine whose steps simulate those of a total one runs without failing and puts out what
the total one puts out.
-/

namespace Transducer

variable {σ τ ε ω φ : Type}

def run (step : σ → ε → Except φ (σ × ω)) : σ → List ε → Except φ (σ × List ω)
  | s, [] => .ok (s, [])
  | s, e :: es => match step s e with
    | .error f => .error f
    | .ok (s, o) => match run step s es with
      | .error f => .error f
      | .ok (s, os) => .ok (s, o :: os)

def total (step : τ → ε → τ × ω) : τ → List ε → τ × List ω
  | t, [] => (t, [])
  | t, e :: es =>
    let (t, o) := step t e
    let (t, os) := total step t es
    (t, o :: os)

theorem total_append (step : τ → ε → τ × ω) (t : τ) (es es' : List ε) : total step t (es ++ es') =
    ((total step (total step t es).1 es').1, (total step t es).2 ++ (total step (total step t es).1 es').2) := by
  induction es generalizing t with
  | nil => rfl
  | cons e es ih =>
    simp only [List.cons_append, total, ih]

variable {step : σ → ε → Except φ (σ × ω)} {s s' : σ} {e : ε} {es es' : List ε} {os : List ω}

theorem run_cons_ok {r : σ × List ω} : run step s (e :: es) = .ok r ↔
    ∃ s₁ o s₂ os, step s e = .ok (s₁, o) ∧ run step s₁ es = .ok (s₂, os) ∧ r = (s₂, o :: os) := by
  rw [run]
  cases h₁ : step s e with
  | error f => simp
  | ok p =>
    obtain ⟨s₁, o⟩ := p
    cases h₂ : run step s₁ es with
    | error f =>
      constructor
      · intro h; simp only [h₂] at h; cases h
      · rintro ⟨_, _, _, _, h, h', -⟩
        cases h; rw [h₂] at h'; cases h'
    | ok q =>
      constructor
      · intro h
        simp only [h₂] at h
        cases h
        exact ⟨_, _, _, _, rfl, h₂, rfl⟩
      · rintro ⟨_, _, _, _, h, h', rfl⟩
        cases h
        simp only [h']

/-- A run that fails goes through up to the input whose step fails. -/
theorem run_error_iff {f : φ} : run step s es = .error f ↔
    ∃ pre e post s₁ os, es = pre ++ e :: post ∧ run step s pre = .ok (s₁, os) ∧ step s₁ e = .error f := by
  constructor
  · intro h
    induction es generalizing s with
    | nil => cases h
    | cons e es ih =>
      rw [run] at h
      cases h₁ : step s e with
      | error g =>
        rw [h₁] at h
        cases h
        exact ⟨[], e, es, s, [], rfl, rfl, h₁⟩
      | ok p =>
        obtain ⟨s₁, o⟩ := p
        cases h₂ : run step s₁ es with
        | error g =>
          simp only [h₁, h₂] at h
          cases h
          obtain ⟨pre, e', post, s₂, os, rfl, hpre, he'⟩ := ih h₂
          exact ⟨e :: pre, e', post, s₂, o :: os, rfl, run_cons_ok.2 ⟨_, _, _, _, h₁, hpre, rfl⟩, he'⟩
        | ok q =>
          simp only [h₁, h₂] at h
          cases h
  · rintro ⟨pre, e, post, s₁, os, rfl, hpre, he⟩
    induction pre generalizing s os with
    | nil =>
      cases hpre
      rw [List.nil_append, run, he]
    | cons e' pre ih =>
      obtain ⟨s₂, o, s₃, os', h₁, h₂, hr⟩ := run_cons_ok.1 hpre
      cases hr
      rw [List.cons_append, run, h₁]
      simp only [ih _ h₂]

/-- A machine that takes its inputs by another name, and fails by another. -/
theorem run_map {ε' φ' : Type} (f : ε' → ε) (g : φ → φ') (s : σ) (es : List ε') :
    run (fun s e => (step s (f e)).mapError g) s es = (run step s (es.map f)).mapError g := by
  induction es generalizing s with
  | nil => rfl
  | cons e es ih =>
    rw [List.map_cons, run, run]
    cases step s (f e) with
    | error _ => rfl
    | ok p =>
      have hrest := ih p.1
      simp only [Except.mapError] at hrest ⊢
      rw [hrest]
      cases run step p.1 (es.map f) <;> rfl

/-- A simulation of a total machine: no failure, equal outputs, related final states. -/
theorem run_simulates {R : σ → τ → Prop} {step' : τ → ε → τ × ω} {t : τ}
    (hsim : ∀ s t e, R s t → ∃ s', step s e = .ok (s', (step' t e).2) ∧ R s' (step' t e).1)
    (h : R s t) (es : List ε) :
    ∃ s', run step s es = .ok (s', (total step' t es).2) ∧ R s' (total step' t es).1 := by
  induction es generalizing s t with
  | nil => exact ⟨s, rfl, h⟩
  | cons e es ih =>
    obtain ⟨s₁, h₁, hr₁⟩ := hsim s t e h
    obtain ⟨s₂, h₂, hr₂⟩ := ih hr₁
    exact ⟨s₂, run_cons_ok.2 ⟨_, _, _, _, h₁, h₂, rfl⟩, hr₂⟩

/-- What the two machines do on an input: both fail, in the same way, or they put out the same and their new
states are related. -/
inductive Lockstep (R : σ → τ → Prop) : Except φ (σ × ω) → Except φ (τ × ω) → Prop
  | fail (f : φ) : Lockstep R (.error f) (.error f)
  | ok {s : σ} {t : τ} (o : ω) (h : R s t) : Lockstep R (.ok (s, o)) (.ok (t, o))

theorem Lockstep.outputs {R : σ → τ → Prop} {x : Except φ (σ × ω)} {y : Except φ (τ × ω)} (h : Lockstep R x y) :
    x.map Prod.snd = y.map Prod.snd := by
  cases h <;> rfl

theorem run_lockstep {R : σ → τ → Prop} {step' : τ → ε → Except φ (τ × ω)} {t : τ}
    (hstep : ∀ s t e, R s t → Lockstep R (step s e) (step' t e)) (h : R s t) (es : List ε) :
    Lockstep R (run step s es) (run step' t es) := by
  induction es generalizing s t with
  | nil => exact .ok [] h
  | cons e es ih =>
    have hlock := hstep s t e h
    rw [run, run]
    generalize step s e = x at hlock ⊢
    generalize step' t e = y at hlock ⊢
    cases hlock with
    | fail f => exact .fail f
    | @ok s₁ t₁ o h₁ =>
      have hrest := ih h₁
      dsimp only
      generalize run step s₁ es = x at hrest ⊢
      generalize run step' t₁ es = y at hrest ⊢
      cases hrest with
      | fail f => exact .fail f
      | ok os h₂ => exact .ok (o :: os) h₂

/-- Every input of the list is allowed in the state in which the total machine meets it. -/
def Allowed (step : τ → ε → τ × ω) (P : τ → ε → Prop) : τ → List ε → Prop
  | _, [] => True
  | t, e :: es => P t e ∧ Allowed step P (step t e).1 es

theorem Allowed.mono {P Q : τ → ε → Prop} {step : τ → ε → τ × ω} (hPQ : ∀ t e, P t e → Q t e) {t : τ} {es : List ε}
    (h : Allowed step P t es) : Allowed step Q t es := by
  induction es generalizing t with
  | nil => exact h
  | cons e es ih => exact ⟨hPQ t e h.1, ih h.2⟩

/-- A simulation on the inputs that are allowed. -/
theorem run_simulates_allowed {R : σ → τ → Prop} {P : τ → ε → Prop} {step' : τ → ε → τ × ω} {t : τ}
    (hsim : ∀ s t e, R s t → P t e → ∃ s', step s e = .ok (s', (step' t e).2) ∧ R s' (step' t e).1)
    (h : R s t) (hes : Allowed step' P t es) :
    ∃ s', run step s es = .ok (s', (total step' t es).2) ∧ R s' (total step' t es).1 := by
  induction es generalizing s t with
  | nil => exact ⟨s, rfl, h⟩
  | cons e es ih =>
    obtain ⟨s₁, h₁, hr₁⟩ := hsim s t e h hes.1
    obtain ⟨s₂, h₂, hr₂⟩ := ih hr₁ hes.2
    exact ⟨s₂, run_cons_ok.2 ⟨_, _, _, _, h₁, h₂, rfl⟩, hr₂⟩

/-- Where the steps on other inputs fail, a run that goes through meets inputs that are allowed. -/
theorem allowed_of_run {R : σ → τ → Prop} {P : τ → ε → Prop} {step' : τ → ε → τ × ω} {t : τ} {r : σ × List ω}
    (hsim : ∀ s t e, R s t → P t e → ∃ s', step s e = .ok (s', (step' t e).2) ∧ R s' (step' t e).1)
    (hfail : ∀ s t e p, R s t → step s e = .ok p → P t e) (h : R s t) (hrun : run step s es = .ok r) :
    Allowed step' P t es := by
  induction es generalizing s t r with
  | nil => exact trivial
  | cons e es ih =>
    obtain ⟨s₁, o, s₂, os, h₁, h₂, rfl⟩ := run_cons_ok.1 hrun
    have he := hfail s t e _ h h₁
    obtain ⟨s₁', h₁', hr⟩ := hsim s t e h he
    rw [h₁] at h₁'
    cases h₁'
    exact ⟨he, ih hr h₂⟩

/-! ### Inputs under a condition on the state -/

section
variable {step : σ → ε → Except φ σ} {ok : σ → ε → Bool} {Inv : σ → Prop} {s s' : σ} {es es' : List ε}

/-- Every input meets the condition in the state that the inputs before it lead to. -/
def guarded (step : σ → ε → Except φ σ) (ok : σ → ε → Bool) : σ → List ε → Bool
  | _, [] => true
  | s, e :: es => ok s e && match step s e with
    | .error _ => true
    | .ok s => guarded step ok s es

theorem guarded_cons {e : ε} (hstep : step s e = .ok s') :
    guarded step ok s (e :: es) = true ↔ ok s e = true ∧ guarded step ok s' es = true := by
  rw [guarded, hstep, Bool.and_eq_true]

theorem foldlM_cons_ok {e : ε} (hstep : step s e = .ok s') : (e :: es).foldlM step s = es.foldlM step s' := by
  rw [List.foldlM_cons, hstep]
  rfl

/-- What each step keeps that meets the condition. -/
theorem run_guarded (hinv : ∀ s e, Inv s → ok s e = true → ∃ s', step s e = .ok s' ∧ Inv s') (h : Inv s)
    (hes : guarded step ok s es = true) : ∃ s', es.foldlM step s = .ok s' ∧ Inv s' := by
  induction es generalizing s with
  | nil => exact ⟨s, rfl, h⟩
  | cons e es ih =>
    rw [guarded, Bool.and_eq_true] at hes
    obtain ⟨s₁, hstep, h₁⟩ := hinv s e h hes.1
    rw [hstep] at hes
    obtain ⟨s', hrun, h'⟩ := ih h₁ hes.2
    exact ⟨s', (foldlM_cons_ok hstep).trans hrun, h'⟩

theorem guarded_append (hrun : es.foldlM step s = .ok s') (hes : guarded step ok s es = true)
    (hes' : guarded step ok s' es' = true) : guarded step ok s (es ++ es') = true := by
  induction es generalizing s with
  | nil =>
    cases hrun
    exact hes'
  | cons e es ih =>
    rw [guarded, Bool.and_eq_true] at hes
    cases hstep : step s e with
    | error f =>
      rw [List.foldlM_cons, hstep] at hrun
      cases hrun
    | ok s₁ =>
      rw [foldlM_cons_ok hstep] at hrun
      rw [hstep] at hes
      exact (guarded_cons hstep).2 ⟨hes.1, ih hrun hes.2⟩

/-- As long as there is something left to do there is a step that leaves less of it. -/
theorem exists_drain (step : σ → ε → Except φ σ) (ok : σ → ε → Bool) (Inv : σ → Prop) (μ : σ → Nat)
    (hprog : ∀ s, Inv s → μ s ≠ 0 → ∃ e s', ok s e = true ∧ step s e = .ok s' ∧ Inv s' ∧ μ s' < μ s) (h : Inv s) :
    ∃ es s', guarded step ok s es = true ∧ es.foldlM step s = .ok s' ∧ Inv s' ∧ μ s' = 0 := by
  induction hn : μ s using Nat.strongRecOn generalizing s with
  | ind n ih =>
    subst hn
    by_cases hzero : μ s = 0
    · exact ⟨[], s, rfl, rfl, h, hzero⟩
    · obtain ⟨e, s₁, hok, hstep, h₁, hlt⟩ := hprog s h hzero
      obtain ⟨es, s', hes, hrun, h'⟩ := ih (μ s₁) hlt h₁ rfl
      exact ⟨e :: es, s', (guarded_cons hstep).2 ⟨hok, hes⟩, (foldlM_cons_ok hstep).trans hrun, h'⟩

end

end Transducer
