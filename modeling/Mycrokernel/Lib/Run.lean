import Mathlib.Data.List.Basic

/-!
# Runs of a partial step function

A machine is a step function `σ → ε → Option σ`: what an event makes of a state,
or `none` when the event cannot happen there or has no defined result.  A *run*
is a list of events each of which steps.  Runs are indexed by a condition on the
events and the states they meet, so that one induction rule
(`Run.invariant`) serves the statements about all runs and those about the runs
that keep to the condition.

An observer of a machine is a machine that takes the same steps and keeps account
of them.
-/

namespace Machine

variable {σ ε : Type*} {step : σ → ε → Option σ} {cond cond' : σ → ε → Prop} {s s' s'' : σ}
  {e : ε} {es es' : List ε}

/-- A run of `step` from one state to another, each event meeting `cond` in the state
it finds. -/
inductive Run (step : σ → ε → Option σ) (cond : σ → ε → Prop) : σ → List ε → σ → Prop where
  | nil (s : σ) : Run step cond s [] s
  | cons {s s' s'' : σ} {e : ε} {es : List ε} :
      cond s e → step s e = some s' → Run step cond s' es s'' → Run step cond s (e :: es) s''

/-- The condition every event meets. -/
def always : σ → ε → Prop := fun _ _ => True

instance (s : σ) (e : ε) : Decidable (always s e) := inferInstanceAs (Decidable True)

/-- The step, for the events that meet the condition. -/
def guarded (step : σ → ε → Option σ) (cond : σ → ε → Prop) [∀ s e, Decidable (cond s e)]
    (s : σ) (e : ε) : Option σ :=
  if cond s e then step s e else none

theorem of_guarded [∀ s e, Decidable (cond s e)] (h : guarded step cond s e = some s') :
    cond s e ∧ step s e = some s' := by
  unfold guarded at h
  split at h
  next hc => exact ⟨hc, h⟩
  next => exact absurd h (by simp)

namespace Run

theorem single (hc : cond s e) (hs : step s e = some s') : Run step cond s [e] s' :=
  .cons hc hs (.nil _)

theorem append (hr : Run step cond s es s') (hr' : Run step cond s' es' s'') :
    Run step cond s (es ++ es') s'' := by
  induction hr with
  | nil => exact hr'
  | cons hc hs _ ih => exact .cons hc hs (ih hr')

/-- A weaker condition has more runs. -/
theorem mono (hr : Run step cond s es s') (hw : ∀ s e, cond s e → cond' s e) :
    Run step cond' s es s' := by
  induction hr with
  | nil => exact .nil _
  | cons hc hs _ ih => exact .cons (hw _ _ hc) hs ih

/-- Machines that agree where the condition is met have the same runs. -/
theorem of_agree {step' : σ → ε → Option σ} (hagree : ∀ s e, cond s e → step' s e = step s e)
    (hr : Run step' cond s es s') : Run step cond s es s' := by
  induction hr with
  | nil => exact .nil _
  | cons hc hs _ ih => exact .cons hc (hagree _ _ hc ▸ hs) ih

/-- The events lead to one state, whatever conditions they meet. -/
theorem unique (hr : Run step cond s es s') (hr' : Run step cond' s es s'') : s' = s'' := by
  induction hr with
  | nil =>
    cases hr' with
    | nil => rfl
  | cons _ hs _ ih =>
    cases hr' with
    | cons _ hs' hr' =>
      obtain rfl := Option.some.inj (hs.symm.trans hs')
      exact ih hr'

/-- A run splits where its events split. -/
theorem split (hr : Run step cond s (es ++ es') s'') :
    ∃ s', Run step cond s es s' ∧ Run step cond s' es' s'' := by
  induction es generalizing s with
  | nil => exact ⟨s, .nil _, hr⟩
  | cons e es ih =>
    cases hr with
    | cons hc hs hr =>
      obtain ⟨s', hr₁, hr₂⟩ := ih hr
      exact ⟨s', .cons hc hs hr₁, hr₂⟩

/-- What holds at the start and is kept by every step that meets the condition holds
at the end. -/
theorem invariant {P : σ → Prop}
    (hstep : ∀ s e s', P s → cond s e → step s e = some s' → P s')
    (hr : Run step cond s es s') (hs : P s) : P s' := by
  induction hr with
  | nil => exact hs
  | cons hc he _ ih => exact ih (hstep _ _ _ hs hc he)

/-- Let `I` be kept by the steps that meet the condition, and let the others break what it
implies.  Then the runs on which this holds all the way are those that keep to the condition. -/
theorem kept_iff {I P : σ → Prop}
    (hkeep : ∀ s e s', I s → cond s e → step s e = some s' → I s')
    (hbreak : ∀ s e s', I s → ¬ cond s e → step s e = some s' → ¬ P s')
    (himp : ∀ s, I s → P s) (hs : I s) :
    (Run step always s es s' ∧
        ∀ es₁ es₂ t, es = es₁ ++ es₂ → Run step always s es₁ t → P t) ↔
      Run step cond s es s' := by
  constructor
  · rintro ⟨hr, hkept⟩
    induction hr with
    | nil => exact .nil _
    | cons _ he _ ih =>
      have hc := by_contra fun hc => hbreak _ _ _ hs hc he (hkept [_] _ _ rfl (.single trivial he))
      exact .cons hc he (ih (hkeep _ _ _ hs hc he) fun es₁ es₂ t heq hr =>
        hkept (_ :: es₁) es₂ t (congrArg _ heq) (.cons trivial he hr))
  · intro hr
    refine ⟨hr.mono fun _ _ _ => trivial, fun es₁ es₂ t heq hr' => ?_⟩
    subst heq
    obtain ⟨t', hfirst, -⟩ := hr.split
    obtain rfl := hr'.unique hfirst
    exact himp _ (hfirst.invariant hkeep hs)

/-- Let `I` be kept by the steps that meet the condition.  Where it holds, the condition may be
replaced by what it implies. -/
theorem mono_of_invariant {I : σ → Prop}
    (hkeep : ∀ s e s', I s → cond s e → step s e = some s' → I s')
    (himp : ∀ s e s', I s → step s e = some s' → cond s e → cond' s e)
    (hr : Run step cond s es s') (hs : I s) : Run step cond' s es s' := by
  induction hr with
  | nil => exact .nil _
  | cons hc he _ ih => exact .cons (himp _ _ _ hs he hc) he (ih (hkeep _ _ _ hs hc he))

/-- Let `I` be kept by every step.  Where it holds, conditions that agree have the same runs. -/
theorem congr_of_invariant {I : σ → Prop} (hkeep : ∀ s e s', I s → step s e = some s' → I s')
    (hiff : ∀ s e s', I s → step s e = some s' → (cond s e ↔ cond' s e)) (hs : I s) :
    Run step cond s es s' ↔ Run step cond' s es s' :=
  ⟨fun hr => hr.mono_of_invariant (fun s e s' hs _ => hkeep s e s' hs)
      (fun s e s' hs he => (hiff s e s' hs he).1) hs,
    fun hr => hr.mono_of_invariant (fun s e s' hs _ => hkeep s e s' hs)
      (fun s e s' hs he => (hiff s e s' hs he).2) hs⟩

/-- A run is what folding the step function over its events leads to. -/
theorem foldlM_eq (hr : Run step cond s es s') : es.foldlM step s = some s' := by
  induction hr with
  | nil => rfl
  | cons _ he _ ih =>
    rw [List.foldlM_cons, he]
    exact ih

/-- Folding a step function that respects the condition over the events is a run. -/
theorem of_foldlM {step' : σ → ε → Option σ}
    (hstep : ∀ s e s', step' s e = some s' → cond s e ∧ step s e = some s')
    (h : es.foldlM step' s = some s') : Run step cond s es s' := by
  induction es generalizing s with
  | nil =>
    obtain rfl : s = s' := Option.some.inj h
    exact .nil s
  | cons e es ih =>
    rw [List.foldlM_cons] at h
    obtain ⟨t, ht, hs'⟩ := Option.bind_eq_some_iff.1 h
    obtain ⟨hc, hs⟩ := hstep s e t ht
    exact .cons hc hs (ih hs')

end Run

/-! ## Observers -/

variable {τ : Type*} {step' : τ → ε → Option τ} {view : τ → σ} {t t' : τ}

/-- The machine `step'` does what `step` does, and keeps account of it. -/
def Observes (step : σ → ε → Option σ) (step' : τ → ε → Option τ) (view : τ → σ) : Prop :=
  ∀ t e, (step' t e).map view = step (view t) e

/-- Every run can be observed, and is a run of the observer. -/
theorem Observes.observed (ho : Observes step step' view) (hr : Run step cond (view t) es s') :
    ∃ t', Run step' (fun t => cond (view t)) t es t' ∧ view t' = s' := by
  generalize hs : view t = s at hr
  induction hr generalizing t with
  | nil => exact ⟨t, .nil _, hs⟩
  | cons hc he _ ih =>
    subst hs
    rw [← ho] at he
    obtain ⟨t₁, ht₁, hv⟩ := Option.map_eq_some_iff.1 he
    obtain ⟨t', ht', hv'⟩ := ih hv
    exact ⟨t', .cons hc ht₁ ht', hv'⟩

theorem Observes.lift (ho : Observes step step' view) (hr : Run step cond (view t) es s') :
    ∃ t', es.foldlM step' t = some t' ∧ view t' = s' := by
  obtain ⟨t', ht', hv⟩ := ho.observed hr
  exact ⟨t', ht'.foldlM_eq, hv⟩

/-- What is observed is a run. -/
theorem Observes.run (ho : Observes step step' view) (h : es.foldlM step' t = some t') :
    Run step always (view t) es (view t') := by
  induction es generalizing t with
  | nil =>
    obtain rfl : t = t' := Option.some.inj h
    exact .nil _
  | cons e es ih =>
    rw [List.foldlM_cons] at h
    obtain ⟨t₁, ht₁, ht'⟩ := Option.bind_eq_some_iff.1 h
    exact .cons trivial (by rw [← ho, ht₁, Option.map_some]) (ih ht')

end Machine
