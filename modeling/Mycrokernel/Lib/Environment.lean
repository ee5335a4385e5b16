import Mycrokernel.Lib.Dialogue

/-!
# Programs in an environment

An environment has states of its own, and says which replies a request may get in one, and what
its state is then.  `RunIn` is a run of a program to its end in an environment.

`Always` says that all runs end well, and `Sometimes` that one does.  Each has a rule for every way
a program is put together.

`Reaches` is a run that need not have come to its end.
-/

namespace Dialogue

variable {ρ ι σ α β : Type} {answers : σ → ρ → ι → σ → Prop} {e e' : σ}
  {p : Dialogue ρ ι α} {f : α → Dialogue ρ ι β} {a : α} {b : β} {Q R : α → σ → Prop}
  {S : β → σ → Prop}

/-- A run to the end, with the states of the environment before and after it, and the result. -/
inductive RunIn (answers : σ → ρ → ι → σ → Prop) : σ → Dialogue ρ ι α → σ → α → Prop where
  | done (e : σ) (a : α) : RunIn answers e (.done a) e a
  | ask {e e' e'' : σ} {request : ρ} {reply : ι} {next : ι → Dialogue ρ ι α} {a : α} :
      answers e request reply e' → RunIn answers e' (next reply) e'' a →
      RunIn answers e (.ask request next) e'' a

/-- The first part of a run, with the states of the environment before and after it. -/
inductive Reaches (answers : σ → ρ → ι → σ → Prop) : σ → Dialogue ρ ι α → σ → Prop where
  | start (e : σ) (p : Dialogue ρ ι α) : Reaches answers e p e
  | ask {e e' e'' : σ} {request : ρ} {reply : ι} {next : ι → Dialogue ρ ι α} :
      answers e request reply e' → Reaches answers e' (next reply) e'' →
      Reaches answers e (.ask request next) e''

/-- All runs end well. -/
def Always (answers : σ → ρ → ι → σ → Prop) (p : Dialogue ρ ι α) (e : σ) (Q : α → σ → Prop) : Prop :=
  ∀ e' a, RunIn answers e p e' a → Q a e'

/-- A run ends well. -/
def Sometimes (answers : σ → ρ → ι → σ → Prop) (p : Dialogue ρ ι α) (e : σ) (Q : α → σ → Prop) :
    Prop :=
  ∃ e' a, RunIn answers e p e' a ∧ Q a e'

namespace RunIn

theorem bind {e'' : σ} (h : RunIn answers e p e' a) (hf : RunIn answers e' (f a) e'' b) :
    RunIn answers e (p.bind f) e'' b := by
  induction h with
  | done => exact hf
  | ask hreply _ ih => exact .ask hreply (ih hf)

/-- A run of a program that goes on where another ends is a run of the one and then a run of the
other. -/
theorem of_bind {e'' : σ} (h : RunIn answers e (p.bind f) e'' b) :
    ∃ e' a, RunIn answers e p e' a ∧ RunIn answers e' (f a) e'' b := by
  induction p generalizing e with
  | done a => exact ⟨e, a, .done e a, h⟩
  | stuck => cases h
  | ask request next ih =>
      cases h with
      | ask hreply h =>
          obtain ⟨e', a, hp, hf⟩ := ih _ h
          exact ⟨e', a, .ask hreply hp, hf⟩

/-- A run in one environment is a run in another one that gives all its replies. -/
theorem map {τ : Type} {answers' : τ → ρ → ι → τ → Prop} {g : σ → τ}
    (hreply : ∀ e request reply e', answers e request reply e' →
      answers' (g e) request reply (g e')) (h : RunIn answers e p e' a) :
    RunIn answers' (g e) p (g e') a := by
  induction h with
  | done e a => exact .done _ _
  | ask hanswer _ ih => exact .ask (hreply _ _ _ _ hanswer) ih

/-- What every reply keeps holds of the state of the environment at the end. -/
theorem invariant {I : σ → Prop}
    (hreply : ∀ e request reply e', I e → answers e request reply e' → I e')
    (h : RunIn answers e p e' a) (hI : I e) : I e' := by
  induction h with
  | done e a => exact hI
  | ask hanswer _ ih => exact ih (hreply _ _ _ _ hI hanswer)

end RunIn

/-- The rule for the result of a run. -/
theorem Every.of_runIn {P : ρ → (ι → Dialogue ρ ι α) → Prop} {R : α → Prop} (h : p.Every P R)
    (hrun : RunIn answers e p e' a) : R a := by
  induction hrun with
  | done e a =>
      cases h with
      | done hresult => exact hresult
  | ask _ _ ih =>
      cases h with
      | ask _ hnext => exact ih (hnext _)

namespace Reaches

/-- The first part of a run of a program that goes on where another ends is within the one, or in the
other. -/
theorem of_bind {e'' : σ} (h : Reaches answers e (p.bind f) e'') :
    Reaches answers e p e'' ∨ ∃ e' a, RunIn answers e p e' a ∧ Reaches answers e' (f a) e'' := by
  induction p generalizing e with
  | done a => exact .inr ⟨e, a, .done e a, h⟩
  | stuck =>
      cases h with
      | start => exact .inl (.start _ _)
  | ask request next ih =>
      cases h with
      | start => exact .inl (.start _ _)
      | ask hreply h =>
          obtain hwithin | ⟨e', a, hrun, hrest⟩ := ih _ h
          · exact .inl (.ask hreply hwithin)
          · exact .inr ⟨e', a, .ask hreply hrun, hrest⟩

theorem of_done (h : Reaches answers e (.done a : Dialogue ρ ι α) e') : e' = e := by
  cases h with
  | start => rfl

theorem of_stuck (h : Reaches answers e (.stuck : Dialogue ρ ι α) e') : e' = e := by
  cases h with
  | start => rfl

end Reaches

/-- The end of a run has been reached. -/
theorem RunIn.reaches (h : RunIn answers e p e' a) : Reaches answers e p e' := by
  induction h with
  | done e a => exact .start e _
  | ask hreply _ ih => exact .ask hreply ih

/-! ## All runs -/

theorem always_done (h : Q a e) : (done a : Dialogue ρ ι α).Always answers e Q := by
  intro e' a' hrun
  cases hrun with
  | done => exact h

theorem always_ask {request : ρ} {next : ι → Dialogue ρ ι α}
    (h : ∀ reply e', answers e request reply e' → (next reply).Always answers e' Q) :
    (ask request next).Always answers e Q := by
  intro e' a hrun
  cases hrun with
  | ask hreply hrun => exact h _ _ hreply _ _ hrun

theorem always_stuck : (stuck : Dialogue ρ ι α).Always answers e Q := by
  intro e' a hrun
  cases hrun

theorem Always.bind (h : p.Always answers e R) (hf : ∀ a e', R a e' → (f a).Always answers e' S) :
    (p.bind f).Always answers e S := by
  intro e'' b hrun
  obtain ⟨e', a, hp, hrest⟩ := hrun.of_bind
  exact hf a e' (h e' a hp) e'' b hrest

theorem Always.mono (h : p.Always answers e Q) (himp : ∀ a e', Q a e' → R a e') :
    p.Always answers e R :=
  fun e' a hrun => himp a e' (h e' a hrun)

/-! ## Some run -/

theorem sometimes_done (h : Q a e) : (done a : Dialogue ρ ι α).Sometimes answers e Q :=
  ⟨e, a, .done e a, h⟩

theorem sometimes_ask {request : ρ} {next : ι → Dialogue ρ ι α} {reply : ι}
    (hreply : answers e request reply e') (h : (next reply).Sometimes answers e' Q) :
    (ask request next).Sometimes answers e Q := by
  obtain ⟨e'', a, hrun, hQ⟩ := h
  exact ⟨e'', a, .ask hreply hrun, hQ⟩

/-- A program that ends has a run in an environment that replies to every request. -/
theorem Ends.sometimes (h : p.Ends) (hreply : ∀ e request, ∃ reply e', answers e request reply e')
    (e : σ) : p.Sometimes answers e fun _ _ => True := by
  induction h generalizing e with
  | done a => exact sometimes_done trivial
  | @ask request next _ ih =>
      obtain ⟨reply, e', hanswer⟩ := hreply e request
      exact sometimes_ask hanswer (ih reply e')

/-- A program that ends has a run that leaves the environment alone, if each of its requests may be
replied to so. -/
theorem Ends.exists_quiet {R : α → Prop} (h : p.Ends)
    (hquiet : p.Every (fun request _ => ∃ reply, answers e request reply e) R) :
    ∃ a, RunIn answers e p e a := by
  induction h with
  | done a => exact ⟨a, .done e a⟩
  | ask _ ih =>
      cases hquiet with
      | ask hrequest hnext =>
          obtain ⟨reply, hanswer⟩ := hrequest
          obtain ⟨a, hrun⟩ := ih reply (hnext reply)
          exact ⟨a, .ask hanswer hrun⟩

theorem Sometimes.bind (h : p.Sometimes answers e R)
    (hf : ∀ a e', R a e' → (f a).Sometimes answers e' S) :
    (p.bind f).Sometimes answers e S := by
  obtain ⟨e', a, hp, hR⟩ := h
  obtain ⟨e'', b, hrest, hS⟩ := hf a e' hR
  exact ⟨e'', b, hp.bind hrest, hS⟩

end Dialogue
