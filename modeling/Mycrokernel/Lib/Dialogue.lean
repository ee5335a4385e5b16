import Mathlib.Logic.Basic

/-!
# Programs in dialogue with their environment

A program has come to its result, or it makes a request and goes on with the reply,
whatever the reply is.  A loop that may go on for ever takes fuel, and a program whose
fuel is spent is `stuck`.

*Residuals.*  `after` is what is left of a program when some replies have come.

*Requests.*  `Every` says of each request a program can come to, and of what the program
does with the reply, that they meet a condition, and of its results that they meet
another.  `Every.bind` is the rule for a program that goes on where another ends.

*Conditions on replies.*  A program `Guards` its requests if each is in order as long as the
replies are, and the first reply that is not is followed at once by a request that is not
either.  Then the requests are in order if and only if the replies are (`Guards.iff`).

*Whole runs.*  A program `Ends` if it comes to a result for whatever replies, and a `Run` is
one way to a result, with its requests and their replies.
-/

/-- A program that makes requests of type `ρ` and is given replies of type `ι`. -/
inductive Dialogue (ρ ι α : Type) where
  | done (a : α)
  | ask (request : ρ) (next : ι → Dialogue ρ ι α)
  | stuck

namespace Dialogue

variable {ρ ι α β : Type}

/-- Go on with `f` where a program ends. -/
protected def bind (p : Dialogue ρ ι α) (f : α → Dialogue ρ ι β) : Dialogue ρ ι β :=
  match p with
  | .done a => f a
  | .ask request next => .ask request fun reply => (next reply).bind f
  | .stuck => .stuck

/-- What is left of a program after some replies, if it takes as many. -/
def after : List ι → Dialogue ρ ι α → Option (Dialogue ρ ι α)
  | [], p => some p
  | reply :: replies, .ask _ next => (next reply).after replies
  | _ :: _, _ => none

/-- The request a program waits for the reply to. -/
def request : Dialogue ρ ι α → Option ρ
  | .ask request _ => some request
  | _ => none

/-- Each request the program can come to meets `P`, together with what follows it, and each
result meets `R`. -/
inductive Every (P : ρ → (ι → Dialogue ρ ι α) → Prop) (R : α → Prop) : Dialogue ρ ι α → Prop where
  | done {a : α} : R a → Every P R (.done a)
  | ask {request : ρ} {next : ι → Dialogue ρ ι α} :
      P request next → (∀ reply, Every P R (next reply)) → Every P R (.ask request next)
  | stuck : Every P R .stuck

/-- The requests that some replies lead to, with the one that waits for the next reply. -/
def asked : List ι → Dialogue ρ ι α → List ρ
  | [], .ask request _ => [request]
  | reply :: replies, .ask request next => request :: asked replies (next reply)
  | _, _ => []

/-- The requests with their replies. -/
def answered : List ι → Dialogue ρ ι α → List (ρ × ι)
  | reply :: replies, .ask request next => (request, reply) :: answered replies (next reply)
  | _, _ => []

/-- The requests meet `ok` until a reply is not `good`, and then the next request does not. -/
inductive Guards (ok : ρ → Prop) (good : ρ → ι → Prop) : Dialogue ρ ι α → Prop where
  | done (a : α) : Guards ok good (.done a)
  | stuck : Guards ok good .stuck
  | ask {request : ρ} {next : ι → Dialogue ρ ι α} :
      ok request → (∀ reply, good request reply → Guards ok good (next reply)) →
      (∀ reply, ¬ good request reply → ∃ bad, (next reply).request = some bad ∧ ¬ ok bad) →
      Guards ok good (.ask request next)

/-- The program comes to a result, whatever the replies are. -/
inductive Ends : Dialogue ρ ι α → Prop where
  | done (a : α) : Ends (.done a)
  | ask {request : ρ} {next : ι → Dialogue ρ ι α} :
      (∀ reply, Ends (next reply)) → Ends (.ask request next)

/-- A run of a program to its end: the requests with their replies, in order, and the
result. -/
inductive Run : Dialogue ρ ι α → List (ρ × ι) → α → Prop where
  | done (a : α) : Run (.done a) [] a
  | ask {request : ρ} {next : ι → Dialogue ρ ι α} {reply : ι} {log : List (ρ × ι)} {a : α} :
      Run (next reply) log a → Run (.ask request next) ((request, reply) :: log) a

theorem request_bind {request : ρ} {p : Dialogue ρ ι α} {f : α → Dialogue ρ ι β}
    (h : p.request = some request) : (p.bind f).request = some request := by
  cases p with
  | done => exact absurd h (by simp [Dialogue.request])
  | ask => exact h
  | stuck => exact absurd h (by simp [Dialogue.request])

/-- A condition that all requests and results meet. -/
theorem every_trivial (p : Dialogue ρ ι α) : p.Every (fun _ _ => True) fun _ => True := by
  induction p with
  | done a => exact .done trivial
  | ask request next ih => exact .ask trivial ih
  | stuck => exact .stuck

namespace Every

variable {P : ρ → (ι → Dialogue ρ ι α) → Prop} {P' : ρ → (ι → Dialogue ρ ι β) → Prop}
  {R : α → Prop} {R' : β → Prop} {p q : Dialogue ρ ι α} {f : α → Dialogue ρ ι β}
  {replies : List ι}

theorem after (h : Every P R p) (hp : p.after replies = some q) : Every P R q := by
  induction replies generalizing p with
  | nil =>
      obtain rfl := Option.some.inj hp
      exact h
  | cons reply replies ih =>
      cases h with
      | done => exact absurd hp (by simp [Dialogue.after])
      | ask _ hnext => exact ih (hnext reply) hp
      | stuck => exact absurd hp (by simp [Dialogue.after])

theorem mono {Q : ρ → (ι → Dialogue ρ ι α) → Prop} {S : α → Prop} (h : Every P R p)
    (hP : ∀ request next, P request next → Q request next) (hR : ∀ a, R a → S a) :
    Every Q S p := by
  induction h with
  | done hresult => exact .done (hR _ hresult)
  | ask hrequest _ ih => exact .ask (hP _ _ hrequest) ih
  | stuck => exact .stuck

/-- The rule for a request that some replies lead to. -/
theorem of_after {request : ρ} {next : ι → Dialogue ρ ι α} (h : Every P R p)
    (hp : p.after replies = some (.ask request next)) : P request next := by
  cases h.after hp with
  | ask hrequest _ => exact hrequest

/-- The condition of the first program has to hold on when the second goes on after it. -/
theorem bind (h : Every P R p)
    (hP : ∀ request next, P request next → P' request fun reply => (next reply).bind f)
    (hf : ∀ a, R a → Every P' R' (f a)) : Every P' R' (p.bind f) := by
  induction h with
  | done hresult => exact hf _ hresult
  | ask hrequest _ ih => exact .ask (hP _ _ hrequest) ih
  | stuck => exact .stuck

end Every

section Conditions

variable {ok : ρ → Prop} {good : ρ → ι → Prop} {p : Dialogue ρ ι α} {f : α → Dialogue ρ ι β}

/-- The request a program waits with is among those it asks. -/
theorem mem_asked {request : ρ} (h : p.request = some request) (replies : List ι) :
    request ∈ asked replies p := by
  cases p with
  | done => exact absurd h (by simp [Dialogue.request])
  | stuck => exact absurd h (by simp [Dialogue.request])
  | ask request next =>
      obtain rfl := Option.some.inj h
      cases replies with
      | nil => exact List.mem_singleton_self _
      | cons reply replies => exact List.mem_cons_self

theorem fst_mem_asked {entry : ρ × ι} {replies : List ι} (h : entry ∈ answered replies p) :
    entry.1 ∈ asked replies p := by
  induction replies generalizing p with
  | nil => exact absurd h (by simp [answered])
  | cons reply replies ih =>
      cases p with
      | done => exact absurd h (by simp [answered])
      | stuck => exact absurd h (by simp [answered])
      | ask request next =>
          rw [answered, List.mem_cons] at h
          rw [asked]
          rcases h with rfl | h
          · exact List.mem_cons_self
          · exact List.mem_cons_of_mem _ (ih h)

theorem snd_mem {entry : ρ × ι} {replies : List ι} (h : entry ∈ answered replies p) :
    entry.2 ∈ replies := by
  induction replies generalizing p with
  | nil => exact absurd h (by simp [answered])
  | cons reply replies ih =>
      cases p with
      | done => exact absurd h (by simp [answered])
      | stuck => exact absurd h (by simp [answered])
      | ask request next =>
          rw [answered, List.mem_cons] at h
          rcases h with rfl | h
          · exact List.mem_cons_self
          · exact List.mem_cons_of_mem _ (ih h)

theorem Guards.bind (h : p.Guards ok good) (hf : ∀ a, (f a).Guards ok good) :
    (p.bind f).Guards ok good := by
  induction h with
  | done a => exact hf a
  | stuck => exact .stuck
  | ask hok _ hbad ih =>
      refine .ask hok ih fun reply hreply => ?_
      obtain ⟨bad, hrequest, hnot⟩ := hbad reply hreply
      exact ⟨bad, request_bind hrequest, hnot⟩

/-- Requests to which every reply is good. -/
theorem Every.guards {R : α → Prop}
    (h : p.Every (fun request _ => ok request ∧ ∀ reply, good request reply) R) :
    p.Guards ok good := by
  induction h with
  | done => exact .done _
  | stuck => exact .stuck
  | ask hrequest _ ih =>
      exact .ask hrequest.1 (fun reply _ => ih reply)
        fun reply hreply => absurd (hrequest.2 reply) hreply

theorem Guards.iff (h : p.Guards ok good) (replies : List ι) :
    (∀ request ∈ asked replies p, ok request) ↔
      ∀ entry ∈ answered replies p, good entry.1 entry.2 := by
  induction h generalizing replies with
  | done a =>
      cases replies with
      | nil => exact iff_of_true nofun nofun
      | cons => exact iff_of_true nofun nofun
  | stuck =>
      cases replies with
      | nil => exact iff_of_true nofun nofun
      | cons => exact iff_of_true nofun nofun
  | @ask request next hok _ hbad ih =>
      cases replies with
      | nil => exact iff_of_true (List.forall_mem_singleton.mpr hok) nofun
      | cons reply replies =>
          rw [asked, answered, List.forall_mem_cons, List.forall_mem_cons]
          cases Classical.em (good request reply) with
          | inl hgood => rw [and_iff_right hok, and_iff_right hgood, ih reply hgood]
          | inr hnot =>
              obtain ⟨bad, hrequest, hbad⟩ := hbad reply hnot
              exact iff_of_false (fun h => hbad (h.2 bad (mem_asked hrequest replies)))
                fun h => hnot h.1

end Conditions

section Runs

variable {p : Dialogue ρ ι α} {f : α → Dialogue ρ ι β} {log : List (ρ × ι)} {a : α} {b : β}

theorem bind_assoc {γ : Type} (p : Dialogue ρ ι α) (f : α → Dialogue ρ ι β)
    (g : β → Dialogue ρ ι γ) : (p.bind f).bind g = p.bind fun a => (f a).bind g := by
  induction p with
  | done a => rfl
  | stuck => rfl
  | ask request next ih => exact congrArg (Dialogue.ask request) (funext ih)

theorem Ends.bind (h : p.Ends) (hf : ∀ a, (f a).Ends) : (p.bind f).Ends := by
  induction h with
  | done a => exact hf a
  | ask _ ih => exact .ask ih

theorem Ends.of_bind (h : (p.bind f).Ends) : p.Ends := by
  induction p with
  | done a => exact .done a
  | stuck => cases h
  | ask request next ih =>
      cases h with
      | ask h => exact .ask fun reply => ih reply (h reply)

/-- What comes behind a run of a program that ends. -/
theorem Ends.after_run (h : (p.bind f).Ends) (hrun : p.Run log a) : (f a).Ends := by
  induction hrun with
  | done a => exact h
  | ask _ ih =>
      cases h with
      | ask h => exact ih (h _)

/-- A program that ends has a run, whatever it is always replied. -/
theorem Ends.exists_run (h : p.Ends) (reply : ι) :
    ∃ log a, p.Run log a ∧ ∀ entry ∈ log, entry.2 = reply := by
  induction h with
  | done a => exact ⟨[], a, .done a, by simp⟩
  | @ask request next _ ih =>
      obtain ⟨log, a, hrun, hlog⟩ := ih reply
      exact ⟨(request, reply) :: log, a, .ask hrun, List.forall_mem_cons.mpr ⟨rfl, hlog⟩⟩

theorem Run.bind {log' : List (ρ × ι)} (h : p.Run log a) (hf : (f a).Run log' b) :
    (p.bind f).Run (log ++ log') b := by
  induction h with
  | done a => exact hf
  | ask _ ih => exact .ask (ih hf)

/-- The rule for the result of a run. -/
theorem Every.of_run {P : ρ → (ι → Dialogue ρ ι α) → Prop} {R : α → Prop} (h : p.Every P R)
    (hrun : p.Run log a) : R a := by
  induction hrun with
  | done a =>
      cases h with
      | done hresult => exact hresult
  | ask _ ih =>
      cases h with
      | ask _ hnext => exact ih (hnext _)

/-- A run of a program that goes on where another ends is a run of the one and then a run of the
other. -/
theorem Run.of_bind (h : (p.bind f).Run log b) :
    ∃ first a rest, log = first ++ rest ∧ p.Run first a ∧ (f a).Run rest b := by
  induction p generalizing log with
  | done a => exact ⟨[], a, log, rfl, .done a, h⟩
  | stuck => cases h
  | ask request next ih =>
      cases h with
      | ask h =>
          obtain ⟨first, a, rest, rfl, hp, hf⟩ := ih _ h
          exact ⟨_ :: first, a, rest, rfl, .ask hp, hf⟩

/-- Some replies do not get a program to its end, or the rest of them is for what comes behind. -/
theorem answered_bind (p : Dialogue ρ ι α) (replies : List ι) :
    (∀ {β : Type} (f : α → Dialogue ρ ι β), answered replies (p.bind f) = answered replies p) ∨
      ∃ a later, p.Run (answered replies p) a ∧ ∀ {β : Type} (f : α → Dialogue ρ ι β),
        answered replies (p.bind f) = answered replies p ++ answered later (f a) := by
  induction p generalizing replies with
  | done a =>
      refine Or.inr ⟨a, replies, ?_⟩
      cases replies with
      | nil => exact ⟨.done a, fun _ => rfl⟩
      | cons reply replies => exact ⟨.done a, fun _ => rfl⟩
  | stuck =>
      cases replies with
      | nil => exact Or.inl fun _ => rfl
      | cons reply replies => exact Or.inl fun _ => rfl
  | ask request next ih =>
      cases replies with
      | nil => exact Or.inl fun _ => rfl
      | cons reply replies =>
          obtain hsame | ⟨a, later, hrun, hlater⟩ := ih reply replies
          · exact Or.inl fun f => congrArg (List.cons (request, reply)) (hsame f)
          · exact Or.inr ⟨a, later, .ask hrun, fun f =>
              congrArg (List.cons (request, reply)) (hlater f)⟩

end Runs

end Dialogue
