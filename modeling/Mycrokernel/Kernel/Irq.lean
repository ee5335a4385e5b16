import Mycrokernel.Kernel.Wakeup

/-!
# Interrupts of devices

A process learns of its interrupts through its receives.  While it is blocked in
one, `notify_irq` ends it with the interrupt; otherwise the interrupt is remembered
in `interrupts`, and the next receive returns all of that.  The log of a process
lists what has been raised for it, from the request that gave it the IRQ on, and what
has been reported to it: nothing is lost and nothing is reported twice, unless a feature
beyond the table overwrites the owner of an IRQ (`interrupts_reported`).
-/

namespace Mycrokernel

open Function (update update_self update_of_ne)
open PointerList

/-- Something that happens to the interrupts of a process. -/
inductive Notice where
  /-- An IRQ that the process has been given is raised. -/
  | raised (irq : Nat)
  /-- A receive of the process returns this value, which is positive, in `esi_reg`. -/
  | reported (mask : Word)
deriving DecidableEq

namespace Notice

/-! ## Logs

The latest notice is the first one. -/

/-- The IRQs that have been raised and not been reported yet. -/
def unreported : List Notice → BitVec 16
  | [] => 0
  | raised irq :: log => unreported log ||| 1#16 <<< irq
  | reported mask :: log => unreported log &&& ~~~mask.setWidth 16

/-- Every report is of all that was unreported. -/
def Exact : List Notice → Prop
  | [] => True
  | raised irq :: log => irq ≤ maxIrq ∧ Exact log
  | reported mask :: log => mask = (unreported log).setWidth 32 ∧ Exact log

variable {log l₁ l₂ : List Notice} {mask : Word} {irq : Nat}

theorem unreported_reported (h : mask = (unreported log).setWidth 32) :
    unreported (reported mask :: log) = 0 := by
  rw [unreported, h]
  simp

theorem Exact.of_append (h : Exact (l₁ ++ l₂)) : Exact l₂ := by
  induction l₁ with
  | nil => exact h
  | cons x l₁ ih =>
    cases x with
    | raised irq => exact ih h.2
    | reported mask => exact ih h.2

theorem mask_getLsbD (hirq : irq ≤ maxIrq) : (1#16 <<< irq).getLsbD irq = true := by
  have hlt : irq < 16 := Nat.lt_succ_of_le hirq
  simp [hlt]

theorem mask_ne_zero (hirq : irq ≤ maxIrq) : 1#16 <<< irq ≠ 0 := by
  intro h
  have hbit := mask_getLsbD hirq
  rw [h] at hbit
  exact absurd hbit (by simp)

/-- The bit of an interrupt stays until the next report. -/
theorem unreported_getLsbD (hirq : irq ≤ maxIrq) (hnone : ∀ mask, reported mask ∉ l₁) :
    (unreported (l₁ ++ raised irq :: l₂)).getLsbD irq = true := by
  induction l₁ with
  | nil => rw [List.nil_append, unreported, BitVec.getLsbD_or, mask_getLsbD hirq, Bool.or_true]
  | cons x l₁ ih =>
    cases x with
    | raised irq' =>
      rw [List.cons_append, unreported, BitVec.getLsbD_or, ih (fun mask h => hnone mask (by simp [h])),
        Bool.true_or]
    | reported mask => exact absurd (List.mem_cons_self ..) (hnone mask)

/-- The earliest report in a log. -/
theorem first_report (l : List Notice) : (∀ mask, reported mask ∉ l) ∨
    ∃ l₁ mask l₂, l = l₁ ++ reported mask :: l₂ ∧ ∀ mask', reported mask' ∉ l₂ := by
  induction l with
  | nil => exact Or.inl (by simp)
  | cons x l ih =>
    rcases ih with hnone | ⟨l₁, mask, l₂, rfl, hnone⟩
    · cases x with
      | raised irq => exact Or.inl (by simpa using hnone)
      | reported mask => exact Or.inr ⟨[], mask, l, rfl, hnone⟩
    · exact Or.inr ⟨x :: l₁, mask, l₂, rfl, hnone⟩

/-- What has been raised is unreported, or the first report since then has it. -/
theorem Exact.raised (h : Exact (l₁ ++ raised irq :: l₂)) :
    (∀ mask, reported mask ∉ l₁) ∧ (unreported (l₁ ++ raised irq :: l₂)).getLsbD irq = true ∨
      ∃ l l' mask, l₁ = l ++ reported mask :: l' ∧ (∀ mask', reported mask' ∉ l') ∧
        mask.getLsbD irq = true := by
  obtain ⟨hirq, -⟩ := h.of_append
  rcases first_report l₁ with hnone | ⟨l, mask, l', rfl, hnone⟩
  · exact Or.inl ⟨hnone, unreported_getLsbD hirq hnone⟩
  · refine Or.inr ⟨l, l', mask, rfl, hnone, ?_⟩
    rw [List.append_assoc, List.cons_append] at h
    have hlt : irq < 32 := Nat.lt_of_le_of_lt hirq (by decide)
    rw [h.of_append.1, BitVec.getLsbD_setWidth, unreported_getLsbD hirq hnone, Bool.and_true,
      decide_eq_true hlt]

end Notice

namespace Kernel

open Rendezvous (Place)
open Notice (unreported Exact)

variable [Layout] {procs : List Ptr} {ps : Finset Ptr} {s s' k : Kernel} {e : Event}
  {m m' : Rendezvous Ptr Nat} {p r x : Ptr} {q q' : List Ptr} {es : List Event}
  {log : List Notice}

/-! ## The observer -/

/-- With the event `e`, which leads from `s` to `k`, a receive of `p` is over. -/
def ReceiveOver (s : Kernel) (e : Event) (k : Kernel) (p : Ptr) : Prop :=
  (s.state p &&& Flag.receiving ≠ 0 ∨ s.sched.curptr = p ∧ e.call = some 2) ∧
    k.sched.isEnqueued p = true

instance (s : Kernel) (e : Event) (k : Kernel) (p : Ptr) : Decidable (ReceiveOver s e k p) :=
  inferInstanceAs (Decidable (_ ∧ _))

/-- The report that `p` gets with the event `e`, if it gets one. -/
def report (s : Kernel) (e : Event) (k : Kernel) (p : Ptr) : List Notice :=
  if ReceiveOver s e k p ∧ 0 < (k.regs p).esiReg.toInt then [.reported (k.regs p).esiReg] else []

/-- The interrupt that is raised for `p` with the event `e`, if there is one. -/
def raise (owner : Nat → Ptr) (e : Event) (p : Ptr) : List Notice :=
  match e.irq with
  | some irq => if owner irq = p then [.raised irq] else []
  | none => []

/-- Who has requested an IRQ and been given it, after the event `e`, which leads from `s` to `k`. -/
def given (owner : Nat → Ptr) (s : Kernel) (e : Event) (k : Kernel) : Nat → Ptr :=
  if e.call = some 4 ∧ (k.regs s.sched.curptr).esiReg = Err.ok then
    update owner e.regs.ebxReg.toNat s.sched.curptr
  else owner

end Kernel

/-- A kernel with the logs of its processes and those that the IRQs have been given to. -/
structure Monitored where
  kernel : Kernel
  owner : Nat → Ptr
  log : Ptr → List Notice

namespace Monitored

variable [Layout]

/-- At boot no IRQ has been given to anybody. -/
def start (boot : Kernel) : Monitored where
  kernel := boot
  owner _ := null
  log _ := []

/-- One interrupt, logged. -/
def step (b : Beyond) (o : Monitored) (e : Event) : Option Monitored :=
  (b.step o.kernel e).map fun k => {
    kernel := k
    owner := Kernel.given o.owner o.kernel e k
    log := fun p => o.kernel.report e k p ++ Kernel.raise o.owner e p ++ o.log p }

end Monitored

namespace Kernel

open Rendezvous (Place)
open Notice (unreported Exact)

variable [Layout] {procs : List Ptr} {ps : Finset Ptr} {s s' k : Kernel} {e : Event}
  {m m' : Rendezvous Ptr Nat} {p r x : Ptr} {q q' : List Ptr} {es : List Event}
  {log : List Notice} {irq : Nat} {owner : Nat → Ptr} {b : Beyond}

/-- A run, logged from its start. -/
def monitor (b : Beyond) (boot : Kernel) (es : List Event) : Option Monitored :=
  es.foldlM (Monitored.step b) (.start boot)

/-! ## What an effect does to the interrupts of a process -/

/-- With the event `e` a receive of `p` is over. -/
def Over (m m' : Rendezvous Ptr Nat) (cur : Ptr) (e : Event) (p : Ptr) : Prop :=
  (m.place p = .receiving ∨ cur = p ∧ e.call = some 2) ∧ m'.place p = .running

section

omit [Layout]

/-- No receive is over of a process that was not in one. -/
theorem not_over (hrecv : m.place p ≠ .receiving) (hcall : x = p → e.call ≠ some 2) :
    ¬ Over m m' x e p := by
  rintro ⟨hold | ⟨hxp, hcall'⟩, -⟩
  · exact hrecv hold
  · exact hcall hxp hcall'

/-- No receive is over of a process that stays where it is, unless it is the caller. -/
theorem not_over_of_same (hplace : m'.place p = m.place p) (hcall : x = p → e.call ≠ some 2) :
    ¬ Over m m' x e p := by
  rintro ⟨hold | ⟨hxp, hcall'⟩, hnew⟩
  · rw [hplace, hold] at hnew
    exact absurd hnew (by simp)
  · exact hcall hxp hcall'

/-- No receive is over when the caller blocks. -/
theorem not_over_of_blocks {pl : Place Ptr Nat} (hplace : m'.place = update m.place x pl)
    (hpl : pl ≠ .running) : ¬ Over m m' x e p := by
  by_cases hpx : p = x
  · rintro ⟨-, hnew⟩
    rw [hplace, hpx, update_self] at hnew
    exact hpl hnew
  · refine not_over_of_same ?_ fun hxp => absurd hxp.symm hpx
    rw [hplace, update_of_ne hpx]

/-- What the event `e`, which leads from `s` to `k`, does to the interrupts of `p`. -/
inductive Noticed (s k : Kernel) (e : Event) (p : Ptr) (ended : Prop) : Prop where
  | nothing : (∀ irq, e.irq = some irq → s.irqs irq ≠ p) →
      (ended → ¬ 0 < (k.regs p).esiReg.toInt) → k.interrupts p = s.interrupts p →
      Noticed s k e p ended
  | raised {irq : Nat} : e.irq = some irq → s.irqs irq = p → ¬ ended →
      k.interrupts p = s.interrupts p ||| 1#16 <<< irq → Noticed s k e p ended
  | reported : e.irq = none → ended → s.interrupts p ≠ 0 →
      (k.regs p).esiReg = (s.interrupts p).setWidth 32 → k.interrupts p = 0 → Noticed s k e p ended
  /-- An interrupt is raised and reported at once. -/
  | answered {irq : Nat} : e.irq = some irq → s.irqs irq = p → ended → s.interrupts p = 0 →
      (k.regs p).esiReg = (1#16 <<< irq).setWidth 32 → k.interrupts p = 0 → Noticed s k e p ended

theorem Noticed.congr {ended : Prop} {t k' : Kernel} (h : Noticed s k e p ended)
    (hint : t.interrupts = s.interrupts) (hirqs : t.irqs = s.irqs)
    (hint' : k'.interrupts = k.interrupts) (hregs : k'.regs = k.regs) : Noticed t k' e p ended := by
  cases h with
  | nothing hraise hover h =>
    exact .nothing (by rwa [hirqs]) (by rwa [hregs]) (by rwa [hint, hint'])
  | raised he hown hover h =>
    exact .raised he (by rwa [hirqs]) hover (by rwa [hint, hint'])
  | reported he hover hne hesi h =>
    exact .reported he hover (by rwa [hint]) (by rwa [hregs, hint]) (by rwa [hint'])
  | answered he hown hover hzero hesi h =>
    exact .answered he (by rwa [hirqs]) hover (by rwa [hint]) (by rwa [hregs]) (by rwa [hint'])

/-- An event that is no interrupt of a device, after which no receive of `p` is over. -/
theorem Noticed.of_same (hirq : e.irq = none) (hint : k.interrupts p = s.interrupts p)
    (hover : ¬ Over m m' x e p) : Noticed s k e p (Over m m' x e p) :=
  .nothing (by simp [hirq]) (fun h => absurd h hover) hint

theorem Quiet.noticed (hpn : p ≠ null) (hq : Quiet ps s e k) (hcur : s.sched.curptr = x)
    (hrun : ∀ n, e.call = some n → m.place x = .running) : Noticed s k e p (Over m m x e p) := by
  have hover : Over m m x e p → x = p ∧ e.call = some 2 := by
    rintro ⟨hold | h, hnew⟩
    · exact absurd (hold.symm.trans hnew) (by simp)
    · exact h
  cases hq.pends with
  | same hint hirq hrecv =>
    refine .nothing (fun irq h => ?_) (fun h => ?_) (by rw [hint])
    · rw [hirq irq h]
      exact Ne.symm hpn
    · obtain ⟨rfl, hcall⟩ := hover h
      rw [← hcur, (hrecv hcall).2]
      decide
  | @raised irq hirq hne hflag hint =>
    have hcall : e.call ≠ some 2 := fun h => by
      rw [Event.irq_of_call h] at hirq
      exact absurd hirq (by simp)
    by_cases hpo : s.irqs irq = p
    · refine .raised hirq hpo (fun h => hcall (hover h).2) ?_
      rw [hint, hpo, update_self]
    · refine .nothing (fun irq' h => ?_) (fun h => absurd (hover h).2 hcall) ?_
      · rw [← Option.some.inj (hirq.symm.trans h)]
        exact hpo
      · rw [hint, update_of_ne (Ne.symm hpo)]
  | reported hcall hstate hne hint hesi =>
    rw [hcur] at hne hint hesi
    by_cases hpx : p = x
    · subst hpx
      refine .reported (Event.irq_of_call hcall) ⟨Or.inr ⟨rfl, hcall⟩, hrun 2 hcall⟩ hne hesi ?_
      rw [hint, update_self]
    · refine .nothing (by simp [Event.irq_of_call hcall]) (fun h => absurd (hover h).1.symm hpx) ?_
      rw [hint, update_of_ne hpx]

end

theorem Effect.noticed (hinv : IpcInv ps s q m) (hnone : NoneMissed s m)
    (heff : Effect ps s m x e k m') (hcur : s.sched.curptr = x)
    (hrun : ∀ n, e.call = some n → m.place x = .running) (hp : p ∈ ps) :
    Noticed s k e p (Over m m' x e p) := by
  cases heff with
  | quiet hq => exact hq.noticed (hinv.ne_null hp) hcur hrun
  | @direct r i hr hcall _ hxrun _ _ _ _ _ halike =>
    refine .nothing (by simp [Event.irq_of_call hcall]) (fun hover => ?_)
      (by rw [halike.interrupts]; rfl)
    by_cases hpr : p = r
    · rw [halike.regs]
      simp [delivered, hpr, Err.ok]
    · exact absurd hover (not_over_of_same (update_of_ne hpr _ _) fun _ => by simp [hcall])
  | queued _ hcall _ _ _ _ _ _ _ _ halike =>
    exact .of_same (Event.irq_of_call hcall) (by rw [halike.interrupts]; rfl)
      (not_over_of_blocks rfl (by simp))
  | parked _ hcall _ _ _ _ _ _ halike =>
    exact .of_same (Event.irq_of_call hcall) (by rw [halike.interrupts])
      (not_over_of_blocks rfl (by simp))
  | @fetched w hw hcall _ _ _ _ _ _ halike =>
    refine .nothing (by simp [Event.irq_of_call hcall]) (fun hover => ?_)
      (by rw [halike.interrupts]; rfl)
    by_cases hpx : p = x
    · rw [halike.regs]
      simp [delivered, hpx, Err.ok]
    · refine absurd hover ?_
      by_cases hpw : p = w
      · exact not_over (by simp [hpw, hw]) fun hxp => absurd hxp.symm hpx
      · exact not_over_of_same (update_of_ne hpw _ _) fun hxp => absurd hxp.symm hpx
  | listening _ hcall _ _ _ _ _ halike =>
    exact .of_same (Event.irq_of_call hcall) (by rw [halike.interrupts])
      (not_over_of_blocks rfl (by simp))
  | @adopted i hcall _ _ _ _ _ _ halike =>
    refine .of_same (Event.irq_of_call hcall) (by rw [halike.interrupts]; rfl) ?_
    have hx : x = p → e.call ≠ some 2 := fun _ => by simp [hcall]
    rcases Rendezvous.adopt_cases (m := m) (r := x) (i := i) (x := p) with
      ⟨hold, -⟩ | ⟨hold, -⟩ | ⟨-, -, hsame⟩
    · exact not_over (by simp [hold]) hx
    · exact not_over (by simp [hold]) hx
    · exact not_over_of_same hsame hx
  | exited hoff hcall _ _ _ _ _ hint =>
    refine .of_same (Event.irq_of_call hcall) (by rw [hint]) ?_
    have hx : x = p → e.call ≠ some 2 := fun _ => by simp [hcall]
    by_cases hpx : p = x
    · rintro ⟨-, hnew⟩
      rw [hpx, Rendezvous.move_place, update_self] at hnew
      exact absurd hnew (by simp)
    · rcases Rendezvous.release_cases (m := m) (r := x) (x := p) with ⟨hold, -⟩ | ⟨-, hsame⟩
      · exact not_over (by simp [hold]) hx
      · exact not_over_of_same ((update_of_ne hpx _ _).trans hsame) hx
  | @rung r irq hr hirq hcall hown _ _ halike =>
    by_cases hpr : p = r
    · subst hpr
      have hover : Over m (m.move p .running (Rendezvous.off_of_receiving hr) Place.off_running)
          x e p := ⟨Or.inl hr, update_self ..⟩
      refine .answered hirq hown hover (hnone p hr).1 ?_ ?_
      · rw [halike.regs]
        dsimp only
        rw [update_self]
      · rw [halike.interrupts]
        exact (hnone p hr).1
    · refine .nothing (fun irq' h => ?_) (fun hover => absurd hover ?_) (by rw [halike.interrupts])
      · rw [← Option.some.inj (hirq.symm.trans h), hown]
        exact Ne.symm hpr
      · exact not_over_of_same (update_of_ne hpr _ _) fun _ => by simp [hcall]

/-- A receive with a good buffer reports what is pending. -/
theorem Effect.reports (heff : Effect ps s m x e k m') (hcur : s.sched.curptr = x)
    (hcall : e.call = some 2) (hbuf : BufferOk s x) (hne : s.interrupts x ≠ 0) :
    m' = m ∧ (k.regs x).esiReg = (s.interrupts x).setWidth 32 ∧ k.interrupts x = 0 := by
  cases heff with
  | quiet hq =>
    cases hq.pends with
    | same _ _ hrecv => exact absurd hbuf (hcur ▸ (hrecv hcall).1)
    | raised hirq => exact absurd ((Event.irq_of_call hcall).symm.trans hirq) (by simp)
    | reported _ _ _ hint hesi =>
      rw [hcur] at hint hesi
      exact ⟨rfl, hesi, by rw [hint, update_self]⟩
  | fetched _ _ _ _ _ hint => exact absurd hint hne
  | listening _ _ _ _ hint => exact absurd hint hne
  | direct _ hcall' => exact absurd (hcall.symm.trans hcall') (by decide)
  | queued _ hcall' => exact absurd (hcall.symm.trans hcall') (by decide)
  | parked _ hcall' => exact absurd (hcall.symm.trans hcall') (by decide)
  | adopted hcall' => exact absurd (hcall.symm.trans hcall') (by decide)
  | exited _ hcall' => exact absurd (hcall.symm.trans hcall') (by decide)
  | rung _ _ hcall' => exact absurd (hcall.symm.trans hcall') (by decide)

/-- An interrupt ends the receive of its owner. -/
theorem Effect.answers (heff : Effect ps s m x e k m') (hirq : e.irq = some irq)
    (hown : s.irqs irq = p) (hp : p ≠ null) (hflag : s.state p &&& Flag.receiving ≠ 0) :
    m'.place p = .running ∧ (k.regs p).esiReg = (1#16 <<< irq).setWidth 32 := by
  have hcall : ∀ {n}, e.call ≠ some n := fun {n} hcall =>
    absurd ((Event.irq_of_call hcall).symm.trans hirq) (by simp)
  cases heff with
  | quiet hq =>
    cases hq.pends with
    | same _ hnull => exact absurd (hown.symm.trans (hnull irq hirq)) hp
    | @raised irq' hirq' _ hstate =>
      obtain rfl : irq = irq' := Option.some.inj (hirq.symm.trans hirq')
      rw [hown] at hstate
      exact absurd hstate hflag
    | reported hcall' => exact absurd hcall' hcall
  | @rung r irq' _ hirq' _ hown' _ _ halike =>
    obtain rfl : irq = irq' := Option.some.inj (hirq.symm.trans hirq')
    obtain rfl : p = r := hown.symm.trans hown'
    refine ⟨update_self .., ?_⟩
    rw [halike.regs]
    dsimp only
    rw [update_self]
  | fetched _ hcall' => exact absurd hcall' hcall
  | listening _ hcall' => exact absurd hcall' hcall
  | direct _ hcall' => exact absurd hcall' hcall
  | queued _ hcall' => exact absurd hcall' hcall
  | parked _ hcall' => exact absurd hcall' hcall
  | adopted hcall' => exact absurd hcall' hcall
  | exited _ hcall' => exact absurd hcall' hcall

/-! ## What an effect does to the owners -/

/-- The IRQs that `p` has been given are those that it owns. -/
def OwnsGiven (owner : Nat → Ptr) (s : Kernel) (p : Ptr) : Prop :=
  ∀ irq ≤ maxIrq, owner irq = p ↔ s.irqs irq = p

section

omit [Layout]

theorem given_of_ne (hcall : e.call ≠ some 4) : given owner s e k = owner :=
  if_neg fun h => hcall h.1

theorem OwnsGiven.of_same (h : OwnsGiven owner s p) (hcall : e.call ≠ some 4) (hirqs : k.irqs = s.irqs) :
    OwnsGiven (given owner s e k) k p := by
  rw [given_of_ne hcall]
  unfold OwnsGiven
  rw [hirqs]
  exact h

theorem OwnsGiven.congr {t k' : Kernel} (h : OwnsGiven (given owner s e k) k p) (hsched : t.sched = s.sched)
    (hregs : k'.regs = k.regs) (hirqs : k'.irqs = k.irqs) : OwnsGiven (given owner t e k') k' p := by
  unfold OwnsGiven given
  rw [hsched, hregs, hirqs]
  exact h

end

/-- A process that does not exit keeps what it has been given. -/
theorem Effect.owned (heff : Effect ps s m x e k m') (hcur : s.sched.curptr = x)
    (hregs : e.call = some 4 → s.regs x = e.regs) (hpn : p ≠ null) (hp : m'.place p ≠ .exited)
    (h : OwnsGiven owner s p) : OwnsGiven (given owner s e k) k p := by
  cases heff with
  | quiet hq =>
    cases hq.irqs with
    | same hirqs hfail =>
      rw [given, if_neg fun h => hfail h.1 h.2]
      unfold OwnsGiven
      rw [hirqs]
      exact h
    | @granted n hcall hn hirqs _ hesi =>
      rw [hcur, hregs hcall] at hn
      rw [given, if_pos ⟨hcall, hesi⟩, hn]
      intro irq hirq
      rw [hirqs]
      by_cases hin : irq = n
      · rw [hin, update_self, update_self]
      · rw [update_of_ne hin, update_of_ne hin]
        exact h irq hirq
  | direct _ hcall _ _ _ _ _ _ _ halike => exact h.of_same (by simp [hcall]) halike.irqs
  | queued _ hcall _ _ _ _ _ _ _ _ halike => exact h.of_same (by simp [hcall]) halike.irqs
  | parked _ hcall _ _ _ _ _ _ halike => exact h.of_same (by simp [hcall]) halike.irqs
  | fetched _ hcall _ _ _ _ _ _ halike => exact h.of_same (by simp [hcall]) halike.irqs
  | listening _ hcall _ _ _ _ _ halike => exact h.of_same (by simp [hcall]) halike.irqs
  | adopted hcall _ _ _ _ _ _ halike => exact h.of_same (by simp [hcall]) halike.irqs
  | exited _ hcall _ _ _ _ _ _ _ _ _ _ _ hirqs =>
    have hpx : p ≠ x := by
      rintro rfl
      rw [Rendezvous.move_place, update_self] at hp
      exact hp rfl
    intro irq hirq
    rw [given_of_ne (by simp [hcall]), hirqs, h irq hirq]
    split
    next hown => exact iff_of_false (fun hxp => hpx (hxp.symm.trans hown.2)) (Ne.symm hpn)
    next => exact Iff.rfl
  | rung _ _ hcall _ _ _ halike => exact h.of_same (by simp [hcall]) halike.irqs

/-! ## The invariant -/

section

omit [Layout]

/-- A positive mask. -/
theorem toInt_mask {mask : BitVec 16} (h : mask ≠ 0) : 0 < (mask.setWidth 32).toInt := by
  have hlt : mask.toNat < 2 ^ 16 := mask.isLt
  have hpos : mask.toNat ≠ 0 := fun h0 => h (BitVec.eq_of_toNat_eq h0)
  rw [BitVec.toInt_eq_toNat_of_lt]
  · rw [BitVec.toNat_setWidth_of_le (by decide)]
    omega
  · rw [BitVec.toNat_setWidth_of_le (by decide)]
    omega

/-- The log of `p` is what `interrupts` keeps account of. -/
structure LogInv (s : Kernel) (p : Ptr) (log : List Notice) : Prop where
  pending : s.interrupts p = unreported log
  exact : Exact log

/-- What the observer adds to the log is what the interrupt does. -/
theorem LogInv.noticed (h : LogInv s p log) (hirq : ∀ irq, e.irq = some irq → irq ≤ maxIrq)
    (hn : Noticed s k e p (ReceiveOver s e k p)) :
    LogInv k p (report s e k p ++ raise s.irqs e p ++ log) := by
  unfold report raise
  cases hn with
  | nothing hraise hover hint =>
    have hnil : (match e.irq with
        | some irq => if s.irqs irq = p then [Notice.raised irq] else []
        | none => []) = [] := by
      cases he : e.irq with
      | none => rfl
      | some irq => exact if_neg (hraise irq he)
    rw [if_neg fun h => hover h.1 h.2, hnil]
    exact ⟨hint.trans h.pending, h.exact⟩
  | @raised irq he hown hover hint =>
    rw [if_neg fun h => hover h.1, he]
    dsimp only
    rw [if_pos hown]
    exact ⟨by rw [hint, h.pending]; rfl, hirq irq he, h.exact⟩
  | reported he hover hne hesi hint =>
    have hmask : (k.regs p).esiReg = (unreported log).setWidth 32 := by rw [hesi, h.pending]
    rw [if_pos ⟨hover, by rw [hesi]; exact toInt_mask hne⟩, he]
    exact ⟨by rw [hint]; exact (Notice.unreported_reported hmask).symm, hmask, h.exact⟩
  | @answered irq he hown hover hzero hesi hint =>
    have hmask : (k.regs p).esiReg = (unreported (.raised irq :: log)).setWidth 32 := by
      simp [hesi, unreported, ← h.pending, hzero]
    rw [if_pos ⟨hover, by rw [hesi]; exact toInt_mask (Notice.mask_ne_zero (hirq irq he))⟩, he]
    dsimp only
    rw [if_pos hown]
    exact ⟨by rw [hint]; exact (Notice.unreported_reported hmask).symm, hmask, hirq irq he, h.exact⟩

theorem raise_congr (hown : OwnsGiven owner s p) (hirq : ∀ irq, e.irq = some irq → irq ≤ maxIrq) :
    raise owner e p = raise s.irqs e p := by
  unfold raise
  cases he : e.irq with
  | none => rfl
  | some irq => exact if_congr (hown irq (hirq irq he)) rfl rfl

end

/-- What a step does to the interrupts of a process. -/
theorem IpcInv.step_noticed (hinv : IpcInv ps s q m) (hb : Between s.sched q)
    (hnone : NoneMissed s m) (hs : s.step e = some s') :
    ∃ q' m', IpcInv ps s' q' m' ∧ Between s'.sched q' ∧ NoneMissed s' m' ∧
      ∀ p ∈ ps, Noticed s s' e p (ReceiveOver s e s' p) ∧
        (m'.place p ≠ .exited → m.place p ≠ .exited ∧
          ∀ owner, OwnsGiven owner s p → OwnsGiven (given owner s e s') s' p) := by
  obtain ⟨k, q', m', hfin, -, -, hinv', hb', heff⟩ := hinv.step hb hs
  have hsaved := saved s e.regs
  have hres : Resumed k s' := hfin ▸ resumed k e.number
  have hnone' : NoneMissed (s.saveContext e.regs) m :=
    hnone.congr hsaved.interrupts hsaved.receivingFrom
  have hinvs := hinv.saveContext e.regs
  refine ⟨q', m', hinv', hb', (hnone'.effect hinvs heff).congr hres.interrupts hres.receivingFrom,
    fun p hp => ⟨?_, fun hlive => ⟨fun hex => hlive (heff.exited_stays hex), fun owner hown => ?_⟩⟩⟩
  · have hover : ReceiveOver s e s' p ↔ Over m m' s.sched.curptr e p := by
      unfold ReceiveOver Over
      rw [hinv.receiving_iff hp, hinv'.queue.isEnqueued_iff p hp, hinv'.running]
    rw [hover]
    have hnot := heff.noticed hinvs hnone' (by rw [hsaved.sched])
      (fun n hcall => (hinv.running _).1 (hb.caller_mem (enabled_of_step hs) hcall)) hp
    exact hnot.congr hsaved.interrupts.symm hsaved.irqs.symm hres.interrupts hres.regs
  · have hcur : e.call = some 4 → s.sched.curptr ≠ null := fun hcall =>
      hinv.ne_null (hinv.mem_procs (hb.caller_mem (enabled_of_step hs) hcall))
    have hsame : OwnsGiven owner (s.saveContext e.regs) p := by
      unfold OwnsGiven
      rw [hsaved.irqs]
      exact hown
    exact (heff.owned (by rw [hsaved.sched]) (fun hcall => hsaved.regs_cur (hcur hcall))
      (hinv.ne_null hp) hlive hsame).congr hsaved.sched.symm hres.regs hres.irqs

theorem irq_le_of_enabled {irq : Nat} (he : s.Enabled e) (hirq : e.irq = some irq) :
    irq ≤ maxIrq := by
  cases e with
  | timer => exact absurd hirq (by simp [Event.irq])
  | device n regs => exact Option.some.inj hirq ▸ he.2.2
  | syscall => exact absurd hirq (by simp [Event.irq])

/-! ## Runs -/

theorem monitors : Machine.Observes b.step (Monitored.step b) Monitored.kernel := fun o e => by
  rw [Monitored.step, Option.map_map]
  exact Option.map_id'

/-- The invariant of a monitored run, about the processes that have not exited. -/
def LogsInv (ps : Finset Ptr) (o : Monitored) : Prop :=
  ∃ q m, IpcInv ps o.kernel q m ∧ Between o.kernel.sched q ∧ NoneMissed o.kernel m ∧
    ∀ p ∈ ps, m.place p ≠ .exited → OwnsGiven o.owner o.kernel p ∧ LogInv o.kernel p (o.log p)

theorem LogsInv.step {o o' : Monitored} (h : LogsInv ps o) (hf : FeatureOk e)
    (hs : o.step b e = some o') : LogsInv ps o' := by
  obtain ⟨q, m, hinv, hb, hnone, hlog⟩ := h
  obtain ⟨s', hs', rfl⟩ := Option.map_eq_some_iff.1 hs
  rw [Beyond.step_eq hf] at hs'
  obtain ⟨q', m', hinv', hb', hnone', hn⟩ := hinv.step_noticed hb hnone hs'
  refine ⟨q', m', hinv', hb', hnone', fun p hp hlive => ?_⟩
  obtain ⟨hnoticed, hkeep⟩ := hn p hp
  obtain ⟨hold, hown⟩ := hkeep hlive
  obtain ⟨howned, hl⟩ := hlog p hp hold
  have hirq : ∀ irq, e.irq = some irq → irq ≤ maxIrq := fun irq =>
    irq_le_of_enabled (enabled_of_step hs')
  refine ⟨hown _ howned, ?_⟩
  dsimp only
  rw [raise_congr howned hirq]
  exact hl.noticed hirq hnoticed

theorem LogsInv.run {boot : Kernel} {o : Monitored} (hboot : Booted procs boot)
    (hr : Machine.Run (Monitored.step b) (fun o => Beyond.InTable o.kernel) (.start boot) es o) :
    LogsInv procs.toFinset o := by
  obtain ⟨q, hq⟩ := hboot.started
  refine hr.invariant (fun o e o' h hf hs => h.step hf hs) ⟨q, allRunning procs, hq.inv,
    hq.between, NoneMissed.start, fun p hp _ => ⟨fun irq hirq => ?_,
      hq.interrupts p (List.mem_toFinset.1 hp), trivial⟩⟩
  rw [Monitored.start, hq.irqs irq hirq]

/-- The interrupts of `p` are neither lost nor reported twice. -/
structure NothingLost (b : Beyond) (o : Monitored) (p : Ptr) : Prop where
  /-- What `p` has been given is its own. -/
  owned : ∀ irq ≤ maxIrq, o.owner irq = p ↔ o.kernel.irqs irq = p
  pending : o.kernel.interrupts p = unreported (o.log p)
  /-- A report is of what was unreported. -/
  reports : ∀ l₁ mask l₂, o.log p = l₁ ++ .reported mask :: l₂ →
    mask = (unreported l₂).setWidth 32 ∧ unreported (.reported mask :: l₂) = 0
  /-- What is raised is pending, or in the first report since then. -/
  raises : ∀ l₁ irq l₂, o.log p = l₁ ++ .raised irq :: l₂ →
    (∀ mask, .reported mask ∉ l₁) ∧ (o.kernel.interrupts p).getLsbD irq = true ∨
      ∃ l l' mask, l₁ = l ++ .reported mask :: l' ∧ (∀ mask', .reported mask' ∉ l') ∧
        mask.getLsbD irq = true
  /-- A receive returns what is pending. -/
  receive : ∀ e k, b.step o.kernel e = some k → o.kernel.sched.curptr = p → e.call = some 2 →
    BufferOk (o.kernel.saveContext e.regs) p → o.kernel.interrupts p ≠ 0 →
      k.sched.isEnqueued p = true ∧ (k.regs p).esiReg = (o.kernel.interrupts p).setWidth 32 ∧
        k.interrupts p = 0
  /-- An interrupt ends the receive of the process that has been given the IRQ. -/
  answer : ∀ e k irq, b.step o.kernel e = some k → e.irq = some irq → o.owner irq = p →
    o.kernel.state p &&& Flag.receiving ≠ 0 → k.sched.isEnqueued p = true ∧
      (k.regs p).esiReg = (1#16 <<< irq).setWidth 32

theorem LogInv.nothingLost {o : Monitored} (h : LogInv o.kernel p (o.log p))
    (hown : OwnsGiven o.owner o.kernel p) (hinv : IpcInv ps o.kernel q m)
    (hb : Between o.kernel.sched q) (hp : p ∈ ps) : NothingLost b o p where
  owned := hown
  pending := h.pending
  reports l₁ mask l₂ hl := by
    have hmask := (hl ▸ h.exact).of_append.1
    exact ⟨hmask, Notice.unreported_reported hmask⟩
  raises l₁ irq l₂ hl := by
    rw [h.pending, hl]
    exact (hl ▸ h.exact).raised
  receive e k hs hcur hcall hbuf hne := by
    subst hcur
    have hf : FeatureOk e := by simp [FeatureOk, hcall]
    rw [Beyond.step_eq hf] at hs
    obtain ⟨t, q', m', rfl, -, -, hinv', -, heff⟩ := hinv.step hb hs
    have hsaved := saved o.kernel e.regs
    have hres := resumed t e.number
    rw [← hsaved.interrupts] at hne
    obtain ⟨rfl, hesi, hint⟩ := heff.reports (by rw [hsaved.sched]) hcall hbuf hne
    rw [hinv'.queue.isEnqueued_iff _ hp, hinv'.running, ← hinv.running, hres.regs, hres.interrupts,
      ← hsaved.interrupts]
    exact ⟨hb.caller_mem (enabled_of_step hs) hcall, hesi, hint⟩
  answer e k irq hs hirq hgiven hflag := by
    have hf : FeatureOk e := by
      rintro (hcall | hcall) <;> exact absurd ((Event.irq_of_call hcall).symm.trans hirq) (by simp)
    rw [Beyond.step_eq hf] at hs
    have hirqs := (hown irq (irq_le_of_enabled (enabled_of_step hs) hirq)).1 hgiven
    obtain ⟨t, q', m', rfl, -, -, hinv', -, heff⟩ := hinv.step hb hs
    have hsaved := saved o.kernel e.regs
    have hres := resumed t e.number
    rw [← hsaved.irqs] at hirqs
    rw [← hsaved.state] at hflag
    obtain ⟨hrun, hesi⟩ := heff.answers hirq hirqs (hinv.ne_null hp) hflag
    rw [hinv'.queue.isEnqueued_iff _ hp, hinv'.running, hres.regs]
    exact ⟨hrun, hesi⟩

end Kernel

end Mycrokernel
