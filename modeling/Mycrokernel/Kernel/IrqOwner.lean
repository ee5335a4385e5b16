import Mycrokernel.Kernel.Irq
import Mycrokernel.Kernel.Peers

/-!
# Owners of IRQs

`syscall_request_irq` gives out the IRQs up to `MAX_IRQ`, while the loop of
`release_irqs_taken` ends before `MAX_IRQ`: a process that exits keeps that IRQ, and
nobody can have it any more.  In the runs in which no process exits that owns it,
the owner of an IRQ is alive (`irqs_owned`).
-/

namespace Mycrokernel

open Function (update update_self update_of_ne)

namespace Kernel

open Rendezvous (Place)

variable [Layout] {procs : List Ptr} {ps : Finset Ptr} {s s' k : Kernel} {e : Event}
  {m m' : Rendezvous Ptr Nat} {p r x : Ptr} {q : List Ptr} {es : List Event} {irq : Nat}

/-- The two states agree on the slot of the process table that `p` points to. -/
structure SameSlot (s k : Kernel) (p : Ptr) : Prop where
  sched : Sched.SameProcess p s.sched k.sched
  regs : k.regs p = s.regs p
  state : k.state p = s.state p
  interrupts : k.interrupts p = s.interrupts p
  pid : k.pid p = s.pid p
  idxTss : k.idxTss p = s.idxTss p
  firstSender : k.firstSender p = s.firstSender p
  nextSender : k.nextSender p = s.nextSender p
  receivingFrom : k.receivingFrom p = s.receivingFrom p

/-- IRQs are owned by processes that are alive, and those nobody owns can be had. -/
structure IrqsOwned (procs : List Ptr) (s : Kernel) : Prop where
  alive : ∀ irq ≤ maxIrq, s.irqs irq ≠ null → Alive procs s (s.irqs irq)
  /-- `notify_irq` leaves the slot of a process alone that has exited. -/
  notify : ∀ regs irq k, irq ≤ maxIrq → s.irqs irq ≠ null →
    (s.saveContext regs).notifyIrq irq = some k → ∀ p ∈ procs, s.state p = Flag.empty →
      SameSlot (s.saveContext regs) k p
  /-- An IRQ that no other live process owns is given to the process that requests it. -/
  request : ∀ e k irq, s.step e = some k → e.call = some 4 → e.regs.ebxReg.toNat = irq →
    irq ≠ 0 → irq ≠ 2 → irq ≤ maxIrq →
    (∀ p, Alive procs s p → p ≠ s.sched.curptr → s.irqs irq ≠ p) →
      k.irqs irq = s.sched.curptr ∧ (k.regs s.sched.curptr).esiReg = Err.ok

/-- The process that exits does not own the last IRQ. -/
def ReleasesIrqs (s : Kernel) (e : Event) : Prop :=
  e.call = some 0 → s.irqs maxIrq ≠ s.sched.curptr

instance (s : Kernel) (e : Event) : Decidable (ReleasesIrqs s e) :=
  inferInstanceAs (Decidable (_ → _))

/-! ## The invariant -/

/-- The owner of an IRQ has not exited. -/
def OwnersInv (s : Kernel) (m : Rendezvous Ptr Nat) : Prop :=
  ∀ irq ≤ maxIrq, s.irqs irq ≠ null → m.place (s.irqs irq) ≠ .exited

theorem Effect.irqs_cases (heff : Effect ps s m p e k m') (irq : Nat) :
    k.irqs irq = s.irqs irq ∧ (e.call = some 0 → irq < maxIrq → s.irqs irq ≠ p) ∨
      k.irqs irq = null ∨ m' = m ∧ k.irqs irq = s.sched.curptr ∧ s.sched.curptr ∈ ps := by
  have hsame : k.irqs = s.irqs → e.call ≠ some 0 →
      k.irqs irq = s.irqs irq ∧ (e.call = some 0 → irq < maxIrq → s.irqs irq ≠ p) := fun h hcall =>
    ⟨by rw [h], fun h => absurd h hcall⟩
  cases heff with
  | quiet hq =>
    rcases hq.irqs.cases irq with h | h
    · exact Or.inl ⟨h, fun hcall => absurd hcall hq.stays⟩
    · exact Or.inr (Or.inr ⟨rfl, h⟩)
  | direct _ hcall _ _ _ _ _ _ _ halike => exact Or.inl (hsame halike.irqs (by simp [hcall]))
  | queued _ hcall _ _ _ _ _ _ _ _ halike => exact Or.inl (hsame halike.irqs (by simp [hcall]))
  | parked _ hcall _ _ _ _ _ _ halike => exact Or.inl (hsame halike.irqs (by simp [hcall]))
  | fetched _ hcall _ _ _ _ _ _ halike => exact Or.inl (hsame halike.irqs (by simp [hcall]))
  | listening _ hcall _ _ _ _ _ halike => exact Or.inl (hsame halike.irqs (by simp [hcall]))
  | adopted hcall _ _ _ _ _ _ halike => exact Or.inl (hsame halike.irqs (by simp [hcall]))
  | exited _ _ _ _ _ _ _ _ _ _ _ _ _ hirqs =>
    have hn := hirqs irq
    split at hn
    next => exact Or.inr (Or.inl hn)
    next hne => exact Or.inl ⟨hn, fun _ hlt hown => hne ⟨hlt, hown⟩⟩
  | rung _ _ hcall _ _ _ halike => exact Or.inl (hsame halike.irqs (by simp [hcall]))

/-- Every effect keeps the invariant if its event meets the condition. -/
theorem OwnersInv.effect (h : OwnersInv s m) (heff : Effect ps s m p e k m')
    (hcur : s.sched.curptr ∈ ps → m.place s.sched.curptr = .running)
    (hcond : e.call = some 0 → s.irqs maxIrq ≠ p) : OwnersInv k m' := by
  intro irq hirq hne hex
  rcases heff.irqs_cases irq with ⟨hsame, hlast⟩ | hnull | ⟨rfl, hk, hmem⟩
  · rw [hsame] at hne hex
    rcases heff.exited_cases hex with hold | ⟨hp, hcall⟩
    · exact h irq hirq hne hold
    · rcases Nat.lt_or_eq_of_le hirq with hlt | rfl
      · exact hlast hcall hlt hp
      · exact hcond hcall hp
  · exact hne hnull
  · rw [hk, hcur hmem] at hex
    exact absurd hex (by simp)

/-! ## Runs -/

/-- `notify_irq` leaves everybody alone who is off the run queue, apart from the owner of the
IRQ. -/
theorem notifyIrq_same (hinv : IpcInv ps s q m) (hirq : irq ≤ maxIrq) (hne : s.irqs irq ≠ null)
    (hk : s.notifyIrq irq = some k) (hp : p ∈ ps) (hown : p ≠ s.irqs irq) (hpq : p ∉ q) :
    SameSlot s k p := by
  have hr : s.irqs irq ∈ ps := (hinv.irqs irq hirq).resolve_left hne
  rw [Kernel.notifyIrq] at hk
  dsimp only at hk
  generalize s.irqs irq = r at hown hr hk
  split at hk
  next hflag =>
    obtain ⟨-, hrq, hstate⟩ := hinv.receiving_off ((hinv.receiving_iff hr).1 hflag)
    obtain ⟨t, q', hset, hent⟩ := unsetStateFlag_spec (f := Flag.receiving)
      (s := { s.setErr r ((1#16 <<< irq).setWidth 32) with
        receivingFrom := update s.receivingFrom r null }) hinv.queue hr hrq hstate
    have hclear : (s.setErr r ((1#16 <<< irq).setWidth 32)).clearReceivingFrom r = _ := hset
    rw [hclear, Option.map_some] at hk
    obtain rfl := Option.some.inj hk
    refine ⟨?_, ?_, update_of_ne hown _ _, rfl, rfl, rfl, rfl, rfl, update_of_ne hown _ _⟩
    · exact Sched.enqueue_same hinv.queue hr hrq hent.eq hown hpq (hinv.ne_null hp)
    · exact (update_of_ne hown _ _).trans (update_of_ne hown _ _)
  next =>
    obtain rfl := Option.some.inj hk
    exact ⟨⟨rfl, rfl, rfl, rfl, rfl⟩, rfl, rfl, update_of_ne hown _ _, rfl, rfl, rfl, rfl, rfl⟩

omit [Layout] in
theorem syscallRequestIrq_eq (hirq : (s.regs s.sched.curptr).ebxReg.toNat = irq) (h0 : irq ≠ 0)
    (h2 : irq ≠ 2) (hle : irq ≤ maxIrq)
    (hfree : s.irqs irq = null ∨ s.irqs irq = s.sched.curptr) :
    s.syscallRequestIrq =
      { s with irqs := update s.irqs irq s.sched.curptr }.setErr s.sched.curptr Err.ok := by
  unfold syscallRequestIrq
  dsimp only
  rw [hirq, if_neg (by omega), if_neg]
  rintro ⟨hnull, hcur⟩
  exact hfree.elim hnull hcur

theorem IpcInv.irqsOwned (h : IpcInv procs.toFinset s q m) (hown : OwnersInv s m) : IrqsOwned procs s := by
  have halive : ∀ irq ≤ maxIrq, s.irqs irq ≠ null → Alive procs s (s.irqs irq) := by
    intro irq hirq hne
    have hmem := (h.irqs irq hirq).resolve_left hne
    exact ⟨List.mem_toFinset.1 hmem, fun hempty => hown irq hirq hne ((h.empty_iff hmem).1 hempty)⟩
  refine ⟨halive, fun regs irq k hirq hne hk p hp hempty => ?_,
    fun e k irq hs hcall hebx h0 h2 hle hnone => ?_⟩
  · have hsaved := saved s regs
    have hpp := List.mem_toFinset.2 hp
    refine notifyIrq_same (h.saveContext regs) hirq (by rwa [hsaved.irqs]) hk hpp ?_ ?_
    · rw [hsaved.irqs]
      rintro rfl
      exact (halive irq hirq hne).2 hempty
    · intro hpq
      rw [h.running, (h.empty_iff hpp).1 hempty] at hpq
      exact absurd hpq (by simp)
  · cases e with
    | timer => exact absurd hcall (by simp [Event.call])
    | device => exact absurd hcall (by simp [Event.call])
    | syscall regs input =>
      obtain ⟨t, ht, hres⟩ := step_syscall hs
      have hsaved := saved s regs
      have hregs := hsaved.regs_cur (enabled_of_step hs).1
      have hcur : (s.saveContext regs).sched.curptr = s.sched.curptr := by rw [hsaved.sched]
      have hfree : s.irqs irq = null ∨ s.irqs irq = s.sched.curptr := by
        by_contra hn
        rw [not_or] at hn
        exact hnone _ (halive irq hle hn.1) hn.2 rfl
      have hcall' : regs.eaxReg.toNat = 4 := Option.some.inj hcall
      rw [Kernel.syscallIsr, hcur, hregs, hcall'] at ht
      rw [syscallRequestIrq_eq (by rw [hcur, hregs]; exact hebx) h0 h2 hle
        (by rwa [hsaved.irqs, hcur]), hcur] at ht
      obtain rfl := Option.some.inj ht
      rw [hres.irqs, hres.regs]
      exact ⟨update_self .., by simp [setErr]⟩

/-- A run in which no process exits that owns the last IRQ has all IRQs owned by processes that
are alive. -/
theorem irqs_owned (procs : List Ptr) (boot : Kernel) (hboot : Booted procs boot)
    (es : List Event) (s : Kernel) (hr : Machine.Run step ReleasesIrqs boot es s) :
    IrqsOwned procs s := by
  obtain ⟨q, hq⟩ := hboot.started
  have hinit : OwnersInv boot (allRunning procs) := fun irq hirq hne hex => by
    have hmem := (hq.inv.irqs irq hirq).resolve_left hne
    rw [allRunning_place_of_mem (List.mem_toFinset.1 hmem)] at hex
    exact absurd hex (by simp)
  obtain ⟨q', m', hinv, -, hown⟩ := Run.tracked (P := fun s _ m => OwnersInv s m)
    (fun {s _ m e k _ m'} hinv hb hown hcond _ _ _ heff => by
      have hsaved := saved s e.regs
      have hsaved' : OwnersInv (s.saveContext e.regs) m := by
        unfold OwnersInv
        rw [hsaved.irqs]
        exact hown
      have heff' := hsaved'.effect heff (fun hmem => ?_) (fun hcall => ?_)
      · unfold OwnersInv
        rw [(resumed k e.number).irqs]
        exact heff'
      · rw [hsaved.sched] at hmem ⊢
        refine (hinv.running _).1 ((hb.curptr.resolve_left ?_).resolve_left ?_)
        · exact hinv.ne_null hmem
        · exact hinv.ne_idle hmem
      · rw [hsaved.irqs]
        exact hcond hcall) hr hq.inv hq.between hinit
  exact hinv.irqsOwned hown

omit [Layout] in
/-- A process requests two IRQs, gets an interrupt and exits. -/
theorem irqs_owned_main :
    letI := Layout.sample
    ∃ s, guardedRun ReleasesIrqs [.tick, .requestIrq 14, .device 14 {}, .tick, .requestIrq 1, .tick,
        .tick, .exit] = some s ∧ s.state (proctab 2) = Flag.empty ∧ IrqsOwned mainProcs s := by
  let _ := Layout.sample
  have hrun : (guardedRun ReleasesIrqs [.tick, .requestIrq 14, .device 14 {}, .tick,
      .requestIrq 1, .tick, .tick, .exit]).map (fun s => s.state (proctab 2)) =
        some Flag.empty := by decide +kernel
  obtain ⟨s, hs, hstate⟩ := Option.map_eq_some_iff.1 hrun
  obtain ⟨boot, hboot, hr⟩ := guardedRun_eq_some hs
  exact ⟨s, hs, hstate, irqs_owned mainProcs boot hboot _ s hr⟩

omit [Layout] in
/-- The disk driver requests the last IRQ and exits. -/
theorem irqs_owned_fails :
    letI := Layout.sample
    ∃ s, mainRun [.tick, .requestIrq 15, .tick, .tick, .exit] = some s ∧
      ¬ IrqsOwned mainProcs s := by
  let _ := Layout.sample
  have hrun : (mainRun [.tick, .requestIrq 15, .tick, .tick, .exit]).map
      (fun s => (s.irqs 15, s.state (proctab 2))) = some (proctab 2, Flag.empty) := by
    decide +kernel
  obtain ⟨s, hs, heq⟩ := Option.map_eq_some_iff.1 hrun
  rw [Prod.mk.injEq] at heq
  refine ⟨s, hs, fun h => ?_⟩
  have halive := h.alive 15 (by decide) (by rw [heq.1]; decide)
  rw [heq.1] at halive
  exact halive.2 heq.2

end Kernel

end Mycrokernel
