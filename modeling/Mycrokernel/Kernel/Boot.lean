import Mycrokernel.Kernel.Handle

/-!
# From boot on

`start` enqueues the processes it has created, and every state reached from there
satisfies the invariant.  `sample` is the state with the three processes that
`main.hla` creates, each with one tick a cycle.
-/

namespace Mycrokernel

open Function (update update_self update_of_ne)
open PointerList

namespace Event

/-! Calls with empty buffers, for examples. -/

def tick : Event := .timer {}

def setFeature (feature : Word) : Event := .syscall { eaxReg := 1, ebxReg := feature } 0

def receive (sender : Ptr) : Event := .syscall { eaxReg := 2, ebxReg := sender } 0

def send (feature : Word) : Event := .syscall { eaxReg := 3, ebxReg := feature, ediReg := 1 } 0

def requestIrq (irq : Word) : Event := .syscall { eaxReg := 4, ebxReg := irq } 0

end Event

namespace Kernel

open Rendezvous (Place)
open Sched (QueueInv)

variable [Layout] {procs : List Ptr} {s s' : Kernel} {e : Event} {es : List Event}

/-! ## Booting -/

omit [Layout] in
theorem foldlM_enqueue (s : Kernel) (l : List Ptr) :
    l.foldlM enqueue s = (l.foldlM Sched.enqueue s.sched).map fun sched => { s with sched } := by
  induction l generalizing s with
  | nil => rfl
  | cons p l ih =>
    rw [List.foldlM_cons, List.foldlM_cons, enqueue]
    cases s.sched.enqueue p with
    | none => rfl
    | some t => exact ih { s with sched := t }

/-- Processes off the queue enter it one after the other. -/
theorem allEntered {ps : Finset Ptr} (l : List Ptr) {t : Sched} {q : List Ptr}
    (hq : QueueInv ps t q) (hnd : l.Nodup) (hl : ∀ x ∈ l, x ∈ ps ∧ x ∉ q) :
    ∃ t' q', AllEntered ps l t t' q q' := by
  induction l generalizing t q with
  | nil => exact ⟨t, q, rfl, hq, by simp, rfl, rfl, rfl⟩
  | cons p l ih =>
    obtain ⟨hp, hpq⟩ := hl p (by simp)
    obtain ⟨hpl, hnd⟩ := List.nodup_cons.1 hnd
    obtain ⟨t₁, q₁, hent⟩ := hq.entered hp hpq
    obtain ⟨t', q', hall⟩ := ih hent.inv hnd fun x hx => by
      refine ⟨(hl x (by simp [hx])).1, ?_⟩
      rw [hent.mem, not_or]
      exact ⟨ne_of_mem_of_not_mem hx hpl, (hl x (by simp [hx])).2⟩
    refine ⟨t', q', ?_, hall.inv, ?_, hall.schedticks.trans hent.schedticks,
      hall.curptr.trans hent.curptr, hall.nextptr.trans hent.nextptr⟩
    · rw [List.foldlM_cons]
      exact (congrArg (· >>= _) hent.eq).trans hall.eq
    · intro x
      rw [hall.mem, hent.mem, List.mem_cons]
      tauto

/-- The rendezvous at boot: the processes run, and nobody has blocked yet. -/
def allRunning (procs : List Ptr) : Rendezvous Ptr Nat :=
  .idle (fun p => if p ∈ procs then .running else .exited) fun p => by
    split
    · exact Place.off_running
    · exact Place.off_exited

section

omit [Layout]

theorem allRunning_place_of_mem {p : Ptr} (hp : p ∈ procs) :
    (allRunning procs).place p = .running := if_pos hp

theorem allRunning_place_of_notMem {p : Ptr} (hp : p ∉ procs) :
    (allRunning procs).place p = .exited := if_neg hp

/-- Nobody is blocked at boot. -/
theorem allRunning_ne {p : Ptr} {place : Place Ptr Nat} (hrunning : place ≠ .running)
    (hexited : place ≠ .exited) : (allRunning procs).place p ≠ place := by
  cases Decidable.em (p ∈ procs) with
  | inl hp =>
      rw [allRunning_place_of_mem hp]
      exact hrunning.symm
  | inr hp =>
      rw [allRunning_place_of_notMem hp]
      exact hexited.symm

end

/-- What `start` leaves behind. -/
structure Started (procs : List Ptr) (s : Kernel) (q : List Ptr) : Prop where
  inv : IpcInv procs.toFinset s q (allRunning procs)
  between : Between s.sched q
  curptr : s.sched.curptr = null
  mem : ∀ p, p ∈ q ↔ p ∈ procs
  interrupts : ∀ p ∈ procs, s.interrupts p = 0
  featureTable : ∀ i < featureTableSize, s.featureTable i = { supplier := null, waiter := null }
  exchanges : s.exchanges = []
  irqs : ∀ n ≤ maxIrq, s.irqs n = null

theorem Created.queueInv (h : Created procs s) : QueueInv procs.toFinset s.sched [] := by
  have he := (Sched.created_emptyQueue h.shares).queueInv
  rwa [← h.sched] at he

/-- Booting ends. -/
theorem Created.boots (h : Created procs s) : ∃ boot, Booted procs boot := by
  obtain ⟨t, q, hall⟩ := allEntered procs h.queueInv h.nodup fun x hx =>
    ⟨List.mem_toFinset.2 hx, by simp⟩
  refine ⟨{ s with sched := t }, s, h, ?_⟩
  rw [foldlM_enqueue, hall.eq, Option.map_some]

theorem Booted.started (h : Booted procs s) : ∃ q, Started procs s q := by
  obtain ⟨c, hc, hs⟩ := h
  obtain ⟨t, q, hall⟩ := allEntered procs hc.queueInv hc.nodup fun x hx =>
    ⟨List.mem_toFinset.2 hx, by simp⟩
  rw [foldlM_enqueue, hall.eq] at hs
  obtain rfl : { c with sched := t } = s := Option.some.inj hs
  have hmem : ∀ p, p ∈ q ↔ p ∈ procs := fun p => by simp [hall.mem]
  have hcur : t.curptr = null := hall.curptr.trans (by rw [hc.sched]; rfl)
  have hnext : t.nextptr = null := hall.nextptr.trans (by rw [hc.sched]; rfl)
  have hplace : ∀ p, (allRunning procs).place p = if p ∈ procs then .running else .exited :=
    fun _ => rfl
  refine ⟨q, ⟨hall.inv, ?_, ?_, ?_, ?_, ?_, ?_, ?_, ?_⟩, ⟨hnext, Or.inl hcur⟩, hcur, hmem,
    hc.interrupts, hc.featureTable, hc.exchanges, hc.irqs⟩
  · refine ⟨fun r hr => ?_, fun i hi => ?_⟩
    · rw [show c.firstSender r = null from hc.firstSender r (List.mem_toFinset.1 hr)]
      exact .nil
    · rw [show c.featureTable i = _ from hc.featureTable i hi]
      exact .nil
  · intro p
    rw [hmem, hplace]
    split <;> simp_all
  · intro p hp
    rw [hplace] at hp
    by_contra hn
    rw [List.mem_toFinset] at hn
    exact hp (if_neg hn)
  · intro p r hp
    rw [hplace] at hp
    split at hp <;> exact absurd hp (by simp)
  · intro p i hp
    rw [hplace] at hp
    split at hp <;> exact absurd hp (by simp)
  · intro i hi
    exact Or.inl (by rw [show c.featureTable i = _ from hc.featureTable i hi])
  · exact fun n hn => Or.inl (hc.irqs n hn)
  · intro p hp
    rw [hplace, if_pos (List.mem_toFinset.1 hp)]
    exact hc.state p (List.mem_toFinset.1 hp)

/-! ## Running -/

/-- Saving the context of the interrupted task changes the registers of that task only. -/
structure Saved (s : Kernel) (regs : Regs) (s' : Kernel) : Prop where
  sched : s'.sched = s.sched
  regs_of_ne : ∀ x ≠ s.sched.curptr, s'.regs x = s.regs x
  regs_cur : s.sched.curptr ≠ null → s'.regs s.sched.curptr = regs
  state : s'.state = s.state
  interrupts : s'.interrupts = s.interrupts
  firstSender : s'.firstSender = s.firstSender
  receivingFrom : s'.receivingFrom = s.receivingFrom
  featureTable : s'.featureTable = s.featureTable
  irqs : s'.irqs = s.irqs
  gdt : s'.gdt = s.gdt
  exchanges : s'.exchanges = s.exchanges

omit [Layout] in
theorem saved (s : Kernel) (regs : Regs) : Saved s regs (s.saveContext regs) := by
  unfold saveContext
  split
  next hn =>
    exact ⟨rfl, fun _ _ => rfl, fun h => absurd hn h, rfl, rfl, rfl, rfl, rfl, rfl, rfl, rfl⟩
  next =>
    exact ⟨rfl, fun _ hx => update_of_ne hx _ _, fun _ => update_self .., rfl, rfl, rfl, rfl, rfl,
      rfl, rfl, rfl⟩

/-- Choosing the next process and switching to it changes the scheduler, and the busy bit
of a task. -/
structure Resumed (k s' : Kernel) : Prop where
  regs : s'.regs = k.regs
  state : s'.state = k.state
  interrupts : s'.interrupts = k.interrupts
  firstSender : s'.firstSender = k.firstSender
  receivingFrom : s'.receivingFrom = k.receivingFrom
  featureTable : s'.featureTable = k.featureTable
  irqs : s'.irqs = k.irqs
  exchanges : s'.exchanges = k.exchanges
  limit : ∀ idx, s'.getLimit idx = k.getLimit idx

theorem resumed (k : Kernel) (n : Nat) : Resumed k (k.finish.schedule n) := by
  have hfin : ∀ {t : Sched}, Resumed k (schedule { k with sched := t } n) := fun {t} => by
    refine ⟨rfl, rfl, rfl, rfl, rfl, rfl, rfl, rfl, fun idx => ?_⟩
    apply getLimit_congr
    all_goals
      simp only [schedule]
      by_cases hidx : idx = (k.idxTss t.schedule.curptr).setWidth 32
      · rw [hidx, update_self]
      · rw [update_of_ne hidx]
  unfold finish
  split
  · exact hfin
  · exact hfin (t := k.sched)

/-- A step that makes a system call. -/
theorem step_syscall {regs : Regs} {input : Word} (hs : s.step (.syscall regs input) = some s') :
    ∃ k, (s.saveContext regs).syscallIsr input = some k ∧ Resumed k s' := by
  unfold Kernel.step at hs
  split at hs
  next he =>
    obtain ⟨t, ht, rfl⟩ := Option.map_eq_some_iff.1 hs
    obtain ⟨k, hk, rfl⟩ := Option.map_eq_some_iff.1 ht
    exact ⟨k, hk, resumed k _⟩
  next => exact absurd hs (by simp)

/-- What holds of the invariant's run queue and rendezvous at the start, and is kept by
every effect, holds along a run. -/
theorem Run.tracked {ps : Finset Ptr} {cond : Kernel → Event → Prop}
    {P : Kernel → List Ptr → Rendezvous Ptr Nat → Prop}
    (hstep : ∀ {s q m e k q' m'}, IpcInv ps s q m → Between s.sched q → P s q m → cond s e →
      s.Enabled e → s.interrupt e = some k.finish → IpcInv ps k q' m' →
      Effect ps (s.saveContext e.regs) m s.sched.curptr e k m' →
      P (k.finish.schedule e.number) q' m')
    (hr : Machine.Run step cond s es s') {q : List Ptr} {m : Rendezvous Ptr Nat}
    (h : IpcInv ps s q m) (hb : Between s.sched q) (hP : P s q m) :
    ∃ q' m', IpcInv ps s' q' m' ∧ Between s'.sched q' ∧ P s' q' m' := by
  refine hr.invariant (P := fun s => ∃ q m, IpcInv ps s q m ∧ Between s.sched q ∧ P s q m) ?_
    ⟨q, m, h, hb, hP⟩
  rintro s e s' ⟨q, m, h, hb, hP⟩ hc hs
  have he : s.Enabled e := by
    by_contra hn
    rw [Kernel.step, if_neg hn] at hs
    exact absurd hs (by simp)
  obtain ⟨k, q', m', rfl, hk, hki, hinv, hb', heff⟩ := h.step hb hs
  exact ⟨q', m', hinv, hb', hstep h hb hP hc he hk hki heff⟩

/-- Every state reached from boot satisfies the invariant. -/
theorem Reachable.inv (h : Reachable procs s) :
    ∃ q m, IpcInv procs.toFinset s q m ∧ Between s.sched q := by
  obtain ⟨boot, es, hboot, hr⟩ := h
  obtain ⟨q, hq⟩ := hboot.started
  obtain ⟨q', m', hinv, hb, -⟩ := Run.tracked (P := fun _ _ _ => True)
    (fun _ _ _ _ _ _ _ _ => trivial) hr hq.inv hq.between trivial
  exact ⟨q', m', hinv, hb⟩

theorem Booted.reachable (h : Booted procs s) : Reachable procs s := ⟨s, [], h, .nil s⟩

/-! ## The three processes of `main.hla` -/

/-- The processes that `main.hla` creates: the display driver, the shell and the disk
driver. -/
def mainProcs : List Ptr := [proctab 0, proctab 1, proctab 2]

/-- A state in which `schedticks` is given and everything else is as it was at power on. -/
def blank (schedticks : Ptr → Word) : Kernel where
  sched := Sched.created schedticks
  regs _ := {}
  state _ := 0
  interrupts _ := 0
  pid _ := 0
  idxTss _ := 0
  callMask _ := 0
  iomapBase _ := 0
  procname _ _ := 0
  firstSender _ := null
  nextSender _ := null
  receivingFrom _ := null
  featureTable _ := { supplier := null, waiter := null }
  irqs _ := null
  portAccessers _ := null
  gdt _ := {}
  gdtLimit := 0
  backlink _ := 0
  mem _ := 0
  kmem _ := 0
  hours := 0
  minutes := 0
  seconds := 0
  exchanges := []
  usedGdt := []
  usedPids := []
  freedGdt := []
  freedPids := []
  portLog := []

theorem created_blank {schedticks : Ptr → Word} (hnd : procs.Nodup)
    (hshares : Sched.Shares procs.toFinset schedticks) : Created procs (blank schedticks) where
  nodup := hnd
  shares := hshares
  sched := rfl
  state _ _ := rfl
  interrupts _ _ := rfl
  firstSender _ _ := rfl
  nextSender _ _ := rfl
  receivingFrom _ _ := rfl
  featureTable _ _ := rfl
  irqs _ _ := rfl
  portAccessers _ := rfl
  exchanges := rfl
  freedGdt := rfl
  freedPids := rfl
  portLog := rfl

theorem mainProcs_nodup : mainProcs.Nodup := by
  have h01 : proctab 0 ≠ proctab 1 := fun h => absurd (Layout.proctab_inj 0 (by decide) 1
    (by decide) h) (by decide)
  have h02 : proctab 0 ≠ proctab 2 := fun h => absurd (Layout.proctab_inj 0 (by decide) 2
    (by decide) h) (by decide)
  have h12 : proctab 1 ≠ proctab 2 := fun h => absurd (Layout.proctab_inj 1 (by decide) 2
    (by decide) h) (by decide)
  simp [mainProcs, h01, h02, h12]

theorem mainProcs_shares : Sched.Shares mainProcs.toFinset fun _ => 1 where
  null_notMem := by
    simp only [mainProcs, List.mem_toFinset, List.mem_cons, List.not_mem_nil, or_false, not_or]
    exact ⟨Ne.symm (Layout.proctab_ne_null 0 (by decide)),
      Ne.symm (Layout.proctab_ne_null 1 (by decide)), Ne.symm (Layout.proctab_ne_null 2 (by decide))⟩
  idle_notMem := by
    simp only [mainProcs, List.mem_toFinset, List.mem_cons, List.not_mem_nil, or_false, not_or]
    exact ⟨Ne.symm (Layout.proctab_ne_idlestate 0 (by decide)),
      Ne.symm (Layout.proctab_ne_idlestate 1 (by decide)),
      Ne.symm (Layout.proctab_ne_idlestate 2 (by decide))⟩
  pos _ _ := by decide
  fits := by
    rw [List.sum_toFinset _ mainProcs_nodup]
    show 1 + (1 + (1 + 0)) < 2 ^ 32
    decide

/-- The kernel boots. -/
theorem main_boots : ∃ boot, Booted mainProcs boot :=
  (created_blank mainProcs_nodup mainProcs_shares).boots

/-- Boot with the processes of `main.hla` and let interrupts come that meet a condition. -/
def guardedRun (cond : Kernel → Event → Prop) [∀ s e, Decidable (cond s e)] (es : List Event) :
    Option Kernel :=
  (mainProcs.foldlM enqueue (blank fun _ => 1)).bind fun boot =>
    es.foldlM (Machine.guarded step cond) boot

/-- Boot with the processes of `main.hla` and let interrupts come. -/
def mainRun (es : List Event) : Option Kernel := guardedRun Machine.always es

theorem guardedRun_eq_some {cond : Kernel → Event → Prop} [∀ s e, Decidable (cond s e)]
    (h : guardedRun cond es = some s) :
    ∃ boot, Booted mainProcs boot ∧ Machine.Run step cond boot es s := by
  obtain ⟨boot, hboot, hrun⟩ := Option.bind_eq_some_iff.1 h
  exact ⟨boot, ⟨_, created_blank mainProcs_nodup mainProcs_shares, hboot⟩,
    .of_foldlM (fun _ _ _ => Machine.of_guarded) hrun⟩

theorem mainRun_eq_some (h : mainRun es = some s) :
    ∃ boot, Booted mainProcs boot ∧ Run boot es s := guardedRun_eq_some h

theorem reachable_of_mainRun (h : mainRun es = some s) : Reachable mainProcs s := by
  obtain ⟨boot, hboot, hrun⟩ := mainRun_eq_some h
  exact ⟨boot, es, hboot, hrun⟩

end Kernel

end Mycrokernel
