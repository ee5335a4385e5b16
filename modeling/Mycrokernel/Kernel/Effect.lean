import Mycrokernel.Kernel.Ipc

/-!
# What an interrupt does

`IpcInv` ties the run queue, the lists of senders and waiters and the state bytes
of a kernel state to a rendezvous.  `Effect` says once what handling an interrupt
can do to such a state: nothing that concerns messages (`quiet`), or one of eight
moves of the rendezvous.  `IpcInv.handle` shows that these are all; the results about
runs are case distinctions over `Effect`, or over what it does to one process: to the
caller (`Effect.caller`) and to any other (`Effect.bystander`).
-/

namespace Mycrokernel

open Function (update update_self update_of_ne)
open PointerList

namespace Event

/-- The number of the system call an event makes. -/
def call : Event → Option Nat
  | syscall regs _ => some regs.eaxReg.toNat
  | _ => none

/-- The line that an event raises. -/
def irq : Event → Option Nat
  | device number _ => some number
  | _ => none

theorem irq_of_call {e : Event} {n : Nat} (h : e.call = some n) : e.irq = none := by
  cases e with
  | timer => exact absurd h (by simp [call])
  | device => exact absurd h (by simp [call])
  | syscall => rfl

end Event

namespace Kernel

open Rendezvous (Place)
open Sched (QueueInv Entered Left)

variable [Layout] {procs : Finset Ptr} {s s' k : Kernel} {m m' : Rendezvous Ptr Nat}
  {p r w x : Ptr} {i : Nat} {q q' : List Ptr} {e : Event}

/-! ## The invariant -/

/-- The state byte of a process at a place.  A process that waited for a feature keeps the
state 0 when it becomes a sender of the supplier. -/
def StateOk : Place Ptr Nat → BitVec 8 → Prop
  | .running, b => b = 0
  | .receiving, b => b = Flag.receiving
  | .sending _, b => b = 0 ∨ b = Flag.sending
  | .waiting _, b => b = 0
  | .stranded, b => b = 0 ∨ b = Flag.sending
  | .exited, b => b = Flag.empty

/-- The kernel state represents the run queue `q` and the rendezvous `m`. -/
structure IpcInv (procs : Finset Ptr) (s : Kernel) (q : List Ptr) (m : Rendezvous Ptr Nat) :
    Prop where
  queue : QueueInv procs s.sched q
  lists : Threaded procs s m
  running : ∀ p, p ∈ q ↔ m.place p = .running
  place_mem : ∀ p, m.place p ≠ .exited → p ∈ procs
  receiver_mem : ∀ p r, m.place p = .sending r → r ∈ procs
  entry_lt : ∀ p i, m.place p = .waiting i → i < featureTableSize
  /-- The supplier of a feature is a process, and nobody waits for the feature then. -/
  supplier : ∀ i < featureTableSize, (s.featureTable i).supplier = null ∨
    (s.featureTable i).supplier ∈ procs ∧ m.waiters i = []
  irqs : ∀ n ≤ maxIrq, s.irqs n = null ∨ s.irqs n ∈ procs
  state : ∀ p ∈ procs, StateOk (m.place p) (s.state p)

theorem IpcInv.ne_null (h : IpcInv procs s q m) (hp : p ∈ procs) : p ≠ null :=
  h.queue.toQueueLinks.ne_null hp

theorem IpcInv.ne_idle (h : IpcInv procs s q m) (hp : p ∈ procs) : p ≠ idlestate :=
  h.queue.toQueueLinks.ne_idle hp

theorem IpcInv.mem_procs (h : IpcInv procs s q m) (hp : p ∈ q) : p ∈ procs :=
  h.queue.mem_procs p hp

theorem IpcInv.off_of_mem (h : IpcInv procs s q m) (hp : p ∈ q) : (m.place p).Off := by
  rw [(h.running p).1 hp]
  exact Place.off_running

theorem IpcInv.state_of_mem (h : IpcInv procs s q m) (hp : p ∈ q) : s.state p = 0 := by
  have hst := h.state p (h.mem_procs hp)
  rwa [(h.running p).1 hp] at hst

/-- The flag `RECEIVING` is set exactly where a process is blocked in a receive. -/
theorem IpcInv.receiving_iff (h : IpcInv procs s q m) (hp : p ∈ procs) :
    s.state p &&& Flag.receiving ≠ 0 ↔ m.place p = .receiving := by
  have hst := h.state p hp
  cases hpl : m.place p <;> rw [hpl] at hst
  case running => simp [show s.state p = 0 from hst]
  case receiving => simp [show s.state p = Flag.receiving from hst, Flag.receiving, Flag.empty]
  case sending =>
    rcases hst with hst | hst <;>
      simp [hst, Flag.sending, Flag.receiving, Flag.empty]
  case waiting => simp [show s.state p = 0 from hst]
  case stranded =>
    rcases hst with hst | hst <;>
      simp [hst, Flag.sending, Flag.receiving, Flag.empty]
  case exited => simp [show s.state p = Flag.empty from hst, Flag.receiving, Flag.empty]

/-- The state is `EMPTY` exactly where a process has exited. -/
theorem IpcInv.empty_iff (h : IpcInv procs s q m) (hp : p ∈ procs) :
    s.state p = Flag.empty ↔ m.place p = .exited := by
  have hst := h.state p hp
  cases hpl : m.place p <;> rw [hpl] at hst
  case running => simp [show s.state p = 0 from hst, Flag.empty]
  case receiving => simp [show s.state p = Flag.receiving from hst, Flag.receiving, Flag.empty]
  case sending =>
    rcases hst with hst | hst <;> simp [hst, Flag.sending, Flag.receiving, Flag.empty]
  case waiting => simp [show s.state p = 0 from hst, Flag.empty]
  case stranded =>
    rcases hst with hst | hst <;> simp [hst, Flag.sending, Flag.receiving, Flag.empty]
  case exited => simp [show s.state p = Flag.empty from hst]

/-- Who has the flag `SENDING` set is on a list of senders, or was on one. -/
theorem IpcInv.place_of_sending (h : IpcInv procs s q m) (hp : p ∈ procs)
    (hflag : s.state p &&& Flag.sending ≠ 0) :
    (∃ r, m.place p = .sending r) ∨ m.place p = .stranded := by
  have hst := h.state p hp
  cases hpl : m.place p <;> rw [hpl] at hst
  case running => exact absurd (show s.state p = 0 from hst) (by rintro h; simp [h] at hflag)
  case receiving =>
    rw [show s.state p = Flag.receiving from hst] at hflag
    exact absurd hflag (by decide)
  case sending r => exact Or.inl ⟨r, rfl⟩
  case waiting => exact absurd (show s.state p = 0 from hst) (by rintro h; simp [h] at hflag)
  case stranded => exact Or.inr rfl
  case exited =>
    rw [show s.state p = Flag.empty from hst] at hflag
    exact absurd hflag (by decide)

/-- Who is blocked in a receive is off the run queue, and has no flag but `RECEIVING`. -/
theorem IpcInv.receiving_off (h : IpcInv procs s q m) (hr : m.place r = .receiving) :
    r ∈ procs ∧ r ∉ q ∧ s.state r &&& ~~~Flag.receiving = 0 := by
  have hrm := h.place_mem r (by simp [hr])
  have hst := h.state r hrm
  rw [hr] at hst
  refine ⟨hrm, fun hrq => ?_, ?_⟩
  · rw [h.running, hr] at hrq
    exact absurd hrq (by simp)
  · rw [show s.state r = Flag.receiving from hst]
    decide

/-- A sender on a list has no flag but `SENDING`. -/
theorem IpcInv.sending_state (h : IpcInv procs s q m) (hw : m.place w = .sending r) :
    s.state w &&& ~~~Flag.sending = 0 := by
  have hst := h.state w (h.place_mem w (by simp [hw]))
  rw [hw] at hst
  rcases hst with hst | hst <;> rw [hst] <;> decide

/-- A state that differs in fields the invariant does not read keeps it. -/
theorem IpcInv.congr (h : IpcInv procs s q m) (hsched : s'.sched = s.sched)
    (hstate : s'.state = s.state) (hnext : s'.nextSender = s.nextSender)
    (hfirst : s'.firstSender = s.firstSender) (htable : s'.featureTable = s.featureTable)
    (hirqs : ∀ n ≤ maxIrq, s'.irqs n = null ∨ s'.irqs n ∈ procs) : IpcInv procs s' q m where
  queue := hsched ▸ h.queue
  lists := h.lists.congr hnext hfirst (fun i => by rw [htable]) rfl rfl
  running := h.running
  place_mem := h.place_mem
  receiver_mem := h.receiver_mem
  entry_lt := h.entry_lt
  supplier := htable ▸ h.supplier
  irqs := hirqs
  state := hstate ▸ h.state

/-! ## The processor -/

/-- Between two interrupts no choice is pending.  Before the first one there is no current
process, and the idle task runs when the queue was empty. -/
structure Between (s : Sched) (q : List Ptr) : Prop where
  nextptr : s.nextptr = null
  curptr : s.curptr = null ∨ s.curptr = idlestate ∨ s.curptr ∈ q

/-- When an interrupt has been handled, `dequeue` may have chosen the next process already.
If it has not, the current process is still on the queue or was the last one on it. -/
def Handled (s : Sched) (q : List Ptr) : Prop :=
  s.nextptr ∈ q ∨
    s.nextptr = null ∧ (s.curptr = null ∨ s.curptr = idlestate ∨ s.curptr ∈ q ∨ q = [])

/-- At the end of `do_hard_int` the choice is a process of the queue, or the idle task. -/
def Chosen (s : Sched) (q : List Ptr) : Prop :=
  s.nextptr ∈ q ∨ q = [] ∧ s.nextptr = idlestate

theorem Between.handled {s t : Sched} (hb : Between s q) (hcur : t.curptr = s.curptr)
    (hnext : t.nextptr = s.nextptr) (hq : ∀ x ∈ q, x ∈ q') : Handled t q' := by
  refine Or.inr ⟨hnext.trans hb.nextptr, ?_⟩
  rw [hcur]
  rcases hb.curptr with h | h | h
  · exact Or.inl h
  · exact Or.inr (Or.inl h)
  · exact Or.inr (Or.inr (Or.inl (hq _ h)))

/-- `dequeue` of the current process chooses another one, if there is one. -/
theorem handled_of_left {s t : Sched} (hl : Left procs s.curptr s t q q')
    (hnext : s.nextptr = null) : Handled t q' := by
  by_cases hq : q' = []
  · obtain ⟨hcur, hnext'⟩ := hl.dequeued.keeps (Or.inl hq)
    exact Or.inr ⟨hnext'.trans hnext, Or.inr (Or.inr (Or.inr hq))⟩
  · exact Or.inl (hl.dequeued.chosen hq rfl hnext)

/-! ## The effects -/

/-- The two states agree on everything but the scheduler and the lists of senders. -/
structure Alike (s s' : Kernel) : Prop where
  regs : s'.regs = s.regs
  state : s'.state = s.state
  interrupts : s'.interrupts = s.interrupts
  pid : s'.pid = s.pid
  idxTss : s'.idxTss = s.idxTss
  receivingFrom : s'.receivingFrom = s.receivingFrom
  supplier : ∀ i, (s'.featureTable i).supplier = (s.featureTable i).supplier
  irqs : s'.irqs = s.irqs
  portAccessers : s'.portAccessers = s.portAccessers
  gdt : s'.gdt = s.gdt
  mem : s'.mem = s.mem
  exchanges : s'.exchanges = s.exchanges
  freedGdt : s'.freedGdt = s.freedGdt
  freedPids : s'.freedPids = s.freedPids
  portLog : s'.portLog = s.portLog

/-- A message has gone from `sender` to `receiver`, and both calls report success. -/
def delivered (s : Kernel) (sender receiver : Ptr) : Kernel :=
  let bytes := s.exchangeBytes sender receiver
  { s with
    regs := fun x =>
      if x = sender ∨ x = receiver then { s.regs x with eaxReg := bytes, esiReg := Err.ok }
      else s.regs x
    mem := (s.exchangeData sender receiver).mem
    exchanges := { sender, receiver, bytes } :: s.exchanges }

/-- The buffer that the message registers of `p` describe. -/
def BufferOk (s : Kernel) (p : Ptr) : Prop :=
  s.validateDataArea p (s.regs p).edxReg (s.regs p).ecxReg = 0

/-- What the event `e`, which is about no message, does to the interrupts that are pending. -/
inductive Pends (s : Kernel) (e : Event) (s' : Kernel) : Prop where
  /-- Nothing is raised, and a receive has failed. -/
  | same : s'.interrupts = s.interrupts → (∀ n, e.irq = some n → s.irqs n = null) →
      (e.call = some 2 → ¬ BufferOk s s.sched.curptr ∧
        (s'.regs s.sched.curptr).esiReg = Err.invalidBuffer) → Pends s e s'
  /-- The owner of the interrupt will be told by its next receive. -/
  | raised {n : Nat} : e.irq = some n → s.irqs n ≠ null →
      s.state (s.irqs n) &&& Flag.receiving = 0 →
      s'.interrupts = update s.interrupts (s.irqs n) (s.interrupts (s.irqs n) ||| 1#16 <<< n) →
      Pends s e s'
  /-- A receive reports what is pending. -/
  | reported : e.call = some 2 → s.state s.sched.curptr = 0 → s.interrupts s.sched.curptr ≠ 0 →
      s'.interrupts = update s.interrupts s.sched.curptr 0 →
      (s'.regs s.sched.curptr).esiReg = (s.interrupts s.sched.curptr).setWidth 32 → Pends s e s'

omit [Layout] in
/-- The interrupts of a process that is blocked in a receive stay. -/
theorem Pends.of_receiving (h : Pends s e s') (hx : s.state x &&& Flag.receiving ≠ 0) :
    s'.interrupts x = s.interrupts x := by
  cases h with
  | same hi => rw [hi]
  | raised _ _ hstate hi =>
    rw [hi]
    refine update_of_ne ?_ _ _
    rintro rfl
    exact hx hstate
  | reported _ hstate _ hi =>
    rw [hi]
    refine update_of_ne ?_ _ _
    rintro rfl
    rw [hstate] at hx
    exact hx (by decide)

/-- What the event `e`, which is about no message, does to the owners of the IRQs. -/
inductive Assigns (procs : Finset Ptr) (s : Kernel) (e : Event) (s' : Kernel) : Prop where
  /-- No request, or one that has failed. -/
  | same : s'.irqs = s.irqs →
      (e.call = some 4 → (s'.regs s.sched.curptr).esiReg ≠ Err.ok) → Assigns procs s e s'
  /-- The caller has the IRQ that it requests. -/
  | granted {n : Nat} : e.call = some 4 → (s.regs s.sched.curptr).ebxReg.toNat = n →
      s'.irqs = update s.irqs n s.sched.curptr → s.sched.curptr ∈ procs →
      (s'.regs s.sched.curptr).esiReg = Err.ok → Assigns procs s e s'

omit [Layout] in
theorem Assigns.cases (h : Assigns procs s e s') (n : Nat) :
    s'.irqs n = s.irqs n ∨ s'.irqs n = s.sched.curptr ∧ s.sched.curptr ∈ procs := by
  cases h with
  | same hirqs => exact Or.inl (by rw [hirqs])
  | @granted i _ _ hirqs hmem =>
    rw [hirqs]
    by_cases hn : n = i
    · exact Or.inr ⟨by rw [hn, update_self], hmem⟩
    · exact Or.inl (update_of_ne hn _ _)

/-- Nothing happens that concerns messages.  A call that was about a message has failed, and
nobody exits. -/
structure Quiet (procs : Finset Ptr) (s : Kernel) (e : Event) (s' : Kernel) : Prop where
  sched : s'.sched = s.sched
  state : s'.state = s.state
  nextSender : s'.nextSender = s.nextSender
  firstSender : s'.firstSender = s.firstSender
  featureTable : s'.featureTable = s.featureTable
  receivingFrom : s'.receivingFrom = s.receivingFrom
  gdt : s'.gdt = s.gdt
  idxTss : s'.idxTss = s.idxTss
  exchanges : s'.exchanges = s.exchanges
  irqs : Assigns procs s e s'
  regs : ∀ x ≠ s.sched.curptr, s'.regs x = s.regs x
  pends : Pends s e s'
  stays : e.call ≠ some 0
  failed : e.call = some 2 ∨ e.call = some 3 → (s'.regs s.sched.curptr).esiReg ≠ Err.ok

/-- What handling the event `e`, which finds the process `p` running, does to a state and
the rendezvous it represents. -/
inductive Effect (procs : Finset Ptr) (s : Kernel) (m : Rendezvous Ptr Nat) (p : Ptr) :
    Event → Kernel → Rendezvous Ptr Nat → Prop where
  | quiet {e : Event} {s' : Kernel} : Quiet procs s e s' → Effect procs s m p e s' m
  /-- `p` sends to the supplier `r` of a feature, which is waiting for it. -/
  | direct {e : Event} {s' : Kernel} {r : Ptr} {i : Nat} (hr : m.place r = .receiving) :
      e.call = some 3 → p ∈ procs → m.place p = .running →
      featureEntry (s.regs p).ebxReg = some i →
      (s.featureTable i).supplier = r → BufferOk s p → Accepts (s.receivingFrom r) p →
      s.sched.enqueue r = some s'.sched →
      Alike { delivered (s.setRegs p fun c => { c with ebxReg := r }) p r with
        state := update s.state r 0
        receivingFrom := update s.receivingFrom r null } s' →
      Effect procs s m p e s' (m.move r .running (Rendezvous.off_of_receiving hr) Place.off_running)
  /-- `p` sends to the supplier `r` of a feature and blocks. -/
  | queued {e : Event} {s' : Kernel} {r : Ptr} {i : Nat} (hp : m.place p = .running) :
      e.call = some 3 → p ∈ procs → featureEntry (s.regs p).ebxReg = some i →
      (s.featureTable i).supplier = r → r ∈ procs → r ≠ p → BufferOk s p →
      ¬ (m.place r = .receiving ∧ Accepts (s.receivingFrom r) p) →
      s.sched.dequeue p = some s'.sched →
      Alike { s.setRegs p fun c => { c with ebxReg := r } with
        state := update s.state p Flag.sending } s' →
      Effect procs s m p e s' (m.send p r (Rendezvous.off_of_running hp))
  /-- `p` sends to a feature without a supplier and blocks. -/
  | parked {e : Event} {s' : Kernel} {i : Nat} (hp : m.place p = .running) :
      e.call = some 3 → p ∈ procs → checkFeature (s.regs p).ebxReg = some 0 →
      featureEntry (s.regs p).ebxReg = some i →
      (s.featureTable i).supplier = null → (s.regs p).ediReg = 1 →
      s.sched.dequeue p = some s'.sched → Alike s s' →
      Effect procs s m p e s' (m.wait p i (Rendezvous.off_of_running hp))
  /-- `p` receives from the sender `w`, which was blocked. -/
  | fetched {e : Event} {s' : Kernel} {w : Ptr} (hw : m.place w = .sending p) :
      e.call = some 2 → p ∈ procs → m.place p = .running → BufferOk s p → s.interrupts p = 0 →
      Picks s p (s.regs p).ebxReg w → s.sched.enqueue w = some s'.sched →
      Alike { delivered s w p with
        state := update s.state w 0 } s' →
      Effect procs s m p e s' (m.take w p hw)
  /-- `p` receives and blocks. -/
  | listening {e : Event} {s' : Kernel} (hp : m.place p = .running) :
      e.call = some 2 → p ∈ procs → BufferOk s p → s.interrupts p = 0 →
      (∀ x ∈ m.senders p, ¬ Accepts (s.regs p).ebxReg x) → s.sched.dequeue p = some s'.sched →
      Alike { s with
        state := update s.state p Flag.receiving
        receivingFrom := update s.receivingFrom p (s.regs p).ebxReg } s' →
      Effect procs s m p e s' (m.move p .receiving (Rendezvous.off_of_running hp) Place.off_receiving)
  /-- `p` becomes the supplier of a feature. -/
  | adopted {e : Event} {s' : Kernel} {i : Nat} :
      e.call = some 1 → p ∈ procs → m.place p = .running →
      checkFeature (s.regs p).ebxReg = some 0 → featureEntry (s.regs p).ebxReg = some i →
      (s.featureTable i).supplier = null → s'.sched = s.sched →
      Alike { s.setErr p Err.ok with
        featureTable := update s.featureTable i { supplier := p, waiter := null } } s' →
      Effect procs s m p e s' (m.adopt p i)
  /-- `p` exits. -/
  | exited {e : Event} {s' : Kernel} {t : Sched}
      (hp : ((m.release p).place p).Off) :
      e.call = some 0 → p ∈ procs → m.place p = .running →
      (m.senders p).foldlM Sched.enqueue s.sched = some t → t.dequeue p = some s'.sched →
      s'.regs = diedRegs (m.senders p) s.regs → s'.interrupts = s.interrupts →
      s'.receivingFrom = s.receivingFrom → s'.gdt = s.gdt → s'.idxTss = s.idxTss →
      s'.exchanges = s.exchanges →
      (∀ i, (s'.featureTable i).supplier = (s.featureTable i).supplier) →
      (∀ n, s'.irqs n = if n < maxIrq ∧ s.irqs n = p then null else s.irqs n) →
      (∀ x, s'.state x = if x ∈ m.senders p then 0 else update s.state p Flag.empty x) →
      Effect procs s m p e s' ((m.release p).move p .exited hp Place.off_exited)
  /-- The interrupt of a device ends the receive of its owner `r`. -/
  | rung {e : Event} {s' : Kernel} {r : Ptr} {n : Nat} (hr : m.place r = .receiving) :
      e.irq = some n → e.call = none → s.irqs n = r → n ≤ maxIrq →
      s.sched.enqueue r = some s'.sched →
      Alike { s with
        regs := update s.regs r
          { s.regs r with esiReg := (1#16 <<< n).setWidth 32, eaxReg := 0 }
        state := update s.state r 0
        receivingFrom := update s.receivingFrom r null } s' →
      Effect procs s m p e s' (m.move r .running (Rendezvous.off_of_receiving hr) Place.off_running)

/-! ## Places after an effect -/

/-- Only an exit makes a process exit. -/
theorem Effect.exited_cases (heff : Effect procs s m p e k m') (hx : m'.place x = .exited) :
    m.place x = .exited ∨ x = p ∧ e.call = some 0 := by
  have hmove : ∀ {y : Ptr} {pl : Place Ptr Nat}, pl ≠ .exited →
      update m.place y pl x = .exited → m.place x = .exited ∨ x = p ∧ e.call = some 0 := by
    intro y pl hpl hx
    by_cases hxy : x = y
    · rw [hxy, update_self] at hx
      exact absurd hx hpl
    · rw [update_of_ne hxy] at hx
      exact Or.inl hx
  cases heff with
  | quiet => exact Or.inl hx
  | direct => exact hmove (by simp) hx
  | queued => exact hmove (by simp) hx
  | parked => exact hmove (by simp) hx
  | fetched => exact hmove (by simp) hx
  | listening => exact hmove (by simp) hx
  | @adopted i =>
    exact Or.inl (Rendezvous.place_of_adopt hx (by simp) (by simp))
  | exited _ hcall =>
    by_cases hxp : x = p
    · exact Or.inr ⟨hxp, hcall⟩
    · rw [Rendezvous.move_place, update_of_ne hxp] at hx
      exact Or.inl (Rendezvous.place_of_release hx (by simp))
  | rung => exact hmove (by simp) hx

/-- Who has exited stays so. -/
theorem Effect.exited_stays (heff : Effect procs s m p e k m') (hx : m.place x = .exited) :
    m'.place x = .exited := by
  have hkeep : ∀ {y : Ptr} {pl : Place Ptr Nat}, m.place y ≠ .exited →
      update m.place y pl x = .exited := by
    intro y pl hy
    rw [update_of_ne, hx]
    rintro rfl
    exact hy hx
  cases heff with
  | quiet => exact hx
  | direct hr => exact hkeep (by simp [hr])
  | queued hp => exact hkeep (by simp [hp])
  | parked hp => exact hkeep (by simp [hp])
  | fetched hw => exact hkeep (by simp [hw])
  | listening hp => exact hkeep (by simp [hp])
  | adopted =>
    rw [Rendezvous.adopt_place_of_ne (by simp [hx]) (by simp [hx])]
    exact hx
  | exited =>
    by_cases hxp : x = p
    · rw [hxp, Rendezvous.move_place, update_self]
    · rw [Rendezvous.move_place, update_of_ne hxp, Rendezvous.release_place_of_ne (by simp [hx])]
      exact hx
  | rung hr => exact hkeep (by simp [hr])

/-! ## Suppliers after an effect -/

/-- The supplier of a feature stays, or the caller becomes the first one. -/
theorem Effect.supplier_cases (heff : Effect procs s m p e k m') (i : Nat) :
    (k.featureTable i).supplier = (s.featureTable i).supplier ∨
      (s.featureTable i).supplier = null ∧ (k.featureTable i).supplier = p ∧
        m'.place p = .running := by
  cases heff with
  | quiet hq => exact Or.inl (by rw [hq.featureTable])
  | direct _ _ _ _ _ _ _ _ _ halike => exact Or.inl (halike.supplier i)
  | queued _ _ _ _ _ _ _ _ _ _ halike => exact Or.inl (halike.supplier i)
  | parked _ _ _ _ _ _ _ _ halike => exact Or.inl (halike.supplier i)
  | fetched _ _ _ _ _ _ _ _ halike => exact Or.inl (halike.supplier i)
  | listening _ _ _ _ _ _ _ halike => exact Or.inl (halike.supplier i)
  | @adopted j _ _ hrun _ _ hnull _ halike =>
    have hsup := halike.supplier i
    dsimp only at hsup
    by_cases hij : i = j
    · subst hij
      rw [update_self] at hsup
      refine Or.inr ⟨hnull, hsup, ?_⟩
      rw [Rendezvous.adopt_place_of_ne (by simp [hrun]) (by simp [hrun]), hrun]
    · rw [update_of_ne hij] at hsup
      exact Or.inl hsup
  | exited _ _ _ _ _ _ _ _ _ _ _ _ hsup => exact Or.inl (hsup i)
  | rung _ _ _ _ _ _ halike => exact Or.inl (halike.supplier i)

/-- The supplier of a feature stays its supplier. -/
theorem Effect.supplier_eq (heff : Effect procs s m p e k m') {i : Nat}
    (hne : (s.featureTable i).supplier ≠ null) :
    (k.featureTable i).supplier = (s.featureTable i).supplier :=
  (heff.supplier_cases i).resolve_right fun h => hne h.1

/-! ## One process after an effect -/

theorem Effect.gdt (heff : Effect procs s m p e k m') : k.gdt = s.gdt := by
  cases heff with
  | quiet hq => exact hq.gdt
  | direct _ _ _ _ _ _ _ _ _ halike => exact halike.gdt
  | queued _ _ _ _ _ _ _ _ _ _ halike => exact halike.gdt
  | parked _ _ _ _ _ _ _ _ halike => exact halike.gdt
  | fetched _ _ _ _ _ _ _ _ halike => exact halike.gdt
  | listening _ _ _ _ _ _ _ halike => exact halike.gdt
  | adopted _ _ _ _ _ _ _ halike => exact halike.gdt
  | exited _ _ _ _ _ _ _ _ _ hgdt => exact hgdt
  | rung _ _ _ _ _ _ halike => exact halike.gdt

section

omit [Layout]

theorem delivered_regs_of_ne (hr : x ≠ r) (hw : x ≠ w) : (s.delivered r w).regs x = s.regs x :=
  if_neg (not_or.2 ⟨hr, hw⟩)

theorem exchanges_none (h : k.exchanges = s.exchanges) : ∃ passed,
    k.exchanges = passed ++ s.exchanges ∧ ∀ y ∈ passed, y.sender ≠ x ∧ y.receiver ≠ x :=
  ⟨[], h, by simp⟩

end

/-- What an effect does to a process `x` other than the caller `p`. -/
inductive Bystander (s k : Kernel) (m m' : Rendezvous Ptr Nat) (p x : Ptr) : Prop where
  /-- It stays where it is, and no message is copied from it or to it. -/
  | stays : m'.place x = m.place x → k.regs x = s.regs x → k.state x = s.state x →
      k.receivingFrom x = s.receivingFrom x →
      (∃ passed, k.exchanges = passed ++ s.exchanges ∧
        ∀ y ∈ passed, y.sender ≠ x ∧ y.receiver ≠ x) → Bystander s k m m' p x
  | woken : m.place x ≠ .running → m'.place x = .running → Bystander s k m m' p x
  /-- It waits for a feature, and the caller has become its supplier. -/
  | served {i : Nat} : m.place x = .waiting i → m'.place x = .sending p →
      (k.featureTable i).supplier = p → k.regs x = s.regs x → Bystander s k m m' p x
  /-- It has been on the list of senders that the caller loses. -/
  | stranded : m.place x = .sending p → m'.place x = .stranded → k.regs x = s.regs x →
      Bystander s k m m' p x

theorem Effect.bystander (heff : Effect procs s m p e k m') (hcur : s.sched.curptr = p)
    (hxp : x ≠ p) : Bystander s k m m' p x := by
  cases heff with
  | quiet hq =>
    exact .stays rfl (hq.regs x (hcur ▸ hxp)) (by rw [hq.state]) (by rw [hq.receivingFrom])
      (exchanges_none hq.exchanges)
  | @direct r i hr hcall hp hrun hi hsup hbuf hacc ht halike =>
    by_cases hxr : x = r
    · exact .woken (by simp [hxr, hr]) (by rw [hxr, Rendezvous.move_place, update_self])
    · refine .stays (update_of_ne hxr _ _) ?_ ?_ ?_ ⟨[_], halike.exchanges, ?_⟩
      · rw [halike.regs]
        exact (delivered_regs_of_ne hxp hxr).trans (update_of_ne hxp _ _)
      · rw [halike.state]
        exact update_of_ne hxr _ _
      · rw [halike.receivingFrom]
        exact update_of_ne hxr _ _
      · simp [Ne.symm hxp, Ne.symm hxr]
  | queued hp hcall hpp hi hsup hr hrp hbuf hnot ht halike =>
    refine .stays (update_of_ne hxp _ _) ?_ ?_ (by rw [halike.receivingFrom]; rfl)
      (exchanges_none halike.exchanges)
    · rw [halike.regs]
      exact update_of_ne hxp _ _
    · rw [halike.state]
      exact update_of_ne hxp _ _
  | parked hp hcall hpp hcheck hi hsup hedi ht halike =>
    exact .stays (update_of_ne hxp _ _) (by rw [halike.regs]) (by rw [halike.state])
      (by rw [halike.receivingFrom]) (exchanges_none halike.exchanges)
  | @fetched w hw hcall hpp hrun hbuf hint hacc ht halike =>
    by_cases hxw : x = w
    · exact .woken (by simp [hxw, hw]) (by rw [hxw, Rendezvous.take_place, update_self])
    · refine .stays (update_of_ne hxw _ _) ?_ ?_ (by rw [halike.receivingFrom]; rfl)
        ⟨[_], halike.exchanges, ?_⟩
      · rw [halike.regs, delivered_regs_of_ne hxw hxp]
      · rw [halike.state]
        exact update_of_ne hxw _ _
      · simp [Ne.symm hxp, Ne.symm hxw]
  | listening hp hcall hpp hbuf hint hnone ht halike =>
    refine .stays (update_of_ne hxp _ _) (by rw [halike.regs]) ?_ ?_
      (exchanges_none halike.exchanges)
    · rw [halike.state]
      exact update_of_ne hxp _ _
    · rw [halike.receivingFrom]
      exact update_of_ne hxp _ _
  | @adopted i hcall hpp hrun hcheck hi hsup ht halike =>
    have hregs : k.regs x = s.regs x := by
      rw [halike.regs]
      exact update_of_ne hxp _ _
    rcases Rendezvous.adopt_cases (m := m) (r := p) (i := i) (x := x) with
      ⟨hold, hnew⟩ | ⟨hold, hnew⟩ | ⟨-, -, hsame⟩
    · exact .served hold hnew (by rw [halike.supplier i]; simp) hregs
    · exact .stranded hold hnew hregs
    · exact .stays hsame hregs (by rw [halike.state]; rfl) (by rw [halike.receivingFrom]; rfl)
        (exchanges_none halike.exchanges)
  | exited hp hcall hpp hrun ht ht' hregs hint hfrom hgdt hidx hex hsup hirqs hstate =>
    have hplace : ((m.release p).move p .exited hp Place.off_exited).place x =
        (m.release p).place x := update_of_ne hxp _ _
    obtain ⟨hold, hnew⟩ | ⟨hold, hsame⟩ :=
      Rendezvous.release_cases (m := m) (r := p) (x := x)
    · exact .woken (by simp [hold]) (hplace.trans hnew)
    · have hmem : x ∉ m.senders p := fun hmem => hold (m.mem_senders.1 hmem)
      refine .stays (hplace.trans hsame) ?_ ?_ (by rw [hfrom]) (exchanges_none hex)
      · rw [hregs, diedRegs, if_neg hmem]
      · rw [hstate, if_neg hmem, update_of_ne hxp]
  | @rung r n hr hnum hcall hirq hn ht halike =>
    by_cases hxr : x = r
    · exact .woken (by simp [hxr, hr]) (by rw [hxr, Rendezvous.move_place, update_self])
    · refine .stays (update_of_ne hxr _ _) ?_ ?_ ?_ (exchanges_none halike.exchanges)
      · rw [halike.regs]
        exact update_of_ne hxr _ _
      · rw [halike.state]
        exact update_of_ne hxr _ _
      · rw [halike.receivingFrom]
        exact update_of_ne hxr _ _

/-- What an effect does to the caller `p`. -/
inductive Caller (procs : Finset Ptr) (s k : Kernel) (m m' : Rendezvous Ptr Nat) (p : Ptr)
    (e : Event) : Prop where
  | unmoved : m'.place p = m.place p → Caller procs s k m m' p e
  /-- It is blocked in a send to the supplier `r` of a feature. -/
  | sends {r : Ptr} {i : Nat} : m.place p = .running → e.call = some 3 →
      featureEntry (s.regs p).ebxReg = some i → (k.featureTable i).supplier = r → BufferOk s p →
      k.regs p = { s.regs p with ebxReg := r } → m'.place p = .sending r →
      Caller procs s k m m' p e
  /-- It is blocked in a send to a feature without a supplier. -/
  | waits {i : Nat} : m.place p = .running → e.call = some 3 → p ∈ procs →
      checkFeature (s.regs p).ebxReg = some 0 → featureEntry (s.regs p).ebxReg = some i →
      (s.featureTable i).supplier = null → (s.regs p).ediReg = 1 → k.regs p = s.regs p →
      m'.place p = .waiting i → Caller procs s k m m' p e
  /-- It is blocked in a receive. -/
  | listens : m.place p = .running → e.call = some 2 → BufferOk s p → k.regs p = s.regs p →
      k.receivingFrom p = (s.regs p).ebxReg → m'.place p = .receiving → Caller procs s k m m' p e
  | exits : e.call = some 0 → m'.place p = .exited → Caller procs s k m m' p e

theorem Effect.caller (heff : Effect procs s m p e k m') (hp : m.place p ≠ .receiving) :
    Caller procs s k m m' p e := by
  cases heff with
  | quiet => exact .unmoved rfl
  | direct hr =>
    refine .unmoved (update_of_ne ?_ _ _)
    rintro rfl
    exact hp hr
  | queued hrun hcall hpp hi hsup hr hrp hbuf hnot ht halike =>
    refine .sends hrun hcall hi ((halike.supplier _).trans hsup) hbuf ?_ (update_self ..)
    rw [halike.regs]
    exact update_self ..
  | parked hrun hcall hpp hcheck hi hsup hedi ht halike =>
    exact .waits hrun hcall hpp hcheck hi hsup hedi (by rw [halike.regs]) (update_self ..)
  | fetched hw hcall hpp hrun =>
    refine .unmoved (update_of_ne ?_ _ _)
    rintro rfl
    simp [hrun] at hw
  | listening hrun hcall hpp hbuf hint hnone ht halike =>
    refine .listens hrun hcall hbuf (by rw [halike.regs]) ?_ (update_self ..)
    rw [halike.receivingFrom]
    exact update_self ..
  | adopted hcall hpp hrun =>
    exact .unmoved (Rendezvous.adopt_place_of_ne (by simp [hrun]) (by simp [hrun]))
  | exited hoff hcall => exact .exits hcall (update_self ..)
  | rung hr =>
    refine .unmoved (update_of_ne ?_ _ _)
    rintro rfl
    exact hp hr

/-! ## The invariant after an effect -/

/-- One process has changed its place. -/
theorem IpcInv.moved {pl : Place Ptr Nat} (h : IpcInv procs s q m) (hx : x ∈ procs)
    (hplace : m'.place = update m.place x pl) (hq : QueueInv procs s'.sched q')
    (hl : Threaded procs s' m') (hmem : ∀ y ≠ x, y ∈ q' ↔ y ∈ q)
    (hxq : x ∈ q' ↔ pl = .running) (hrecv : ∀ r, pl = .sending r → r ∈ procs)
    (hent : ∀ i, pl = .waiting i → i < featureTableSize)
    (hsup : ∀ i < featureTableSize, (s'.featureTable i).supplier = null ∨
      (s'.featureTable i).supplier ∈ procs ∧ m'.waiters i = [])
    (hirqs : s'.irqs = s.irqs) (hstate : ∀ y ≠ x, s'.state y = s.state y)
    (hxs : StateOk pl (s'.state x)) : IpcInv procs s' q' m' where
  queue := hq
  lists := hl
  running y := by
    rw [hplace]
    by_cases hy : y = x
    · rw [hy, update_self, hxq]
    · rw [update_of_ne hy, hmem y hy, h.running]
  place_mem y hne := by
    rw [hplace] at hne
    by_cases hy : y = x
    · exact hy ▸ hx
    · rw [update_of_ne hy] at hne
      exact h.place_mem y hne
  receiver_mem y r hr := by
    rw [hplace] at hr
    by_cases hy : y = x
    · rw [hy, update_self] at hr
      exact hrecv r hr
    · rw [update_of_ne hy] at hr
      exact h.receiver_mem y r hr
  entry_lt y i hi := by
    rw [hplace] at hi
    by_cases hy : y = x
    · rw [hy, update_self] at hi
      exact hent i hi
    · rw [update_of_ne hy] at hi
      exact h.entry_lt y i hi
  supplier := hsup
  irqs := hirqs ▸ h.irqs
  state y hy := by
    rw [hplace]
    by_cases hyx : y = x
    · rw [hyx, update_self]
      exact hxs
    · rw [update_of_ne hyx, hstate y hyx]
      exact h.state y hy

theorem IpcInv.quiet (h : IpcInv procs s q m) (hq : Quiet procs s e s') : IpcInv procs s' q m :=
  h.congr hq.sched hq.state hq.nextSender hq.firstSender hq.featureTable fun n hn => by
    rcases hq.irqs.cases n with hi | hi
    · rw [hi]
      exact h.irqs n hn
    · exact Or.inr (hi.1 ▸ hi.2)

/-- Handling the event has the result `o`: a state with one of the effects. -/
def Outcome (procs : Finset Ptr) (s : Kernel) (m : Rendezvous Ptr Nat) (e : Event)
    (o : Option Kernel) : Prop :=
  ∃ s' q' m', o = some s' ∧ IpcInv procs s' q' m' ∧ Handled s'.sched q' ∧
    Effect procs s m s.sched.curptr e s' m'

theorem IpcInv.outcome_quiet (h : IpcInv procs s q m) (hb : Between s.sched q)
    (hq : Quiet procs s e s') : Outcome procs s m e (some s') :=
  ⟨s', q, m, rfl, h.quiet hq, hb.handled (by rw [hq.sched]) (by rw [hq.sched]) fun _ hx => hx,
    .quiet hq⟩

omit [Layout] in
/-- A call that only sets registers of its caller, apart from ports. -/
theorem Quiet.local {regs : Ptr → Regs} {accessers : Word → Ptr} {log : List PortAccess} {n : Nat}
    (hn : n ≠ 0) (hcall : e.call = some n) (hregs : ∀ x ≠ s.sched.curptr, regs x = s.regs x)
    (hrecv : n = 2 → ¬ BufferOk s s.sched.curptr ∧
      (regs s.sched.curptr).esiReg = Err.invalidBuffer)
    (hfailed : n = 2 ∨ n = 3 ∨ n = 4 → (regs s.sched.curptr).esiReg ≠ Err.ok) :
    Quiet procs s e { s with regs := regs, portAccessers := accessers, portLog := log } where
  sched := rfl
  state := rfl
  nextSender := rfl
  firstSender := rfl
  featureTable := rfl
  receivingFrom := rfl
  gdt := rfl
  idxTss := rfl
  exchanges := rfl
  irqs := .same rfl fun h => hfailed (by simp_all)
  regs := hregs
  pends := .same rfl (by simp [Event.irq_of_call hcall]) (by simpa [hcall] using hrecv)
  stays := by simpa [hcall] using hn
  failed h := hfailed (by simp_all; omega)

/-- A call that reports an error. -/
theorem IpcInv.outcome_setErr (h : IpcInv procs s q m) (hb : Between s.sched q) {err : Word}
    {n : Nat} (hn : n ≠ 0) (hcall : e.call = some n)
    (hrecv : n = 2 → ¬ BufferOk s s.sched.curptr ∧ err = Err.invalidBuffer)
    (hfailed : n = 2 ∨ n = 3 ∨ n = 4 → err ≠ Err.ok) :
    Outcome procs s m e (some (s.setErr s.sched.curptr err)) := by
  refine h.outcome_quiet hb (.local hn hcall (fun x hx => update_of_ne hx _ _) (fun he => ?_) ?_)
  · rw [update_self]
    exact hrecv he
  · rw [update_self]
    exact hfailed

/-! ## Features -/

/-- The table has an entry for the feature, unless `check_feature` refuses it. -/
def HasEntry (feature : Word) : Prop :=
  checkFeature feature = some 0 → (featureEntry feature).isSome

instance (feature : Word) : Decidable (HasEntry feature) :=
  inferInstanceAs (Decidable (_ → _))

section

omit [Layout]

/-- The loop of `check_feature` ends once its mask has left the word. -/
theorem countFeatures_ends (feature : Word) {n k : Nat} {found : BitVec 8} (hk : n + k = 33)
    (hn : 0 < n) : ∃ c, countFeatures feature n (1#32 <<< k) found = some c := by
  induction n generalizing k found with
  | zero => exact absurd hn (lt_irrefl 0)
  | succ n ih =>
    rw [countFeatures]
    by_cases hmask : 0 < 1#32 <<< k
    · rw [if_pos hmask]
      dsimp only
      generalize (if feature &&& 1#32 <<< k ≠ 0 then found + 1 else found) = found'
      split
      · exact ⟨_, rfl⟩
      · cases n with
        | zero =>
          obtain rfl : k = 32 := by omega
          exact absurd hmask (by decide)
        | succ n =>
          rw [← BitVec.shiftLeft_add]
          exact ih (by omega) (Nat.succ_pos n)
    · rw [if_neg hmask]
      exact ⟨_, rfl⟩

/-- `check_feature` ends. -/
theorem checkFeature_ends (feature : Word) : ∃ c, checkFeature feature = some c := by
  obtain ⟨c, hc⟩ : ∃ c, countFeatures feature 33 (1#32 <<< 0) 0 = some c :=
    countFeatures_ends feature rfl (by decide)
  refine ⟨if c = 1 then 0 else -1, ?_⟩
  rw [checkFeature, show (1 : Word) = 1#32 <<< 0 from rfl, hc, Option.map_some]

theorem featureEntry_lt {feature : Word} (hi : featureEntry feature = some i) :
    i < featureTableSize := by
  unfold featureEntry at hi
  obtain ⟨idx, -, hidx⟩ := Option.bind_eq_some_iff.1 hi
  split at hidx
  next hlt =>
    obtain rfl : idx = i := Option.some.inj hidx
    exact hlt
  next => exact absurd hidx (by simp)

/-- `check_feature` refuses the feature, or the table has an entry for it. -/
theorem HasEntry.check {feature : Word} (hf : HasEntry feature) :
    (∃ c ≠ 0, checkFeature feature = some c) ∨
      checkFeature feature = some 0 ∧ ∃ i < featureTableSize, featureEntry feature = some i := by
  obtain ⟨c, hc⟩ := checkFeature_ends feature
  by_cases hc0 : c = 0
  · subst hc0
    obtain ⟨i, hi⟩ := Option.isSome_iff_exists.1 (hf hc)
    exact Or.inr ⟨hc, i, featureEntry_lt hi, hi⟩
  · exact Or.inl ⟨c, hc0, hc⟩

end

end Kernel

end Mycrokernel
