import Mycrokernel.Kernel.Queue
import Mycrokernel.Kernel.Syscall
import Mycrokernel.Lib.Run

/-!
# Interrupts

The kernel runs in interrupt tasks only.  The processor saves the registers of
the task it interrupts, `do_hard_int` handles the interrupt and leaves its choice
in `nextptr`, and the macro `schedule` makes the choice the current process and
the task the interrupt returns to.  `step` is one such interrupt, from the
moment before it to the moment after its `iret`.

`Booted` describes the state `start` leaves behind: processes have been created
and enqueued in order, and no interrupt has come yet, so `curptr` is still `NULL`.
-/

namespace Mycrokernel

open Function (update)

/-- What interrupts the processor.  `regs` are the registers of the task that is
interrupted, and a system call is the interrupt 2 it raises itself. -/
inductive Event where
  | timer (regs : Regs)
  | device (number : Nat) (regs : Regs)
  /-- `input` is what the device answers if the call reads from a port. -/
  | syscall (regs : Regs) (input : Word)
deriving DecidableEq

namespace Event

def number : Event → Nat
  | timer _ => 0
  | device number _ => number
  | syscall _ _ => 2

def regs : Event → Regs
  | timer regs => regs
  | device _ regs => regs
  | syscall regs _ => regs

def input : Event → Word
  | syscall _ input => input
  | _ => 0

end Event

namespace Kernel

variable [Layout]

/-! ## Interrupt handlers -/

/-- `clockIsr`. -/
def clockIsr (s : Kernel) : Kernel :=
  let s := { s with seconds := s.seconds + 1 }
  if s.seconds = 60 then
    let s := { s with seconds := 0, minutes := s.minutes + 1 }
    if s.minutes = 60 then { s with minutes := 0, hours := s.hours + 1 } else s
  else s

/-- `syscallIsr`, with the table `syscalls`. -/
def syscallIsr (s : Kernel) (input : Word) : Option Kernel :=
  match (s.regs s.sched.curptr).eaxReg.toNat with
  | 0 => s.syscallExit
  | 1 => s.syscallSetFeature
  | 2 => s.syscallReceive
  | 3 => s.syscallSendByFeature
  | 4 => some s.syscallRequestIrq
  | 5 => some (s.syscallInb input)
  | 6 => some s.syscallClaimPort
  | 7 => some s.syscallOutb
  | 8 => some (s.syscallInw input)
  | 9 => some s.syscallOutw
  | 10 => some s.syscallVir2phys
  | _ => some (s.setErr s.sched.curptr Err.unknownSyscall)

/-- `notify_irq`. -/
def notifyIrq (s : Kernel) (number : Nat) : Option Kernel :=
  let mask := 1#16 <<< number
  let owner := s.irqs number
  if s.state owner &&& Flag.receiving ≠ 0 then
    let s := s.setErr owner (mask.setWidth 32)
    (s.clearReceivingFrom owner).map fun s => s.setEax owner 0
  else some { s with interrupts := update s.interrupts owner (s.interrupts owner ||| mask) }

/-- What `do_hard_int` does before its label `finish`. -/
def handle (s : Kernel) (number : Nat) (input : Word) : Option Kernel :=
  if number = 0 then some s.clockIsr
  else if number = 2 then s.syscallIsr input
  else if s.irqs number = null then some s
  else s.notifyIrq number

/-- What `do_hard_int` does from its label `finish` on. -/
def finish (s : Kernel) : Kernel :=
  if s.sched.nextptr = null then { s with sched := s.sched.chargeProcess.pickNextProc } else s

/-- `do_hard_int`. -/
def doHardInt (s : Kernel) (number : Nat) (input : Word) : Option Kernel :=
  (s.handle number input).map finish

/-- The macro `schedule`, in the interrupt `number`. -/
def schedule (s : Kernel) (number : Nat) : Kernel :=
  let sched := s.sched.schedule
  let idx := s.idxTss sched.curptr
  let desc := s.gdt (idx.setWidth 32)
  { s with
    sched
    backlink := update s.backlink number idx
    gdt := update s.gdt (idx.setWidth 32) { desc with props1 := desc.props1 ||| 0b10 } }

/-! ## The step of the system -/

/-- The processor saves the registers of the task it leaves.  Before the first interrupt
that is the task of the boot code, and no process. -/
def saveContext (s : Kernel) (regs : Regs) : Kernel :=
  if s.sched.curptr = null then s else s.setRegs s.sched.curptr fun _ => regs

/-- The events that can come.  Only processes make system calls. -/
def Enabled (s : Kernel) : Event → Prop
  | .timer _ => True
  | .device number _ => number ≠ 0 ∧ number ≠ 2 ∧ number ≤ maxIrq
  | .syscall _ _ => s.sched.curptr ≠ null ∧ s.sched.curptr ≠ idlestate

instance (s : Kernel) (e : Event) : Decidable (s.Enabled e) :=
  match e with
  | .timer _ => inferInstanceAs (Decidable True)
  | .device _ _ => inferInstanceAs (Decidable (_ ∧ _ ∧ _))
  | .syscall _ _ => inferInstanceAs (Decidable (_ ∧ _))

/-- The state at the end of the `do_hard_int` for an event. -/
def interrupt (s : Kernel) (e : Event) : Option Kernel :=
  (s.saveContext e.regs).doHardInt e.number e.input

/-- One interrupt. -/
def step (s : Kernel) (e : Event) : Option Kernel :=
  if s.Enabled e then (s.interrupt e).map fun s => s.schedule e.number else none

/-! ## Boot -/

/-- The state in which `start` has created the processes `procs`, before it enqueues them.
The static variables of the kernel still have their initial values. -/
structure Created (procs : List Ptr) (s : Kernel) : Prop where
  nodup : procs.Nodup
  shares : Sched.Shares procs.toFinset s.sched.schedticks
  sched : s.sched = Sched.created s.sched.schedticks
  state : ∀ p ∈ procs, s.state p = 0
  interrupts : ∀ p ∈ procs, s.interrupts p = 0
  firstSender : ∀ p ∈ procs, s.firstSender p = null
  nextSender : ∀ p ∈ procs, s.nextSender p = null
  receivingFrom : ∀ p ∈ procs, s.receivingFrom p = null
  featureTable : ∀ idx < featureTableSize, s.featureTable idx = { supplier := null, waiter := null }
  irqs : ∀ number ≤ maxIrq, s.irqs number = null
  portAccessers : ∀ port, s.portAccessers port = null
  exchanges : s.exchanges = []
  freedGdt : s.freedGdt = []
  freedPids : s.freedPids = []
  portLog : s.portLog = []

/-- `start` has enqueued the processes it created, in order. -/
def Booted (procs : List Ptr) (s : Kernel) : Prop :=
  ∃ created, Created procs created ∧ procs.foldlM enqueue created = some s

/-- A run of the system: interrupts of all kinds, in any order. -/
abbrev Run : Kernel → List Event → Kernel → Prop := Machine.Run step Machine.always

/-- The state is reached from the boot state of the processes `procs`. -/
def Reachable (procs : List Ptr) (s : Kernel) : Prop :=
  ∃ boot es, Booted procs boot ∧ Run boot es s

end Kernel

end Mycrokernel
