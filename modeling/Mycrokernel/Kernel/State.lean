import Mycrokernel.Kernel.Scheduler

/-!
# The kernel state

`Kernel` holds the scheduler variables, the other fields of the `tss_t` records
that the kernel works on, its tables, and the memory it copies between and marks
bits in.  Like `Sched`, it keeps one map for each field.  The registers of a
process form one record, `Regs`, since the processor saves them together when it
switches to an interrupt task.

Typed objects have maps of their own: the process records, the tables and the
descriptors of the GDT.  `mem` is the memory the processes' segments lie in, by
linear address, and `kmem` the bytes of the kernel's data segment that the
bitmaps of `utilities_HLA.hla` are made of.

The history variables record calls that leave the kernel: the messages copied,
the indices and pids used and freed, the ports accessed.  No function reads them.
-/

namespace Mycrokernel

open Function (update)

/-- The registers of a `tss_t`, which the processor saves and loads at a task switch. -/
structure Regs where
  eipReg : Word := 0
  eflagReg : Word := 0
  eaxReg : Word := 0
  ecxReg : Word := 0
  edxReg : Word := 0
  ebxReg : Word := 0
  espReg : Word := 0
  ebpReg : Word := 0
  esiReg : Word := 0
  ediReg : Word := 0
  esReg : BitVec 16 := 0
  csReg : BitVec 16 := 0
  ssReg : BitVec 16 := 0
  dsReg : BitVec 16 := 0
  fsReg : BitVec 16 := 0
  gsReg : BitVec 16 := 0
deriving DecidableEq

/-- `segdesc_t`, with the fields as `types.hhf` names them. -/
structure SegDesc where
  limit : BitVec 16 := 0
  base1 : BitVec 16 := 0
  base2 : BitVec 8 := 0
  props1 : BitVec 8 := 0
  props2 : BitVec 8 := 0
  base3 : BitVec 8 := 0
deriving DecidableEq

/-- `feature_t`. -/
structure Feature where
  supplier : Ptr
  /-- The first process that waits for a supplier. -/
  waiter : Ptr
deriving DecidableEq

/-- A call of `exchange_data`. -/
structure Exchange where
  sender : Ptr
  receiver : Ptr
  /-- The number of bytes it copied. -/
  bytes : Word
deriving DecidableEq

/-- An access to a port on behalf of a process. -/
inductive PortAccess where
  | inb (process : Ptr) (port : Word)
  | inw (process : Ptr) (port : Word)
  | outb (process : Ptr) (port value : Word)
  | outw (process : Ptr) (port value : Word)
deriving DecidableEq

/-- The number of characters of `procname`. -/
def procnameSize : Nat := 18

/-- The state of the kernel. -/
structure Kernel where
  sched : Sched
  /-- The saved registers of the processes. -/
  regs : Ptr → Regs
  state : Ptr → BitVec 8
  /-- The interrupts that are pending for a process. -/
  interrupts : Ptr → BitVec 16
  pid : Ptr → BitVec 16
  idxTss : Ptr → BitVec 16
  callMask : Ptr → Word
  iomapBase : Ptr → BitVec 16
  procname : Ptr → Fin procnameSize → BitVec 8
  firstSender : Ptr → Ptr
  nextSender : Ptr → Ptr
  receivingFrom : Ptr → Ptr
  /-- `featureTable`, of which the first `featureTableSize` entries exist. -/
  featureTable : Nat → Feature
  /-- `irqs`, up to `maxIrq`. -/
  irqs : Nat → Ptr
  portAccessers : Word → Ptr
  /-- The descriptors of the GDT, by their offset in it. -/
  gdt : Word → SegDesc
  /-- `gdt.limit`. -/
  gdtLimit : BitVec 16
  /-- The field `backlink` of the task of each interrupt: what its `iret` returns to. -/
  backlink : Nat → BitVec 16
  mem : Word → BitVec 8
  kmem : Word → BitVec 8
  hours : Word
  minutes : BitVec 8
  seconds : BitVec 8
  /-- History: the calls of `exchange_data`, the latest first. -/
  exchanges : List Exchange
  /-- History: the arguments of `_unfree_gdt_idx`, the latest first. -/
  usedGdt : List Word
  /-- History: the arguments of `_unfree_pid`, the latest first. -/
  usedPids : List Word
  /-- History: the arguments of `free_gdt_idx`, the latest first. -/
  freedGdt : List Word
  /-- History: the arguments of `free_pid`, the latest first. -/
  freedPids : List Word
  /-- History: the accesses to ports, the latest first. -/
  portLog : List PortAccess

namespace Kernel

variable [Layout]

/-! ## Registers and flags -/

/-- An assignment to registers of `p`. -/
def setRegs (s : Kernel) (p : Ptr) (f : Regs → Regs) : Kernel :=
  { s with regs := update s.regs p (f (s.regs p)) }

/-- `set_err(proc, err)`. -/
def setErr (s : Kernel) (p : Ptr) (err : Word) : Kernel :=
  s.setRegs p fun r => { r with esiReg := err }

/-- An assignment to `p->eax_reg`. -/
def setEax (s : Kernel) (p : Ptr) (value : Word) : Kernel :=
  s.setRegs p fun r => { r with eaxReg := value }

def enqueue (s : Kernel) (process : Ptr) : Option Kernel :=
  (s.sched.enqueue process).map fun sched => { s with sched }

def dequeue (s : Kernel) (process : Ptr) : Option Kernel :=
  (s.sched.dequeue process).map fun sched => { s with sched }

/-- `unsetStateFlag(p,f)`. -/
def unsetStateFlag (s : Kernel) (p : Ptr) (f : BitVec 8) : Option Kernel :=
  let s := { s with state := update s.state p (s.state p &&& ~~~f) }
  if s.state p = 0 then s.enqueue p else some s

omit [Layout] in
/-- Clearing a flag changes the process's flags and the queue. -/
theorem unsetStateFlag_eq {s k : Kernel} {p : Ptr} {f : BitVec 8}
    (h : s.unsetStateFlag p f = some k) :
    k = { s with sched := k.sched, state := update s.state p (s.state p &&& ~~~f) } := by
  unfold unsetStateFlag at h
  dsimp only at h
  split at h
  next =>
    obtain ⟨sched, -, rfl⟩ := Option.map_eq_some_iff.mp h
    rfl
  next =>
    obtain rfl := Option.some.inj h
    rfl

/-- `setStateFlag(p,f)`. -/
def setStateFlag (s : Kernel) (p : Ptr) (f : BitVec 8) : Option Kernel :=
  let s := { s with state := update s.state p (s.state p ||| f) }
  s.dequeue p

/-! ## Segments -/

/-- `_get_limit`. -/
def getLimit (s : Kernel) (gdtIndex : Word) : Word :=
  let eax := (s.gdt gdtIndex).limit.setWidth 32
  let ebx := (s.gdt gdtIndex).props2.setWidth 32 <<< 16
  let eax := eax ||| ebx
  if ebx &&& 0x800000 = 0 then eax &&& 0xfffff
  else (eax &&& 0xfffff) <<< 12

/-- `_get_base`. -/
def getBase (s : Kernel) (gdtIndex : Word) : Word :=
  let eax := (s.gdt gdtIndex).base3.setWidth 32 <<< 24
  let eax := eax ||| ((s.gdt gdtIndex).base2.setWidth 32 <<< 16)
  eax ||| (s.gdt gdtIndex).base1.setWidth 32

/-- The offset in the GDT of the descriptor of the data segment of `process`. -/
def dataIndex (s : Kernel) (process : Ptr) : Word :=
  (s.regs process).dsReg.setWidth 32 &&& 0xfff8

/-- `validate_data_area`. -/
def validateDataArea (s : Kernel) (process : Ptr) (mem size : Word) : Word :=
  if s.getLimit (s.dataIndex process) < mem + size then -1 else 0

/-- The base `_exchange_data` assembles from the descriptor of the data segment. -/
def dataBase (s : Kernel) (process : Ptr) : Word :=
  let d := s.gdt (s.dataIndex process)
  let base := d.base2.setWidth 32 ||| (d.base3.setWidth 32 <<< 8)
  (base <<< 16) ||| d.base1.setWidth 32

/-- `mov` of `width` bytes from one address to another: all are read, then written. -/
def moveBytes (mem : Word → BitVec 8) (src dst : Word) (width : Nat) : Word → BitVec 8 :=
  fun a => if (a - dst).toNat < width then mem (src + (a - dst)) else mem a

/-- The loop of `_exchange_data` over double words. -/
def moveDwords : Nat → (Word → BitVec 8) → Word → Word → (Word → BitVec 8) × Word × Word
  | 0, mem, src, dst => (mem, src, dst)
  | n + 1, mem, src, dst => moveDwords n (moveBytes mem src dst 4) (src + 4) (dst + 4)

/-- The copying part of `_exchange_data`: double words, then a word, then a byte. -/
def copy (mem : Word → BitVec 8) (src dst bytes : Word) : Word → BitVec 8 :=
  let (mem, src, dst) := moveDwords (bytes.toNat / 4) mem src dst
  let rest := bytes.toNat % 4
  let (mem, src, dst, rest) :=
    if 1 < rest then (moveBytes mem src dst 2, src + 2, dst + 2, rest - 2)
    else (mem, src, dst, rest)
  if 0 < rest then moveBytes mem src dst 1 else mem

/-- The number of bytes `_exchange_data` copies: the smaller `ecx_reg`. -/
def exchangeBytes (s : Kernel) (sender receiver : Ptr) : Word :=
  if (s.regs receiver).ecxReg < (s.regs sender).ecxReg then (s.regs receiver).ecxReg
  else (s.regs sender).ecxReg

/-- `exchange_data`, which also returns `exchangeBytes`. -/
def exchangeData (s : Kernel) (sender receiver : Ptr) : Kernel :=
  let bytes := s.exchangeBytes sender receiver
  let dst := s.dataBase receiver + (s.regs receiver).edxReg
  let src := s.dataBase sender + (s.regs sender).edxReg
  let s := (s.setEax sender bytes).setEax receiver bytes
  { s with
    mem := copy s.mem src dst bytes
    exchanges := { sender, receiver, bytes } :: s.exchanges }

/-! ## Bitmaps -/

/-- `freeBitInBitfield`: the byte it writes to is the one at the quotient itself. -/
def freeBitInBitfield (kmem : Word → BitVec 8) (_bitfield what : Word) : Word → BitVec 8 :=
  let eax := what / 8
  let cl := what % 8
  update kmem eax (kmem eax &&& (0b11111110#8).rotateLeft cl.toNat)

/-- `free_gdt_idx`. -/
def freeGdtIdx (s : Kernel) (what : Word) : Kernel :=
  { s with
    kmem := freeBitInBitfield s.kmem Layout.gdtBitmap (what / 8)
    freedGdt := what :: s.freedGdt }

/-- `free_pid`. -/
def freePid (s : Kernel) (pid : Word) : Kernel :=
  { s with
    kmem := freeBitInBitfield s.kmem Layout.pidBitmap pid
    freedPids := pid :: s.freedPids }

end Kernel

end Mycrokernel
