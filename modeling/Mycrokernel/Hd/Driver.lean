import Mycrokernel.Usr.Outf

/-!
# The disk driver

The functions of `hd/main.c` that read and write a sector, as programs that make system
calls.  `Driver` holds what they work on: the variable `error` points to, the channels
and the driver's memory.

A statement in `terror` jumps to the label `finish` if the error is negative after it.
`Hd` is the type of statements: they make system calls, change the driver's variables,
and end with a value or at the label (`none`).  `finish` is the label.  The loops that
wait for the device run on fuel.
-/

namespace Mycrokernel

open Function (update)

/-- `controller_t`. -/
inductive Controller where
  | none | unknown | ata | atapi | sata
deriving DecidableEq, Inhabited

/-- `MAX_NR_BLOCK_GROUPS`. -/
def maxNrBlockGroups : Nat := 5

/-- `block_group_t`, less the addresses of the bitmaps, which nothing reads. -/
structure BlockGroup where
  blockAddressInodeTable : Word
deriving DecidableEq, Inhabited

/-- `partition_t`. -/
structure Partition where
  used : Bool := false
  bootable : Byte := 0
  firstSector : Word
  lastSector : Word := 0
  type : Word := 0
  majorVersion : Word := 0
  minorVersion : Word := 0
  nrBlockGroups : Word
  blockSize : Word
  nrInodes : Word
  nrBlocks : Word
  nrBlocksPerGroup : Word
  nrInodesPerGroup : Word
  inodeSize : Word
  blockGroups : Vector BlockGroup maxNrBlockGroups
deriving DecidableEq, Inhabited

/-- `channel_t`. -/
structure Channel where
  controller : Controller
  lbaSectors : Word
  bytesPerSector : BitVec 16 := 0
  busInfo : BitVec 16
  nrHeads : BitVec 16 := 0
  nrSectorsPerTrack : BitVec 16 := 0
  partitions : Vector Partition 4 := default
deriving DecidableEq, Inhabited

/-- The variables of the driver. -/
structure Driver where
  /-- `*error`. -/
  error : Word
  channelSelected : Ptr
  /-- The channels, by their addresses. -/
  channels : Ptr → Channel
  mem : Word → BitVec 8
deriving Inhabited

/-! ## Ports and bits -/

def portData : Word := 0x0
def portSectorcount : Word := 0x2
def portLbaLow : Word := 0x3
def portLbaMid : Word := 0x4
def portLbaHigh : Word := 0x5
def portDriveselect : Word := 0x6
def portCommand : Word := 0x7
def portAlternateStatus : Word := 0x206

def commandReadsectors : Word := 0x20
def commandWritesectors : Word := 0x30

def bitDrq : Word := 0x8

def businfoMaster : BitVec 16 := 1
def businfoPrimary : BitVec 16 := businfoMaster <<< 1

namespace Channel

/-- `is_master`. -/
def isMaster (c : Channel) : Bool := c.busInfo &&& businfoMaster != 0

/-- `is_primary`. -/
def isPrimary (c : Channel) : Bool := c.busInfo &&& businfoPrimary != 0

/-- `get_port_base`. -/
def portBase (c : Channel) : Word := if c.isPrimary then 0x1f0 else 0x170

/-- `irq_expected`. -/
def irqExpected (c : Channel) : Word := if c.isPrimary then 14 else 15

end Channel

/-- The memory after a `uint32_t` is stored. -/
def storeWord (mem : Word → BitVec 8) (address value : Word) : Word → BitVec 8 :=
  update (update (update (update mem address (value.setWidth 8)) (address + 1)
    ((value >>> 8).setWidth 8)) (address + 2) ((value >>> 16).setWidth 8)) (address + 3)
    ((value >>> 24).setWidth 8)

/-! ## Statements -/

/-- The statements of the driver. -/
def Hd (α : Type) : Type := Driver → Dialogue Syscall Reply (Option α × Driver)

namespace Hd

variable {α β : Type}

/-- Go on from where a statement ends, unless that is the label. -/
def goOn (f : α → Hd β) : Option α × Driver → Dialogue Syscall Reply (Option β × Driver)
  | (some a, d) => f a d
  | (none, d) => .done (none, d)

instance : Monad Hd where
  pure a := fun d => .done (some a, d)
  bind m f := fun d => (m d).bind (goOn f)

/-- Read the variables. -/
def get : Hd Driver := fun d => .done (some d, d)

/-- Assign to variables. -/
def modify (f : Driver → Driver) : Hd Unit := fun d => .done (some (), f d)

/-- The end of the fuel. -/
def spent : Hd α := fun _ => .stuck

/-- A system call, which sets the error. -/
def call (request : Syscall) (result : Reply → α) : Hd α := fun d =>
  .ask request fun reply => .done (some (result reply), { d with error := reply.error })

/-- `call_syscall_receive`. -/
def callSyscallReceive (sender buffer length : Word) : Hd Word :=
  call (.receive sender buffer length) Reply.value

/-- `call_syscall_inb`. -/
def callSyscallInb (port : Word) : Hd Word := call (.inb port) Reply.value

/-- `call_syscall_inw`. -/
def callSyscallInw (port : Word) : Hd Word := call (.inw port) Reply.value

/-- `call_syscall_outb`. -/
def callSyscallOutb (port value : Word) : Hd Unit := call (.outb port value) fun _ => ()

/-- `call_syscall_outw`. -/
def callSyscallOutw (port value : Word) : Hd Unit := call (.outw port value) fun _ => ()

/-- `terror`. -/
def terror (m : Hd α) : Hd α := fun d =>
  (m d).bind fun (a, d) => .done (if hasFailed d.error then none else a, d)

/-- A system call in `terror`, and what comes after it. -/
theorem terror_call_bind {request : Syscall} {result : Reply → α} {f : α → Hd β}
    {d : Driver} :
    (terror (call request result) >>= f) d = .ask request fun reply =>
      if hasFailed reply.error then .done (none, { d with error := reply.error })
      else f (result reply) { d with error := reply.error } := by
  refine congrArg (Dialogue.ask request) (funext fun reply => ?_)
  change Dialogue.bind (.done (if hasFailed reply.error then none else some (result reply), _))
    (goOn f) = _
  split
  next => rfl
  next => rfl

/-- The body of a function with the label `finish` at its end. -/
def finish (m : Hd Unit) : Hd Unit := fun d => (m d).bind fun (_, d) => .done (some (), d)

/-- `err_set`. -/
def errSet (error : Word) : Hd Unit := modify fun d => { d with error }

/-- `b[i]`, for an array of `uint16_t`. -/
def load16 (b : Word) (i : Nat) : Hd (BitVec 16) := do
  let d ← get
  let address := b + BitVec.ofNat 32 (2 * i)
  return d.mem (address + 1) ++ d.mem address

/-- `b[i] = value`, for an array of `uint16_t`. -/
def store16 (b : Word) (i : Nat) (value : BitVec 16) : Hd Unit :=
  let address := b + BitVec.ofNat 32 (2 * i)
  modify fun d => { d with
    mem := update (update d.mem address (value.setWidth 8)) (address + 1)
      ((value >>> 8).setWidth 8) }

/-- `outf(NULL, TRUE, ..)`.  The error of the sends goes to the address 0. -/
def outf (stack : Stack) (fmt : List Byte) : Hd Unit := fun d =>
  (Mycrokernel.outf stack 1 fmt).bind fun o =>
    .done (some (), { d with mem := storeWord d.mem null o.error })

/-! ## Sectors -/

/-- `do_select_drive`. -/
def doSelectDrive (channel : Ptr) : Hd Unit := finish do
  let c := (← get).channels channel
  let value : Word := if c.isMaster then 0xa0 else 0xb0
  terror (callSyscallOutb (c.portBase ||| portDriveselect) value)
  modify fun d => { d with channelSelected := channel }

/-- `select_drive`. -/
def selectDrive (channel : Ptr) : Hd Unit := do
  if (← get).channelSelected ≠ channel then doSelectDrive channel

/-- `check_ata`. -/
def checkAta (channel : Ptr) : Hd Unit := do
  if ((← get).channels channel).controller ≠ .ata then terror (errSet Err.notAta)

/-- `check_lba_supported`. -/
def checkLbaSupported (_channel : Ptr) : Hd Unit := pure ()

/-- The check of the number of a sector against the size of the device. -/
def checkNumber (c : Channel) (number : Word) : Hd Unit := do
  if c.lbaSectors ≤ number then terror (errSet Err.beyondEndOfDevice)

/-- The loop in which `read_sector` and `write_sector` wait for the data request bit. -/
def waitForData (c : Channel) : Nat → Word → Hd Unit
  | 0, _ => spent
  | n + 1, status =>
    if status &&& bitDrq ≠ 0 then pure ()
    else do
      let _bytes ← terror (callSyscallReceive anyproc null 0)
      if (← get).error ≠ c.irqExpected then waitForData c n status
      else
        let status ← terror (callSyscallInb (c.portBase ||| portAlternateStatus))
        waitForData c n status

/-- What `read_sector` and `write_sector` have in common, which is all but the command and
the transfer of a word. -/
def transferSector (command : Word) (transfer : Channel → Nat → Hd Unit) (fuel : Nat)
    (number : Word) (channel : Ptr) : Hd Unit := finish do
  terror (checkAta channel)
  terror (checkLbaSupported channel)
  let c := (← get).channels channel
  checkNumber c number
  terror (selectDrive channel)
  let value : Word := if c.isMaster then 0xe0 else 0xf0
  terror (callSyscallOutb (c.portBase ||| portDriveselect) (value ||| (number >>> 24)))
  terror (callSyscallOutb (c.portBase ||| portSectorcount) 1)
  terror (callSyscallOutb (c.portBase ||| portLbaLow) (number &&& 0xff))
  terror (callSyscallOutb (c.portBase ||| portLbaMid) ((number >>> 8) &&& 0xff))
  terror (callSyscallOutb (c.portBase ||| portLbaHigh) ((number >>> 16) &&& 0xff))
  terror (callSyscallOutb (c.portBase ||| portCommand) command)
  let status ← terror (callSyscallInb (c.portBase ||| portAlternateStatus))
  waitForData c fuel status
  (List.range 256).forM (transfer c)

/-- `write_sector`. -/
def writeSector (fuel : Nat) (number : Word) (channel : Ptr) (buffer : Word) : Hd Unit :=
  transferSector commandWritesectors (fun c i => do
    let value ← load16 buffer i
    terror (callSyscallOutw c.portBase (value.setWidth 32))) fuel number channel

/-- `read_sector`. -/
def readSector (fuel : Nat) (number : Word) (channel : Ptr) (buffer : Word) : Hd Unit :=
  transferSector commandReadsectors (fun c i => terror do
    let value ← callSyscallInw (c.portBase ||| portData)
    store16 buffer i (value.setWidth 16)) fuel number channel

end Hd

end Mycrokernel
