import Mycrokernel.Hd.Driver

/-!
# The start of the disk driver

`claim_ports` and `identify` of `hd/main.c`, which the driver calls before it reads from the
devices.  `identify` asks a device what it is, and waits while it is busy.
-/

namespace Mycrokernel

open Function (update)

def portError : Word := 0x1

def commandIdentify : Word := 0xec

def bitBusy : Word := 0x80

/-- `PORTBASE_PRIMARY`. -/
def portbasePrimary : Word := 0x1f0

/-- `PORTBASE_SECONDARY`. -/
def portbaseSecondary : Word := 0x170

/-- The ports of a controller that `claim_ports` claims, in its order. -/
def controllerPorts (base : Word) : List Word :=
  [base ||| portData, base ||| portSectorcount, base ||| portLbaLow, base ||| portLbaMid,
    base ||| portLbaHigh, base ||| portDriveselect, base ||| portCommand, base ||| portError,
    base ||| portAlternateStatus]

/-- The ports that `claim_ports` claims. -/
def claimedPorts : List Word := controllerPorts portbasePrimary ++ controllerPorts portbaseSecondary

namespace Hd

/-- `call_syscall_claim_port`, without its result, which is not used. -/
def callSyscallClaimPort (port : Word) : Hd Unit := call (.claimPort port) fun _ => ()

/-- `call_syscall_request_irq`. -/
def callSyscallRequestIrq (irq : Word) : Hd Unit := call (.requestIrq irq) fun _ => ()

/-- `claim_ports`. -/
def claimPorts : Hd Unit :=
  finish (claimedPorts.forM fun port => terror (callSyscallClaimPort port))

/-- Assign to the record of a channel. -/
def modifyChannel (channel : Ptr) (f : Channel → Channel) : Hd Unit :=
  modify fun d => { d with channels := update d.channels channel (f (d.channels channel)) }

/-- The loop in which `do_ATA` fills its buffer, `n` words from the end. -/
def readBuffer (c : Channel) : Nat → Hd (List (BitVec 16))
  | 0 => pure []
  | n + 1 => do
    let value ← terror (callSyscallInw (c.portBase ||| portData))
    let buffer ← readBuffer c n
    return value.setWidth 16 :: buffer

/-- `do_ATA`.  `frames` is what the calls of `outf` find on the stack. -/
def doAta (frames : Nat → Stack) (c : Channel) (channel : Ptr) : Hd Unit := finish do
  let buffer ← readBuffer c 256
  let word (i : Nat) : Word := (buffer.getD i 0).setWidth 32
  let lbaSectors := word 61 <<< 16 ||| word 60
  modifyChannel channel fun c => { c with
    bytesPerSector := buffer.getD 5 0
    lbaSectors
    nrHeads := buffer.getD 3 0
    nrSectorsPerTrack := buffer.getD 6 0 }
  outf ((frames 0).push (word 0)) (stringLiteral "Number of physical cylinders: %u")
  outf ((frames 1).push (word 3)) (stringLiteral "Number of heads: %u")
  outf ((frames 2).push (word 54)) (stringLiteral "Number of logical cylinders: %u")
  outf ((frames 3).push (word 55)) (stringLiteral "Number of logical heads: %u")
  outf ((frames 4).push (word 56)) (stringLiteral "Number of logical sectors per track: %u")
  let dword := word 58 <<< 16 ||| word 57
  outf ((frames 5).push dword) (stringLiteral "Bytes per logical sector: %u")
  outf ((frames 6).push lbaSectors) (stringLiteral "Number of sectors in LBA mode: %u")
  outf (frames 7) (stringLiteral "")

/-- `do_SATA`. -/
def doSata (frames : Nat → Stack) : Hd Unit := outf (frames 0) (stringLiteral "do_SATA()")

/-- `do_ATAPI`. -/
def doAtapi (frames : Nat → Stack) : Hd Unit := outf (frames 0) (stringLiteral "do_ATAPI()")

/-- The loop in which `identify` waits for the device, with the last status in `value`.  It
gives the controller that it suspects, and the last status. -/
def identifyLoop (c : Channel) : Nat → Word → Bool → Hd (Controller × Word)
  | 0, _, _ => spent
  | n + 1, value, jump =>
    if value &&& bitBusy = 0 then pure (.ata, value)
    else if jump then do
      let value ← terror (callSyscallInb (c.portBase ||| portAlternateStatus))
      identifyLoop c n value jump
    else do
      -- the two ports are read without the base
      let mid ← terror (callSyscallInb portLbaMid)
      let high ← terror (callSyscallInb portLbaHigh)
      if mid = 0 ∧ high = 0 then do
        let value ← terror (callSyscallInb (c.portBase ||| portAlternateStatus))
        identifyLoop c n value true
      else if mid = 0x14 ∧ high = 0xeb then pure (.atapi, value)
      else if mid = 0x3c ∧ high = 0xc3 then pure (.sata, value)
      else pure (.unknown, value)

/-- What `identify` does when the device has answered. -/
def identified (frames : Nat → Stack) (c : Channel) (channel : Ptr) (suspect : Controller)
    (value : Word) : Hd Unit := do
  if suspect = .ata ∧ value &&& bitDrq ≠ 0 then
    outf (frames 8) (stringLiteral "Detected ATA drive on port %x channel %x:")
    outf (frames 9) (stringLiteral "")
    terror (doAta frames c channel)
    modifyChannel channel fun c => { c with controller := .ata }
  else if suspect = .atapi then
    terror (doAtapi frames)
    modifyChannel channel fun c => { c with controller := .atapi }
  else if suspect = .sata then
    terror (doSata frames)
    modifyChannel channel fun c => { c with controller := .sata }

/-- `identify`, for the channel at the address of `channels[port][ch]`. -/
def identify (frames : Nat → Stack) (fuel : Nat) (channel : Ptr) : Hd Unit := do
  finish do
    terror (selectDrive channel)
    let c := (← get).channels channel
    terror (callSyscallOutb (c.portBase ||| portSectorcount) 0)
    terror (callSyscallOutb (c.portBase ||| portLbaLow) 0)
    terror (callSyscallOutb (c.portBase ||| portLbaMid) 0)
    terror (callSyscallOutb (c.portBase ||| portLbaHigh) 0)
    terror (callSyscallOutb (c.portBase ||| portCommand) commandIdentify)
    let value ← terror (callSyscallInb (c.portBase ||| portAlternateStatus))
    if value = 0 then modifyChannel channel fun c => { c with controller := .none }
    else
      let (suspect, value) ← identifyLoop c fuel value false
      identified frames c channel suspect value
  let c := (← get).channels channel
  if c.controller ≠ .none ∧ c.controller ≠ .unknown then
    -- `hasFailed(error)` is asked of the pointer, which is never negative
    callSyscallRequestIrq (if c.isPrimary then 14 else 15)

end Hd

end Mycrokernel
