import Mycrokernel.Kernel.State

/-!
# The system calls

The message passing of `utilities_C.c` and the other system calls.  A process
sends to a *feature*; its message goes to the process that supplies the feature,
and a sender that comes before the supplier waits in the entry of the feature
table.  The list of the senders blocked on a process (`firstSender`) and the list
of the processes waiting for a feature (`waiter`) are threaded through the same
field, `nextSender`.

Besides a loop that does not end, `none` stands for an access to an entry that the
feature table does not have.  The words behind the table, which the compiled code
reads and writes there, come in as a parameter in `Beyond`.
-/

namespace Mycrokernel

open Function (update)
open PointerList (walk)

namespace Kernel

variable [Layout]

/-! ## Lists of senders -/

/-- `get_sender`. -/
def getSender (s : Kernel) (desiredSender receiver : Ptr) : Option Ptr :=
  if s.firstSender receiver = null then some null
  else if desiredSender = anyproc then some (s.firstSender receiver)
  else
    (walk s.nextSender (fun cur => cur = null ∨ cur = desiredSender) walkFuel null
      (s.firstSender receiver)).map fun (_, cur) => if cur = null then null else desiredSender

/-- `receiving_from`. -/
def isReceivingFrom (s : Kernel) (receiver sender : Ptr) : Bool :=
  if s.state receiver &&& Flag.receiving = 0 then false
  else if s.receivingFrom receiver = anyproc then true
  else s.receivingFrom receiver = sender

/-- `remove_from_senders_list`. -/
def removeFromSendersList (s : Kernel) (sender receiver : Ptr) : Option Kernel :=
  (walk s.nextSender (fun cur => cur = sender) walkFuel null (s.firstSender receiver)).bind
    fun (previous, _) =>
      let s :=
        if previous = null then
          { s with firstSender := update s.firstSender receiver (s.nextSender sender) }
        else { s with nextSender := update s.nextSender previous (s.nextSender sender) }
      let s := { s with nextSender := update s.nextSender sender null }
      s.unsetStateFlag sender Flag.sending

/-- `mark_as_receiving_from`. -/
def markAsReceivingFrom (s : Kernel) (receiver sender : Ptr) : Option Kernel :=
  let s := { s with receivingFrom := update s.receivingFrom receiver sender }
  s.setStateFlag receiver Flag.receiving

/-- `clear_receiving_from`. -/
def clearReceivingFrom (s : Kernel) (receiver : Ptr) : Option Kernel :=
  let s := { s with receivingFrom := update s.receivingFrom receiver null }
  s.unsetStateFlag receiver Flag.receiving

/-- `add_to_senders_list`. -/
def addToSendersList (s : Kernel) (sender receiver : Ptr) : Option Kernel :=
  (walk s.nextSender (fun cur => cur = null) walkFuel null (s.firstSender receiver)).bind
    fun (previous, _) =>
      let s :=
        if previous ≠ null then { s with nextSender := update s.nextSender previous sender }
        else { s with firstSender := update s.firstSender receiver sender }
      let s := { s with nextSender := update s.nextSender sender null }
      s.setStateFlag sender Flag.sending

/-! ## Features -/

/-- The loop of `check_feature`, from a mask and the number of bits found below it. -/
def countFeatures (feature : Word) : Nat → Word → BitVec 8 → Option (BitVec 8)
  | 0, _, _ => none
  | n + 1, mask, found =>
    if 0 < mask then
      let found := if feature &&& mask ≠ 0 then found + 1 else found
      if 1 < found then some found else countFeatures feature n (mask <<< 1) found
    else some found

/-- `check_feature`. -/
def checkFeature (feature : Word) : Option Int :=
  (countFeatures feature 33 1 0).map fun found => if found = 1 then 0 else -1

/-- The loop that looks for the bit of a feature. -/
def findFeature (feature : Word) : Nat → Word → Nat → Option Nat
  | 0, _, _ => none
  | n + 1, mask, idx =>
    if mask &&& feature ≠ mask then findFeature feature n (mask <<< 1) (idx + 1) else some idx

/-- The entry of the feature table for a feature, if the table has it. -/
def featureEntry (feature : Word) : Option Nat :=
  (findFeature feature 33 1 0).bind fun idx =>
    if idx < featureTableSize then some idx else none

/-- `get_process_by_feature`. -/
def getProcessByFeature (s : Kernel) (feature : Word) : Option Ptr :=
  (featureEntry feature).map fun idx => (s.featureTable idx).supplier

/-- `add_waiting_for_feature`. -/
def addWaitingForFeature (s : Kernel) (process : Ptr) (feature : Word) : Option Kernel :=
  (featureEntry feature).bind fun idx =>
    (walk s.nextSender (fun cur => cur = null) walkFuel null (s.featureTable idx).waiter).map
      fun (previous, _) =>
        let s :=
          if previous = null then
            { s with featureTable :=
                update s.featureTable idx { s.featureTable idx with waiter := process } }
          else { s with nextSender := update s.nextSender previous process }
        { s with nextSender := update s.nextSender process null }

/-- `set_feature`, with the value it returns. -/
def setFeature (s : Kernel) (process : Ptr) (feature : Word) : Option (Kernel × Int) :=
  (featureEntry feature).map fun idx =>
    if (s.featureTable idx).supplier ≠ null then (s, 1)
    else
      ({ s with
          firstSender := update s.firstSender process (s.featureTable idx).waiter
          featureTable := update s.featureTable idx { supplier := process, waiter := null } }, 0)

/-! ## Exit -/

/-- `release_irqs_taken`. -/
def releaseIrqsTaken (s : Kernel) (process : Ptr) : Kernel :=
  (List.range maxIrq).foldl
    (fun s i => if s.irqs i = process then { s with irqs := update s.irqs i null } else s) s

/-- `unblock_waiting_senders`. -/
def unblockWaitingSenders (process : Ptr) : Nat → Kernel → Option Kernel
  | 0, _ => none
  | n + 1, s =>
    if s.firstSender process ≠ null then
      let cur := s.firstSender process
      let s := s.setErr cur Err.processDied
      (s.unsetStateFlag cur Flag.sending).bind fun s =>
        let s := { s with firstSender := update s.firstSender process (s.nextSender cur) }
        let s := { s with nextSender := update s.nextSender cur null }
        unblockWaitingSenders process n s
    else some s

/-- Free the GDT entry a segment register selects, unless the register is zero. -/
def freeSegment (s : Kernel) (selector : BitVec 16) : Kernel :=
  if selector ≠ 0 then s.freeGdtIdx (selector.setWidth 32 &&& 0xfffc) else s

/-- `syscall_exit`. -/
def syscallExit (s : Kernel) : Option Kernel :=
  let curptr := s.sched.curptr
  let s := { s with state := update s.state curptr Flag.empty }
  let s := s.freeSegment (s.regs curptr).csReg
  let s := s.freeSegment (s.regs curptr).dsReg
  let s := s.freeSegment (s.regs curptr).esReg
  let s := s.freeSegment (s.regs curptr).fsReg
  let s := s.freeSegment (s.regs curptr).gsReg
  let s := s.freeSegment (s.regs curptr).ssReg
  let s := s.freePid ((s.pid curptr).setWidth 32)
  let s := s.releaseIrqsTaken curptr
  (unblockWaitingSenders curptr walkFuel s).bind fun s => s.dequeue curptr

/-! ## Messages -/

/-- `syscall_send`, to the receiver in `ebx_reg`. -/
def syscallSend (s : Kernel) : Option Kernel :=
  let curptr := s.sched.curptr
  let receiver := (s.regs curptr).ebxReg
  if s.validateDataArea curptr (s.regs curptr).edxReg (s.regs curptr).ecxReg ≠ 0 then
    some (s.setErr curptr Err.invalidBuffer)
  else if s.isReceivingFrom receiver curptr then
    let bytes := s.exchangeBytes curptr receiver
    let s := s.exchangeData curptr receiver
    let s := (s.setEax curptr bytes).setEax receiver bytes
    (s.clearReceivingFrom receiver).map fun s =>
      (s.setErr curptr Err.ok).setErr receiver Err.ok
  else s.addToSendersList curptr receiver

/-- `syscall_send_by_feature`. -/
def syscallSendByFeature (s : Kernel) : Option Kernel :=
  let curptr := s.sched.curptr
  let feature := (s.regs curptr).ebxReg
  (checkFeature feature).bind fun checked =>
    if checked ≠ 0 then some (s.setErr curptr Err.invalidFeature)
    else
      (s.getProcessByFeature feature).bind fun receiver =>
        if receiver = curptr then some (s.setErr curptr Err.circularSend)
        else if receiver ≠ null then
          (s.setRegs curptr fun r => { r with ebxReg := receiver }).syscallSend
        else if (s.regs curptr).ediReg = 1 then
          (s.addWaitingForFeature curptr feature).bind fun s => s.dequeue curptr
        else some (s.setErr curptr Err.wouldBlock)

/-- `syscall_receive`, from the sender in `ebx_reg`. -/
def syscallReceive (s : Kernel) : Option Kernel :=
  let curptr := s.sched.curptr
  let desiredSender := (s.regs curptr).ebxReg
  if s.validateDataArea curptr (s.regs curptr).edxReg (s.regs curptr).ecxReg ≠ 0 then
    some (s.setErr curptr Err.invalidBuffer)
  else if s.interrupts curptr ≠ 0 then
    let s := s.setErr curptr ((s.interrupts curptr).setWidth 32)
    let s := { s with interrupts := update s.interrupts curptr 0 }
    some (s.setEax curptr 0)
  else
    (s.getSender desiredSender curptr).bind fun sender =>
      if sender ≠ null then
        let bytes := s.exchangeBytes sender curptr
        let s := s.exchangeData sender curptr
        let s := (s.setEax curptr bytes).setEax sender bytes
        (s.removeFromSendersList sender curptr).map fun s =>
          (s.setErr sender Err.ok).setErr curptr Err.ok
      else s.markAsReceivingFrom curptr desiredSender

/-- `syscall_set_feature`. -/
def syscallSetFeature (s : Kernel) : Option Kernel :=
  let curptr := s.sched.curptr
  let feature := (s.regs curptr).ebxReg
  (checkFeature feature).bind fun checked =>
    if checked ≠ 0 then some (s.setErr curptr Err.invalidFeature)
    else
      (s.setFeature curptr feature).map fun (s, result) =>
        if result ≠ 0 then s.setErr curptr Err.featureBusy else s.setErr curptr Err.ok

/-! ## Ports, interrupts and addresses -/

/-- `has_port_access(process, port)`. -/
def hasPortAccess (s : Kernel) (process : Ptr) (port : Word) : Bool :=
  s.portAccessers port = process

/-- `syscall_inb`, when the device answers `input`. -/
def syscallInb (s : Kernel) (input : Word) : Kernel :=
  let curptr := s.sched.curptr
  let port := (s.regs curptr).ebxReg &&& 0xffff
  if !s.hasPortAccess curptr port then s.setErr curptr Err.noPerms
  else
    let s := { s with portLog := .inb curptr port :: s.portLog }
    (s.setEax curptr (input &&& 0xff)).setErr curptr Err.ok

/-- `syscall_inw`, when the device answers `input`. -/
def syscallInw (s : Kernel) (input : Word) : Kernel :=
  let curptr := s.sched.curptr
  let port := (s.regs curptr).ebxReg &&& 0xffff
  if !s.hasPortAccess curptr port then s.setErr curptr Err.noPerms
  else
    let s := { s with portLog := .inw curptr port :: s.portLog }
    (s.setEax curptr (input &&& 0xffff)).setErr curptr Err.ok

/-- `syscall_outb`. -/
def syscallOutb (s : Kernel) : Kernel :=
  let curptr := s.sched.curptr
  let port := (s.regs curptr).ebxReg &&& 0xffff
  let value := (s.regs curptr).ecxReg &&& 0xff
  if !s.hasPortAccess curptr port then s.setErr curptr Err.noPerms
  else
    let s := { s with portLog := .outb curptr port value :: s.portLog }
    s.setErr curptr Err.ok

/-- `syscall_outw`. -/
def syscallOutw (s : Kernel) : Kernel :=
  let curptr := s.sched.curptr
  let port := (s.regs curptr).ebxReg &&& 0xffff
  let value := (s.regs curptr).ecxReg &&& 0xffff
  if !s.hasPortAccess curptr port then s.setErr curptr Err.noPerms
  else
    let s := { s with portLog := .outw curptr port value :: s.portLog }
    s.setErr curptr Err.ok

/-- `vir2phys`. -/
def vir2phys (s : Kernel) (process : Ptr) (virtual : Word) : Word :=
  s.getBase (s.dataIndex process) + virtual

/-- `syscall_vir2phys`, which reports errors but not success. -/
def syscallVir2phys (s : Kernel) : Kernel :=
  let curptr := s.sched.curptr
  if s.validateDataArea curptr (s.regs curptr).ebxReg 0 ≠ 0 then
    s.setErr curptr Err.invalidAddress
  else s.setEax curptr (s.vir2phys curptr (s.regs curptr).ebxReg)

/-- `syscall_claim_port`, which reports errors but not success. -/
def syscallClaimPort (s : Kernel) : Kernel :=
  let curptr := s.sched.curptr
  let port := (s.regs curptr).ebxReg &&& 0xffff
  if s.portAccessers port ≠ null ∧ s.portAccessers port ≠ curptr then
    s.setErr curptr Err.unavailable
  else { s with portAccessers := update s.portAccessers port curptr }

/-- `syscall_request_irq`. -/
def syscallRequestIrq (s : Kernel) : Kernel :=
  let curptr := s.sched.curptr
  let irq := (s.regs curptr).ebxReg.toNat
  if irq = 0 ∨ irq = 2 ∨ maxIrq < irq then s.setErr curptr Err.invalidIrq
  else if s.irqs irq ≠ null ∧ s.irqs irq ≠ curptr then s.setErr curptr Err.irqInUse
  else
    let s := { s with irqs := update s.irqs irq curptr }
    s.setErr curptr Err.ok

end Kernel

end Mycrokernel
