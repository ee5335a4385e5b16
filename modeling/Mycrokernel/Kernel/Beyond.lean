import Mycrokernel.Kernel.Boot
import Mycrokernel.Kernel.Feature

/-!
# Features beyond the table

`check_feature` accepts every word with one bit, and the table has entries for the lowest four bits.
For the other features the functions work on the words behind the table: a process that sets such a
feature writes them, and takes what it finds there for the processes that wait for it.

`step` has no result there.  `Beyond.step` has: what the words are is a parameter, and `declared` are
those that follow if the arrays lie in the memory as `utilities_C.c` declares them.  Without such a
feature the two are the same (`Beyond.step_eq`, `Beyond.run`).
-/

namespace Mycrokernel

open Function (update update_self update_idem)
open PointerList (walk)

/-- The words behind `featureTable`: the two of an entry, and the states with other ones. -/
structure Beyond where
  supplier : Kernel → Nat → Ptr
  waiter : Kernel → Nat → Ptr
  setSupplier : Kernel → Nat → Ptr → Kernel
  setWaiter : Kernel → Nat → Ptr → Kernel

namespace Beyond

open Kernel (checkFeature featureEntry featureIndex FeatureOk)

variable (b : Beyond)

/-! ## Entries -/

/-- `featureTable[idx].supplier`. -/
def getSupplier (s : Kernel) (idx : Nat) : Ptr :=
  if idx < featureTableSize then (s.featureTable idx).supplier else b.supplier s idx

/-- `featureTable[idx].waiter`. -/
def getWaiter (s : Kernel) (idx : Nat) : Ptr :=
  if idx < featureTableSize then (s.featureTable idx).waiter else b.waiter s idx

/-- An assignment to `featureTable[idx].supplier`. -/
def putSupplier (s : Kernel) (idx : Nat) (supplier : Ptr) : Kernel :=
  if idx < featureTableSize then
    { s with featureTable := update s.featureTable idx { s.featureTable idx with supplier } }
  else b.setSupplier s idx supplier

/-- An assignment to `featureTable[idx].waiter`. -/
def putWaiter (s : Kernel) (idx : Nat) (waiter : Ptr) : Kernel :=
  if idx < featureTableSize then
    { s with featureTable := update s.featureTable idx { s.featureTable idx with waiter } }
  else b.setWaiter s idx waiter

/-! ## The functions -/

/-- `get_process_by_feature`. -/
def getProcessByFeature (s : Kernel) (feature : Word) : Option Ptr :=
  (featureIndex feature).map fun idx => b.getSupplier s idx

/-- `add_waiting_for_feature`. -/
def addWaitingForFeature (s : Kernel) (process : Ptr) (feature : Word) : Option Kernel :=
  (featureIndex feature).bind fun idx =>
    (walk s.nextSender (fun cur => cur = null) walkFuel null (b.getWaiter s idx)).map
      fun (previous, _) =>
        let s :=
          if previous = null then b.putWaiter s idx process
          else { s with nextSender := update s.nextSender previous process }
        { s with nextSender := update s.nextSender process null }

/-- `set_feature`, with the value it returns. -/
def setFeature (s : Kernel) (process : Ptr) (feature : Word) : Option (Kernel × Int) :=
  (featureIndex feature).map fun idx =>
    if b.getSupplier s idx ≠ null then (s, 1)
    else
      let s := b.putSupplier s idx process
      let s := { s with firstSender := update s.firstSender process (b.getWaiter s idx) }
      (b.putWaiter s idx null, 0)

section Steps

variable [Layout]

/-- `syscall_send_by_feature`. -/
def syscallSendByFeature (s : Kernel) : Option Kernel :=
  let curptr := s.sched.curptr
  let feature := (s.regs curptr).ebxReg
  (checkFeature feature).bind fun checked =>
    if checked ≠ 0 then some (s.setErr curptr Err.invalidFeature)
    else
      (b.getProcessByFeature s feature).bind fun receiver =>
        if receiver = curptr then some (s.setErr curptr Err.circularSend)
        else if receiver ≠ null then
          (s.setRegs curptr fun r => { r with ebxReg := receiver }).syscallSend
        else if (s.regs curptr).ediReg = 1 then
          (b.addWaitingForFeature s curptr feature).bind fun s => s.dequeue curptr
        else some (s.setErr curptr Err.wouldBlock)

/-- `syscall_set_feature`. -/
def syscallSetFeature (s : Kernel) : Option Kernel :=
  let curptr := s.sched.curptr
  let feature := (s.regs curptr).ebxReg
  (checkFeature feature).bind fun checked =>
    if checked ≠ 0 then some (s.setErr curptr Err.invalidFeature)
    else
      (b.setFeature s curptr feature).map fun (s, result) =>
        if result ≠ 0 then s.setErr curptr Err.featureBusy else s.setErr curptr Err.ok

/-- `syscallIsr`. -/
def syscallIsr (s : Kernel) (input : Word) : Option Kernel :=
  match (s.regs s.sched.curptr).eaxReg.toNat with
  | 1 => b.syscallSetFeature s
  | 3 => b.syscallSendByFeature s
  | _ => s.syscallIsr input

/-- `do_hard_int`. -/
def doHardInt (s : Kernel) (number : Nat) (input : Word) : Option Kernel :=
  if number = 2 then (b.syscallIsr s input).map Kernel.finish else s.doHardInt number input

/-- One interrupt. -/
def step (s : Kernel) (e : Event) : Option Kernel :=
  if s.Enabled e then
    (b.doHardInt (s.saveContext e.regs) e.number e.input).map fun s => s.schedule e.number
  else none

end Steps

/-! ## Features of the table -/

variable {b} {s s' : Kernel} {e : Event} {es : List Event} {feature : Word} {i : Nat} {p : Ptr}

theorem featureIndex_of_entry (h : featureEntry feature = some i) :
    featureIndex feature = some i ∧ i < featureTableSize := by
  obtain ⟨idx, hidx, hi⟩ := Option.bind_eq_some_iff.mp h
  split at hi
  next hlt =>
    obtain rfl := Option.some.inj hi
    exact ⟨hidx, hlt⟩
  next => exact absurd hi (by simp)

theorem getProcessByFeature_eq (h : featureEntry feature = some i) :
    b.getProcessByFeature s feature = s.getProcessByFeature feature := by
  obtain ⟨hidx, hlt⟩ := featureIndex_of_entry h
  rw [getProcessByFeature, Kernel.getProcessByFeature, h, hidx, Option.map_some, Option.map_some,
    getSupplier, if_pos hlt]

theorem addWaitingForFeature_eq (h : featureEntry feature = some i) :
    b.addWaitingForFeature s p feature = s.addWaitingForFeature p feature := by
  obtain ⟨hidx, hlt⟩ := featureIndex_of_entry h
  rw [addWaitingForFeature, Kernel.addWaitingForFeature, h, hidx, Option.bind_some, Option.bind_some,
    getWaiter, if_pos hlt, putWaiter, if_pos hlt]

theorem setFeature_eq (h : featureEntry feature = some i) :
    b.setFeature s p feature = s.setFeature p feature := by
  obtain ⟨hidx, hlt⟩ := featureIndex_of_entry h
  rw [setFeature, Kernel.setFeature, h, hidx, Option.map_some, Option.map_some, getSupplier,
    if_pos hlt]
  refine congrArg some (if_congr Iff.rfl rfl ?_)
  simp only [putSupplier, getWaiter, putWaiter, if_pos hlt, update_self, update_idem]

section Steps

variable [Layout]

theorem syscallSendByFeature_eq (h : Kernel.HasEntry (s.regs s.sched.curptr).ebxReg) :
    b.syscallSendByFeature s = s.syscallSendByFeature := by
  rw [syscallSendByFeature, Kernel.syscallSendByFeature]
  obtain ⟨c, hc, hcheck⟩ | ⟨hcheck, i, -, hi⟩ := h.check
  · simp only [hcheck, Option.bind_some, if_pos hc]
  · simp only [hcheck, Option.bind_some, getProcessByFeature_eq hi, addWaitingForFeature_eq hi]

omit [Layout] in
theorem syscallSetFeature_eq (h : Kernel.HasEntry (s.regs s.sched.curptr).ebxReg) :
    b.syscallSetFeature s = s.syscallSetFeature := by
  rw [syscallSetFeature, Kernel.syscallSetFeature]
  obtain ⟨c, hc, hcheck⟩ | ⟨hcheck, i, -, hi⟩ := h.check
  · simp only [hcheck, Option.bind_some, if_pos hc]
  · simp only [hcheck, Option.bind_some, setFeature_eq hi]

theorem syscallIsr_eq {input : Word} (h : (s.regs s.sched.curptr).eaxReg.toNat = 1 ∨
    (s.regs s.sched.curptr).eaxReg.toNat = 3 → Kernel.HasEntry (s.regs s.sched.curptr).ebxReg) :
    b.syscallIsr s input = s.syscallIsr input := by
  rw [syscallIsr]
  split
  next heax =>
    rw [syscallSetFeature_eq (h (Or.inl heax)), Kernel.syscallIsr, heax]
    rfl
  next heax =>
    rw [syscallSendByFeature_eq (h (Or.inr heax)), Kernel.syscallIsr, heax]
    rfl
  next => rfl

/-- If the features of an event have entries in the table, it does not matter what is behind it. -/
theorem step_eq (h : FeatureOk e) : b.step s e = s.step e := by
  rw [step, Kernel.step, Kernel.interrupt]
  split
  next he =>
    cases e with
    | timer regs => rfl
    | device n regs =>
      have hn : (Event.device n regs).number ≠ 2 := he.2.1
      rw [doHardInt, if_neg hn]
    | syscall regs input =>
      have hsched : (s.saveContext regs).sched = s.sched := Kernel.saveContext_sched s regs
      have hregs : (s.saveContext regs).regs s.sched.curptr = regs :=
        (Kernel.saved s regs).regs_cur he.1
      have heq : b.syscallIsr (s.saveContext regs) input =
          (s.saveContext regs).syscallIsr input := by
        refine syscallIsr_eq ?_
        rw [hsched, hregs]
        exact fun heax => h (by simpa [Event.call] using heax)
      exact congrArg (fun o => (o.map Kernel.finish).map fun s => s.schedule 2) heq
  next => rfl

/-- The call of the event, if it is one with a feature, keeps to the table. -/
def InTable (_ : Kernel) (e : Event) : Prop := FeatureOk e

instance (s : Kernel) (e : Event) : Decidable (InTable s e) :=
  inferInstanceAs (Decidable (FeatureOk e))

/-- A run without features beyond the table is a run of `step`. -/
theorem run (hr : Machine.Run b.step InTable s es s') : Kernel.Run s es s' :=
  (hr.of_agree fun _ _ h => step_eq h).mono fun _ _ _ => trivial

end Steps

/-! ## The arrays as they are declared -/

/-- The word `n` behind `featureTable`: `irqs` comes first, and then `port_accessers`. -/
def word (s : Kernel) (n : Nat) : Ptr :=
  if n ≤ maxIrq then s.irqs n else s.portAccessers (BitVec.ofNat 32 (n - (maxIrq + 1)))

/-- An assignment to it. -/
def setWord (s : Kernel) (n : Nat) (p : Ptr) : Kernel :=
  if n ≤ maxIrq then { s with irqs := update s.irqs n p }
  else { s with portAccessers := update s.portAccessers (BitVec.ofNat 32 (n - (maxIrq + 1))) p }

/-- The arrays lie behind each other in the order in which `utilities_C.c` declares them. -/
def declared : Beyond where
  supplier s idx := word s (2 * (idx - featureTableSize))
  waiter s idx := word s (2 * (idx - featureTableSize) + 1)
  setSupplier s idx := setWord s (2 * (idx - featureTableSize))
  setWaiter s idx := setWord s (2 * (idx - featureTableSize) + 1)

end Beyond

namespace Kernel

/-- Boot with the processes of `main.hla` and let interrupts come, with these words behind the
table. -/
def runBeyond [Layout] (b : Beyond) (cond : Kernel → Event → Prop) [∀ s e, Decidable (cond s e)]
    (es : List Event) : Option Kernel :=
  (mainProcs.foldlM enqueue (blank fun _ => 1)).bind fun boot =>
    es.foldlM (Machine.guarded b.step cond) boot

theorem runBeyond_eq_some [Layout] {b : Beyond} {cond : Kernel → Event → Prop}
    [∀ s e, Decidable (cond s e)] {es : List Event} {s : Kernel}
    (h : runBeyond b cond es = some s) :
    ∃ boot, Booted mainProcs boot ∧ Machine.Run b.step cond boot es s := by
  obtain ⟨boot, hboot, hrun⟩ := Option.bind_eq_some_iff.1 h
  exact ⟨boot, ⟨_, created_blank mainProcs_nodup mainProcs_shares, hboot⟩,
    .of_foldlM (fun _ _ _ => Machine.of_guarded) hrun⟩

end Kernel

end Mycrokernel
