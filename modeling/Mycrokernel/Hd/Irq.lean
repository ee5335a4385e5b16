import Mycrokernel.Kernel.Irq
import Mycrokernel.Kernel.Status
import Mycrokernel.Hd.Driver

/-!
# The interrupts of the disk driver

The kernel completes a receive with the set of the interrupts that came, bit `n` of
`esi_reg` for IRQ `n`.  The loop that waits for the device compares the whole word with
the number of the IRQ it expects.  So it reads the status again for the wrong set, and not
for any set its IRQ is in (`rereads_iff`).
-/

namespace Mycrokernel

namespace Hd

variable {α β γ : Type} {m : Hd α} {channels : Ptr → Channel} {c : Channel} {d : Driver}

/-! ## What a statement does with the reply to a receive -/

/-- The program reads the alternate status after a receive if the reply is the number of the
IRQ, and receives again if it is anything else but an error. -/
def Decodes (c : Channel) : Syscall → (Reply → Dialogue Syscall Reply γ) → Prop
  | .receive .., next => ∀ reply, hasFailed reply.error = false →
      if reply.error = c.irqExpected then
        (next reply).request = some (.inb (c.portBase ||| portAlternateStatus))
      else next reply = .stuck ∨ (next reply).request = some (.receive anyproc null 0)
  | _, _ => True

/-- What a statement does with the reply does not depend on what comes after the statement. -/
theorem Decodes.bind {request : Syscall} {next : Reply → Dialogue Syscall Reply β}
    {f : β → Dialogue Syscall Reply γ} (h : Decodes c request next) :
    Decodes c request fun reply => (next reply).bind f := by
  cases request with
  | receive sender buffer length =>
      intro reply hok
      have hreply := h reply hok
      split at hreply
      next heq =>
        rw [if_pos heq]
        exact Dialogue.request_bind hreply
      next hne =>
        rw [if_neg hne]
        cases hreply with
        | inl hstuck => exact Or.inl (congrArg (Dialogue.bind · f) hstuck)
        | inr hreceive => exact Or.inr (Dialogue.request_bind hreceive)
  | sendByFeature => trivial
  | claimPort => trivial
  | requestIrq => trivial
  | inb => trivial
  | inw => trivial
  | outb => trivial
  | outw => trivial

/-- All the receives of a statement are decoded, and it does not change the channels. -/
def Listens (channels : Ptr → Channel) (c : Channel) (m : Hd α) : Prop :=
  ∀ d, d.channels = channels →
    (m d).Every (Decodes c) fun result => result.2.channels = channels

theorem listens_pure (a : α) : Listens channels c (pure a) := fun _ hd => .done hd

theorem listens_modify {f : Driver → Driver} (hf : ∀ d, (f d).channels = d.channels) :
    Listens channels c (modify f) := fun d hd => .done ((hf d).trans hd)

theorem Listens.bind {f : α → Hd β} (h : Listens channels c m)
    (hf : ∀ a, Listens channels c (f a)) : Listens channels c (m >>= f) := by
  intro d hd
  refine (h d hd).bind (fun _ _ => Decodes.bind) ?_
  rintro ⟨_ | a, d'⟩ hd'
  · exact .done hd'
  · exact hf a d' hd'

theorem Listens.terror (h : Listens channels c m) : Listens channels c (terror m) := by
  intro d hd
  exact (h d hd).bind (fun _ _ => Decodes.bind) fun _ hd' => .done hd'

theorem Listens.finish {m : Hd Unit} (h : Listens channels c m) :
    Listens channels c (finish m) := by
  intro d hd
  exact (h d hd).bind (fun _ _ => Decodes.bind) fun _ hd' => .done hd'

theorem listens_call {request : Syscall} {result : Reply → α}
    (h : ∀ next : Reply → Dialogue Syscall Reply (Option α × Driver), Decodes c request next) :
    Listens channels c (call request result) :=
  fun _ hd => .ask (h _) fun _ => .done hd

theorem listens_forM {l : List β} {f : β → Hd Unit} (hf : ∀ b, Listens channels c (f b)) :
    Listens channels c (l.forM f) := by
  induction l with
  | nil => exact listens_pure _
  | cons b l ih => exact (hf b).bind fun _ => ih

theorem listens_get_bind {f : Driver → Hd β}
    (hf : ∀ d, d.channels = channels → Listens channels c (f d)) :
    Listens channels c (get >>= f) :=
  fun d hd => hf d hd d hd

theorem listens_callSyscallOutb (port value : Word) :
    Listens channels c (terror (callSyscallOutb port value)) := by
  refine Listens.terror (listens_call fun _ => ?_)
  trivial

theorem listens_callSyscallInb (port : Word) :
    Listens channels c (terror (callSyscallInb port)) := by
  refine Listens.terror (listens_call fun _ => ?_)
  trivial

theorem listens_errSet (error : Word) : Listens channels c (terror (errSet error)) := by
  refine Listens.terror (listens_modify ?_)
  exact fun _ => rfl

theorem listens_checkAta (channel : Ptr) : Listens channels c (checkAta channel) := by
  refine listens_get_bind fun d _ => ?_
  split
  next => exact listens_errSet _
  next => exact listens_pure _

theorem listens_checkNumber (number : Word) : Listens channels c (checkNumber c number) := by
  unfold checkNumber
  split
  next => exact listens_errSet _
  next => exact listens_pure _

theorem listens_selectDrive (channel : Ptr) : Listens channels c (selectDrive channel) := by
  refine listens_get_bind fun d _ => ?_
  split
  next =>
    refine Listens.finish (listens_get_bind fun d _ => ?_)
    exact (listens_callSyscallOutb _ _).bind fun _ => listens_modify fun _ => rfl
  next => exact listens_pure _

/-! ## The loop -/

theorem get_bind {f : Driver → Hd β} : (get >>= f) d = f d d := rfl

/-- The loop receives before it does anything else. -/
theorem waitForData_receives {n : Nat} {status : Word} (hstatus : status &&& bitDrq = 0) :
    waitForData c n status d = .stuck ∨
      (waitForData c n status d).request = some (.receive anyproc null 0) := by
  cases n with
  | zero => exact Or.inl rfl
  | succ n =>
      right
      rw [waitForData, if_neg (not_not.mpr hstatus)]
      exact Dialogue.request_bind rfl

theorem listens_waitForData (n : Nat) (status : Word) :
    Listens channels c (waitForData c n status) := by
  induction n generalizing status with
  | zero => exact fun _ _ => .stuck
  | succ n ih =>
      rw [waitForData]
      split
      next => exact listens_pure _
      next hstatus =>
        rw [ne_eq, not_not] at hstatus
        intro d hd
        unfold callSyscallReceive
        rw [terror_call_bind]
        refine .ask (fun reply hok => ?_) fun reply => ?_
        · rw [hok, if_neg Bool.false_ne_true, get_bind]
          split
          next heq =>
            rw [if_neg (not_not.mpr heq)]
            exact Dialogue.request_bind rfl
          next => exact waitForData_receives hstatus
        · split
          next => exact .done hd
          next =>
            rw [get_bind]
            split
            next => exact ih status _ hd
            next => exact ((listens_callSyscallInb _).bind fun status => ih status) _ hd

/-! ## The two functions -/

theorem listens_transferSector {command number : Word} {transfer : Channel → Nat → Hd Unit}
    {fuel : Nat} {channel : Ptr}
    (htransfer : ∀ i, Listens channels (channels channel) (transfer (channels channel) i)) :
    Listens channels (channels channel)
      (transferSector command transfer fuel number channel) := by
  refine Listens.finish ?_
  refine (listens_checkAta channel).terror.bind fun _ => ?_
  refine (listens_pure ()).terror.bind fun _ => ?_
  refine listens_get_bind fun d hd => ?_
  rw [hd]
  refine (listens_checkNumber number).bind fun _ => ?_
  refine (listens_selectDrive channel).terror.bind fun _ => ?_
  refine (listens_callSyscallOutb _ _).bind fun _ => ?_
  refine (listens_callSyscallOutb _ _).bind fun _ => ?_
  refine (listens_callSyscallOutb _ _).bind fun _ => ?_
  refine (listens_callSyscallOutb _ _).bind fun _ => ?_
  refine (listens_callSyscallOutb _ _).bind fun _ => ?_
  refine (listens_callSyscallOutb _ _).bind fun _ => ?_
  refine (listens_callSyscallInb _).bind fun status => ?_
  exact (listens_waitForData fuel status).bind fun _ => listens_forM htransfer

theorem listens_writeSector {fuel : Nat} {number buffer : Word} {channel : Ptr} :
    Listens channels (channels channel) (writeSector fuel number channel buffer) := by
  refine listens_transferSector fun i => ?_
  refine Listens.bind (listens_get_bind fun d _ => listens_pure _) fun value => ?_
  refine Listens.terror (listens_call fun _ => ?_)
  trivial

theorem listens_readSector {fuel : Nat} {number buffer : Word} {channel : Ptr} :
    Listens channels (channels channel) (readSector fuel number channel buffer) := by
  refine listens_transferSector fun i => Listens.terror ?_
  refine Listens.bind (listens_call fun _ => ?_) fun value => listens_modify ?_
  · trivial
  · exact fun _ => rfl

/-! ## Sets of interrupts -/

/-- The word that stands for a set of interrupts. -/
def irqMask (irqs : Finset Nat) : BitVec 16 := irqs.fold (· ||| ·) 0 fun n => 1#16 <<< n

theorem irqMask_singleton (n : Nat) : irqMask {n} = 1#16 <<< n := by simp [irqMask]

theorem getLsbD_mask {a n : Nat} (hn : n < 16) : (1#16 <<< a).getLsbD n = decide (n = a) := by
  rw [BitVec.getLsbD_shiftLeft, BitVec.getLsbD_one, Bool.eq_iff_iff]
  simp only [Bool.and_eq_true, Bool.not_eq_true', decide_eq_true_eq, decide_eq_false_iff_not]
  omega

theorem getLsbD_irqMask (irqs : Finset Nat) {n : Nat} (hn : n < 16) :
    (irqMask irqs).getLsbD n = decide (n ∈ irqs) := by
  induction irqs using Finset.induction with
  | empty => simp [irqMask]
  | insert a irqs ha ih =>
      have hinsert : irqMask (insert a irqs) = 1#16 <<< a ||| irqMask irqs := Finset.fold_insert ha
      rw [hinsert, BitVec.getLsbD_or, getLsbD_mask hn, ih, Bool.eq_iff_iff]
      simp

/-- A word stands for one set. -/
theorem irqMask_inj {irqs irqs' : Finset Nat} (h : ∀ n ∈ irqs, n ≤ maxIrq)
    (h' : ∀ n ∈ irqs', n ≤ maxIrq) (heq : irqMask irqs = irqMask irqs') : irqs = irqs' := by
  ext n
  cases Nat.lt_or_ge maxIrq n with
  | inl hlt =>
      exact iff_of_false (fun hn => Nat.not_le_of_lt hlt (h n hn)) fun hn =>
        Nat.not_le_of_lt hlt (h' n hn)
  | inr hle =>
      have hn : n < 16 := Nat.lt_succ_of_le hle
      have hbit := getLsbD_irqMask irqs hn
      rw [heq, getLsbD_irqMask irqs' hn] at hbit
      exact (decide_eq_decide.mp hbit).symm

/-! ## What the kernel replies -/

section

variable [Layout] {s k : Kernel} {irqs : Finset Nat} {reply : Reply}

/-- What the stubs pass on of the registers a process wakes up with. -/
def Reply.of (regs : Regs) : Reply := { value := regs.eaxReg, error := regs.esiReg }

/-- The kernel completes the receive of a process with a set of interrupts: those that were
pending when it made the call, or the one it was woken for. -/
inductive Completed : Finset Nat → Reply → Prop where
  | pending {s k : Kernel} {irqs : Finset Nat} {input : Word} (hirqs : ∀ n ∈ irqs, n ≤ maxIrq)
      (hmask : s.interrupts s.sched.curptr = irqMask irqs)
      (hcall : s.syscallIsr input = some k) (hreported : Kernel.Reported s k) :
      Completed irqs (Reply.of (k.regs s.sched.curptr))
  | notified {s k : Kernel} {n : Nat} (hn : n ≤ maxIrq)
      (hreceiving : s.state (s.irqs n) &&& Flag.receiving ≠ 0)
      (hnotify : s.notifyIrq n = some k) : Completed {n} (Reply.of (k.regs (s.irqs n)))

theorem Completed.le (h : Completed irqs reply) : ∀ n ∈ irqs, n ≤ maxIrq := by
  cases h with
  | pending hirqs => exact hirqs
  | notified hn =>
      intro n hmem
      rwa [Finset.mem_singleton.mp hmem]

/-- The kernel can complete a receive with any set that is not empty. -/
theorem exists_completed (hne : irqs.Nonempty) (hirqs : ∀ n ∈ irqs, n ≤ maxIrq) :
    ∃ reply, Completed irqs reply := by
  obtain ⟨s, hregs, hmask⟩ : ∃ s : Kernel, (∀ p, s.regs p = { eaxReg := 2 }) ∧
      ∀ p, s.interrupts p = irqMask irqs :=
    ⟨{ Kernel.blank fun _ => 1 with
      regs := fun _ => { eaxReg := 2 }, interrupts := fun _ => irqMask irqs },
      fun _ => rfl, fun _ => rfl⟩
  have hpending : s.interrupts s.sched.curptr ≠ 0 := by
    obtain ⟨n, hn⟩ := hne
    intro hzero
    have hbit := getLsbD_irqMask irqs (Nat.lt_succ_of_le (hirqs n hn))
    rw [← hmask s.sched.curptr, hzero] at hbit
    simp [hn] at hbit
  have hreceive : ∃ k, s.syscallReceive = some k ∧ k.interrupts s.sched.curptr = 0 := by
    unfold Kernel.syscallReceive
    dsimp only
    rw [hregs]
    dsimp only
    rw [if_neg (by simp [Kernel.validateDataArea]), if_pos hpending]
    exact ⟨_, rfl, Function.update_self ..⟩
  obtain ⟨k, hk, htaken⟩ := hreceive
  have heax : (s.regs s.sched.curptr).eaxReg.toNat = 2 := by
    rw [hregs]
    rfl
  have hcall : s.syscallIsr 0 = some k := by
    simpa only [Kernel.syscallIsr, heax] using hk
  exact ⟨_, .pending hirqs (hmask _) hcall ⟨heax, hpending, htaken⟩⟩

theorem Completed.error (h : Completed irqs reply) :
    reply.error = (irqMask irqs).setWidth 32 := by
  cases h with
  | @pending s k _ input _ hmask hcall hreported =>
      have hreceive : s.syscallReceive = some k := by
        simpa only [Kernel.syscallIsr, hreported.call] using hcall
      rw [← hmask]
      exact hreported.mask hreceive
  | @notified s k n _ hreceiving hnotify =>
      unfold Kernel.notifyIrq at hnotify
      dsimp only at hnotify
      rw [if_pos hreceiving] at hnotify
      obtain ⟨t, ht, rfl⟩ := Option.map_eq_some_iff.mp hnotify
      have herror : (t.regs (s.irqs n)).esiReg = (1#16 <<< n).setWidth 32 := by
        rw [Kernel.unsetStateFlag_eq ht]
        exact congrArg Regs.esiReg Kernel.setErr_regs_self
      rw [irqMask_singleton]
      exact (congrArg Regs.esiReg Kernel.setEax_regs_self).trans herror

end

/-! ## The decision -/

/-- The set of the interrupts whose word is the number of the IRQ the channel expects. -/
def decoy (c : Channel) : Finset Nat := if c.isPrimary then {1, 2, 3} else {0, 1, 2, 3}

theorem decoy_le (c : Channel) : ∀ n ∈ decoy c, n ≤ maxIrq := by
  unfold decoy
  split
  next => decide
  next => decide

theorem irqMask_decoy (c : Channel) : (irqMask (decoy c)).setWidth 32 = c.irqExpected := by
  unfold decoy Channel.irqExpected
  split
  next => rfl
  next => rfl

theorem irqExpected_notMem_decoy (c : Channel) : c.irqExpected.toNat ∉ decoy c := by
  unfold decoy Channel.irqExpected
  split
  next => decide
  next => decide

theorem hasFailed_setWidth (mask : BitVec 16) : hasFailed (mask.setWidth 32) = false := by
  simp [hasFailed, BitVec.slt_zero_eq_msb, BitVec.msb_setWidth]

theorem setWidth_inj {mask mask' : BitVec 16} (h : mask.setWidth 32 = mask'.setWidth 32) :
    mask = mask' := by
  have hback := congrArg (BitVec.setWidth 16) h
  simpa using hback

/-- A request of the loop that a completed receive leads to: the status again, if the set is the
decoy, and the next receive otherwise. -/
theorem Decodes.request_iff {next : Reply → Dialogue Syscall Reply γ} {sender buffer length : Word}
    [Layout] {irqs : Finset Nat} {reply : Reply}
    (h : Decodes c (.receive sender buffer length) next) (hc : Completed irqs reply) :
    (next reply).request = some (.inb (c.portBase ||| portAlternateStatus)) ↔
      irqs = decoy c := by
  have herror := hc.error
  have hreply := h reply (by rw [herror, hasFailed_setWidth])
  rw [herror, ← irqMask_decoy] at hreply
  cases Decidable.em (irqs = decoy c) with
  | inl heq =>
      rw [if_pos (by rw [heq])] at hreply
      exact iff_of_true hreply heq
  | inr hne =>
      have hmask : ¬ (irqMask irqs).setWidth 32 = (irqMask (decoy c)).setWidth 32 := fun h =>
        hne (irqMask_inj hc.le (decoy_le c) (setWidth_inj h))
      rw [if_neg hmask] at hreply
      refine iff_of_false (fun hinb => ?_) hne
      cases hreply with
      | inl hstuck =>
          rw [hstuck] at hinb
          exact absurd hinb (by simp [Dialogue.request])
      | inr hreceive => exact absurd (hreceive.symm.trans hinb) (by simp)

/-- In the wait loops of `read_sector` and `write_sector`, a completed receive leads to another
look at the status exactly if the channel's IRQ is in the set, if and only if it is not
in the set, and the set is no decoy. -/
theorem rereads_iff [Layout] (f : Nat → Word → Ptr → Word → Hd Unit)
    (hf : f = readSector ∨ f = writeSector) (fuel : Nat) (number : Word) (channel : Ptr)
    (buffer : Word) (d : Driver) (replies : List Reply) (sender address length : Word)
    (next : Reply → Dialogue Syscall Reply (Option Unit × Driver))
    (hnext : (f fuel number channel buffer d).after replies =
      some (.ask (.receive sender address length) next))
    (irqs : Finset Nat) (reply : Reply) (hc : Completed irqs reply) :
    ((next reply).request =
        some (.inb ((d.channels channel).portBase ||| portAlternateStatus)) ↔
      (d.channels channel).irqExpected.toNat ∈ irqs) ↔
    (d.channels channel).irqExpected.toNat ∉ irqs ∧ irqs ≠ decoy (d.channels channel) := by
  have hlistens : Listens d.channels (d.channels channel) (f fuel number channel buffer) := by
    cases hf with
    | inl hread =>
        rw [hread]
        exact listens_readSector
    | inr hwrite =>
        rw [hwrite]
        exact listens_writeSector
  have hdecodes := (hlistens d rfl).of_after hnext
  rw [hdecodes.request_iff hc]
  have hnot := irqExpected_notMem_decoy (d.channels channel)
  cases Decidable.em (irqs = decoy (d.channels channel)) with
  | inl heq =>
      rw [heq]
      simp [hnot]
  | inr hne => simp [hne]

/-- The driver's variables with a master on the primary controller, for examples. -/
def masterDriver : Driver where
  error := 0
  channelSelected := null
  channels _ := { controller := .ata, lbaSectors := 100, busInfo := 3 }
  mem _ := 0

/-- The replies up to the first receive, from a device that is busy. -/
def busyReplies : List Reply :=
  List.replicate 7 { value := 0, error := 0 } ++ [{ value := 0x80, error := 0 }]

/-- The first process to run requests an IRQ and receives, the interrupt comes, and the process
is given this reply. -/
def notified [Layout] (number : Nat) (reply : Reply) : Bool :=
  ((Kernel.mainRun [.tick, .requestIrq number, .tick, .tick, .receive null]).bind fun s =>
    (s.notifyIrq number).map fun k => decide (s.state (s.irqs number) &&& Flag.receiving ≠ 0 ∧
      Reply.of (k.regs (s.irqs number)) = reply)) = some true

theorem completed_of_notified [Layout] {number : Nat} {reply : Reply} (hn : number ≤ maxIrq)
    (h : notified number reply = true) : Completed {number} reply := by
  obtain ⟨s, -, h⟩ := Option.bind_eq_some_iff.mp (decide_eq_true_eq.mp h)
  obtain ⟨k, hk, h⟩ := Option.map_eq_some_iff.mp h
  obtain ⟨hreceiving, rfl⟩ := decide_eq_true_eq.mp h
  exact .notified hn hreceiving hk

/-- The driver is told of another interrupt than its own, and receives again. -/
theorem rereads_iff_main :
    letI := Layout.sample
    ∃ next reply, (readSector 5 0 0x100 0x4000 masterDriver).after busyReplies =
        some (.ask (.receive null null 0) next) ∧ Completed {1} reply ∧
      ((next reply).request = some (.inb 0x3f6) ↔ 14 ∈ ({1} : Finset Nat)) := by
  let _ := Layout.sample
  have hc : Completed {1} { value := 0, error := 2 } :=
    completed_of_notified (by decide) (by decide +kernel)
  refine ⟨_, _, rfl, hc, (rereads_iff readSector (Or.inl rfl) 5 0 0x100 0x4000 masterDriver
    busyReplies null null 0 _ rfl {1} _ hc).mpr ⟨by decide, by decide⟩⟩

/-- The driver is told of the interrupt of its own channel, and receives again. -/
theorem rereads_iff_fails :
    letI := Layout.sample
    ∃ next reply, (readSector 5 0 0x100 0x4000 masterDriver).after busyReplies =
        some (.ask (.receive null null 0) next) ∧ Completed {14} reply ∧
      (next reply).request = some (.receive null null 0) ∧
      ¬ ((next reply).request = some (.inb 0x3f6) ↔ 14 ∈ ({14} : Finset Nat)) := by
  let _ := Layout.sample
  have hc : Completed {14} { value := 0, error := 0x4000 } :=
    completed_of_notified (by decide) (by decide +kernel)
  refine ⟨_, _, rfl, hc, rfl, fun h => ?_⟩
  exact absurd (h.mpr (by decide)) (by decide)

end Hd

end Mycrokernel
