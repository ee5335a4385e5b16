import Mycrokernel.Kernel.Boot

/-!
# The status of a system call

A system call reports in `esi_reg` what became of it, and the stubs of
`usrlib/syscall.hla` copy that register to the error variable of their caller,
whatever the kernel did with it.  `Honest` says that the status fits what the call did,
and `ByCallAlone` that it does not depend on what the register held before.

`syscall_claim_port` and `syscall_vir2phys` set the status when they refuse a call and
not when they carry it out (`Silent`).  All the other calls report both
(`status_iff`).  Nothing is assumed about the state a call is made in.
-/

namespace Mycrokernel

open Function (update update_self update_of_ne update_idem)

namespace Kernel

variable [Layout] {s t k : Kernel} {p r x : Ptr} {v err : Word} {input : Word}

/-! ## Calls that block -/

theorem pickOther_misc {sched sched' : Sched} {n : Nat}
    (h : Sched.pickOther p n sched = some sched') : sched'.misc = sched.misc := by
  induction n generalizing sched with
  | zero => exact absurd h (by simp [Sched.pickOther])
  | succ n ih =>
      rw [Sched.pickOther_succ] at h
      split at h
      next => exact (ih h).trans sched.sameQueue_round.misc
      next =>
        obtain rfl := Option.some.inj h
        exact sched.sameQueue_round.misc

/-- `dequeue` leaves its process off the run queue, whatever the state. -/
theorem sched_dequeue_off {sched sched' : Sched} (h : sched.dequeue p = some sched') :
    sched'.isEnqueued p = false := by
  unfold Sched.dequeue at h
  split at h
  next hoff =>
    obtain rfl := Option.some.inj h
    simpa using hoff
  next =>
    have hcleared : Sched.isEnqueued
        { sched with misc := update sched.misc p (sched.misc p &&& ~~~Flag.enqueued) } p = false := by
      unfold Sched.isEnqueued
      dsimp only
      rw [update_self]
      exact Flag.and_not_enqueued_and _
    dsimp only at h
    split at h
    next =>
      obtain rfl := Option.some.inj h
      exact hcleared
    next =>
      obtain ⟨last, hlast, rfl⟩ := Option.map_eq_some_iff.mp h
      rw [Sched.isEnqueued, Sched.unlink_misc]
      split at hlast
      next =>
        rw [pickOther_misc hlast]
        exact hcleared
      next =>
        obtain rfl := Option.some.inj hlast
        exact hcleared

theorem dequeue_off (h : s.dequeue p = some k) : k.sched.isEnqueued p = false := by
  obtain ⟨sched, hsched, rfl⟩ := Option.map_eq_some_iff.mp h
  exact sched_dequeue_off hsched

theorem addToSendersList_off (h : s.addToSendersList p r = some k) :
    k.sched.isEnqueued p = false := by
  obtain ⟨_, -, h⟩ := Option.bind_eq_some_iff.mp h
  exact dequeue_off h

theorem markAsReceivingFrom_off (h : s.markAsReceivingFrom p r = some k) :
    k.sched.isEnqueued p = false :=
  dequeue_off h

/-! ## Calls and the register of the status -/

section

omit [Layout]

theorem setRegs_comm {f g : Regs → Regs} (h : ∀ regs, g (f regs) = f (g regs)) :
    (s.setRegs p f).setRegs x g = (s.setRegs x g).setRegs p f := by
  cases Decidable.em (x = p) with
  | inl hx =>
      subst hx
      simp [setRegs, h]
  | inr hx =>
      simp [setRegs, Function.update_comm hx, update_of_ne hx, update_of_ne (Ne.symm hx)]

theorem setErr_setErr : (s.setErr p v).setErr p err = s.setErr p err := by
  simp [setErr, setRegs]

/-- The status a call sets is not changed by setting another before. -/
theorem setErr_setErr_setErr {err' : Word} :
    ((s.setErr p v).setErr x err).setErr p err' = (s.setErr x err).setErr p err' := by
  cases Decidable.em (x = p) with
  | inl hx => simp [hx, setErr_setErr]
  | inr hx =>
      have hcomm : (s.setErr p v).setErr x err = (s.setErr x err).setErr p v := by
        simp [setErr, setRegs, Function.update_comm hx, update_of_ne hx, update_of_ne (Ne.symm hx)]
      rw [hcomm, setErr_setErr]

theorem setErr_regs_self : (s.setErr p v).regs p = { s.regs p with esiReg := v } := update_self ..

/-- A change of registers that is none of the message's. -/
structure SparesMessage (f : Regs → Regs) : Prop where
  eaxReg : ∀ regs v, f { regs with eaxReg := v } = { f regs with eaxReg := v }
  ecxReg : ∀ regs, (f regs).ecxReg = regs.ecxReg
  edxReg : ∀ regs, (f regs).edxReg = regs.edxReg
  dsReg : ∀ regs, (f regs).dsReg = regs.dsReg

theorem sparesMessage_esiReg (v : Word) : SparesMessage fun regs => { regs with esiReg := v } :=
  ⟨fun _ _ => rfl, fun _ => rfl, fun _ => rfl, fun _ => rfl⟩

theorem sparesMessage_ebxReg (v : Word) : SparesMessage fun regs => { regs with ebxReg := v } :=
  ⟨fun _ _ => rfl, fun _ => rfl, fun _ => rfl, fun _ => rfl⟩

/-- What is read off a register that a change spares is what was there before. -/
theorem setRegs_read {α : Type} {f : Regs → Regs} {field : Regs → α}
    (hf : ∀ regs, field (f regs) = field regs) :
    field ((s.setRegs p f).regs x) = field (s.regs x) := by
  cases Decidable.em (x = p) with
  | inl hx =>
      subst hx
      exact (congrArg field (update_self ..)).trans (hf _)
  | inr hx => exact congrArg field (update_of_ne hx _ _)

theorem validateDataArea_setErr {mem size : Word} :
    (s.setErr p v).validateDataArea x mem size = s.validateDataArea x mem size :=
  validateDataArea_congr (setRegs_read (sparesMessage_esiReg v).dsReg)
    (fun _ => getLimit_congr rfl rfl) mem size

theorem exchangeBytes_setRegs {f : Regs → Regs} {a b : Ptr} (hf : SparesMessage f) :
    (s.setRegs p f).exchangeBytes a b = s.exchangeBytes a b := by
  rw [exchangeBytes, exchangeBytes, setRegs_read hf.ecxReg, setRegs_read hf.ecxReg]

theorem dataBase_setRegs {f : Regs → Regs} (hf : SparesMessage f) :
    (s.setRegs p f).dataBase x = s.dataBase x := by
  rw [dataBase, dataBase, dataIndex, dataIndex, setRegs_read hf.dsReg]
  rfl

theorem setEax_setRegs {f : Regs → Regs} {value : Word} (hf : SparesMessage f) :
    (s.setRegs p f).setEax x value = (s.setEax x value).setRegs p f :=
  setRegs_comm fun regs => (hf.eaxReg regs value).symm

theorem exchangeData_setRegs {f : Regs → Regs} {a b : Ptr} (hf : SparesMessage f) :
    (s.setRegs p f).exchangeData a b = (s.exchangeData a b).setRegs p f := by
  unfold exchangeData
  rw [exchangeBytes_setRegs hf, dataBase_setRegs hf, dataBase_setRegs hf,
    setRegs_read hf.edxReg, setRegs_read hf.edxReg]
  dsimp only
  rw [setEax_setRegs hf, setEax_setRegs hf]
  rfl

/-- The part of a transfer that copies. -/
theorem transfer_setErr {a b c d : Ptr} :
    (((s.setErr p v).exchangeData a b).setEax c ((s.setErr p v).exchangeBytes a b)).setEax d
        ((s.setErr p v).exchangeBytes a b) =
      (((s.exchangeData a b).setEax c (s.exchangeBytes a b)).setEax d
        (s.exchangeBytes a b)).setErr p v := by
  have hf := sparesMessage_esiReg v
  unfold setErr
  rw [exchangeBytes_setRegs hf, exchangeData_setRegs hf, setEax_setRegs hf, setEax_setRegs hf]

theorem unsetStateFlag_setErr {f : BitVec 8} :
    (s.setErr p v).unsetStateFlag x f = (s.unsetStateFlag x f).map (·.setErr p v) := by
  unfold unsetStateFlag
  dsimp only
  rw [apply_ite (Option.map _)]
  congr 1
  simp only [enqueue, Option.map_map]
  rfl

theorem clearReceivingFrom_setErr :
    (s.setErr p v).clearReceivingFrom r = (s.clearReceivingFrom r).map (·.setErr p v) :=
  unsetStateFlag_setErr (s := { s with receivingFrom := update s.receivingFrom r null })

theorem removeFromSendersList_setErr :
    (s.setErr p v).removeFromSendersList x r =
      (s.removeFromSendersList x r).map (·.setErr p v) := by
  unfold removeFromSendersList
  rw [Option.map_bind]
  refine congrArg (Option.bind _) (funext fun ⟨previous, _⟩ => ?_)
  refine Eq.trans ?_ unsetStateFlag_setErr
  dsimp only
  split
  next => rfl
  next => rfl

theorem setFeature_setErr {feature : Word} :
    (s.setErr p v).setFeature x feature =
      (s.setFeature x feature).map fun (k, result) => (k.setErr p v, result) := by
  unfold setFeature
  rw [Option.map_map]
  refine congrArg (Option.map · _) (funext fun idx => ?_)
  rw [Function.comp_apply]
  change (if (s.featureTable idx).supplier ≠ null then _ else _) = _
  split
  next => rfl
  next => rfl

/-! ## Calls that set the status -/

/-- The calls that leave `esi_reg` alone: those of `syscall_claim_port` and
`syscall_vir2phys` that are not refused. -/
def Silent (s : Kernel) : Prop :=
  let regs := s.regs s.sched.curptr
  let accesser := s.portAccessers (regs.ebxReg &&& 0xffff)
  regs.eaxReg.toNat = 6 ∧ (accesser = null ∨ accesser = s.sched.curptr) ∨
    regs.eaxReg.toNat = 10 ∧ s.validateDataArea s.sched.curptr regs.ebxReg 0 = 0

instance (s : Kernel) : Decidable (Silent s) := inferInstanceAs (Decidable (_ ∨ _))

theorem syscallSetFeature_setErr :
    (s.setErr s.sched.curptr v).syscallSetFeature = s.syscallSetFeature := by
  have hcur : (s.setErr s.sched.curptr v).sched.curptr = s.sched.curptr := rfl
  unfold syscallSetFeature
  dsimp only
  rw [hcur, setErr_regs_self]
  dsimp only
  refine congrArg (Option.bind _) (funext fun checked => ?_)
  rw [setErr_setErr, setFeature_setErr, Option.map_map]
  congr 2
  funext ⟨k, result⟩
  simp [setErr_setErr]

theorem syscallRequestIrq_setErr :
    (s.setErr s.sched.curptr v).syscallRequestIrq = s.syscallRequestIrq := by
  simp [syscallRequestIrq, setErr, setRegs]

theorem syscallInb_setErr :
    (s.setErr s.sched.curptr v).syscallInb input = s.syscallInb input := by
  simp [syscallInb, setErr, setEax, setRegs, hasPortAccess]

theorem syscallInw_setErr :
    (s.setErr s.sched.curptr v).syscallInw input = s.syscallInw input := by
  simp [syscallInw, setErr, setEax, setRegs, hasPortAccess]

theorem syscallOutb_setErr :
    (s.setErr s.sched.curptr v).syscallOutb = s.syscallOutb := by
  simp [syscallOutb, setErr, setRegs, hasPortAccess]

theorem syscallOutw_setErr :
    (s.setErr s.sched.curptr v).syscallOutw = s.syscallOutw := by
  simp [syscallOutw, setErr, setRegs, hasPortAccess]

theorem syscallClaimPort_setErr (h : (s.regs s.sched.curptr).eaxReg.toNat = 6) (hs : ¬ Silent s) :
    (s.setErr s.sched.curptr v).syscallClaimPort = s.syscallClaimPort := by
  have htaken := mt (fun hfree => Or.inl ⟨h, hfree⟩) hs
  rw [not_or] at htaken
  unfold syscallClaimPort
  dsimp only
  rw [if_pos htaken]
  have hcur : (s.setErr s.sched.curptr v).sched.curptr = s.sched.curptr := rfl
  rw [hcur, setErr_regs_self, setErr_setErr]
  exact if_pos htaken

theorem syscallVir2phys_setErr (h : (s.regs s.sched.curptr).eaxReg.toNat = 10)
    (hs : ¬ Silent s) : (s.setErr s.sched.curptr v).syscallVir2phys = s.syscallVir2phys := by
  have hbad := mt (fun harea => Or.inr ⟨h, harea⟩) hs
  unfold syscallVir2phys
  dsimp only
  rw [if_pos hbad]
  have hcur : (s.setErr s.sched.curptr v).sched.curptr = s.sched.curptr := rfl
  rw [hcur, setErr_regs_self, setErr_setErr, validateDataArea_setErr]
  exact if_pos hbad

end

theorem syscallSend_setErr (h : s.syscallSend = some k)
    (hon : k.sched.isEnqueued s.sched.curptr = true) :
    (s.setErr s.sched.curptr v).syscallSend = some k := by
  have hcur : (s.setErr s.sched.curptr v).sched.curptr = s.sched.curptr := rfl
  unfold syscallSend at h ⊢
  dsimp only at h ⊢
  rw [hcur, setErr_regs_self]
  dsimp only
  rw [validateDataArea_setErr, setErr_setErr, transfer_setErr, clearReceivingFrom_setErr,
    Option.map_map]
  split at h
  next hbuf =>
    rw [if_pos hbuf]
    exact h
  next hbuf =>
    rw [if_neg hbuf]
    split at h
    next hrec =>
      refine (if_pos hrec).trans (Eq.trans ?_ h)
      refine congrArg (Option.map · _) (funext fun t => ?_)
      rw [Function.comp_apply, setErr_setErr]
    next => exact absurd hon (by simp [addToSendersList_off h])

theorem syscallSendByFeature_setErr (h : s.syscallSendByFeature = some k)
    (hon : k.sched.isEnqueued s.sched.curptr = true) :
    (s.setErr s.sched.curptr v).syscallSendByFeature = some k := by
  have hcur : (s.setErr s.sched.curptr v).sched.curptr = s.sched.curptr := rfl
  unfold syscallSendByFeature at h ⊢
  dsimp only at h ⊢
  rw [hcur, setErr_regs_self]
  dsimp only
  rw [setErr_setErr, setErr_setErr, setErr_setErr]
  obtain ⟨checked, hchecked, h⟩ := Option.bind_eq_some_iff.mp h
  rw [hchecked, Option.bind_some]
  split at h
  next hbad =>
    rw [if_pos hbad]
    exact h
  next hok =>
    rw [if_neg hok]
    obtain ⟨receiver, hreceiver, h⟩ := Option.bind_eq_some_iff.mp h
    refine Option.bind_eq_some_iff.mpr ⟨receiver, hreceiver, ?_⟩
    split at h
    next hself =>
      rw [if_pos hself]
      exact h
    next hother =>
      rw [if_neg hother]
      split at h
      next hsupplied =>
        have hebx : (s.setErr s.sched.curptr v).setRegs s.sched.curptr
            (fun regs => { regs with ebxReg := receiver }) =
              (s.setRegs s.sched.curptr fun regs => { regs with ebxReg := receiver }).setErr
                s.sched.curptr v := setRegs_comm fun _ => rfl
        rw [if_pos hsupplied, hebx]
        exact syscallSend_setErr h hon
      next hnone =>
        rw [if_neg hnone]
        split at h
        next =>
          obtain ⟨t, -, h⟩ := Option.bind_eq_some_iff.mp h
          exact absurd hon (by simp [dequeue_off h])
        next hedi =>
          rw [if_neg hedi]
          exact h

theorem syscallReceive_setErr (h : s.syscallReceive = some k)
    (hon : k.sched.isEnqueued s.sched.curptr = true) :
    (s.setErr s.sched.curptr v).syscallReceive = some k := by
  have hcur : (s.setErr s.sched.curptr v).sched.curptr = s.sched.curptr := rfl
  unfold syscallReceive at h ⊢
  dsimp only at h ⊢
  rw [hcur, setErr_regs_self]
  dsimp only
  rw [validateDataArea_setErr, setErr_setErr, setErr_setErr]
  split at h
  next hbuf =>
    rw [if_pos hbuf]
    exact h
  next hbuf =>
    rw [if_neg hbuf]
    split at h
    next hirq => exact (if_pos hirq).trans h
    next hirq =>
      refine (if_neg hirq).trans ?_
      obtain ⟨sender, hsender, h⟩ := Option.bind_eq_some_iff.mp h
      refine Option.bind_eq_some_iff.mpr ⟨sender, hsender, ?_⟩
      split at h
      next hfound =>
        rw [if_pos hfound, transfer_setErr, removeFromSendersList_setErr, Option.map_map]
        refine Eq.trans (congrArg (Option.map · _) (funext fun t => ?_)) h
        rw [Function.comp_apply, setErr_setErr_setErr]
      next => exact absurd hon (by simp [markAsReceivingFrom_off h])

/-- A call that does not block and is not silent comes out the same whatever `esi_reg` held. -/
theorem syscallIsr_setErr (h : s.syscallIsr input = some k)
    (hexit : (s.regs s.sched.curptr).eaxReg.toNat ≠ 0)
    (hon : k.sched.isEnqueued s.sched.curptr = true) (hs : ¬ Silent s) :
    (s.setErr s.sched.curptr v).syscallIsr input = some k := by
  have hcur : (s.setErr s.sched.curptr v).sched.curptr = s.sched.curptr := rfl
  unfold syscallIsr at h ⊢
  rw [hcur, setErr_regs_self]
  dsimp only
  split at h
  next heax => exact absurd heax hexit
  next => exact syscallSetFeature_setErr.trans h
  next => exact syscallReceive_setErr h hon
  next => exact syscallSendByFeature_setErr h hon
  next => exact (congrArg some syscallRequestIrq_setErr).trans h
  next => exact (congrArg some syscallInb_setErr).trans h
  next heax => exact (congrArg some (syscallClaimPort_setErr heax hs)).trans h
  next => exact (congrArg some syscallOutb_setErr).trans h
  next => exact (congrArg some syscallInw_setErr).trans h
  next => exact (congrArg some syscallOutw_setErr).trans h
  next heax => exact (congrArg some (syscallVir2phys_setErr heax hs)).trans h
  next => exact (congrArg some setErr_setErr).trans h

/-! ## What a call does -/

/-- Nothing is copied between the two states. -/
structure SameMessages (s k : Kernel) : Prop where
  mem : k.mem = s.mem
  exchanges : k.exchanges = s.exchanges

/-- The message of `sender` has been copied to `receiver`. -/
def Copied (s : Kernel) (sender receiver : Ptr) (k : Kernel) : Prop :=
  SameMessages (s.exchangeData sender receiver) k

/-- What the call requests has been done. -/
def Done (s : Kernel) (input : Word) (k : Kernel) : Prop :=
  let p := s.sched.curptr
  let regs := s.regs p
  let port := regs.ebxReg &&& 0xffff
  match regs.eaxReg.toNat with
  | 1 => checkFeature regs.ebxReg = some 0 ∧ ∃ i, featureEntry regs.ebxReg = some i ∧
      (s.featureTable i).supplier = null ∧ k.featureTable i = { supplier := p, waiter := null } ∧
      k.firstSender p = (s.featureTable i).waiter
  | 2 => ∃ sender, Accepts regs.ebxReg sender ∧ Copied s sender p k
  | 3 => ∃ receiver, s.getProcessByFeature regs.ebxReg = some receiver ∧ Copied s p receiver k
  | 4 => k.irqs regs.ebxReg.toNat = p ∧ regs.ebxReg.toNat ≠ 0 ∧ regs.ebxReg.toNat ≠ 2 ∧
      regs.ebxReg.toNat ≤ maxIrq
  | 5 => k.portLog = .inb p port :: s.portLog ∧ (k.regs p).eaxReg = input &&& 0xff
  | 6 => k.portAccessers port = p
  | 7 => k.portLog = .outb p port (regs.ecxReg &&& 0xff) :: s.portLog
  | 8 => k.portLog = .inw p port :: s.portLog ∧ (k.regs p).eaxReg = input &&& 0xffff
  | 9 => k.portLog = .outw p port (regs.ecxReg &&& 0xffff) :: s.portLog
  | 10 => s.validateDataArea p regs.ebxReg 0 = 0 ∧ (k.regs p).eaxReg = s.vir2phys p regs.ebxReg
  | _ => False

/-- A receive has reported the interrupts that were pending for its caller. -/
structure Reported (s k : Kernel) : Prop where
  call : (s.regs s.sched.curptr).eaxReg.toNat = 2
  pending : s.interrupts s.sched.curptr ≠ 0
  taken : k.interrupts s.sched.curptr = 0

/-- The status of the caller. -/
def status (s k : Kernel) : Word := (k.regs s.sched.curptr).esiReg

/-- The status tells what the call did, and an error code that it did nothing. -/
structure Honest (s : Kernel) (input : Word) (k : Kernel) : Prop where
  ok : status s k = Err.ok ↔ Done s input k
  positive : 0 < (status s k).toInt ↔ Reported s k
  mask : Reported s k → status s k = (s.interrupts s.sched.curptr).setWidth 32
  failed : ¬ Done s input k → ¬ Reported s k → (status s k).toInt < 0
  unchanged : ¬ Done s input k → ¬ Reported s k →
    s.setRegs s.sched.curptr (fun _ => k.regs s.sched.curptr) = k

/-- The status does not depend on what `esi_reg` held before. -/
def ByCallAlone (s : Kernel) (input : Word) (k : Kernel) : Prop :=
  ∀ v k', (s.setErr s.sched.curptr v).syscallIsr input = some k' → status s k' = status s k

/-- How a call ends that does not block. -/
inductive Ended (s : Kernel) (input : Word) (k : Kernel) : Prop where
  | refused (hstatus : (status s k).toInt < 0)
      (honly : s.setRegs s.sched.curptr (fun _ => k.regs s.sched.curptr) = k)
      (hdone : ¬ Done s input k)
  | done (hstatus : status s k = Err.ok) (hdone : Done s input k) (hreported : ¬ Reported s k)
  | reported (hstatus : status s k = (s.interrupts s.sched.curptr).setWidth 32)
      (hreported : Reported s k) (hdone : ¬ Done s input k)
  | silent (hstatus : status s k = status s s) (hsilent : Silent s) (hdone : Done s input k)
      (hreported : ¬ Reported s k)

/-! ## Calls one by one -/

section

omit [Layout]

theorem not_reported_of_interrupts (h : k.interrupts = s.interrupts) : ¬ Reported s k := by
  intro hreported
  exact hreported.pending (h ▸ hreported.taken)

theorem not_reported_of_call (h : (s.regs s.sched.curptr).eaxReg.toNat ≠ 2) : ¬ Reported s k :=
  fun hreported => h hreported.call

theorem status_setErr : status s (t.setErr s.sched.curptr err) = err :=
  congrArg Regs.esiReg setErr_regs_self

theorem refused_setErr (herr : err.toInt < 0)
    (hdone : ¬ Done s input (s.setErr s.sched.curptr err)) :
    Ended s input (s.setErr s.sched.curptr err) := by
  refine .refused ?_ ?_ hdone
  · rw [status_setErr]
    exact herr
  · rw [setErr_regs_self]
    rfl

theorem not_copied_of_exchanges {a b : Ptr} (h : k.exchanges = s.exchanges) :
    ¬ Copied s a b k := by
  intro hcopied
  exact List.cons_ne_self _ _ (hcopied.exchanges.symm.trans h)

theorem Copied.of_setRegs {f : Regs → Regs} {a b : Ptr} (hf : SparesMessage f)
    (h : Copied (s.setRegs p f) a b k) : Copied s a b k := by
  unfold Copied at h
  rw [exchangeData_setRegs hf] at h
  exact ⟨h.mem, h.exchanges⟩

theorem ended_syscallSetFeature (heax : (s.regs s.sched.curptr).eaxReg.toNat = 1)
    (h : s.syscallSetFeature = some k) : Ended s input k := by
  obtain ⟨checked, hchecked, h⟩ := Option.bind_eq_some_iff.mp h
  split at h
  next hbad =>
    obtain rfl := Option.some.inj h
    refine refused_setErr (by decide) ?_
    rw [Done, heax]
    rintro ⟨hok, -⟩
    exact hbad (Option.some.inj (hchecked.symm.trans hok))
  next hok =>
    rw [ne_eq, not_not] at hok
    subst hok
    obtain ⟨⟨t, result⟩, ht, rfl⟩ := Option.map_eq_some_iff.mp h
    obtain ⟨idx, hidx, ht⟩ := Option.map_eq_some_iff.mp ht
    split at ht
    next hbusy =>
      obtain ⟨rfl, rfl⟩ := Prod.mk.inj ht
      refine refused_setErr (by decide) ?_
      rw [Done, heax]
      rintro ⟨-, i, hi, hfree, -⟩
      obtain rfl := Option.some.inj (hidx.symm.trans hi)
      exact hbusy hfree
    next hfree =>
      rw [ne_eq, not_not] at hfree
      obtain ⟨rfl, rfl⟩ := Prod.mk.inj ht
      refine .done status_setErr ?_ (not_reported_of_call (by simp [heax]))
      rw [Done, heax]
      exact ⟨hchecked, idx, hidx, hfree, update_self .., update_self ..⟩

theorem ended_syscallRequestIrq (heax : (s.regs s.sched.curptr).eaxReg.toNat = 4) :
    Ended s input s.syscallRequestIrq := by
  unfold syscallRequestIrq
  dsimp only
  split
  next hbad =>
    refine refused_setErr (by decide) ?_
    rw [Done, heax]
    rintro ⟨-, h0, h2, hle⟩
    omega
  next hgood =>
    split
    next hused =>
      refine refused_setErr (by decide) ?_
      rw [Done, heax]
      rintro ⟨hown, -⟩
      exact hused.2 hown
    next =>
      refine .done status_setErr ?_ (not_reported_of_call (by simp [heax]))
      rw [Done, heax]
      exact ⟨update_self .., by omega, by omega, by omega⟩

/-- A call that accesses a port, and is refused to all but the process that claimed it. -/
theorem ended_access {refused : Bool} {access : PortAccess} {n : Nat} (hn : n ≠ 2)
    (heax : (s.regs s.sched.curptr).eaxReg.toNat = n)
    (ht : t.portLog = access :: s.portLog)
    (hlog : ∀ k, Done s input k → k.portLog = t.portLog)
    (hdone : Done s input (t.setErr s.sched.curptr Err.ok)) :
    Ended s input (if refused then s.setErr s.sched.curptr Err.noPerms
      else t.setErr s.sched.curptr Err.ok) := by
  split
  next =>
    refine refused_setErr (by decide) fun hdone => ?_
    exact List.cons_ne_self _ _ (ht.symm.trans (hlog _ hdone).symm)
  next => exact .done status_setErr hdone (not_reported_of_call (by rwa [heax]))

theorem setEax_regs_self {value : Word} :
    (s.setEax p value).regs p = { s.regs p with eaxReg := value } := update_self ..

theorem ended_syscallInb (heax : (s.regs s.sched.curptr).eaxReg.toNat = 5) :
    Ended s input (s.syscallInb input) := by
  refine ended_access (by decide) heax rfl (fun k hdone => ?_) ?_
  · rw [Done, heax] at hdone
    exact hdone.1
  · rw [Done, heax]
    refine ⟨rfl, ?_⟩
    rw [setErr_regs_self, setEax_regs_self]

theorem ended_syscallInw (heax : (s.regs s.sched.curptr).eaxReg.toNat = 8) :
    Ended s input (s.syscallInw input) := by
  refine ended_access (by decide) heax rfl (fun k hdone => ?_) ?_
  · rw [Done, heax] at hdone
    exact hdone.1
  · rw [Done, heax]
    refine ⟨rfl, ?_⟩
    rw [setErr_regs_self, setEax_regs_self]

theorem ended_syscallOutb (heax : (s.regs s.sched.curptr).eaxReg.toNat = 7) :
    Ended s input s.syscallOutb := by
  refine ended_access (by decide) heax rfl (fun k hdone => ?_) ?_
  · rwa [Done, heax] at hdone
  · rw [Done, heax]
    rfl

theorem ended_syscallOutw (heax : (s.regs s.sched.curptr).eaxReg.toNat = 9) :
    Ended s input s.syscallOutw := by
  refine ended_access (by decide) heax rfl (fun k hdone => ?_) ?_
  · rwa [Done, heax] at hdone
  · rw [Done, heax]
    rfl

theorem ended_syscallClaimPort (heax : (s.regs s.sched.curptr).eaxReg.toNat = 6) :
    Ended s input s.syscallClaimPort := by
  unfold syscallClaimPort
  dsimp only
  split
  next htaken =>
    refine refused_setErr (by decide) ?_
    rw [Done, heax]
    exact htaken.2
  next hfree =>
    refine .silent rfl (Or.inl ⟨heax, ?_⟩) ?_ (not_reported_of_call (by simp [heax]))
    · tauto
    · rw [Done, heax]
      exact update_self ..

theorem ended_syscallVir2phys (heax : (s.regs s.sched.curptr).eaxReg.toNat = 10) :
    Ended s input s.syscallVir2phys := by
  unfold syscallVir2phys
  dsimp only
  split
  next hbad =>
    refine refused_setErr (by decide) ?_
    rw [Done, heax]
    exact fun hdone => hbad hdone.1
  next hgood =>
    rw [ne_eq, not_not] at hgood
    refine .silent ?_ (Or.inr ⟨heax, hgood⟩) ?_ (not_reported_of_call (by simp [heax]))
    · rw [status, setEax_regs_self]
      rfl
    · rw [Done, heax]
      refine ⟨hgood, ?_⟩
      rw [setEax_regs_self]

theorem sameMessages_unsetStateFlag {f : BitVec 8} (h : s.unsetStateFlag p f = some k) :
    SameMessages s k := by
  rw [unsetStateFlag_eq h]
  exact ⟨rfl, rfl⟩

theorem sameMessages_clearReceivingFrom (h : s.clearReceivingFrom r = some k) :
    SameMessages s k := by
  obtain ⟨hmem, hexchanges⟩ := sameMessages_unsetStateFlag h
  exact ⟨hmem, hexchanges⟩

theorem sameMessages_removeFromSendersList (h : s.removeFromSendersList x r = some k) :
    SameMessages s k := by
  obtain ⟨⟨previous, cur⟩, -, h⟩ := Option.bind_eq_some_iff.mp h
  obtain ⟨hmem, hexchanges⟩ := sameMessages_unsetStateFlag h
  constructor
  · refine hmem.trans ?_
    dsimp only
    split
    next => rfl
    next => rfl
  · refine hexchanges.trans ?_
    dsimp only
    split
    next => rfl
    next => rfl

/-- A sender the receive finds is one it accepts. -/
theorem getSender_accepts {desired sender : Ptr} (h : s.getSender desired r = some sender)
    (hsender : sender ≠ null) : Accepts desired sender := by
  unfold getSender at h
  split at h
  next => exact absurd (Option.some.inj h).symm hsender
  next =>
    split at h
    next hany => exact Or.inl hany
    next =>
      obtain ⟨⟨previous, cur⟩, -, rfl⟩ := Option.map_eq_some_iff.mp h
      dsimp only at hsender ⊢
      split at hsender
      next => exact absurd rfl hsender
      next hcur =>
        rw [if_neg hcur]
        exact Or.inr rfl

end

/-- How `syscall_send` ends, for any of the calls that send. -/
theorem syscallSend_ended (h : s.syscallSend = some k)
    (hon : k.sched.isEnqueued s.sched.curptr = true) :
    k = s.setErr s.sched.curptr Err.invalidBuffer ∨
      status s k = Err.ok ∧ Copied s s.sched.curptr (s.regs s.sched.curptr).ebxReg k := by
  unfold syscallSend at h
  dsimp only at h
  split at h
  next => exact Or.inl (Option.some.inj h).symm
  next =>
    split at h
    next =>
      obtain ⟨t, ht, rfl⟩ := Option.map_eq_some_iff.mp h
      obtain ⟨hmem, hexchanges⟩ := sameMessages_clearReceivingFrom ht
      refine Or.inr ⟨?_, hmem, hexchanges⟩
      obtain hself | hother := Decidable.em ((s.regs s.sched.curptr).ebxReg = s.sched.curptr)
      · rw [hself]
        exact status_setErr
      · exact (congrArg Regs.esiReg (update_of_ne (Ne.symm hother) _ _)).trans status_setErr
    next => exact absurd hon (by simp [addToSendersList_off h])

theorem ended_syscallSendByFeature (heax : (s.regs s.sched.curptr).eaxReg.toNat = 3)
    (h : s.syscallSendByFeature = some k) (hon : k.sched.isEnqueued s.sched.curptr = true) :
    Ended s input k := by
  have hnot : ¬ Reported s k := not_reported_of_call (by simp [heax])
  -- a call that is refused has copied nothing
  have hdone : k.exchanges = s.exchanges → ¬ Done s input k := by
    intro hexchanges hdone
    rw [Done, heax] at hdone
    obtain ⟨receiver, -, hcopied⟩ := hdone
    exact not_copied_of_exchanges hexchanges hcopied
  obtain ⟨checked, -, h⟩ := Option.bind_eq_some_iff.mp h
  split at h
  next =>
    obtain rfl := Option.some.inj h
    exact refused_setErr (by decide) (hdone rfl)
  next =>
    obtain ⟨receiver, hreceiver, h⟩ := Option.bind_eq_some_iff.mp h
    split at h
    next =>
      obtain rfl := Option.some.inj h
      exact refused_setErr (by decide) (hdone rfl)
    next =>
      split at h
      next =>
        have hebx : ((s.setRegs s.sched.curptr fun regs => { regs with ebxReg := receiver }).regs
            s.sched.curptr).ebxReg = receiver := by simp [setRegs]
        obtain rfl | ⟨hok, hcopied⟩ := syscallSend_ended h hon
        · refine .refused ?_ ?_ (hdone rfl)
          · exact (congrArg BitVec.toInt status_setErr).trans_lt (by decide)
          · simp [setErr, setRegs]
        · refine .done hok ?_ hnot
          rw [Done, heax]
          refine ⟨receiver, hreceiver, ?_⟩
          have hto := Copied.of_setRegs (sparesMessage_ebxReg receiver) hcopied
          rw [← hebx]
          exact hto
      next =>
        split at h
        next =>
          obtain ⟨t, -, h⟩ := Option.bind_eq_some_iff.mp h
          exact absurd hon (by simp [dequeue_off h])
        next =>
          obtain rfl := Option.some.inj h
          exact refused_setErr (by decide) (hdone rfl)

theorem ended_syscallReceive (heax : (s.regs s.sched.curptr).eaxReg.toNat = 2)
    (h : s.syscallReceive = some k) (hon : k.sched.isEnqueued s.sched.curptr = true) :
    Ended s input k := by
  have hdone : k.exchanges = s.exchanges → ¬ Done s input k := by
    intro hexchanges hdone
    rw [Done, heax] at hdone
    obtain ⟨sender, -, hcopied⟩ := hdone
    exact not_copied_of_exchanges hexchanges hcopied
  unfold syscallReceive at h
  dsimp only at h
  split at h
  next =>
    obtain rfl := Option.some.inj h
    exact refused_setErr (by decide) (hdone rfl)
  next =>
    split at h
    next hpending =>
      obtain rfl := Option.some.inj h
      refine .reported ?_ ⟨heax, hpending, update_self ..⟩ (hdone rfl)
      rw [status, setEax_regs_self]
      exact status_setErr
    next hnone =>
      obtain ⟨sender, hsender, h⟩ := Option.bind_eq_some_iff.mp h
      split at h
      next hfound =>
        obtain ⟨t, ht, rfl⟩ := Option.map_eq_some_iff.mp h
        obtain ⟨hmem, hexchanges⟩ := sameMessages_removeFromSendersList ht
        refine .done status_setErr ?_ fun hreported => hnone hreported.pending
        rw [Done, heax]
        exact ⟨sender, getSender_accepts hsender hfound, hmem, hexchanges⟩
      next => exact absurd hon (by simp [markAsReceivingFrom_off h])

/-- The interrupts a receive reports are those that were pending. -/
theorem Reported.mask (hreported : Reported s k) (h : s.syscallReceive = some k) :
    status s k = (s.interrupts s.sched.curptr).setWidth 32 := by
  unfold syscallReceive at h
  dsimp only at h
  split at h
  next =>
    obtain rfl := Option.some.inj h
    exact absurd hreported (not_reported_of_interrupts rfl)
  next =>
    rw [if_pos hreported.pending] at h
    obtain rfl := Option.some.inj h
    rw [status, setEax_regs_self]
    exact status_setErr

theorem syscallIsr_ended (h : s.syscallIsr input = some k)
    (hexit : (s.regs s.sched.curptr).eaxReg.toNat ≠ 0)
    (hon : k.sched.isEnqueued s.sched.curptr = true) : Ended s input k := by
  unfold syscallIsr at h
  split at h
  next heax => exact absurd heax hexit
  next heax => exact ended_syscallSetFeature heax h
  next heax => exact ended_syscallReceive heax h hon
  next heax => exact ended_syscallSendByFeature heax h hon
  next heax =>
    obtain rfl := Option.some.inj h
    exact ended_syscallRequestIrq heax
  next heax =>
    obtain rfl := Option.some.inj h
    exact ended_syscallInb heax
  next heax =>
    obtain rfl := Option.some.inj h
    exact ended_syscallClaimPort heax
  next heax =>
    obtain rfl := Option.some.inj h
    exact ended_syscallOutb heax
  next heax =>
    obtain rfl := Option.some.inj h
    exact ended_syscallInw heax
  next heax =>
    obtain rfl := Option.some.inj h
    exact ended_syscallOutw heax
  next heax =>
    obtain rfl := Option.some.inj h
    exact ended_syscallVir2phys heax
  next =>
    obtain rfl := Option.some.inj h
    refine refused_setErr (by decide) ?_
    unfold Done
    dsimp only
    split <;> simp_all

/-! ## The status -/

omit [Layout] in
theorem toInt_mask_pos {b : BitVec 16} (hb : b ≠ 0) : 0 < (b.setWidth 32).toInt := by
  have hlt := b.isLt
  have hpos : 0 < b.toNat := Nat.pos_of_ne_zero fun h0 => hb (BitVec.eq_of_toNat_eq h0)
  have hnat : (b.setWidth 32).toNat = b.toNat := by
    rw [BitVec.toNat_setWidth]
    exact Nat.mod_eq_of_lt (by omega)
  rw [BitVec.toInt_eq_toNat_of_lt (by omega), hnat]
  exact_mod_cast hpos

omit [Layout] in
theorem Ended.honest (h : Ended s input k) (hs : ¬ Silent s ∨ status s s = Err.ok) :
    Honest s input k := by
  have hzero : Err.ok.toInt = 0 := by decide
  -- a status that is no error code and no mask
  have hdone : status s k = Err.ok → Done s input k → ¬ Reported s k → Honest s input k := by
    intro hstatus hdone hreported
    refine ⟨iff_of_true hstatus hdone, iff_of_false ?_ hreported, fun h => absurd h hreported,
      fun h => absurd hdone h, fun h => absurd hdone h⟩
    rw [hstatus, hzero]
    decide
  cases h with
  | refused hstatus honly hnot =>
      have hreported : ¬ Reported s k := by
        apply not_reported_of_interrupts
        rw [← honly]
        rfl
      refine ⟨iff_of_false ?_ hnot, iff_of_false (by omega) hreported,
        fun h => absurd h hreported, fun _ _ => hstatus, fun _ _ => honly⟩
      intro hok
      rw [hok, hzero] at hstatus
      exact absurd hstatus (by decide)
  | done hstatus hcarried hreported => exact hdone hstatus hcarried hreported
  | reported hstatus hreported hnot =>
      have hpos := toInt_mask_pos hreported.pending
      rw [← hstatus] at hpos
      refine ⟨iff_of_false ?_ hnot, iff_of_true hpos hreported, fun _ => hstatus,
        fun _ h => absurd hreported h, fun _ h => absurd hreported h⟩
      intro hok
      rw [hok, hzero] at hpos
      exact absurd hpos (by decide)
  | silent hstatus hsilent hcarried hreported =>
      exact hdone (hstatus.trans (hs.resolve_left (not_not.mpr hsilent))) hcarried hreported

/-- A silent call is carried out and leaves the status it finds. -/
theorem status_of_silent (input : Word) (hs : Silent s) :
    ∃ k, s.syscallIsr input = some k ∧ status s k = status s s ∧ Done s input k := by
  obtain ⟨heax, hfree⟩ | ⟨heax, hgood⟩ := hs
  · refine ⟨s.syscallClaimPort, by simp only [syscallIsr, heax], ?_⟩
    unfold syscallClaimPort
    dsimp only
    rw [if_neg (by tauto)]
    refine ⟨rfl, ?_⟩
    rw [Done, heax]
    exact update_self ..
  · refine ⟨s.syscallVir2phys, by simp only [syscallIsr, heax], ?_⟩
    unfold syscallVir2phys
    dsimp only
    rw [if_neg (not_not.mpr hgood), status, setEax_regs_self]
    refine ⟨rfl, ?_⟩
    rw [Done, heax]
    exact ⟨hgood, congrArg Regs.eaxReg setEax_regs_self⟩

omit [Layout] in
theorem silent_setErr (hs : Silent s) : Silent (s.setErr s.sched.curptr v) := by
  have hcur : (s.setErr s.sched.curptr v).sched.curptr = s.sched.curptr := rfl
  unfold Silent
  rw [hcur, setErr_regs_self]
  dsimp only
  rw [validateDataArea_setErr]
  exact hs

/-- A silent call looks right if its caller cleared the register. -/
theorem honest_iff (h : s.syscallIsr input = some k)
    (hexit : (s.regs s.sched.curptr).eaxReg.toNat ≠ 0)
    (hon : k.sched.isEnqueued s.sched.curptr = true) :
    Honest s input k ↔ ¬ Silent s ∨ status s s = Err.ok := by
  constructor
  · intro hhonest
    refine Decidable.not_or_of_imp fun hs => ?_
    obtain ⟨k', hk', hstatus, hdone⟩ := status_of_silent input hs
    obtain rfl := Option.some.inj (h.symm.trans hk')
    exact hstatus.symm.trans (hhonest.ok.mpr hdone)
  · exact (syscallIsr_ended h hexit hon).honest

/-- The first process to run makes a system call. -/
def firstCall (regs : Regs) : Option Kernel := (mainRun [.tick]).map fun s => s.saveContext regs

end Kernel

end Mycrokernel
