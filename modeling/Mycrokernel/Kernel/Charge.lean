import Mycrokernel.Kernel.Boot

/-!
# Who is charged

The calls of `charge_process` that an interrupt makes (`interruptCharges`): those in the loop of
`dequeue`, and the one at the end of `do_hard_int`.  The history of the scheduler has
just these (`charges_logged`).

In the loop it is always the process that is leaving that is charged.  The call at the
end of `do_hard_int` is another matter.  At the first interrupt there is no current process yet,
and `charge_process` follows `NULL`.  And `dequeue` lets `curptr` be when the last process leaves
the queue, so that a process is charged that blocks or that is gone.
`charges_fine_iff` says that there are no others.
-/

namespace Mycrokernel

open Function (update update_self update_of_ne)
open PointerList

namespace TickOp

def isCharge : TickOp → Bool
  | charge .. => true
  | catchUp .. => false

end TickOp

namespace Sched

/-- A call of `charge_process`. -/
structure Charge where
  /-- The variables it finds. -/
  sched : Sched
  /-- The process that the `dequeue` around it removes, if it is in one. -/
  leaving : Option Ptr

/-- It charges the idle task, a process that is `ENQUEUED`, or the one that is being removed and
is still linked. -/
def Charge.Fine [Layout] (c : Charge) : Prop :=
  c.sched.curptr ≠ null ∧
    (c.sched.curptr = idlestate ∨ c.sched.isEnqueued c.sched.curptr = true ∨
      c.leaving = some c.sched.curptr ∧
        ∃ q, Chain c.sched.next null c.sched.schedqueue.head q ∧ c.sched.curptr ∈ q)

variable [Layout] {procs : Finset Ptr} {s s' t u : Sched} {p x : Ptr} {q : List Ptr} {c : Charge}

/-- The calls in the loop of `dequeue`. -/
def loopCharges (process : Ptr) : Nat → Sched → List Charge
  | 0, _ => []
  | n + 1, s =>
    let k := s.chargeProcess.pickNextProc
    let k := { k with curptr := k.nextptr }
    ⟨s, some process⟩ :: if k.nextptr = process then loopCharges process n k else []

/-- The calls in `dequeue`. -/
def dequeueCharges (s : Sched) (process : Ptr) : List Charge :=
  if !s.isEnqueued process then []
  else
    let s := { s with misc := update s.misc process (s.misc process &&& ~~~Flag.enqueued) }
    if s.schedqueue.schedticks = s.schedticks process then []
    else if s.curptr = process then loopCharges process (2 ^ 32 + 2) s
    else []

/-- What a call puts down in the history. -/
def Charge.entry (c : Charge) : Option TickOp :=
  if c.sched.curptr = idlestate then none
  else some (.charge c.sched.curptr (c.sched.ticksleft c.sched.curptr) c.sched.schedqueue.ticksleft)

/-- The calls in the history, the latest first. -/
def logged (s : Sched) : List TickOp := s.tickLog.filter TickOp.isCharge

/-- The history after these calls. -/
def after (cs : List Charge) (log : List TickOp) : List TickOp :=
  (cs.filterMap Charge.entry).reverse ++ log

/-! ## The calls of `dequeue` -/

theorem after_nil (log : List TickOp) : after [] log = log := rfl

theorem after_append (cs ds : List Charge) (log : List TickOp) :
    after (cs ++ ds) log = after ds (after cs log) := by
  rw [after, after, after, List.filterMap_append, List.reverse_append, List.append_assoc]

theorem logged_chargeProcess (s : Sched) (leaving : Option Ptr) :
    s.chargeProcess.logged = after [⟨s, leaving⟩] s.logged := by
  unfold chargeProcess after
  rw [List.filterMap_cons]
  unfold Charge.entry
  dsimp only
  split
  next => rfl
  next => rfl

theorem logged_round (s : Sched) (p : Ptr) : s.round.logged = after [⟨s, some p⟩] s.logged := by
  rw [← logged_chargeProcess s]
  exact congrArg (List.filter _) (pickNextProc_tickLog s.chargeProcess)

theorem loopCharges_succ (p : Ptr) (n : Nat) (s : Sched) :
    loopCharges p (n + 1) s =
      ⟨s, some p⟩ :: if s.round.nextptr = p then loopCharges p n s.round else [] := rfl

/-- The loop puts down its calls. -/
theorem logged_pickOther {n : Nat} (h : pickOther p n s = some t) :
    t.logged = after (loopCharges p n s) s.logged := by
  induction n generalizing s with
  | zero => exact absurd h (by simp [pickOther])
  | succ n ih =>
      rw [pickOther_succ] at h
      rw [loopCharges_succ, ← List.singleton_append, after_append, ← logged_round]
      split at h
      next hagain =>
        rw [if_pos hagain]
        exact ih h
      next hother =>
        rw [if_neg hother, after_nil, Option.some.inj h]

theorem logged_dequeue (h : s.dequeue p = some t) :
    t.logged = after (s.dequeueCharges p) s.logged := by
  unfold dequeue at h
  unfold dequeueCharges
  dsimp only at h ⊢
  split at h
  next hoff =>
    rw [if_pos hoff, after_nil, Option.some.inj h]
  next hon =>
    rw [if_neg hon]
    split at h
    next hsole =>
      rw [if_pos hsole, after_nil, ← Option.some.inj h]
      rfl
    next hmore =>
      rw [if_neg hmore]
      obtain ⟨u, hu, rfl⟩ := Option.map_eq_some_iff.1 h
      have hunlink : (u.unlink p).logged = u.logged := congrArg (List.filter _) (unlink_tickLog u p)
      rw [hunlink]
      split at hu
      next hcur =>
        rw [if_pos hcur]
        exact logged_pickOther hu
      next hcur =>
        rw [if_neg hcur, after_nil, ← Option.some.inj hu]
        rfl

/-- In the loop the process that leaves is charged. -/
theorem loopCharges_spec {n : Nat} (hcur : s.curptr = p) (hc : c ∈ loopCharges p n s) :
    c.leaving = some p ∧ c.sched.curptr = p ∧ SameQueue s c.sched := by
  induction n generalizing s with
  | zero => exact absurd hc List.not_mem_nil
  | succ n ih =>
      rw [loopCharges_succ] at hc
      rcases List.mem_cons.1 hc with rfl | hc
      · exact ⟨rfl, hcur, .rfl⟩
      · split at hc
        next hagain =>
          obtain ⟨hleaving, hcur', hsame⟩ := ih hagain hc
          exact ⟨hleaving, hcur', (sameQueue_round s).trans hsame⟩
        next => exact absurd hc List.not_mem_nil

/-- All calls of `dequeue` are fine. -/
theorem QueueInv.dequeueCharges_fine (hq : QueueInv procs s q) (hp : p ∈ q)
    (hc : c ∈ s.dequeueCharges p) : c.Fine := by
  unfold dequeueCharges at hc
  dsimp only at hc
  split at hc
  next => exact absurd hc List.not_mem_nil
  next =>
    split at hc
    next => exact absurd hc List.not_mem_nil
    next =>
      split at hc
      next hcur =>
        have hlinks := hq.toQueueLinks.withMisc (update s.misc p (s.misc p &&& ~~~Flag.enqueued))
        obtain ⟨hleaving, hcur', hsame⟩ := loopCharges_spec (by exact hcur) hc
        have hlinked := hlinks.linked.congr hsame
        rw [Charge.Fine, hcur']
        exact ⟨hlinked.ne_null hp, .inr (.inr ⟨hleaving, q, hlinked.chain, hp⟩)⟩
      next => exact absurd hc List.not_mem_nil

/-! ## What waking processes does -/

/-- Processes have entered the queue, if anything has happened. -/
structure Woken (s t : Sched) : Prop where
  curptr : t.curptr = s.curptr
  nextptr : t.nextptr = s.nextptr
  isEnqueued : ∀ x, s.isEnqueued x = true → t.isEnqueued x = true
  logged : t.logged = s.logged

section

omit [Layout]

theorem Woken.refl (s : Sched) : Woken s s := ⟨rfl, rfl, fun _ h => h, rfl⟩

theorem Woken.trans (h : Woken s t) (h' : Woken t u) : Woken s u :=
  ⟨h'.curptr.trans h.curptr, h'.nextptr.trans h.nextptr,
    fun x hx => h'.isEnqueued x (h.isEnqueued x hx), h'.logged.trans h.logged⟩

theorem sameTicks_insert (h : s.insert p = some t) : SameTicks s t := by
  unfold insert at h
  obtain ⟨⟨previous, cur⟩, -, rfl⟩ := Option.map_eq_some_iff.1 h
  constructor <;> dsimp only <;> split_ifs <;> rfl

theorem woken_enqueue (h : s.enqueue p = some t) : Woken s t := by
  unfold enqueue at h
  split at h
  next =>
    rw [Option.some.inj h]
    exact .refl t
  next =>
    obtain ⟨u, hu, rfl⟩ := Option.map_eq_some_iff.1 h
    have hticks : SameTicks (s := { s with misc := update s.misc p (s.misc p ||| Flag.enqueued) })
        u := by
      split at hu
      next =>
        rw [← Option.some.inj hu]
        exact sameTicks_relink _ p
      next => exact sameTicks_insert hu
    refine ⟨?_, ?_, fun x hx => ?_, ?_⟩
    · rw [catchUp_curptr, hticks.curptr]
    · rw [catchUp_nextptr, hticks.nextptr]
    · rw [Sched.isEnqueued, catchUp_misc, hticks.misc]
      dsimp only
      cases Decidable.em (x = p) with
      | inl heq => rw [heq, update_self, Flag.or_enqueued_and]
      | inr hne =>
          rw [update_of_ne hne]
          exact hx
    · have hlog : u.tickLog = s.tickLog := hticks.tickLog
      unfold logged catchUp
      dsimp only
      split
      · exact congrArg (List.filter _) hlog
      · exact (List.filter_cons_of_neg (by simp [TickOp.isCharge])).trans (congrArg (List.filter _) hlog)

end

end Sched

namespace Kernel

open Sched (QueueInv Woken Charge)

variable [Layout] {procs : Finset Ptr} {s s' k : Kernel} {m : Rendezvous Ptr Nat} {p r : Ptr}
  {q : List Ptr} {e : Event} {f : BitVec 8} {number : Nat} {input : Word} {blocked : Option Sched}

/-! ## The calls that take their caller off the queue -/

/-- `syscall_receive` blocks. -/
def receiveBlocks (s : Kernel) : Bool :=
  let curptr := s.sched.curptr
  let regs := s.regs curptr
  s.validateDataArea curptr regs.edxReg regs.ecxReg = 0 ∧ s.interrupts curptr = 0 ∧
    s.getSender regs.ebxReg curptr = some null

/-- `syscall_send` to `receiver` blocks. -/
def sendBlocks (s : Kernel) (receiver : Ptr) : Bool :=
  let curptr := s.sched.curptr
  let regs := s.regs curptr
  s.validateDataArea curptr regs.edxReg regs.ecxReg = 0 ∧
    s.isReceivingFrom receiver curptr = false

/-- `syscall_send_by_feature` blocks. -/
def sendByFeatureBlocks (s : Kernel) : Bool :=
  let curptr := s.sched.curptr
  let regs := s.regs curptr
  checkFeature regs.ebxReg = some 0 &&
    match s.getProcessByFeature regs.ebxReg with
    | none => false
    | some receiver =>
      receiver ≠ curptr && if receiver ≠ null then s.sendBlocks receiver else regs.ediReg = 1

/-- The system call blocks, or it is an exit. -/
def blocks (s : Kernel) (number : Nat) : Bool :=
  if number = 2 then
    match (s.regs s.sched.curptr).eaxReg.toNat with
    | 0 => true
    | 2 => s.receiveBlocks
    | 3 => s.sendByFeatureBlocks
    | _ => false
  else false

/-- The scheduler variables when a call that blocks calls `dequeue`. -/
def blockedSched (s : Kernel) : Option Sched :=
  if (s.regs s.sched.curptr).eaxReg.toNat = 0 then s.exitUnblocked.map fun k => k.sched
  else some s.sched

/-- The calls of `charge_process` in `do_hard_int`, before its label `finish`. -/
def handleCharges (s : Kernel) (number : Nat) : List Charge :=
  if s.blocks number then
    match s.blockedSched with
    | none => []
    | some t => t.dequeueCharges s.sched.curptr
  else []

/-- The calls of `charge_process` from the label `finish` on. -/
def finishCharges (s : Kernel) : List Charge :=
  if s.sched.nextptr = null then [⟨s.sched, none⟩] else []

/-- The calls of `charge_process` in an interrupt. -/
def interruptCharges (s : Kernel) (e : Event) : List Charge :=
  let s := s.saveContext e.regs
  s.handleCharges e.number ++
    match s.handle e.number e.input with
    | none => []
    | some k => k.finishCharges

/-- What a handler does to the scheduler: it wakes processes, and takes its caller off the queue
last, if it blocks. -/
structure Handles (s : Kernel) (blocks : Bool) (blocked : Option Sched) (k : Kernel) : Prop where
  stays : blocks = false → Woken s.sched k.sched
  leaves : blocks = true →
    ∃ t, blocked = some t ∧ Woken s.sched t ∧ t.dequeue s.sched.curptr = some k.sched

theorem Handles.of_stays (h : Woken s.sched k.sched) :
    Handles s false blocked k := ⟨fun _ => h, fun h => absurd h (by decide)⟩

omit [Layout] in
theorem woken_of_unset (h : s.unsetStateFlag p f = some k) : Woken s.sched k.sched := by
  unfold unsetStateFlag at h
  dsimp only at h
  split at h
  next =>
    obtain ⟨sched, hsched, rfl⟩ := Option.map_eq_some_iff.1 h
    exact Sched.woken_enqueue hsched
  next =>
    rw [← Option.some.inj h]
    exact .refl _

theorem dequeue_of_set (h : s.setStateFlag p f = some k) : s.sched.dequeue p = some k.sched := by
  obtain ⟨sched, hsched, rfl⟩ := Option.map_eq_some_iff.1 h
  exact hsched

omit [Layout] in
theorem woken_of_cleared (h : s.clearReceivingFrom p = some k) : Woken s.sched k.sched := by
  unfold clearReceivingFrom at h
  dsimp only at h
  have hwoken := woken_of_unset h
  exact hwoken

theorem dequeue_of_marked (h : s.markAsReceivingFrom p r = some k) :
    s.sched.dequeue p = some k.sched := by
  unfold markAsReceivingFrom at h
  dsimp only at h
  have hleft := dequeue_of_set h
  exact hleft

theorem dequeue_of_waiting {feature : Word} {t : Kernel} (hadd : s.addWaitingForFeature p feature = some t)
    (h : t.dequeue p = some k) : s.sched.dequeue p = some k.sched := by
  obtain ⟨idx, -, hadd⟩ := Option.bind_eq_some_iff.1 hadd
  obtain ⟨⟨previous, cur⟩, -, rfl⟩ := Option.map_eq_some_iff.1 hadd
  obtain ⟨sched, hsched, rfl⟩ := Option.map_eq_some_iff.1 h
  dsimp only at hsched
  split at hsched
  next => exact hsched
  next => exact hsched

omit [Layout] in
theorem woken_of_removed (h : s.removeFromSendersList p r = some k) :
    Woken s.sched k.sched := by
  unfold removeFromSendersList at h
  obtain ⟨⟨previous, cur⟩, -, h⟩ := Option.bind_eq_some_iff.1 h
  have hwoken := woken_of_unset h
  dsimp only at hwoken
  split at hwoken
  next => exact hwoken
  next => exact hwoken

theorem dequeue_of_added (h : s.addToSendersList p r = some k) :
    s.sched.dequeue p = some k.sched := by
  unfold addToSendersList at h
  obtain ⟨⟨previous, cur⟩, -, h⟩ := Option.bind_eq_some_iff.1 h
  have hleft := dequeue_of_set h
  dsimp only at hleft
  split at hleft
  next => exact hleft
  next => exact hleft

omit [Layout] in
theorem woken_of_unblocked {n : Nat} (h : unblockWaitingSenders p n s = some k) :
    Woken s.sched k.sched := by
  induction n generalizing s with
  | zero => exact absurd h (by simp [unblockWaitingSenders])
  | succ n ih =>
      rw [unblockWaitingSenders] at h
      split at h
      next =>
        obtain ⟨t, ht, h⟩ := Option.bind_eq_some_iff.1 h
        dsimp only at h
        have hrest := ih h
        exact (woken_of_unset ht).trans hrest
      next =>
        rw [Option.some.inj h]
        exact .refl _

theorem handles_syscallExit (h : s.syscallExit = some k) :
    Handles s true (s.exitUnblocked.map fun k => k.sched) k := by
  refine ⟨fun h => absurd h (by decide), fun _ => ?_⟩
  rw [syscallExit_eq_bind] at h
  obtain ⟨t, ht, h⟩ := Option.bind_eq_some_iff.1 h
  obtain ⟨u, hu, hrel, -⟩ := exitUnblocked_eq (s := s) rfl
  obtain ⟨sched, hsched, rfl⟩ := Option.map_eq_some_iff.1 h
  refine ⟨t.sched, by rw [ht, Option.map_some], ?_, hsched⟩
  have hsame : u.sched = s.sched := hrel.sched
  rw [← hsame]
  exact woken_of_unblocked (hu.symm.trans ht)

theorem handles_syscallSend (hreg : (s.regs s.sched.curptr).ebxReg = r)
    (h : s.syscallSend = some k) : Handles s (s.sendBlocks r) (some s.sched) k := by
  unfold syscallSend at h
  dsimp only at h
  rw [hreg] at h
  unfold sendBlocks
  dsimp only
  split at h
  next hbuf =>
    rw [← Option.some.inj h]
    simp only [hbuf, false_and, decide_false]
    exact .of_stays (.refl _)
  next hbuf =>
    rw [not_not] at hbuf
    split at h
    next hrecv =>
      obtain ⟨u, hu, rfl⟩ := Option.map_eq_some_iff.1 h
      simp only [hrecv, Bool.true_eq_false, and_false, decide_false]
      have hwoken := woken_of_cleared hu
      exact .of_stays hwoken
    next hrecv =>
      rw [Bool.not_eq_true] at hrecv
      simp only [hbuf, hrecv, and_self, decide_true]
      exact ⟨fun h => absurd h (by decide), fun _ =>
        ⟨s.sched, rfl, .refl _, dequeue_of_added h⟩⟩

omit [Layout] in
/-- The register that `syscall_send_by_feature` writes does not matter to `sendBlocks`. -/
theorem sendBlocks_setRegs (s : Kernel) (v : Word) (r : Ptr) :
    (s.setRegs s.sched.curptr fun c => { c with ebxReg := v }).sendBlocks r = s.sendBlocks r := by
  generalize ht : (s.setRegs s.sched.curptr fun c => { c with ebxReg := v }) = t
  have hsched : t.sched = s.sched := by rw [← ht]; rfl
  have hregs : t.regs s.sched.curptr = { s.regs s.sched.curptr with ebxReg := v } := by
    rw [← ht]
    exact update_self ..
  have hvalid : ∀ mem size, t.validateDataArea s.sched.curptr mem size =
      s.validateDataArea s.sched.curptr mem size := by
    refine fun mem size => validateDataArea_congr (by rw [hregs]) (fun idx => ?_) mem size
    rw [← ht]
    exact getLimit_congr rfl rfl
  have hfrom : t.isReceivingFrom r s.sched.curptr = s.isReceivingFrom r s.sched.curptr := by
    rw [← ht]
    rfl
  unfold sendBlocks
  dsimp only
  rw [hsched, hregs, hvalid, hfrom]

theorem handles_syscallSendByFeature (h : s.syscallSendByFeature = some k) :
    Handles s s.sendByFeatureBlocks (some s.sched) k := by
  unfold syscallSendByFeature at h
  dsimp only at h
  obtain ⟨checked, hchecked, h⟩ := Option.bind_eq_some_iff.1 h
  unfold sendByFeatureBlocks
  dsimp only
  rw [hchecked]
  split at h
  next hbad =>
    rw [← Option.some.inj h]
    simp only [Option.some.injEq, hbad, decide_false, Bool.false_and]
    exact .of_stays (.refl _)
  next hgood =>
    rw [not_not] at hgood
    obtain ⟨receiver, hreceiver, h⟩ := Option.bind_eq_some_iff.1 h
    rw [hreceiver, hgood]
    dsimp only
    split at h
    next hself =>
      rw [← Option.some.inj h]
      simp only [hself, ne_eq, not_true_eq_false, decide_false, Bool.false_and, Bool.and_false]
      exact .of_stays (.refl _)
    next hother =>
      simp only [ne_eq, hother, not_false_eq_true, decide_true, Bool.true_and]
      split at h
      next hsome =>
        rw [if_pos hsome, ← sendBlocks_setRegs s receiver receiver]
        have hsent := handles_syscallSend (r := receiver) (by
          show (update s.regs s.sched.curptr _ s.sched.curptr).ebxReg = receiver
          rw [update_self]) h
        exact ⟨hsent.stays, hsent.leaves⟩
      next hnull =>
        rw [if_neg hnull]
        split at h
        next hwait =>
          obtain ⟨u, hu, h⟩ := Option.bind_eq_some_iff.1 h
          simp only [hwait, decide_true]
          exact ⟨fun h => absurd h (by decide), fun _ =>
            ⟨s.sched, rfl, .refl _, dequeue_of_waiting hu h⟩⟩
        next hwait =>
          rw [← Option.some.inj h]
          simp only [hwait, decide_false]
          exact .of_stays (.refl _)

theorem handles_syscallReceive (h : s.syscallReceive = some k) :
    Handles s s.receiveBlocks (some s.sched) k := by
  unfold syscallReceive at h
  dsimp only at h
  unfold receiveBlocks
  dsimp only
  split at h
  next hbuf =>
    rw [← Option.some.inj h]
    simp only [hbuf, false_and, decide_false]
    exact .of_stays (.refl _)
  next hbuf =>
    rw [not_not] at hbuf
    split at h
    next hints =>
      rw [← Option.some.inj h]
      simp only [hints, false_and, and_false, decide_false]
      exact .of_stays (.refl _)
    next hints =>
      rw [not_not] at hints
      obtain ⟨sender, hsender, h⟩ := Option.bind_eq_some_iff.1 h
      rw [hsender]
      split at h
      next hfound =>
        obtain ⟨u, hu, rfl⟩ := Option.map_eq_some_iff.1 h
        simp only [Option.some.injEq, hfound, and_false, decide_false]
        have hwoken := woken_of_removed hu
        exact .of_stays hwoken
      next hnone =>
        rw [not_not] at hnone
        simp only [hbuf, hints, hnone, and_self, decide_true]
        exact ⟨fun h => absurd h (by decide), fun _ =>
          ⟨s.sched, rfl, .refl _, dequeue_of_marked h⟩⟩

section

omit [Layout]

theorem woken_of_syscallSetFeature (h : s.syscallSetFeature = some k) :
    Woken s.sched k.sched := by
  unfold syscallSetFeature at h
  dsimp only at h
  obtain ⟨checked, -, h⟩ := Option.bind_eq_some_iff.1 h
  split at h
  next =>
    rw [← Option.some.inj h]
    exact .refl _
  next =>
    obtain ⟨⟨t, taken⟩, ht, rfl⟩ := Option.map_eq_some_iff.1 h
    obtain ⟨idx, -, ht⟩ := Option.map_eq_some_iff.1 ht
    dsimp only
    split at ht
    next =>
      obtain ⟨rfl, rfl⟩ := Prod.mk.inj ht
      exact .refl _
    next =>
      obtain ⟨rfl, rfl⟩ := Prod.mk.inj ht
      exact .refl _

theorem woken_of_notifyIrq (h : s.notifyIrq number = some k) : Woken s.sched k.sched := by
  unfold notifyIrq at h
  dsimp only at h
  split at h
  next =>
    obtain ⟨u, hu, rfl⟩ := Option.map_eq_some_iff.1 h
    have hwoken := woken_of_cleared hu
    exact hwoken
  next =>
    rw [← Option.some.inj h]
    exact .refl _

theorem woken_of_syscallRequestIrq (s : Kernel) : Woken s.sched s.syscallRequestIrq.sched := by
  unfold syscallRequestIrq
  dsimp only
  split
  next => exact .refl _
  split
  next => exact .refl _
  next => exact .refl _

theorem LocalCall.woken (h : LocalCall s k) : Woken s.sched k.sched := by
  rw [h.eq]
  exact .refl _

end

/-- A system call wakes processes, and its caller leaves the queue if it blocks. -/
theorem handles_syscallIsr (h : s.syscallIsr input = some k) :
    Handles s (s.blocks 2) s.blockedSched k := by
  have hlocal : ∀ {t : Kernel} {blocked : Option Sched}, LocalCall s t → some t = some k →
      Handles s false blocked k := by
    intro t blocked hl heq
    rw [← Option.some.inj heq]
    exact .of_stays hl.woken
  unfold syscallIsr at h
  unfold blocks blockedSched
  rw [if_pos rfl]
  generalize (s.regs s.sched.curptr).eaxReg.toNat = call at h
  split at h
  · exact handles_syscallExit h
  · exact .of_stays (woken_of_syscallSetFeature h)
  · exact handles_syscallReceive h
  · exact handles_syscallSendByFeature h
  · rw [← Option.some.inj h]
    exact .of_stays (woken_of_syscallRequestIrq s)
  · exact hlocal (localCall_syscallInb s input) h
  · exact hlocal (localCall_syscallClaimPort s) h
  · exact hlocal (localCall_syscallOutb s) h
  · exact hlocal (localCall_syscallInw s input) h
  · exact hlocal (localCall_syscallOutw s) h
  · exact hlocal (localCall_syscallVir2phys s) h
  next hexit _ hreceive hsend _ _ _ _ _ _ _ =>
    split
    · exact absurd rfl hexit
    · exact absurd rfl hreceive
    · exact absurd rfl hsend
    · exact hlocal (localCall_setErr s _) h

theorem handle_handles (h : s.handle number input = some k) :
    Handles s (s.blocks number) s.blockedSched k := by
  unfold handle at h
  split at h
  next hclock =>
    rw [← Option.some.inj h, hclock]
    refine .of_stays ?_
    rw [clockIsr_sched]
    exact .refl _
  next =>
    split at h
    next hcall =>
      rw [hcall]
      exact handles_syscallIsr h
    next hdevice =>
      unfold blocks
      rw [if_neg hdevice]
      split at h
      next =>
        rw [← Option.some.inj h]
        exact .of_stays (.refl _)
      next => exact .of_stays (woken_of_notifyIrq h)

theorem handle_of_step (h : s.step e = some s') :
    ∃ k, (s.saveContext e.regs).handle e.number e.input = some k ∧
      s' = k.finish.schedule e.number := by
  unfold step at h
  split at h
  next =>
    obtain ⟨t, ht, rfl⟩ := Option.map_eq_some_iff.1 h
    obtain ⟨k, hk, rfl⟩ := Option.map_eq_some_iff.1 ht
    exact ⟨k, hk, rfl⟩
  next => exact absurd h (by simp)

theorem logged_finish (k : Kernel) : k.finish.sched.logged = Sched.after k.finishCharges k.sched.logged := by
  unfold finish finishCharges
  split
  next =>
    rw [← Sched.logged_chargeProcess]
    exact congrArg (List.filter _) (Sched.pickNextProc_tickLog k.sched.chargeProcess)
  next => rfl

/-- The history of the scheduler has the calls of `charge_process` in an interrupt. -/
theorem charges_logged (h : s.step e = some s') :
    s'.sched.logged = Sched.after (s.interruptCharges e) s.sched.logged := by
  obtain ⟨k, hk, rfl⟩ := handle_of_step h
  have hhandles := handle_handles hk
  have hfinish : (k.finish.schedule e.number).sched.logged =
      Sched.after k.finishCharges k.sched.logged := logged_finish k
  unfold interruptCharges handleCharges
  dsimp only
  rw [hk, hfinish, Sched.after_append, ← saveContext_sched s e.regs]
  congr 1
  generalize hblocks : (s.saveContext e.regs).blocks e.number = b at hhandles
  cases b with
  | false => exact (hhandles.stays rfl).logged
  | true =>
    obtain ⟨t, ht, hwoken, hleft⟩ := hhandles.leaves rfl
    rw [if_pos rfl, ht, Sched.logged_dequeue hleft, hwoken.logged]

/-! ## Which calls are fine -/

/-- The process that makes the call is the last of the queue, and it leaves. -/
def LastLeaves (s : Kernel) (e : Event) : Prop :=
  let s := s.saveContext e.regs
  let curptr := s.sched.curptr
  s.blocks e.number = true ∧ s.sched.schedqueue.head = curptr ∧ s.sched.next curptr = null ∧
    ((s.regs curptr).eaxReg.toNat = 0 → s.firstSender curptr = null)

instance (s : Kernel) (e : Event) : Decidable (s.LastLeaves e) :=
  inferInstanceAs (Decidable (_ ∧ _ ∧ _ ∧ (_ → _)))

/-- All calls of `charge_process` in the interrupt are fine. -/
def ChargesFine (s : Kernel) (e : Event) : Prop := ∀ c ∈ s.interruptCharges e, c.Fine

/-- The queue from which a call that blocks takes its caller.  The senders that a process that
exits keeps waiting are on it. -/
theorem IpcInv.blockedSched (h : IpcInv procs s q m) (hp : s.sched.curptr ∈ q) {t : Sched}
    (ht : s.blockedSched = some t) :
    ∃ qt, QueueInv procs t qt ∧ s.sched.curptr ∈ qt ∧
      ((∀ x ∈ qt, x = s.sched.curptr) ↔
        s.sched.schedqueue.head = s.sched.curptr ∧ s.sched.next s.sched.curptr = null ∧
          ((s.regs s.sched.curptr).eaxReg.toNat = 0 → s.firstSender s.sched.curptr = null)) := by
  have hpp := h.mem_procs hp
  have hprun := (h.running _).1 hp
  have hsole := h.queue.chain.forall_eq_iff hp
  unfold Kernel.blockedSched at ht
  split at ht
  next hexit =>
    obtain ⟨u, hu, rfl⟩ := Option.map_eq_some_iff.1 ht
    obtain ⟨k, next, first, t, qt, hun, -, -, -, hall⟩ := h.exitUnblocked hp rfl
    rw [← Option.some.inj (hun.symm.trans hu)]
    refine ⟨qt, hall.inv, (hall.mem _).2 (Or.inr hp), ?_⟩
    have hoff : s.sched.curptr ∉ m.senders s.sched.curptr :=
      fun hmem => absurd (m.mem_senders.1 hmem) (by simp [hprun])
    rw [← and_assoc, ← hsole, ← (h.lists.senders _ hpp).eq_nil_iff]
    constructor
    · intro hqt
      refine ⟨fun x hx => hqt x ((hall.mem x).2 (Or.inr hx)), fun _ => ?_⟩
      refine List.eq_nil_iff_forall_not_mem.2 fun x hx => ?_
      rw [hqt x ((hall.mem x).2 (Or.inl hx))] at hx
      exact hoff hx
    · rintro ⟨hq, hsenders⟩ x hx
      rcases (hall.mem x).1 hx with hx | hx
      · rw [hsenders hexit] at hx
        exact absurd hx List.not_mem_nil
      · exact hq x hx
  next hstays =>
    rw [← Option.some.inj ht]
    exact ⟨q, h.queue, hp, by simp only [hsole, hstays, false_imp_iff, and_true]⟩

/-- What is charged at the end if nobody has left. -/
theorem Handles.finishCharges_fine (h : Handles s false blocked k)
    (hcur : s.sched.curptr ≠ null)
    (hon : s.sched.curptr = idlestate ∨ s.sched.isEnqueued s.sched.curptr = true) :
    ∀ c ∈ k.finishCharges, c.Fine := by
  intro c hc
  have hwoken := h.stays rfl
  unfold finishCharges at hc
  split at hc
  next =>
    rw [List.mem_singleton.1 hc, Charge.Fine]
    dsimp only
    rw [hwoken.curptr]
    exact ⟨hcur, hon.imp_right fun hon => Or.inl (hwoken.isEnqueued _ hon)⟩
  next => exact absurd hc List.not_mem_nil

/-- Nothing is charged at the end if the process that has left is not the last. -/
theorem finishCharges_of_more (hq : QueueInv procs s.sched q) (hnext : s.sched.nextptr ∈ q) :
    s.finishCharges = [] := by
  unfold finishCharges
  rw [if_neg (hq.linked.ne_null hnext)]

/-- The last process that leaves is charged when it has left. -/
theorem not_fine_of_last (hcur : s.sched.curptr ≠ idlestate) (hnext : s.sched.nextptr = null)
    (hoff : s.sched.isEnqueued s.sched.curptr = false) : ∃ c ∈ s.finishCharges, ¬ c.Fine := by
  unfold finishCharges
  rw [if_pos hnext]
  refine ⟨_, List.mem_singleton_self _, fun hfine => ?_⟩
  rcases hfine.2 with hidle | hon | ⟨hleaving, -⟩
  · exact hcur hidle
  · exact absurd (hon.symm.trans hoff) (by decide)
  · exact absurd hleaving (by simp)

/-- A call that blocks comes from a process of the queue. -/
theorem Between.blocks_mem (hb : Between s.sched q) (he : s.Enabled e)
    (hblocks : (s.saveContext e.regs).blocks e.number = true) : s.sched.curptr ∈ q := by
  cases e with
  | timer => exact absurd hblocks (by simp [blocks, Event.number])
  | device n => exact absurd hblocks (by simp [blocks, Event.number, he.2.1])
  | syscall => exact (hb.curptr.resolve_left he.1).resolve_left he.2

/-- An interrupt with a current process charges well unless the last process leaves in it. -/
theorem IpcInv.chargesFine_iff (h : IpcInv procs s q m) (hb : Between s.sched q)
    (hcur : s.sched.curptr ≠ null) (hs : s.step e = some s') :
    s.ChargesFine e ↔ ¬ s.LastLeaves e := by
  obtain ⟨k, hk, -⟩ := handle_of_step hs
  have hhandles := handle_handles hk
  have hinv := h.saveContext e.regs
  have hsched : (s.saveContext e.regs).sched = s.sched := saveContext_sched s e.regs
  unfold ChargesFine interruptCharges LastLeaves handleCharges
  dsimp only
  rw [hk]
  generalize hblocks : (s.saveContext e.regs).blocks e.number = b at hhandles
  cases b with
  | false =>
    -- its caller stays
    refine iff_of_true ?_ (by simp)
    refine hhandles.finishCharges_fine (by rwa [hsched]) ?_
    rw [hsched]
    refine (hb.curptr.resolve_left hcur).imp_right fun hq => ?_
    exact (h.queue.isEnqueued_iff _ (h.mem_procs hq)).2 hq
  | true =>
    obtain ⟨t, ht, hwoken, hleft⟩ := hhandles.leaves rfl
    have hp : s.sched.curptr ∈ q := hb.blocks_mem (enabled_of_step hs) hblocks
    obtain ⟨qt, hqt, hmem, hsole⟩ := hinv.blockedSched (by rwa [hsched]) ht
    obtain ⟨t', q', hgone⟩ := hqt.left hmem
    obtain rfl : t' = k.sched := Option.some.inj (hgone.eq.symm.trans hleft)
    have hloop := fun c => hqt.dequeueCharges_fine (c := c) hmem
    rw [if_pos rfl, ht, ← hsole]
    simp only [true_and]
    have hcurt : t.curptr = (s.saveContext e.regs).sched.curptr := hwoken.curptr
    have hnextt : t.nextptr = null := by rw [hwoken.nextptr, hsched, hb.nextptr]
    cases q' with
    | nil =>
      -- the queue is empty then
      refine iff_of_false (fun hfine => ?_) ?_
      · obtain ⟨hcurk, hnextk⟩ := hgone.dequeued.keeps (Or.inl rfl)
        have hpk : k.sched.curptr ∈ procs := by
          rw [hcurk, hcurt, hsched]
          exact h.mem_procs hp
        have hoff : k.sched.isEnqueued k.sched.curptr = false := by
          rw [← Bool.not_eq_true, hgone.inv.isEnqueued_iff _ hpk]
          exact List.not_mem_nil
        obtain ⟨c, hc, hbad⟩ := not_fine_of_last (h.ne_idle hpk) (hnextk.trans hnextt) hoff
        exact hbad (hfine c (List.mem_append_right _ hc))
      · refine not_not.2 fun x hx => by_contra fun hne => ?_
        exact List.not_mem_nil ((hgone.mem x).2 ⟨hne, hx⟩)
    | cons y l =>
      refine iff_of_true ?_ fun hall => ?_
      · rw [finishCharges_of_more hgone.inv
          (hgone.dequeued.chosen (List.cons_ne_nil y l) hcurt hnextt), List.append_nil]
        exact hloop
      · obtain ⟨hne, hy⟩ := (hgone.mem y).1 List.mem_cons_self
        exact hne (hall y hy)

/-- The first interrupt finds no current process, and charges `NULL`. -/
theorem Between.not_chargesFine (hb : Between s.sched q) (hcur : s.sched.curptr = null)
    (hs : s.step e = some s') : ¬ s.ChargesFine e := by
  intro hfine
  obtain ⟨k, hk, -⟩ := handle_of_step hs
  have hsched : (s.saveContext e.regs).sched = s.sched := saveContext_sched s e.regs
  have hstays : (s.saveContext e.regs).blocks e.number = false := by
    have he := enabled_of_step hs
    cases e with
    | timer => rfl
    | device n => simp [blocks, Event.number, he.2.1]
    | syscall => exact absurd hcur he.1
  have hhandles := handle_handles hk
  rw [hstays] at hhandles
  have hwoken := hhandles.stays rfl
  have hnextk : k.sched.nextptr = null := by rw [hwoken.nextptr, hsched, hb.nextptr]
  have hcurk : k.sched.curptr = null := by rw [hwoken.curptr, hsched, hcur]
  refine (hfine ⟨k.sched, none⟩ ?_).1 hcurk
  unfold interruptCharges finishCharges
  dsimp only
  rw [hk]
  exact List.mem_append_right _ (by simp [hnextk])

/-- After an interrupt there is a current process, if only the idle task. -/
theorem Chosen.curptr_ne_null {t : Sched} (hc : Chosen t q) (hq : ∀ x ∈ q, x ≠ null) :
    t.schedule.curptr ≠ null := by
  rcases hc with hc | ⟨-, hidle⟩
  · exact hq _ hc
  · exact fun hnull => Layout.idlestate_ne_null (hidle.symm.trans hnull)

theorem IpcInv.curptr_ne_null (h : IpcInv procs s q m) (hb : Between s.sched q)
    (hs : s.step e = some s') : s'.sched.curptr ≠ null := by
  have he := enabled_of_step hs
  obtain ⟨k, hk, rfl⟩ := handle_of_step hs
  have hint : s.interrupt e = some k.finish := by
    rw [Kernel.interrupt, doHardInt, hk, Option.map_some]
  obtain ⟨k', q', m', hk', hinv, hch, -⟩ := h.interrupt hb he (featureOk_of_interrupt he hint)
  obtain heq : k'.finish = k.finish := Option.some.inj (hk'.symm.trans hint)
  rw [heq] at hch
  exact hch.curptr_ne_null fun x hx => h.ne_null (hinv.mem_procs hx)

end Kernel

end Mycrokernel
