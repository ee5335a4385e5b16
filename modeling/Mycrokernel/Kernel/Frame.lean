import Mycrokernel.Kernel.Interrupt

/-!
# What message passing leaves alone

`Passed s k` says that `k` is `s` but for the run queue, the registers and flags of
the processes, the lists they wait on and what is copied between them.  All the
functions of `utilities_C.c` that pass messages are of this kind (one lemma each), and
so are the handlers of the system calls built from them.  Nothing is assumed about the
state they start in.
-/

namespace Mycrokernel

open Function (update)

namespace Kernel

variable [Layout] {s k l : Kernel} {p r : Ptr}

/-- The state after changes to the run queue, the processes and their lists.  Whether a slot
is empty is not changed. -/
structure Passed (s k : Kernel) : Prop where
  eq : { s with
    sched := k.sched, regs := k.regs, state := k.state, interrupts := k.interrupts,
    firstSender := k.firstSender, nextSender := k.nextSender,
    receivingFrom := k.receivingFrom, featureTable := k.featureTable, irqs := k.irqs,
    mem := k.mem, exchanges := k.exchanges } = k
  empty : ∀ p, k.state p &&& Flag.empty = s.state p &&& Flag.empty

namespace Passed

omit [Layout]

theorem refl (s : Kernel) : Passed s s := ⟨rfl, fun _ => rfl⟩

theorem trans (h : Passed s k) (h' : Passed k l) : Passed s l := by
  constructor
  · have heq := h'.eq
    rw [← h.eq] at heq
    exact heq
  · intro p
    rw [h'.empty, h.empty]

theorem portAccessers (h : Passed s k) : k.portAccessers = s.portAccessers := by rw [← h.eq]

theorem portLog (h : Passed s k) : k.portLog = s.portLog := by rw [← h.eq]

theorem freedGdt (h : Passed s k) : k.freedGdt = s.freedGdt := by rw [← h.eq]

theorem freedPids (h : Passed s k) : k.freedPids = s.freedPids := by rw [← h.eq]

end Passed

/-! ## Registers, flags and the run queue -/

section

omit [Layout]

theorem passed_setRegs (s : Kernel) (p : Ptr) (f : Regs → Regs) : Passed s (s.setRegs p f) :=
  ⟨rfl, fun _ => rfl⟩

theorem passed_setErr (s : Kernel) (p : Ptr) (err : Word) : Passed s (s.setErr p err) :=
  passed_setRegs ..

theorem passed_setEax (s : Kernel) (p : Ptr) (value : Word) : Passed s (s.setEax p value) :=
  passed_setRegs ..

theorem passed_enqueue (h : s.enqueue p = some k) : Passed s k := by
  obtain ⟨sched, -, rfl⟩ := Option.map_eq_some_iff.mp h
  exact ⟨rfl, fun _ => rfl⟩

end

theorem passed_dequeue (h : s.dequeue p = some k) : Passed s k := by
  obtain ⟨sched, -, rfl⟩ := Option.map_eq_some_iff.mp h
  exact ⟨rfl, fun _ => rfl⟩

omit [Layout] in
/-- A change of the state of a process that keeps the flag `EMPTY`. -/
theorem passed_state {b : BitVec 8} (hb : b &&& Flag.empty = s.state p &&& Flag.empty) :
    Passed s { s with state := update s.state p b } := by
  constructor
  · rfl
  · intro x
    cases Decidable.em (x = p) with
    | inl hx => rw [hx]; simpa using hb
    | inr hx => exact congrArg (· &&& Flag.empty) (Function.update_of_ne hx _ _)

omit [Layout] in
theorem passed_unsetStateFlag {f : BitVec 8}
    (hf : ∀ b : BitVec 8, (b &&& ~~~f) &&& Flag.empty = b &&& Flag.empty)
    (h : s.unsetStateFlag p f = some k) : Passed s k := by
  have hstate : Passed s { s with state := update s.state p (s.state p &&& ~~~f) } :=
    passed_state (hf _)
  rw [unsetStateFlag_eq h]
  exact ⟨rfl, hstate.empty⟩

theorem passed_setStateFlag {f : BitVec 8}
    (hf : ∀ b : BitVec 8, (b ||| f) &&& Flag.empty = b &&& Flag.empty)
    (h : s.setStateFlag p f = some k) : Passed s k := by
  have hstate : Passed s { s with state := update s.state p (s.state p ||| f) } :=
    passed_state (hf _)
  exact hstate.trans (passed_dequeue h)

/-! ## Lists and messages -/

omit [Layout] in
theorem passed_exchangeData (s : Kernel) (p r : Ptr) : Passed s (s.exchangeData p r) :=
  ⟨rfl, fun _ => rfl⟩

omit [Layout] in
theorem passed_clearReceivingFrom (h : s.clearReceivingFrom p = some k) : Passed s k := by
  unfold clearReceivingFrom at h
  have hflag := passed_unsetStateFlag (by decide) h
  refine .trans ?_ hflag
  exact ⟨rfl, fun _ => rfl⟩

theorem passed_markAsReceivingFrom (h : s.markAsReceivingFrom p r = some k) : Passed s k := by
  unfold markAsReceivingFrom at h
  have hflag := passed_setStateFlag (by decide) h
  refine .trans ?_ hflag
  exact ⟨rfl, fun _ => rfl⟩

theorem passed_addToSendersList (h : s.addToSendersList p r = some k) : Passed s k := by
  obtain ⟨⟨previous, cur⟩, -, h⟩ := Option.bind_eq_some_iff.mp h
  have hflag := passed_setStateFlag (by decide) h
  refine .trans ?_ hflag
  split
  next => exact ⟨rfl, fun _ => rfl⟩
  next => exact ⟨rfl, fun _ => rfl⟩

section

omit [Layout]

theorem passed_removeFromSendersList (h : s.removeFromSendersList p r = some k) : Passed s k := by
  obtain ⟨⟨previous, cur⟩, -, h⟩ := Option.bind_eq_some_iff.mp h
  have hflag := passed_unsetStateFlag (by decide) h
  refine .trans ?_ hflag
  split
  next => exact ⟨rfl, fun _ => rfl⟩
  next => exact ⟨rfl, fun _ => rfl⟩

theorem passed_addWaitingForFeature {feature : Word}
    (h : s.addWaitingForFeature p feature = some k) : Passed s k := by
  obtain ⟨idx, -, h⟩ := Option.bind_eq_some_iff.mp h
  obtain ⟨⟨previous, cur⟩, -, rfl⟩ := Option.map_eq_some_iff.mp h
  dsimp only
  split
  next => exact ⟨rfl, fun _ => rfl⟩
  next => exact ⟨rfl, fun _ => rfl⟩

theorem passed_setFeature {feature : Word} {result : Int}
    (h : s.setFeature p feature = some (k, result)) : Passed s k := by
  obtain ⟨idx, -, h⟩ := Option.map_eq_some_iff.mp h
  split at h
  next =>
    obtain rfl : s = k := congrArg Prod.fst h
    exact .refl s
  next =>
    obtain rfl := congrArg Prod.fst h
    exact ⟨rfl, fun _ => rfl⟩

theorem passed_releaseIrqsTaken (s : Kernel) (p : Ptr) : Passed s (s.releaseIrqsTaken p) := by
  unfold releaseIrqsTaken
  induction List.range maxIrq generalizing s with
  | nil => exact .refl s
  | cons i l ih =>
      rw [List.foldl_cons]
      refine .trans ?_ (ih _)
      split
      next => exact ⟨rfl, fun _ => rfl⟩
      next => exact .refl s

/-- By induction on the fuel: every round unblocks one sender. -/
theorem passed_unblockWaitingSenders {n : Nat} (h : unblockWaitingSenders p n s = some k) :
    Passed s k := by
  induction n generalizing s with
  | zero => exact absurd h (by simp [unblockWaitingSenders])
  | succ n ih =>
      rw [unblockWaitingSenders] at h
      split at h
      next =>
        obtain ⟨t, ht, h⟩ := Option.bind_eq_some_iff.mp h
        have hround := (passed_setErr s (s.firstSender p) Err.processDied).trans
          (passed_unsetStateFlag (by decide) ht)
        refine hround.trans (.trans ?_ (ih h))
        exact ⟨rfl, fun _ => rfl⟩
      next =>
        obtain rfl := Option.some.inj h
        exact .refl s

end

/-! ## System calls -/

theorem passed_syscallSend (h : s.syscallSend = some k) : Passed s k := by
  unfold syscallSend at h
  dsimp only at h
  split at h
  next =>
    obtain rfl := Option.some.inj h
    exact passed_setErr ..
  next =>
    split at h
    next =>
      obtain ⟨t, ht, rfl⟩ := Option.map_eq_some_iff.mp h
      refine (Passed.trans ?_ (passed_clearReceivingFrom ht)).trans
        ((passed_setErr ..).trans (passed_setErr ..))
      exact (passed_exchangeData ..).trans ((passed_setEax ..).trans (passed_setEax ..))
    next => exact passed_addToSendersList h

theorem passed_syscallSendByFeature (h : s.syscallSendByFeature = some k) : Passed s k := by
  obtain ⟨checked, -, h⟩ := Option.bind_eq_some_iff.mp h
  split at h
  next =>
    obtain rfl := Option.some.inj h
    exact passed_setErr ..
  next =>
    obtain ⟨receiver, -, h⟩ := Option.bind_eq_some_iff.mp h
    split at h
    next =>
      obtain rfl := Option.some.inj h
      exact passed_setErr ..
    next =>
      split at h
      next => exact (passed_setRegs ..).trans (passed_syscallSend h)
      next =>
        split at h
        next =>
          obtain ⟨t, ht, h⟩ := Option.bind_eq_some_iff.mp h
          exact (passed_addWaitingForFeature ht).trans (passed_dequeue h)
        next =>
          obtain rfl := Option.some.inj h
          exact passed_setErr ..

theorem passed_syscallReceive (h : s.syscallReceive = some k) : Passed s k := by
  unfold syscallReceive at h
  dsimp only at h
  split at h
  next =>
    obtain rfl := Option.some.inj h
    exact passed_setErr ..
  next =>
    split at h
    next =>
      obtain rfl := Option.some.inj h
      exact ⟨rfl, fun _ => rfl⟩
    next =>
      obtain ⟨sender, -, h⟩ := Option.bind_eq_some_iff.mp h
      split at h
      next =>
        obtain ⟨t, ht, rfl⟩ := Option.map_eq_some_iff.mp h
        refine (Passed.trans ?_ (passed_removeFromSendersList ht)).trans
          ((passed_setErr ..).trans (passed_setErr ..))
        exact (passed_exchangeData ..).trans ((passed_setEax ..).trans (passed_setEax ..))
      next => exact passed_markAsReceivingFrom h

section

omit [Layout]

theorem passed_syscallSetFeature (h : s.syscallSetFeature = some k) : Passed s k := by
  obtain ⟨checked, -, h⟩ := Option.bind_eq_some_iff.mp h
  split at h
  next =>
    obtain rfl := Option.some.inj h
    exact passed_setErr ..
  next =>
    obtain ⟨⟨t, result⟩, ht, rfl⟩ := Option.map_eq_some_iff.mp h
    refine (passed_setFeature ht).trans ?_
    dsimp only
    split
    next => exact passed_setErr ..
    next => exact passed_setErr ..

theorem passed_syscallRequestIrq (s : Kernel) : Passed s s.syscallRequestIrq := by
  unfold syscallRequestIrq
  dsimp only
  split
  next => exact passed_setErr ..
  next =>
    split
    next => exact passed_setErr ..
    next => exact ⟨rfl, fun _ => rfl⟩

theorem passed_syscallVir2phys (s : Kernel) : Passed s s.syscallVir2phys := by
  unfold syscallVir2phys
  dsimp only
  split
  next => exact passed_setErr ..
  next => exact passed_setEax ..

theorem passed_notifyIrq {n : Nat} (h : s.notifyIrq n = some k) : Passed s k := by
  unfold notifyIrq at h
  dsimp only at h
  split at h
  next =>
    obtain ⟨t, ht, rfl⟩ := Option.map_eq_some_iff.mp h
    exact ((passed_setErr ..).trans (passed_clearReceivingFrom ht)).trans (passed_setEax ..)
  next =>
    obtain rfl := Option.some.inj h
    exact ⟨rfl, fun _ => rfl⟩

/-! ## Exit -/

/-- The indices `syscall_exit` frees for a segment register. -/
def freedBy (selector : BitVec 16) : List Word :=
  if selector ≠ 0 then [selector.setWidth 32 &&& 0xfffc] else []

/-- The indices `syscall_exit` frees, the latest first. -/
def freedByExit (r : Regs) : List Word :=
  [r.ssReg, r.gsReg, r.fsReg, r.esReg, r.dsReg, r.csReg].flatMap freedBy

/-- The state after freeing the GDT indices `ws`, the latest first. -/
def Freed (s : Kernel) (ws : List Word) (k : Kernel) : Prop :=
  { s with kmem := k.kmem, freedGdt := ws ++ s.freedGdt } = k

theorem Freed.trans {ws ws' : List Word} (h : Freed s ws k) (h' : Freed k ws' l) :
    Freed s (ws' ++ ws) l := by
  unfold Freed at h h' ⊢
  rw [← h] at h'
  rw [List.append_assoc]
  exact h'

end

theorem freed_freeSegment (s : Kernel) (selector : BitVec 16) :
    Freed s (freedBy selector) (s.freeSegment selector) := by
  unfold freeSegment freedBy
  split
  next => rfl
  next => rfl

theorem freeSegment_regs (s : Kernel) (selector : BitVec 16) :
    (s.freeSegment selector).regs = s.regs := by
  rw [← freed_freeSegment s selector]

/-- What `syscall_exit` does to the slots, the ports and the histories. -/
structure Exits (s k : Kernel) : Prop where
  freedGdt : k.freedGdt = freedByExit (s.regs s.sched.curptr) ++ s.freedGdt
  freedPids : k.freedPids = (s.pid s.sched.curptr).setWidth 32 :: s.freedPids
  portAccessers : k.portAccessers = s.portAccessers
  portLog : k.portLog = s.portLog
  empty_cur : k.state s.sched.curptr &&& Flag.empty = Flag.empty
  empty_of_ne : ∀ p ≠ s.sched.curptr, k.state p &&& Flag.empty = s.state p &&& Flag.empty

theorem syscallExit_spec (h : s.syscallExit = some k) : Exits s k := by
  have hcur : update s.state s.sched.curptr Flag.empty s.sched.curptr = Flag.empty :=
    Function.update_self ..
  have hne : ∀ p ≠ s.sched.curptr, update s.state s.sched.curptr Flag.empty p = s.state p :=
    fun p hp => Function.update_of_ne hp _ _
  unfold syscallExit at h
  simp only [freeSegment_regs] at h
  generalize ht : { s with state := update s.state s.sched.curptr Flag.empty } = t at h
  have hfreed := ((((freed_freeSegment t (s.regs s.sched.curptr).csReg).trans
    (freed_freeSegment _ (s.regs s.sched.curptr).dsReg)).trans
    (freed_freeSegment _ (s.regs s.sched.curptr).esReg)).trans
    (freed_freeSegment _ (s.regs s.sched.curptr).fsReg)).trans
    ((freed_freeSegment _ (s.regs s.sched.curptr).gsReg).trans
    (freed_freeSegment _ (s.regs s.sched.curptr).ssReg))
  generalize (((((t.freeSegment _).freeSegment _).freeSegment _).freeSegment _).freeSegment
    _).freeSegment _ = u at h hfreed
  obtain ⟨v, hv, h⟩ := Option.bind_eq_some_iff.mp h
  have hpassed := ((passed_releaseIrqsTaken _ _).trans (passed_unblockWaitingSenders hv)).trans
    (passed_dequeue h)
  subst ht
  constructor
  · rw [hpassed.freedGdt, ← hfreed]
    simp [freePid, freedByExit]
  · rw [hpassed.freedPids, ← hfreed]
    rfl
  · rw [hpassed.portAccessers, ← hfreed]
    rfl
  · rw [hpassed.portLog, ← hfreed]
    rfl
  · rw [hpassed.empty, ← hfreed]
    exact congrArg (· &&& Flag.empty) hcur
  · intro p hp
    rw [hpassed.empty, ← hfreed]
    exact congrArg (· &&& Flag.empty) (hne p hp)

end Kernel

end Mycrokernel
