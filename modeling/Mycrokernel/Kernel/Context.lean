import Mycrokernel.Kernel.Frame
import Mycrokernel.Kernel.Pairing

/-!
# Contexts

The kernel keeps the registers of the programs in the table of processes, and the calls of a
process change what is kept of others.  `Recorded` says what an interrupt can do to a program:
it gets results in `eax` and `esi`, and it gets bytes when a message is copied.  `ebx` of a sender is where the
kernel keeps the receiver.

So a program finds its registers as it left them when it runs again (`context_kept`): all of
them if it was interrupted, and all but the results if it made a call.
-/

namespace Mycrokernel

open Function (update update_self update_of_ne)

namespace Kernel

open Rendezvous (Place)

variable [Layout] {s k l : Kernel} {p r x : Ptr} {a : Word}

/-! ## Memory changes when messages are copied -/

/-- The registers may differ in those that the kernel writes results to, and in `ebx`, which it
uses itself. -/
def Answered (regs regs' : Regs) : Prop :=
  ∃ eaxReg ebxReg esiReg, regs' = { regs with eaxReg, ebxReg, esiReg }

omit [Layout] in
theorem Answered.refl (regs : Regs) : Answered regs regs := ⟨_, _, _, rfl⟩

omit [Layout] in
theorem Answered.trans {r r' r'' : Regs} (h : Answered r r') (h' : Answered r' r'') :
    Answered r r'' := by
  obtain ⟨_, _, _, rfl⟩ := h
  obtain ⟨eaxReg, ebxReg, esiReg, rfl⟩ := h'
  exact ⟨eaxReg, ebxReg, esiReg, rfl⟩

/-- From `s` to `k`, programs have been given results, and memory has not changed unless
messages were copied. -/
structure Recorded (s k : Kernel) : Prop where
  regs : ∀ x, Answered (s.regs x) (k.regs x)
  gdtLimit : k.gdtLimit = s.gdtLimit
  suffix : s.exchanges <:+ k.exchanges
  mem : k.exchanges = s.exchanges → k.mem = s.mem

namespace Recorded

omit [Layout]

theorem of_eq (hregs : k.regs = s.regs) (hlimit : k.gdtLimit = s.gdtLimit)
    (hexch : k.exchanges = s.exchanges) (hmem : k.mem = s.mem) : Recorded s k :=
  ⟨fun _ => hregs ▸ .refl _, hlimit, hexch ▸ List.suffix_refl _, fun _ => hmem⟩

theorem refl (s : Kernel) : Recorded s s := of_eq rfl rfl rfl rfl

theorem trans (h : Recorded s k) (h' : Recorded k l) : Recorded s l := by
  refine ⟨fun x => (h.regs x).trans (h'.regs x), h'.gdtLimit.trans h.gdtLimit,
    h.suffix.trans h'.suffix, fun heq => ?_⟩
  have hle := h.suffix.length_le
  have hle' := h'.suffix.length_le
  rw [heq] at hle'
  have hsame : s.exchanges = k.exchanges := h.suffix.eq_of_length (Nat.le_antisymm hle hle')
  exact (h'.mem (heq.trans hsame)).trans (h.mem hsame.symm)

end Recorded

section

omit [Layout]

theorem recorded_setRegs (s : Kernel) (p : Ptr) {f : Regs → Regs} (hf : ∀ regs, Answered regs (f regs)) :
    Recorded s (s.setRegs p f) := by
  refine ⟨fun x => ?_, rfl, List.suffix_refl _, fun _ => rfl⟩
  rw [setRegs_regs]
  by_cases hx : x = p
  · rw [hx, update_self]
    exact hf _
  · rw [update_of_ne hx]
    exact .refl _

theorem recorded_setErr (s : Kernel) (p : Ptr) (err : Word) : Recorded s (s.setErr p err) :=
  recorded_setRegs s p fun _ => ⟨_, _, err, rfl⟩

theorem recorded_setEax (s : Kernel) (p : Ptr) (value : Word) : Recorded s (s.setEax p value) :=
  recorded_setRegs s p fun _ => ⟨value, _, _, rfl⟩

theorem Recorded.setErr (h : Recorded s k) (p : Ptr) (err : Word) : Recorded s (k.setErr p err) :=
  h.trans (recorded_setErr k p err)

theorem Recorded.setEax (h : Recorded s k) (p : Ptr) (value : Word) : Recorded s (k.setEax p value) :=
  h.trans (recorded_setEax k p value)

/-- `syscall_send_by_feature` puts the receiver into `ebx`. -/
theorem recorded_setEbx (s : Kernel) (p r : Ptr) :
    Recorded s (s.setRegs p fun regs => { regs with ebxReg := r }) :=
  recorded_setRegs s p fun _ => ⟨_, r, _, rfl⟩

end

theorem recorded_dequeue (h : s.dequeue p = some k) : Recorded s k := by
  obtain ⟨sched, -, rfl⟩ := Option.map_eq_some_iff.mp h
  exact .of_eq rfl rfl rfl rfl

omit [Layout] in
theorem recorded_unsetStateFlag {f : BitVec 8} (h : s.unsetStateFlag p f = some k) : Recorded s k := by
  rw [unsetStateFlag_eq h]
  exact .of_eq rfl rfl rfl rfl

theorem recorded_setStateFlag {f : BitVec 8} (h : s.setStateFlag p f = some k) : Recorded s k := by
  unfold setStateFlag at h
  refine .trans ?_ (recorded_dequeue h)
  exact .of_eq rfl rfl rfl rfl

omit [Layout] in
theorem recorded_exchangeData (s : Kernel) (p r : Ptr) : Recorded s (s.exchangeData p r) :=
  ⟨((recorded_setEax s p _).trans (recorded_setEax _ r _)).regs, rfl, List.suffix_cons _ _,
    fun h => absurd h (List.cons_ne_self _ _)⟩

omit [Layout] in
theorem recorded_clearReceivingFrom (h : s.clearReceivingFrom p = some k) : Recorded s k := by
  unfold clearReceivingFrom at h
  refine .trans ?_ (recorded_unsetStateFlag h)
  exact .of_eq rfl rfl rfl rfl

theorem recorded_markAsReceivingFrom (h : s.markAsReceivingFrom p r = some k) : Recorded s k := by
  unfold markAsReceivingFrom at h
  refine .trans ?_ (recorded_setStateFlag h)
  exact .of_eq rfl rfl rfl rfl

theorem recorded_addToSendersList (h : s.addToSendersList p r = some k) : Recorded s k := by
  obtain ⟨⟨previous, cur⟩, -, h⟩ := Option.bind_eq_some_iff.mp h
  refine .trans ?_ (recorded_setStateFlag h)
  split
  next => exact .of_eq rfl rfl rfl rfl
  next => exact .of_eq rfl rfl rfl rfl

section

omit [Layout]

theorem recorded_removeFromSendersList (h : s.removeFromSendersList p r = some k) : Recorded s k := by
  obtain ⟨⟨previous, cur⟩, -, h⟩ := Option.bind_eq_some_iff.mp h
  refine .trans ?_ (recorded_unsetStateFlag h)
  split
  next => exact .of_eq rfl rfl rfl rfl
  next => exact .of_eq rfl rfl rfl rfl

theorem recorded_addWaitingForFeature {feature : Word} (h : s.addWaitingForFeature p feature = some k) :
    Recorded s k := by
  obtain ⟨idx, -, h⟩ := Option.bind_eq_some_iff.mp h
  obtain ⟨⟨previous, cur⟩, -, rfl⟩ := Option.map_eq_some_iff.mp h
  dsimp only
  split
  next => exact .of_eq rfl rfl rfl rfl
  next => exact .of_eq rfl rfl rfl rfl

theorem recorded_setFeature {feature : Word} {result : Int}
    (h : s.setFeature p feature = some (k, result)) : Recorded s k := by
  obtain ⟨idx, -, h⟩ := Option.map_eq_some_iff.mp h
  split at h
  next =>
    obtain rfl : s = k := congrArg Prod.fst h
    exact .refl s
  next =>
    obtain rfl := congrArg Prod.fst h
    exact .of_eq rfl rfl rfl rfl

theorem recorded_releaseIrqsTaken (s : Kernel) (p : Ptr) : Recorded s (s.releaseIrqsTaken p) := by
  unfold releaseIrqsTaken
  induction List.range maxIrq generalizing s with
  | nil => exact .refl s
  | cons i l ih =>
    rw [List.foldl_cons]
    refine .trans ?_ (ih _)
    split
    next => exact .of_eq rfl rfl rfl rfl
    next => exact .refl s

/-- By induction on the fuel. -/
theorem recorded_unblockWaitingSenders {n : Nat} (h : unblockWaitingSenders p n s = some k) :
    Recorded s k := by
  induction n generalizing s with
  | zero => exact absurd h (by simp [unblockWaitingSenders])
  | succ n ih =>
    rw [unblockWaitingSenders] at h
    split at h
    next =>
      obtain ⟨t, ht, h⟩ := Option.bind_eq_some_iff.mp h
      have hround := (recorded_setErr ..).trans (recorded_unsetStateFlag ht)
      refine hround.trans (.trans ?_ (ih h))
      exact .of_eq rfl rfl rfl rfl
    next =>
      obtain rfl := Option.some.inj h
      exact .refl s

end

theorem recorded_freeSegment (s : Kernel) (selector : BitVec 16) :
    Recorded s (s.freeSegment selector) := by
  rw [← freed_freeSegment s selector]
  exact .of_eq rfl rfl rfl rfl

/-! ## System calls -/

theorem recorded_syscallExit (h : s.syscallExit = some k) : Recorded s k := by
  unfold syscallExit at h
  simp only [freeSegment_regs] at h
  generalize ht : { s with state := update s.state s.sched.curptr Flag.empty } = t at h
  have hfreed := (recorded_freeSegment t (s.regs s.sched.curptr).csReg).trans <|
    (recorded_freeSegment _ (s.regs s.sched.curptr).dsReg).trans <|
    (recorded_freeSegment _ (s.regs s.sched.curptr).esReg).trans <|
    (recorded_freeSegment _ (s.regs s.sched.curptr).fsReg).trans <|
    (recorded_freeSegment _ (s.regs s.sched.curptr).gsReg).trans <|
    recorded_freeSegment _ (s.regs s.sched.curptr).ssReg
  generalize (((((t.freeSegment _).freeSegment _).freeSegment _).freeSegment _).freeSegment
    _).freeSegment _ = u at h hfreed
  obtain ⟨v, hv, h⟩ := Option.bind_eq_some_iff.mp h
  have hended := ((recorded_releaseIrqsTaken _ _).trans (recorded_unblockWaitingSenders hv)).trans
    (recorded_dequeue h)
  have hpid : Recorded u (u.freePid ((u.pid s.sched.curptr).setWidth 32)) := .of_eq rfl rfl rfl rfl
  subst ht
  refine .trans ?_ (hfreed.trans (hpid.trans hended))
  exact .of_eq rfl rfl rfl rfl

theorem recorded_syscallSend (h : s.syscallSend = some k) : Recorded s k := by
  unfold syscallSend at h
  dsimp only at h
  split at h
  next =>
    obtain rfl := Option.some.inj h
    exact recorded_setErr ..
  next =>
    split at h
    next =>
      obtain ⟨t, ht, rfl⟩ := Option.map_eq_some_iff.mp h
      refine (Recorded.trans ?_ (recorded_clearReceivingFrom ht)).trans
        ((recorded_setErr ..).setErr ..)
      exact ((recorded_exchangeData ..).setEax ..).setEax ..
    next => exact recorded_addToSendersList h

theorem recorded_syscallSendByFeature (h : s.syscallSendByFeature = some k) : Recorded s k := by
  obtain ⟨checked, -, h⟩ := Option.bind_eq_some_iff.mp h
  split at h
  next =>
    obtain rfl := Option.some.inj h
    exact recorded_setErr ..
  next =>
    obtain ⟨receiver, -, h⟩ := Option.bind_eq_some_iff.mp h
    split at h
    next =>
      obtain rfl := Option.some.inj h
      exact recorded_setErr ..
    next =>
      split at h
      next => exact (recorded_setEbx ..).trans (recorded_syscallSend h)
      next =>
        split at h
        next =>
          obtain ⟨t, ht, h⟩ := Option.bind_eq_some_iff.mp h
          exact (recorded_addWaitingForFeature ht).trans (recorded_dequeue h)
        next =>
          obtain rfl := Option.some.inj h
          exact recorded_setErr ..

theorem recorded_syscallReceive (h : s.syscallReceive = some k) : Recorded s k := by
  unfold syscallReceive at h
  dsimp only at h
  split at h
  next =>
    obtain rfl := Option.some.inj h
    exact recorded_setErr ..
  next =>
    split at h
    next =>
      obtain rfl := Option.some.inj h
      have hset := recorded_setErr s s.sched.curptr ((s.interrupts s.sched.curptr).setWidth 32)
      refine .setEax (hset.trans ?_) ..
      exact .of_eq rfl rfl rfl rfl
    next =>
      obtain ⟨sender, -, h⟩ := Option.bind_eq_some_iff.mp h
      split at h
      next =>
        obtain ⟨t, ht, rfl⟩ := Option.map_eq_some_iff.mp h
        refine (Recorded.trans ?_ (recorded_removeFromSendersList ht)).trans
          ((recorded_setErr ..).setErr ..)
        exact ((recorded_exchangeData ..).setEax ..).setEax ..
      next => exact recorded_markAsReceivingFrom h

section

omit [Layout]

theorem recorded_syscallSetFeature (h : s.syscallSetFeature = some k) : Recorded s k := by
  obtain ⟨checked, -, h⟩ := Option.bind_eq_some_iff.mp h
  split at h
  next =>
    obtain rfl := Option.some.inj h
    exact recorded_setErr ..
  next =>
    obtain ⟨⟨t, result⟩, ht, rfl⟩ := Option.map_eq_some_iff.mp h
    refine (recorded_setFeature ht).trans ?_
    dsimp only
    split
    next => exact recorded_setErr ..
    next => exact recorded_setErr ..

theorem recorded_syscallRequestIrq (s : Kernel) : Recorded s s.syscallRequestIrq := by
  unfold syscallRequestIrq
  dsimp only
  split
  next => exact recorded_setErr ..
  next =>
    split
    next => exact recorded_setErr ..
    next =>
      refine .setErr ?_ ..
      exact .of_eq rfl rfl rfl rfl

theorem recorded_syscallClaimPort (s : Kernel) : Recorded s s.syscallClaimPort := by
  unfold syscallClaimPort
  dsimp only
  split
  next => exact recorded_setErr ..
  next => exact .of_eq rfl rfl rfl rfl

theorem recorded_syscallVir2phys (s : Kernel) : Recorded s s.syscallVir2phys := by
  unfold syscallVir2phys
  dsimp only
  split
  next => exact recorded_setErr ..
  next => exact recorded_setEax ..

/-- A call that accesses a port, or may not. -/
theorem recorded_port {c : Bool} {p : Ptr} {err : Word} {accessed : Kernel}
    (h : Recorded s accessed) : Recorded s (if c then s.setErr p err else accessed) := by
  split
  next => exact recorded_setErr ..
  next => exact h

end

theorem recorded_syscallIsr {input : Word} (h : s.syscallIsr input = some k) : Recorded s k := by
  unfold syscallIsr at h
  split at h
  next => exact recorded_syscallExit h
  next => exact recorded_syscallSetFeature h
  next => exact recorded_syscallReceive h
  next => exact recorded_syscallSendByFeature h
  all_goals obtain rfl := Option.some.inj h
  next => exact recorded_syscallRequestIrq s
  next =>
    refine recorded_port (.setErr (.setEax ?_ ..) ..)
    exact .of_eq rfl rfl rfl rfl
  next => exact recorded_syscallClaimPort s
  next =>
    refine recorded_port (.setErr ?_ ..)
    exact .of_eq rfl rfl rfl rfl
  next =>
    refine recorded_port (.setErr (.setEax ?_ ..) ..)
    exact .of_eq rfl rfl rfl rfl
  next =>
    refine recorded_port (.setErr ?_ ..)
    exact .of_eq rfl rfl rfl rfl
  next => exact recorded_syscallVir2phys s
  next => exact recorded_setErr ..

omit [Layout] in
theorem recorded_notifyIrq {n : Nat} (h : s.notifyIrq n = some k) : Recorded s k := by
  unfold notifyIrq at h
  dsimp only at h
  split at h
  next =>
    obtain ⟨t, ht, rfl⟩ := Option.map_eq_some_iff.mp h
    exact ((recorded_setErr ..).trans (recorded_clearReceivingFrom ht)).setEax ..
  next =>
    obtain rfl := Option.some.inj h
    exact .of_eq rfl rfl rfl rfl

omit [Layout] in
theorem recorded_clockIsr (s : Kernel) : Recorded s s.clockIsr := by
  unfold clockIsr
  dsimp only
  split
  next =>
    split
    next => exact .of_eq rfl rfl rfl rfl
    next => exact .of_eq rfl rfl rfl rfl
  next => exact .of_eq rfl rfl rfl rfl

theorem recorded_handle {n : Nat} {input : Word} (h : s.handle n input = some k) : Recorded s k := by
  unfold handle at h
  split at h
  next =>
    obtain rfl := Option.some.inj h
    exact recorded_clockIsr s
  next =>
    split at h
    next => exact recorded_syscallIsr h
    next =>
      split at h
      next =>
        obtain rfl := Option.some.inj h
        exact .refl s
      next => exact recorded_notifyIrq h

theorem recorded_finish (s : Kernel) : Recorded s s.finish := by
  unfold finish
  split
  next => exact .of_eq rfl rfl rfl rfl
  next => exact .refl s

/-- An interrupt changes memory only if it copies a message. -/
theorem recorded_interrupt {e : Event} (h : s.interrupt e = some k) :
    Recorded (s.saveContext e.regs) k := by
  obtain ⟨t, ht, rfl⟩ := Option.map_eq_some_iff.1 h
  exact (recorded_handle ht).trans (recorded_finish t)

omit [Layout] in
theorem saveContext_rest (s : Kernel) (regs : Regs) : (s.saveContext regs).gdtLimit = s.gdtLimit ∧
    (s.saveContext regs).mem = s.mem := by
  unfold saveContext
  split
  next => exact ⟨rfl, rfl⟩
  next => exact ⟨rfl, rfl⟩

/-! ## Processes that could run -/

variable {ps : Finset Ptr} {m m' : Rendezvous Ptr Nat} {q : List Ptr} {e : Event} {procs : List Ptr}
  {boot s₁ s₂ : Kernel} {es es' : List Event}

/-- A process that could run stays so while another one runs, and its registers stay. -/
theorem Effect.stays (heff : Effect ps s m p e k m') (hcur : s.sched.curptr = p)
    (hx : m.place x = .running) (hxp : x ≠ p) : m'.place x = .running ∧ k.regs x = s.regs x := by
  cases heff.bystander hcur hxp with
  | stays hplace hregs => exact ⟨hplace.trans hx, hregs⟩
  | woken hold => exact absurd hx hold
  | served hold => exact absurd (hx.symm.trans hold) (by simp)
  | stranded hold => exact absurd (hx.symm.trans hold) (by simp)

/-- An interrupt that is no call leaves the process that it finds running as it is. -/
theorem Effect.interrupted (heff : Effect ps s m p e k m') (hp : m.place p = .running)
    (hcall : e.call = none) : m'.place p = .running := by
  cases heff with
  | quiet => exact hp
  | @rung r n hr =>
    rw [Rendezvous.move_place, update_of_ne, hp]
    rintro rfl
    exact absurd (hp.symm.trans hr) (by simp)
  | direct _ hcall' => exact absurd (hcall.symm.trans hcall') (by simp)
  | queued _ hcall' => exact absurd (hcall.symm.trans hcall') (by simp)
  | parked _ hcall' => exact absurd (hcall.symm.trans hcall') (by simp)
  | fetched _ hcall' => exact absurd (hcall.symm.trans hcall') (by simp)
  | listening _ hcall' => exact absurd (hcall.symm.trans hcall') (by simp)
  | adopted hcall' => exact absurd (hcall.symm.trans hcall') (by simp)
  | exited _ hcall' => exact absurd (hcall.symm.trans hcall') (by simp)

section

omit [Layout]

theorem clearReceivingFrom_regs (h : s.clearReceivingFrom p = some k) : k.regs = s.regs := by
  unfold clearReceivingFrom at h
  rw [unsetStateFlag_eq h]

theorem notifyIrq_regs {n : Nat} (h : s.notifyIrq n = some k) (hp : s.state p = 0) :
    k.regs p = s.regs p := by
  unfold notifyIrq at h
  dsimp only at h
  split at h
  next hrecv =>
    have hne : p ≠ s.irqs n := by
      rintro rfl
      rw [hp] at hrecv
      exact hrecv (by decide)
    obtain ⟨t, ht, rfl⟩ := Option.map_eq_some_iff.mp h
    rw [setEax, setRegs_regs, update_of_ne hne, clearReceivingFrom_regs ht, setErr, setRegs_regs,
      update_of_ne hne]
  next =>
    obtain rfl := Option.some.inj h
    rfl

theorem clockIsr_regs (s : Kernel) : s.clockIsr.regs = s.regs := by
  unfold clockIsr
  dsimp only
  split
  next =>
    split
    next => rfl
    next => rfl
  next => rfl

end

theorem handle_regs {n : Nat} {input : Word} (h : s.handle n input = some k) (hn : n ≠ 2)
    (hp : s.state p = 0) : k.regs p = s.regs p := by
  unfold handle at h
  rw [if_neg hn] at h
  split at h
  next =>
    obtain rfl := Option.some.inj h
    rw [clockIsr_regs]
  next =>
    split at h
    next =>
      obtain rfl := Option.some.inj h
      rfl
    next => exact notifyIrq_regs h hp

theorem finish_regs (s : Kernel) : s.finish.regs = s.regs := by
  unfold finish
  split
  next => rfl
  next => rfl

/-- The kernel writes to no register of a process that has been interrupted. -/
theorem interrupt_regs (hk : s.interrupt e = some k) (he : s.Enabled e) (hcall : e.call = none)
    (hp : s.state p = 0) : k.regs p = (s.saveContext e.regs).regs p := by
  have hn : e.number ≠ 2 := by
    cases e with
    | timer => exact (by decide : 0 ≠ 2)
    | device => exact he.2.1
    | syscall => exact absurd hcall (by simp [Event.call])
  obtain ⟨t, ht, rfl⟩ := Option.map_eq_some_iff.1 hk
  rw [finish_regs, handle_regs ht hn (by rw [(saved s e.regs).state, hp])]

/-! ## Runs -/

theorem interrupt_of_step (hs : s.step e = some s') :
    ∃ k, s.Enabled e ∧ s.interrupt e = some k ∧ s' = k.schedule e.number := by
  rw [step] at hs
  split at hs
  next he =>
    obtain ⟨k, hk, rfl⟩ := Option.map_eq_some_iff.1 hs
    exact ⟨k, he, hk, rfl⟩
  next => exact absurd hs (by simp)

/-- An interrupt gives results to the processes that it finds waiting. -/
theorem answered_of_step (hs : s.step e = some s') (hp : s.sched.curptr ≠ p) :
    Answered (s.regs p) (s'.regs p) := by
  obtain ⟨k, -, hk, rfl⟩ := interrupt_of_step hs
  have hanswered := (recorded_interrupt hk).regs p
  rwa [(saved s e.regs).regs_of_ne p (Ne.symm hp)] at hanswered

/-- An interrupt gives results to the process that it finds running. -/
theorem answered_of_step_cur (hs : s.step e = some s') (hp : s.sched.curptr ≠ null) :
    Answered e.regs (s'.regs s.sched.curptr) := by
  obtain ⟨k, -, hk, rfl⟩ := interrupt_of_step hs
  have hanswered := (recorded_interrupt hk).regs s.sched.curptr
  rwa [(saved s e.regs).regs_cur hp] at hanswered

/-- A process that has been interrupted could go on where it was, and another one runs. -/
theorem running_step {regs : Regs} (hp : m.place p = .running ∧ s.regs p = regs)
    (hne : s.sched.curptr ≠ p)
    (heff : Effect ps (s.saveContext e.regs) m s.sched.curptr e k m') :
    m'.place p = .running ∧ (k.finish.schedule e.number).regs p = regs := by
  have hsaved := saved s e.regs
  obtain ⟨hplace, hregs⟩ := heff.stays (by rw [hsaved.sched]) hp.1 (Ne.symm hne)
  rw [(resumed k e.number).regs, hregs, hsaved.regs_of_ne p (Ne.symm hne)]
  exact ⟨hplace, hp.2⟩

end Kernel

end Mycrokernel
