import Mycrokernel.Kernel.Effect

/-!
# Handling an interrupt

Each system call, and the interrupt of a device, has one of the effects of
`Effect` and keeps the invariant.  `IpcInv.step` is the summary: an interrupt that
finds the system between two interrupts leaves it so, with the choice of the
next process made in between.
-/

namespace Mycrokernel

open Function (update update_self update_of_ne)
open PointerList

namespace Kernel

open Rendezvous (Place)
open Sched (QueueInv Entered Left)

variable [Layout] {procs : Finset Ptr} {s s' k : Kernel} {m m' : Rendezvous Ptr Nat}
  {p r w x : Ptr} {i : Nat} {q q' : List Ptr} {e : Event}

/-! ## Messages -/

theorem IpcInv.receiving_of_isReceivingFrom (h : IpcInv procs s q m) (hr : r ∈ procs) :
    s.isReceivingFrom r p = true ↔ m.place r = .receiving ∧ Accepts (s.receivingFrom r) p := by
  unfold isReceivingFrom
  rw [← h.receiving_iff hr]
  by_cases hflag : s.state r &&& Flag.receiving = 0
  · simp [hflag]
  · rw [if_neg hflag]
    by_cases hany : s.receivingFrom r = anyproc
    · rw [if_pos hany]
      exact iff_of_true rfl ⟨hflag, Or.inl hany⟩
    · rw [if_neg hany, decide_eq_true_iff]
      exact ⟨fun heq => ⟨hflag, Or.inr heq⟩, fun hacc => hacc.2.resolve_left hany⟩

section

omit [Layout]

/-- `_get_limit` reads two fields of a descriptor. -/
theorem getLimit_congr {idx : Word} (hlimit : (s'.gdt idx).limit = (s.gdt idx).limit)
    (hprops : (s'.gdt idx).props2 = (s.gdt idx).props2) : s'.getLimit idx = s.getLimit idx := by
  rw [getLimit, getLimit, hlimit, hprops]

/-- The check of a buffer reads the data segment of its process. -/
theorem validateDataArea_congr (hds : (s'.regs p).dsReg = (s.regs p).dsReg)
    (hgdt : ∀ idx, s'.getLimit idx = s.getLimit idx) (mem size : Word) :
    s'.validateDataArea p mem size = s.validateDataArea p mem size := by
  rw [validateDataArea, validateDataArea, hgdt, dataIndex, dataIndex, hds]

@[simp] theorem setRegs_regs (f : Regs → Regs) :
    (s.setRegs p f).regs = update s.regs p (f (s.regs p)) := rfl

/-- The registers of the two ends of a message, written in the order of the calls. -/
theorem delivered_regs {a b : Ptr} (hab : a ≠ b) {t : Kernel}
    (ht : t.regs = (((s.exchangeData a b).setEax a (s.exchangeBytes a b)).setEax b
      (s.exchangeBytes a b)).regs) :
    ((t.setErr a Err.ok).setErr b Err.ok).regs = (s.delivered a b).regs := by
  funext x
  simp only [setErr, setRegs_regs, ht, setEax, exchangeData, delivered]
  by_cases hxa : x = a
  · subst hxa
    simp [hab]
  · by_cases hxb : x = b
    · subst hxb
      simp [Ne.symm hab]
    · simp [hxa, hxb]

end

/-- What `syscall_send` does for the process `p` and the receiver `r`. -/
inductive Sent (procs : Finset Ptr) (s : Kernel) (m : Rendezvous Ptr Nat) (p r : Ptr) :
    Kernel → Rendezvous Ptr Nat → Prop where
  | refused : ¬ BufferOk s p → Sent procs s m p r (s.setErr p Err.invalidBuffer) m
  | direct {s' : Kernel} (hr : m.place r = .receiving) :
      BufferOk s p → Accepts (s.receivingFrom r) p → s.sched.enqueue r = some s'.sched →
      Alike { delivered s p r with
        state := update s.state r 0
        receivingFrom := update s.receivingFrom r null } s' →
      Sent procs s m p r s' (m.move r .running (Rendezvous.off_of_receiving hr) Place.off_running)
  | queued {s' : Kernel} (hp : m.place p = .running) :
      BufferOk s p → ¬ (m.place r = .receiving ∧ Accepts (s.receivingFrom r) p) →
      s.sched.dequeue p = some s'.sched →
      Alike { s with state := update s.state p Flag.sending } s' →
      Sent procs s m p r s' (m.send p r (Rendezvous.off_of_running hp))

theorem IpcInv.syscallSend (h : IpcInv procs s q m) (hb : Between s.sched q) (hp : p ∈ q)
    (hcur : s.sched.curptr = p) (hreg : (s.regs p).ebxReg = r) (hr : r ∈ procs) (hpr : p ≠ r) :
    ∃ s' q' m', s.syscallSend = some s' ∧ IpcInv procs s' q' m' ∧ Handled s'.sched q' ∧
      Sent procs s m p r s' m' := by
  have hpp := h.mem_procs hp
  have hprun := (h.running p).1 hp
  have hrecv := h.receiving_of_isReceivingFrom (p := p) hr
  rw [Kernel.syscallSend]
  simp only [hcur, hreg]
  by_cases hbuf : s.validateDataArea p (s.regs p).edxReg (s.regs p).ecxReg = 0
  swap
  · rw [if_pos hbuf]
    refine ⟨_, q, m, rfl, h.congr rfl rfl rfl rfl rfl h.irqs, ?_, .refused hbuf⟩
    exact hb.handled rfl rfl fun _ hx => hx
  rw [if_neg (not_not.2 hbuf)]
  by_cases hrf : s.isReceivingFrom r p = true
  · -- the receiver is waiting for the message
    obtain ⟨hrr, hacc⟩ := hrecv.1 hrf
    obtain ⟨-, hrq, hstate⟩ := h.receiving_off hrr
    rw [if_pos hrf]
    obtain ⟨t, q', hset, hent⟩ := unsetStateFlag_spec (s :=
      { (((s.exchangeData p r).setEax p (s.exchangeBytes p r)).setEax r (s.exchangeBytes p r)) with
        receivingFrom := update s.receivingFrom r null }) h.queue hr hrq hstate
    have hclear : (((s.exchangeData p r).setEax p (s.exchangeBytes p r)).setEax r
        (s.exchangeBytes p r)).clearReceivingFrom r = _ := hset
    rw [hclear, Option.map_some]
    refine ⟨_, q', m.move r .running (Rendezvous.off_of_receiving hrr) Place.off_running, rfl, ?_, ?_, ?_⟩
    · refine h.moved hr rfl hent.inv (h.lists.congr rfl rfl (fun _ => rfl) rfl rfl) ?_ ?_
        (by simp) (by simp) h.supplier rfl (fun y hy => update_of_ne hy _ _) ?_
      · intro y hy
        rw [hent.mem]
        simp [hy]
      · rw [hent.mem]
        simp
      · exact update_self ..
    · exact hb.handled hent.curptr hent.nextptr fun x hx => (hent.mem x).2 (Or.inr hx)
    · refine .direct hrr hbuf hacc hent.eq
        ⟨delivered_regs hpr rfl, rfl, rfl, rfl, rfl, rfl, fun _ => rfl, rfl, rfl, rfl, rfl, rfl, rfl,
          rfl, rfl⟩
  · -- the sender blocks
    rw [if_neg hrf]
    obtain ⟨next, first, hadd, hth⟩ := h.lists.addToSendersList hr (h.ne_null hpp) (h.off_of_mem hp)
    obtain ⟨t, q', hset, hleft⟩ := setStateFlag_spec (f := Flag.sending)
      (s := { s with nextSender := next, firstSender := first }) h.queue hp (h.state_of_mem hp)
    rw [hadd, hset]
    refine ⟨_, q', m.send p r (h.off_of_mem hp), rfl, ?_, ?_, ?_⟩
    · refine h.moved hpp rfl hleft.inv (hth.congr rfl rfl (fun _ => rfl) rfl rfl) ?_ ?_ ?_ (by simp)
        h.supplier rfl (fun y hy => update_of_ne hy _ _) ?_
      · intro y hy
        rw [hleft.mem]
        simp [hy]
      · rw [hleft.mem]
        simp
      · intro r' hr'
        rw [← Place.sending.inj hr']
        exact hr
      · exact Or.inr (update_self ..)
    · exact handled_of_left (hcur ▸ hleft) hb.nextptr
    · exact .queued hprun hbuf (fun hr' => hrf (hrecv.2 hr')) hleft.eq
        ⟨rfl, rfl, rfl, rfl, rfl, rfl, fun _ => rfl, rfl, rfl, rfl, rfl, rfl, rfl, rfl, rfl⟩

/-- A send to a feature goes to the supplier `r`. -/
theorem IpcInv.syscallSend_supplier (h : IpcInv procs s q m) (hb : Between s.sched q)
    (hp : p ∈ q) (hcur : s.sched.curptr = p) (hcall : e.call = some 3)
    (hi : featureEntry (s.regs p).ebxReg = some i) (hr : (s.featureTable i).supplier = r)
    (hrm : r ∈ procs) (hrp : r ≠ p) :
    Outcome procs s m e (s.setRegs p fun c => { c with ebxReg := r }).syscallSend := by
  generalize hk : (s.setRegs p fun c => { c with ebxReg := r }) = k
  have hki : IpcInv procs k q m := by
    subst hk
    exact h.congr rfl rfl rfl rfl rfl h.irqs
  have hvalid : BufferOk k p ↔ BufferOk s p := by
    have hregs : k.regs p = { s.regs p with ebxReg := r } := by
      rw [← hk]
      exact update_self ..
    unfold BufferOk
    rw [hregs, validateDataArea_congr (s := s)]
    · rw [hregs]
    · intro idx
      apply getLimit_congr <;> rw [← hk] <;> rfl
  have hsched : k.sched = s.sched := by rw [← hk]; rfl
  have hfrom : k.receivingFrom = s.receivingFrom := by rw [← hk]; rfl
  obtain ⟨s', q', m', hs', hinv, hhand, hsent⟩ := hki.syscallSend (r := r) (hsched ▸ hb) hp
    (hsched ▸ hcur) (by rw [← hk, setRegs_regs, update_self]) hrm (Ne.symm hrp)
  have hpp := h.mem_procs hp
  refine ⟨s', q', m', hs', hinv, hhand, hcur ▸ ?_⟩
  cases hsent with
  | refused hbuf =>
    rw [← hk]
    refine .quiet (.local (by decide) hcall (fun x hx => ?_) (fun he => absurd he (by decide))
      fun _ => ?_)
    · rw [hcur] at hx
      rw [update_of_ne hx]
      exact update_of_ne hx _ _
    · rw [hcur, update_self]
      show Err.invalidBuffer ≠ Err.ok
      decide
  | direct hrr hbuf hacc ht halike =>
    rw [hsched] at ht
    rw [← hk] at halike
    exact .direct hrr hcall hpp ((h.running p).1 hp) hi hr (hvalid.1 hbuf) (hfrom ▸ hacc) ht halike
  | queued hprun hbuf hacc ht halike =>
    rw [hsched] at ht
    rw [← hk] at halike
    exact .queued hprun hcall hpp hi hr hrm hrp (hvalid.1 hbuf) (hfrom ▸ hacc) ht halike

/-- A send to a feature without a supplier waits for one. -/
theorem IpcInv.addWaitingForFeature (h : IpcInv procs s q m) (hb : Between s.sched q)
    (hp : p ∈ q) (hcur : s.sched.curptr = p) (hcall : e.call = some 3)
    (hc : checkFeature (s.regs p).ebxReg = some 0)
    (hi : featureEntry (s.regs p).ebxReg = some i) (hlt : i < featureTableSize)
    (hnull : (s.featureTable i).supplier = null) (hedi : (s.regs p).ediReg = 1) :
    Outcome procs s m e
      ((s.addWaitingForFeature p (s.regs p).ebxReg).bind fun s => s.dequeue p) := by
  have hpp := h.mem_procs hp
  obtain ⟨next, first, hadd, hth⟩ :=
    h.lists.addWaitingForFeature hi hlt (h.ne_null hpp) (h.off_of_mem hp)
  obtain ⟨t, q', hleft⟩ := h.queue.left hp
  rw [hadd, Option.bind_some, Kernel.dequeue, hleft.eq, Option.map_some]
  have hsup : ∀ j, (update s.featureTable i { s.featureTable i with waiter := first } j).supplier =
      (s.featureTable j).supplier := by
    intro j
    by_cases hj : j = i
    · rw [hj, update_self]
    · rw [update_of_ne hj]
  refine ⟨_, q', m.wait p i (h.off_of_mem hp), rfl, ?_, ?_, ?_⟩
  · refine h.moved hpp rfl hleft.inv (hth.congr rfl rfl (fun _ => rfl) rfl rfl) ?_ ?_ (by simp) ?_
      ?_ rfl (fun _ _ => rfl) (h.state_of_mem hp)
    · intro y hy
      rw [hleft.mem]
      simp [hy]
    · rw [hleft.mem]
      simp
    · intro j hj
      rw [← Place.waiting.inj hj]
      exact hlt
    · intro j hj
      dsimp only
      rw [hsup]
      rcases h.supplier j hj with hnone | ⟨hmem, hempty⟩
      · exact Or.inl hnone
      · by_cases hji : j = i
        · exact Or.inl (by rw [hji, hnull])
        · refine Or.inr ⟨hmem, ?_⟩
          rw [Rendezvous.wait_waiters, update_of_ne hji]
          exact hempty
  · exact handled_of_left (hcur ▸ hleft) hb.nextptr
  · rw [hcur]
    exact .parked ((h.running p).1 hp) hcall hpp hc hi hnull hedi hleft.eq
      ⟨rfl, rfl, rfl, rfl, rfl, rfl, hsup, rfl, rfl, rfl, rfl, rfl, rfl, rfl, rfl⟩

theorem IpcInv.syscallSendByFeature (h : IpcInv procs s q m) (hb : Between s.sched q)
    (hp : p ∈ q) (hcur : s.sched.curptr = p) (hcall : e.call = some 3)
    (hf : HasEntry (s.regs p).ebxReg) : Outcome procs s m e s.syscallSendByFeature := by
  have hfail : ∀ err : Word, err ≠ Err.ok → Outcome procs s m e (some (s.setErr p err)) :=
    fun err herr => hcur ▸ h.outcome_setErr hb (by decide) hcall
      (fun he => absurd he (by decide)) fun _ => herr
  rw [Kernel.syscallSendByFeature]
  obtain ⟨c, hc0, hc⟩ | ⟨hc, i, hlt, hi⟩ := hf.check
  · simp only [hcur, hc, Option.bind_some, if_pos hc0]
    exact hfail _ (by decide)
  simp only [hcur, hc, Option.bind_some]
  rw [if_neg (not_not.2 rfl), getProcessByFeature, hi, Option.map_some, Option.bind_some]
  generalize hr : (s.featureTable i).supplier = r
  by_cases hrp : r = p
  · rw [if_pos hrp]
    exact hfail _ (by decide)
  rw [if_neg hrp]
  by_cases hnull : r = null
  swap
  · rw [if_pos hnull]
    have hrm : r ∈ procs := hr ▸ ((h.supplier i hlt).resolve_left (hr ▸ hnull)).1
    exact h.syscallSend_supplier hb hp hcur hcall hi hr hrm hrp
  rw [if_neg (not_not.2 hnull)]
  by_cases hedi : (s.regs p).ediReg = 1
  · rw [if_pos hedi]
    exact h.addWaitingForFeature hb hp hcur hcall hc hi hlt (hr.trans hnull) hedi
  · rw [if_neg hedi]
    exact hfail _ (by decide)

omit [Layout] in
/-- The mask of pending interrupts that a receive reports is no `OK`. -/
theorem setWidth_ne_ok {mask : BitVec 16} (h : mask ≠ 0) : mask.setWidth 32 ≠ Err.ok := by
  intro heq
  refine h (BitVec.eq_of_toNat_eq ?_)
  have hnat := congrArg BitVec.toNat heq
  rw [BitVec.toNat_setWidth, Nat.mod_eq_of_lt (by omega)] at hnat
  exact hnat

/-- A receive reports the interrupts that are pending. -/
theorem IpcInv.outcome_reported (h : IpcInv procs s q m) (hb : Between s.sched q)
    (hp : p ∈ q) (hcur : s.sched.curptr = p) (hcall : e.call = some 2)
    (hint : s.interrupts p ≠ 0) :
    Outcome procs s m e (some ({ s.setErr p ((s.interrupts p).setWidth 32) with
      interrupts := update s.interrupts p 0 }.setEax p 0)) := by
  refine h.outcome_quiet hb ⟨rfl, rfl, rfl, rfl, rfl, rfl, rfl, rfl, rfl,
    .same rfl (by simp [hcall]), ?_, ?_, by simp [hcall], ?_⟩
  · intro x hx
    rw [hcur] at hx
    exact (update_of_ne hx _ _).trans (update_of_ne hx _ _)
  · refine .reported hcall (hcur ▸ h.state_of_mem hp) (hcur ▸ hint) (by rw [hcur]; rfl) ?_
    rw [hcur]
    simp only [setEax, setErr, setRegs_regs, update_self]
  · intro _
    rw [hcur]
    simp only [setEax, setErr, setRegs_regs, update_self]
    exact setWidth_ne_ok hint

/-- A receive blocks if nobody waits that it accepts. -/
theorem IpcInv.markAsReceivingFrom (h : IpcInv procs s q m) (hb : Between s.sched q)
    (hp : p ∈ q) (hcur : s.sched.curptr = p) (hcall : e.call = some 2) (hbuf : BufferOk s p)
    (hint : s.interrupts p = 0) (hnone : ∀ x ∈ m.senders p, ¬ Accepts (s.regs p).ebxReg x) :
    Outcome procs s m e (s.markAsReceivingFrom p (s.regs p).ebxReg) := by
  have hpp := h.mem_procs hp
  obtain ⟨t, q', hset, hleft⟩ := setStateFlag_spec (f := Flag.receiving)
    (s := { s with receivingFrom := update s.receivingFrom p (s.regs p).ebxReg }) h.queue hp
    (h.state_of_mem hp)
  rw [Kernel.markAsReceivingFrom, hset]
  refine ⟨_, q', m.move p .receiving (h.off_of_mem hp) Place.off_receiving, rfl, ?_, ?_, ?_⟩
  · refine h.moved hpp rfl hleft.inv (h.lists.congr rfl rfl (fun _ => rfl) rfl rfl) ?_ ?_
      (by simp) (by simp) h.supplier rfl (fun y hy => update_of_ne hy _ _) (update_self ..)
    · intro y hy
      rw [hleft.mem]
      simp [hy]
    · rw [hleft.mem]
      simp
  · exact handled_of_left (hcur ▸ hleft) hb.nextptr
  · rw [hcur]
    exact .listening ((h.running p).1 hp) hcall hpp hbuf hint hnone hleft.eq
      ⟨rfl, rfl, rfl, rfl, rfl, rfl, fun _ => rfl, rfl, rfl, rfl, rfl, rfl, rfl, rfl, rfl⟩

/-- A receive takes the message of the sender `w`, which may run then. -/
theorem IpcInv.removeFromSendersList (h : IpcInv procs s q m) (hb : Between s.sched q)
    (hp : p ∈ q) (hcur : s.sched.curptr = p) (hcall : e.call = some 2) (hbuf : BufferOk s p)
    (hint : s.interrupts p = 0) (hwp : m.place w = .sending p)
    (hacc : Picks s p (s.regs p).ebxReg w) :
    Outcome procs s m e (((((s.exchangeData w p).setEax p (s.exchangeBytes w p)).setEax w
      (s.exchangeBytes w p)).removeFromSendersList w p).map fun s =>
        (s.setErr w Err.ok).setErr p Err.ok) := by
  have hpp := h.mem_procs hp
  have hwm := h.place_mem w (by simp [hwp])
  have hwq : w ∉ q := fun hwq => by
    rw [h.running, hwp] at hwq
    exact absurd hwq (by simp)
  have hne : w ≠ p := fun heq => hwq (heq ▸ hp)
  generalize hk : ((s.exchangeData w p).setEax p (s.exchangeBytes w p)).setEax w
    (s.exchangeBytes w p) = k
  have hlists : Threaded procs k m := by
    subst hk
    exact h.lists.congr rfl rfl (fun _ => rfl) rfl rfl
  have hregs : k.regs = (((s.exchangeData w p).setEax w (s.exchangeBytes w p)).setEax p
      (s.exchangeBytes w p)).regs := by
    rw [← hk]
    simp only [setEax, setRegs_regs]
    funext x
    by_cases hxw : x = w
    · subst hxw
      simp [hne]
    · by_cases hxp : x = p
      · subst hxp
        simp [hxw]
      · simp [hxw, hxp]
  obtain ⟨next, first, hrem, hth⟩ := hlists.removeFromSendersList hpp hwp
  obtain ⟨t, q', hset, hent⟩ := unsetStateFlag_spec (f := Flag.sending)
    (s := { k with nextSender := next, firstSender := first }) (q := q)
    (by rw [← hk]; exact h.queue) hwm hwq (by rw [← hk]; exact h.sending_state hwp)
  have hent' : Entered procs w s.sched t q q' := by
    rw [← hk] at hent
    exact hent
  rw [hrem, hset, Option.map_some]
  refine ⟨_, q', m.take w p hwp, rfl, ?_, ?_, ?_⟩
  · refine h.moved hwm rfl hent.inv (hth.congr rfl rfl (fun _ => rfl) rfl rfl) ?_ ?_ (by simp)
      (by simp) ?_ (by rw [← hk]; rfl) ?_ (update_self ..)
    · intro y hy
      rw [hent'.mem]
      simp [hy]
    · rw [hent'.mem]
      simp
    · rw [← hk]
      exact h.supplier
    · intro y hy
      rw [← hk]
      exact update_of_ne hy _ _
  · exact hb.handled hent'.curptr hent'.nextptr fun x hx => (hent'.mem x).2 (Or.inr hx)
  · rw [hcur]
    refine .fetched hwp hcall hpp ((h.running p).1 hp) hbuf hint hacc hent'.eq ⟨?_, ?_, ?_, ?_, ?_,
      ?_, ?_, ?_, ?_, ?_, ?_, ?_, ?_, ?_, ?_⟩
    · exact delivered_regs hne hregs
    all_goals
      rw [← hk]
      first
      | rfl
      | exact fun _ => rfl

theorem IpcInv.syscallReceive (h : IpcInv procs s q m) (hb : Between s.sched q)
    (hp : p ∈ q) (hcur : s.sched.curptr = p) (hcall : e.call = some 2) :
    Outcome procs s m e s.syscallReceive := by
  rw [Kernel.syscallReceive]
  simp only [hcur]
  by_cases hbuf : s.validateDataArea p (s.regs p).edxReg (s.regs p).ecxReg = 0
  swap
  · rw [if_pos hbuf]
    exact hcur ▸ h.outcome_setErr hb (by decide) hcall
      (fun _ => ⟨by rw [hcur]; exact hbuf, rfl⟩) fun _ => by decide
  rw [if_neg (not_not.2 hbuf)]
  by_cases hint : s.interrupts p = 0
  swap
  · rw [if_pos hint]
    exact h.outcome_reported hb hp hcur hcall hint
  rw [if_neg (not_not.2 hint)]
  obtain ⟨w, hw, hfound⟩ := h.lists.getSender_spec (h.mem_procs hp) (s.regs p).ebxReg
  rw [hw, Option.bind_some]
  rcases hfound with ⟨rfl, hnone⟩ | ⟨hwn, hws, hacc⟩
  · rw [if_neg (by simp)]
    exact h.markAsReceivingFrom hb hp hcur hcall hbuf hint hnone
  · rw [if_pos hwn]
    exact h.removeFromSendersList hb hp hcur hcall hbuf hint (m.mem_senders.1 hws) hacc

/-! ## Suppliers -/

theorem IpcInv.adopt (h : IpcInv procs s q m) (hp : p ∈ procs) (hlt : i < featureTableSize) :
    IpcInv procs { s with
      firstSender := update s.firstSender p (s.featureTable i).waiter
      featureTable := update s.featureTable i { supplier := p, waiter := null } } q
      (m.adopt p i) where
  queue := h.queue
  lists := h.lists.adopt hlt
  running x := by
    rw [h.running]
    rcases Rendezvous.adopt_cases (m := m) (r := p) (i := i) (x := x) with
      ⟨hx, hx'⟩ | ⟨hx, hx'⟩ | ⟨-, -, hx'⟩
    · simp [hx, hx']
    · simp [hx, hx']
    · rw [hx']
  place_mem x hx := by
    rcases Rendezvous.adopt_cases (m := m) (r := p) (i := i) (x := x) with
      ⟨hx₁, -⟩ | ⟨hx₁, -⟩ | ⟨-, -, hx₁⟩
    · exact h.place_mem x (by simp [hx₁])
    · exact h.place_mem x (by simp [hx₁])
    · exact h.place_mem x (hx₁ ▸ hx)
  receiver_mem x r hx := by
    rcases Rendezvous.adopt_cases (m := m) (r := p) (i := i) (x := x) with
      ⟨-, hx₁⟩ | ⟨-, hx₁⟩ | ⟨-, -, hx₁⟩
    · rw [hx₁] at hx
      exact Place.sending.inj hx ▸ hp
    · exact absurd (hx₁.symm.trans hx) (by simp)
    · exact h.receiver_mem x r (hx₁ ▸ hx)
  entry_lt x j hx := h.entry_lt x j (Rendezvous.place_of_adopt hx (by simp) (by simp))
  supplier j hj := by
    rw [Rendezvous.adopt_waiters]
    by_cases hji : j = i
    · subst hji
      simp only [update_self]
      exact Or.inr ⟨hp, trivial⟩
    · simp only [update_of_ne hji]
      exact h.supplier j hj
  irqs := h.irqs
  state x hxp := by
    have hst := h.state x hxp
    rcases Rendezvous.adopt_cases (m := m) (r := p) (i := i) (x := x) with
      ⟨hx, hx'⟩ | ⟨hx, hx'⟩ | ⟨-, -, hx'⟩
    · rw [hx] at hst
      rw [hx']
      exact Or.inl hst
    · rw [hx] at hst
      rw [hx']
      exact hst
    · rw [hx']
      exact hst

theorem IpcInv.syscallSetFeature (h : IpcInv procs s q m) (hb : Between s.sched q)
    (hp : p ∈ q) (hcur : s.sched.curptr = p) (hcall : e.call = some 1)
    (hf : HasEntry (s.regs p).ebxReg) : Outcome procs s m e s.syscallSetFeature := by
  have hpp := h.mem_procs hp
  have hfail : ∀ err : Word, err ≠ Err.ok → Outcome procs s m e (some (s.setErr p err)) :=
    fun err herr => hcur ▸ h.outcome_setErr hb (by decide) hcall
      (fun he => absurd he (by decide)) fun _ => herr
  rw [Kernel.syscallSetFeature]
  obtain ⟨c, hc0, hc⟩ | ⟨hc, i, hlt, hi⟩ := hf.check
  · simp only [hcur, hc, Option.bind_some, if_pos hc0]
    exact hfail _ (by decide)
  simp only [hcur, hc, Option.bind_some]
  rw [if_neg (not_not.2 rfl), setFeature, hi, Option.map_some, Option.map_some]
  by_cases hsup : (s.featureTable i).supplier = null
  swap
  · rw [if_pos hsup]
    exact hfail _ (by decide)
  rw [if_neg (not_not.2 hsup)]
  refine ⟨_, q, m.adopt p i, rfl, ?_, hb.handled rfl rfl fun _ hx => hx, ?_⟩
  · exact (h.adopt hpp hlt).congr rfl rfl rfl rfl rfl h.irqs
  · rw [hcur]
    exact .adopted hcall hpp ((h.running p).1 hp) hc hi hsup rfl
      ⟨rfl, rfl, rfl, rfl, rfl, rfl, fun _ => rfl, rfl, rfl, rfl, rfl, rfl, rfl, rfl, rfl⟩

/-! ## Exit -/

/-- The releases of `syscall_exit` touch the bitmaps and the interrupts only. -/
structure Released (s s' : Kernel) : Prop where
  sched : s'.sched = s.sched
  regs : s'.regs = s.regs
  state : s'.state = s.state
  interrupts : s'.interrupts = s.interrupts
  idxTss : s'.idxTss = s.idxTss
  firstSender : s'.firstSender = s.firstSender
  nextSender : s'.nextSender = s.nextSender
  receivingFrom : s'.receivingFrom = s.receivingFrom
  featureTable : s'.featureTable = s.featureTable
  gdt : s'.gdt = s.gdt
  exchanges : s'.exchanges = s.exchanges
  irqs : s'.irqs = s.irqs

omit [Layout] in
theorem Released.refl (s : Kernel) : Released s s :=
  ⟨rfl, rfl, rfl, rfl, rfl, rfl, rfl, rfl, rfl, rfl, rfl, rfl⟩

omit [Layout] in
theorem Released.trans (h : Released s s') (h' : Released s' k) : Released s k where
  sched := h'.sched.trans h.sched
  regs := h'.regs.trans h.regs
  state := h'.state.trans h.state
  interrupts := h'.interrupts.trans h.interrupts
  idxTss := h'.idxTss.trans h.idxTss
  firstSender := h'.firstSender.trans h.firstSender
  nextSender := h'.nextSender.trans h.nextSender
  receivingFrom := h'.receivingFrom.trans h.receivingFrom
  featureTable := h'.featureTable.trans h.featureTable
  gdt := h'.gdt.trans h.gdt
  exchanges := h'.exchanges.trans h.exchanges
  irqs := h'.irqs.trans h.irqs

theorem released_freeSegment (s : Kernel) (selector : BitVec 16) :
    Released s (s.freeSegment selector) := by
  unfold freeSegment
  split
  · exact ⟨rfl, rfl, rfl, rfl, rfl, rfl, rfl, rfl, rfl, rfl, rfl, rfl⟩
  · exact .refl s

theorem released_freePid (s : Kernel) (pid : Word) : Released s (s.freePid pid) :=
  ⟨rfl, rfl, rfl, rfl, rfl, rfl, rfl, rfl, rfl, rfl, rfl, rfl⟩

omit [Layout] in
/-- `release_irqs_taken` takes the process out of the entries below `MAX_IRQ`. -/
theorem releaseIrqsTaken_eq (s : Kernel) (p : Ptr) : s.releaseIrqsTaken p =
    { s with irqs := fun n => if n < maxIrq ∧ s.irqs n = p then null else s.irqs n } := by
  have hfold : ∀ (l : List Nat) (s : Kernel), l.foldl (fun s i =>
      if s.irqs i = p then { s with irqs := update s.irqs i null } else s) s =
      { s with irqs := fun n => if n ∈ l ∧ s.irqs n = p then null else s.irqs n } := by
    intro l
    induction l with
    | nil =>
      intro s
      simp
    | cons a l ih =>
      intro s
      rw [List.foldl_cons, ih]
      have hirqs : ∀ (t : Kernel), t.irqs = (if s.irqs a = p then update s.irqs a null else s.irqs) →
          (fun n => if n ∈ l ∧ t.irqs n = p then null else t.irqs n) =
            fun n => if n ∈ a :: l ∧ s.irqs n = p then null else s.irqs n := by
        intro t ht
        funext n
        rw [ht]
        by_cases hn : n = a
        · subst hn
          by_cases hp : s.irqs n = p
          · simp [hp]
          · simp [hp]
        · split
          · simp [hn]
          · simp [hn]
      by_cases hp : s.irqs a = p
      · rw [if_pos hp]
        dsimp only
        rw [hirqs { s with irqs := update s.irqs a null } (if_pos hp).symm]
      · rw [if_neg hp, hirqs s (if_neg hp).symm]
  rw [releaseIrqsTaken, hfold]
  simp only [List.mem_range]

/-- What `syscall_exit` does before it takes its caller off the queue. -/
def exitUnblocked (s : Kernel) : Option Kernel :=
  let curptr := s.sched.curptr
  let s := { s with state := update s.state curptr Flag.empty }
  let s := s.freeSegment (s.regs curptr).csReg
  let s := s.freeSegment (s.regs curptr).dsReg
  let s := s.freeSegment (s.regs curptr).esReg
  let s := s.freeSegment (s.regs curptr).fsReg
  let s := s.freeSegment (s.regs curptr).gsReg
  let s := s.freeSegment (s.regs curptr).ssReg
  let s := s.freePid ((s.pid curptr).setWidth 32)
  let s := s.releaseIrqsTaken curptr
  unblockWaitingSenders curptr walkFuel s

/-- `syscall_exit` leaves the queue last. -/
theorem syscallExit_eq_bind (s : Kernel) :
    s.syscallExit = s.exitUnblocked.bind fun k => k.dequeue s.sched.curptr := rfl

/-- `syscall_exit` releases what its caller has, and wakes the waiting senders. -/
theorem exitUnblocked_eq (hcur : s.sched.curptr = p) :
    ∃ k : Kernel, s.exitUnblocked = unblockWaitingSenders p walkFuel k ∧
      Released { s with state := update s.state p Flag.empty } { k with irqs := s.irqs } ∧
      ∀ n, k.irqs n = if n < maxIrq ∧ s.irqs n = p then null else s.irqs n := by
  rw [exitUnblocked]
  dsimp only
  rw [hcur]
  generalize hk₀ : ({ s with state := update s.state p Flag.empty } : Kernel) = k₀
  generalize hk : ((((((k₀.freeSegment _).freeSegment _).freeSegment _).freeSegment _).freeSegment
    _).freeSegment _).freePid _ = k
  have hrel : Released k₀ k := by
    rw [← hk]
    exact (released_freeSegment _ _).trans <| (released_freeSegment _ _).trans <|
      (released_freeSegment _ _).trans <| (released_freeSegment _ _).trans <|
      (released_freeSegment _ _).trans <| (released_freeSegment _ _).trans <|
      released_freePid _ _
  have hirqs : k.irqs = s.irqs := by rw [hrel.irqs, ← hk₀]
  rw [releaseIrqsTaken_eq]
  refine ⟨_, rfl, ?_, fun n => by rw [hirqs]⟩
  exact ⟨hrel.sched, hrel.regs, hrel.state, hrel.interrupts, hrel.idxTss, hrel.firstSender,
    hrel.nextSender, hrel.receivingFrom, hrel.featureTable, hrel.gdt, hrel.exchanges,
    hirqs.symm.trans hrel.irqs⟩

/-- The senders that wait for the caller of `syscall_exit` are woken. -/
theorem IpcInv.exitUnblocked (h : IpcInv procs s q m) (hp : p ∈ q) (hcur : s.sched.curptr = p) :
    ∃ (k : Kernel) (next first : Ptr → Ptr) (t : Sched) (q₁ : List Ptr),
      s.exitUnblocked = some { k with
        regs := diedRegs (m.senders p) k.regs
        state := fun x => if x ∈ m.senders p then 0 else k.state x
        nextSender := next
        firstSender := first
        sched := t } ∧
      Released { s with state := update s.state p Flag.empty } { k with irqs := s.irqs } ∧
      (∀ n, k.irqs n = if n < maxIrq ∧ s.irqs n = p then null else s.irqs n) ∧
      Threaded procs { k with nextSender := next, firstSender := first } (m.release p) ∧
      AllEntered procs (m.senders p) s.sched t q q₁ := by
  have hpp := h.mem_procs hp
  have hprun := (h.running p).1 hp
  have hpl : p ∉ m.senders p := fun hmem => absurd (m.mem_senders.1 hmem) (by simp [hprun])
  obtain ⟨k, heq, hrel, hirqs⟩ := exitUnblocked_eq hcur
  have hstate : k.state = update s.state p Flag.empty := hrel.state
  have hsched : k.sched = s.sched := hrel.sched
  have hlists : Threaded procs k m :=
    h.lists.congr hrel.nextSender hrel.firstSender (fun i => by rw [hrel.featureTable]) rfl rfl
  obtain ⟨next, first, t, q₁, hun, hth, hall⟩ := hlists.unblockWaitingSenders hpp (m.senders p)
    (q := q) (n := walkFuel) rfl (fun x hx => by
      have hxs := m.mem_senders.1 hx
      have hxp : x ≠ p := ne_of_mem_of_not_mem hx hpl
      refine ⟨h.place_mem x (by simp [hxs]), ?_, ?_⟩
      · rw [h.running, hxs]
        simp
      · rw [hstate, update_of_ne hxp]
        exact h.sending_state hxs) (hsched ▸ h.queue) (length_lt_walkFuel (h.lists.senders p hpp))
  exact ⟨k, next, first, t, q₁, heq.trans hun, hrel, hirqs, hth, hsched ▸ hall⟩

theorem IpcInv.syscallExit (h : IpcInv procs s q m) (hb : Between s.sched q)
    (hp : p ∈ q) (hcur : s.sched.curptr = p) (hcall : e.call = some 0) :
    Outcome procs s m e s.syscallExit := by
  have hpp := h.mem_procs hp
  have hprun := (h.running p).1 hp
  have hps : m.place p ≠ .sending p := by simp [hprun]
  have hpl : p ∉ m.senders p := fun hmem => hps (m.mem_senders.1 hmem)
  obtain ⟨k, next, first, t, q₁, hun, hrel, hirqs, hth, hall⟩ := h.exitUnblocked hp hcur
  rw [syscallExit_eq_bind]
  have hstate : k.state = update s.state p Flag.empty := hrel.state
  obtain ⟨t', q', hleft⟩ := hall.inv.left ((hall.mem p).2 (Or.inr hp))
  have hoff : ((m.release p).place p).Off := by
    rw [Rendezvous.release_place_of_ne hps, hprun]
    exact Place.off_running
  rw [hun, Option.bind_some, hcur, Kernel.dequeue, hleft.eq, Option.map_some]
  have hmem : ∀ x, x ∈ q' ↔ x ≠ p ∧ (m.place x = .sending p ∨ m.place x = .running) := by
    intro x
    rw [hleft.mem, hall.mem, m.mem_senders, h.running]
  refine ⟨_, q', (m.release p).move p .exited hoff Place.off_exited, rfl, ?_, ?_, ?_⟩
  · have hcases := fun x => Rendezvous.release_cases (m := m) (r := p) (x := x)
    refine ⟨hleft.inv, hth.congr rfl rfl (fun _ => rfl) rfl rfl, ?_, ?_, ?_, ?_, ?_, ?_, ?_⟩
    · intro x
      rw [hmem, Rendezvous.move_place]
      by_cases hx : x = p
      · simp [hx]
      · rw [update_of_ne hx]
        rcases hcases x with ⟨hx₁, hx₂⟩ | ⟨hx₁, hx₂⟩
        · simp [hx, hx₁, hx₂]
        · simp [hx, hx₁, hx₂]
    · intro x hx
      rw [Rendezvous.move_place] at hx
      by_cases hxp : x = p
      · exact hxp ▸ hpp
      · rw [update_of_ne hxp] at hx
        rcases hcases x with ⟨hx₁, hx₂⟩ | ⟨hx₁, hx₂⟩
        · exact h.place_mem x (by simp [hx₁])
        · exact h.place_mem x (hx₂ ▸ hx)
    · intro x r hx
      rw [Rendezvous.move_place] at hx
      by_cases hxp : x = p
      · simp [hxp] at hx
      · rw [update_of_ne hxp] at hx
        exact h.receiver_mem x r (Rendezvous.place_of_release hx (by simp))
    · intro x j hx
      rw [Rendezvous.move_place] at hx
      by_cases hxp : x = p
      · simp [hxp] at hx
      · rw [update_of_ne hxp] at hx
        exact h.entry_lt x j (Rendezvous.place_of_release hx (by simp))
    · intro j hj
      dsimp only
      rw [hrel.featureTable]
      exact h.supplier j hj
    · intro n hn
      dsimp only
      rw [hirqs]
      split
      · exact Or.inl rfl
      · exact h.irqs n hn
    · intro x hx
      rw [Rendezvous.move_place]
      dsimp only
      by_cases hxp : x = p
      · rw [hxp, update_self, if_neg hpl, hstate, update_self]
        rfl
      · rw [update_of_ne hxp]
        rcases hcases x with ⟨hx₁, hx₂⟩ | ⟨hx₁, hx₂⟩
        · rw [hx₂, if_pos (m.mem_senders.2 hx₁)]
          rfl
        · rw [hx₂, if_neg fun hmem => hx₁ (m.mem_senders.1 hmem), hstate, update_of_ne hxp]
          exact h.state x hx
  · have hcurt : t.curptr = p := hall.curptr.trans hcur
    have hnextt : t.nextptr = null := hall.nextptr.trans hb.nextptr
    exact handled_of_left (hcurt ▸ hleft) hnextt
  · rw [hcur]
    refine .exited hoff hcall hpp hprun hall.eq hleft.eq ?_ hrel.interrupts
      hrel.receivingFrom hrel.gdt hrel.idxTss hrel.exchanges (fun i => ?_) hirqs fun x => ?_
    · exact congrArg (diedRegs (m.senders p)) hrel.regs
    · dsimp only
      rw [hrel.featureTable]
    · dsimp only
      rw [hstate]

/-! ## Ports, addresses and requests of interrupts -/

/-- A call that concerns its caller's registers and the ports. -/
structure LocalCall (s s' : Kernel) : Prop where
  eq : s' = { s with regs := s'.regs, portAccessers := s'.portAccessers, portLog := s'.portLog }
  regs : ∀ x ≠ s.sched.curptr, s'.regs x = s.regs x

section

omit [Layout]

theorem localCall_setErr (s : Kernel) (err : Word) :
    LocalCall s (s.setErr s.sched.curptr err) :=
  ⟨rfl, fun _ hx => update_of_ne hx _ _⟩

theorem localCall_syscallInb (s : Kernel) (input : Word) : LocalCall s (s.syscallInb input) := by
  unfold syscallInb
  dsimp only
  split
  · exact localCall_setErr s _
  · exact ⟨rfl, fun _ hx => (update_of_ne hx _ _).trans (update_of_ne hx _ _)⟩

theorem localCall_syscallInw (s : Kernel) (input : Word) : LocalCall s (s.syscallInw input) := by
  unfold syscallInw
  dsimp only
  split
  · exact localCall_setErr s _
  · exact ⟨rfl, fun _ hx => (update_of_ne hx _ _).trans (update_of_ne hx _ _)⟩

theorem localCall_syscallOutb (s : Kernel) : LocalCall s s.syscallOutb := by
  unfold syscallOutb
  dsimp only
  split
  · exact localCall_setErr s _
  · exact ⟨rfl, fun _ hx => update_of_ne hx _ _⟩

theorem localCall_syscallOutw (s : Kernel) : LocalCall s s.syscallOutw := by
  unfold syscallOutw
  dsimp only
  split
  · exact localCall_setErr s _
  · exact ⟨rfl, fun _ hx => update_of_ne hx _ _⟩

theorem localCall_syscallVir2phys (s : Kernel) : LocalCall s s.syscallVir2phys := by
  unfold syscallVir2phys
  dsimp only
  split
  · exact localCall_setErr s _
  · exact ⟨rfl, fun _ hx => update_of_ne hx _ _⟩

theorem localCall_syscallClaimPort (s : Kernel) : LocalCall s s.syscallClaimPort := by
  unfold syscallClaimPort
  dsimp only
  split
  · exact localCall_setErr s _
  · exact ⟨rfl, fun _ _ => rfl⟩

end

theorem IpcInv.outcome_local (h : IpcInv procs s q m) (hb : Between s.sched q)
    (hl : LocalCall s s') {n : Nat} (hcall : e.call = some n) (hn : n ≠ 0) (hn₂ : n ≠ 2)
    (hn₃ : n ≠ 3) (hn₄ : n ≠ 4) : Outcome procs s m e (some s') := by
  rw [hl.eq]
  exact h.outcome_quiet hb (.local hn hcall hl.regs (fun he => absurd he hn₂)
    fun he => absurd he (by omega))

theorem IpcInv.syscallRequestIrq (h : IpcInv procs s q m) (hb : Between s.sched q)
    (hp : s.sched.curptr ∈ q) (hcall : e.call = some 4) :
    Outcome procs s m e (some s.syscallRequestIrq) := by
  have hrefuse : ∀ err, err ≠ Err.ok →
      Outcome procs s m e (some (s.setErr s.sched.curptr err)) :=
    fun err herr => h.outcome_setErr hb (by decide) hcall (fun he => absurd he (by decide))
      fun _ => herr
  unfold Kernel.syscallRequestIrq
  dsimp only
  split
  next => exact hrefuse _ (by decide)
  split
  next => exact hrefuse _ (by decide)
  next =>
    refine h.outcome_quiet hb ⟨rfl, rfl, rfl, rfl, rfl, rfl, rfl, rfl, rfl,
      .granted hcall rfl rfl (h.mem_procs hp) ?_, fun x hx => update_of_ne hx _ _,
      .same rfl (by simp [Event.irq_of_call hcall]) (by simp [hcall]), by simp [hcall],
      by simp [hcall]⟩
    rw [setErr, setRegs_regs, update_self]

/-! ## The interrupts of devices -/

theorem IpcInv.notifyIrq {n : Nat} (h : IpcInv procs s q m) (hb : Between s.sched q)
    (hn : n ≤ maxIrq) (hr : s.irqs n ≠ null) (hirq : e.irq = some n) (hcall : e.call = none) :
    Outcome procs s m e (s.notifyIrq n) := by
  generalize hrn : s.irqs n = r at hr
  have hrm : r ∈ procs := hrn ▸ (h.irqs n hn).resolve_left (hrn ▸ hr)
  rw [Kernel.notifyIrq]
  simp only [hrn]
  by_cases hflag : s.state r &&& Flag.receiving = 0
  · -- the owner will be told by its next receive
    rw [if_neg (not_not.2 hflag)]
    refine h.outcome_quiet hb ⟨rfl, rfl, rfl, rfl, rfl, rfl, rfl, rfl, rfl,
      .same rfl (by simp [hcall]), fun _ _ => rfl, .raised hirq ?_ ?_ ?_, by simp [hcall], fun he => ?_⟩
    · rwa [hrn]
    · rwa [hrn]
    · rw [hrn]
    · simp [hcall] at he
  · -- the interrupt ends the receive of its owner
    rw [if_pos hflag]
    have hrr := (h.receiving_iff hrm).1 hflag
    obtain ⟨-, hrq, hstate⟩ := h.receiving_off hrr
    obtain ⟨t, q', hset, hent⟩ := unsetStateFlag_spec (f := Flag.receiving)
      (s := { s.setErr r ((1#16 <<< n).setWidth 32) with
        receivingFrom := update s.receivingFrom r null }) h.queue hrm hrq hstate
    have hclear : (s.setErr r ((1#16 <<< n).setWidth 32)).clearReceivingFrom r = _ := hset
    rw [hclear, Option.map_some]
    refine ⟨_, q', m.move r .running (Rendezvous.off_of_receiving hrr) Place.off_running, rfl, ?_,
      hb.handled hent.curptr hent.nextptr fun x hx => (hent.mem x).2 (Or.inr hx), ?_⟩
    · refine h.moved hrm rfl hent.inv (h.lists.congr rfl rfl (fun _ => rfl) rfl rfl) ?_ ?_
        (by simp) (by simp) h.supplier rfl (fun y hy => update_of_ne hy _ _) (update_self ..)
      · intro y hy
        rw [hent.mem]
        simp [hy]
      · rw [hent.mem]
        simp
    · refine .rung hrr hirq hcall hrn hn hent.eq
        ⟨?_, rfl, rfl, rfl, rfl, rfl, fun _ => rfl, rfl, rfl, rfl, rfl, rfl, rfl, rfl, rfl⟩
      simp only [setEax, setErr, setRegs_regs, update_self, Function.update_idem]

/-! ## One interrupt -/

/-- The features that the call of an event uses have entries in the table. -/
def FeatureOk (e : Event) : Prop :=
  e.call = some 1 ∨ e.call = some 3 → HasEntry e.regs.ebxReg

instance (e : Event) : Decidable (FeatureOk e) := inferInstanceAs (Decidable (_ → _))

theorem IpcInv.syscallIsr (h : IpcInv procs s q m) (hb : Between s.sched q)
    (hp : s.sched.curptr ∈ q) {n : Nat} (hn : (s.regs s.sched.curptr).eaxReg.toNat = n)
    (hcall : e.call = some n) (input : Word)
    (hf : n = 1 ∨ n = 3 → HasEntry (s.regs s.sched.curptr).ebxReg) :
    Outcome procs s m e (s.syscallIsr input) := by
  have hlocal : n ≠ 0 → n ≠ 2 → n ≠ 3 → n ≠ 4 → ∀ {s'}, LocalCall s s' →
      Outcome procs s m e (some s') :=
    fun h₀ h₂ h₃ h₄ _ hl => h.outcome_local hb hl hcall h₀ h₂ h₃ h₄
  rw [Kernel.syscallIsr, hn]
  split
  · exact h.syscallExit hb hp rfl hcall
  · exact h.syscallSetFeature hb hp rfl hcall (hf (by simp))
  · exact h.syscallReceive hb hp rfl hcall
  · exact h.syscallSendByFeature hb hp rfl hcall (hf (by simp))
  · exact h.syscallRequestIrq hb hp hcall
  · exact hlocal (by decide) (by decide) (by decide) (by decide) (localCall_syscallInb s input)
  · exact hlocal (by decide) (by decide) (by decide) (by decide) (localCall_syscallClaimPort s)
  · exact hlocal (by decide) (by decide) (by decide) (by decide) (localCall_syscallOutb s)
  · exact hlocal (by decide) (by decide) (by decide) (by decide) (localCall_syscallInw s input)
  · exact hlocal (by decide) (by decide) (by decide) (by decide) (localCall_syscallOutw s)
  · exact hlocal (by decide) (by decide) (by decide) (by decide) (localCall_syscallVir2phys s)
  · exact hlocal (by assumption) (by assumption) (by assumption) (by assumption)
      (localCall_setErr s _)

omit [Layout] in
theorem clockIsr_sched (s : Kernel) : s.clockIsr.sched = s.sched := by
  unfold clockIsr
  dsimp only
  split_ifs <;> rfl

omit [Layout] in
theorem quiet_clockIsr (s : Kernel) (hirq : e.irq = none) (hcall : e.call = none) :
    Quiet procs s e s.clockIsr := by
  have hpends : Pends s e s.clockIsr := .same (by unfold clockIsr; dsimp only; split_ifs <;> rfl)
    (by simp [hirq]) (by simp [hcall])
  have hfail : e.call = some 2 ∨ e.call = some 3 →
      (s.clockIsr.regs s.sched.curptr).esiReg ≠ Err.ok := by simp [hcall]
  unfold clockIsr at hfail hpends ⊢
  dsimp only at hfail hpends ⊢
  split_ifs at hfail hpends ⊢ <;>
    exact ⟨rfl, rfl, rfl, rfl, rfl, rfl, rfl, rfl, rfl, .same rfl (by simp [hcall]),
      fun _ _ => rfl, hpends, by simp [hcall], hfail⟩

/-- Handling an event that can come has one of the effects. -/
theorem IpcInv.handle (h : IpcInv procs s q m) (hb : Between s.sched q) (he : s.Enabled e)
    (hregs : s.sched.curptr ≠ null → s.regs s.sched.curptr = e.regs) (hf : FeatureOk e) :
    Outcome procs s m e (s.handle e.number e.input) := by
  cases e with
  | timer regs => exact h.outcome_quiet hb (quiet_clockIsr s rfl rfl)
  | device n regs =>
    obtain ⟨h0, h2, hn⟩ := he
    show Outcome procs s m _ (s.handle n 0)
    rw [Kernel.handle, if_neg h0, if_neg h2]
    split
    next hr =>
      exact h.outcome_quiet hb ⟨rfl, rfl, rfl, rfl, rfl, rfl, rfl, rfl, rfl,
        .same rfl (by simp [Event.call]), fun _ _ => rfl, .same rfl (fun i hi => Option.some.inj hi ▸ hr) (by simp [Event.call]),
        by simp [Event.call], by simp [Event.call]⟩
    next hr => exact h.notifyIrq hb hn hr rfl rfl
  | syscall regs input =>
    obtain ⟨hnull, hidle⟩ := he
    have hp : s.sched.curptr ∈ q := (hb.curptr.resolve_left hnull).resolve_left hidle
    have hregs : s.regs s.sched.curptr = regs := hregs hnull
    refine h.syscallIsr hb hp (n := regs.eaxReg.toNat) (by rw [hregs]) rfl input ?_
    rw [hregs]
    intro hn
    refine hf ?_
    simpa [Event.call] using hn

/-! ## The end of `do_hard_int` -/

theorem sameQueue_finish (s : Kernel) : Sched.SameQueue s.sched s.finish.sched := by
  unfold finish
  split
  · exact (Sched.sameQueue_chargeProcess _).trans (Sched.sameQueue_pickNextProc _)
  · exact .rfl

theorem IpcInv.finish (h : IpcInv procs s q m) : IpcInv procs s.finish q m := by
  have hq := h.queue.congr (sameQueue_finish s)
  unfold Kernel.finish at hq ⊢
  split at hq
  next hn =>
    rw [if_pos hn]
    exact ⟨hq, h.lists.congr rfl rfl (fun _ => rfl) rfl rfl, h.running, h.place_mem,
      h.receiver_mem, h.entry_lt, h.supplier, h.irqs, h.state⟩
  next hn =>
    rw [if_neg hn]
    exact h

/-- `do_hard_int` leaves a choice. -/
theorem IpcInv.chosen (h : IpcInv procs s q m) (hh : Handled s.sched q) :
    Chosen s.finish.sched q := by
  have hq := h.queue.congr (Sched.sameQueue_chargeProcess s.sched)
  unfold Kernel.finish
  rcases hh with hnext | ⟨hnext, hcur⟩
  · have hne : s.sched.nextptr ≠ null := h.ne_null (h.mem_procs hnext)
    rw [if_neg hne]
    exact Or.inl hnext
  rw [if_pos hnext]
  show Chosen s.sched.chargeProcess.pickNextProc q
  by_cases hnil : q = []
  · refine Or.inr ⟨hnil, ?_⟩
    rw [Sched.pickNextProc_of_head (hq.head_eq_null_iff.2 hnil), Sched.pick_nextptr]
  · refine Or.inl ?_
    rw [hq.linked.pickNextProc_eq hnil, Sched.chargeProcess_nextptr, if_pos hnext,
      Sched.chargeProcess_curptr]
    refine hq.linked.pickAfter_mem hnil ?_
    rcases hcur with hc | hc | hc | hc
    · exact Or.inl hc
    · exact Or.inr (Or.inl hc)
    · exact Or.inr (Or.inr hc)
    · exact absurd hc hnil

theorem IpcInv.schedule (h : IpcInv procs s q m) (n : Nat) : IpcInv procs (s.schedule n) q m :=
  ⟨h.queue.congr (Sched.sameQueue_schedule _), h.lists.congr rfl rfl (fun _ => rfl) rfl rfl,
    h.running, h.place_mem, h.receiver_mem, h.entry_lt, h.supplier, h.irqs, h.state⟩

theorem Chosen.between {t : Sched} (hc : Chosen t q) : Between t.schedule q where
  nextptr := rfl
  curptr := by
    rcases hc with hc | ⟨-, hc⟩
    · exact Or.inr (Or.inr hc)
    · exact Or.inr (Or.inl hc)

omit [Layout] in
@[simp] theorem saveContext_sched (s : Kernel) (regs : Regs) :
    (s.saveContext regs).sched = s.sched := by
  unfold saveContext
  split <;> rfl

theorem IpcInv.saveContext (h : IpcInv procs s q m) (regs : Regs) :
    IpcInv procs (s.saveContext regs) q m := by
  unfold Kernel.saveContext
  split
  · exact h
  · exact h.congr rfl rfl rfl rfl rfl h.irqs

/-- An interrupt that finds the system between two interrupts is handled with one of the
effects and leaves a choice. -/
theorem IpcInv.interrupt (h : IpcInv procs s q m) (hb : Between s.sched q) (he : s.Enabled e)
    (hf : FeatureOk e) :
    ∃ k q' m', s.interrupt e = some k.finish ∧ IpcInv procs k q' m' ∧ Chosen k.finish.sched q' ∧
      Effect procs (s.saveContext e.regs) m s.sched.curptr e k m' := by
  have hsched : (s.saveContext e.regs).sched = s.sched := saveContext_sched s e.regs
  have he' : (s.saveContext e.regs).Enabled e := by
    unfold Enabled at he ⊢
    rwa [hsched]
  have hregs : (s.saveContext e.regs).sched.curptr ≠ null →
      (s.saveContext e.regs).regs (s.saveContext e.regs).sched.curptr = e.regs := by
    rw [hsched]
    intro hn
    unfold Kernel.saveContext
    rw [if_neg hn]
    exact update_self ..
  obtain ⟨k, q', m', hk, hinv, hhand, heff⟩ :=
    (h.saveContext e.regs).handle (hsched.symm ▸ hb) he' hregs hf
  refine ⟨k, q', m', ?_, hinv, hinv.chosen hhand, hsched ▸ heff⟩
  rw [Kernel.interrupt, doHardInt, hk, Option.map_some]

/-- The call of an event whose handling is defined only uses features the table has. -/
theorem featureOk_of_interrupt (he : s.Enabled e) (hs : s.interrupt e = some k) : FeatureOk e := by
  intro hcall hcheck
  by_contra hnone
  rw [Bool.not_eq_true, Option.isSome_eq_false_iff, Option.isNone_iff_eq_none] at hnone
  cases e with
  | timer regs => simp [Event.call] at hcall
  | device n regs => simp [Event.call] at hcall
  | syscall regs input =>
    have hregs : (s.saveContext regs).regs s.sched.curptr = regs := by
      unfold Kernel.saveContext
      rw [if_neg he.1]
      exact update_self ..
    have hcur : (s.saveContext regs).sched.curptr = s.sched.curptr := by
      rw [saveContext_sched]
    have hisr : (s.saveContext regs).syscallIsr input = none := by
      rw [Kernel.syscallIsr, hcur, hregs]
      simp only [Event.regs] at hcheck hnone
      rcases hcall with hn | hn <;> rw [Option.some.inj hn]
      · show Kernel.syscallSetFeature _ = none
        rw [Kernel.syscallSetFeature]
        simp [hregs, hcheck, setFeature, hnone]
      · show Kernel.syscallSendByFeature _ = none
        rw [Kernel.syscallSendByFeature]
        simp [hregs, hcheck, getProcessByFeature, hnone]
    have hs' : ((s.saveContext regs).syscallIsr input).map Kernel.finish = some k := hs
    rw [hisr] at hs'
    exact absurd hs' (by simp)

theorem enabled_of_step (hs : Kernel.step s e = some s') : s.Enabled e := by
  by_contra hn
  rw [Kernel.step, if_neg hn] at hs
  exact absurd hs (by simp)

/-- Who makes a system call is on the run queue. -/
theorem Between.caller_mem {n : Nat} (hb : Between s.sched q) (he : s.Enabled e)
    (hcall : e.call = some n) : s.sched.curptr ∈ q := by
  cases e with
  | timer => exact absurd hcall (by simp [Event.call])
  | device => exact absurd hcall (by simp [Event.call])
  | syscall => exact (hb.curptr.resolve_left he.1).resolve_left he.2

/-- One interrupt, from between two interrupts to between two interrupts. -/
theorem IpcInv.step (h : IpcInv procs s q m) (hb : Between s.sched q)
    (hs : Kernel.step s e = some s') :
    ∃ k q' m', s' = k.finish.schedule e.number ∧ s.interrupt e = some k.finish ∧
      IpcInv procs k q' m' ∧ IpcInv procs s' q' m' ∧ Between s'.sched q' ∧
      Effect procs (s.saveContext e.regs) m s.sched.curptr e k m' := by
  unfold Kernel.step at hs
  split at hs
  next he =>
    obtain ⟨t, ht, rfl⟩ := Option.map_eq_some_iff.1 hs
    obtain ⟨k, q', m', hk, hinv, hch, heff⟩ := h.interrupt hb he (featureOk_of_interrupt he ht)
    obtain rfl : k.finish = t := Option.some.inj (hk.symm.trans ht)
    exact ⟨k, q', m', rfl, hk, hinv, hinv.finish.schedule _, hch.between, heff⟩
  next => exact absurd hs (by simp)

end Kernel

end Mycrokernel
