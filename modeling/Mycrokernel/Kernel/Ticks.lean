import Mycrokernel.Kernel.Boot

/-!
# Tick counters

How long the counters of the scheduler stay what they are meant to be after boot.

The first interrupt comes while `curptr` is still `NULL`, and `charge_process` takes
its tick from the queue but from no process, so that the accounts differ from then
on (`accounting_iff`).  With one tick a cycle for each of `n` processes the counter of
the queue goes down by one with every interrupt and is never refilled, so that the
interrupt `n + 1` borrows (`ticks_ok_iff`).
-/

namespace Mycrokernel

open Function (update update_self update_of_ne)
open PointerList

/-! ## What an interrupt does to the run queue -/

namespace Sched

variable [Layout] {procs : Finset Ptr} {s s' t k : Sched} {p r x : Ptr} {q q' l : List Ptr} {c : Nat}

/-- What handling an interrupt does to the scheduler before a choice is made: nothing, a
process enters the queue, or the current process leaves it after others have entered. -/
inductive Change (procs : Finset Ptr) (s : Sched) (q : List Ptr) (s' : Sched) : Prop where
  | none : s' = s → Change procs s q s'
  | enters {r : Ptr} : r ∈ procs → r ∉ q → s.enqueue r = some s' → Change procs s q s'
  | leaves {l : List Ptr} {t : Sched} : l.Nodup → (∀ x ∈ l, x ∈ procs ∧ x ∉ q) → s.curptr ∈ q →
      l.foldlM enqueue s = some t → t.dequeue s.curptr = some s' → Change procs s q s'

/-- The end of `do_hard_int` and the macro `schedule`. -/
def settle (s : Sched) : Sched :=
  (if s.nextptr = null then s.chargeProcess.pickNextProc else s).schedule

end Sched

namespace Kernel

open Rendezvous (Place)

variable [Layout] {ps : Finset Ptr} {s k : Kernel} {e : Event} {m m' : Rendezvous Ptr Nat}
  {p : Ptr} {q : List Ptr}

theorem IpcInv.notMem_of_place (h : IpcInv ps s q m) (hp : m.place p ≠ .running) : p ∉ q :=
  fun hmem => hp ((h.running p).1 hmem)

/-- The scheduler sees no more of an effect than a change of the run queue. -/
theorem Effect.change (heff : Effect ps s m p e k m') (h : IpcInv ps s q m)
    (hcur : s.sched.curptr = p) : Sched.Change ps s.sched q k.sched := by
  have hleaves : m.place p = .running → s.sched.dequeue p = some k.sched →
      Sched.Change ps s.sched q k.sched := fun hp ht =>
    .leaves (l := []) .nil (by simp) (hcur ▸ (h.running p).2 hp) rfl (hcur ▸ ht)
  cases heff with
  | quiet hq => exact .none hq.sched
  | @direct r _ hr _ _ _ _ _ _ _ ht _ =>
    exact .enters (h.place_mem r (by simp [hr])) (h.notMem_of_place (by simp [hr])) ht
  | queued hp _ _ _ _ _ _ _ _ ht _ => exact hleaves hp ht
  | parked hp _ _ _ _ _ _ ht _ => exact hleaves hp ht
  | @fetched w hw _ _ _ _ _ _ ht _ =>
    exact .enters (h.place_mem w (by simp [hw])) (h.notMem_of_place (by simp [hw])) ht
  | listening hp _ _ _ _ _ ht _ => exact hleaves hp ht
  | adopted _ _ _ _ _ _ ht _ => exact .none ht
  | exited _ _ _ hrun ht ht' _ _ _ _ _ _ _ _ =>
    refine .leaves (m.senders_nodup p) (fun x hx => ?_) (hcur ▸ (h.running p).2 hrun) ht
      (hcur ▸ ht')
    have hplace := m.mem_senders.1 hx
    exact ⟨h.place_mem x (by simp [hplace]), h.notMem_of_place (by simp [hplace])⟩
  | @rung r _ hr _ _ _ _ ht _ =>
    exact .enters (h.place_mem r (by simp [hr])) (h.notMem_of_place (by simp [hr])) ht

theorem finish_schedule_sched (k : Kernel) (n : Nat) :
    (k.finish.schedule n).sched = k.sched.settle := by
  unfold finish Sched.settle
  split <;> rfl

/-- The scheduler's part of one interrupt. -/
theorem IpcInv.step_sched {s' : Kernel} (h : IpcInv ps s q m) (hb : Between s.sched q)
    (hs : Kernel.step s e = some s') :
    ∃ t, Sched.Change ps s.sched q t ∧ s'.sched = t.settle := by
  obtain ⟨k, q', m', rfl, -, -, -, -, heff⟩ := h.step hb hs
  have hsaved := (saved s e.regs).sched
  refine ⟨k.sched, ?_, finish_schedule_sched k e.number⟩
  have hch := heff.change (h.saveContext e.regs) (by rw [hsaved])
  rwa [hsaved] at hch

end Kernel

/-! ## One tick each -/

/-- The subtractions of this piece of arithmetic do not borrow.  What is charged to no process
only counts for the queue. -/
def TickOp.NoBorrow (procs : Finset Ptr) : TickOp → Prop
  | .charge process ticksleft queueTicksleft =>
    (process ∈ procs → 1 ≤ ticksleft) ∧ 1 ≤ queueTicksleft
  | .catchUp schedticks queueSchedticks queueTicksleft =>
    queueTicksleft ≤ queueSchedticks ∧
      (queueSchedticks - queueTicksleft) * schedticks / queueSchedticks ≤ schedticks

namespace Sched

variable [Layout] {procs : Finset Ptr} {s s' t k : Sched} {p r x : Ptr} {q q' l : List Ptr} {c : Nat}

/-- Every process has a share of one tick, and the queue has `c` ticks left, fewer than
processes.  A process off the queue has used up its tick. -/
structure OneTick (procs : Finset Ptr) (c : Nat) (s : Sched) (q : List Ptr) : Prop where
  share : ∀ p ∈ procs, s.schedticks p = 1
  left : s.schedqueue.ticksleft.toNat = c
  lt : c < q.length
  le : ∀ p ∈ procs, s.ticksleft p ≤ 1
  off : ∀ p ∈ procs, p ∉ q → s.ticksleft p = 0
  log : ∀ op ∈ s.tickLog, op.NoBorrow procs

/-- The current process still has its tick. -/
structure Current (s : Sched) (q : List Ptr) : Prop where
  mem : s.curptr ∈ q
  ticksleft : s.ticksleft s.curptr = 1

omit [Layout] in
theorem shareSum_one (h : ∀ p ∈ q, s.schedticks p = 1) : shareSum s.schedticks q = q.length := by
  induction q with
  | nil => rfl
  | cons p q ih =>
    rw [shareSum_cons, h p (by simp), ih fun x hx => h x (by simp [hx]), List.length_cons]
    show 1 + q.length = _
    omega

/-- The total of the shares is the length of the queue. -/
theorem OneTick.total (h : OneTick procs c s q) (hq : QueueInv procs s q) :
    s.schedqueue.schedticks.toNat = q.length := by
  rw [hq.total, shareSum_one fun p hp => h.share p (hq.mem_procs p hp)]

omit [Layout] in
/-- The catch-up formula for a share of one tick. -/
theorem noBorrow_catchUp {total left : Word} (hlt : left.toNat < total.toNat) :
    (TickOp.catchUp 1 total left).NoBorrow procs := by
  have hle : left ≤ total := by
    rw [BitVec.le_def]
    omega
  refine ⟨hle, ?_⟩
  rw [show (1 : Word) = 1#32 from rfl, BitVec.mul_one, BitVec.le_def, BitVec.toNat_udiv, BitVec.toNat_sub_of_le hle]
  refine Nat.div_le_of_le_mul ?_
  show total.toNat - left.toNat ≤ total.toNat * 1
  omega

omit [Layout] in
theorem catchUp_queueTicksleft (s : Sched) (p : Ptr) : (s.catchUp p).schedqueue.ticksleft =
    s.schedqueue.ticksleft + (s.catchUp p).ticksleft p := rfl

/-- A process that has used up its tick gets none when it enters a queue. -/
theorem OneTick.enter (h : OneTick procs c s q) (hq : QueueInv procs s q) (hp : p ∈ procs)
    (hpq : p ∉ q) (hent : Entered procs p s s' q q') :
    OneTick procs c s' q' ∧ ∀ x ∈ q, s'.ticksleft x = s.ticksleft x := by
  obtain ⟨t, l₁, l₂, ht, rfl, hinv, hsame⟩ := enqueue_spec hq hp hpq
  obtain rfl : t.catchUp p = s' := Option.some.inj (ht.symm.trans hent.eq)
  obtain rfl : l₁ ++ p :: l₂ = q' := hinv.chain.unique hent.inv.chain
  have htot : t.schedqueue.schedticks.toNat = (l₁ ++ l₂).length := by
    rw [hsame.queueSchedticks]
    exact h.total hq
  have hleft : t.schedqueue.ticksleft.toNat = c := by
    rw [hsame.queueTicksleft]
    exact h.left
  have hshare : t.schedticks p = 1 := by
    rw [hsame.schedticks]
    exact h.share p hp
  have hzero : t.ticksleft p = 0 := by
    rw [hsame.ticksleft]
    exact h.off p hp hpq
  have hne : t.schedqueue.schedticks ≠ 0 := by
    intro h0
    have hzero' : (l₁ ++ l₂).length = 0 := by
      rw [← htot, h0]
      rfl
    have hlt := h.lt
    omega
  -- the smaller one of the two counts is the zero the process has
  have hticks : (t.catchUp p).ticksleft = update t.ticksleft p 0 := by
    rw [catchUp, if_neg hne]
    simp only [hzero]
    refine congrArg _ (if_neg fun hlt => ?_)
    exact Nat.not_lt_zero _ (BitVec.lt_def.1 hlt)
  have hticks' : ∀ x, (t.catchUp p).ticksleft x = if x = p then 0 else s.ticksleft x := fun x => by
    rw [hticks]
    by_cases hx : x = p
    · rw [hx, update_self, if_pos rfl]
    · rw [update_of_ne hx, if_neg hx, hsame.ticksleft]
  refine ⟨⟨?_, ?_, ?_, ?_, ?_, ?_⟩, ?_⟩
  · intro x hx
    rw [catchUp_schedticks, hsame.schedticks]
    exact h.share x hx
  · rw [catchUp_queueTicksleft, hticks, update_self, show (0 : Word) = 0#32 from rfl,
      BitVec.add_zero, hleft]
  · have hlt := h.lt
    simp only [List.length_append, List.length_cons] at hlt ⊢
    omega
  · intro x hx
    rw [hticks']
    split
    · decide
    · exact h.le x hx
  · intro x hx hxq
    rw [hticks']
    split
    · rfl
    · refine h.off x hx fun hmem => hxq ?_
      simp only [List.mem_append, List.mem_cons] at hmem ⊢
      tauto
  · intro op hop
    rw [catchUp, if_neg hne] at hop
    rcases List.mem_cons.1 hop with rfl | hop
    · rw [hshare]
      refine noBorrow_catchUp ?_
      rw [hleft, htot]
      exact h.lt
    · rw [hsame.tickLog] at hop
      exact h.log op hop
  · intro x hx
    rw [hticks', if_neg (ne_of_mem_of_not_mem hx hpq)]

/-- Several processes enter one after the other. -/
theorem OneTick.enterAll (l : List Ptr) : ∀ {s s' : Sched} {q : List Ptr}, OneTick procs c s q →
    QueueInv procs s q → l.Nodup → (∀ x ∈ l, x ∈ procs ∧ x ∉ q) → l.foldlM enqueue s = some s' →
    ∃ q', QueueInv procs s' q' ∧ OneTick procs c s' q' ∧ (∀ x ∈ q, x ∈ q') ∧
      (∀ x ∈ q, s'.ticksleft x = s.ticksleft x) ∧ s'.curptr = s.curptr ∧
      s'.nextptr = s.nextptr := by
  induction l with
  | nil =>
    intro s s' q h hq _ _ hs
    obtain rfl : s = s' := Option.some.inj hs
    exact ⟨q, hq, h, fun _ hx => hx, fun _ _ => rfl, rfl, rfl⟩
  | cons p l ih =>
    intro s s' q h hq hnd hl hs
    obtain ⟨hp, hpq⟩ := hl p (by simp)
    obtain ⟨hpl, hnd⟩ := List.nodup_cons.1 hnd
    obtain ⟨t, q₁, hent⟩ := hq.entered hp hpq
    obtain ⟨h₁, hsame₁⟩ := h.enter hq hp hpq hent
    rw [List.foldlM_cons, hent.eq] at hs
    have hl₁ : ∀ x ∈ l, x ∈ procs ∧ x ∉ q₁ := fun x hx => by
      refine ⟨(hl x (by simp [hx])).1, ?_⟩
      rw [hent.mem, not_or]
      exact ⟨ne_of_mem_of_not_mem hx hpl, (hl x (by simp [hx])).2⟩
    obtain ⟨q', hq', h', hsub, hsame, hcur, hnext⟩ := ih h₁ hent.inv hnd hl₁ hs
    have hsub₁ : ∀ x ∈ q, x ∈ q₁ := fun x hx => (hent.mem x).2 (Or.inr hx)
    exact ⟨q', hq', h', fun x hx => hsub x (hsub₁ x hx),
      fun x hx => (hsame x (hsub₁ x hx)).trans (hsame₁ x hx), hcur.trans hent.curptr,
      hnext.trans hent.nextptr⟩

/-! ## Charging and picking -/

theorem chargeProcess_queueTicksleft (h : s.curptr ≠ idlestate) :
    s.chargeProcess.schedqueue.ticksleft = s.schedqueue.ticksleft - 1 := by
  rw [chargeProcess, if_neg h]

theorem chargeProcess_tickLog (h : s.curptr ≠ idlestate) :
    s.chargeProcess.tickLog =
      .charge s.curptr (s.ticksleft s.curptr) s.schedqueue.ticksleft :: s.tickLog := by
  rw [chargeProcess, if_neg h]

omit [Layout] in
@[simp] theorem pickHead_queueTicksleft (s : Sched) :
    s.pickHead.schedqueue.ticksleft = s.schedqueue.ticksleft := by
  unfold pickHead
  split <;> rfl

@[simp] theorem pickAfter_queueTicksleft (s : Sched) (last : Ptr) :
    (s.pickAfter last).schedqueue.ticksleft = s.schedqueue.ticksleft := by
  unfold pickAfter
  split_ifs <;> first | rfl | exact pickHead_queueTicksleft s

@[simp] theorem pickNextProc_queueTicksleft (s : Sched) :
    s.pickNextProc.schedqueue.ticksleft = s.schedqueue.ticksleft := by
  unfold pickNextProc
  split
  · rfl
  · exact pickAfter_queueTicksleft s _

/-- The process that is picked when the current one has used up its tick: the one behind it,
or the head.  It has its tick. -/
structure PickedFull (s s' : Sched) (q : List Ptr) : Prop where
  mem : s'.nextptr ∈ q
  ticksleft : s'.ticksleft = update s.ticksleft s'.nextptr 1
  ne : q ≠ [s.curptr] → s'.nextptr ≠ s.curptr

theorem QueueLinks.pickedFull (hq : QueueLinks procs s q) (hshare : ∀ p ∈ procs, s.schedticks p = 1)
    (hle : ∀ p ∈ procs, s.ticksleft p ≤ 1) (hcur : s.curptr ∈ q)
    (hspent : s.ticksleft s.curptr = 0) (hnext : s.nextptr = null) :
    PickedFull s s.pickNextProc q := by
  have hp := hq.mem_procs _ hcur
  have hne : q ≠ [] := List.ne_nil_of_mem hcur
  rw [hq.linked.pickNextProc_eq hne, if_pos hnext]
  have hmem := hq.linked.pickAfter_mem hne (Or.inr (Or.inr hcur))
  refine ⟨hmem, ?_, fun hone => ?_⟩ <;>
    rw [pickAfter, if_neg (hq.ne_null hp), if_neg (hq.ne_idle hp)]
  · by_cases hlast : s.next s.curptr = null
    · have hhead := hq.mem_procs _ (hq.linked.head_mem hne)
      rw [if_pos hlast, pickHead_nextptr, pickHead]
      by_cases hzero : s.ticksleft s.schedqueue.head = 0
      · rw [if_pos hzero, pickFresh, hshare _ hhead]
      · have hfull : s.ticksleft s.schedqueue.head = 1 := by
          refine BitVec.eq_of_toNat_eq (le_antisymm (BitVec.le_def.1 (hle _ hhead)) ?_)
          exact Nat.one_le_iff_ne_zero.2 fun h => hzero (BitVec.eq_of_toNat_eq h)
        rw [if_neg hzero, ← hfull, Function.update_eq_self]
        rfl
    · have hbehind := hq.mem_procs _ ((hq.chain.next_mem hcur).resolve_left hlast)
      rw [if_neg hlast, if_pos (by rw [hspent, hshare _ hp]; rfl), pickFresh, hshare _ hbehind]
  · by_cases hlast : s.next s.curptr = null
    · rw [if_pos hlast, pickHead_nextptr]
      exact hq.linked.head_ne_of_last hcur hone hlast
    · rw [if_neg hlast, if_pos (by rw [hspent, hshare _ hp]; rfl), pickFresh_nextptr]
      exact (hq.next_ok _ hp).1

/-- The current process uses up its tick, and another one takes over. -/
structure TookTick (procs : Finset Ptr) (c : Nat) (s s' : Sched) (q : List Ptr) : Prop where
  oneTick : OneTick procs c s' q
  mem : s'.nextptr ∈ q
  full : s'.ticksleft s'.nextptr = 1
  spent : s'.nextptr ≠ s.curptr → s'.ticksleft s.curptr = 0
  ne : q ≠ [s.curptr] → s'.nextptr ≠ s.curptr
  same : SameQueue s s'

theorem OneTick.tookTick (h : OneTick procs (c + 1) s q) (hq : QueueLinks procs s q)
    (hc : Current s q) (hnext : s.nextptr = null) :
    TookTick procs c s s.chargeProcess.pickNextProc q := by
  have hcp := hq.mem_procs _ hc.mem
  have hidle := hq.ne_idle hcp
  have hsame := sameQueue_chargeProcess s
  have hcur : s.chargeProcess.curptr = s.curptr := chargeProcess_curptr s
  have hticks : s.chargeProcess.ticksleft = update s.ticksleft s.curptr 0 := by
    rw [chargeProcess_ticksleft hidle, hc.ticksleft]
    rfl
  have hle : ∀ p ∈ procs, s.chargeProcess.ticksleft p ≤ 1 := by
    intro p hp
    rw [hticks]
    by_cases hpc : p = s.curptr
    · rw [hpc, update_self]
      decide
    · rw [update_of_ne hpc]
      exact h.le p hp
  have hpick : PickedFull s.chargeProcess s.chargeProcess.pickNextProc q := by
    refine (hq.congr hsame).pickedFull ?_ hle ?_ ?_ ?_
    · rw [hsame.schedticks]
      exact h.share
    · rw [hcur]
      exact hc.mem
    · rw [hcur, hticks, update_self]
    · rw [chargeProcess_nextptr]
      exact hnext
  have hsame' := hsame.trans (sameQueue_pickNextProc s.chargeProcess)
  have hticks' := hpick.ticksleft
  have hmem := hpick.mem
  have hne := hpick.ne
  have hlog := (pickNextProc_tickLog _).trans (chargeProcess_tickLog hidle)
  have hleft := (pickNextProc_queueTicksleft _).trans (chargeProcess_queueTicksleft hidle)
  rw [hcur] at hne
  generalize s.chargeProcess.pickNextProc = t at *
  rw [hticks] at hticks'
  have hone : 1 ≤ s.schedqueue.ticksleft := by
    rw [BitVec.le_def, h.left]
    exact Nat.le_add_left 1 c
  refine ⟨⟨?_, ?_, ?_, ?_, ?_, ?_⟩, hmem, ?_, ?_, hne, hsame'⟩
  · rw [hsame'.schedticks]
    exact h.share
  · rw [hleft, BitVec.toNat_sub_of_le hone, h.left]
    rfl
  · exact Nat.lt_of_succ_lt h.lt
  · intro p hp
    rw [hticks']
    by_cases hpn : p = t.nextptr
    · rw [hpn, update_self]
      decide
    · rw [update_of_ne hpn]
      by_cases hpc : p = s.curptr
      · rw [hpc, update_self]
        decide
      · rw [update_of_ne hpc]
        exact h.le p hp
  · intro p hp hpq
    rw [hticks', update_of_ne (ne_of_mem_of_not_mem hmem hpq).symm,
      update_of_ne (ne_of_mem_of_not_mem hc.mem hpq).symm]
    exact h.off p hp hpq
  · intro op hop
    rw [hlog] at hop
    rcases List.mem_cons.1 hop with rfl | hop
    · exact ⟨fun _ => hc.ticksleft ▸ BitVec.le_refl 1, hone⟩
    · exact h.log op hop
  · rw [hticks', update_self]
  · intro hn
    rw [hticks', update_of_ne hn.symm, update_self]

/-! ## The end of an interrupt -/

omit [Layout] in
theorem OneTick.schedule (h : OneTick procs c s q) : OneTick procs c s.schedule q :=
  ⟨h.share, h.left, h.lt, h.le, h.off, h.log⟩

theorem QueueInv.schedule (hq : QueueInv procs s q) : QueueInv procs s.schedule q :=
  hq.congr (sameQueue_schedule s)

omit [Layout] in
theorem Current.schedule (hmem : s.nextptr ∈ q) (hfull : s.ticksleft s.nextptr = 1) :
    Current s.schedule q := ⟨hmem, hfull⟩

/-- Without a choice so far, the end of an interrupt takes a tick. -/
theorem OneTick.settle (h : OneTick procs (c + 1) s q) (hq : QueueInv procs s q)
    (hc : Current s q) (hnext : s.nextptr = null) :
    QueueInv procs s.settle q ∧ OneTick procs c s.settle q ∧ Current s.settle q := by
  have ht := h.tookTick hq.toQueueLinks hc hnext
  rw [Sched.settle, if_pos hnext]
  exact ⟨(hq.congr ht.same).schedule, ht.oneTick.schedule, .schedule ht.mem ht.full⟩

omit [Layout] in
theorem OneTick.withMisc (h : OneTick procs c s q) (misc : Ptr → BitVec 8) :
    OneTick procs c { s with misc } q :=
  ⟨h.share, h.left, h.lt, h.le, h.off, h.log⟩

omit [Layout] in
theorem mem_middle {l₁ l₂ : List Ptr} : x ∈ l₁ ++ p :: l₂ ↔ x = p ∨ x ∈ l₁ ++ l₂ :=
  List.perm_middle.mem_iff.trans List.mem_cons

/-- `process->misc &= ~ENQUEUED`. -/
def unflag (s : Sched) (p : Ptr) : Sched :=
  { s with misc := update s.misc p (s.misc p &&& ~~~Flag.enqueued) }

/-- `dequeue` of the current process ends its loop after the first round, or goes on. -/
theorem dequeue_curptr {l₁ l₂ : List Ptr} (hq : QueueInv procs s (l₁ ++ s.curptr :: l₂))
    (hne : l₁ ++ l₂ ≠ []) : s.dequeue s.curptr =
      (if (s.unflag s.curptr).round.nextptr = s.curptr then
        pickOther s.curptr (2 ^ 32 + 1) (s.unflag s.curptr).round
      else some (s.unflag s.curptr).round).map fun t => t.unlink s.curptr := by
  rw [dequeue_eq hq hne, if_pos rfl, pickOther_succ]
  rfl

omit [Layout] in
/-- Unlinking a process that has used up its tick takes no tick from the queue. -/
theorem OneTick.unlink {l₁ l₂ : List Ptr} (h : OneTick procs c s (l₁ ++ p :: l₂))
    (hlt : c < (l₁ ++ l₂).length) (hspent : s.ticksleft p = 0) :
    OneTick procs c (s.unlink p) (l₁ ++ l₂) where
  share := by
    rw [unlink_schedticks]
    exact h.share
  left := by
    rw [unlink_queueTicksleft, hspent, show (0 : Word) = 0#32 from rfl, BitVec.sub_zero]
    exact h.left
  lt := hlt
  le := by
    rw [unlink_ticksleft]
    exact h.le
  off x hx hxq := by
    rw [unlink_ticksleft]
    by_cases hxp : x = p
    · rw [hxp, hspent]
    · exact h.off x hx fun hmem => hxq ((mem_middle.1 hmem).resolve_left hxp)
  log := by
    rw [unlink_tickLog]
    exact h.log

/-- When the current process leaves a queue that has ticks left, it takes one of them. -/
theorem OneTick.leave (h : OneTick procs (c + 1) s q) (hq : QueueInv procs s q)
    (hc : Current s q) (hnext : s.nextptr = null) (hs : s.dequeue s.curptr = some s') :
    ∃ q', QueueInv procs s'.settle q' ∧ OneTick procs c s'.settle q' ∧ Current s'.settle q' := by
  obtain ⟨l₁, l₂, hl⟩ := List.append_of_mem hc.mem
  subst hl
  have hlen : c < (l₁ ++ l₂).length := by
    have hlt := h.lt
    simp only [List.length_append, List.length_cons] at hlt ⊢
    omega
  have hne : l₁ ++ l₂ ≠ [] := List.ne_nil_of_length_pos (Nat.zero_lt_of_lt hlen)
  have hone : l₁ ++ s.curptr :: l₂ ≠ [s.curptr] := fun heq => by
    have hl := congrArg List.length heq
    simp only [List.length_append, List.length_cons, List.length_nil] at hl hlen
    omega
  obtain ⟨t, ht, hinv, -⟩ := dequeue_spec hq
  obtain rfl : s' = t := Option.some.inj (hs.symm.trans ht)
  -- one round of the loop is enough
  have hround : TookTick procs c (s.unflag s.curptr)
      (s.unflag s.curptr).chargeProcess.pickNextProc (l₁ ++ s.curptr :: l₂) :=
    (h.withMisc _).tookTick (hq.toQueueLinks.withMisc _) ⟨hc.mem, hc.ticksleft⟩ hnext
  have hkcur : (s.unflag s.curptr).curptr = s.curptr := rfl
  rw [dequeue_curptr hq hne] at hs
  generalize s.unflag s.curptr = k at hround hkcur hs
  have hother : k.round.nextptr ≠ s.curptr := hkcur ▸ hround.ne (hkcur.symm ▸ hone)
  have hspent : k.round.ticksleft s.curptr = 0 := by
    have hspent := hround.spent (hkcur.symm ▸ hother)
    rwa [hkcur] at hspent
  have hmem : k.round.nextptr ∈ l₁ ++ l₂ := (mem_middle.1 hround.mem).resolve_left hother
  rw [if_neg hother, Option.map_some] at hs
  obtain rfl : k.round.unlink s.curptr = s' := Option.some.inj hs
  have hnull : (k.round.unlink s.curptr).nextptr ≠ null := by
    rw [unlink_nextptr]
    exact hq.toQueueLinks.ne_null (hq.mem_procs _ (mem_middle.2 (Or.inr hmem)))
  have hr : OneTick procs c k.round (l₁ ++ s.curptr :: l₂) :=
    ⟨hround.oneTick.share, hround.oneTick.left, hround.oneTick.lt, hround.oneTick.le,
      hround.oneTick.off, hround.oneTick.log⟩
  rw [Sched.settle, if_neg hnull]
  refine ⟨l₁ ++ l₂, hinv.schedule, (hr.unlink hlen hspent).schedule, .schedule ?_ ?_⟩
  · rw [unlink_nextptr]
    exact hmem
  · rw [unlink_ticksleft, unlink_nextptr]
    exact hround.full

/-- One interrupt takes one tick from the queue, whatever it does. -/
theorem Change.oneTick (hch : Change procs s q t) (h : OneTick procs (c + 1) s q)
    (hq : QueueInv procs s q) (hc : Current s q) (hnext : s.nextptr = null) :
    ∃ q', QueueInv procs t.settle q' ∧ OneTick procs c t.settle q' ∧ Current t.settle q' := by
  cases hch with
  | none ht => exact ⟨q, ht ▸ h.settle hq hc hnext⟩
  | @enters r hr hrq ht =>
    obtain ⟨t', q', hent⟩ := hq.entered hr hrq
    obtain rfl : t = t' := Option.some.inj (ht.symm.trans hent.eq)
    obtain ⟨h', hsame⟩ := h.enter hq hr hrq hent
    refine ⟨q', h'.settle hent.inv ⟨?_, ?_⟩ (hent.nextptr.trans hnext)⟩
    · rw [hent.curptr, hent.mem]
      exact Or.inr hc.mem
    · rw [hent.curptr, hsame _ hc.mem]
      exact hc.ticksleft
  | @leaves l t' hnd hl hcur ht ht' =>
    obtain ⟨q', hq', h', hsub, hsame, hcur', hnext'⟩ := h.enterAll l hq hnd hl ht
    refine h'.leave hq' ⟨?_, ?_⟩ (hnext'.trans hnext) (hcur' ▸ ht')
    · rw [hcur']
      exact hsub _ hc.mem
    · rw [hcur', hsame _ hc.mem]
      exact hc.ticksleft

/-! ## The interrupt that borrows -/

/-- Some piece of the arithmetic so far has borrowed. -/
def Borrowed (procs : Finset Ptr) (s : Sched) : Prop := ∃ op ∈ s.tickLog, ¬ op.NoBorrow procs

theorem borrowed_chargeProcess (hidle : s.curptr ≠ idlestate) (hleft : s.schedqueue.ticksleft = 0) :
    Borrowed procs s.chargeProcess := by
  rw [Borrowed, chargeProcess_tickLog hidle, hleft]
  refine ⟨_, List.mem_cons_self, fun h => ?_⟩
  exact absurd h.2 (by decide)

theorem Borrowed.pickNextProc (h : Borrowed procs s) : Borrowed procs s.pickNextProc := by
  rw [Borrowed, pickNextProc_tickLog]
  exact h

theorem borrowed_settle (hidle : s.curptr ≠ idlestate) (hleft : s.schedqueue.ticksleft = 0)
    (hnext : s.nextptr = null) : Borrowed procs s.settle := by
  rw [Sched.settle, if_pos hnext]
  exact (borrowed_chargeProcess hidle hleft).pickNextProc

theorem Borrowed.chargeProcess (h : Borrowed procs s) : Borrowed procs s.chargeProcess := by
  obtain ⟨op, hop, hb⟩ := h
  unfold Sched.chargeProcess
  split
  · exact ⟨op, hop, hb⟩
  · exact ⟨op, List.mem_cons_of_mem _ hop, hb⟩

theorem Borrowed.settle (h : Borrowed procs s) : Borrowed procs s.settle := by
  rw [Sched.settle]
  split
  · exact h.chargeProcess.pickNextProc
  · exact h

/-- The loop of `dequeue` only adds to the log. -/
theorem Borrowed.pickOther {n : Nat} : ∀ {s : Sched}, Borrowed procs s →
    pickOther p n s = some s' → Borrowed procs s' := by
  induction n with
  | zero =>
    intro s _ hs
    exact absurd hs (by simp [Sched.pickOther])
  | succ n ih =>
    intro s h hs
    have hround : Borrowed procs s.round := h.chargeProcess.pickNextProc
    rw [pickOther_succ] at hs
    split at hs
    · exact ih hround hs
    · exact Option.some.inj hs ▸ hround

theorem OneTick.borrowed_leave (h : OneTick procs 0 s q) (hq : QueueInv procs s q)
    (hc : Current s q) (hnext : s.nextptr = null) (hs : s.dequeue s.curptr = some s') :
    Borrowed procs s'.settle := by
  have hidle := hq.toQueueLinks.ne_idle (hq.mem_procs _ hc.mem)
  have hleft : s.schedqueue.ticksleft = 0 := BitVec.eq_of_toNat_eq h.left
  obtain ⟨l₁, l₂, hl⟩ := List.append_of_mem hc.mem
  subst hl
  by_cases hne : l₁ ++ l₂ = []
  · obtain ⟨rfl, rfl⟩ := List.append_eq_nil_iff.1 hne
    obtain rfl := Option.some.inj (hs.symm.trans (dequeue_sole hq))
    exact borrowed_settle hidle rfl hnext
  · have hround : Borrowed procs (s.unflag s.curptr).round :=
      (borrowed_chargeProcess (s := s.unflag s.curptr) hidle hleft).pickNextProc
    rw [dequeue_curptr hq hne] at hs
    generalize s.unflag s.curptr = s₀ at hround hs
    obtain ⟨k, hk, rfl⟩ := Option.map_eq_some_iff.1 hs
    have hkb : Borrowed procs k := by
      split at hk
      · exact hround.pickOther hk
      · exact Option.some.inj hk ▸ hround
    have hunlink : Borrowed procs (k.unlink s.curptr) := by
      rw [Borrowed, unlink_tickLog]
      exact hkb
    exact hunlink.settle

/-- When the queue has no tick left, the next interrupt borrows one. -/
theorem Change.borrowed (hch : Change procs s q t) (h : OneTick procs 0 s q)
    (hq : QueueInv procs s q) (hc : Current s q) (hnext : s.nextptr = null) :
    Borrowed procs t.settle := by
  have hleft : ∀ {t q'}, OneTick procs 0 t q' → t.schedqueue.ticksleft = 0 := fun h =>
    BitVec.eq_of_toNat_eq h.left
  have hidle := hq.toQueueLinks.ne_idle (hq.mem_procs _ hc.mem)
  cases hch with
  | none ht =>
    subst ht
    exact borrowed_settle hidle (hleft h) hnext
  | @enters r hr hrq ht =>
    obtain ⟨t', q', hent⟩ := hq.entered hr hrq
    obtain rfl : t = t' := Option.some.inj (ht.symm.trans hent.eq)
    exact borrowed_settle (hent.curptr ▸ hidle) (hleft (h.enter hq hr hrq hent).1)
      (hent.nextptr.trans hnext)
  | @leaves l t' hnd hl hcur ht ht' =>
    obtain ⟨q', hq', h', hsub, hsame, hcur', hnext'⟩ := h.enterAll l hq hnd hl ht
    refine h'.borrowed_leave hq' ⟨?_, ?_⟩ (hnext'.trans hnext) (hcur' ▸ ht')
    · rw [hcur']
      exact hsub _ hc.mem
    · rw [hcur', hsame _ hc.mem]
      exact hc.ticksleft

/-! ## Boot -/

/-- Every process has all its ticks, and so has the queue. -/
structure FullTicks (procs : Finset Ptr) (s : Sched) : Prop where
  ticksleft : ∀ p ∈ procs, s.ticksleft p = s.schedticks p
  left : s.schedqueue.ticksleft = s.schedqueue.schedticks
  log : ∀ op ∈ s.tickLog, op.NoBorrow procs

/-- A process that enters a queue which has all its ticks gets all of its own. -/
theorem FullTicks.enter (h : FullTicks procs s) (hq : QueueInv procs s q) (hp : p ∈ procs)
    (hpq : p ∉ q) (hent : Entered procs p s s' q q') : FullTicks procs s' := by
  obtain ⟨t, l₁, l₂, ht, rfl, hinv, hsame⟩ := enqueue_spec hq hp hpq
  obtain rfl : t.catchUp p = s' := Option.some.inj (ht.symm.trans hent.eq)
  have hleft : t.schedqueue.ticksleft = t.schedqueue.schedticks := by
    rw [hsame.queueTicksleft, hsame.queueSchedticks]
    exact h.left
  have hfull : t.ticksleft p = t.schedticks p := by
    rw [hsame.ticksleft, hsame.schedticks]
    exact h.ticksleft p hp
  -- the queue has run through nothing of the share
  have hcount : t.schedticks p - (t.schedqueue.schedticks - t.schedqueue.ticksleft) *
      t.schedticks p / t.schedqueue.schedticks = t.schedticks p := by
    rw [hleft, BitVec.sub_self, BitVec.zero_mul, BitVec.zero_udiv, BitVec.sub_zero]
  have hticks : (t.catchUp p).ticksleft p = t.schedticks p := by
    unfold catchUp
    dsimp only
    split
    · exact update_self ..
    · show update t.ticksleft p _ p = _
      rw [update_self, hcount, hfull, ite_self]
  refine ⟨fun x hx => ?_, ?_, fun op hop => ?_⟩
  · rw [catchUp_schedticks]
    by_cases hxp : x = p
    · rw [hxp, hticks]
    · rw [catchUp_ticksleft_of_ne t hxp, hsame.ticksleft, hsame.schedticks]
      exact h.ticksleft x hx
  · rw [catchUp_queueTicksleft, catchUp_total, hticks, hleft]
  · unfold catchUp at hop
    dsimp only at hop
    split at hop
    · rw [hsame.tickLog] at hop
      exact h.log op hop
    · rcases List.mem_cons.1 hop with rfl | hop
      · refine ⟨hleft ▸ BitVec.le_refl _, ?_⟩
        rw [hleft, BitVec.sub_self, BitVec.zero_mul, BitVec.zero_udiv]
        exact BitVec.le_def.2 (Nat.zero_le _)
      · rw [hsame.tickLog] at hop
        exact h.log op hop

theorem FullTicks.enterAll (l : List Ptr) : ∀ {s s' : Sched} {q : List Ptr}, FullTicks procs s →
    QueueInv procs s q → l.Nodup → (∀ x ∈ l, x ∈ procs ∧ x ∉ q) → l.foldlM enqueue s = some s' →
    FullTicks procs s' := by
  induction l with
  | nil =>
    intro s s' q h _ _ _ hs
    exact Option.some.inj hs ▸ h
  | cons p l ih =>
    intro s s' q h hq hnd hl hs
    obtain ⟨hp, hpq⟩ := hl p (by simp)
    obtain ⟨hpl, hnd⟩ := List.nodup_cons.1 hnd
    obtain ⟨t, q₁, hent⟩ := hq.entered hp hpq
    rw [List.foldlM_cons, hent.eq] at hs
    refine ih (h.enter hq hp hpq hent) hent.inv hnd (fun x hx => ?_) hs
    refine ⟨(hl x (by simp [hx])).1, ?_⟩
    rw [hent.mem, not_or]
    exact ⟨ne_of_mem_of_not_mem hx hpl, (hl x (by simp [hx])).2⟩

/-- The sum of the counters of the processes on a full queue is the counter of the queue. -/
theorem FullTicks.sum (h : FullTicks procs s) (hq : QueueInv procs s q) :
    s.schedqueue.ticksleft.toNat = (q.map fun p => (s.ticksleft p).toNat).sum := by
  rw [h.left, hq.total, shareSum]
  refine congrArg List.sum (List.map_congr_left fun p hp => ?_)
  rw [h.ticksleft p (hq.mem_procs p hp)]

/-- The first interrupt takes a tick from the queue but from no process. -/
structure First (procs : Finset Ptr) (s s' : Sched) (q : List Ptr) : Prop where
  ticksleft : ∀ p ∈ procs, s'.ticksleft p = s.ticksleft p
  left : s'.schedqueue.ticksleft = s.schedqueue.ticksleft - 1
  same : SameQueue s s'
  curptr : q ≠ [] → s'.curptr ∈ q
  log : s'.tickLog = .charge null (s.ticksleft null) s.schedqueue.ticksleft :: s.tickLog

theorem QueueInv.first (hq : QueueInv procs s q) (hcur : s.curptr = null)
    (hnext : s.nextptr = null) : First procs s s.settle q := by
  have hidle : s.curptr ≠ idlestate := fun h => Layout.idlestate_ne_null (h.symm.trans hcur)
  have hsame := sameQueue_chargeProcess s
  have hlinks := hq.toQueueLinks.congr hsame
  have hticks : s.chargeProcess.pickNextProc.ticksleft = s.chargeProcess.ticksleft := by
    unfold pickNextProc
    split
    · rfl
    · rw [chargeProcess_nextptr, if_pos hnext, chargeProcess_curptr, hcur, pickAfter, if_pos rfl]
      rfl
  rw [Sched.settle, if_pos hnext]
  refine ⟨fun p hp => ?_, ?_, ?_, fun hne => ?_, ?_⟩
  · show s.chargeProcess.pickNextProc.ticksleft p = _
    rw [hticks, chargeProcess_ticksleft hidle, hcur, update_of_ne (hq.toQueueLinks.ne_null hp)]
  · exact (pickNextProc_queueTicksleft _).trans (chargeProcess_queueTicksleft hidle)
  · exact (hsame.trans (sameQueue_pickNextProc _)).trans (sameQueue_schedule _)
  · show s.chargeProcess.pickNextProc.nextptr ∈ q
    rw [hlinks.linked.pickNextProc_eq hne, chargeProcess_nextptr, if_pos hnext, chargeProcess_curptr]
    exact hlinks.linked.pickAfter_mem hne (Or.inl hcur)
  · refine (pickNextProc_tickLog _).trans ((chargeProcess_tickLog hidle).trans ?_)
    rw [hcur]

/-- At the first interrupt nobody can enter or leave the queue, since nobody is off it and no
process has made a call. -/
theorem Change.first (hch : Change procs s q t) (hcur : s.curptr = null)
    (hall : ∀ p ∈ procs, p ∈ q) (hq : QueueInv procs s q) : t = s := by
  cases hch with
  | none ht => exact ht
  | enters hr hrq _ => exact absurd (hall _ hr) hrq
  | leaves _ _ hmem _ _ => exact absurd hcur (hq.toQueueLinks.ne_null (hq.mem_procs _ hmem))

end Sched

namespace Kernel

variable [Layout] {procs : List Ptr} {ps : Finset Ptr} {s s' boot : Kernel} {e : Event}
  {es : List Event} {q : List Ptr} {m : Rendezvous Ptr Nat} {c : Nat}

open Sched (QueueInv Change FullTicks OneTick Current Borrowed)

/-- The counters at boot. -/
theorem Booted.fullTicks (h : Booted procs boot) : FullTicks procs.toFinset boot.sched := by
  obtain ⟨s, hc, hs⟩ := h
  rw [foldlM_enqueue] at hs
  obtain ⟨t, ht, rfl⟩ := Option.map_eq_some_iff.1 hs
  have hfull : FullTicks procs.toFinset s.sched := by
    rw [hc.sched]
    exact ⟨fun _ _ => rfl, rfl, fun _ h => absurd h List.not_mem_nil⟩
  exact hfull.enterAll procs hc.queueInv hc.nodup (fun x hx => ⟨List.mem_toFinset.2 hx, by simp⟩) ht

/-- The processes of `procs` on the run queue are those of `q`. -/
theorem perm_enqueued (hnd : procs.Nodup) (hq : QueueInv procs.toFinset s.sched q) :
    q.Perm (procs.filter fun p => s.sched.isEnqueued p) := by
  refine (List.perm_ext_iff_of_nodup hq.chain.nodup (hnd.filter _)).2 fun p => ?_
  rw [List.mem_filter]
  constructor
  · intro hp
    have hps := hq.mem_procs p hp
    exact ⟨List.mem_toFinset.1 hps, (hq.isEnqueued_iff p hps).2 hp⟩
  · rintro ⟨hp, hon⟩
    exact (hq.isEnqueued_iff p (List.mem_toFinset.2 hp)).1 hon

/-! ## Accounting -/

/-- The counter of the queue is the sum of the counters of the processes on it. -/
def Accounted (procs : List Ptr) (s : Kernel) : Prop :=
  s.sched.schedqueue.ticksleft.toNat =
    ((procs.filter fun p => s.sched.isEnqueued p).map fun p => (s.sched.ticksleft p).toNat).sum

instance (procs : List Ptr) (s : Kernel) : Decidable (Accounted procs s) :=
  inferInstanceAs (Decidable (_ = _))

theorem accounted_iff (hnd : procs.Nodup) (hq : QueueInv procs.toFinset s.sched q) :
    Accounted procs s ↔
      s.sched.schedqueue.ticksleft.toNat = (q.map fun p => (s.sched.ticksleft p).toNat).sum := by
  rw [Accounted, ((perm_enqueued hnd hq).map _).sum_eq]

/-- The first interrupt after boot. -/
theorem Started.first (h : Started procs boot q) (hs : step boot e = some s) :
    Sched.First procs.toFinset boot.sched s.sched q := by
  obtain ⟨t, hch, hst⟩ := h.inv.step_sched h.between hs
  obtain rfl := hch.first h.curptr (fun p hp => (h.mem p).2 (List.mem_toFinset.1 hp)) h.inv.queue
  rw [hst]
  exact h.inv.queue.first h.curptr h.between.nextptr

theorem Started.not_accounted (h : Started procs boot q) (hnd : procs.Nodup)
    (hfull : FullTicks procs.toFinset boot.sched) (hs : step boot e = some s) :
    ¬ Accounted procs s := by
  have hf := h.first hs
  have hq := h.inv.queue.congr hf.same
  have hsum : (q.map fun p => (s.sched.ticksleft p).toNat).sum =
      boot.sched.schedqueue.ticksleft.toNat := by
    rw [hfull.sum h.inv.queue]
    refine congrArg List.sum (List.map_congr_left fun p hp => ?_)
    rw [hf.ticksleft p (h.inv.queue.mem_procs p hp)]
  rw [accounted_iff hnd hq, hsum, hf.left]
  intro heq
  have hlt := boot.sched.schedqueue.ticksleft.isLt
  have hone : (1 : Word).toNat = 1 := rfl
  rw [BitVec.toNat_sub, hone] at heq
  omega

/-- The accounts agree in all the states of a run from boot if and only if no interrupt has
come. -/
theorem accounting_iff (procs : List Ptr) (boot : Kernel) (hboot : Booted procs boot)
    (es : List Event) (s : Kernel) (hr : Run boot es s) :
    (∀ es₁ t, es₁ <+: es → Run boot es₁ t → Accounted procs t) ↔ es = [] := by
  obtain ⟨created, hc, -⟩ := id hboot
  obtain ⟨q, hq⟩ := hboot.started
  have hfull := hboot.fullTicks
  constructor
  · intro h
    cases hr with
    | nil => rfl
    | @cons _ t _ e es _ hs _ =>
      have hacc := h [e] t ⟨es, rfl⟩ (.single trivial hs)
      exact absurd hacc (hq.not_accounted hc.nodup hfull hs)
  · rintro rfl es₁ t hpre hrun
    obtain rfl := List.prefix_nil.1 hpre
    cases hrun
    rw [accounted_iff hc.nodup hq.inv.queue]
    exact hfull.sum hq.inv.queue

section

omit [Layout]

/-- The accounts of the processes of `main.hla` differ after the first timer interrupt. -/
theorem accounting_iff_main :
    letI := Layout.sample
    ∃ boot s, Booted mainProcs boot ∧ Run boot [.tick] s ∧
      ((∀ es₁ t, es₁ <+: [.tick] → Run boot es₁ t → Accounted mainProcs t) ↔
        [Event.tick] = []) := by
  let _ := Layout.sample
  have hrun : (mainRun [.tick]).isSome := by decide +kernel
  obtain ⟨s, hs⟩ := Option.isSome_iff_exists.1 hrun
  obtain ⟨boot, hboot, hr⟩ := mainRun_eq_some hs
  exact ⟨boot, s, hboot, hr, accounting_iff mainProcs boot hboot _ s hr⟩

theorem accounting_fails :
    letI := Layout.sample
    ∃ s, mainRun [.tick] = some s ∧ ¬ Accounted mainProcs s := by
  let _ := Layout.sample
  have hrun : (mainRun [.tick]).map (fun s => decide (Accounted mainProcs s)) = some false := by
    decide +kernel
  obtain ⟨s, hs, hacc⟩ := Option.map_eq_some_iff.1 hrun
  exact ⟨s, hs, of_decide_eq_false hacc⟩

/-! ## Counters of one tick -/

/-- No counter has wrapped. -/
structure TicksOk (procs : List Ptr) (s : Kernel) : Prop where
  le : ∀ p ∈ procs, s.sched.isEnqueued p = true → s.sched.ticksleft p ≤ s.sched.schedticks p
  /-- The process that has been chosen has a tick to spend. -/
  chosen : s.sched.curptr ∈ procs → 1 ≤ s.sched.ticksleft s.sched.curptr
  log : ∀ op ∈ s.sched.tickLog, op.NoBorrow procs.toFinset

theorem TicksOk.not_borrowed (h : TicksOk procs s) : ¬ Borrowed procs.toFinset s.sched := by
  rintro ⟨op, hop, hb⟩
  exact hb (h.log op hop)

theorem ticksOk_of_oneTick (h : OneTick procs.toFinset c s.sched q) (hc : Current s.sched q) :
    TicksOk procs s where
  le p hp _ := by
    rw [h.share p (List.mem_toFinset.2 hp)]
    exact h.le p (List.mem_toFinset.2 hp)
  chosen _ := by
    rw [hc.ticksleft]
    exact BitVec.le_refl 1
  log := h.log

end

/-- Interrupts count the queue down. -/
theorem OneTick.run (hr : Run s es s') : ∀ {c : Nat} {q : List Ptr} {m : Rendezvous Ptr Nat},
    IpcInv ps s q m → Between s.sched q → OneTick ps c s.sched q → Current s.sched q →
    es.length ≤ c → ∃ q', OneTick ps (c - es.length) s'.sched q' ∧ Current s'.sched q' := by
  induction hr with
  | nil =>
    intro c q m _ _ h hc _
    exact ⟨q, h, hc⟩
  | @cons s t s' e es _ hs _ ih =>
    intro c q m hinv hb h hc hlen
    rw [List.length_cons] at hlen
    obtain ⟨c, rfl⟩ := Nat.exists_eq_add_one_of_ne_zero (n := c) (by omega)
    obtain ⟨k, hch, hst⟩ := hinv.step_sched hb hs
    obtain ⟨q₁, hq₁, h₁, hc₁⟩ := hch.oneTick h hinv.queue hc hb.nextptr
    obtain ⟨-, q', m', -, -, -, hinv', hb', -⟩ := hinv.step hb hs
    rw [← hst] at hq₁ h₁ hc₁
    obtain rfl : q₁ = q' := hq₁.chain.unique hinv'.queue.chain
    have hrest := ih hinv' hb' h₁ hc₁ (by omega)
    rwa [List.length_cons, Nat.add_sub_add_right]

/-- The interrupt after the last tick of the queue borrows. -/
theorem OneTick.run_borrowed (hr : Run s es s') : ∀ {c : Nat} {q : List Ptr}
    {m : Rendezvous Ptr Nat}, IpcInv ps s q m → Between s.sched q → OneTick ps c s.sched q →
    Current s.sched q → es.length = c + 1 → Borrowed ps s'.sched := by
  induction hr with
  | nil =>
    intro c q m _ _ _ _ hlen
    exact absurd hlen (by simp)
  | @cons s t s' e es _ hs hrest ih =>
    intro c q m hinv hb h hc hlen
    rw [List.length_cons] at hlen
    obtain ⟨k, hch, hst⟩ := hinv.step_sched hb hs
    cases c with
    | zero =>
      obtain rfl : es = [] := List.eq_nil_of_length_eq_zero (by omega)
      cases hrest
      rw [hst]
      exact hch.borrowed h hinv.queue hc hb.nextptr
    | succ c =>
      obtain ⟨q₁, hq₁, h₁, hc₁⟩ := hch.oneTick h hinv.queue hc hb.nextptr
      obtain ⟨-, q', m', -, -, -, hinv', hb', -⟩ := hinv.step hb hs
      rw [← hst] at hq₁ h₁ hc₁
      obtain rfl : q₁ = q' := hq₁.chain.unique hinv'.queue.chain
      exact ih hinv' hb' h₁ hc₁ (by omega)

/-- The state after the first interrupt, when every share is one tick. -/
theorem Started.oneTick (h : Started procs boot q) (hnd : procs.Nodup)
    (hfull : FullTicks procs.toFinset boot.sched)
    (hshare : ∀ p ∈ procs, boot.sched.schedticks p = 1) (hne : procs ≠ [])
    (hs : step boot e = some s) :
    OneTick procs.toFinset (procs.length - 1) s.sched q ∧ Current s.sched q := by
  have hf := h.first hs
  have hq := h.inv.queue
  have hperm : q.Perm procs := (List.perm_ext_iff_of_nodup hq.chain.nodup hnd).2 h.mem
  have hlen : q.length = procs.length := hperm.length_eq
  have hpos := List.length_pos_of_ne_nil hne
  have hone : ∀ p ∈ procs.toFinset, s.sched.ticksleft p = 1 := fun p hp => by
    rw [hf.ticksleft p hp, hfull.ticksleft p hp, hshare p (List.mem_toFinset.1 hp)]
  have hleft : boot.sched.schedqueue.ticksleft.toNat = procs.length := by
    rw [hfull.left, hq.total, Sched.shareSum_one fun p hp => hshare p ((h.mem p).1 hp), hlen]
  have hge : 1 ≤ boot.sched.schedqueue.ticksleft := by
    rw [BitVec.le_def, hleft]
    exact hpos
  have hmem := hf.curptr fun hnil => hne (by simpa [hnil] using hperm)
  refine ⟨⟨fun p hp => ?_, ?_, by omega, fun p hp => ?_, fun p hp hpq => ?_, fun op hop => ?_⟩,
    ⟨hmem, hone _ (hq.mem_procs _ hmem)⟩⟩
  · rw [hf.same.schedticks]
    exact hshare p (List.mem_toFinset.1 hp)
  · rw [hf.left, BitVec.toNat_sub_of_le hge, hleft]
    rfl
  · rw [hone p hp]
    exact BitVec.le_refl 1
  · exact absurd ((h.mem p).2 (List.mem_toFinset.1 hp)) hpq
  · rw [hf.log] at hop
    rcases List.mem_cons.1 hop with rfl | hop
    · exact ⟨fun hnull => absurd rfl (h.inv.ne_null hnull), hge⟩
    · exact hfull.log op hop

/-- When every share is one tick, no counter wraps along a run from boot if and only if the
run has no more interrupts than there are processes. -/
theorem ticks_ok_iff (procs : List Ptr) (boot : Kernel) (hboot : Booted procs boot)
    (hshare : ∀ p ∈ procs, boot.sched.schedticks p = 1) (es : List Event) (s : Kernel)
    (hr : Run boot es s) :
    (∀ es₁ t, es₁ <+: es → Run boot es₁ t → TicksOk procs t) ↔ es.length ≤ procs.length := by
  obtain ⟨created, hc, -⟩ := id hboot
  obtain ⟨q, hq⟩ := hboot.started
  have hfull := hboot.fullTicks
  constructor
  · intro h
    by_contra hlen
    -- the run up to the interrupt that borrows
    have hsplit := List.take_append_drop (procs.length + 1) es
    obtain ⟨t, ht, -⟩ := Machine.Run.split (hsplit.symm ▸ hr)
    have hpre := List.take_prefix (procs.length + 1) es
    have hok := h _ t hpre ht
    have htake : (es.take (procs.length + 1)).length = procs.length + 1 := by
      rw [List.length_take]
      omega
    generalize es.take (procs.length + 1) = es₁ at ht htake
    cases ht with
    | nil => exact absurd htake (by simp)
    | @cons _ s₁ _ e es₂ _ hs hrest =>
      rw [List.length_cons] at htake
      refine hok.not_borrowed ?_
      by_cases hne : procs = []
      · subst hne
        obtain rfl : es₂ = [] := List.eq_nil_of_length_eq_zero (by simpa using htake)
        cases hrest
        have hf := hq.first hs
        have hnil : q = [] := List.eq_nil_iff_forall_not_mem.2 fun p hp => by simpa using (hq.mem p).1 hp
        have hleft : boot.sched.schedqueue.ticksleft = 0 := by
          refine BitVec.eq_of_toNat_eq ?_
          rw [hfull.left, hq.inv.queue.total, hnil]
          rfl
        refine ⟨_, by rw [hf.log]; exact List.mem_cons_self, fun hb => ?_⟩
        rw [hleft] at hb
        exact absurd hb.2 (by decide)
      · obtain ⟨hone, hcur⟩ := hq.oneTick hc.nodup hfull hshare hne hs
        obtain ⟨-, q', m', -, -, -, hinv', hb', -⟩ := hq.inv.step hq.between hs
        obtain rfl : q = q' := (hq.inv.queue.congr (hq.first hs).same).chain.unique hinv'.queue.chain
        have hpos := List.length_pos_of_ne_nil hne
        exact OneTick.run_borrowed hrest hinv' hb' hone hcur (by omega)
  · intro hlen es₁ t hpre hrun
    have hlen₁ := hpre.length_le.trans hlen
    cases hrun with
    | nil =>
      refine ⟨fun p hp _ => ?_, fun hmem => ?_, hfull.log⟩
      · rw [hfull.ticksleft p (List.mem_toFinset.2 hp)]
        exact BitVec.le_refl _
      · exact absurd hq.curptr (hq.inv.ne_null (List.mem_toFinset.2 hmem))
    | @cons _ s₁ _ e es₂ _ hs hrest =>
      rw [List.length_cons] at hlen₁
      have hne : procs ≠ [] := List.ne_nil_of_length_pos (by omega)
      obtain ⟨hone, hcur⟩ := hq.oneTick hc.nodup hfull hshare hne hs
      obtain ⟨-, q', m', -, -, -, hinv', hb', -⟩ := hq.inv.step hq.between hs
      obtain rfl : q = q' := (hq.inv.queue.congr (hq.first hs).same).chain.unique hinv'.queue.chain
      obtain ⟨q₁, h₁, hc₁⟩ := OneTick.run hrest hinv' hb' hone hcur (by omega)
      exact ticksOk_of_oneTick h₁ hc₁

omit [Layout] in
/-- In the first three interrupts the disk driver blocks, and no counter wraps. -/
theorem ticks_ok_iff_main :
    letI := Layout.sample
    ∃ boot s, Booted mainProcs boot ∧ Run boot [.tick, .receive null, .setFeature 1] s ∧
      ((∀ es₁ t, es₁ <+: [.tick, .receive null, .setFeature 1] → Run boot es₁ t →
        TicksOk mainProcs t) ↔
        [Event.tick, .receive null, .setFeature 1].length ≤ mainProcs.length) := by
  let _ := Layout.sample
  have hrun : (mainRun [.tick, .receive null, .setFeature 1]).isSome := by decide +kernel
  have hshares : (mainProcs.foldlM enqueue (blank fun _ => 1)).map (fun boot =>
      mainProcs.all fun p => boot.sched.schedticks p = 1) = some true := by decide +kernel
  obtain ⟨s, hs⟩ := Option.isSome_iff_exists.1 hrun
  obtain ⟨boot, hboot, hr⟩ := Option.bind_eq_some_iff.1 hs
  rw [hboot, Option.map_some, Option.some_inj, List.all_eq_true] at hshares
  have hbooted : Booted mainProcs boot :=
    ⟨_, created_blank mainProcs_nodup mainProcs_shares, hboot⟩
  have hr : Run boot [.tick, .receive null, .setFeature 1] s :=
    .of_foldlM (fun _ _ _ => Machine.of_guarded) hr
  exact ⟨boot, s, hbooted, hr, ticks_ok_iff mainProcs boot hbooted
    (fun p hp => of_decide_eq_true (hshares p hp)) _ s hr⟩

omit [Layout] in
/-- The fourth timer interrupt takes a tick from a queue that has none. -/
theorem ticks_ok_fails :
    letI := Layout.sample
    ∃ s, mainRun [.tick, .tick, .tick, .tick] = some s ∧ ¬ TicksOk mainProcs s := by
  let _ := Layout.sample
  have hrun : (mainRun [.tick, .tick, .tick, .tick]).map (fun s => s.sched.tickLog.head?) =
      some (some (.charge (proctab 0) 1 0)) := by decide +kernel
  obtain ⟨s, hs, hlog⟩ := Option.map_eq_some_iff.1 hrun
  refine ⟨s, hs, fun h => ?_⟩
  exact absurd (h.log _ (List.mem_of_head? hlog)).2 (by decide)

end Kernel

end Mycrokernel
