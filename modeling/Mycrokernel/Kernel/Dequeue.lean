import Mycrokernel.Kernel.Queue

/-!
# Picking and leaving

The half of the run queue that is about the processor.  `pick_next_proc` chooses
from the queue (`Linked.pickAfter_mem`).  `dequeue` of the current process
charges and picks until the choice is another process.  The loop has no bound
in sight, but it ends: as long as the head is chosen again its counter runs down
by one each round, a spent counter is refilled, and a round from a full counter
moves on to the next process (`Linked.pickOther_self`).

`dequeue_spec` puts the pieces together, and `QueueOp` closes the loop: whatever
sequence of queue operations the kernel makes, the queue stays represented.
-/

namespace Mycrokernel

open Function (update update_self update_of_ne)
open PointerList

namespace Sched

variable [Layout] {procs : Finset Ptr} {s s' t : Sched} {p x : Ptr} {q l₁ l₂ : List Ptr}

/-! ## The links -/

/-- The links represent the queue `q`, and the idle task is not on it. -/
structure Linked (s : Sched) (q : List Ptr) : Prop where
  chain : Chain s.next null s.schedqueue.head q
  back : Back s.previous null q
  idle_notMem : idlestate ∉ q

theorem QueueLinks.linked (hq : QueueLinks procs s q) : Linked s q where
  chain := hq.chain
  back := hq.back
  idle_notMem hidle := hq.shares.idle_notMem (hq.mem_procs _ hidle)

theorem Linked.congr (hq : Linked s q) (h : SameQueue s s') : Linked s' q where
  chain := by rw [h.next, h.head]; exact hq.chain
  back := h.previous ▸ hq.back
  idle_notMem := hq.idle_notMem

theorem Linked.ne_null (hq : Linked s q) (hp : p ∈ q) : p ≠ null :=
  ne_of_mem_of_not_mem hp hq.chain.null_notMem

theorem Linked.ne_idle (hq : Linked s q) (hp : p ∈ q) : p ≠ idlestate :=
  ne_of_mem_of_not_mem hp hq.idle_notMem

theorem Linked.head_ne_null (hq : Linked s q) (hne : q ≠ []) : s.schedqueue.head ≠ null :=
  fun h => hne (hq.chain.eq_nil_iff.2 h)

theorem Linked.head_mem (hq : Linked s q) (hne : q ≠ []) : s.schedqueue.head ∈ q :=
  hq.chain.head_mem (hq.head_ne_null hne)

/-- What comes behind a process is not the process. -/
theorem Linked.next_ne (hq : Linked s q) (hp : p ∈ q) : s.next p ≠ p := by
  intro heq
  obtain ⟨l₁, l₂, rfl⟩ := List.append_of_mem hp
  have hmem := hq.chain.tail.head_mem (heq.symm ▸ hq.ne_null hp)
  rw [heq] at hmem
  have hnd := (List.nodup_append.1 hq.chain.nodup).2.1
  exact (List.nodup_cons.1 hnd).1 hmem

/-- What comes before a process is not the process. -/
theorem Linked.previous_ne (hq : Linked s (l₁ ++ p :: l₂)) : s.previous p ≠ p := by
  rw [hq.back.prev_eq]
  rcases List.eq_nil_or_concat l₁ with rfl | ⟨l, a, rfl⟩
  · exact (hq.ne_null (by simp)).symm
  · intro heq
    rw [List.concat_eq_append, List.getLastD_concat] at heq
    have hnd := hq.chain.nodup
    exact (List.nodup_append.1 hnd).2.2 a (by simp) p (by simp) heq

/-! ## The choice of the next process -/

section

omit [Layout]

@[simp] theorem pick_nextptr (s : Sched) (p : Ptr) : (s.pick p).nextptr = p := rfl

@[simp] theorem pickFresh_nextptr (s : Sched) (p : Ptr) : (s.pickFresh p).nextptr = p := rfl

@[simp] theorem pickHead_nextptr (s : Sched) : s.pickHead.nextptr = s.schedqueue.head := by
  unfold pickHead
  split <;> rfl

@[simp] theorem pickHead_tickLog (s : Sched) : s.pickHead.tickLog = s.tickLog := by
  unfold pickHead
  split <;> rfl

end

@[simp] theorem pickAfter_tickLog (s : Sched) (last : Ptr) :
    (s.pickAfter last).tickLog = s.tickLog := by
  unfold pickAfter
  split_ifs <;> first | rfl | exact pickHead_tickLog s

@[simp] theorem pickNextProc_tickLog (s : Sched) : s.pickNextProc.tickLog = s.tickLog := by
  unfold pickNextProc
  split
  · rfl
  · exact pickAfter_tickLog s _

/-- The process chosen after `last` is the head or the one behind `last`. -/
theorem pickAfter_nextptr (s : Sched) (last : Ptr) :
    (s.pickAfter last).nextptr = s.schedqueue.head ∨
      (s.next last ≠ null ∧ (s.pickAfter last).nextptr = s.next last) := by
  unfold pickAfter
  split_ifs with h₁ h₂ h₃ h₄ h₅
  · exact Or.inl rfl
  · exact Or.inl rfl
  · exact Or.inl (pickHead_nextptr s)
  · exact Or.inr ⟨h₃, rfl⟩
  · exact Or.inr ⟨h₃, rfl⟩
  · exact Or.inl (pickHead_nextptr s)

theorem Linked.pickAfter_mem (hq : Linked s q) (hne : q ≠ []) {last : Ptr}
    (hlast : last = null ∨ last = idlestate ∨ last ∈ q) : (s.pickAfter last).nextptr ∈ q := by
  rcases hlast with rfl | rfl | hlast
  · simpa [pickAfter] using hq.head_mem hne
  · by_cases hn : idlestate = null
    · simpa [pickAfter, hn] using hq.head_mem hne
    · simpa [pickAfter, hn] using hq.head_mem hne
  · rcases pickAfter_nextptr s last with h | ⟨hn, h⟩
    · exact h ▸ hq.head_mem hne
    · exact h ▸ (hq.chain.next_mem hlast).resolve_left hn

theorem pickNextProc_of_head (h : s.schedqueue.head = null) :
    s.pickNextProc = s.pick idlestate := by
  rw [pickNextProc, if_pos h]

theorem Linked.pickNextProc_eq (hq : Linked s q) (hne : q ≠ []) :
    s.pickNextProc = s.pickAfter (if s.nextptr = null then s.curptr else s.nextptr) := by
  rw [pickNextProc, if_neg (hq.head_ne_null hne)]

/-! ## The loop of `dequeue` -/

/-- One round of the loop of `dequeue`. -/
def round (s : Sched) : Sched :=
  let s := s.chargeProcess.pickNextProc
  { s with curptr := s.nextptr }

theorem sameQueue_round (s : Sched) : SameQueue s s.round :=
  (sameQueue_chargeProcess s).trans <| (sameQueue_pickNextProc _).trans ⟨rfl, rfl, rfl, rfl, rfl, rfl⟩

theorem pickOther_succ (p : Ptr) (n : Nat) (s : Sched) :
    pickOther p (n + 1) s = if s.round.nextptr = p then pickOther p n s.round else some s.round := by
  rw [pickOther]
  rfl

@[simp] theorem chargeProcess_curptr (s : Sched) : s.chargeProcess.curptr = s.curptr := by
  unfold chargeProcess
  split <;> rfl

@[simp] theorem chargeProcess_nextptr (s : Sched) : s.chargeProcess.nextptr = s.nextptr := by
  unfold chargeProcess
  split <;> rfl

theorem chargeProcess_ticksleft (h : s.curptr ≠ idlestate) :
    s.chargeProcess.ticksleft = update s.ticksleft s.curptr (s.ticksleft s.curptr - 1) := by
  rw [chargeProcess, if_neg h]

/-- The last process of the queue is not its head, unless it is alone. -/
theorem Linked.head_ne_of_last (hq : Linked s q) (hp : p ∈ q) (hq₁ : q ≠ [p])
    (hlast : s.next p = null) : s.schedqueue.head ≠ p := by
  intro hhead
  obtain ⟨l, rfl, hc⟩ := hq.chain.exists_cons (hhead ▸ hq.ne_null hp)
  rw [hhead, hlast] at hc
  rw [hc.null_eq_nil, hhead] at hq₁
  exact hq₁ rfl

/-- A round in which the process at the head is chosen again takes one tick from its
counter, or starts it over when that was the last one. -/
theorem Linked.round_self (hq : Linked s q) (hp : p ∈ q) (hq₁ : q ≠ [p])
    (hcur : s.curptr = p) (hnext : s.nextptr = null ∨ s.nextptr = p)
    (hagain : s.round.nextptr = p) :
    s.ticksleft p ≠ s.schedticks p ∧
      s.round.ticksleft p = if s.ticksleft p - 1 = 0 then s.schedticks p else s.ticksleft p - 1 := by
  have hpn := hq.ne_null hp
  have hpi := hq.ne_idle hp
  have hqc := hq.congr (sameQueue_chargeProcess s)
  have hne : q ≠ [] := List.ne_nil_of_mem hp
  have hlast : (if s.chargeProcess.nextptr = null then s.chargeProcess.curptr
      else s.chargeProcess.nextptr) = p := by
    rcases hnext with h | h
    · simp [h, hcur]
    · simp [h, hpn]
  have hround : s.round.nextptr = (s.chargeProcess.pickAfter p).nextptr ∧
      s.round.ticksleft = (s.chargeProcess.pickAfter p).ticksleft := by
    rw [round, hqc.pickNextProc_eq hne, hlast]
    exact ⟨rfl, rfl⟩
  have hticks : s.chargeProcess.ticksleft p = s.ticksleft p - 1 := by
    rw [chargeProcess_ticksleft (hcur ▸ hpi), hcur, update_self]
  have hshare : s.chargeProcess.schedticks p = s.schedticks p := by
    rw [(sameQueue_chargeProcess s).schedticks]
  -- what comes behind `p` is not `p`, and behind the last process comes another head
  have hself : s.chargeProcess.next p ≠ p := hqc.next_ne hp
  have htail : s.chargeProcess.next p = null → s.chargeProcess.schedqueue.head ≠ p :=
    hqc.head_ne_of_last hp hq₁
  rw [hround.2]
  rw [hround.1] at hagain
  unfold pickAfter at hagain ⊢
  rw [if_neg hpn, if_neg hpi] at hagain ⊢
  by_cases hnull : s.chargeProcess.next p = null
  · rw [if_pos hnull, pickHead_nextptr] at hagain
    exact absurd hagain (htail hnull)
  rw [if_neg hnull] at hagain ⊢
  by_cases hfull : s.chargeProcess.ticksleft p = s.chargeProcess.schedticks p - 1
  · rw [if_pos hfull] at hagain
    exact absurd hagain hself
  rw [if_neg hfull] at hagain ⊢
  by_cases helig : s.chargeProcess.vtrrIsEligible p (s.chargeProcess.next p) = true
  · rw [if_pos helig] at hagain
    exact absurd hagain hself
  rw [if_neg helig, pickHead_nextptr] at hagain
  rw [if_neg helig]
  constructor
  · intro heq
    rw [hticks, hshare, heq] at hfull
    exact hfull rfl
  · unfold pickHead
    rw [hagain, hticks]
    split
    · simp [pickFresh, hshare]
    · simp [pick, hticks]

theorem Linked.round_mem (hq : Linked s q) (hp : p ∈ q) (hcur : s.curptr = p)
    (hnext : s.nextptr = null ∨ s.nextptr = p) : s.round.nextptr ∈ q := by
  have hqc := hq.congr (sameQueue_chargeProcess s)
  have hne : q ≠ [] := List.ne_nil_of_mem hp
  rw [round, hqc.pickNextProc_eq hne]
  refine hqc.pickAfter_mem hne (Or.inr (Or.inr ?_))
  rw [chargeProcess_nextptr, chargeProcess_curptr, hcur]
  split
  next => exact hp
  next h => exact (hnext.resolve_left h).symm ▸ hp

/-- What the loop of `dequeue` ends with. -/
structure PickedOther (p : Ptr) (s s' : Sched) : Prop where
  same : SameQueue s s'
  curptr : s'.curptr = s'.nextptr
  ne : s'.nextptr ≠ p

/-- The loop of `dequeue` ends.  While it goes on, the counter of the process runs down to
the refill, and a round from a full counter chooses another process. -/
theorem Linked.pickOther_self (hp : p ∈ q) (hq₁ : q ≠ [p]) (k : Nat) :
    ∀ {s : Sched}, Linked s q → s.curptr = p → s.nextptr = null ∨ s.nextptr = p →
      (s.ticksleft p - 1).toNat ≤ k →
      ∃ s', pickOther p (k + 2) s = some s' ∧ PickedOther p s s' ∧ s'.nextptr ∈ q := by
  have hfull : ∀ {s : Sched} (n : Nat), Linked s q → s.curptr = p →
      s.nextptr = null ∨ s.nextptr = p → s.round.nextptr ≠ p →
      ∃ s', pickOther p (n + 1) s = some s' ∧ PickedOther p s s' ∧ s'.nextptr ∈ q := by
    intro s n hq hcur hnext hother
    refine ⟨s.round, ?_, ⟨sameQueue_round s, rfl, hother⟩, hq.round_mem hp hcur hnext⟩
    rw [pickOther_succ, if_neg hother]
  induction k with
  | zero =>
    intro s hq hcur hnext hk
    by_cases hagain : s.round.nextptr = p
    · have hzero : s.ticksleft p - 1 = 0 := BitVec.eq_of_toNat_eq (Nat.le_zero.1 hk)
      have hround := (hq.round_self hp hq₁ hcur hnext hagain).2
      rw [if_pos hzero] at hround
      have hq' := hq.congr (sameQueue_round s)
      have hother : s.round.round.nextptr ≠ p := by
        intro hagain'
        refine (hq'.round_self hp hq₁ hagain (Or.inr hagain) hagain').1 ?_
        rw [hround, (sameQueue_round s).schedticks]
      obtain ⟨s', hs', hpo, hmem⟩ := hfull 0 hq' hagain (Or.inr hagain) hother
      rw [pickOther_succ, if_pos hagain]
      exact ⟨s', hs', ⟨(sameQueue_round s).trans hpo.same, hpo.curptr, hpo.ne⟩, hmem⟩
    · exact hfull 1 hq hcur hnext hagain
  | succ k ih =>
    intro s hq hcur hnext hk
    by_cases hagain : s.round.nextptr = p
    · have hround := (hq.round_self hp hq₁ hcur hnext hagain).2
      have hq' := hq.congr (sameQueue_round s)
      have hrest : ∃ s', pickOther p (k + 2) s.round = some s' ∧ PickedOther p s.round s' ∧
          s'.nextptr ∈ q := by
        by_cases hzero : s.ticksleft p - 1 = 0
        · rw [if_pos hzero] at hround
          refine hfull (k + 1) hq' hagain (Or.inr hagain) fun hagain' => ?_
          refine (hq'.round_self hp hq₁ hagain (Or.inr hagain) hagain').1 ?_
          rw [hround, (sameQueue_round s).schedticks]
        · rw [if_neg hzero] at hround
          refine ih hq' hagain (Or.inr hagain) ?_
          rw [hround]
          have hpos : (s.ticksleft p - 1).toNat ≠ 0 := fun h => hzero (BitVec.eq_of_toNat_eq h)
          have hone : (1 : Word).toNat = 1 := rfl
          rw [BitVec.toNat_sub_of_le (by rw [BitVec.le_def, hone]; omega), hone]
          omega
      obtain ⟨s', hs', hpo, hmem⟩ := hrest
      rw [pickOther_succ, if_pos hagain]
      exact ⟨s', hs', ⟨(sameQueue_round s).trans hpo.same, hpo.curptr, hpo.ne⟩, hmem⟩
    · exact hfull (k + 2) hq hcur hnext hagain

/-- The fuel of the loop suffices, whatever `nextptr` was before it. -/
theorem Linked.pickOther_spec (hq : Linked s q) (hp : p ∈ q) (hq₁ : q ≠ [p])
    (hcur : s.curptr = p) :
    ∃ s', pickOther p (2 ^ 32 + 2) s = some s' ∧ PickedOther p s s' ∧
      (s.nextptr = null → s'.nextptr ∈ q) := by
  have hfuel : ∀ {s : Sched}, (s.ticksleft p - 1).toNat ≤ 2 ^ 32 - 1 := fun {s} =>
    Nat.le_sub_one_of_lt (s.ticksleft p - 1).isLt
  by_cases hagain : s.round.nextptr = p
  · obtain ⟨s', hs', hpo, hmem⟩ := pickOther_self hp hq₁ (2 ^ 32 - 1)
      (hq.congr (sameQueue_round s)) hagain (Or.inr hagain) hfuel
    refine ⟨s', ?_, ⟨(sameQueue_round s).trans hpo.same, hpo.curptr, hpo.ne⟩, fun _ => hmem⟩
    rw [pickOther_succ, if_pos hagain]
    exact hs'
  · refine ⟨s.round, ?_, ⟨sameQueue_round s, rfl, hagain⟩, fun hnull =>
      hq.round_mem hp hcur (Or.inl hnull)⟩
    rw [pickOther_succ, if_neg hagain]

/-! ## Leaving the queue -/

section

omit [Layout]

theorem unlink_next (s : Sched) (p : Ptr) :
    (s.unlink p).next =
      if s.previous p = null then s.next else update s.next (s.previous p) (s.next p) := by
  unfold unlink
  dsimp only
  split_ifs <;> simp_all

theorem unlink_previous (s : Sched) (hself : s.previous p ≠ p) :
    (s.unlink p).previous =
      if s.next p = null then s.previous else update s.previous (s.next p) (s.previous p) := by
  have hn : update s.next (s.previous p) (s.next p) p = s.next p :=
    update_of_ne (Ne.symm hself) _ _
  unfold unlink
  dsimp only
  split_ifs <;> simp_all

theorem unlink_head (s : Sched) (hself : s.previous p ≠ p) :
    (s.unlink p).schedqueue.head =
      if s.schedqueue.head = p then s.next p else s.schedqueue.head := by
  have hn : update s.next (s.previous p) (s.next p) p = s.next p :=
    update_of_ne (Ne.symm hself) _ _
  unfold unlink
  dsimp only
  split_ifs <;> simp_all

@[simp] theorem unlink_schedticks (s : Sched) (p : Ptr) :
    (s.unlink p).schedticks = s.schedticks := by
  unfold unlink
  dsimp only
  split_ifs <;> rfl

@[simp] theorem unlink_ticksleft (s : Sched) (p : Ptr) : (s.unlink p).ticksleft = s.ticksleft := by
  unfold unlink
  dsimp only
  split_ifs <;> rfl

@[simp] theorem unlink_misc (s : Sched) (p : Ptr) : (s.unlink p).misc = s.misc := by
  unfold unlink
  dsimp only
  split_ifs <;> rfl

@[simp] theorem unlink_curptr (s : Sched) (p : Ptr) : (s.unlink p).curptr = s.curptr := by
  unfold unlink
  dsimp only
  split_ifs <;> rfl

@[simp] theorem unlink_nextptr (s : Sched) (p : Ptr) : (s.unlink p).nextptr = s.nextptr := by
  unfold unlink
  dsimp only
  split_ifs <;> rfl

@[simp] theorem unlink_tickLog (s : Sched) (p : Ptr) : (s.unlink p).tickLog = s.tickLog := by
  unfold unlink
  dsimp only
  split_ifs <;> rfl

@[simp] theorem unlink_total (s : Sched) (p : Ptr) :
    (s.unlink p).schedqueue.schedticks = s.schedqueue.schedticks - s.schedticks p := by
  unfold unlink
  dsimp only
  split_ifs <;> rfl

@[simp] theorem unlink_queueTicksleft (s : Sched) (p : Ptr) :
    (s.unlink p).schedqueue.ticksleft = s.schedqueue.ticksleft - s.ticksleft p := by
  unfold unlink
  dsimp only
  split_ifs <;> rfl

end

theorem Linked.unlink_chain (hq : Linked s (l₁ ++ p :: l₂)) :
    Chain (s.unlink p).next null (s.unlink p).schedqueue.head (l₁ ++ l₂) := by
  rw [unlink_next, unlink_head s hq.previous_ne, hq.back.prev_eq]
  rcases List.eq_nil_or_concat l₁ with rfl | ⟨l, a, rfl⟩
  · have hhead : s.schedqueue.head = p := (chain_cons.1 hq.chain).1
    rw [List.getLastD_nil, if_pos rfl, if_pos hhead]
    exact hq.chain.tail
  · have ha : a ≠ null := hq.ne_null (by simp)
    have hhead : s.schedqueue.head ≠ p := by
      intro hhead
      have hnd := hq.chain.nodup
      have hc := hq.chain
      rw [List.concat_eq_append, List.append_assoc] at hc hnd
      have hmem : p ∈ l ++ [a] := by
        cases l with
        | nil => simp [← hhead, (chain_cons.1 hc).1]
        | cons x l => simp [← hhead, (chain_cons.1 hc).1]
      rw [← List.append_assoc] at hnd
      exact (List.nodup_append.1 hnd).2.2 p hmem p (by simp) rfl
    have hc := hq.chain
    simp only [List.concat_eq_append, List.getLastD_concat, if_neg ha, if_neg hhead,
      List.append_assoc, List.singleton_append] at hc ⊢
    exact hc.remove_after

theorem Linked.unlink_back (hq : Linked s (l₁ ++ p :: l₂)) :
    Back (s.unlink p).previous null (l₁ ++ l₂) := by
  have hnext : s.next p = l₂.headD null := hq.chain.tail.headD_eq.symm
  rw [unlink_previous s hq.previous_ne, hnext]
  cases l₂ with
  | nil =>
    rw [List.headD_nil, if_pos rfl, List.append_nil]
    exact (back_append.1 hq.back).1
  | cons x l₂ =>
    have hx : x ≠ null := hq.ne_null (by simp)
    have hnd := hq.chain.nodup
    simp only [List.nodup_append, List.nodup_cons, List.mem_cons] at hnd
    obtain ⟨-, ⟨-, hx₂, -⟩, hx₁⟩ := hnd
    rw [List.headD_cons, if_neg hx]
    exact hq.back.remove_before (fun hx => hx₁ x hx x (Or.inr (Or.inl rfl)) rfl) hx₂

/-- A process and its two neighbours are three, or the neighbours are missing. -/
theorem QueueLinks.neighbours (hq : QueueLinks procs s (l₁ ++ p :: l₂))
    (heq : s.next p = s.previous p) : s.next p = null := by
  have hc := hq.chain.tail.headD_eq
  have hb := hq.back.prev_eq
  cases l₂ with
  | nil => exact hc.symm
  | cons y l₂ =>
    rw [List.headD_cons] at hc
    rw [← heq, ← hc] at hb
    rcases List.eq_nil_or_concat l₁ with rfl | ⟨l, a, rfl⟩
    · exact hc.symm.trans hb
    · rw [List.concat_eq_append, List.getLastD_concat] at hb
      have hnd := hq.chain.nodup
      rw [List.concat_eq_append, hb] at hnd
      exact absurd rfl ((List.nodup_append.1 hnd).2.2 a (by simp) a (by simp))

/-- Once its flag is cleared, unlinking a process takes it off the queue. -/
theorem QueueLinks.leave (hq : QueueLinks procs s (l₁ ++ p :: l₂))
    (hflag : ∀ x ∈ procs, s.isEnqueued x = true ↔ x ≠ p ∧ x ∈ l₁ ++ p :: l₂) :
    QueueInv procs (s.unlink p) (l₁ ++ l₂) := by
  have hp := hq.mem_procs p (by simp)
  have hnd := hq.chain.nodup
  have hpl : p ∉ l₁ ++ l₂ := (List.nodup_cons.1 (List.perm_middle.nodup_iff.1 hnd)).1
  have hprev := hq.previous_ok p hp
  have hnext := hq.next_ok p hp
  have hsub : ∀ x ∈ l₁ ++ l₂, x ∈ l₁ ++ p :: l₂ := fun x hx => by
    simp only [List.mem_append, List.mem_cons] at hx ⊢
    tauto
  refine { shares := ?shares, chain := ?chain, back := ?back, mem_procs := ?mem_procs,
           sorted := ?sorted, total := ?total, next_ok := ?next_ok, previous_ok := ?previous_ok,
           isEnqueued_iff := ?isEnqueued_iff }
  case shares =>
    rw [unlink_schedticks]
    exact hq.shares
  case chain => exact hq.linked.unlink_chain
  case back => exact hq.linked.unlink_back
  case mem_procs => exact fun x hx => hq.mem_procs x (hsub x hx)
  case sorted =>
    rw [unlink_schedticks]
    refine hq.sorted.sublist ?_
    exact List.Sublist.append_left (List.sublist_cons_self p l₂) l₁
  case total =>
    have htot := hq.total
    rw [shareSum_insert] at htot
    rw [unlink_total, unlink_schedticks, BitVec.toNat_sub_of_le (by rw [BitVec.le_def]; omega)]
    omega
  case next_ok =>
    intro x hx
    rw [unlink_next]
    split
    · exact hq.next_ok x hx
    · by_cases hxa : x = s.previous p
      · have hpa : s.next p ≠ s.previous p := fun heq =>
          absurd (heq.symm.trans (hq.neighbours heq)) (by assumption)
        rw [hxa, update_self]
        exact ⟨hpa, hnext.2⟩
      · rw [update_of_ne hxa]
        exact hq.next_ok x hx
  case previous_ok =>
    intro x hx
    rw [unlink_previous s hprev.1]
    split
    · exact hq.previous_ok x hx
    · by_cases hxa : x = s.next p
      · have hpa : s.previous p ≠ s.next p := fun heq =>
          absurd (hq.neighbours heq.symm) (by assumption)
        rw [hxa, update_self]
        exact ⟨hpa, hprev.2⟩
      · rw [update_of_ne hxa]
        exact hq.previous_ok x hx
  case isEnqueued_iff =>
    intro x hx
    rw [isEnqueued, unlink_misc, ← isEnqueued, hflag x hx]
    by_cases hxp : x = p
    · subst hxp
      simp only [ne_eq, not_true_eq_false, false_and, false_iff]
      exact hpl
    · simp only [ne_eq, hxp, not_false_eq_true, true_and, List.mem_append, List.mem_cons, false_or]

/-- The flags after `dequeue` has cleared one. -/
theorem QueueInv.isEnqueued_cleared (hq : QueueInv procs s q) (hx : x ∈ procs) :
    isEnqueued { s with misc := update s.misc p (s.misc p &&& ~~~Flag.enqueued) } x = true ↔
      x ≠ p ∧ x ∈ q := by
  rw [isEnqueued]
  by_cases hxp : x = p
  · subst hxp
    simp only [update_self, Flag.and_not_enqueued_and]
    simp
  · have hiff := hq.isEnqueued_iff x hx
    rw [isEnqueued] at hiff
    simp only [update_of_ne hxp, hiff]
    simp [hxp]

theorem dequeue_of_notMem (hq : QueueInv procs s q) (hp : p ∈ procs) (hpq : p ∉ q) :
    s.dequeue p = some s := by
  have hoff : s.isEnqueued p = false := by
    rw [← Bool.not_eq_true, hq.isEnqueued_iff p hp]
    exact hpq
  simp [dequeue, hoff]

/-- The shortcut of `dequeue` is taken by the only process of the queue. -/
theorem dequeue_sole (hq : QueueInv procs s [p]) :
    s.dequeue p = some { s with
      misc := update s.misc p (s.misc p &&& ~~~Flag.enqueued)
      schedqueue := { head := null, ticksleft := 0, schedticks := 0 } } := by
  have hon := (hq.isEnqueued_iff p (hq.mem_procs p (by simp))).2 (by simp)
  have htot : s.schedqueue.schedticks = s.schedticks p :=
    BitVec.eq_of_toNat_eq (by simpa using hq.total)
  simp [dequeue, hon, htot]

theorem QueueInv.leave_sole (hq : QueueInv procs s [p]) :
    QueueInv procs { s with
      misc := update s.misc p (s.misc p &&& ~~~Flag.enqueued)
      schedqueue := { head := null, ticksleft := 0, schedticks := 0 } } [] where
  shares := hq.shares
  chain := .nil
  back := trivial
  mem_procs := by simp
  sorted := .nil
  total := rfl
  next_ok := hq.next_ok
  previous_ok := hq.previous_ok
  isEnqueued_iff x hx := by
    have hiff := hq.isEnqueued_cleared (p := p) hx
    rw [isEnqueued] at hiff ⊢
    rw [hiff]
    simp

/-- Off the shortcut, `dequeue` lets another process be picked and unlinks. -/
theorem dequeue_eq (hq : QueueInv procs s (l₁ ++ p :: l₂)) (hne : l₁ ++ l₂ ≠ []) :
    s.dequeue p =
      (if s.curptr = p then
        pickOther p (2 ^ 32 + 2)
          { s with misc := update s.misc p (s.misc p &&& ~~~Flag.enqueued) }
      else some { s with misc := update s.misc p (s.misc p &&& ~~~Flag.enqueued) }).map
        fun s => s.unlink p := by
  have hon := (hq.isEnqueued_iff p (hq.mem_procs p (by simp))).2 (by simp)
  have htot : s.schedqueue.schedticks ≠ s.schedticks p := by
    intro heq
    have htot := hq.total
    rw [heq, shareSum_insert] at htot
    obtain ⟨y, hy⟩ := List.exists_mem_of_ne_nil _ hne
    obtain ⟨m₁, m₂, hm⟩ := List.append_of_mem hy
    have hpos := hq.shares.pos y (hq.mem_procs y (by
      simp only [List.mem_append, List.mem_cons] at hy ⊢
      tauto))
    rw [hm, shareSum_insert] at htot
    omega
  rw [dequeue, hon]
  simp only [Bool.not_true, Bool.false_eq_true, if_false, if_neg htot]

/-- What `dequeue` of `p` does to the processor, with `q` the queue it leaves behind. -/
structure Dequeued (p : Ptr) (q : List Ptr) (s s' : Sched) : Prop where
  schedticks : s'.schedticks = s.schedticks
  /-- The last process, or one that is not running, leaves the processor alone. -/
  keeps : q = [] ∨ s.curptr ≠ p → s'.curptr = s.curptr ∧ s'.nextptr = s.nextptr
  /-- The running process is replaced by another one. -/
  replaced : q ≠ [] → s.curptr = p → s'.curptr = s'.nextptr ∧ s'.nextptr ≠ p
  /-- If no choice was pending, the other one is on the queue. -/
  chosen : q ≠ [] → s.curptr = p → s.nextptr = null → s'.nextptr ∈ q

/-- `dequeue` ends and takes a process that is on the queue off it. -/
theorem dequeue_spec (hq : QueueInv procs s (l₁ ++ p :: l₂)) :
    ∃ s', s.dequeue p = some s' ∧ QueueInv procs s' (l₁ ++ l₂) ∧ Dequeued p (l₁ ++ l₂) s s' := by
  by_cases hne : l₁ ++ l₂ = []
  · obtain ⟨rfl, rfl⟩ := List.append_eq_nil_iff.1 hne
    exact ⟨_, dequeue_sole hq, hq.leave_sole, ⟨rfl, fun _ => ⟨rfl, rfl⟩, fun h => absurd rfl h,
      fun h => absurd rfl h⟩⟩
  have hlinks := hq.toQueueLinks.withMisc (update s.misc p (s.misc p &&& ~~~Flag.enqueued))
  have hflag := fun x (hx : x ∈ procs) => hq.isEnqueued_cleared (p := p) hx
  rw [dequeue_eq hq hne]
  by_cases hcur : s.curptr = p
  · have hone : l₁ ++ p :: l₂ ≠ [p] := by
      intro h
      have hlen := congrArg List.length h
      simp only [List.length_append, List.length_cons, List.length_nil] at hlen
      refine hne (List.eq_nil_of_length_eq_zero ?_)
      rw [List.length_append]
      omega
    obtain ⟨t, ht, hpo, hmem⟩ := hlinks.linked.pickOther_spec (by simp) hone hcur
    rw [if_pos hcur, ht]
    refine ⟨_, rfl, (hlinks.congr hpo.same).leave ?_, ⟨?_, ?_, ?_, ?_⟩⟩
    · intro x hx
      rw [hpo.same.isEnqueued]
      exact hflag x hx
    · rw [unlink_schedticks, hpo.same.schedticks]
    · exact fun h => absurd hcur (h.resolve_left hne)
    · intro _ _
      rw [unlink_curptr, unlink_nextptr]
      exact ⟨hpo.curptr, hpo.ne⟩
    · intro _ _ hnull
      have hin := hmem hnull
      rw [unlink_nextptr]
      simp only [List.mem_append, List.mem_cons] at hin ⊢
      exact hin.imp_right fun h => h.resolve_left hpo.ne
  · rw [if_neg hcur]
    exact ⟨_, rfl, hlinks.leave hflag, ⟨by simp, fun _ => by simp, fun _ h => absurd h hcur,
      fun _ h => absurd h hcur⟩⟩

/-! ## Runs of queue operations -/

/-- The operations of the scheduler.  `schedule` stands for the macro that makes the
choice the current process. -/
inductive QueueOp where
  | enqueue (process : Ptr)
  | dequeue (process : Ptr)
  | chargeProcess
  | pickNextProc
  | schedule
deriving DecidableEq

/-- The operation is about a process of `procs`, if about any. -/
def QueueOp.On (procs : Finset Ptr) : QueueOp → Prop
  | .enqueue p => p ∈ procs
  | .dequeue p => p ∈ procs
  | _ => True

instance (op : QueueOp) : Decidable (op.On procs) :=
  match op with
  | .enqueue p => inferInstanceAs (Decidable (p ∈ procs))
  | .dequeue p => inferInstanceAs (Decidable (p ∈ procs))
  | .chargeProcess => inferInstanceAs (Decidable True)
  | .pickNextProc => inferInstanceAs (Decidable True)
  | .schedule => inferInstanceAs (Decidable True)

/-- One queue operation. -/
def apply (s : Sched) : QueueOp → Option Sched
  | .enqueue p => s.enqueue p
  | .dequeue p => s.dequeue p
  | .chargeProcess => some s.chargeProcess
  | .pickNextProc => some s.pickNextProc
  | .schedule => some s.schedule

/-- A queue operation ends and keeps the queue represented. -/
theorem apply_spec (hq : QueueInv procs s q) {op : QueueOp} (hop : op.On procs) :
    ∃ s' q', s.apply op = some s' ∧ QueueInv procs s' q' ∧ s'.schedticks = s.schedticks := by
  cases op with
  | enqueue p =>
    by_cases hpq : p ∈ q
    · exact ⟨s, q, enqueue_of_mem hq hpq, hq, rfl⟩
    · obtain ⟨t, l₁, l₂, ht, -, hq', hticks⟩ := enqueue_spec hq hop hpq
      exact ⟨_, _, ht, hq', (catchUp_schedticks t p).trans hticks.schedticks⟩
  | dequeue p =>
    by_cases hpq : p ∈ q
    · obtain ⟨l₁, l₂, rfl⟩ := List.append_of_mem hpq
      obtain ⟨s', hs', hq', hd⟩ := dequeue_spec hq
      exact ⟨s', _, hs', hq', hd.schedticks⟩
    · exact ⟨s, q, dequeue_of_notMem hq hop hpq, hq, rfl⟩
  | chargeProcess =>
    have hsame := sameQueue_chargeProcess s
    exact ⟨_, q, rfl, hq.congr hsame, hsame.schedticks⟩
  | pickNextProc =>
    have hsame := sameQueue_pickNextProc s
    exact ⟨_, q, rfl, hq.congr hsame, hsame.schedticks⟩
  | schedule => exact ⟨_, q, rfl, hq.congr (sameQueue_schedule s), rfl⟩

/-- The queue is empty, and no process counts as enqueued. -/
structure EmptyQueue (procs : Finset Ptr) (s : Sched) : Prop where
  shares : Shares procs s.schedticks
  head : s.schedqueue.head = null
  total : s.schedqueue.schedticks = 0
  isEnqueued : ∀ p ∈ procs, s.isEnqueued p = false
  next_ok : ∀ p ∈ procs, LinkOk procs p (s.next p)
  previous_ok : ∀ p ∈ procs, LinkOk procs p (s.previous p)

theorem EmptyQueue.queueInv (he : EmptyQueue procs s) : QueueInv procs s [] where
  shares := he.shares
  chain := he.head ▸ .nil
  back := trivial
  mem_procs := by simp
  sorted := .nil
  total := by rw [he.total]; rfl
  next_ok := he.next_ok
  previous_ok := he.previous_ok
  isEnqueued_iff p hp := by simp [he.isEnqueued p hp]

theorem created_emptyQueue {schedticks : Ptr → Word} (hs : Shares procs schedticks) :
    EmptyQueue procs (created schedticks) where
  shares := hs
  head := rfl
  total := rfl
  isEnqueued _ _ := by simp [Sched.isEnqueued, created]
  next_ok p hp := ⟨Ne.symm (ne_of_mem_of_not_mem hp hs.null_notMem), Or.inl rfl⟩
  previous_ok p hp := ⟨Ne.symm (ne_of_mem_of_not_mem hp hs.null_notMem), Or.inl rfl⟩

theorem foldlM_apply_spec (hq : QueueInv procs s q) (ops : List QueueOp)
    (hops : ∀ op ∈ ops, op.On procs) :
    ∃ s' q', ops.foldlM apply s = some s' ∧ QueueInv procs s' q' ∧
      s'.schedticks = s.schedticks := by
  induction ops generalizing s q with
  | nil => exact ⟨s, q, rfl, hq, rfl⟩
  | cons op ops ih =>
    obtain ⟨s₁, q₁, hs₁, hq₁, hst₁⟩ := apply_spec hq (hops op (by simp))
    obtain ⟨s', q', hs', hq', hst'⟩ := ih hq₁ fun op hop => hops op (by simp [hop])
    refine ⟨s', q', ?_, hq', hst'.trans hst₁⟩
    rw [List.foldlM_cons, hs₁]
    exact hs'

/-- The run queue as one sees it by following the links. -/
structure RunQueue (procs : Finset Ptr) (s : Sched) (q : List Ptr) : Prop where
  /-- Following `next` from `schedqueue.head` visits `q` and ends at `NULL`. -/
  visits : Chain s.next null s.schedqueue.head q
  once : q.Nodup
  /-- The processes visited are those with `ENQUEUED` set. -/
  enqueued : ∀ p, p ∈ q ↔ p ∈ procs ∧ s.isEnqueued p = true
  ordered : q.Pairwise fun a b => s.schedticks b ≤ s.schedticks a
  /-- Every `previous` is the predecessor, and `NULL` for the head. -/
  predecessor : Back s.previous null q
  total : s.schedqueue.schedticks.toNat = shareSum s.schedticks q

theorem QueueInv.runQueue (hq : QueueInv procs s q) : RunQueue procs s q where
  visits := hq.chain
  once := hq.chain.nodup
  enqueued p := by
    constructor
    · intro hp
      exact ⟨hq.mem_procs p hp, (hq.isEnqueued_iff p (hq.mem_procs p hp)).2 hp⟩
    · rintro ⟨hp, hon⟩
      exact (hq.isEnqueued_iff p hp).1 hon
  ordered := hq.sorted
  predecessor := hq.back
  total := hq.total

/-- Every sequence of queue operations on processes with positive shares whose sum has 32
bits ends, and the queue is represented after it. -/
theorem queue_represented (procs : Finset Ptr) (s : Sched) (he : EmptyQueue procs s)
    (ops : List QueueOp) (hops : ∀ op ∈ ops, op.On procs) :
    ∃ s' q, ops.foldlM apply s = some s' ∧ RunQueue procs s' q := by
  obtain ⟨s', q, hs', hq, -⟩ := foldlM_apply_spec he.queueInv ops hops
  exact ⟨s', q, hs', hq.runQueue⟩

omit [Layout] in
/-- The process with the larger share is dispatched, leaves and comes back. -/
theorem queue_represented_sample :
    letI := Layout.sample
    ∃ s' q, [QueueOp.enqueue (proctab 0), .enqueue (proctab 1), .pickNextProc, .schedule,
        .dequeue (proctab 0), .schedule, .enqueue (proctab 0)].foldlM apply
          (created fun p => if p = proctab 0 then 2 else 1) = some s' ∧
      RunQueue {proctab 0, proctab 1} s' q := by
  let _ := Layout.sample
  have hshares : Shares {proctab 0, proctab 1} fun p => if p = proctab 0 then (2 : Word) else 1 :=
    ⟨by decide, by decide, by intro p _; split <;> decide, by decide +kernel⟩
  have hops : ∀ op ∈ [QueueOp.enqueue (proctab 0), .enqueue (proctab 1), .pickNextProc,
      .schedule, .dequeue (proctab 0), .schedule, .enqueue (proctab 0)],
      op.On {proctab 0, proctab 1} := by decide
  exact queue_represented {proctab 0, proctab 1} _ (created_emptyQueue hshares) _ hops

end Sched

end Mycrokernel
