import Mycrokernel.Kernel.Ticks
import Mycrokernel.Lib.RoundRobin

/-!
# Who gets the processor

What timer interrupts make of a run queue that nobody enters or leaves.

`Tick` says once what one of them can do: `pick_next_proc` goes on to the process
behind the current one, with a new counter or because `vtrr_is_eligible` says so, or
returns to the head.  So the queue is gone through in sweeps.  Everybody is visited
(`no_starvation`), and as long as `vtrr_is_eligible` does not choose a process that has
no tick left, each cycle gives everybody its share (`proportional_share`).
-/

namespace Mycrokernel

open Function (update update_self update_of_ne)
open PointerList
open RoundRobin (Sweeps Turn Counted)

namespace Sched

variable [Layout] {procs : Finset Ptr} {s s' : Sched} {p x y : Ptr} {q l₁ l₂ : List Ptr}

/-! ## A timer interrupt -/

/-- A process of the queue is running. -/
structure Running (procs : Finset Ptr) (s : Sched) (q : List Ptr) : Prop where
  queue : QueueInv procs s q
  mem : s.curptr ∈ q
  nextptr : s.nextptr = null

/-- The counters after the current process has been charged. -/
def charged (s : Sched) : Ptr → Word := update s.ticksleft s.curptr (s.ticksleft s.curptr - 1)

section

omit [Layout]

theorem charged_curptr (s : Sched) : s.charged s.curptr = s.ticksleft s.curptr - 1 :=
  update_self ..

theorem charged_of_ne (hx : x ≠ s.curptr) : s.charged x = s.ticksleft x := update_of_ne hx _ _

/-- What a timer interrupt does to the processor and the counters. -/
inductive Tick (s : Sched) (q : List Ptr) (s' : Sched) : Prop where
  /-- Back to the head, whose counter starts over if it is spent. -/
  | back : s'.curptr = s.schedqueue.head →
      s'.ticksleft = (if s.charged s.schedqueue.head = 0 then
        update s.charged s.schedqueue.head (s.schedticks s.schedqueue.head) else s.charged) →
      (∀ l₁ y l₂, q = l₁ ++ s.curptr :: y :: l₂ →
        s.charged s.curptr ≠ s.schedticks s.curptr - 1 ∧
          ¬ s.chargeProcess.vtrrIsEligible s.curptr y = true) → Tick s q s'
  /-- On to the next process, whose counter starts over. -/
  | fresh {l₁ l₂ : List Ptr} {y : Ptr} : q = l₁ ++ s.curptr :: y :: l₂ →
      s.charged s.curptr = s.schedticks s.curptr - 1 → s'.curptr = y →
      s'.ticksleft = update s.charged y (s.schedticks y) → Tick s q s'
  /-- On to the next process, which is eligible. -/
  | eligible {l₁ l₂ : List Ptr} {y : Ptr} : q = l₁ ++ s.curptr :: y :: l₂ →
      s.charged s.curptr ≠ s.schedticks s.curptr - 1 →
      s.chargeProcess.vtrrIsEligible s.curptr y = true → s'.curptr = y →
      s'.ticksleft = s.charged → Tick s q s'

theorem pickHead_ticksleft (s : Sched) : s.pickHead.ticksleft =
    if s.ticksleft s.schedqueue.head = 0 then
      update s.ticksleft s.schedqueue.head (s.schedticks s.schedqueue.head)
    else s.ticksleft := by
  unfold pickHead
  split <;> rfl

end

/-- Every timer interrupt is one of the three. -/
theorem Running.tick (h : Running procs s q) : Tick s q s.settle := by
  have hp := h.queue.mem_procs _ h.mem
  have hnull := h.queue.toQueueLinks.ne_null hp
  have hidle := h.queue.toQueueLinks.ne_idle hp
  have hne : q ≠ [] := List.ne_nil_of_mem h.mem
  have hsame := sameQueue_chargeProcess s
  have hlinks := h.queue.toQueueLinks.congr hsame
  have hticks : s.chargeProcess.ticksleft = s.charged := chargeProcess_ticksleft hidle
  have hsettle : s.settle = (s.chargeProcess.pickAfter s.curptr).schedule := by
    rw [settle, if_pos h.nextptr, hlinks.linked.pickNextProc_eq hne, chargeProcess_nextptr,
      if_pos h.nextptr, chargeProcess_curptr]
  have hcur : s.settle.curptr = (s.chargeProcess.pickAfter s.curptr).nextptr := by
    rw [hsettle]
    rfl
  have htl : s.settle.ticksleft = (s.chargeProcess.pickAfter s.curptr).ticksleft := by
    rw [hsettle]
    rfl
  obtain ⟨l₁, l₂, hq⟩ := List.append_of_mem h.mem
  have htail : Chain s.chargeProcess.next null (s.chargeProcess.next s.curptr) l₂ :=
    Chain.tail (hq ▸ hlinks.chain)
  -- the queue behind the current process decides where `next` leads
  have hbehind : ∀ {l₁' y l₂'}, q = l₁' ++ s.curptr :: y :: l₂' →
      s.chargeProcess.next s.curptr = y := fun {l₁' y l₂'} hq' =>
    (chain_cons.1 (Chain.tail (hq' ▸ hlinks.chain))).1
  unfold pickAfter at hcur htl
  rw [if_neg hnull, if_neg hidle] at hcur htl
  by_cases hlast : s.chargeProcess.next s.curptr = null
  · rw [if_pos hlast] at hcur htl
    refine .back ?_ ?_ fun l₁' y l₂' hq' => ?_
    · rw [hcur, pickHead_nextptr, hsame.head]
    · rw [htl, pickHead_ticksleft, hticks, hsame.head, hsame.schedticks]
    · have hy := h.queue.mem_procs y (by rw [hq']; simp)
      exact absurd ((hbehind hq').symm.trans hlast) (h.queue.toQueueLinks.ne_null hy)
  obtain ⟨l, hl, -⟩ := htail.exists_cons hlast
  have hq' : q = l₁ ++ s.curptr :: s.chargeProcess.next s.curptr :: l := by rw [hq, hl]
  rw [if_neg hlast] at hcur htl
  by_cases hfull : s.charged s.curptr = s.schedticks s.curptr - 1
  · rw [if_pos (by rw [hticks, hsame.schedticks, hfull])] at hcur htl
    refine .fresh hq' hfull hcur ?_
    rw [htl]
    show update s.chargeProcess.ticksleft _ _ = _
    rw [hticks, hsame.schedticks]
  rw [if_neg (by rw [hticks, hsame.schedticks]; exact hfull)] at hcur htl
  by_cases helig : s.chargeProcess.vtrrIsEligible s.curptr (s.chargeProcess.next s.curptr) = true
  · rw [if_pos helig] at hcur htl
    exact .eligible hq' hfull helig hcur (htl.trans hticks)
  · rw [if_neg helig] at hcur htl
    refine .back ?_ ?_ fun l₁' y l₂' hq'' => ⟨hfull, ?_⟩
    · rw [hcur, pickHead_nextptr, hsame.head]
    · rw [htl, pickHead_ticksleft, hticks, hsame.head, hsame.schedticks]
    · rw [← hbehind hq'']
      exact helig

theorem sameQueue_settle (s : Sched) : SameQueue s s.settle := by
  unfold settle
  split
  · exact ((sameQueue_chargeProcess s).trans (sameQueue_pickNextProc _)).trans (sameQueue_schedule _)
  · exact sameQueue_schedule s

theorem QueueLinks.head_mem_of (hq : QueueLinks procs s q) (hx : x ∈ q) : s.schedqueue.head ∈ q :=
  hq.linked.head_mem (List.ne_nil_of_mem hx)

/-- What comes behind a process is determined. -/
theorem QueueLinks.behind_unique (hq : QueueLinks procs s q) {l₁ l₂ l₁' l₂' : List Ptr}
    (hl : q = l₁ ++ p :: l₂) (hl' : q = l₁' ++ p :: l₂') : l₂ = l₂' :=
  Chain.unique (Chain.tail (hl ▸ hq.chain)) (Chain.tail (hl' ▸ hq.chain))

theorem Tick.mem (ht : Tick s q s') (hq : QueueLinks procs s q) (hcur : s.curptr ∈ q) :
    s'.curptr ∈ q := by
  cases ht with
  | back hc _ _ => exact hc ▸ hq.head_mem_of hcur
  | fresh hl _ hc _ => simp [hl, hc]
  | eligible hl _ _ hc _ => simp [hl, hc]

theorem Running.settle (h : Running procs s q) : Running procs s.settle q where
  queue := h.queue.congr (sameQueue_settle s)
  mem := h.tick.mem h.queue.toQueueLinks h.mem
  nextptr := rfl

/-! ## Nobody starves -/

section Sweeps

variable {head : Ptr} {tail : List Ptr}

/-- The queue is `head :: tail`, and the head has a tick left when it is running. -/
structure Sweeping (procs : Finset Ptr) (head : Ptr) (tail : List Ptr) (s : Sched) : Prop where
  running : Running procs s (head :: tail)
  pos : s.curptr = head → 0 < (s.ticksleft head).toNat

/-- The current process has all its ticks. -/
def CurFull (s : Sched) : Prop := s.ticksleft s.curptr = s.schedticks s.curptr

omit [Layout] in
theorem toNat_sub_one {w : Word} (hw : 0 < w.toNat) : (w - 1).toNat + 1 = w.toNat := by
  have hone : (1 : Word).toNat = 1 := rfl
  rw [BitVec.toNat_sub_of_le (by rw [BitVec.le_def, hone]; exact hw), hone]
  omega

theorem Sweeping.head_eq (h : Sweeping procs head tail s) : s.schedqueue.head = head :=
  (chain_cons.1 h.running.queue.chain).1

/-- The head comes behind no process. -/
theorem Sweeping.ne_head (h : Sweeping procs head tail s)
    (hl : head :: tail = l₁ ++ p :: y :: l₂) : y ≠ head := by
  have hnd := h.running.queue.chain.nodup
  have hy : y ∈ tail := by
    cases l₁ with
    | nil =>
      rw [List.nil_append, List.cons.injEq] at hl
      simp [hl.2]
    | cons z l₁ =>
      rw [List.cons_append, List.cons.injEq] at hl
      simp [hl.2]
  exact ne_of_mem_of_not_mem hy (List.nodup_cons.1 hnd).1

/-- What a timer interrupt does to the counter of the head: it starts over when it is spent,
or goes down by one if the head was running. -/
theorem Sweeping.counter (h : Sweeping procs head tail s) :
    (s.settle.curptr = head ∧ s.settle.ticksleft head = s.schedticks head) ∨
      s.settle.ticksleft head = s.charged head ∧
        (s.settle.curptr = head → 0 < (s.charged head).toNat) := by
  cases h.running.tick with
  | back hc ht _ =>
    rw [h.head_eq] at hc ht
    rw [hc, ht]
    by_cases hzero : s.charged head = 0
    · rw [if_pos hzero, update_self]
      exact Or.inl ⟨rfl, rfl⟩
    · rw [if_neg hzero]
      exact Or.inr ⟨rfl, fun _ => Nat.pos_of_ne_zero fun h0 => hzero (BitVec.eq_of_toNat_eq h0)⟩
  | fresh hl _ hc ht =>
    have hne := h.ne_head hl
    rw [hc, ht, update_of_ne hne.symm]
    exact Or.inr ⟨rfl, fun heq => absurd heq hne⟩
  | eligible hl _ _ hc ht =>
    rw [hc, ht]
    exact Or.inr ⟨rfl, fun heq => absurd heq (h.ne_head hl)⟩

theorem Sweeping.settle (h : Sweeping procs head tail s) : Sweeping procs head tail s.settle where
  running := h.running.settle
  pos hc := by
    rcases h.counter with ⟨-, ht⟩ | ⟨ht, hpos⟩
    · rw [ht]
      exact h.running.queue.shares.pos head (h.running.queue.mem_procs head (by simp))
    · rw [ht]
      exact hpos hc

/-- Timer interrupts go through the queue in sweeps. -/
theorem sweeps : Sweeps settle curptr (fun s => (s.ticksleft head).toNat) CurFull
    (Sweeping procs head tail) head tail where
  inv s h := h.settle
  mem s h := h.running.mem
  last s l h hl := by
    cases h.running.tick with
    | back hc _ _ => rw [hc, h.head_eq]
    | fresh hl' => exact absurd (h.running.queue.behind_unique hl hl') (by simp)
    | eligible hl' => exact absurd (h.running.queue.behind_unique hl hl') (by simp)
  next s l₁ y l₂ h hl := by
    cases h.running.tick with
    | back hc _ _ => exact Or.inr (by rw [hc, h.head_eq])
    | fresh hl' _ hc _ =>
      exact Or.inl (hc.trans (List.cons.inj (h.running.queue.behind_unique hl' hl)).1)
    | eligible hl' _ _ hc _ =>
      exact Or.inl (hc.trans (List.cons.inj (h.running.queue.behind_unique hl' hl)).1)
  full_next s l₁ y l₂ h hfull hl := by
    have hspent : s.charged s.curptr = s.schedticks s.curptr - 1 := by
      rw [charged_curptr, hfull]
    cases h.running.tick with
    | back _ _ hn => exact absurd hspent (hn l₁ y l₂ hl).1
    | fresh hl' _ hc ht =>
      obtain rfl := (List.cons.inj (h.running.queue.behind_unique hl' hl)).1
      refine ⟨hc, ?_⟩
      rw [CurFull, hc, ht, update_self, (sameQueue_settle s).schedticks]
    | eligible _ hn _ _ _ => exact absurd hspent hn
  pos s h := h.pos
  left_head s h hc := by
    rcases h.counter with ⟨hc', ht⟩ | ⟨ht, -⟩
    · exact Or.inl ⟨hc', by rw [CurFull, hc', ht, (sameQueue_settle s).schedticks]⟩
    · refine Or.inr ?_
      rw [ht, ← hc, charged_curptr]
      exact toNat_sub_one (hc ▸ h.pos hc)
  left_tail s h hc := by
    rcases h.counter with ⟨hc', ht⟩ | ⟨ht, -⟩
    · exact Or.inl ⟨hc', by rw [CurFull, hc', ht, (sameQueue_settle s).schedticks]⟩
    · exact Or.inr (by rw [ht, charged_of_ne (Ne.symm hc)])

end Sweeps

/-! ## Everybody gets its share -/

/-- The next timer interrupt will let `vtrr_is_eligible` choose a process that has no tick
left. -/
def DispatchesSpent (s : Sched) : Prop :=
  s.next s.curptr ≠ null ∧ s.charged s.curptr ≠ s.schedticks s.curptr - 1 ∧
    s.chargeProcess.vtrrIsEligible s.curptr (s.next s.curptr) = true ∧
    s.ticksleft (s.next s.curptr) = 0

instance (s : Sched) : Decidable s.DispatchesSpent :=
  inferInstanceAs (Decidable (_ ∧ _ ∧ _ ∧ _))

/-- The number of times that `charge_process` has charged `p`. -/
def charges (p : Ptr) (log : List TickOp) : Nat :=
  log.countP fun op =>
    match op with
    | .charge process _ _ => process = p
    | .catchUp _ _ _ => false

/-- The shares as numbers of ticks. -/
def share (schedticks : Ptr → Word) (p : Ptr) : Nat := (schedticks p).toNat

variable {schedticks : Ptr → Word} {t : Turn q (share schedticks)}

/-- The scheduler is at the moment `t` of a cycle.  The counters of those that have not been
visited yet do not matter. -/
structure Follows (s : Sched) (t : Turn q (share schedticks)) : Prop where
  schedticks_eq : s.schedticks = schedticks
  curptr : s.curptr = t.cur
  known : ∀ x ∈ q, 0 < t.visits x ∨ x = t.cur →
    (s.ticksleft x).toNat + t.visits x = share schedticks x

omit [Layout] in
theorem Follows.charged (h : Follows s t) (hx : x ∈ q) (hpos : 0 < t.bump x) :
    (s.charged x).toNat + t.bump x = share schedticks x := by
  by_cases hc : x = t.cur
  · have hknown := h.known x hx (Or.inr hc)
    subst hc
    have hlt := t.lt
    have hone := toNat_sub_one (w := s.ticksleft t.cur) (by omega)
    rw [t.bump_cur, ← h.curptr, charged_curptr, h.curptr]
    omega
  · rw [t.bump_of_ne hc] at hpos ⊢
    rw [charged_of_ne (h.curptr ▸ hc)]
    exact h.known x hx (Or.inl hpos)

omit [Layout] in
/-- The exact test of `pick_next_proc` finds the processes that are visited for the first time
in the cycle. -/
theorem Follows.first_iff (h : Follows s t) :
    s.charged s.curptr = s.schedticks s.curptr - 1 ↔ t.visits t.cur = 0 := by
  have hcharged := h.charged t.cur_mem (t.bump_cur.symm ▸ Nat.succ_pos _)
  rw [t.bump_cur] at hcharged
  have hlt := t.lt
  have hone := toNat_sub_one (w := schedticks t.cur) (Nat.zero_lt_of_lt hlt)
  rw [h.curptr, h.schedticks_eq]
  unfold share at hcharged
  constructor
  · intro heq
    rw [heq] at hcharged
    omega
  · intro hzero
    refine BitVec.eq_of_toNat_eq ?_
    omega

theorem Follows.rest_eq (h : Follows s t) (hq : QueueLinks procs s q)
    (hl : q = l₁ ++ s.curptr :: l₂) : t.rest = l₂ :=
  hq.behind_unique (show q = t.done ++ s.curptr :: t.rest by rw [h.curptr]; exact t.split.symm) hl

/-- The sweep may end where `pick_next_proc` returns to the head. -/
theorem Follows.mayStop (h : Follows s t) (hr : Running procs s q)
    (hback : ∀ l₁ y l₂, q = l₁ ++ s.curptr :: y :: l₂ →
      s.charged s.curptr ≠ s.schedticks s.curptr - 1 ∧
        ¬ s.chargeProcess.vtrrIsEligible s.curptr y = true) : t.MayStop := by
  intro y l hrest
  have hl : q = t.done ++ s.curptr :: y :: l := by
    rw [h.curptr, ← hrest]
    exact t.split.symm
  obtain ⟨hfirst, helig⟩ := hback _ y l hl
  have hpos : 0 < t.visits t.cur := Nat.pos_of_ne_zero fun h0 => hfirst (h.first_iff.2 h0)
  have hyr : y ∈ t.rest := hrest ▸ List.mem_cons_self
  have hyq : y ∈ q := t.mem_iff.2 (Or.inr (Or.inr hyr))
  have hyc := t.rest_ne hyr
  have hypos := t.later hpos y hyr
  have hy := h.charged hyq (by rwa [t.bump_of_ne hyc])
  rw [t.bump_of_ne hyc] at hy
  have hcur := h.charged t.cur_mem (t.bump_cur.symm ▸ Nat.succ_pos _)
  -- the process behind has no more ticks left than the current one
  have hticks : s.chargeProcess.ticksleft = s.charged :=
    chargeProcess_ticksleft (hr.queue.toQueueLinks.ne_idle (hr.queue.mem_procs _ hr.mem))
  have hle : (s.charged y).toNat ≤ (s.charged t.cur).toNat := by
    by_contra hlt
    refine helig ?_
    rw [vtrrIsEligible, hticks, h.curptr]
    refine decide_eq_true (Or.inl ?_)
    rw [BitVec.lt_def]
    omega
  refine ⟨hpos, ?_⟩
  omega

/-- A timer interrupt moves to the next moment of the cycle, or begins a new one when
everybody has had its share. -/
theorem Follows.settle (h : Follows s t) (hr : Running procs s q)
    (hok : ¬ s.DispatchesSpent) : ∃ t' : Turn q (share schedticks), Follows s.settle t' ∧
      (t'.visits = t.bump ∨ (∀ x ∈ q, t.bump x = share schedticks x) ∧ ∀ x, t'.visits x = 0) := by
  have hsame := (sameQueue_settle s).schedticks.trans h.schedticks_eq
  have hlinks := hr.queue.toQueueLinks
  cases hr.tick with
  | back hc ht hback =>
    have hstop := h.mayStop hr hback
    obtain ⟨l, hq, -⟩ := hlinks.chain.exists_cons fun hnil =>
      List.ne_nil_of_mem hr.mem (hlinks.head_eq_null_iff.1 hnil)
    obtain ⟨head, hh⟩ : ∃ x, x = s.schedqueue.head := ⟨_, rfl⟩
    rw [← hh] at hc ht hq
    have hhead : head ∈ q := hq ▸ List.mem_cons_self
    have hcharged := h.charged hhead (hstop.pos t hhead)
    by_cases hzero : s.charged head = 0
    · -- the head is spent, and so is everybody
      have heq : t.bump head = share schedticks head := by
        rw [← hcharged, hzero]
        exact (Nat.zero_add _).symm
      have hpos : 0 < share schedticks head := by
        rw [share, ← h.schedticks_eq]
        exact hlinks.shares.pos head (hlinks.mem_procs head hhead)
      have hsorted : q.Pairwise fun x y => share schedticks y ≤ share schedticks x := by
        have hsorted := hlinks.sorted
        rw [h.schedticks_eq] at hsorted
        exact hsorted.imp fun hle => BitVec.le_def.1 hle
      refine ⟨Turn.start hq t.nodup hpos hsorted, ⟨hsame, hc, ?_⟩,
        Or.inr ⟨fun x hx => hstop.exhausted t hq heq hx, fun _ => rfl⟩⟩
      rintro x - (hx | hxh)
      · exact absurd hx (lt_irrefl 0)
      · rw [hxh]
        show (s.settle.ticksleft head).toNat + 0 = _
        rw [ht, if_pos hzero, update_self, h.schedticks_eq]
        rfl
    · have hlt : t.bump head < share schedticks head := by
        have hne : (s.charged head).toNat ≠ 0 := fun h0 => hzero (BitVec.eq_of_toNat_eq h0)
        omega
      refine ⟨t.back hstop hq hlt, ⟨hsame, hc, fun x hx _ => ?_⟩, Or.inl rfl⟩
      rw [ht, if_neg hzero]
      exact h.charged hx (hstop.pos t hx)
  | @fresh l₁ l₂ y hl hfull hc ht =>
    have hrest := h.rest_eq hlinks hl
    have hyr : y ∈ t.rest := hrest ▸ List.mem_cons_self
    have hyq : y ∈ q := t.mem_iff.2 (Or.inr (Or.inr hyr))
    have hy := t.first (h.first_iff.1 hfull) y hyr
    have hpos : 0 < share schedticks y := by
      rw [share, ← h.schedticks_eq]
      exact hlinks.shares.pos y (hlinks.mem_procs y hyq)
    refine ⟨t.advance hrest (hy.symm ▸ hpos), ⟨hsame, hc, fun x hx hknown => ?_⟩, Or.inl rfl⟩
    rw [ht]
    by_cases hxy : x = y
    · subst hxy
      show _ + t.bump x = _
      rw [update_self, t.bump_of_ne (t.rest_ne hyr), hy, h.schedticks_eq]
      rfl
    · rw [update_of_ne hxy]
      exact h.charged hx (hknown.resolve_right hxy)
  | @eligible l₁ l₂ y hl hfull helig hc ht =>
    have hrest := h.rest_eq hlinks hl
    have hyr : y ∈ t.rest := hrest ▸ List.mem_cons_self
    have hyq : y ∈ q := t.mem_iff.2 (Or.inr (Or.inr hyr))
    have hypos : 0 < t.visits y :=
      t.later (Nat.pos_of_ne_zero fun h0 => hfull (h.first_iff.2 h0)) y hyr
    have hnext : s.next s.curptr = y := (chain_cons.1 (Chain.tail (hl ▸ hlinks.chain))).1
    have hleft : s.ticksleft y ≠ 0 := by
      intro h0
      refine hok ⟨?_, hfull, hnext.symm ▸ helig, hnext.symm ▸ h0⟩
      rw [hnext]
      exact hlinks.ne_null (hlinks.mem_procs y hyq)
    have hlt : t.visits y < share schedticks y := by
      have hknown := h.known y hyq (Or.inl hypos)
      have hne : (s.ticksleft y).toNat ≠ 0 := fun h0 => hleft (BitVec.eq_of_toNat_eq h0)
      omega
    refine ⟨t.advance hrest hlt, ⟨hsame, hc, fun x hx hknown => ?_⟩, Or.inl rfl⟩
    rw [ht]
    refine h.charged hx ?_
    rcases hknown with hknown | hxy
    · exact hknown
    · rw [hxy]
      show 0 < t.bump y
      rw [t.bump_of_ne (t.rest_ne hyr)]
      exact hypos

theorem settle_charges (hr : Running procs s q) (p : Ptr) :
    charges p s.settle.tickLog = charges p s.tickLog + if s.curptr = p then 1 else 0 := by
  have hidle := hr.queue.toQueueLinks.ne_idle (hr.queue.mem_procs _ hr.mem)
  have hlog : s.settle.tickLog =
      .charge s.curptr (s.ticksleft s.curptr) s.schedqueue.ticksleft :: s.tickLog := by
    rw [Sched.settle, if_pos hr.nextptr]
    exact (pickNextProc_tickLog _).trans (chargeProcess_tickLog hidle)
  rw [hlog, charges, List.countP_cons]
  simp only [decide_eq_true_eq]
  rfl

/-- Timer interrupts count the visits of the cycles.  The induction is on their number. -/
theorem Follows.run (hf : Follows s t) (hr : Running procs s q) (hstart : t.total = 0)
    (n : Nat) : (∀ i < n, ¬ (Sched.settle^[i] s).DispatchesSpent) →
      ∃ (t' : Turn q (share schedticks)) (count : Ptr → Nat) (cycles : Nat),
        Running procs (Sched.settle^[n] s) q ∧ Follows (Sched.settle^[n] s) t' ∧
        Counted t' n count cycles ∧
        ∀ p, charges p (Sched.settle^[n] s).tickLog = charges p s.tickLog + count p := by
  induction n with
  | zero =>
    intro _
    refine ⟨t, fun _ => 0, 0, hr, hf, ⟨?_, ?_⟩, fun p => rfl⟩
    · rw [hstart, Nat.zero_mul]
    · intro x hx
      rw [Nat.zero_mul, Nat.zero_add]
      exact (List.sum_eq_zero_iff_forall_eq_nat.1 hstart _ (List.mem_map_of_mem hx)).symm
  | succ n ih =>
    intro hok
    obtain ⟨t', count, cycles, hr', hf', hcount, hcharges⟩ := ih fun i hi =>
      hok i (Nat.lt_succ_of_lt hi)
    have hspent := hok n (Nat.lt_succ_self n)
    rw [Function.iterate_succ_apply']
    generalize Sched.settle^[n] s = k at hr' hf' hcharges hspent
    obtain ⟨t'', hf'', hvisits⟩ := hf'.settle hr' hspent
    refine ⟨t'', update count t'.cur (count t'.cur + 1), ?_⟩
    have hcharges' : ∀ p, charges p k.settle.tickLog =
        charges p s.tickLog + update count t'.cur (count t'.cur + 1) p := by
      intro p
      rw [settle_charges hr', hcharges, hf'.curptr]
      by_cases hp : p = t'.cur
      · rw [hp, if_pos rfl, update_self, Nat.add_assoc]
      · rw [if_neg (Ne.symm hp), update_of_ne hp, Nat.add_zero]
    rcases hvisits with hvisits | ⟨hend, hvisits⟩
    · exact ⟨cycles, hr'.settle, hf'', hcount.visit hvisits rfl, hcharges'⟩
    · exact ⟨cycles + 1, hr'.settle, hf'', hcount.renew hend hvisits rfl, hcharges'⟩

end Sched

namespace Kernel

variable [Layout] {procs : Finset Ptr} {s s' : Kernel} {q : List Ptr} {p : Ptr}

open Sched (QueueInv Running Sweeping)

/-- A timer interrupt: `do_hard_int(0)` and then `schedule`. -/
def tick (s : Kernel) (regs : Regs) : Kernel :=
  (s.saveContext regs).clockIsr.finish.schedule 0

/-- A timer interrupt is a step of the system. -/
theorem step_timer (s : Kernel) (regs : Regs) : s.step (.timer regs) = some (s.tick regs) := rfl

/-- The state after `n` timer interrupts. -/
def ticks (s : Kernel) (regs : Nat → Regs) : Nat → Kernel
  | 0 => s
  | n + 1 => (s.ticks regs n).tick (regs n)

theorem tick_sched (s : Kernel) (regs : Regs) : (s.tick regs).sched = s.sched.settle := by
  rw [tick, finish_schedule_sched, clockIsr_sched, saveContext_sched]

theorem ticks_sched (s : Kernel) (regs : Nat → Regs) (n : Nat) :
    (s.ticks regs n).sched = Sched.settle^[n] s.sched := by
  induction n with
  | zero => rfl
  | succ n ih => rw [ticks, tick_sched, ih, Function.iterate_succ_apply']

/-! ## Proportional share -/

/-- The first process of a queue that boot has filled is dispatched, and nobody has been
charged.  What is left to the queue does not matter. -/
structure Dispatched (procs : List Ptr) (boot s : Sched) : Prop where
  same : Sched.SameQueue boot s
  ticksleft : ∀ p ∈ procs, s.ticksleft p = boot.ticksleft p
  curptr : s.curptr = boot.schedqueue.head
  nextptr : s.nextptr = null

/-- The first timer interrupt after boot dispatches the first process. -/
theorem Booted.dispatched {procs : List Ptr} {boot : Kernel} (h : Booted procs boot)
    (hne : procs ≠ []) (regs : Regs) : Dispatched procs boot.sched (boot.tick regs).sched := by
  obtain ⟨q, hq⟩ := h.started
  have hf := hq.inv.queue.first hq.curptr hq.between.nextptr
  have hmem : q ≠ [] := by
    intro hnil
    obtain ⟨p, hp⟩ := List.exists_mem_of_ne_nil _ hne
    exact absurd ((hq.mem p).2 hp) (hnil ▸ List.not_mem_nil)
  have hsame := Sched.sameQueue_chargeProcess boot.sched
  have hpick : boot.sched.settle.curptr = boot.sched.chargeProcess.pickNextProc.nextptr := by
    rw [Sched.settle, if_pos hq.between.nextptr]
    rfl
  rw [tick_sched]
  refine ⟨hf.same, fun p hp => hf.ticksleft p (List.mem_toFinset.2 hp), ?_, ?_⟩
  · rw [hpick, (hq.inv.queue.toQueueLinks.congr hsame).linked.pickNextProc_eq hmem,
      Sched.chargeProcess_nextptr, if_pos hq.between.nextptr, Sched.chargeProcess_curptr,
      hq.curptr, Sched.pickAfter, if_pos rfl]
    exact hsame.head
  · rw [Sched.settle, if_pos hq.between.nextptr]
    rfl

/-- As long as no tick lets `vtrr_is_eligible` choose a process that has no tick left,
every cycle charges every process with its share. -/
theorem proportional_share (procs : List Ptr) (boot : Kernel) (hboot : Booted procs boot)
    (hne : procs ≠ []) (s : Kernel) (hs : Dispatched procs boot.sched s.sched)
    (regs : Nat → Regs) (T : Nat) (hT : T = (procs.map (Sched.share boot.sched.schedticks)).sum)
    (k : Nat) (hok : ∀ n < (k + 1) * T, ¬ (s.ticks regs n).sched.DispatchesSpent)
    (p : Ptr) (hp : p ∈ procs) :
    Sched.charges p (s.ticks regs ((k + 1) * T)).sched.tickLog =
      Sched.charges p (s.ticks regs (k * T)).sched.tickLog +
        Sched.share boot.sched.schedticks p := by
  obtain ⟨created, hc, -⟩ := id hboot
  obtain ⟨q, hq⟩ := hboot.started
  have hlinks := hq.inv.queue.toQueueLinks
  have hfull := hboot.fullTicks
  have hperm : q.Perm procs := (List.perm_ext_iff_of_nodup hq.inv.queue.chain.nodup hc.nodup).2 hq.mem
  have hnil : q ≠ [] := by
    intro hnil
    rw [hnil] at hperm
    exact hne hperm.nil_eq.symm
  have hcycle : RoundRobin.cycle q (Sched.share boot.sched.schedticks) = T := by
    rw [hT]
    exact (hperm.map _).sum_eq
  -- the first process is visited for the first time
  obtain ⟨l, hl, -⟩ := hlinks.chain.exists_cons fun h => hnil (hlinks.head_eq_null_iff.1 h)
  have hhead : boot.sched.schedqueue.head ∈ q := hlinks.linked.head_mem hnil
  have hr : Running procs.toFinset s.sched q :=
    ⟨hq.inv.queue.congr hs.same, hs.curptr.symm ▸ hhead, hs.nextptr⟩
  have hpos : 0 < Sched.share boot.sched.schedticks boot.sched.schedqueue.head :=
    hlinks.shares.pos _ (hlinks.mem_procs _ hhead)
  have hsorted : q.Pairwise fun x y =>
      Sched.share boot.sched.schedticks y ≤ Sched.share boot.sched.schedticks x :=
    hlinks.sorted.imp fun hle => BitVec.le_def.1 hle
  have hf : Sched.Follows s.sched (Turn.start hl hlinks.chain.nodup hpos hsorted) := by
    refine ⟨hs.same.schedticks, hs.curptr, ?_⟩
    intro x hx _
    have hx' := hlinks.mem_procs x hx
    show (s.sched.ticksleft x).toNat + 0 = _
    rw [hs.ticksleft x (List.mem_toFinset.1 hx'), hfull.ticksleft x hx']
    rfl
  have hstart : (Turn.start hl hlinks.chain.nodup hpos hsorted).total = 0 := by
    refine List.sum_eq_zero_iff_forall_eq_nat.2 fun n hn => ?_
    obtain ⟨x, -, rfl⟩ := List.mem_map.1 hn
    rfl
  -- so many times `p` has been charged when a cycle ends
  have hblock : ∀ j ≤ k + 1, Sched.charges p (s.ticks regs (j * T)).sched.tickLog =
      Sched.charges p s.sched.tickLog + j * Sched.share boot.sched.schedticks p := by
    intro j hj
    obtain ⟨t, count, cycles, -, -, hcount, hcharges⟩ := hf.run hr hstart (j * T) fun i hi => by
      rw [← ticks_sched s regs]
      exact hok i (hi.trans_le (Nat.mul_le_mul_right T hj))
    rw [ticks_sched, hcharges, hcount.block (congrArg (j * ·) hcycle.symm) ((hq.mem p).2 hp)]
  rw [hblock (k + 1) le_rfl, hblock k (Nat.le_succ k), Nat.succ_mul, Nat.add_assoc]

/-- Two processes of the table. -/
def pair : List Ptr := [proctab 0, proctab 1]

/-- The shares of two processes. -/
def pairTicks (m n : Word) (p : Ptr) : Word := if p = proctab 0 then m else n

/-- Boot with two processes. -/
def bootPair (m n : Word) : Option Kernel := pair.foldlM enqueue (blank (pairTicks m n))

theorem pair_nodup : pair.Nodup := mainProcs_nodup.sublist (by simp [pair, mainProcs])

theorem booted_pair {m n : Word} {boot : Kernel} (hm : 0 < m) (hn : 0 < n)
    (hfits : m.toNat + n.toNat < 2 ^ 32) (h : bootPair m n = some boot) : Booted pair boot := by
  have hsub : pair ⊆ mainProcs := by simp [pair, mainProcs]
  have hne : proctab 1 ≠ proctab 0 := fun h => absurd (Layout.proctab_inj 1 (by decide) 0
    (by decide) h) (by decide)
  have hshares : Sched.Shares pair.toFinset (pairTicks m n) := by
    refine ⟨fun h => ?_, fun h => ?_, fun p _ => ?_, ?_⟩
    · exact mainProcs_shares.null_notMem (List.mem_toFinset.2 (hsub (List.mem_toFinset.1 h)))
    · exact mainProcs_shares.idle_notMem (List.mem_toFinset.2 (hsub (List.mem_toFinset.1 h)))
    · unfold pairTicks
      split
      · exact hm
      · exact hn
    · rw [List.sum_toFinset _ pair_nodup]
      show (pairTicks m n (proctab 0)).toNat + ((pairTicks m n (proctab 1)).toNat + 0) < 2 ^ 32
      rw [pairTicks, pairTicks, if_pos rfl, if_neg hne]
      exact hfits
  exact ⟨_, created_blank pair_nodup hshares, h⟩

omit [Layout] in
/-- With shares of nine and seven ticks, the second cycle of sixteen ticks charges the first
process nine times. -/
theorem proportional_share_pair :
    letI := Layout.sample
    ∃ boot, Booted pair boot ∧
      Sched.charges (proctab 0) ((boot.tick {}).ticks (fun _ => {}) 32).sched.tickLog =
        Sched.charges (proctab 0) ((boot.tick {}).ticks (fun _ => {}) 16).sched.tickLog + 9 := by
  let _ := Layout.sample
  have hrun : (bootPair 9 7).map (fun boot =>
      (boot.sched.schedticks (proctab 0), boot.sched.schedticks (proctab 1),
        (List.range 32).all fun n =>
          ¬ ((boot.tick {}).ticks (fun _ => {}) n).sched.DispatchesSpent)) =
      some (9, 7, true) := by decide +kernel
  obtain ⟨boot, hboot, h⟩ := Option.map_eq_some_iff.1 hrun
  simp only [Prod.mk.injEq] at h
  obtain ⟨h0, h1, hspent⟩ := h
  rw [List.all_eq_true] at hspent
  have hbooted := booted_pair (by decide) (by decide) (by decide) hboot
  have hsum : 16 = (pair.map (Sched.share boot.sched.schedticks)).sum := by
    show 16 = (boot.sched.schedticks (proctab 0)).toNat +
      ((boot.sched.schedticks (proctab 1)).toNat + 0)
    rw [h0, h1]
    rfl
  have hshare := proportional_share pair boot hbooted (List.cons_ne_nil _ _) (boot.tick {})
    (hbooted.dispatched (List.cons_ne_nil _ _) {}) (fun _ => {}) 16 hsum 1
    (fun n hn => of_decide_eq_true (hspent n (List.mem_range.2 hn))) (proctab 0)
    List.mem_cons_self
  rw [Sched.share, h0] at hshare
  exact ⟨boot, hbooted, hshare⟩

omit [Layout] in
/-- With shares of two ticks and one, the second cycle charges each process as often as the
other should be. -/
theorem proportional_share_fails :
    letI := Layout.sample
    ∃ boot, Booted pair boot ∧ boot.sched.schedticks (proctab 0) = 2 ∧
      boot.sched.schedticks (proctab 1) = 1 ∧
      Sched.charges (proctab 0) ((boot.tick {}).ticks (fun _ => {}) 6).sched.tickLog =
        Sched.charges (proctab 0) ((boot.tick {}).ticks (fun _ => {}) 3).sched.tickLog + 1 ∧
      Sched.charges (proctab 1) ((boot.tick {}).ticks (fun _ => {}) 6).sched.tickLog =
        Sched.charges (proctab 1) ((boot.tick {}).ticks (fun _ => {}) 3).sched.tickLog + 2 := by
  let _ := Layout.sample
  have hrun : (bootPair 2 1).map (fun boot =>
      (boot.sched.schedticks (proctab 0), boot.sched.schedticks (proctab 1),
        [0, 1].map fun i => [3, 6].map fun n => Sched.charges (proctab i)
          ((boot.tick {}).ticks (fun _ => {}) n).sched.tickLog)) =
      some (2, 1, [[2, 3], [1, 3]]) := by decide +kernel
  obtain ⟨boot, hboot, h⟩ := Option.map_eq_some_iff.1 hrun
  simp only [Prod.mk.injEq, List.map_cons, List.map_nil, List.cons.injEq, and_true] at h
  obtain ⟨h0, h1, ⟨h03, h06⟩, h13, h16⟩ := h
  exact ⟨boot, booted_pair (by decide) (by decide) (by decide) hboot, h0, h1, by rw [h06, h03],
    by rw [h16, h13]⟩

/-- While nobody enters or leaves the queue, timer interrupts make every process of it the
current one. -/
theorem no_starvation (procs : Finset Ptr) (s : Kernel) (q : List Ptr)
    (hq : QueueInv procs s.sched q) (hcur : s.sched.curptr ∈ q) (hnext : s.sched.nextptr = null)
    (hticks : ∀ p ∈ q, 1 ≤ s.sched.ticksleft p ∧ s.sched.ticksleft p ≤ s.sched.schedticks p)
    (regs : Nat → Regs) (p : Ptr) (hp : p ∈ q) :
    ∃ n ≤ q.length * ((s.sched.schedticks s.sched.schedqueue.head).toNat + 3), 0 < n ∧
      (s.ticks regs n).sched.curptr = p := by
  have hne : q ≠ [] := List.ne_nil_of_mem hp
  obtain ⟨tail, rfl, -⟩ := hq.chain.exists_cons fun h => hne (hq.head_eq_null_iff.1 h)
  have hhead := hticks s.sched.schedqueue.head List.mem_cons_self
  have hs : Sweeping procs s.sched.schedqueue.head tail s.sched :=
    ⟨⟨hq, hcur, hnext⟩, fun _ => BitVec.le_def.1 hhead.1⟩
  obtain ⟨n, hn, hpos, hcur'⟩ := Sched.sweeps.visits hs hp
  refine ⟨n, hn.trans ?_, hpos, ?_⟩
  · rw [List.length_cons]
    exact Nat.mul_le_mul_left _ (Nat.add_le_add_right (BitVec.le_def.1 hhead.2) 3)
  · rw [ticks_sched]
    exact hcur'

omit [Layout] in
theorem no_starvation_main :
    letI := Layout.sample
    ∃ s, mainRun [.tick] = some s ∧
      ∃ n ≤ 12, 0 < n ∧ (s.ticks (fun _ => {}) n).sched.curptr = proctab 0 := by
  let _ := Layout.sample
  have hrun : (mainRun [.tick]).map (fun s =>
      (s.sched.curptr, s.sched.nextptr, mainProcs.all fun p =>
        s.sched.isEnqueued p ∧ s.sched.ticksleft p = 1 ∧ s.sched.schedticks p = 1)) =
      some (proctab 2, null, true) := by decide +kernel
  obtain ⟨s, hs, h⟩ := Option.map_eq_some_iff.1 hrun
  simp only [Prod.mk.injEq, List.all_eq_true, decide_eq_true_eq] at h
  obtain ⟨hcur, hnext, hall⟩ := h
  obtain ⟨q, m, hinv, -⟩ := (reachable_of_mainRun hs).inv
  have hq := hinv.queue
  have hperm : q.Perm mainProcs := by
    refine (List.perm_ext_iff_of_nodup hq.chain.nodup mainProcs_nodup).2 fun p => ⟨fun hp => ?_, fun hp => ?_⟩
    · exact List.mem_toFinset.1 (hq.mem_procs p hp)
    · exact (hq.isEnqueued_iff p (List.mem_toFinset.2 hp)).1 (hall p hp).1
  have hone : ∀ p ∈ q, s.sched.ticksleft p = 1 ∧ s.sched.schedticks p = 1 := fun p hp =>
    (hall p (hperm.mem_iff.1 hp)).2
  have hcurq : s.sched.curptr ∈ q := by
    rw [hcur]
    exact hperm.mem_iff.2 (by simp [mainProcs])
  obtain ⟨n, hn, hpos, hp⟩ := no_starvation _ s q hq hcurq hnext (fun p hp => by
    rw [(hone p hp).1, (hone p hp).2]
    decide) (fun _ => {}) (proctab 0) (hperm.mem_iff.2 List.mem_cons_self)
  refine ⟨s, hs, n, ?_, hpos, hp⟩
  rw [(hone _ (hq.linked.head_mem (List.ne_nil_of_mem hcurq))).2, hperm.length_eq] at hn
  exact hn

end Kernel

end Mycrokernel
