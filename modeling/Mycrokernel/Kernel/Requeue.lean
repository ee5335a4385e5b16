import Mycrokernel.Kernel.Dequeue

/-!
# Blocking and coming back

What `dequeue` and `enqueue` do to any queue that can be seen by following the links, whatever the
counters are and whatever the processes off the queue look like.

A process that blocks hands the processor to another one that stays (`dequeue_moves_on`).
When it comes back and the queue has not changed meanwhile, its old neighbours are next to
each other, the fast path of `enqueue` recognises them, and the queue is what it was
(`requeue_same`).  The only process of a queue has no neighbours and takes the slow
path, which finds an empty queue.
-/

namespace Mycrokernel

open Function (update update_self update_of_ne)
open PointerList

namespace Sched

variable [Layout] {procs : Finset Ptr} {s s' t : Sched} {p x : Ptr} {q l₁ l₂ : List Ptr}

/-! ## Leaving -/

/-- `process->misc &= ~ENQUEUED`. -/
def clear (s : Sched) (process : Ptr) : Sched :=
  { s with misc := update s.misc process (s.misc process &&& ~~~Flag.enqueued) }

/-- `process->misc |= ENQUEUED`. -/
def mark (s : Sched) (process : Ptr) : Sched :=
  { s with misc := update s.misc process (s.misc process ||| Flag.enqueued) }

section

omit [Layout]

theorem clear_isEnqueued (s : Sched) (p x : Ptr) :
    (s.clear p).isEnqueued x = true ↔ x ≠ p ∧ s.isEnqueued x = true := by
  simp only [Sched.isEnqueued, clear]
  cases Decidable.em (x = p) with
  | inl heq =>
      rw [heq, update_self, Flag.and_not_enqueued_and]
      simp
  | inr hne => simp [hne]

@[simp] theorem mark_next (s : Sched) (p : Ptr) : (s.mark p).next = s.next := rfl

@[simp] theorem mark_previous (s : Sched) (p : Ptr) : (s.mark p).previous = s.previous := rfl

@[simp] theorem mark_schedticks (s : Sched) (p : Ptr) : (s.mark p).schedticks = s.schedticks := rfl

@[simp] theorem mark_schedqueue (s : Sched) (p : Ptr) : (s.mark p).schedqueue = s.schedqueue := rfl

theorem mark_isEnqueued_of_ne (hne : x ≠ p) : (s.mark p).isEnqueued x = s.isEnqueued x := by
  simp only [Sched.isEnqueued, mark, update_of_ne hne]

end

theorem RunQueue.linked (hq : RunQueue procs s q) (hidle : idlestate ∉ procs) : Linked s q where
  chain := hq.visits
  back := hq.predecessor
  idle_notMem hmem := hidle ((hq.enqueued _).1 hmem).1

omit [Layout] in
theorem RunQueue.isEnqueued (hq : RunQueue procs s q) (hp : p ∈ q) : s.isEnqueued p = true :=
  ((hq.enqueued p).1 hp).2

/-- With another process of positive share on the queue, `dequeue` does not take the shortcut. -/
theorem RunQueue.dequeue_eq (hq : RunQueue procs s (l₁ ++ p :: l₂)) (hx : x ∈ l₁ ++ l₂)
    (hpos : 0 < (s.schedticks x).toNat) :
    s.dequeue p =
      (if s.curptr = p then pickOther p (2 ^ 32 + 2) (s.clear p) else some (s.clear p)).map
        fun s => s.unlink p := by
  have hon := hq.isEnqueued (p := p) (by simp)
  have htotal : s.schedqueue.schedticks ≠ s.schedticks p := by
    intro heq
    have htotal := hq.total
    obtain ⟨m₁, m₂, hm⟩ := List.append_of_mem hx
    rw [heq, shareSum_insert, hm, shareSum_insert] at htotal
    omega
  rw [dequeue, hon]
  simp only [Bool.not_true, Bool.false_eq_true, if_false, if_neg htotal]
  rfl

theorem Linked.clear (hq : Linked s q) (p : Ptr) : Linked (s.clear p) q :=
  ⟨hq.chain, hq.back, hq.idle_notMem⟩

/-- In `t` the process `p` has left the queue of `s`, and its neighbours lead to each other. -/
structure Gap (s t : Sched) (p : Ptr) : Prop where
  next : t.next =
    if s.previous p = null then s.next else update s.next (s.previous p) (s.next p)
  previous : t.previous =
    if s.next p = null then s.previous else update s.previous (s.next p) (s.previous p)
  head : t.schedqueue.head =
    if s.schedqueue.head = p then s.next p else s.schedqueue.head
  schedticks : t.schedticks = s.schedticks
  misc : t.misc = update s.misc p (s.misc p &&& ~~~Flag.enqueued)
  total : t.schedqueue.schedticks = s.schedqueue.schedticks - s.schedticks p

omit [Layout] in
theorem Gap.congr (h : Gap s s' p) (hsame : SameQueue s' t) : Gap s t p where
  next := hsame.next.trans h.next
  previous := hsame.previous.trans h.previous
  head := hsame.head.trans h.head
  schedticks := hsame.schedticks.trans h.schedticks
  misc := hsame.misc.trans h.misc
  total := hsame.total.trans h.total

theorem Linked.gap (hq : Linked s (l₁ ++ p :: l₂)) (hsame : SameQueue (s.clear p) t) :
    Gap s (t.unlink p) p := by
  have hprevious : t.previous p ≠ p := by
    rw [hsame.previous]
    exact hq.previous_ne
  constructor
  case next =>
    rw [unlink_next, hsame.next, hsame.previous]
    rfl
  case previous =>
    rw [unlink_previous t hprevious, hsame.next, hsame.previous]
    rfl
  case head =>
    rw [unlink_head t hprevious, hsame.next, hsame.head]
    rfl
  case schedticks =>
    rw [unlink_schedticks, hsame.schedticks]
    rfl
  case misc =>
    rw [unlink_misc, hsame.misc]
    rfl
  case total =>
    rw [unlink_total, hsame.total, hsame.schedticks]
    rfl

/-- A process that is not alone leaves the queue. -/
theorem RunQueue.dequeue_gap (hq : RunQueue procs s (l₁ ++ p :: l₂)) (hidle : idlestate ∉ procs)
    (hx : x ∈ l₁ ++ l₂) (hpos : 0 < (s.schedticks x).toNat) :
    ∃ t, s.dequeue p = some (t.unlink p) ∧ SameQueue (s.clear p) t ∧
      (s.curptr = p → s.nextptr = null →
        t.curptr = t.nextptr ∧ t.nextptr ≠ p ∧ t.nextptr ∈ l₁ ++ l₂) := by
  have hlinked := (hq.linked hidle).clear p
  rw [hq.dequeue_eq hx hpos]
  cases Decidable.em (s.curptr = p) with
  | inl hcur =>
      have hone : l₁ ++ p :: l₂ ≠ [p] := by
        intro hone
        have hlen := congrArg List.length hone
        have hpos := List.length_pos_of_mem hx
        simp only [List.length_append, List.length_cons, List.length_nil] at hlen hpos
        omega
      obtain ⟨t, ht, hother, hmem⟩ := hlinked.pickOther_spec (p := p) (by simp) hone hcur
      rw [if_pos hcur, ht]
      refine ⟨t, rfl, hother.same, fun _ hnull => ⟨hother.curptr, hother.ne, ?_⟩⟩
      have hin := hmem hnull
      simp only [List.mem_append, List.mem_cons] at hin ⊢
      exact hin.imp_right fun h => h.resolve_left hother.ne
  | inr hcur =>
      rw [if_neg hcur]
      exact ⟨s.clear p, rfl, .rfl, fun h => absurd h hcur⟩

/-- The queue without the process that has left it. -/
theorem RunQueue.leave (hq : RunQueue procs s (l₁ ++ p :: l₂)) (hidle : idlestate ∉ procs)
    (hsame : SameQueue (s.clear p) t) : RunQueue procs (t.unlink p) (l₁ ++ l₂) := by
  have hlinked := ((hq.linked hidle).clear p).congr hsame
  have hgap := (hq.linked hidle).gap hsame
  have hnotMem : p ∉ l₁ ++ l₂ := (List.nodup_cons.1 (List.perm_middle.nodup_iff.1 hq.once)).1
  have hsub : (l₁ ++ l₂).Sublist (l₁ ++ p :: l₂) :=
    List.Sublist.append_left (List.sublist_cons_self p l₂) l₁
  constructor
  case visits => exact hlinked.unlink_chain
  case once => exact hq.once.sublist hsub
  case enqueued =>
    intro x
    have hflag : (t.unlink p).isEnqueued x = (s.clear p).isEnqueued x := by
      rw [Sched.isEnqueued, hgap.misc]
      rfl
    have hmem := hq.enqueued x
    rw [hflag, clear_isEnqueued]
    cases Decidable.em (x = p) with
    | inl heq => exact iff_of_false (heq ▸ hnotMem) fun h => h.2.1 heq
    | inr hne => simpa [hne] using hmem
  case ordered =>
    rw [hgap.schedticks]
    exact hq.ordered.sublist hsub
  case predecessor => exact hlinked.unlink_back
  case total =>
    have htotal := hq.total
    rw [shareSum_insert] at htotal
    rw [hgap.total, hgap.schedticks, BitVec.toNat_sub_of_le (by rw [BitVec.le_def]; omega)]
    omega

/-- When the current process leaves a queue with two processes of positive shares, `dequeue` ends,
whatever the counters are, and another process of the queue has the processor. -/
theorem dequeue_moves_on (procs : Finset Ptr) (s : Sched) (q : List Ptr)
    (hq : RunQueue procs s q) (hidle : idlestate ∉ procs) (a b : Ptr) (ha : a ∈ q) (hb : b ∈ q)
    (hne : a ≠ b) (hposa : 0 < (s.schedticks a).toNat) (hposb : 0 < (s.schedticks b).toNat)
    (hcur : s.curptr ∈ q) (hnext : s.nextptr = null) :
    ∃ s', s.dequeue s.curptr = some s' ∧ s'.curptr = s'.nextptr ∧ s'.curptr ≠ s.curptr ∧
      s'.curptr ∈ q.erase s.curptr ∧ RunQueue procs s' (q.erase s.curptr) := by
  obtain ⟨l₁, l₂, rfl⟩ := List.append_of_mem hcur
  have hnotMem : s.curptr ∉ l₁ :=
    fun hmem => (List.nodup_append.1 hq.once).2.2 _ hmem _ (by simp) rfl
  have herase : (l₁ ++ s.curptr :: l₂).erase s.curptr = l₁ ++ l₂ := by
    rw [List.erase_append_right _ hnotMem, List.erase_cons_head]
  obtain ⟨x, hx, hpos⟩ : ∃ x ∈ l₁ ++ l₂, 0 < (s.schedticks x).toNat := by
    rw [← herase]
    cases Decidable.em (a = s.curptr) with
    | inl heq => exact ⟨b, (List.mem_erase_of_ne (heq ▸ hne.symm)).2 hb, hposb⟩
    | inr hother => exact ⟨a, (List.mem_erase_of_ne hother).2 ha, hposa⟩
  obtain ⟨t, ht, hsame, hchoice⟩ := hq.dequeue_gap hidle hx hpos
  obtain ⟨hchosen, hother, hmem⟩ := hchoice rfl hnext
  refine ⟨t.unlink s.curptr, ht, ?_, ?_, ?_, ?_⟩
  · rw [unlink_curptr, unlink_nextptr, hchosen]
  · rw [unlink_curptr, hchosen]
    exact hother
  · rw [herase, unlink_curptr, hchosen]
    exact hmem
  · rw [herase]
    exact hq.leave hidle hsame

/-- Two processes of one share, the first of which is running with a counter at its largest. -/
def pair : Sched where
  next p := if p = proctab 0 then proctab 1 else null
  previous p := if p = proctab 1 then proctab 0 else null
  schedticks _ := 1
  ticksleft _ := 0xffffffff
  misc _ := Flag.enqueued
  schedqueue := { head := proctab 0, ticksleft := 0, schedticks := 2 }
  curptr := proctab 0
  nextptr := null
  tickLog := []

section

omit [Layout]

theorem pair_runQueue :
    letI := Layout.sample
    RunQueue {proctab 0, proctab 1} pair [proctab 0, proctab 1] :=
  letI := Layout.sample
  { visits := chain_cons.2 ⟨rfl, by decide, chain_cons.2 ⟨by decide, by decide, .nil⟩⟩
    once := by decide
    enqueued := fun p => by simp [Sched.isEnqueued, pair, Flag.enqueued]
    ordered := by decide
    predecessor := ⟨by decide, by decide, trivial⟩
    total := by decide }

/-- The second process is next. -/
theorem dequeue_moves_on_pair :
    letI := Layout.sample
    ∃ s', pair.dequeue (proctab 0) = some s' ∧ s'.curptr = s'.nextptr ∧
      s'.curptr ≠ proctab 0 ∧ s'.curptr ∈ [proctab 0, proctab 1].erase (proctab 0) ∧
      RunQueue {proctab 0, proctab 1} s' ([proctab 0, proctab 1].erase (proctab 0)) :=
  letI := Layout.sample
  dequeue_moves_on _ pair _ pair_runQueue (by decide) (proctab 0) (proctab 1) (by simp) (by simp)
    (by decide) (by decide) (by decide) (by simp [pair]) rfl

/-! ## Coming back -/

theorem Gap.previous_self (h : Gap s t p) (hne : s.next p ≠ p) : t.previous p = s.previous p := by
  rw [h.previous]
  split
  · rfl
  · exact update_of_ne hne.symm _ _

theorem Gap.next_self (h : Gap s t p) (hne : s.previous p ≠ p) : t.next p = s.next p := by
  rw [h.next]
  split
  · rfl
  · exact update_of_ne hne.symm _ _

/-- The flag of a process that has left is not set. -/
theorem Gap.isEnqueued_self (h : Gap s t p) : t.isEnqueued p = false := by
  rw [Sched.isEnqueued, h.misc, update_self, Flag.and_not_enqueued_and]

end

/-- The neighbours of a process on the queue. -/
theorem Linked.beside (hq : Linked s (l₁ ++ p :: l₂)) : Beside s p l₁ l₂ where
  previous := hq.back.prev_eq
  next := hq.chain.tail.headD_eq.symm

theorem Beside.gap (hb : Beside s p l₁ l₂) (hgap : Gap s t p) (hq : Linked s (l₁ ++ p :: l₂)) :
    Beside t p l₁ l₂ where
  previous := (hgap.previous_self (hq.next_ne (by simp))).trans hb.previous
  next := (hgap.next_self hq.previous_ne).trans hb.next

section

omit [Layout]

theorem RunQueue.place (hq : RunQueue procs s (l₁ ++ p :: l₂)) : Place s p l₁ l₂ := by
  obtain ⟨-, hbehind, hbefore⟩ := List.pairwise_append.1 hq.ordered
  exact ⟨fun x hx => hbefore x hx p (by simp), (List.pairwise_cons.1 hbehind).1⟩

/-- A process whose links lead to the neighbours of its place takes the fast path. -/
theorem RunQueue.valid (hq : RunQueue procs s (l₁ ++ l₂)) (hb : Beside s p l₁ l₂)
    (hplace : Place s p l₁ l₂) (hp : p ∉ l₁ ++ l₂) (hne : l₁ ++ l₂ ≠ []) :
    (s.mark p).lastNeighboursValid p = true := by
  have hon : ∀ x ∈ l₁ ++ l₂, (s.mark p).isEnqueued x = true := by
    intro x hx
    rw [mark_isEnqueued_of_ne (ne_of_mem_of_not_mem hx hp)]
    exact hq.isEnqueued hx
  have hnull : ∀ x ∈ l₁ ++ l₂, x ≠ null := fun x hx =>
    ne_of_mem_of_not_mem hx hq.visits.null_notMem
  have hprevious := hb.previous
  have hnext := hb.next
  unfold lastNeighboursValid previousValid nextValid processEligibleFirst processEligibleLast
  rcases List.eq_nil_or_concat l₁ with rfl | ⟨l, a, rfl⟩
  · cases l₂ with
    | nil => exact absurd rfl hne
    | cons b l₂ =>
        -- the first process: its successor is the head
        have hhead : s.schedqueue.head = b := hq.visits.headD_eq.symm
        have hback : s.previous b = null := hq.predecessor.1
        have hle := hplace.behind b (by simp)
        rw [List.getLastD_nil] at hprevious
        rw [List.headD_cons] at hnext
        simp [hprevious, hnext, hhead, hback, hle, hon b (by simp), hnull b (by simp)]
  · rw [List.concat_eq_append] at hq hon hnull hprevious
    rw [List.getLastD_concat] at hprevious
    have ha : a ∈ l ++ [a] ++ l₂ := by simp
    have hle := hplace.before a (by simp)
    have hchain := hq.visits
    rw [List.append_assoc, List.singleton_append] at hchain
    have hsame : s.next a = s.next p := by rw [hnext, hchain.tail.headD_eq]
    cases l₂ with
    | nil =>
        rw [List.headD_nil] at hnext
        simp [hprevious, hnext, hsame, hle, hon a ha, hnull a ha]
    | cons b l₂ =>
        have hb : b ∈ l ++ [a] ++ b :: l₂ := by simp
        have hback : s.previous b = a := by
          rw [hq.predecessor.prev_eq, List.getLastD_concat]
        have hle' := hplace.behind b (by simp)
        rw [List.headD_cons] at hnext
        simp [hprevious, hnext, hsame, hback, hle, hle', hon a ha, hon b hb, hnull a ha, hnull b hb]

/-- Clearing a flag that is set and setting it again. -/
theorem enqueued_again {m : BitVec 8} (hon : (m &&& Flag.enqueued != 0) = true) :
    m &&& ~~~Flag.enqueued ||| Flag.enqueued = m := by
  revert m
  decide +kernel

end

theorem Linked.next_previous (hq : Linked s (l₁ ++ p :: l₂)) (hne : s.previous p ≠ null) :
    s.next (s.previous p) = p := by
  rw [hq.back.prev_eq] at hne ⊢
  rcases List.eq_nil_or_concat l₁ with rfl | ⟨l, a, rfl⟩
  · exact absurd rfl hne
  · have hchain := hq.chain
    rw [List.concat_eq_append, List.append_assoc, List.singleton_append] at hchain
    rw [List.concat_eq_append, List.getLastD_concat]
    exact hchain.tail.headD_eq.symm

theorem Linked.previous_next (hq : Linked s (l₁ ++ p :: l₂)) (hne : s.next p ≠ null) :
    s.previous (s.next p) = p := by
  have hnext := hq.chain.tail.headD_eq
  cases l₂ with
  | nil => exact absurd hnext.symm hne
  | cons b l₂ =>
      have hback := hq.back
      rw [List.append_cons] at hback
      rw [← hnext, List.headD_cons, hback.prev_eq, List.getLastD_concat]

theorem Linked.head_eq_iff (hq : Linked s (l₁ ++ p :: l₂)) :
    s.schedqueue.head = p ↔ s.previous p = null := by
  rw [hq.back.prev_eq]
  cases l₁ with
  | nil => exact iff_of_true (chain_cons.1 hq.chain).1 rfl
  | cons a l =>
      have hnd := hq.chain.nodup
      have hne : a ≠ p := fun heq => (List.nodup_cons.1 hnd).1 (by simp [heq])
      have hlast : (a :: l).getLastD null ≠ null := by
        rw [List.getLastD_cons]
        exact hq.ne_null (List.mem_append_left _ List.getLastD_mem_cons)
      rw [(chain_cons.1 hq.chain).1]
      exact iff_of_false hne hlast

omit [Layout] in
theorem RunQueue.congr (hq : RunQueue procs s q) (hsame : SameQueue s t) : RunQueue procs t q where
  visits := by
    rw [hsame.next, hsame.head]
    exact hq.visits
  once := hq.once
  enqueued x := by
    rw [hsame.isEnqueued]
    exact hq.enqueued x
  ordered := hsame.schedticks ▸ hq.ordered
  predecessor := hsame.previous ▸ hq.predecessor
  total := by
    rw [hsame.total, hsame.schedticks]
    exact hq.total

/-- The fast path closes the gap. -/
theorem Gap.relink (hgap : Gap s t p) (hq : Linked s (l₁ ++ p :: l₂))
    (hon : s.isEnqueued p = true) :
    SameQueue s (((t.mark p).relink p).catchUp p) := by
  have hprevious := hgap.previous_self (hq.next_ne (by simp))
  have hnext := hgap.next_self hq.previous_ne
  have hself : (t.mark p).previous p ≠ p := fun heq => hq.previous_ne (hprevious.symm.trans heq)
  have hticks := sameTicks_relink (t.mark p) p
  constructor
  case next =>
    rw [catchUp_next, relink_next]
    rw [mark_previous, mark_next, hprevious, hgap.next]
    split
    next => rfl
    next hne =>
      rw [Function.update_idem]
      exact (Function.eq_update_self_iff.2 (hq.next_previous hne)).symm
  case previous =>
    rw [catchUp_previous, relink_previous _ hself]
    rw [mark_previous, mark_next, hnext, hgap.previous]
    split
    next => rfl
    next hne =>
      rw [Function.update_idem]
      exact (Function.eq_update_self_iff.2 (hq.previous_next hne)).symm
  case schedticks =>
    rw [catchUp_schedticks, hticks.schedticks]
    exact hgap.schedticks
  case misc =>
    rw [catchUp_misc, hticks.misc, mark]
    dsimp only
    rw [hgap.misc, update_self, Function.update_idem, enqueued_again hon, Function.update_eq_self]
  case head =>
    rw [catchUp_head, relink_head]
    rw [mark_previous, mark_schedqueue, hprevious, hgap.head]
    simp only [hq.head_eq_iff]
    split
    next hnull => exact (hq.head_eq_iff.2 hnull).symm
    next => rfl
  case total =>
    rw [catchUp_total, hticks.schedticks, hticks.queueSchedticks, mark_schedqueue, mark_schedticks]
    rw [hgap.total, hgap.schedticks, BitVec.sub_add_cancel]

omit [Layout] in
/-- On an empty queue the slow path does the same. -/
theorem insert_empty (hhead : s.schedqueue.head = null) (hprevious : s.previous p = null)
    (hnext : s.next p = null) : s.insert p = some (s.relink p) := by
  have hprevious' : update s.previous p null = s.previous :=
    (Function.eq_update_self_iff.2 hprevious).symm
  have hnext' : update s.next p null = s.next := (Function.eq_update_self_iff.2 hnext).symm
  have hwalk : walk s.next (s.placeFound p) walkFuel null null = some (null, null) :=
    walk_eq (l := []) rfl (by simp) (by simp [placeFound]) (by decide)
  unfold insert relink
  dsimp only
  rw [hprevious', hnext', hhead]
  change Option.map _ (walk s.next (s.placeFound p) walkFuel null null) = _
  rw [hwalk]
  simp [hprevious, hnext, hprevious', hnext']

omit [Layout] in
/-- A process that is next to its place is linked in there. -/
theorem RunQueue.enqueue_beside (hq : RunQueue procs s (l₁ ++ l₂)) (hb : Beside s p l₁ l₂)
    (hplace : Place s p l₁ l₂) (hp : p ∉ l₁ ++ l₂) (hoff : s.isEnqueued p = false) :
    s.enqueue p = some (((s.mark p).relink p).catchUp p) := by
  have hpath : (if (s.mark p).lastNeighboursValid p then some ((s.mark p).relink p)
      else (s.mark p).insert p) = some ((s.mark p).relink p) := by
    cases Decidable.em (l₁ ++ l₂ = []) with
    | inl hempty =>
        obtain ⟨rfl, rfl⟩ := List.append_eq_nil_iff.1 hempty
        have hinsert : (s.mark p).insert p = some ((s.mark p).relink p) :=
          insert_empty hq.visits.seg hb.previous hb.next
        rw [hinsert, ite_self]
    | inr hne => rw [if_pos (hq.valid hb hplace hp hne)]
  rw [enqueue, hoff]
  simp only [Bool.false_eq_true, if_false]
  exact congrArg (Option.map fun s => s.catchUp p) hpath

/-- `dequeue` of a process of a queue leaves a gap. -/
theorem RunQueue.dequeue_leaves (hq : RunQueue procs s (l₁ ++ p :: l₂)) (hidle : idlestate ∉ procs)
    (hpos : ∀ x ∈ l₁ ++ p :: l₂, 0 < (s.schedticks x).toNat) :
    ∃ s', s.dequeue p = some s' ∧ Gap s s' p ∧ RunQueue procs s' (l₁ ++ l₂) := by
  cases Decidable.em (l₁ ++ l₂ = []) with
  | inr hne =>
      obtain ⟨x, hx⟩ := List.exists_mem_of_ne_nil _ hne
      have hmem : x ∈ l₁ ++ p :: l₂ := by
        simp only [List.mem_append, List.mem_cons] at hx ⊢
        exact hx.imp_right .inr
      obtain ⟨t, ht, hsame, -⟩ := hq.dequeue_gap hidle hx (hpos x hmem)
      exact ⟨_, ht, (hq.linked hidle).gap hsame, hq.leave hidle hsame⟩
  | inl hempty =>
      obtain ⟨rfl, rfl⟩ := List.append_eq_nil_iff.1 hempty
      have hon := hq.isEnqueued (p := p) (by simp)
      have htotal : s.schedqueue.schedticks = s.schedticks p :=
        BitVec.eq_of_toNat_eq (by simpa using hq.total)
      have hprevious : s.previous p = null := hq.predecessor.1
      have hhead : s.schedqueue.head = p := (chain_cons.1 hq.visits).1
      have hnext : s.next p = null := (chain_cons.1 hq.visits).2.2.seg
      refine ⟨{ s.clear p with schedqueue := { head := null, ticksleft := 0, schedticks := 0 } },
        ?_, ?_, ?_⟩
      · simp [dequeue, hon, htotal, clear]
      · exact ⟨by rw [if_pos hprevious]; rfl, by rw [if_pos hnext]; rfl,
          by rw [if_pos hhead, hnext], rfl, rfl, by rw [htotal, BitVec.sub_self]; rfl⟩
      · refine ⟨.nil, List.nodup_nil, fun x => ?_, .nil, trivial, rfl⟩
        change x ∈ [] ↔ x ∈ procs ∧ (s.clear p).isEnqueued x = true
        have hsole := hq.enqueued x
        rw [clear_isEnqueued]
        rw [List.nil_append, List.mem_singleton] at hsole
        simp only [List.not_mem_nil, false_iff]
        exact fun h => h.2.1 (hsole.2 ⟨h.1, h.2.2⟩)

/-- When a process has left a queue of positive shares and comes back before the queue has changed,
the queue is what it was: the same processes in the same order, with the same links. -/
theorem requeue_same (procs : Finset Ptr) (s : Sched) (q : List Ptr) (hq : RunQueue procs s q)
    (hidle : idlestate ∉ procs) (hpos : ∀ x ∈ q, 0 < (s.schedticks x).toNat) (p : Ptr)
    (hp : p ∈ q) :
    ∃ s', s.dequeue p = some s' ∧ ∀ t, SameQueue s' t →
      ∃ t', t.enqueue p = some t' ∧ SameQueue s t' ∧ RunQueue procs t' q := by
  obtain ⟨l₁, l₂, rfl⟩ := List.append_of_mem hp
  obtain ⟨s', hs', hgap, hqueue⟩ := hq.dequeue_leaves hidle hpos
  refine ⟨s', hs', fun t hsame => ?_⟩
  have hlinked := hq.linked hidle
  have hgap := hgap.congr hsame
  have hnotMem : p ∉ l₁ ++ l₂ := (List.nodup_cons.1 (List.perm_middle.nodup_iff.1 hq.once)).1
  have hplace : Place t p l₁ l₂ :=
    ⟨fun x hx => hgap.schedticks ▸ hq.place.before x hx,
      fun x hx => hgap.schedticks ▸ hq.place.behind x hx⟩
  have hback : SameQueue s (((t.mark p).relink p).catchUp p) :=
    hgap.relink hlinked (hq.isEnqueued hp)
  exact ⟨_, (hqueue.congr hsame).enqueue_beside (hlinked.beside.gap hgap hlinked) hplace hnotMem
    hgap.isEnqueued_self, hback, hq.congr hback⟩

omit [Layout] in
/-- The first process leaves and comes back, in front of one with the same share. -/
theorem requeue_same_pair :
    letI := Layout.sample
    ∃ s', pair.dequeue (proctab 0) = some s' ∧ ∀ t, SameQueue s' t →
      ∃ t', t.enqueue (proctab 0) = some t' ∧ SameQueue pair t' ∧
        RunQueue {proctab 0, proctab 1} t' [proctab 0, proctab 1] :=
  letI := Layout.sample
  requeue_same _ pair _ pair_runQueue (by decide) (fun _ _ => Nat.one_pos) (proctab 0) (by simp)

end Sched

end Mycrokernel
