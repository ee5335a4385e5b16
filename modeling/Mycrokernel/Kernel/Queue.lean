import Mathlib.Algebra.BigOperators.Group.Finset.Basic
import Mathlib.Algebra.Order.BigOperators.Group.Finset
import Mycrokernel.Kernel.Scheduler

/-!
# The run queue as a list

`QueueInv procs s q` says that the scheduler variables `s` represent the list
`q` of runnable processes, out of the created processes `procs`.  `enqueue` and
`dequeue` refine inserting into this list and taking out of it
(`enqueue_spec`, `dequeue_spec`), and `charge_process` and `pick_next_proc` do
not touch it (`SameQueue`).

A process off the queue keeps the links it left with.  All the fast path of
`enqueue` may rely on is what it tests, so the invariant says nothing about
where these links lead, only that they lead to processes and not back to the
process itself.
-/

namespace Mycrokernel

open Function (update update_self update_of_ne)
open PointerList

/-- Every chain of processes ends within the fuel of the loops. -/
theorem length_lt_walkFuel {next : Ptr → Ptr} {p : Ptr} {l : List Ptr}
    (hc : Chain next null p l) : l.length < walkFuel :=
  hc.length_lt BitVec.toFin fun _ _ h => BitVec.eq_of_toFin_eq h

namespace Sched

variable [Layout] {procs : Finset Ptr} {s s' t : Sched} {p x : Ptr} {q l₁ l₂ : List Ptr}

/-! ## The invariant -/

/-- Shares the queue arithmetic can hold: positive, and with a sum of 32 bits. -/
structure Shares (procs : Finset Ptr) (schedticks : Ptr → Word) : Prop where
  null_notMem : null ∉ procs
  idle_notMem : idlestate ∉ procs
  pos : ∀ p ∈ procs, 0 < (schedticks p).toNat
  fits : ∑ p ∈ procs, (schedticks p).toNat < 2 ^ 32

/-- The sum of the shares of a list of processes. -/
def shareSum (schedticks : Ptr → Word) (q : List Ptr) : Nat :=
  (q.map fun p => (schedticks p).toNat).sum

section

omit [Layout]

@[simp] theorem shareSum_nil (schedticks : Ptr → Word) : shareSum schedticks [] = 0 := rfl

@[simp] theorem shareSum_cons (schedticks : Ptr → Word) (p : Ptr) (q : List Ptr) :
    shareSum schedticks (p :: q) = (schedticks p).toNat + shareSum schedticks q := rfl

theorem shareSum_insert (schedticks : Ptr → Word) :
    shareSum schedticks (l₁ ++ p :: l₂) =
      shareSum schedticks (l₁ ++ l₂) + (schedticks p).toNat := by
  simp only [shareSum, List.map_append, List.map_cons, List.sum_append, List.sum_cons]
  omega

end

/-- A link of the process `p` leads to another process or nowhere. -/
def LinkOk (procs : Finset Ptr) (p link : Ptr) : Prop :=
  link ≠ p ∧ (link = null ∨ link ∈ procs)

/-- The links and the total of the shares represent the queue `q`. -/
structure QueueLinks (procs : Finset Ptr) (s : Sched) (q : List Ptr) : Prop where
  shares : Shares procs s.schedticks
  /-- Following `next` from the head visits `q` and ends at `NULL`. -/
  chain : Chain s.next null s.schedqueue.head q
  /-- Every `previous` leads to the predecessor, `NULL` for the head. -/
  back : Back s.previous null q
  mem_procs : ∀ p ∈ q, p ∈ procs
  sorted : q.Pairwise fun a b => s.schedticks b ≤ s.schedticks a
  total : s.schedqueue.schedticks.toNat = shareSum s.schedticks q
  next_ok : ∀ p ∈ procs, LinkOk procs p (s.next p)
  previous_ok : ∀ p ∈ procs, LinkOk procs p (s.previous p)

/-- The scheduler variables represent the queue `q`. -/
structure QueueInv (procs : Finset Ptr) (s : Sched) (q : List Ptr) : Prop
    extends QueueLinks procs s q where
  isEnqueued_iff : ∀ p ∈ procs, s.isEnqueued p = true ↔ p ∈ q

theorem QueueLinks.ne_null (hq : QueueLinks procs s q) (hp : p ∈ procs) : p ≠ null :=
  ne_of_mem_of_not_mem hp hq.shares.null_notMem

theorem QueueLinks.ne_idle (hq : QueueLinks procs s q) (hp : p ∈ procs) : p ≠ idlestate :=
  ne_of_mem_of_not_mem hp hq.shares.idle_notMem

theorem QueueLinks.head_eq_null_iff (hq : QueueLinks procs s q) : s.schedqueue.head = null ↔ q = [] :=
  hq.chain.eq_nil_iff.symm

/-- The two states agree on everything the queue consists of. -/
structure SameQueue (s s' : Sched) : Prop where
  next : s'.next = s.next
  previous : s'.previous = s.previous
  schedticks : s'.schedticks = s.schedticks
  misc : s'.misc = s.misc
  head : s'.schedqueue.head = s.schedqueue.head
  total : s'.schedqueue.schedticks = s.schedqueue.schedticks

section

omit [Layout]

theorem SameQueue.rfl : SameQueue s s := ⟨.refl _, .refl _, .refl _, .refl _, .refl _, .refl _⟩

theorem SameQueue.trans (h : SameQueue s s') (h' : SameQueue s' t) : SameQueue s t :=
  ⟨h'.next.trans h.next, h'.previous.trans h.previous, h'.schedticks.trans h.schedticks,
    h'.misc.trans h.misc, h'.head.trans h.head, h'.total.trans h.total⟩

theorem SameQueue.isEnqueued (h : SameQueue s s') : s'.isEnqueued p = s.isEnqueued p := by
  simp only [Sched.isEnqueued, h.misc]

end

theorem QueueLinks.congr (hq : QueueLinks procs s q) (h : SameQueue s s') :
    QueueLinks procs s' q where
  shares := h.schedticks ▸ hq.shares
  chain := by rw [h.next, h.head]; exact hq.chain
  back := h.previous ▸ hq.back
  mem_procs := hq.mem_procs
  sorted := h.schedticks ▸ hq.sorted
  total := by rw [h.total, h.schedticks]; exact hq.total
  next_ok := h.next ▸ hq.next_ok
  previous_ok := h.previous ▸ hq.previous_ok

theorem QueueInv.congr (hq : QueueInv procs s q) (h : SameQueue s s') : QueueInv procs s' q where
  toQueueLinks := hq.toQueueLinks.congr h
  isEnqueued_iff p hp := by rw [h.isEnqueued, hq.isEnqueued_iff p hp]

/-- The links do not depend on the flags. -/
theorem QueueLinks.withMisc (hq : QueueLinks procs s q) (m : Ptr → BitVec 8) :
    QueueLinks procs { s with misc := m } q :=
  ⟨hq.shares, hq.chain, hq.back, hq.mem_procs, hq.sorted, hq.total, hq.next_ok, hq.previous_ok⟩

/-! ## What leaves the queue alone -/

theorem sameQueue_chargeProcess (s : Sched) : SameQueue s s.chargeProcess := by
  unfold chargeProcess
  split
  · exact .rfl
  · exact ⟨rfl, rfl, rfl, rfl, rfl, rfl⟩

section

omit [Layout]

theorem sameQueue_pick (s : Sched) (p : Ptr) : SameQueue s (s.pick p) :=
  ⟨rfl, rfl, rfl, rfl, rfl, rfl⟩

theorem sameQueue_pickFresh (s : Sched) (p : Ptr) : SameQueue s (s.pickFresh p) :=
  ⟨rfl, rfl, rfl, rfl, rfl, rfl⟩

theorem sameQueue_pickHead (s : Sched) : SameQueue s s.pickHead := by
  unfold pickHead
  split
  · exact sameQueue_pickFresh ..
  · exact sameQueue_pick ..

end

theorem sameQueue_pickAfter (s : Sched) (last : Ptr) : SameQueue s (s.pickAfter last) := by
  unfold pickAfter
  split_ifs
  · exact sameQueue_pick ..
  · exact sameQueue_pick ..
  · exact sameQueue_pickHead ..
  · exact sameQueue_pickFresh ..
  · exact sameQueue_pick ..
  · exact sameQueue_pickHead ..

theorem sameQueue_pickNextProc (s : Sched) : SameQueue s s.pickNextProc := by
  unfold pickNextProc
  split
  · exact sameQueue_pick ..
  · exact sameQueue_pickAfter ..

omit [Layout] in
theorem sameQueue_schedule (s : Sched) : SameQueue s s.schedule :=
  ⟨rfl, rfl, rfl, rfl, rfl, rfl⟩

/-! ## Sums of shares -/

theorem Shares.sum_lt (hs : Shares procs s.schedticks) (hnd : q.Nodup) (hq : ∀ p ∈ q, p ∈ procs) :
    shareSum s.schedticks q < 2 ^ 32 := by
  have hsub : q.toFinset ⊆ procs := fun p hp => hq p (List.mem_toFinset.1 hp)
  have hle := Finset.sum_le_sum_of_subset (f := fun p => (s.schedticks p).toNat) hsub
  rw [List.sum_toFinset _ hnd] at hle
  exact lt_of_le_of_lt hle hs.fits

/-! ## Entering the queue -/

/-- The place of `p` in the queue `l₁ ++ l₂`: behind `l₁` and in front of `l₂`. -/
structure Place (s : Sched) (p : Ptr) (l₁ l₂ : List Ptr) : Prop where
  before : ∀ x ∈ l₁, s.schedticks p ≤ s.schedticks x
  behind : ∀ x ∈ l₂, s.schedticks x ≤ s.schedticks p

/-- The links of `p` lead to the neighbours of its place. -/
structure Beside (s : Sched) (p : Ptr) (l₁ l₂ : List Ptr) : Prop where
  previous : s.previous p = l₁.getLastD null
  next : s.next p = l₂.headD null

/-- The two states differ in the links of the queue only. -/
structure SameTicks (s s' : Sched) : Prop where
  schedticks : s'.schedticks = s.schedticks
  ticksleft : s'.ticksleft = s.ticksleft
  misc : s'.misc = s.misc
  queueTicksleft : s'.schedqueue.ticksleft = s.schedqueue.ticksleft
  queueSchedticks : s'.schedqueue.schedticks = s.schedqueue.schedticks
  curptr : s'.curptr = s.curptr
  nextptr : s'.nextptr = s.nextptr
  tickLog : s'.tickLog = s.tickLog

section

omit [Layout]

theorem SameTicks.trans (h : SameTicks s s') (h' : SameTicks s' t) : SameTicks s t :=
  ⟨h'.schedticks.trans h.schedticks, h'.ticksleft.trans h.ticksleft, h'.misc.trans h.misc,
    h'.queueTicksleft.trans h.queueTicksleft, h'.queueSchedticks.trans h.queueSchedticks,
    h'.curptr.trans h.curptr, h'.nextptr.trans h.nextptr, h'.tickLog.trans h.tickLog⟩

theorem relink_next (s : Sched) (p : Ptr) :
    (s.relink p).next =
      if s.previous p = null then s.next else update s.next (s.previous p) p := by
  unfold relink
  by_cases hprev : s.previous p = null <;> simp only [hprev] <;> split_ifs <;> simp_all

theorem relink_head (s : Sched) (p : Ptr) :
    (s.relink p).schedqueue.head = if s.previous p = null then p else s.schedqueue.head := by
  unfold relink
  by_cases hprev : s.previous p = null <;> simp only [hprev] <;> split_ifs <;> simp_all

theorem relink_previous (s : Sched) (hself : s.previous p ≠ p) :
    (s.relink p).previous =
      if s.next p = null then s.previous else update s.previous (s.next p) p := by
  unfold relink
  by_cases hprev : s.previous p = null
  · simp only [hprev]
    split_ifs <;> simp_all
  · have hn : update s.next (s.previous p) p p = s.next p := update_of_ne (Ne.symm hself) _ _
    simp only [hprev, ne_eq, not_false_eq_true, if_true, hn]
    split_ifs <;> simp_all

theorem sameTicks_relink (s : Sched) (p : Ptr) : SameTicks s (s.relink p) := by
  unfold relink
  constructor <;> dsimp only <;> split_ifs <;> rfl

/-- Writing the links of the neighbours puts `p` in its place. -/
theorem Beside.chain (hb : Beside s p l₁ l₂)
    (hc : Chain s.next null s.schedqueue.head (l₁ ++ l₂)) (hp : p ≠ null) (hpl : p ∉ l₁ ++ l₂) :
    Chain (s.relink p).next null (s.relink p).schedqueue.head (l₁ ++ p :: l₂) := by
  rw [relink_next, relink_head, hb.previous]
  rcases List.eq_nil_or_concat l₁ with rfl | ⟨l, a, rfl⟩
  · rw [List.getLastD_nil, if_pos rfl, if_pos rfl]
    refine chain_cons.2 ⟨rfl, hp, ?_⟩
    rw [hb.next, Chain.headD_eq (l := l₂) hc]
    exact hc
  · have ha : a ≠ null := by
      rintro rfl
      exact hc.null_notMem (by simp)
    simp only [List.concat_eq_append, List.getLastD_concat, if_neg ha, List.append_assoc,
      List.singleton_append] at hc hpl ⊢
    have hnext : s.next a = s.next p := by rw [hb.next, hc.tail.headD_eq]
    have hins := hc.insert_after hp hpl
    rwa [hnext, Function.update_eq_self] at hins

theorem Beside.back (hb : Beside s p l₁ l₂) (hc : Chain s.next null s.schedqueue.head (l₁ ++ l₂))
    (hback : Back s.previous null (l₁ ++ l₂)) (hself : s.previous p ≠ p) (hpl : p ∉ l₁ ++ l₂) :
    Back (s.relink p).previous null (l₁ ++ p :: l₂) := by
  rw [relink_previous s hself, hb.next]
  cases l₂ with
  | nil =>
    rw [List.append_nil] at hback
    rw [List.headD_nil, if_pos rfl]
    exact back_append.2 ⟨hback, hb.previous, trivial⟩
  | cons x l₂ =>
    have hx : x ≠ null := by
      rintro rfl
      exact hc.null_notMem (by simp)
    have hnd := hc.nodup
    simp only [List.nodup_append, List.nodup_cons, List.mem_cons] at hnd
    obtain ⟨-, ⟨hx₂, -⟩, hx₁⟩ := hnd
    rw [List.headD_cons, if_neg hx]
    exact hback.insert_before hpl hb.previous (fun hx => hx₁ x hx x (Or.inl rfl) rfl) hx₂

end

/-- The fast path of `enqueue` is taken only when the links of the process lead to the
neighbours of a place for it. -/
theorem place_of_valid (hq : QueueInv procs s q) (hp : p ∈ procs) (hpq : p ∉ q)
    (hv : lastNeighboursValid
      { s with misc := update s.misc p (s.misc p ||| Flag.enqueued) } p = true) :
    ∃ l₁ l₂, q = l₁ ++ l₂ ∧ Beside s p l₁ l₂ ∧ Place s p l₁ l₂ := by
  -- setting the flag of `p` does not change what the tests see of its neighbours
  have henq : ∀ x, LinkOk procs p x → x ≠ null →
      isEnqueued { s with misc := update s.misc p (s.misc p ||| Flag.enqueued) } x = true →
      x ∈ q := by
    rintro x ⟨hxp, hx⟩ hxn hxe
    refine (hq.isEnqueued_iff x (hx.resolve_left hxn)).1 ?_
    simpa only [isEnqueued, update_of_ne hxp] using hxe
  have hnext := hq.next_ok p hp
  simp only [lastNeighboursValid, previousValid, nextValid, processEligibleFirst] at hv
  by_cases hprev : s.previous p = null
  · by_cases hnull : s.next p = null
    · simp [hprev, hnull] at hv
    · simp only [hprev, hnull, and_false, if_false, if_true] at hv
      have hbq : s.next p ∈ q := henq _ hnext hnull (by
        by_contra hne
        simp [hne] at hv)
      obtain ⟨l₁, l₂, rfl⟩ := List.append_of_mem hbq
      have hbp : s.previous (s.next p) = null := by
        by_contra hne
        simp [hne] at hv
      have hle : s.schedticks (s.next p) ≤ s.schedticks p := by
        by_contra hne
        simp [hne] at hv
      have hl₁ : l₁ = [] := by
        rw [hq.back.prev_eq] at hbp
        rcases List.eq_nil_or_concat l₁ with rfl | ⟨l, a, rfl⟩
        · rfl
        · simp only [List.concat_eq_append, List.getLastD_concat] at hbp
          exact absurd (hq.mem_procs a (by simp)) (hbp ▸ hq.shares.null_notMem)
      subst hl₁
      refine ⟨[], s.next p :: l₂, rfl, ⟨hprev, rfl⟩, by simp, ?_⟩
      intro x hx
      rcases List.mem_cons.1 hx with rfl | hx
      · exact hle
      · exact BitVec.le_trans ((List.pairwise_cons.1 hq.sorted).1 x hx) hle
  · simp only [hprev, false_and, if_false] at hv
    have haq : s.previous p ∈ q := henq _ (hq.previous_ok p hp) hprev (by
      by_contra hne
      simp [hne] at hv)
    have hnn : s.next (s.previous p) = s.next p := by
      by_contra hne
      simp [hne] at hv
    have hle : s.schedticks p ≤ s.schedticks (s.previous p) := by
      by_contra hne
      simp [hne] at hv
    obtain ⟨l₁, l₂, hsplit⟩ := List.append_of_mem haq
    have hsort := hq.sorted
    have hchain := hq.chain
    rw [hsplit] at hsort hchain
    obtain ⟨-, hsort₂, hsort₁⟩ := List.pairwise_append.1 hsort
    have hhead : l₂.headD null = s.next p := by rw [hchain.tail.headD_eq, hnn]
    refine ⟨l₁ ++ [s.previous p], l₂, by simp [hsplit], ⟨by simp, hhead.symm⟩, ?_, ?_⟩
    · intro x hx
      rcases List.mem_append.1 hx with hx | hx
      · exact BitVec.le_trans hle (hsort₁ x hx _ (by simp))
      · rw [List.mem_singleton.1 hx]
        exact hle
    · cases l₂ with
      | nil => simp
      | cons b l₂ =>
        obtain rfl : b = s.next p := hhead
        have hbn : s.next p ≠ null := fun h => hchain.null_notMem (by simp [h])
        have hbe : s.schedticks (s.next p) ≤ s.schedticks p := by
          by_contra hne
          simp [hne, hbn] at hv
        intro x hx
        rcases List.mem_cons.1 hx with rfl | hx
        · exact hbe
        · have hsort₂ := (List.pairwise_cons.1 hsort₂).2
          exact BitVec.le_trans ((List.pairwise_cons.1 hsort₂).1 x hx) hbe

/-- The two states differ in the links of `p` only. -/
structure SameLinksOff (p : Ptr) (s s' : Sched) : Prop where
  next : ∀ x, x ≠ p → s'.next x = s.next x
  previous : ∀ x, x ≠ p → s'.previous x = s.previous x
  head : s'.schedqueue.head = s.schedqueue.head

/-- The slow path of `enqueue` walks to a place for the process, points the process at it
and goes on like the fast path. -/
theorem insert_spec (hq : QueueInv procs s q) (hp : p ∈ procs) (hpq : p ∉ q)
    (m : Ptr → BitVec 8) :
    ∃ t l₁ l₂, insert { s with misc := m } p = some (t.relink p) ∧ q = l₁ ++ l₂ ∧
      Beside t p l₁ l₂ ∧ Place s p l₁ l₂ ∧ SameTicks { s with misc := m } t ∧
      SameLinksOff p s t := by
  obtain ⟨l₁, l₂, rfl, hl₁, hl₂⟩ := exists_split (s.placeFound p) q
  obtain ⟨c, hs₁, hs₂⟩ := seg_append.1 hq.chain.seg
  have hc : c = l₂.headD null := by
    have hc₂ : Chain s.next null c l₂ :=
      ⟨hs₂, fun hn => hq.chain.null_notMem (List.mem_append_right _ hn)⟩
    exact hc₂.headD_eq.symm
  have hstop : s.placeFound p c = true := by
    cases l₂ with
    | nil => simp [hc, placeFound]
    | cons x l₂ => exact hl₂ c (by rw [hc]; rfl)
  have hlen : l₁.length < walkFuel := by
    have hlt := length_lt_walkFuel hq.chain
    rw [List.length_append] at hlt
    exact lt_of_le_of_lt (Nat.le_add_right _ _) hlt
  have hpl₁ : p ∉ l₁ := fun h => hpq (List.mem_append_left _ h)
  have hwalk := walk_eq (b := null) (hs₁.update (v := null) hpl₁) hl₁ hstop hlen
  refine ⟨{ s with
      misc := m
      previous := update s.previous p (l₁.getLastD null)
      next := update s.next p c }, l₁, l₂, ?_, rfl, ⟨by simp, by simp [hc]⟩, ⟨?_, ?_⟩,
    ⟨rfl, rfl, rfl, rfl, rfl, rfl, rfl, rfl⟩, ?_, ?_, rfl⟩
  · have hap : l₁.getLastD null ≠ p := by
      rcases List.eq_nil_or_concat l₁ with rfl | ⟨l, a, rfl⟩
      · exact Ne.symm (hq.ne_null hp)
      · rintro rfl
        simp at hpl₁
    unfold insert
    change Option.map _
      (walk (update s.next p null) (s.placeFound p) walkFuel null s.schedqueue.head) = _
    rw [hwalk, Option.map_some]
    generalize l₁.getLastD null = a at hap
    by_cases ha : a = null <;> by_cases hcn : c = null <;>
      simp [relink, ha, hcn, Function.update_idem, update_of_ne (Ne.symm hap)]
  · intro x hx
    have hns := hl₁ x hx
    simp only [placeFound, Bool.not_eq_false', decide_eq_true_eq] at hns
    exact BitVec.le_of_lt hns.2
  · cases l₂ with
    | nil => simp
    | cons y l₂ =>
      have hy := hl₂ y rfl
      have hyn : y ≠ null := fun h => hq.chain.null_notMem (by simp [h])
      simp only [placeFound, Bool.not_eq_true', decide_eq_false_iff_not, not_and, hyn, ne_eq,
        not_false_eq_true, forall_const, BitVec.not_lt] at hy
      intro x hx
      rcases List.mem_cons.1 hx with rfl | hx
      · exact hy
      · have hsort := (List.pairwise_append.1 hq.sorted).2.1
        exact BitVec.le_trans ((List.pairwise_cons.1 hsort).1 x hx) hy
  · intro x hx
    exact update_of_ne hx _ _
  · intro x hx
    exact update_of_ne hx _ _

section

omit [Layout]

@[simp] theorem catchUp_next (s : Sched) (p : Ptr) : (s.catchUp p).next = s.next := by
  unfold catchUp
  dsimp only
  split <;> rfl

@[simp] theorem catchUp_previous (s : Sched) (p : Ptr) : (s.catchUp p).previous = s.previous := by
  unfold catchUp
  dsimp only
  split <;> rfl

@[simp] theorem catchUp_schedticks (s : Sched) (p : Ptr) :
    (s.catchUp p).schedticks = s.schedticks := by
  unfold catchUp
  dsimp only
  split <;> rfl

@[simp] theorem catchUp_misc (s : Sched) (p : Ptr) : (s.catchUp p).misc = s.misc := by
  unfold catchUp
  dsimp only
  split <;> rfl

@[simp] theorem catchUp_curptr (s : Sched) (p : Ptr) : (s.catchUp p).curptr = s.curptr := by
  unfold catchUp
  dsimp only
  split <;> rfl

@[simp] theorem catchUp_nextptr (s : Sched) (p : Ptr) : (s.catchUp p).nextptr = s.nextptr := by
  unfold catchUp
  dsimp only
  split <;> rfl

@[simp] theorem catchUp_head (s : Sched) (p : Ptr) :
    (s.catchUp p).schedqueue.head = s.schedqueue.head := rfl

@[simp] theorem catchUp_total (s : Sched) (p : Ptr) :
    (s.catchUp p).schedqueue.schedticks = s.schedqueue.schedticks + s.schedticks p := rfl

theorem catchUp_ticksleft_of_ne {x : Ptr} (s : Sched) (hx : x ≠ p) :
    (s.catchUp p).ticksleft x = s.ticksleft x := by
  unfold catchUp
  dsimp only
  split <;> exact update_of_ne hx _ _

end

/-- The neighbours of a place are other processes, or `NULL`. -/
theorem QueueInv.linkOk_beside (hq : QueueInv procs s (l₁ ++ l₂)) (hp : p ∈ procs)
    (hpq : p ∉ l₁ ++ l₂) (hb : Beside t p l₁ l₂) :
    LinkOk procs p (t.previous p) ∧ LinkOk procs p (t.next p) := by
  have hne : ∀ x ∈ l₁ ++ l₂, x ≠ p := fun x hx => ne_of_mem_of_not_mem hx hpq
  constructor
  · rw [hb.previous]
    rcases List.eq_nil_or_concat l₁ with rfl | ⟨l, a, rfl⟩
    · exact ⟨Ne.symm (hq.ne_null hp), Or.inl rfl⟩
    · have ha : a ∈ l.concat a ++ l₂ := by simp
      simpa using ⟨hne a ha, Or.inr (hq.mem_procs a ha)⟩
  · rw [hb.next]
    cases l₂ with
    | nil => exact ⟨Ne.symm (hq.ne_null hp), Or.inl rfl⟩
    | cons a l₂ =>
      have ha : a ∈ l₁ ++ a :: l₂ := by simp
      exact ⟨hne a ha, Or.inr (hq.mem_procs a ha)⟩

/-- Once its links lead to the neighbours of its place, the process enters the queue. -/
theorem QueueInv.enter (hq : QueueInv procs s (l₁ ++ l₂)) (hp : p ∈ procs) (hpq : p ∉ l₁ ++ l₂)
    (hb : Beside t p l₁ l₂) (hpl : Place s p l₁ l₂)
    (ht : SameTicks { s with misc := update s.misc p (s.misc p ||| Flag.enqueued) } t)
    (hl : SameLinksOff p s t) : QueueInv procs ((t.relink p).catchUp p) (l₁ ++ p :: l₂) := by
  have hr := sameTicks_relink t p
  have hst : (t.relink p).schedticks = s.schedticks := hr.schedticks.trans ht.schedticks
  have hne : ∀ x ∈ l₁ ++ l₂, x ≠ p := fun x hx => ne_of_mem_of_not_mem hx hpq
  have hchain : Chain t.next null t.schedqueue.head (l₁ ++ l₂) := by
    rw [hl.head]
    exact hq.chain.congr fun x hx => hl.next x (hne x hx)
  have hback : Back t.previous null (l₁ ++ l₂) :=
    hq.back.congr fun x hx => hl.previous x (hne x hx)
  obtain ⟨hlast, hfirst⟩ := hq.linkOk_beside hp hpq hb
  have hmem : ∀ x ∈ l₁ ++ p :: l₂, x ∈ procs := by
    intro x hx
    simp only [List.mem_append, List.mem_cons] at hx
    rcases hx with hx | rfl | hx
    · exact hq.mem_procs x (List.mem_append_left _ hx)
    · exact hp
    · exact hq.mem_procs x (List.mem_append_right _ hx)
  have hchain' := hb.chain hchain (hq.ne_null hp) hpq
  refine { shares := ?shares, chain := ?chain, back := ?back, mem_procs := ?mem_procs,
           sorted := ?sorted, total := ?total, next_ok := ?next_ok, previous_ok := ?previous_ok,
           isEnqueued_iff := ?isEnqueued_iff }
  case shares =>
    rw [catchUp_schedticks, hst]
    exact hq.shares
  case chain =>
    rw [catchUp_next, catchUp_head]
    exact hchain'
  case back =>
    rw [catchUp_previous]
    exact hb.back hchain hback hlast.1 hpq
  case mem_procs => exact hmem
  case isEnqueued_iff =>
    intro x hx
    simp only [isEnqueued, catchUp_misc, hr.misc, ht.misc]
    by_cases hxp : x = p
    · subst hxp
      simp only [update_self, Flag.or_enqueued_and, true_iff]
      simp
    · rw [update_of_ne hxp]
      have hiff := hq.isEnqueued_iff x hx
      rw [isEnqueued] at hiff
      rw [hiff]
      simp [hxp]
  case sorted =>
    rw [catchUp_schedticks, hst]
    obtain ⟨hs₁, hs₂, hs₁₂⟩ := List.pairwise_append.1 hq.sorted
    refine List.pairwise_append.2 ⟨hs₁, List.pairwise_cons.2 ⟨hpl.behind, hs₂⟩, ?_⟩
    intro x hx y hy
    rcases List.mem_cons.1 hy with rfl | hy
    · exact hpl.before x hx
    · exact hs₁₂ x hx y hy
  case total =>
    have hlt := hq.shares.sum_lt hchain'.nodup hmem
    have htot : (t.relink p).schedqueue.schedticks = s.schedqueue.schedticks :=
      hr.queueSchedticks.trans ht.queueSchedticks
    rw [catchUp_schedticks, hst, catchUp_total, htot, hst, BitVec.toNat_add]
    rw [shareSum_insert] at hlt ⊢
    rw [hq.total, Nat.mod_eq_of_lt hlt]
  case next_ok =>
    intro x hx
    rw [catchUp_next, relink_next]
    split
    · by_cases hxp : x = p
      · exact hxp ▸ hfirst
      · rw [hl.next x hxp]
        exact hq.next_ok x hx
    · by_cases hxa : x = t.previous p
      · rw [hxa, update_self]
        exact ⟨Ne.symm hlast.1, Or.inr hp⟩
      · rw [update_of_ne hxa]
        by_cases hxp : x = p
        · exact hxp ▸ hfirst
        · rw [hl.next x hxp]
          exact hq.next_ok x hx
  case previous_ok =>
    intro x hx
    rw [catchUp_previous, relink_previous t hlast.1]
    split
    · by_cases hxp : x = p
      · exact hxp ▸ hlast
      · rw [hl.previous x hxp]
        exact hq.previous_ok x hx
    · by_cases hxa : x = t.next p
      · rw [hxa, update_self]
        exact ⟨Ne.symm hfirst.1, Or.inr hp⟩
      · rw [update_of_ne hxa]
        by_cases hxp : x = p
        · exact hxp ▸ hlast
        · rw [hl.previous x hxp]
          exact hq.previous_ok x hx

/-- `enqueue` points a process that is off the queue at the neighbours of its place, and links
it in. -/
theorem enqueue_eq (hq : QueueInv procs s q) (hp : p ∈ procs) (hpq : p ∉ q) :
    ∃ t l₁ l₂, s.enqueue p = some ((t.relink p).catchUp p) ∧ q = l₁ ++ l₂ ∧ Beside t p l₁ l₂ ∧
      Place s p l₁ l₂ ∧ SameTicks { s with misc := update s.misc p (s.misc p ||| Flag.enqueued) } t ∧
      SameLinksOff p s t := by
  have hoff : s.isEnqueued p = false := by
    rw [← Bool.not_eq_true, hq.isEnqueued_iff p hp]
    exact hpq
  unfold enqueue
  rw [hoff]
  simp only [Bool.false_eq_true, if_false]
  split
  next hv =>
    obtain ⟨l₁, l₂, rfl, hb, hpl⟩ := place_of_valid hq hp hpq hv
    exact ⟨_, l₁, l₂, rfl, rfl, ⟨hb.previous, hb.next⟩, hpl,
      ⟨rfl, rfl, rfl, rfl, rfl, rfl, rfl, rfl⟩, fun _ _ => rfl, fun _ _ => rfl, rfl⟩
  next =>
    obtain ⟨t, l₁, l₂, hins, rfl, hb, hpl, ht, hl⟩ := insert_spec hq hp hpq
      (update s.misc p (s.misc p ||| Flag.enqueued))
    rw [hins]
    exact ⟨t, l₁, l₂, rfl, rfl, hb, hpl, ht, hl⟩

/-- `enqueue` puts a process that is off the queue into its place.  The tick counters are
those `catchUp` computes from the counters before. -/
theorem enqueue_spec (hq : QueueInv procs s q) (hp : p ∈ procs) (hpq : p ∉ q) :
    ∃ t l₁ l₂, s.enqueue p = some (t.catchUp p) ∧ q = l₁ ++ l₂ ∧
      QueueInv procs (t.catchUp p) (l₁ ++ p :: l₂) ∧
      SameTicks { s with misc := update s.misc p (s.misc p ||| Flag.enqueued) } t := by
  obtain ⟨t, l₁, l₂, ht, rfl, hb, hpl, hticks, hl⟩ := enqueue_eq hq hp hpq
  exact ⟨t.relink p, l₁, l₂, ht, rfl, hq.enter hp hpq hb hpl hticks hl,
    hticks.trans (sameTicks_relink t p)⟩

/-- The two states agree on the process `x`. -/
structure SameProcess (x : Ptr) (s s' : Sched) : Prop where
  next : s'.next x = s.next x
  previous : s'.previous x = s.previous x
  schedticks : s'.schedticks x = s.schedticks x
  ticksleft : s'.ticksleft x = s.ticksleft x
  misc : s'.misc x = s.misc x

/-- `enqueue` leaves alone who stays off the queue. -/
theorem enqueue_same {x : Ptr} (hq : QueueInv procs s q) (hp : p ∈ procs) (hpq : p ∉ q)
    (ht : s.enqueue p = some t) (hxp : x ≠ p) (hxq : x ∉ q) (hx : x ≠ null) :
    SameProcess x s t := by
  obtain ⟨u, l₁, l₂, hu, rfl, hb, -, hticks, hl⟩ := enqueue_eq hq hp hpq
  obtain rfl := Option.some.inj (hu.symm.trans ht)
  rw [List.mem_append, not_or] at hxq
  rw [List.mem_append, not_or] at hpq
  have hprev : l₁.getLastD null ≠ p ∧ l₁.getLastD null ≠ x := by
    rcases List.eq_nil_or_concat l₁ with rfl | ⟨l, a, rfl⟩
    · exact ⟨Ne.symm (hq.ne_null hp), Ne.symm hx⟩
    · simp only [List.concat_eq_append, List.getLastD_concat, List.mem_append, List.mem_singleton,
        not_or] at hpq hxq ⊢
      exact ⟨Ne.symm hpq.1.2, Ne.symm hxq.1.2⟩
  have hnext : l₂.headD null ≠ x := by
    cases l₂ with
    | nil => exact Ne.symm hx
    | cons a l₂ =>
      rintro rfl
      exact hxq.2 (by simp)
  refine ⟨?_, ?_, ?_, ?_, ?_⟩
  · rw [catchUp_next, relink_next, ← hl.next x hxp]
    split
    · rfl
    · rw [hb.previous, update_of_ne (Ne.symm hprev.2)]
  · rw [catchUp_previous, relink_previous u (hb.previous.symm ▸ hprev.1), ← hl.previous x hxp]
    split
    · rfl
    · rw [hb.next, update_of_ne (Ne.symm hnext)]
  · rw [catchUp_schedticks, (sameTicks_relink u p).schedticks, hticks.schedticks]
  · rw [catchUp_ticksleft_of_ne _ hxp, (sameTicks_relink u p).ticksleft, hticks.ticksleft]
  · rw [catchUp_misc, (sameTicks_relink u p).misc, hticks.misc]
    exact update_of_ne hxp _ _

/-- `enqueue` does nothing to a process that is on the queue. -/
theorem enqueue_of_mem (hq : QueueInv procs s q) (hp : p ∈ q) : s.enqueue p = some s := by
  have hon := (hq.isEnqueued_iff p (hq.mem_procs p hp)).2 hp
  simp [enqueue, hon]

end Sched

end Mycrokernel
