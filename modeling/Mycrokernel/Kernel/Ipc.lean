import Mycrokernel.Lib.Rendezvous
import Mycrokernel.Kernel.Dequeue
import Mycrokernel.Kernel.Interrupt

/-!
# Senders and waiters as lists

`Threaded procs s m` says that the lists of the rendezvous `m` are threaded
through the kernel state `s`: the senders of a process start at its
`firstSender`, those that wait for a feature at the `waiter` of its entry, and
both go on along `nextSender`.  One lemma for each of the functions of
`utilities_C.c` that edit these lists says which operation on `m` it refines.

The functions end in one of the macros `setStateFlag` and `unsetStateFlag`, which
reach into the run queue.  `Entered` and `Left` say what these do.
-/

namespace Mycrokernel

open Function (update update_self update_of_ne)
open PointerList

namespace Sched

variable [Layout] {procs : Finset Ptr} {s s' : Sched} {p x : Ptr} {q q' : List Ptr}

/-- `p`, which was off the queue `q`, has entered it. -/
structure Entered (procs : Finset Ptr) (p : Ptr) (s s' : Sched) (q q' : List Ptr) : Prop where
  eq : s.enqueue p = some s'
  inv : QueueInv procs s' q'
  mem : ∀ x, x ∈ q' ↔ x = p ∨ x ∈ q
  schedticks : s'.schedticks = s.schedticks
  curptr : s'.curptr = s.curptr
  nextptr : s'.nextptr = s.nextptr

theorem QueueInv.entered (hq : QueueInv procs s q) (hp : p ∈ procs) (hpq : p ∉ q) :
    ∃ s' q', Entered procs p s s' q q' := by
  obtain ⟨t, l₁, l₂, ht, rfl, hinv, hsame⟩ := enqueue_spec hq hp hpq
  refine ⟨_, _, ht, hinv, ?_, ?_, ?_, ?_⟩
  · intro x
    simp only [List.mem_append, List.mem_cons]
    tauto
  · rw [catchUp_schedticks, hsame.schedticks]
  · rw [catchUp_curptr, hsame.curptr]
  · rw [catchUp_nextptr, hsame.nextptr]

/-- `p`, which was on the queue `q`, has left it. -/
structure Left (procs : Finset Ptr) (p : Ptr) (s s' : Sched) (q q' : List Ptr) : Prop where
  eq : s.dequeue p = some s'
  inv : QueueInv procs s' q'
  mem : ∀ x, x ∈ q' ↔ x ≠ p ∧ x ∈ q
  dequeued : Dequeued p q' s s'

theorem QueueInv.left (hq : QueueInv procs s q) (hpq : p ∈ q) :
    ∃ s' q', Left procs p s s' q q' := by
  obtain ⟨l₁, l₂, rfl⟩ := List.append_of_mem hpq
  obtain ⟨s', hs', hinv, hd⟩ := dequeue_spec hq
  have hpl : p ∉ l₁ ++ l₂ := (List.nodup_cons.1 (List.perm_middle.nodup_iff.1 hq.chain.nodup)).1
  refine ⟨s', _, hs', hinv, ?_, hd⟩
  intro x
  simp only [List.mem_append, List.mem_cons] at hpl ⊢
  constructor
  · intro hx
    refine ⟨?_, by tauto⟩
    rintro rfl
    exact hpl hx
  · tauto

end Sched

namespace Kernel

open Rendezvous (Place)
open Sched (QueueInv Entered Left)

variable [Layout] {procs : Finset Ptr} {s s' : Kernel} {m m' : Rendezvous Ptr Nat}
  {p r w x : Ptr} {i : Nat} {q : List Ptr}

/-! ## The macros for state flags -/

/-- Clearing the last flag of a process puts it on the run queue. -/
theorem unsetStateFlag_spec {f : BitVec 8} (hq : QueueInv procs s.sched q) (hp : p ∈ procs)
    (hpq : p ∉ q) (hf : s.state p &&& ~~~f = 0) :
    ∃ t q', s.unsetStateFlag p f = some { s with state := update s.state p 0, sched := t } ∧
      Entered procs p s.sched t q q' := by
  obtain ⟨t, q', ht⟩ := hq.entered hp hpq
  refine ⟨t, q', ?_, ht⟩
  simp [unsetStateFlag, hf, enqueue, ht.eq]

/-- Setting a flag of a process takes it off the run queue. -/
theorem setStateFlag_spec {f : BitVec 8} (hq : QueueInv procs s.sched q) (hpq : p ∈ q)
    (hs : s.state p = 0) :
    ∃ t q', s.setStateFlag p f = some { s with state := update s.state p f, sched := t } ∧
      Left procs p s.sched t q q' := by
  obtain ⟨t, q', ht⟩ := hq.left hpq
  refine ⟨t, q', ?_, ht⟩
  simp [setStateFlag, hs, dequeue, ht.eq]

/-! ## The lists -/

/-- The lists of `m` are threaded through the state. -/
structure Threaded (procs : Finset Ptr) (s : Kernel) (m : Rendezvous Ptr Nat) : Prop where
  senders : ∀ r ∈ procs, Chain s.nextSender null (s.firstSender r) (m.senders r)
  waiters : ∀ i < featureTableSize, Chain s.nextSender null (s.featureTable i).waiter (m.waiters i)

section

omit [Layout]

/-- The lists depend on the fields they are threaded through. -/
theorem Threaded.congr (h : Threaded procs s m) (hn : s'.nextSender = s.nextSender)
    (hf : s'.firstSender = s.firstSender)
    (hw : ∀ i, (s'.featureTable i).waiter = (s.featureTable i).waiter)
    (hms : m'.senders = m.senders) (hmw : m'.waiters = m.waiters) : Threaded procs s' m' where
  senders r hr := by
    rw [hn, hf, hms]
    exact h.senders r hr
  waiters i hi := by
    rw [hn, hw, hmw]
    exact h.waiters i hi

theorem getLastD_mem {l : List Ptr} (h : l.getLastD null ≠ null) : l.getLastD null ∈ l := by
  rcases List.eq_nil_or_concat l with rfl | ⟨l, a, rfl⟩
  · exact absurd rfl h
  · simp

/-- The walk to the end of a list. -/
theorem walk_end {next : Ptr → Ptr} {h : Ptr} {l : List Ptr} (hc : Chain next null h l) :
    walk next (fun cur => cur = null) walkFuel null h = some (l.getLastD null, null) := by
  refine walk_eq hc.seg ?_ (by simp) (length_lt_walkFuel hc)
  intro x hx
  simpa using ne_of_mem_of_not_mem hx hc.null_notMem

/-- The walk to a process on a list. -/
theorem walk_to {next : Ptr → Ptr} {h : Ptr} {l₁ l₂ : List Ptr}
    (hc : Chain next null h (l₁ ++ w :: l₂)) :
    walk next (fun cur => cur = w) walkFuel null h = some (l₁.getLastD null, w) := by
  obtain ⟨c, hs₁, rfl, -⟩ := seg_append.1 hc.seg
  refine walk_eq hs₁ ?_ (by simp) ?_
  · intro x hx
    have hnd := List.nodup_append.1 hc.nodup
    simpa using hnd.2.2 x hx c (by simp)
  · have hlt := length_lt_walkFuel hc
    rw [List.length_append] at hlt
    exact lt_of_le_of_lt (Nat.le_add_right _ _) hlt

/-- A receive that names `desired` accepts messages from `x`. -/
def Accepts (desired x : Ptr) : Prop := desired = anyproc ∨ desired = x

instance (desired x : Ptr) : Decidable (Accepts desired x) :=
  inferInstanceAs (Decidable (_ ∨ _))

/-- A receive of `r` that names `desired` picks the sender `w`. -/
def Picks (s : Kernel) (r desired w : Ptr) : Prop :=
  desired = anyproc ∧ w = s.firstSender r ∨ desired = w

theorem Picks.accepts {desired : Ptr} (h : Picks s r desired w) : Accepts desired w :=
  h.imp_left And.left

/-- `get_sender` picks a sender, if there is one that the receive accepts. -/
theorem Threaded.getSender_spec (h : Threaded procs s m) (hr : r ∈ procs) (desired : Ptr) :
    ∃ w, s.getSender desired r = some w ∧
      ((w = null ∧ ∀ x ∈ m.senders r, ¬ Accepts desired x) ∨
        (w ≠ null ∧ w ∈ m.senders r ∧ Picks s r desired w)) := by
  have hc := h.senders r hr
  unfold getSender
  by_cases hnil : s.firstSender r = null
  · rw [if_pos hnil]
    rw [← hc.eq_nil_iff] at hnil
    exact ⟨null, rfl, Or.inl ⟨rfl, by simp [hnil]⟩⟩
  rw [if_neg hnil]
  by_cases hany : desired = anyproc
  · rw [if_pos hany]
    exact ⟨_, rfl, Or.inr ⟨hnil, hc.head_mem hnil, Or.inl ⟨hany, rfl⟩⟩⟩
  rw [if_neg hany]
  by_cases hmem : desired ∈ m.senders r
  · obtain ⟨l₁, l₂, hl⟩ := List.append_of_mem hmem
    have hnd := hc.nodup
    rw [hl] at hc hnd
    obtain ⟨c, hs₁, rfl, -⟩ := seg_append.1 hc.seg
    refine ⟨c, ?_, Or.inr ⟨hany, hmem, Or.inr rfl⟩⟩
    rw [walk_eq hs₁]
    · simpa using fun h => h.symm
    · intro x hx
      have hxn : x ≠ null := by
        rintro rfl
        exact hc.null_notMem (by simp [hx])
      simpa [hxn] using (List.nodup_append.1 hnd).2.2 x hx c (by simp)
    · simp
    · have hlt := length_lt_walkFuel hc
      rw [List.length_append] at hlt
      exact lt_of_le_of_lt (Nat.le_add_right _ _) hlt
  · refine ⟨null, ?_, Or.inl ⟨rfl, ?_⟩⟩
    · rw [walk_eq hc.seg]
      · simp
      · intro x hx
        have hxn : x ≠ null := ne_of_mem_of_not_mem hx hc.null_notMem
        simpa [hxn] using ne_of_mem_of_not_mem hx hmem
      · simp
      · exact length_lt_walkFuel hc
    · rintro x hx (h | rfl)
      · exact hany h
      · exact hmem hx

end

/-- `add_to_senders_list` refines `send`. -/
theorem Threaded.addToSendersList (h : Threaded procs s m) (hr : r ∈ procs) (hp : p ≠ null)
    (hoff : (m.place p).Off) :
    ∃ next first, s.addToSendersList p r =
        setStateFlag { s with nextSender := next, firstSender := first } p Flag.sending ∧
      Threaded procs { s with nextSender := next, firstSender := first } (m.send p r hoff) := by
  have hc := h.senders r hr
  have hpr : ∀ r, p ∉ m.senders r := fun r => Rendezvous.notMem_senders_of_off hoff
  have hpw : ∀ i, p ∉ m.waiters i := fun i => Rendezvous.notMem_waiters_of_off hoff
  refine ⟨update (if (m.senders r).getLastD null = null then s.nextSender
      else update s.nextSender ((m.senders r).getLastD null) p) p null,
    if (m.senders r).getLastD null = null then update s.firstSender r p else s.firstSender,
    ?_, ?_, ?_⟩
  · rw [Kernel.addToSendersList, walk_end hc, Option.bind_some]
    by_cases hl : (m.senders r).getLastD null = null
    · simp only [hl, ne_eq, not_true_eq_false, if_false, if_true]
    · simp only [hl, ne_eq, not_false_eq_true, if_false, if_true]
  · intro r' hr'
    by_cases hrr : r' = r
    · subst hrr
      have happ := hc.append hp (hpr r')
      rw [Rendezvous.send_senders, update_self]
      convert happ using 1
      dsimp only
      split <;> simp
    · rw [Rendezvous.send_senders, update_of_ne hrr]
      have hfirst : (if (m.senders r).getLastD null = null then update s.firstSender r p
          else s.firstSender) r' = s.firstSender r' := by
        split
        · exact update_of_ne hrr _ _
        · rfl
      dsimp only
      rw [hfirst]
      refine (h.senders r' hr').congr fun x hx => ?_
      rw [update_of_ne (ne_of_mem_of_not_mem hx (hpr r'))]
      split
      · rfl
      next hl =>
        refine update_of_ne ?_ _ _
        rintro rfl
        exact hrr (Rendezvous.senders_disjoint (getLastD_mem hl) hx)
  · intro i hi
    refine (h.waiters i hi).congr fun x hx => ?_
    dsimp only
    rw [update_of_ne (ne_of_mem_of_not_mem hx (hpw i))]
    split
    · rfl
    next hl =>
      refine update_of_ne ?_ _ _
      rintro rfl
      exact Rendezvous.notMem_waiters (getLastD_mem hl) hx

section

omit [Layout]

/-- Skipping a process on the list of senders refines `take`. -/
theorem Threaded.take (h : Threaded procs s m) (hr : r ∈ procs) (hw : m.place w = .sending r)
    {l₁ l₂ : List Ptr} (hl : m.senders r = l₁ ++ w :: l₂) :
    Threaded procs { s with
      nextSender := update (if l₁.getLastD null = null then s.nextSender
        else update s.nextSender (l₁.getLastD null) (s.nextSender w)) w null
      firstSender := if l₁.getLastD null = null then update s.firstSender r (s.nextSender w)
        else s.firstSender } (m.take w r hw) := by
  have hc := h.senders r hr
  have hwr : w ∈ m.senders r := m.mem_senders.2 hw
  have hlast : l₁.getLastD null ≠ null → l₁.getLastD null ∈ m.senders r := fun hne => by
    rw [hl]
    exact List.mem_append_left _ (getLastD_mem hne)
  have herase : (m.senders r).erase w = l₁ ++ l₂ := by
    have hnd := m.senders_nodup r
    rw [hl] at hnd ⊢
    have hwl : w ∉ l₁ := fun hmem => (List.nodup_append.1 hnd).2.2 w hmem w (by simp) rfl
    rw [List.erase_append_right _ hwl, List.erase_cons_head]
  rw [hl] at hc
  constructor
  · intro r' hr'
    by_cases hrr : r' = r
    · subst hrr
      rw [Rendezvous.take_senders, update_self, herase]
      convert hc.remove using 1
      dsimp only
      split <;> simp
    · rw [Rendezvous.take_senders, update_of_ne hrr]
      have hfirst : (if l₁.getLastD null = null then update s.firstSender r (s.nextSender w)
          else s.firstSender) r' = s.firstSender r' := by
        split
        · exact update_of_ne hrr _ _
        · rfl
      dsimp only
      rw [hfirst]
      refine (h.senders r' hr').congr fun x hx => ?_
      have hxw : x ≠ w := by
        rintro rfl
        exact hrr (Rendezvous.senders_disjoint hwr hx)
      rw [update_of_ne hxw]
      split
      · rfl
      next hn =>
        refine update_of_ne ?_ _ _
        rintro rfl
        exact hrr (Rendezvous.senders_disjoint (hlast hn) hx)
  · intro i hi
    refine (h.waiters i hi).congr fun x hx => ?_
    dsimp only
    have hxw : x ≠ w := by
      rintro rfl
      exact Rendezvous.notMem_waiters hwr hx
    rw [update_of_ne hxw]
    split
    · rfl
    next hn =>
      refine update_of_ne ?_ _ _
      rintro rfl
      exact Rendezvous.notMem_waiters (hlast hn) hx

/-- `remove_from_senders_list` refines `take`. -/
theorem Threaded.removeFromSendersList (h : Threaded procs s m) (hr : r ∈ procs)
    (hw : m.place w = .sending r) :
    ∃ next first, s.removeFromSendersList w r =
        unsetStateFlag { s with nextSender := next, firstSender := first } w Flag.sending ∧
      Threaded procs { s with nextSender := next, firstSender := first } (m.take w r hw) := by
  obtain ⟨l₁, l₂, hl⟩ := List.append_of_mem (m.mem_senders.2 hw)
  have hc := h.senders r hr
  rw [hl] at hc
  refine ⟨_, _, ?_, h.take hr hw hl⟩
  rw [Kernel.removeFromSendersList, walk_to hc, Option.bind_some]
  by_cases hn : l₁.getLastD null = null
  · simp only [hn, if_true]
  · simp only [hn, if_false]

/-- `add_waiting_for_feature` refines `wait`. -/
theorem Threaded.addWaitingForFeature (h : Threaded procs s m) {feature : Word}
    (hi : featureEntry feature = some i) (hlt : i < featureTableSize) (hp : p ≠ null)
    (hoff : (m.place p).Off) :
    ∃ next first, s.addWaitingForFeature p feature = some { s with
        nextSender := next
        featureTable := update s.featureTable i { s.featureTable i with waiter := first } } ∧
      Threaded procs { s with
        nextSender := next
        featureTable := update s.featureTable i { s.featureTable i with waiter := first } }
        (m.wait p i hoff) := by
  have hc := h.waiters i hlt
  have hpr : ∀ r, p ∉ m.senders r := fun r => Rendezvous.notMem_senders_of_off hoff
  have hpw : ∀ i, p ∉ m.waiters i := fun i => Rendezvous.notMem_waiters_of_off hoff
  refine ⟨update (if (m.waiters i).getLastD null = null then s.nextSender
      else update s.nextSender ((m.waiters i).getLastD null) p) p null,
    if (m.waiters i).getLastD null = null then p else (s.featureTable i).waiter, ?_, ?_, ?_⟩
  · rw [Kernel.addWaitingForFeature, hi, Option.bind_some, walk_end hc, Option.map_some]
    by_cases hl : (m.waiters i).getLastD null = null
    · simp only [hl, if_true]
    · simp only [hl, if_false]
      rw [Function.update_eq_self]
  · intro r hr
    refine (h.senders r hr).congr fun x hx => ?_
    dsimp only
    rw [update_of_ne (ne_of_mem_of_not_mem hx (hpr r))]
    split
    · rfl
    next hl =>
      refine update_of_ne ?_ _ _
      rintro rfl
      exact Rendezvous.notMem_waiters hx (getLastD_mem hl)
  · intro j hj
    by_cases hji : j = i
    · subst hji
      rw [Rendezvous.wait_waiters, update_self]
      convert hc.append hp (hpw j) using 1
      dsimp only
      rw [update_self]
    · rw [Rendezvous.wait_waiters, update_of_ne hji]
      dsimp only
      rw [update_of_ne hji]
      refine (h.waiters j hj).congr fun x hx => ?_
      rw [update_of_ne (ne_of_mem_of_not_mem hx (hpw j))]
      split
      · rfl
      next hl =>
        refine update_of_ne ?_ _ _
        rintro rfl
        exact hji (Rendezvous.waiters_disjoint (getLastD_mem hl) hx)

/-- Writing a supplier's entry of the table as `set_feature` does refines `adopt`. -/
theorem Threaded.adopt (h : Threaded procs s m) (hlt : i < featureTableSize) :
    Threaded procs { s with
      firstSender := update s.firstSender r (s.featureTable i).waiter
      featureTable := update s.featureTable i { supplier := r, waiter := null } }
      (m.adopt r i) where
  senders r' hr' := by
    by_cases hrr : r' = r
    · subst hrr
      rw [Rendezvous.adopt_senders, update_self]
      dsimp only
      rw [update_self]
      exact h.waiters i hlt
    · rw [Rendezvous.adopt_senders, update_of_ne hrr]
      dsimp only
      rw [update_of_ne hrr]
      exact h.senders r' hr'
  waiters j hj := by
    by_cases hji : j = i
    · subst hji
      rw [Rendezvous.adopt_waiters, update_self]
      dsimp only
      rw [update_self]
      exact .nil
    · rw [Rendezvous.adopt_waiters, update_of_ne hji]
      dsimp only
      rw [update_of_ne hji]
      exact h.waiters j hj

/-! ## Waking the senders of a process that exits -/

/-- The registers of the processes of `l` after `set_err(p, PROCESSDIED)`. -/
def diedRegs (l : List Ptr) (regs : Ptr → Regs) (x : Ptr) : Regs :=
  if x ∈ l then { regs x with esiReg := Err.processDied } else regs x

@[simp] theorem diedRegs_nil (regs : Ptr → Regs) : diedRegs [] regs = regs := by
  funext x
  simp [diedRegs]

theorem diedRegs_cons {l : List Ptr} {regs : Ptr → Regs} (hw : w ∉ l) :
    diedRegs l (update regs w { regs w with esiReg := Err.processDied }) =
      diedRegs (w :: l) regs := by
  funext x
  unfold diedRegs
  by_cases hx : x = w
  · subst hx
    simp [hw]
  · simp [hx]

end

/-- The processes `l` have entered the run queue, one after the other. -/
structure AllEntered (procs : Finset Ptr) (l : List Ptr) (s s' : Sched) (q q' : List Ptr) :
    Prop where
  eq : l.foldlM Sched.enqueue s = some s'
  inv : QueueInv procs s' q'
  mem : ∀ x, x ∈ q' ↔ x ∈ l ∨ x ∈ q
  schedticks : s'.schedticks = s.schedticks
  curptr : s'.curptr = s.curptr
  nextptr : s'.nextptr = s.nextptr

/-- `unblock_waiting_senders` refines `release`.  The induction is on the list of senders;
each round takes the first one off. -/
theorem Threaded.unblockWaitingSenders (hr : r ∈ procs) (l : List Ptr) :
    ∀ {s : Kernel} {m : Rendezvous Ptr Nat} {q : List Ptr} {n : Nat}, Threaded procs s m →
      m.senders r = l → (∀ x ∈ l, x ∈ procs ∧ x ∉ q ∧ s.state x &&& ~~~Flag.sending = 0) →
      QueueInv procs s.sched q → l.length < n →
      ∃ next first t q', s.unblockWaitingSenders r n = some { s with
          regs := diedRegs l s.regs
          state := fun x => if x ∈ l then 0 else s.state x
          nextSender := next
          firstSender := first
          sched := t } ∧
        Threaded procs { s with nextSender := next, firstSender := first } (m.release r) ∧
        AllEntered procs l s.sched t q q' := by
  induction l with
  | nil =>
    intro s m q n h hl _ hq hn
    obtain ⟨n, rfl⟩ := Nat.exists_eq_add_one_of_ne_zero (Nat.ne_of_gt hn)
    have hfirst : s.firstSender r = null := (h.senders r hr).eq_nil_iff.1 hl
    refine ⟨s.nextSender, s.firstSender, s.sched, q, ?_, ?_, ⟨rfl, hq, ?_, rfl, rfl, rfl⟩⟩
    · rw [Kernel.unblockWaitingSenders, if_neg (not_not.2 hfirst)]
      simp
    · refine h.congr rfl rfl (fun _ => rfl) ?_ rfl
      rw [Rendezvous.release_senders, ← hl, Function.update_eq_self]
    · simp
  | cons w l ih =>
    intro s m q n h hl hblocked hq hn
    obtain ⟨n, rfl⟩ := Nat.exists_eq_add_one_of_ne_zero (Nat.ne_of_gt (Nat.zero_lt_of_lt hn))
    have hw : m.place w = .sending r := m.mem_senders.1 (by simp [hl])
    have hnd := m.senders_nodup r
    rw [hl] at hnd
    obtain ⟨hwl, -⟩ := List.nodup_cons.1 hnd
    obtain ⟨hfirst, hwn, -⟩ := chain_cons.1 (hl ▸ h.senders r hr)
    obtain ⟨hwp, hwq, hwf⟩ := hblocked w (by simp)
    obtain ⟨t, q₁, hset, hent⟩ :=
      unsetStateFlag_spec (s := s.setErr w Err.processDied) hq hwp hwq hwf
    -- the loop takes the first sender off the list and goes on with the others
    have htake := h.take hr hw (show m.senders r = [] ++ w :: l from hl)
    simp only [List.getLastD_nil, if_true] at htake
    have hsenders : (m.take w r hw).senders r = l := by
      rw [Rendezvous.take_senders, update_self, hl, List.erase_cons_head]
    obtain ⟨next, first, t', q', hrest, hth, hall⟩ :=
      ih (s := { s with
          regs := update s.regs w { s.regs w with esiReg := Err.processDied }
          state := update s.state w 0
          sched := t
          firstSender := update s.firstSender r (s.nextSender w)
          nextSender := update s.nextSender w null })
        (htake.congr rfl rfl (fun _ => rfl) rfl rfl) hsenders (fun x hx => by
          obtain ⟨hxp, hxq, hxf⟩ := hblocked x (by simp [hx])
          have hxw : x ≠ w := ne_of_mem_of_not_mem hx hwl
          refine ⟨hxp, ?_, ?_⟩
          · rw [hent.mem]
            tauto
          · dsimp only
            rwa [update_of_ne hxw])
        hent.inv (by simpa using hn)
    refine ⟨next, first, t', q', ?_, ?_, ?_⟩
    · rw [Kernel.unblockWaitingSenders, if_pos (by rw [hfirst]; exact hwn), hfirst]
      dsimp only
      rw [hset, Option.bind_some]
      refine Eq.trans hrest ?_
      have hstate : (fun x => if x ∈ l then 0 else update s.state w 0 x) =
          fun x => if x ∈ w :: l then 0 else s.state x := by
        funext x
        by_cases hx : x = w
        · subst hx
          simp
        · simp [hx]
      simp only [diedRegs_cons hwl, hstate]
    · refine hth.congr rfl rfl (fun _ => rfl) ?_ rfl
      rw [Rendezvous.release_senders, Rendezvous.release_senders, Rendezvous.take_senders,
        Function.update_idem]
    · refine ⟨?_, hall.inv, ?_, ?_, ?_, ?_⟩
      · rw [List.foldlM_cons]
        exact (congrArg (· >>= _) hent.eq).trans hall.eq
      · intro x
        rw [hall.mem, hent.mem, List.mem_cons]
        tauto
      · exact hall.schedticks.trans hent.schedticks
      · exact hall.curptr.trans hent.curptr
      · exact hall.nextptr.trans hent.nextptr

end Kernel

end Mycrokernel
