import Mycrokernel.Kernel.Limit
import Mycrokernel.Kernel.Descriptor
import Mycrokernel.Kernel.Slot

/-!
# Launching processes

`main.hla` creates each of its processes and enqueues it at once.  When segments are
where memory is and the GDT has room, `create_process` succeeds: it takes the first
free entries in order (`FreeList`), and the selectors it puts into the slot lead to
descriptors that say what it was asked for (`createProcess_eq`).

The processes have equal shares, so each enters the run queue at its front.
Creating a process does not disturb those that are queued, and the queue is the
one that would result if all had been created before the first was enqueued
(`launched_sched`).
-/

namespace Mycrokernel

open Function (update update_self update_of_ne update_comm)

namespace Kernel

variable [Layout] {s k : Kernel} {a : ProcessArgs} {p : Ptr} {w : Word} {ws rest : List Word}

/-! ## Free entries of the GDT -/

/-- `ws` are the first indices of the GDT bitmap that are clear, in order. -/
structure FreeList (s : Kernel) (ws : List Word) : Prop where
  sorted : ws.Pairwise (· < ·)
  lt : ∀ w ∈ ws, w < noAvlDscrpts
  clear : ∀ w ∈ ws, s.gdtBit w = false
  before : ∀ w ∈ ws, ∀ j < w, j ∉ ws → s.gdtBit j = true

theorem FreeList.congr (h : FreeList s ws) (hbit : ∀ w < noAvlDscrpts, k.gdtBit w = s.gdtBit w) :
    FreeList k ws :=
  ⟨h.sorted, h.lt, fun w hw => (hbit w (h.lt w hw)).trans (h.clear w hw), fun w hw j hj hjw =>
    (hbit j (BitVec.lt_trans hj (h.lt w hw))).trans (h.before w hw j hj hjw)⟩

/-- An index leads to its offset and back. -/
theorem index_offset (hw : w < noAvlDscrpts) : w * 8 / 8 = w :=
  gdtIndices.value_div (BitVec.le_of_lt hw)

theorem offset_ne_invalid (hw : w < noAvlDscrpts) : w * 8 ≠ invalidGdtIdx := by
  intro h
  have hdiv := index_offset hw
  rw [h] at hdiv
  rw [← hdiv] at hw
  exact absurd hw (by decide)

/-- `get_free_gdt_idx` returns the first of them. -/
theorem FreeList.getFreeGdtIdx (h : FreeList s (w :: ws)) : s.getFreeGdtIdx = some (w * 8) := by
  have hleast : LeastClear s.kmem Layout.gdtBitmap noAvlDscrpts w := by
    refine Or.inl ⟨⟨h.lt w (by simp), h.clear w (by simp)⟩, fun j hj => ?_⟩
    by_contra hlt
    have hjw : j < w := BitVec.not_le.1 hlt
    have hnot : j ∉ w :: ws := by
      intro hmem
      cases hmem with
      | head => exact BitVec.lt_irrefl _ hjw
      | tail _ hmem => exact BitVec.lt_asymm hjw ((List.pairwise_cons.1 h.sorted).1 j hmem)
    exact absurd (h.before w (by simp) j hjw hnot) (by simpa [gdtBit] using hj.2)
  obtain ⟨r, hr, hleast'⟩ := getFreeBitInBitfield_spec s.kmem Layout.gdtBitmap noAvlDscrpts
  rw [Kernel.getFreeGdtIdx, hr, hleast'.unique (fun _ _ => rfl) hleast, Option.map_some]

/-- Once its descriptor is written, an entry is no longer free. -/
theorem FreeList.writeDesc (h : FreeList s (w :: ws)) (limit base attr access : Word) :
    FreeList (s.writeDesc (w * 8) limit base attr access) ws := by
  obtain ⟨hfirst, hsorted⟩ := List.pairwise_cons.1 h.sorted
  have hbit : ∀ i, (s.writeDesc (w * 8) limit base attr access).gdtBit i =
      if i = w then true else s.gdtBit i := by
    intro i
    rw [writeDesc_gdtBit, index_offset (h.lt w (by simp))]
  refine ⟨hsorted, fun v hv => h.lt v (by simp [hv]), fun v hv => ?_, fun v hv j hj hjws => ?_⟩
  · have hne : v ≠ w := fun heq => BitVec.lt_irrefl w (heq ▸ hfirst v hv)
    rw [hbit, if_neg hne]
    exact h.clear v (by simp [hv])
  · rw [hbit]
    split
    next => rfl
    next hjw => exact h.before v (by simp [hv]) j hj (by simp [hjw, hjws])

/-- The table ends with the entry `last` or before. -/
def EndsBy (s : Kernel) (last : Nat) : Prop := s.gdtLimit.toNat ≤ 8 * last + 7

theorem EndsBy.writeDesc {last : Nat} (h : s.EndsBy last) (hw : w.toNat ≤ last) (hlast : last < 8192)
    (limit base attr access : Word) : (s.writeDesc (w * 8) limit base attr access).EndsBy last := by
  have hend : ((w * 8 + 8 - 1).setWidth 16).toNat = 8 * w.toNat + 7 := by
    rw [BitVec.toNat_setWidth, BitVec.toNat_sub, BitVec.toNat_add, BitVec.toNat_mul]
    show (2 ^ 32 - 1 + (w.toNat * 8 % 2 ^ 32 + 8) % 2 ^ 32) % 2 ^ 32 % 2 ^ 16 = _
    omega
  unfold EndsBy
  rw [writeDesc_gdtLimit]
  split
  next => omega
  next => exact h

/-! ## Segments -/

/-- The state after entries of the GDT have been taken and filled in. -/
def TableOnly (s k : Kernel) : Prop :=
  { s with kmem := k.kmem, gdt := k.gdt, gdtLimit := k.gdtLimit, usedGdt := k.usedGdt } = k

omit [Layout] in
theorem TableOnly.refl (s : Kernel) : TableOnly s s := rfl

omit [Layout] in
theorem TableOnly.trans {l : Kernel} (h : TableOnly s k) (h' : TableOnly k l) : TableOnly s l := by
  unfold TableOnly at h h' ⊢
  rw [← h] at h'
  exact h'

theorem tableOnly_writeDesc (s : Kernel) (index limit base attr access : Word) :
    TableOnly s (s.writeDesc index limit base attr access) := by
  unfold writeDesc
  dsimp only
  split
  next => rfl
  next => rfl

/-- Memory has room for the segment. -/
structure Roomy (seg : Segment) : Prop where
  base : seg.base ≠ noBase
  valid : memAreaValid seg.base seg.limit seg.video = true
  limit : seg.limit.toNat ≤ 0xfffff

/-- The descriptor for a segment whose limit is counted in bytes. -/
def segmentDesc (privilege : Word) (seg : Segment) : SegDesc :=
  encode seg.limit seg.base 0b1000000 (segmentAccess 1 privilege seg.type)

/-- What a block leaves behind: the descriptor, and nothing else in the table. -/
theorem createSegment_eq {privilege : Word} {seg : Segment} (hseg : Roomy seg)
    (hfree : FreeList s (w :: ws)) :
    ∃ k, s.createSegment privilege seg = some (k, some (w * 8)) ∧ TableOnly s k ∧ FreeList k ws ∧
      k.gdt = update s.gdt (w * 8) (segmentDesc privilege seg) ∧
      ∀ last < 8192, w.toNat ≤ last → s.EndsBy last → k.EndsBy last := by
  have hsmall : ¬ 0xfffff < seg.limit := by
    rw [BitVec.lt_def]
    exact Nat.not_lt.2 hseg.limit
  have heq : s.writeSegmentDesc (w * 8) seg.limit seg.base 1 privilege seg.type 0 =
      s.writeDesc (w * 8) seg.limit seg.base 0b1000000 (segmentAccess 1 privilege seg.type) :=
    writeSegmentDesc_eq ..
  refine ⟨s.writeSegmentDesc (w * 8) seg.limit seg.base 1 privilege seg.type 0, ?_, ?_, ?_, ?_,
    fun last hlast hw h => ?_⟩
  · rw [createSegment, if_neg hseg.base, hseg.valid, hfree.getFreeGdtIdx, Option.map_some,
      if_neg (offset_ne_invalid (hfree.lt w (by simp))), if_neg hsmall]
    rfl
  · rw [heq]
    exact tableOnly_writeDesc ..
  · rw [heq]
    exact hfree.writeDesc ..
  · rw [heq, writeDesc_gdt]
    rfl
  · rw [heq]
    exact h.writeDesc hw hlast ..

/-- The descriptors for segments, at their entries. -/
def describe (privilege : Word) (gdt : Word → SegDesc) : List Word → List Segment → Word → SegDesc
  | w :: ws, seg :: segs =>
    describe privilege (update gdt (w * 8) (segmentDesc privilege seg)) ws segs
  | _, _ => gdt

/-- The blocks take the first free entries, one for each segment. -/
theorem createSegments_eq (privilege : Word) {segs : List Segment}
    (hsegs : ∀ seg ∈ segs, Roomy seg) (hlen : ws.length = segs.length)
    (hfree : FreeList s (ws ++ rest)) :
    ∃ k, createSegments privilege segs s = some (k, ws.map (· * 8), true) ∧ TableOnly s k ∧
      FreeList k rest ∧ k.gdt = describe privilege s.gdt ws segs ∧
      ∀ last < 8192, (∀ w ∈ ws, w.toNat ≤ last) → s.EndsBy last → k.EndsBy last := by
  induction segs generalizing s ws with
  | nil =>
    obtain rfl : ws = [] := List.length_eq_zero_iff.1 hlen
    exact ⟨s, rfl, .refl s, hfree, rfl, fun _ _ _ h => h⟩
  | cons seg segs ih =>
    obtain ⟨w, ws, rfl⟩ := List.exists_cons_of_length_eq_add_one hlen
    obtain ⟨t, ht, honly, hfree', hgdt, hends⟩ :=
      @createSegment_eq _ s w (ws ++ rest) privilege seg (hsegs seg (by simp)) hfree
    obtain ⟨k, hk, honly', hrest, hgdt', hends'⟩ := ih (fun seg' h => hsegs seg' (by simp [h]))
      (by simpa using hlen) hfree'
    refine ⟨k, ?_, honly.trans honly', hrest, ?_, fun last hlast hws h => ?_⟩
    · rw [createSegments, ht, Option.bind_some]
      dsimp only
      rw [hk]
      rfl
    · rw [hgdt', hgdt, describe]
    · exact hends' last hlast (fun v hv => hws v (by simp [hv])) (hends last hlast (hws w (by simp)) h)

omit [Layout] in
theorem describe_of_notMem {privilege idx : Word} {gdt : Word → SegDesc} {segs : List Segment}
    (h : ∀ w ∈ ws, idx ≠ w * 8) : describe privilege gdt ws segs idx = gdt idx := by
  induction ws generalizing gdt segs with
  | nil => rfl
  | cons w ws ih =>
    cases segs with
    | nil => rfl
    | cons seg segs =>
      rw [describe, ih fun v hv => h v (by simp [hv]), update_of_ne (h w (by simp))]

/-- Each entry has the descriptor of its segment. -/
theorem describe_of_mem {privilege : Word} {gdt : Word → SegDesc} {segs : List Segment}
    {seg : Segment} (hnd : ws.Nodup) (hlt : ∀ w ∈ ws, w < noAvlDscrpts) (h : (w, seg) ∈ ws.zip segs) :
    describe privilege gdt ws segs (w * 8) = segmentDesc privilege seg := by
  induction ws generalizing gdt segs with
  | nil => exact absurd h (by simp)
  | cons v ws ih =>
    obtain ⟨hv, hnd⟩ := List.nodup_cons.1 hnd
    cases segs with
    | nil => exact absurd h (by simp)
    | cons seg' segs =>
      rw [describe]
      rw [List.zip_cons_cons, List.mem_cons] at h
      rcases h with h | h
      · obtain ⟨rfl, rfl⟩ := Prod.mk.inj h
        rw [describe_of_notMem, update_self]
        intro u hu heq
        have hwu := congrArg (· / 8) heq
        rw [index_offset (hlt w (by simp)), index_offset (hlt u (by simp [hu]))] at hwu
        exact hv (hwu ▸ hu)
      · exact ih hnd (fun u hu => hlt u (by simp [hu])) h

/-! ## Processes -/

/-- The selectors that go into the slot, one for each segment. -/
def selectorOf (a : ProcessArgs) (ws : List Word) (i : Nat) : BitVec 16 :=
  ((ws.map (· * 8)).getD i 0 + a.privilege).setWidth 16

/-- The descriptor of the task of the process `p`. -/
def tssDesc (p : Ptr) (a : ProcessArgs) : SegDesc :=
  encode sizeofTss (kernelBase + p) (a.above 0 <<< 7) ((0 <<< 1 ||| 1 <<< 7) ||| 0b1001)

/-- `create_process` takes the first seven free entries: six for the segments, and the last one
for the task state. -/
theorem createProcess_eq {tss : Word} (hslot : s.emptySlot (maxNoProcs + 1) 0 = some p)
    (hsegs : ∀ seg ∈ a.segments, Roomy seg) (hlen : ws.length = 6)
    (hfree : FreeList s (ws ++ tss :: rest)) :
    ∃ k, s.createProcess a = some (k.fillSlot p a (tss * 8) (selectorOf a ws), p) ∧ TableOnly s k ∧
      FreeList k rest ∧
      k.gdt = update (describe a.privilege s.gdt ws a.segments) (tss * 8) (tssDesc p a) ∧
      ∀ last < 8192, (∀ w ∈ ws ++ [tss], w.toNat ≤ last) → s.EndsBy last → k.EndsBy last := by
  obtain ⟨t, ht, honly, hfree', hgdt, hends⟩ := createSegments_eq a.privilege hsegs hlen hfree
  have htss : tss < noAvlDscrpts := hfree'.lt tss (by simp)
  refine ⟨t.writeTssDesc (tss * 8) sizeofTss (kernelBase + p) 1 0 (a.above 0), ?_,
    honly.trans (tableOnly_writeDesc ..), hfree'.writeDesc .., ?_, fun last hlast hws h => ?_⟩
  · rw [createProcess, hslot]
    dsimp only
    rw [ht, Option.bind_some]
    dsimp only
    rw [Bool.not_true, if_neg (by decide), hfree'.getFreeGdtIdx, Option.map_some,
      if_neg (offset_ne_invalid htss)]
    rfl
  · rw [← hgdt]
    exact writeDesc_gdt ..
  · exact (hends last hlast (fun w hw => hws w (by simp [hw])) h).writeDesc (hws tss (by simp)) hlast ..

end Kernel

/-! ## The run queue -/

namespace Sched

variable [Layout] {t : Sched} {v : Word} {p x : Ptr} {l : List Ptr}

/-- What `create_process` does to the scheduler. -/
def fill (v : Word) (p : Ptr) (t : Sched) : Sched :=
  { t with
    schedticks := update t.schedticks p v
    ticksleft := update t.ticksleft p v
    next := update t.next p null
    previous := update t.previous p null }

/-- A process that has not been queued yet enters at the front. -/
def enterFront (t : Sched) (p : Ptr) : Sched :=
  catchUp
    { t with
      misc := update t.misc p (t.misc p ||| Flag.enqueued)
      next := update t.next p t.schedqueue.head
      previous :=
        if t.schedqueue.head ≠ null then
          update (update t.previous p null) t.schedqueue.head p
        else update t.previous p null
      schedqueue := { t.schedqueue with head := p } } p

/-- The process is new, and nobody at the front has a larger share. -/
structure New (t : Sched) (p : Ptr) : Prop where
  off : t.isEnqueued p = false
  next : t.next p = null
  previous : t.previous p = null
  share : t.schedqueue.head ≠ null → t.schedticks t.schedqueue.head ≤ t.schedticks p

section

omit [Layout]

theorem New.enqueue (h : t.New p) : t.enqueue p = some (t.enterFront p) := by
  have hlast : ∀ m : Ptr → BitVec 8, { t with misc := m }.lastNeighboursValid p = false := by
    intro m
    rw [lastNeighboursValid, if_pos ⟨h.previous, h.next⟩]
  have hfound : ∀ (m : Ptr → BitVec 8) (n pr : Ptr → Ptr),
      { t with misc := m, next := n, previous := pr }.placeFound p t.schedqueue.head = true := by
    intro m n pr
    rw [placeFound, Bool.not_eq_true', decide_eq_false_iff_not]
    rintro ⟨hne, hlt⟩
    exact absurd hlt (BitVec.not_lt.2 (h.share hne))
  rw [Sched.enqueue, h.off, if_neg (by decide)]
  dsimp only
  rw [hlast, if_neg (by decide), insert]
  dsimp only
  rw [PointerList.walk_eq (l := []) rfl (by simp) (hfound ..) (by decide)]
  rw [Option.map_some, Option.map_some]
  congr 1
  rw [enterFront]
  congr 1
  simp only [List.getLastD_nil, if_true, Function.update_idem]
  split
  next => rfl
  next => rfl

@[simp] theorem fill_head : (t.fill v p).schedqueue = t.schedqueue := rfl

/-- A share for a process that is not the one that enters leaves its ticks as they are. -/
theorem fill_catchUp (hpx : p ≠ x) : (t.catchUp x).fill v p = (t.fill v p).catchUp x := by
  have hshare : update t.schedticks p v x = t.schedticks x := update_of_ne hpx.symm _ _
  have hticks : update t.ticksleft p v x = t.ticksleft x := update_of_ne hpx.symm _ _
  unfold catchUp
  dsimp only [fill]
  rw [hshare, hticks]
  split
  next =>
    dsimp only
    rw [update_comm hpx.symm, update_self, update_self]
  next =>
    dsimp only
    rw [update_comm hpx.symm, update_self, update_self]

/-- Creating a process does not disturb one that enters. -/
theorem fill_enterFront (hpx : p ≠ x) (hhead : p ≠ t.schedqueue.head) :
    (t.enterFront x).fill v p = (t.fill v p).enterFront x := by
  rw [enterFront, fill_catchUp hpx, enterFront, fill_head]
  congr 1
  dsimp only [fill]
  rw [update_comm hpx.symm]
  cases Decidable.em (t.schedqueue.head = null) with
  | inl hnull => rw [if_neg (not_not.2 hnull), if_neg (not_not.2 hnull), update_comm hpx.symm]
  | inr hne =>
    rw [if_pos hne, if_pos hne, update_comm hhead.symm, update_comm hpx.symm]

@[simp] theorem enterFront_head : (t.enterFront p).schedqueue.head = p := by
  unfold enterFront catchUp
  dsimp only

/-- Processes of the same share, created and queued one after the other. -/
def launch (v : Word) (t : Sched) (p : Ptr) : Sched := (t.fill v p).enterFront p

theorem fills_enterFront (hx : x ∉ l) (hhead : t.schedqueue.head ∉ l) :
    l.foldl (fun t p => t.fill v p) (t.enterFront x) =
      (l.foldl (fun t p => t.fill v p) t).enterFront x := by
  induction l generalizing t with
  | nil => rfl
  | cons y l ih =>
    obtain ⟨hxy, hxl⟩ := not_or.1 (mt List.mem_cons.2 hx)
    obtain ⟨hhy, hhl⟩ := not_or.1 (mt List.mem_cons.2 hhead)
    rw [List.foldl_cons, List.foldl_cons, fill_enterFront (Ne.symm hxy) (Ne.symm hhy)]
    exact ih hxl hhl

/-- Launching the processes is creating all of them first, and then queueing them. -/
theorem launches_eq (hnd : l.Nodup) (hhead : t.schedqueue.head ∉ l) :
    l.foldl (launch v) t = l.foldl enterFront (l.foldl (fun t p => t.fill v p) t) := by
  induction l generalizing t with
  | nil => rfl
  | cons x l ih =>
    obtain ⟨hxl, hnd⟩ := List.nodup_cons.1 hnd
    obtain ⟨-, hhl⟩ := not_or.1 (mt List.mem_cons.2 hhead)
    rw [List.foldl_cons, List.foldl_cons, List.foldl_cons, ih hnd (by simpa [launch] using hxl),
      launch, fills_enterFront (t := t.fill v x) hxl hhl]

/-- The scheduler once the processes of a list have been created with the share `v`. -/
theorem fills_created (l : List Ptr) (schedticks : Ptr → Word) :
    l.foldl (fun t p => t.fill v p) (created schedticks) =
      created fun x => if x ∈ l then v else schedticks x := by
  induction l generalizing schedticks with
  | nil => simp
  | cons p l ih =>
    have hfill : (created schedticks).fill v p = created (update schedticks p v) := by
      simp [fill, created]
    rw [List.foldl_cons, hfill, ih]
    congr 1
    funext x
    by_cases hxl : x ∈ l
    · simp [hxl]
    · by_cases hxp : x = p
      · simp [hxp]
      · simp [hxl, hxp]

/-! ## Entering -/

@[simp] theorem enterFront_schedticks : (t.enterFront p).schedticks = t.schedticks := by
  unfold enterFront catchUp
  dsimp only
  split
  next => rfl
  next => rfl

theorem enterFront_misc : (t.enterFront p).misc = update t.misc p (t.misc p ||| Flag.enqueued) := by
  unfold enterFront catchUp
  dsimp only
  split
  next => rfl
  next => rfl

theorem enterFront_next : (t.enterFront p).next = update t.next p t.schedqueue.head := by
  unfold enterFront catchUp
  dsimp only
  split
  next => rfl
  next => rfl

theorem enterFront_previous (hx : x ≠ t.schedqueue.head) (hxp : x ≠ p) :
    (t.enterFront p).previous x = t.previous x := by
  unfold enterFront catchUp
  dsimp only
  split
  all_goals
    dsimp only
    split
    next => rw [update_of_ne hx, update_of_ne hxp]
    next => rw [update_of_ne hxp]

/-- The processes of `l` have the share `v` and are new, and so has the one at the front. -/
structure AllNew (t : Sched) (v : Word) (l : List Ptr) : Prop where
  new : ∀ x ∈ l, t.New x
  share : ∀ x ∈ l, t.schedticks x = v
  head : t.schedqueue.head ∉ l

theorem AllNew.enterFront (h : t.AllNew v (p :: l)) (hpl : p ∉ l) : (t.enterFront p).AllNew v l := by
  have hshare : ∀ x ∈ l, (t.enterFront p).schedticks x = v := fun x hx => by
    rw [enterFront_schedticks]
    exact h.share x (by simp [hx])
  refine ⟨fun x hx => ?_, hshare, by simpa using hpl⟩
  have hxp : x ≠ p := ne_of_mem_of_not_mem hx hpl
  have hxh : x ≠ t.schedqueue.head := ne_of_mem_of_not_mem (List.mem_cons_of_mem p hx) h.head
  have hnew := h.new x (by simp [hx])
  refine ⟨?_, ?_, ?_, fun _ => ?_⟩
  · rw [isEnqueued, enterFront_misc, update_of_ne hxp]
    exact hnew.off
  · rw [enterFront_next, update_of_ne hxp]
    exact hnew.next
  · rw [enterFront_previous hxh hxp]
    exact hnew.previous
  · rw [enterFront_head, hshare x hx, enterFront_schedticks, h.share p (by simp)]
    exact BitVec.le_refl v

/-- New processes are queued one after the other, each at the front. -/
theorem AllNew.enqueues (h : t.AllNew v l) (hnd : l.Nodup) :
    l.foldlM enqueue t = some (l.foldl Sched.enterFront t) := by
  induction l generalizing t with
  | nil => rfl
  | cons p l ih =>
    obtain ⟨hpl, hnd⟩ := List.nodup_cons.1 hnd
    rw [List.foldlM_cons, (h.new p (by simp)).enqueue, List.foldl_cons]
    exact ih (h.enterFront hpl) hnd

theorem created_off (schedticks : Ptr → Word) (x : Ptr) :
    (created schedticks).isEnqueued x = false := by simp [isEnqueued, created]

/-- The scheduler that launching processes leads to is the one of a system that has created them
all, and then enqueued them in order. -/
theorem launched_sched (hnd : l.Nodup) (hnull : null ∉ l) :
    l.foldlM enqueue (created fun x => if x ∈ l then v else 0) =
      some (l.foldl (launch v) (created fun _ => 0)) := by
  rw [launches_eq hnd hnull, fills_created]
  refine AllNew.enqueues (v := v) ⟨fun x hx => ?_, fun x hx => if_pos hx, hnull⟩ hnd
  exact ⟨created_off _ x, rfl, rfl, fun hne => absurd rfl hne⟩

/-! ## Launching -/

theorem launch_schedticks : (launch v t p).schedticks = update t.schedticks p v := by
  rw [launch, enterFront_schedticks]
  rfl

theorem launch_misc : (launch v t p).misc = update t.misc p (t.misc p ||| Flag.enqueued) := by
  rw [launch, enterFront_misc]
  rfl

/-- The processes that have been launched, seen from outside. -/
structure Launched (v : Word) (t : Sched) (l : List Ptr) : Prop where
  off : ∀ x ∉ l, t.isEnqueued x = false
  share : ∀ x ∈ l, t.schedticks x = v
  head : t.schedqueue.head = null ∨ t.schedqueue.head ∈ l

theorem launched_created (v : Word) : Launched v (created fun _ => 0) [] :=
  ⟨fun x _ => created_off _ x, by simp, Or.inl rfl⟩

/-- One process more. -/
theorem Launched.launch (h : Launched v t l) : Launched v (launch v t p) (l ++ [p]) := by
  refine ⟨fun x hx => ?_, fun x hx => ?_, Or.inr (by simp [Sched.launch])⟩
  · rw [List.mem_append, List.mem_singleton, not_or] at hx
    rw [isEnqueued, launch_misc, update_of_ne hx.2]
    exact h.off x hx.1
  · rw [launch_schedticks]
    by_cases hxp : x = p
    · rw [hxp, update_self]
    · rw [update_of_ne hxp]
      exact h.share x (by simpa [hxp] using hx)

/-- The process that has been created is enqueued. -/
theorem Launched.enqueue (h : Launched v t l) (hp : p ∉ l) :
    (t.fill v p).enqueue p = some (Sched.launch v t p) := by
  refine New.enqueue ⟨h.off p hp, update_self .., update_self .., fun hne => ?_⟩
  have hmem := h.head.resolve_left hne
  have hhead : t.schedqueue.head ≠ p := ne_of_mem_of_not_mem hmem hp
  show update t.schedticks p v t.schedqueue.head ≤ update t.schedticks p v p
  rw [update_self, update_of_ne hhead, h.share _ hmem]
  exact BitVec.le_refl v

end

end Sched

end Mycrokernel
