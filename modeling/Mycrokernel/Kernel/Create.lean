import Mycrokernel.Kernel.Bitmap

/-!
# Creating a process

`create_process` takes the first slot of the process table that is `EMPTY`, allocates
a GDT entry for each segment that has a base and one for the task state, and fills in
the slot.  Its six blocks for the segments differ in their arguments only
(`createSegment`).  When it gives up, at the label `finish`, it frees the entries it
has allocated so far.

`createProcess_cases` says what a call can do.
-/

namespace Mycrokernel

open Function (update)

/-- `NO_BASE`. -/
def noBase : Word := 0xffffffff

/-- `INVALID_GDT_IDX`, as the C code defines it. -/
def invalidGdtIdx : Word := 8192 * 8

/-- The `_type` of a segment: `CODE`, `DATA`, `STACK`. -/
inductive SegType where
  | code
  | data
  | stack
deriving DecidableEq

/-- The arguments of `create_process`, and what its call of `write_tss_desc` finds on the stack
above the words it has pushed.  `name` holds the characters before the `NUL`. -/
structure ProcessArgs where
  privilege : Word
  schedticks : Word
  start : Word
  csegmBase : Word
  dsegmBase : Word
  esegmBase : Word
  fsegmBase : Word
  gsegmBase : Word
  ssegmBase : Word
  csegmLimit : Word
  dsegmLimit : Word
  esegmLimit : Word
  fsegmLimit : Word
  gsegmLimit : Word
  ssegmLimit : Word
  name : List (BitVec 8)
  above : Nat → Word := fun _ => 0

/-- What the block for one segment is about. -/
structure Segment where
  type : SegType
  video : Bool
  base : Word
  limit : Word

/-- The segments, in the order of the blocks. -/
def ProcessArgs.segments (a : ProcessArgs) : List Segment :=
  [⟨.code, false, a.csegmBase, a.csegmLimit⟩, ⟨.data, false, a.dsegmBase, a.dsegmLimit⟩,
    ⟨.data, false, a.esegmBase, a.esegmLimit⟩, ⟨.data, false, a.fsegmBase, a.fsegmLimit⟩,
    ⟨.data, true, a.gsegmBase, a.gsegmLimit⟩, ⟨.data, false, a.ssegmBase, a.ssegmLimit⟩]

/-! ## Names -/

section Strncpy

variable {num : Nat} {src : List (BitVec 8)} {i j : Fin num}

/-- The loop of `strncpy` over the characters from `i` on. -/
def strncpyFrom (src : List (BitVec 8)) : Nat → Nat → (Fin num → BitVec 8) → Fin num → BitVec 8
  | 0, _, dst => dst
  | n + 1, i, dst =>
    let dst := fun j => if j.val = i then src.getD i 0 else dst j
    if src.getD i 0 = 0 then dst else strncpyFrom src n (i + 1) dst

/-- `strncpy` into an array of `num` characters. -/
def strncpy (dst : Fin num → BitVec 8) (src : List (BitVec 8)) : Fin num → BitVec 8 :=
  let dst := strncpyFrom src num 0 dst
  fun j => if j.val = num - 1 then 0 else dst j

/-- The loop leaves the characters behind the first `NUL`. -/
theorem strncpyFrom_apply (n i : Nat) (dst : Fin num → BitVec 8) (hn : i + n = num) (j : Fin num) :
    strncpyFrom src n i dst j =
      if i ≤ j.val ∧ ∀ m, i ≤ m → m < j.val → src.getD m 0 ≠ 0 then src.getD j.val 0 else dst j := by
  induction n generalizing i dst with
  | zero =>
    rw [strncpyFrom, if_neg]
    rintro ⟨hle, -⟩
    have hlt := j.isLt
    omega
  | succ n ih =>
    rw [strncpyFrom]
    cases Decidable.em (src.getD i 0 = 0) with
    | inl hnul =>
      rw [if_pos hnul]
      obtain hlt | rfl | hgt := Nat.lt_trichotomy j.val i
      · rw [if_neg (Nat.ne_of_lt hlt), if_neg fun h => absurd h.1 (Nat.not_le_of_lt hlt)]
      · rw [if_pos rfl, if_pos ⟨Nat.le_refl _, fun m hm hlt => absurd hlt (Nat.not_lt_of_le hm)⟩]
      · rw [if_neg (Nat.ne_of_gt hgt), if_neg fun h => h.2 i (Nat.le_refl i) hgt hnul]
    | inr hchar =>
      rw [if_neg hchar, ih _ _ (by omega)]
      obtain hlt | rfl | hgt := Nat.lt_trichotomy j.val i
      · rw [if_neg fun h => absurd h.1 (by omega), if_neg (Nat.ne_of_lt hlt),
          if_neg fun h => absurd h.1 (Nat.not_le_of_lt hlt)]
      · rw [if_neg fun h => absurd h.1 (by omega), if_pos rfl,
          if_pos ⟨Nat.le_refl _, fun m hm hlt => absurd hlt (Nat.not_lt_of_le hm)⟩]
      · rw [if_neg (Nat.ne_of_gt hgt)]
        refine if_congr ⟨fun h => ⟨hgt.le, fun m hm hlt => ?_⟩, fun h => ⟨hgt, fun m hm => ?_⟩⟩ rfl rfl
        · obtain rfl | hlt' := Nat.eq_or_lt_of_le hm
          · exact hchar
          · exact h.2 m hlt' hlt
        · exact h.2 m (Nat.le_of_succ_le hm)

/-- `strncpy` does not write the character: it is behind a `NUL`, and is not the last one. -/
def Unwritten (src : List (BitVec 8)) (j : Fin num) : Prop :=
  j.val ≠ num - 1 ∧ ∃ m < j.val, src.getD m 0 = 0

theorem strncpy_apply (dst : Fin num → BitVec 8) (hj : ¬ Unwritten src j) :
    strncpy dst src j = if j.val = num - 1 then 0 else src.getD j.val 0 := by
  unfold strncpy
  split
  next => rfl
  next hlast =>
    rw [strncpyFrom_apply _ _ _ (Nat.zero_add num), if_pos]
    exact ⟨Nat.zero_le _, fun m _ hlt hnul => hj ⟨hlast, m, hlt, hnul⟩⟩

theorem strncpy_unwritten (dst : Fin num → BitVec 8) (hj : Unwritten src j) :
    strncpy dst src j = dst j := by
  obtain ⟨hlast, m, hlt, hnul⟩ := hj
  unfold strncpy
  rw [if_neg hlast, strncpyFrom_apply _ _ _ (Nat.zero_add num), if_neg]
  exact fun h => h.2 m (Nat.zero_le m) hlt hnul

/-- Copies of one string are the same if the arrays were the same where nothing is written. -/
theorem strncpy_eq_iff {dst dst' : Fin num → BitVec 8} :
    strncpy dst src = strncpy dst' src ↔ ∀ j, Unwritten src j → dst j = dst' j := by
  constructor
  · intro heq j hj
    rw [← strncpy_unwritten dst hj, heq, strncpy_unwritten dst' hj]
  · intro hsame
    funext j
    cases Classical.em (Unwritten src j) with
    | inl hj => rw [strncpy_unwritten dst hj, strncpy_unwritten dst' hj, hsame j hj]
    | inr hj => rw [strncpy_apply dst hj, strncpy_apply dst' hj]

end Strncpy

/-- `memAreaValid`. -/
def memAreaValid (base limit : Word) (video : Bool) : Bool :=
  let lowerBound : Word := if video then 0xc0000 else 0xa0000
  if lowerBound < base ∧ base < 0x100000 then false
  else if base ≤ lowerBound ∧ lowerBound < base + limit then false
  else true

namespace Kernel

variable [Layout]

/-! ## Descriptors -/

/-- What `_write_tss_desc` and `_write_segment_desc` share: `attr` goes to `props2` with the
high part of the limit, `access` to `props1`. -/
def writeDesc (s : Kernel) (index limit base attr access : Word) : Kernel :=
  let s :=
    if s.gdtLimit < index.setWidth 16 then
      { s with gdtLimit := (index + 8 - 1).setWidth 16 }
    else s
  let desc : SegDesc := {
    limit := limit.setWidth 16
    props2 := (limit >>> 16 ||| attr).setWidth 8
    base1 := base.setWidth 16
    base2 := (base >>> 16).setWidth 8
    base3 := (base >>> 24).setWidth 8
    props1 := access.setWidth 8 }
  { s with gdt := update s.gdt index desc }.unfreeGdtIdx index

/-- `_write_tss_desc`. -/
def writeTssDesc (s : Kernel) (index limit base present busy granularity : Word) : Kernel :=
  s.writeDesc index limit base (granularity <<< 7) ((busy <<< 1 ||| present <<< 7) ||| 0b1001)

/-- The stack from the first argument of a call on: the words pushed and those above. -/
def cdecl (pushed : List Word) (above : Nat → Word) (i : Nat) : Word :=
  pushed.getD i (above (i - pushed.length))

/-- `write_tss_desc`, with its arguments on the stack.  It has a parameter `privilege` before
`busy` that its C prototype lacks. -/
def cWriteTssDesc (s : Kernel) (stack : Nat → Word) : Kernel :=
  let index := stack 0
  let limit := stack 1
  let base := stack 2
  let present := stack 3
  let _privilege := stack 4
  let busy := stack 5
  let granularity := stack 6
  s.writeTssDesc index limit base present busy granularity

/-- `_write_segment_desc`. -/
def writeSegmentDesc (s : Kernel) (index limit base present privilege : Word) (type : SegType)
    (granularity : Word) : Kernel :=
  let bits : Word := match type with
    | .code => 0b11010
    | .data => 0b10010
    | .stack => 0b10110
  s.writeDesc index limit base (granularity <<< 7 ||| 0b1000000)
    ((privilege <<< 5 ||| present <<< 7) ||| bits)

/-! ## Segments -/

/-- The limit of a segment in pages.  The mask takes ten bits where a page has twelve. -/
def pageLimit (limit : Word) : Word :=
  if limit &&& 0x3ff = 0 then limit >>> 12 else (limit >>> 12) + 1

/-- The block of `create_process` for one segment: the state after it and the index of the
segment, or no index if the block goes to `finish`. -/
def createSegment (s : Kernel) (privilege : Word) (a : Segment) : Option (Kernel × Option Word) :=
  if a.base = noBase then some (s, some invalidGdtIdx)
  else if !memAreaValid a.base a.limit a.video then some (s, none)
  else
    s.getFreeGdtIdx.map fun idx =>
      if idx = invalidGdtIdx then (s, none)
      else if 0xfffff < a.limit then
        (s.writeSegmentDesc idx (pageLimit a.limit) a.base 1 privilege a.type 1, some idx)
      else (s.writeSegmentDesc idx a.limit a.base 1 privilege a.type 0, some idx)

/-- The blocks one after the other: the state, the indices, and whether none has gone to
`finish`. -/
def createSegments (privilege : Word) :
    List Segment → Kernel → Option (Kernel × List Word × Bool)
  | [], s => some (s, [], true)
  | a :: as, s =>
    (s.createSegment privilege a).bind fun (s, idx) =>
      match idx with
      | none => some (s, [], false)
      | some idx =>
        (createSegments privilege as s).map fun (s, idxs, ok) => (s, idx :: idxs, ok)

/-- What `create_process` does with an index at `finish`. -/
def freeIfValid (s : Kernel) (idx : Word) : Kernel :=
  if idx ≠ invalidGdtIdx then s.freeGdtIdx idx else s

/-! ## Slots -/

/-- The loop of `create_process` over the process table.  It ends at the entry after the last
one of `pproctab`, whatever stands there. -/
def emptySlot (s : Kernel) : Nat → Nat → Option Ptr
  | 0, _ => none
  | n + 1, idx =>
    let process := proctab idx
    if process = proctab maxNoProcs then none
    else if s.state process = Flag.empty then some process
    else s.emptySlot n (idx + 1)

/-- The assignments of `create_process` to the slot it has found. -/
def fillSlot (s : Kernel) (process : Ptr) (a : ProcessArgs) (tssIdx : Word)
    (selector : Nat → BitVec 16) : Kernel :=
  let sched := s.sched
  { s with
    idxTss := update s.idxTss process (tssIdx.setWidth 16)
    sched := { sched with
      schedticks := update sched.schedticks process a.schedticks
      ticksleft := update sched.ticksleft process a.schedticks
      next := update sched.next process null
      previous := update sched.previous process null }
    regs := update s.regs process { s.regs process with
      espReg := a.ssegmLimit
      ebpReg := a.ssegmLimit
      eipReg := a.start
      eflagReg := 0x200
      csReg := selector 0
      dsReg := selector 1
      esReg := selector 2
      fsReg := selector 3
      gsReg := selector 4
      ssReg := selector 5 }
    state := update s.state process 0
    callMask := update s.callMask process 0
    firstSender := update s.firstSender process null
    nextSender := update s.nextSender process null
    receivingFrom := update s.receivingFrom process null
    iomapBase := update s.iomapBase process (sizeofTss.setWidth 16)
    procname := update s.procname process (strncpy (s.procname process) a.name) }

/-- `create_process`, with the process it returns. -/
def createProcess (s : Kernel) (a : ProcessArgs) : Option (Kernel × Ptr) :=
  match s.emptySlot (maxNoProcs + 1) 0 with
  | none => some (s, null)
  | some process =>
    (createSegments a.privilege a.segments s).bind fun (s, idxs, ok) =>
      if !ok then some (idxs.foldl freeIfValid s, null)
      else
        s.getFreeGdtIdx.map fun tssIdx =>
          if tssIdx = invalidGdtIdx then (idxs.foldl freeIfValid s, null)
          else
            let s := s.cWriteTssDesc
              (cdecl [tssIdx, sizeofTss, kernelBase + process, 1, 1, 0] a.above)
            let selector i := (idxs.getD i 0 + a.privilege).setWidth 16
            (s.fillSlot process a tssIdx selector, process)

/-! ## What allocating entries changes -/

variable {s k l : Kernel} {a : ProcessArgs} {p : Ptr} {w : Word} {ws idxs : List Word}

/-- The state after changes to the GDT and its bitmap. -/
def GdtOnly (s k : Kernel) : Prop :=
  { s with kmem := k.kmem, gdt := k.gdt, gdtLimit := k.gdtLimit, usedGdt := k.usedGdt,
           freedGdt := k.freedGdt } = k

omit [Layout] in
theorem GdtOnly.refl (s : Kernel) : GdtOnly s s := rfl

omit [Layout] in
theorem GdtOnly.trans (h : GdtOnly s k) (h' : GdtOnly k l) : GdtOnly s l := by
  unfold GdtOnly at h h' ⊢
  rw [← h] at h'
  exact h'

theorem gdtOnly_writeDesc (s : Kernel) (index limit base attr access : Word) :
    GdtOnly s (s.writeDesc index limit base attr access) := by
  unfold writeDesc
  dsimp only
  split
  · rfl
  · rfl

theorem gdtOnly_freeIfValid (s : Kernel) (w : Word) : GdtOnly s (s.freeIfValid w) := by
  unfold freeIfValid
  split
  · rfl
  · rfl

theorem gdtOnly_frees (s : Kernel) (ws : List Word) : GdtOnly s (ws.foldl freeIfValid s) := by
  induction ws generalizing s with
  | nil => exact .refl s
  | cons w ws ih => exact (gdtOnly_freeIfValid s w).trans (ih _)

theorem writeDesc_kmem (s : Kernel) (index limit base attr access : Word) :
    (s.writeDesc index limit base attr access).kmem =
      unfreeBitInBitfield s.kmem Layout.gdtBitmap (index / 8) := by
  unfold writeDesc
  dsimp only
  split
  · rfl
  · rfl

theorem writeDesc_usedGdt (s : Kernel) (index limit base attr access : Word) :
    (s.writeDesc index limit base attr access).usedGdt = index :: s.usedGdt := by
  unfold writeDesc
  dsimp only
  split
  · rfl
  · rfl

/-- Index `i` of the GDT bitmap is marked. -/
def gdtBit (s : Kernel) (i : Word) : Bool := bit s.kmem Layout.gdtBitmap i

theorem writeDesc_gdtBit (s : Kernel) (index limit base attr access i : Word) :
    (s.writeDesc index limit base attr access).gdtBit i =
      if i = index / 8 then true else s.gdtBit i := by
  rw [gdtBit, writeDesc_kmem]
  exact (unfreeBitInBitfield_spec s.kmem _ _).bit_eq i

/-- `get_free_gdt_idx` returns `w`, and `w` is valid. -/
structure Available (s : Kernel) (w : Word) : Prop where
  eq : s.getFreeGdtIdx = some w
  multiple : w / 8 * 8 = w
  lt : w / 8 < noAvlDscrpts
  clear : s.gdtBit (w / 8) = false
  below : ∀ j < w / 8, s.gdtBit j = true

/-- `get_free_gdt_idx` returns. -/
theorem getFreeGdtIdx_cases (s : Kernel) :
    s.getFreeGdtIdx = some invalidGdtIdx ∨ ∃ w ≠ invalidGdtIdx, Available s w := by
  obtain ⟨r, hr, hleast⟩ := getFreeBitInBitfield_spec s.kmem Layout.gdtBitmap noAvlDscrpts
  have heq : s.getFreeGdtIdx = some (r * 8) := by rw [getFreeGdtIdx, hr, Option.map_some]
  cases hleast with
  | inr hnone =>
      rw [hnone.1] at heq
      exact .inl heq
  | inl hmem =>
      have hdiv : r * 8 / 8 = r := gdtIndices.value_div (BitVec.le_of_lt hmem.1.1)
      have hbelow : ∀ j < r, s.gdtBit j = true := by
        intro j hj
        cases hbit : s.gdtBit j with
        | true => rfl
        | false =>
            have hle := hmem.2 ⟨BitVec.lt_trans hj hmem.1.1, hbit⟩
            exact absurd hj (BitVec.not_lt.mpr hle)
      refine .inr ⟨r * 8, ?_, heq, by rw [hdiv], by rw [hdiv]; exact hmem.1.1,
        by rw [hdiv]; exact hmem.1.2, by rw [hdiv]; exact hbelow⟩
      intro hinv
      have hr : r = noAvlDscrpts := by rw [← hdiv, hinv]; rfl
      exact absurd hmem.1.1 (by rw [hr]; exact BitVec.lt_irrefl _)

theorem available_of_eq (h : s.getFreeGdtIdx = some w) (hw : w ≠ invalidGdtIdx) :
    Available s w := by
  rcases getFreeGdtIdx_cases s with hinv | ⟨v, -, hv⟩
  · exact absurd (Option.some.inj (h.symm.trans hinv)) hw
  · obtain rfl := Option.some.inj (h.symm.trans hv.eq)
    exact hv

/-- Entries of the GDT are allocated and filled in one after the other. -/
inductive Allocated : Kernel → List Word → Kernel → Prop where
  | nil (s : Kernel) : Allocated s [] s
  | cons {s k : Kernel} {w : Word} {ws : List Word} (limit base attr access : Word) :
      Available s w → Allocated (s.writeDesc w limit base attr access) ws k →
        Allocated s (w :: ws) k

namespace Allocated

theorem gdtOnly (h : Allocated s ws k) : GdtOnly s k := by
  induction h with
  | nil s => exact .refl s
  | cons limit base attr access _ _ ih => exact (gdtOnly_writeDesc ..).trans ih

theorem usedGdt (h : Allocated s ws k) : k.usedGdt = ws.reverse ++ s.usedGdt := by
  induction h with
  | nil s => rfl
  | cons limit base attr access _ _ ih => rw [ih, writeDesc_usedGdt, List.reverse_cons,
      List.append_assoc, List.singleton_append]

/-- The entries that were marked before, and those allocated, are marked. -/
theorem gdtBit_iff (h : Allocated s ws k) (i : Word) :
    k.gdtBit i = true ↔ s.gdtBit i = true ∨ i ∈ ws.map (· / 8) := by
  induction h with
  | nil s => simp
  | cons limit base attr access _ _ ih =>
      rw [ih, writeDesc_gdtBit, List.map_cons, List.mem_cons]
      split
      next hi => simp [hi]
      next hi => rw [or_iff_right hi]

theorem multiple (h : Allocated s ws k) : ∀ w ∈ ws, w / 8 * 8 = w := by
  induction h with
  | nil s => simp
  | cons limit base attr access hw _ ih =>
      intro v hv
      cases hv with
      | head => exact hw.multiple
      | tail _ hv => exact ih v hv

theorem lt (h : Allocated s ws k) : ∀ w ∈ ws, w / 8 < noAvlDscrpts := by
  induction h with
  | nil s => simp
  | cons limit base attr access hw _ ih =>
      intro v hv
      cases hv with
      | head => exact hw.lt
      | tail _ hv => exact ih v hv

/-- Once an entry has been allocated, the entry 0 is marked. -/
theorem zero_marked (h : Allocated s ws k) (hne : ws ≠ []) : k.gdtBit 0 = true := by
  cases h with
  | nil => exact absurd rfl hne
  | cons limit base attr access hw h =>
      rw [h.gdtBit_iff, writeDesc_gdtBit]
      split
      next => exact .inl rfl
      next hzero => exact .inl (hw.below 0 ((BitVec.pos_iff_ne_zero _).mpr (Ne.symm hzero)))

end Allocated

/-! ## What the blocks do -/

theorem createSegment_cases {privilege : Word} {seg : Segment} {idx : Option Word}
    (h : s.createSegment privilege seg = some (k, idx)) :
    (k = s ∧ (idx = none ∨ seg.base = noBase ∧ idx = some invalidGdtIdx)) ∨
      seg.base ≠ noBase ∧ ∃ w ≠ invalidGdtIdx, Available s w ∧ idx = some w ∧
        ∃ limit base attr access, k = s.writeDesc w limit base attr access := by
  unfold createSegment at h
  split at h
  next hbase =>
    simp only [Option.some.injEq, Prod.mk.injEq] at h
    obtain ⟨rfl, rfl⟩ := h
    exact .inl ⟨rfl, .inr ⟨hbase, rfl⟩⟩
  next hbase =>
    split at h
    next =>
      simp only [Option.some.injEq, Prod.mk.injEq] at h
      obtain ⟨rfl, rfl⟩ := h
      exact .inl ⟨rfl, .inl rfl⟩
    next =>
      obtain ⟨w, hw, h⟩ := Option.map_eq_some_iff.mp h
      split at h
      next =>
        simp only [Prod.mk.injEq] at h
        obtain ⟨rfl, rfl⟩ := h
        exact .inl ⟨rfl, .inl rfl⟩
      next hinv =>
        refine .inr ⟨hbase, w, hinv, available_of_eq hw hinv, ?_⟩
        split at h
        next =>
          simp only [Prod.mk.injEq] at h
          obtain ⟨rfl, rfl⟩ := h
          exact ⟨rfl, _, _, _, _, rfl⟩
        next =>
          simp only [Prod.mk.injEq] at h
          obtain ⟨rfl, rfl⟩ := h
          exact ⟨rfl, _, _, _, _, rfl⟩

/-- The indices that are valid are those of the entries allocated; if no block has failed,
there is one for each segment, and it is invalid where the segment has no base. -/
structure Blocks (segs : List Segment) (s : Kernel) (idxs : List Word) (ok : Bool) (k : Kernel) :
    Prop where
  allocated : Allocated s (idxs.filter (· ≠ invalidGdtIdx)) k
  present : ok = true → idxs.map (· ≠ invalidGdtIdx) = segs.map fun seg => seg.base ≠ noBase

theorem createSegments_spec {privilege : Word} {segs : List Segment} {ok : Bool}
    (h : createSegments privilege segs s = some (k, idxs, ok)) : Blocks segs s idxs ok k := by
  induction segs generalizing s idxs with
  | nil =>
      obtain ⟨rfl, rfl, rfl⟩ : s = k ∧ [] = idxs ∧ true = ok := by
        simpa only [createSegments, Option.some.injEq, Prod.mk.injEq] using h
      exact ⟨.nil s, fun _ => rfl⟩
  | cons seg segs ih =>
      rw [createSegments, Option.bind_eq_some_iff] at h
      obtain ⟨⟨t, idx⟩, hseg, h⟩ := h
      rcases createSegment_cases hseg with ⟨rfl, rfl | ⟨hbase, rfl⟩⟩ |
        ⟨hbase, w, hinv, hw, rfl, limit, base, attr, access, rfl⟩
      · obtain ⟨rfl, rfl, rfl⟩ : t = k ∧ [] = idxs ∧ false = ok := by
          simpa only [Option.some.injEq, Prod.mk.injEq] using h
        exact ⟨.nil t, fun hok => absurd hok (by decide)⟩
      · obtain ⟨⟨k', idxs', ok'⟩, hsegs, heq⟩ := Option.map_eq_some_iff.mp h
        obtain ⟨rfl, rfl, rfl⟩ : k' = k ∧ invalidGdtIdx :: idxs' = idxs ∧ ok' = ok := by
          simpa only [Prod.mk.injEq] using heq
        have hblocks := ih hsegs
        refine ⟨by simpa using hblocks.allocated, fun hok => ?_⟩
        rw [List.map_cons, List.map_cons, hblocks.present hok]
        simp [hbase]
      · obtain ⟨⟨k', idxs', ok'⟩, hsegs, heq⟩ := Option.map_eq_some_iff.mp h
        obtain ⟨rfl, rfl, rfl⟩ : k' = k ∧ w :: idxs' = idxs ∧ ok' = ok := by
          simpa only [Prod.mk.injEq] using heq
        have hblocks := ih hsegs
        refine ⟨?_, fun hok => ?_⟩
        · rw [List.filter_cons_of_pos (by simpa using hinv)]
          exact .cons limit base attr access hw hblocks.allocated
        · rw [List.map_cons, List.map_cons, hblocks.present hok]
          simp [hbase, hinv]

/-! ## What a call does -/

theorem emptySlot_spec {n idx : Nat} (h : s.emptySlot n idx = some p) (hn : n + idx ≤ maxNoProcs + 1) :
    s.state p = Flag.empty ∧ ∃ i < maxNoProcs, p = proctab i := by
  induction n generalizing idx with
  | zero => exact absurd h (by simp [emptySlot])
  | succ n ih =>
      rw [emptySlot] at h
      split at h
      next => exact absurd h (by simp)
      next hend =>
        split at h
        next hempty =>
          obtain rfl := Option.some.inj h
          refine ⟨hempty, idx, ?_, rfl⟩
          have hne : idx ≠ maxNoProcs := fun heq => hend (by rw [heq])
          omega
        next => exact ih h (by omega)

/-- A call that creates a process: it has taken the slot `p`, and allocated the entries
`idxs` for the segments and `tss` for the task state. -/
structure Creates (s : Kernel) (a : ProcessArgs) (s' : Kernel) (p : Ptr) (idxs : List Word)
    (tss : Word) (k : Kernel) : Prop where
  empty : s.state p = Flag.empty
  slot : ∃ i < maxNoProcs, p = proctab i
  blocks : Blocks a.segments s idxs true k
  available : Available k tss
  eq : s' = (k.writeTssDesc tss sizeofTss (kernelBase + p) 1 0 (a.above 0)).fillSlot p a tss
    fun i => (idxs.getD i 0 + a.privilege).setWidth 16

/-- The state in which the slot is filled in is the state before the call, but for the GDT. -/
theorem Creates.gdtOnly {s' : Kernel} {tss : Word} (h : Creates s a s' p idxs tss l) :
    GdtOnly s (l.writeTssDesc tss sizeofTss (kernelBase + p) 1 0 (a.above 0)) :=
  h.blocks.allocated.gdtOnly.trans (gdtOnly_writeDesc ..)

/-- A call creates a process or changes nothing but the GDT. -/
theorem createProcess_cases {s' : Kernel} (h : s.createProcess a = some (s', p)) :
    p = null ∧ GdtOnly s s' ∨ ∃ idxs tss k, Creates s a s' p idxs tss k := by
  unfold createProcess at h
  split at h
  next =>
    simp only [Option.some.injEq, Prod.mk.injEq] at h
    obtain ⟨rfl, rfl⟩ := h
    exact .inl ⟨rfl, .refl s⟩
  next process hslot =>
    obtain ⟨hempty, hproc⟩ := emptySlot_spec hslot (by omega)
    rw [Option.bind_eq_some_iff] at h
    obtain ⟨⟨k, idxs, ok⟩, hsegs, h⟩ := h
    dsimp only at h
    have hblocks := createSegments_spec hsegs
    have hfailed : GdtOnly s (idxs.foldl freeIfValid k) :=
      hblocks.allocated.gdtOnly.trans (gdtOnly_frees k idxs)
    split at h
    next =>
      simp only [Option.some.injEq, Prod.mk.injEq] at h
      obtain ⟨rfl, rfl⟩ := h
      exact .inl ⟨rfl, hfailed⟩
    next hok =>
      obtain ⟨tss, htss, h⟩ := Option.map_eq_some_iff.mp h
      split at h
      next =>
        simp only [Prod.mk.injEq] at h
        obtain ⟨rfl, rfl⟩ := h
        exact .inl ⟨rfl, hfailed⟩
      next hinv =>
        simp only [Prod.mk.injEq] at h
        obtain ⟨rfl, rfl⟩ := h
        have hok' : ok = true := by simpa using hok
        rw [hok'] at hblocks
        exact .inr ⟨idxs, tss, k, hempty, hproc, hblocks, available_of_eq htss hinv, rfl⟩

/-! ## The system with creation -/

/-- What happens in the system: an interrupt, or a call of `create_process` or `enqueue` as
`main.hla` makes them. -/
inductive Action where
  | interrupt (e : Event)
  | create (a : ProcessArgs)
  | enqueue (p : Ptr)

/-- The number of the system call an action makes. -/
def Action.call : Action → Option Nat
  | interrupt e => e.call
  | _ => none

/-- One action. -/
def act (s : Kernel) : Action → Option Kernel
  | .interrupt e => s.step e
  | .create a => (s.createProcess a).map Prod.fst
  | .enqueue p => s.enqueue p

/-- An empty process table, with the first 48 entries of the GDT in use. -/
def powerOn : Kernel :=
  { blank fun _ => 0 with
    state := fun _ => Flag.empty
    kmem := fun address => if address - Layout.gdtBitmap < 6 then 0xff else 0 }

/-- A process of privilege level 3 with six segments at one address, as `main.hla` creates
them. -/
def plainArgs : ProcessArgs where
  privilege := 3
  schedticks := 1
  start := 0
  csegmBase := 0x20000
  dsegmBase := 0x20000
  esegmBase := 0x20000
  fsegmBase := 0x20000
  gsegmBase := 0x20000
  ssegmBase := 0x20000
  csegmLimit := 0x1000
  dsegmLimit := 0x1000
  esegmLimit := 0x1000
  fsegmLimit := 0x1000
  gsegmLimit := 0x1000
  ssegmLimit := 0x1000
  name := [0x68, 0x64]

end Kernel

end Mycrokernel
