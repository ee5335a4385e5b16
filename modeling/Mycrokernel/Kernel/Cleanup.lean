import Mycrokernel.Kernel.Create

/-!
# What a failed creation leaves

`create_process` allocates entries of the GDT one after the other and gives up when a
segment is not valid or no entry is free.  The indices it knows at `finish` are those of
the entries it has allocated, so the clean-up frees each of them, once, and no other
(`creation_clean`).
-/

namespace Mycrokernel

namespace Kernel

variable [Layout] {s k : Kernel} {a : ProcessArgs} {ws idxs : List Word}

/-! ## Allocation -/

theorem writeDesc_freedGdt (s : Kernel) (index limit base attr access : Word) :
    (s.writeDesc index limit base attr access).freedGdt = s.freedGdt := by
  unfold writeDesc
  dsimp only
  split
  · rfl
  · rfl

namespace Allocated

theorem freedGdt (h : Allocated s ws k) : k.freedGdt = s.freedGdt := by
  induction h with
  | nil s => rfl
  | cons limit base attr access _ _ ih => rw [ih, writeDesc_freedGdt]

/-- The entries allocated were not marked before. -/
theorem clear (h : Allocated s ws k) : ∀ w ∈ ws, s.gdtBit (w / 8) = false := by
  induction h with
  | nil s => simp
  | cons limit base attr access hw _ ih =>
      intro v hv
      cases hv with
      | head => exact hw.clear
      | tail _ hv =>
          have hclear := ih v hv
          rw [writeDesc_gdtBit] at hclear
          split at hclear
          next => exact absurd hclear (by decide)
          next => exact hclear

/-- No entry is allocated twice. -/
theorem nodup (h : Allocated s ws k) : ws.Nodup := by
  induction h with
  | nil s => exact List.nodup_nil
  | @cons s k w ws limit base attr access _ hws ih =>
      refine List.nodup_cons.mpr ⟨fun hmem => ?_, ih⟩
      have hclear := hws.clear w hmem
      rw [writeDesc_gdtBit, if_pos rfl] at hclear
      exact absurd hclear (by decide)

end Allocated

/-! ## The blocks return -/

theorem createSegment_returns (s : Kernel) (privilege : Word) (seg : Segment) :
    ∃ k idx, s.createSegment privilege seg = some (k, idx) := by
  unfold createSegment
  split
  next => exact ⟨_, _, rfl⟩
  next =>
    split
    next => exact ⟨_, _, rfl⟩
    next =>
      obtain ⟨w, hw⟩ : ∃ w, s.getFreeGdtIdx = some w := by
        rcases getFreeGdtIdx_cases s with hinv | ⟨w, -, hw⟩
        · exact ⟨_, hinv⟩
        · exact ⟨w, hw.eq⟩
      rw [hw]
      exact ⟨_, _, rfl⟩

theorem createSegments_returns (privilege : Word) (segs : List Segment) (s : Kernel) :
    ∃ k idxs ok, createSegments privilege segs s = some (k, idxs, ok) := by
  induction segs generalizing s with
  | nil => exact ⟨s, [], true, rfl⟩
  | cons seg segs ih =>
      obtain ⟨k, idx, hseg⟩ := createSegment_returns s privilege seg
      rw [createSegments, hseg, Option.bind_some]
      dsimp only
      cases idx with
      | none => exact ⟨_, _, _, rfl⟩
      | some idx =>
          obtain ⟨l, idxs, ok, hsegs⟩ := ih k
          rw [hsegs]
          exact ⟨_, _, _, rfl⟩

/-! ## The clean-up -/

/-- The clean-up frees the indices that are valid. -/
theorem frees_freedGdt (idxs : List Word) (s : Kernel) :
    (idxs.foldl freeIfValid s).freedGdt =
      (idxs.filter (· ≠ invalidGdtIdx)).reverse ++ s.freedGdt := by
  induction idxs generalizing s with
  | nil => rfl
  | cons w idxs ih =>
      rw [List.foldl_cons, ih]
      unfold freeIfValid
      split
      next hvalid =>
        rw [List.filter_cons_of_pos (by simpa using hvalid), List.reverse_cons, List.append_assoc]
        rfl
      next hinv => rw [List.filter_cons_of_neg (by simpa using hinv)]

theorem frees_usedGdt (idxs : List Word) (s : Kernel) :
    (idxs.foldl freeIfValid s).usedGdt = s.usedGdt := by
  induction idxs generalizing s with
  | nil => rfl
  | cons w idxs ih =>
      rw [List.foldl_cons, ih]
      unfold freeIfValid
      split
      next => rfl
      next => rfl

/-- What a call of `create_process` that ends in `s'` and returns `p` has marked and freed. -/
def Clean (s s' : Kernel) (p : Ptr) : Prop :=
  ∃ marked freed, s'.usedGdt = marked ++ s.usedGdt ∧ s'.freedGdt = freed ++ s.freedGdt ∧
    (p = null → GdtOnly s s' ∧ freed.Nodup ∧ ∀ w, w ∈ freed ↔ w ∈ marked) ∧
    (p ≠ null → marked.Nodup ∧ (∀ w ∈ marked, s.gdtBit (w / 8) = false) ∧ freed = [])

/-- A call that gives up after some blocks is clean. -/
theorem Blocks.clean {segs : List Segment} {ok : Bool} (h : Blocks segs s idxs ok k) :
    Clean s (idxs.foldl freeIfValid k) null := by
  have halloc := h.allocated
  have hnd := List.nodup_reverse.mpr halloc.nodup
  refine ⟨(idxs.filter (· ≠ invalidGdtIdx)).reverse, (idxs.filter (· ≠ invalidGdtIdx)).reverse,
    ?_, ?_, fun _ => ⟨?_, hnd, fun w => Iff.rfl⟩, fun hne => absurd rfl hne⟩
  · rw [frees_usedGdt, halloc.usedGdt]
  · rw [frees_freedGdt, halloc.freedGdt]
  · exact halloc.gdtOnly.trans (gdtOnly_frees k idxs)

/-- A call that creates a process is clean. -/
theorem Creates.clean {s' : Kernel} {p : Ptr} {tss : Word} (h : Creates s a s' p idxs tss k) :
    Clean s s' p := by
  have hp : p ≠ null := by
    obtain ⟨i, hi, rfl⟩ := h.slot
    exact Layout.proctab_ne_null i hi
  have halloc := h.blocks.allocated
  have htss : k.gdtBit (tss / 8) = false := h.available.clear
  refine ⟨tss :: (idxs.filter (· ≠ invalidGdtIdx)).reverse, [], ?_, ?_, fun hnull => absurd hnull hp,
    fun _ => ⟨?_, fun w hw => ?_, rfl⟩⟩
  · rw [h.eq]
    change (k.writeTssDesc tss sizeofTss (kernelBase + p) 1 0 (a.above 0)).usedGdt = _
    rw [writeTssDesc, writeDesc_usedGdt, halloc.usedGdt, List.cons_append]
  · rw [h.eq]
    change (k.writeTssDesc tss sizeofTss (kernelBase + p) 1 0 (a.above 0)).freedGdt = _
    rw [writeTssDesc, writeDesc_freedGdt, halloc.freedGdt]
    rfl
  · refine List.nodup_cons.mpr ⟨fun hmem => ?_, List.nodup_reverse.mpr halloc.nodup⟩
    have hset := (halloc.gdtBit_iff (tss / 8)).mpr
      (.inr (List.mem_map_of_mem (List.mem_reverse.mp hmem)))
    exact absurd (hset.symm.trans htss) (by decide)
  · cases hw with
    | tail _ hw => exact halloc.clear w (List.mem_reverse.mp hw)
    | head =>
        cases hbit : s.gdtBit (tss / 8) with
        | false => rfl
        | true =>
            have hset := (halloc.gdtBit_iff (tss / 8)).mpr (.inl hbit)
            exact absurd (hset.symm.trans htss) (by decide)

/-- A call of `create_process` that returns `NULL` has changed no process, and has freed each
index it has marked, once, and no other.  One that returns a process has marked different
indices that were free, and freed none. -/
theorem creation_clean (s : Kernel) (a : ProcessArgs) :
    ∃ s' p, s.createProcess a = some (s', p) ∧ Clean s s' p := by
  unfold createProcess
  split
  next =>
    exact ⟨s, null, rfl, [], [], rfl, rfl, fun _ => ⟨.refl s, List.nodup_nil, fun w => Iff.rfl⟩,
      fun hne => absurd rfl hne⟩
  next process hslot =>
    obtain ⟨hempty, hproc⟩ := emptySlot_spec hslot (by omega)
    obtain ⟨k, idxs, ok, hsegs⟩ := createSegments_returns a.privilege a.segments s
    have hblocks := createSegments_spec hsegs
    rw [hsegs, Option.bind_some]
    dsimp only
    cases ok with
    | false => exact ⟨_, _, rfl, hblocks.clean⟩
    | true =>
        rw [if_neg (by decide)]
        rcases getFreeGdtIdx_cases k with hinv | ⟨tss, hvalid, htss⟩
        · rw [hinv, Option.map_some, if_pos rfl]
          exact ⟨_, _, rfl, hblocks.clean⟩
        · rw [htss.eq, Option.map_some, if_neg hvalid]
          exact ⟨_, _, rfl, Creates.clean ⟨hempty, hproc, hblocks, htss, rfl⟩⟩

end Kernel

end Mycrokernel
