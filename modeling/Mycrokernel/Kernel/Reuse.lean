import Mycrokernel.Kernel.IrqOwner
import Mycrokernel.Kernel.Create

/-!
# Slots that are used again

`create_process` fills in a slot of the process table field by field, and leaves out
the general registers, the pending interrupts, the pid and the flags in `misc`, and
`strncpy` leaves what is behind the end of the name.  What the last process in the
slot has left there, the new process finds (`slot_reuse_iff`).
-/

namespace Mycrokernel

open Function (update update_self)

namespace Kernel

variable [Layout] {s s' k l : Kernel} {a : ProcessArgs} {p : Ptr} {idxs : List Word} {tss : Word}

/-- The two states agree on all fields of the slot that `p` points to. -/
structure SameFields (s k : Kernel) (p : Ptr) : Prop where
  slot : SameSlot s k p
  callMask : k.callMask p = s.callMask p
  iomapBase : k.iomapBase p = s.iomapBase p
  procname : k.procname p = s.procname p

/-- The two states agree on what `create_process` does not assign when the new process has this
name. -/
structure SameLeftovers (name : List (BitVec 8)) (s k : Kernel) (p : Ptr) : Prop where
  eaxReg : (k.regs p).eaxReg = (s.regs p).eaxReg
  ecxReg : (k.regs p).ecxReg = (s.regs p).ecxReg
  edxReg : (k.regs p).edxReg = (s.regs p).edxReg
  ebxReg : (k.regs p).ebxReg = (s.regs p).ebxReg
  esiReg : (k.regs p).esiReg = (s.regs p).esiReg
  ediReg : (k.regs p).ediReg = (s.regs p).ediReg
  interrupts : k.interrupts p = s.interrupts p
  pid : k.pid p = s.pid p
  misc : k.sched.misc p = s.sched.misc p
  procname : ∀ j, Unwritten name j → k.procname p j = s.procname p j

/-- The two states agree on which entries of the GDT are free. -/
def SameFree (s k : Kernel) : Prop := ∀ i < noAvlDscrpts, s.gdtBit i = k.gdtBit i

/-! ## The same entries -/

theorem SameFree.getFreeGdtIdx (h : SameFree s k) : s.getFreeGdtIdx = k.getFreeGdtIdx := by
  rw [Kernel.getFreeGdtIdx, Kernel.getFreeGdtIdx, getFreeBitInBitfield_congr h]

theorem SameFree.writeDesc (h : SameFree s k) (index limit base attr access : Word) :
    SameFree (s.writeDesc index limit base attr access)
      (k.writeDesc index limit base attr access) := by
  intro i hi
  rw [writeDesc_gdtBit, writeDesc_gdtBit, h i hi]

theorem SameFree.createSegment (h : SameFree s k) {privilege : Word} {seg : Segment}
    {idx : Option Word} (hs : s.createSegment privilege seg = some (s', idx)) :
    ∃ k', k.createSegment privilege seg = some (k', idx) ∧ SameFree s' k' := by
  unfold Kernel.createSegment at hs ⊢
  rw [← h.getFreeGdtIdx]
  split at hs
  next hbase =>
    rw [if_pos hbase]
    simp only [Option.some.injEq, Prod.mk.injEq] at hs
    exact ⟨k, by rw [hs.2], hs.1 ▸ h⟩
  next hbase =>
    rw [if_neg hbase]
    split at hs
    next harea =>
      rw [if_pos harea]
      simp only [Option.some.injEq, Prod.mk.injEq] at hs
      exact ⟨k, by rw [hs.2], hs.1 ▸ h⟩
    next harea =>
      rw [if_neg harea]
      obtain ⟨w, hw, hs⟩ := Option.map_eq_some_iff.mp hs
      rw [hw, Option.map_some]
      split at hs
      next hinv =>
        rw [if_pos hinv]
        simp only [Prod.mk.injEq] at hs
        exact ⟨k, by rw [hs.2], hs.1 ▸ h⟩
      next hinv =>
        rw [if_neg hinv]
        split at hs
        next hlimit =>
          rw [if_pos hlimit]
          simp only [Prod.mk.injEq] at hs
          refine ⟨_, by rw [hs.2], ?_⟩
          rw [← hs.1]
          exact h.writeDesc _ _ _ _ _
        next hlimit =>
          rw [if_neg hlimit]
          simp only [Prod.mk.injEq] at hs
          refine ⟨_, by rw [hs.2], ?_⟩
          rw [← hs.1]
          exact h.writeDesc _ _ _ _ _

/-- By induction on the blocks: they get the same indices. -/
theorem SameFree.createSegments {privilege : Word} {segs : List Segment} {ok : Bool}
    (h : SameFree s k) (hs : createSegments privilege segs s = some (s', idxs, ok)) :
    ∃ k', createSegments privilege segs k = some (k', idxs, ok) ∧ SameFree s' k' := by
  induction segs generalizing s k idxs with
  | nil =>
      obtain ⟨rfl, rfl, rfl⟩ : s = s' ∧ [] = idxs ∧ true = ok := by
        simpa only [Kernel.createSegments, Option.some.injEq, Prod.mk.injEq] using hs
      exact ⟨k, rfl, h⟩
  | cons seg segs ih =>
      rw [Kernel.createSegments, Option.bind_eq_some_iff] at hs
      obtain ⟨⟨t, idx⟩, hseg, hs⟩ := hs
      obtain ⟨u, hu, hsame⟩ := h.createSegment hseg
      rw [Kernel.createSegments, hu, Option.bind_some]
      cases idx with
      | none =>
          obtain ⟨rfl, rfl, rfl⟩ : t = s' ∧ [] = idxs ∧ false = ok := by
            simpa only [Option.some.injEq, Prod.mk.injEq] using hs
          exact ⟨u, rfl, hsame⟩
      | some w =>
          obtain ⟨⟨t', idxs', ok'⟩, hsegs, heq⟩ := Option.map_eq_some_iff.mp hs
          obtain ⟨rfl, rfl, rfl⟩ : t' = s' ∧ w :: idxs' = idxs ∧ ok' = ok := by
            simpa only [Prod.mk.injEq] using heq
          obtain ⟨u', hu', hsame'⟩ := ih hsame hsegs
          exact ⟨u', by simp only [hu', Option.map_some], hsame'⟩

/-- A call that creates a process creates it from every state in which it takes the same slot
and the same entries are free, with the same entries. -/
theorem SameFree.createProcess (h : SameFree s k) (hp : p ≠ null)
    (hslot : k.emptySlot (maxNoProcs + 1) 0 = s.emptySlot (maxNoProcs + 1) 0)
    (hs : s.createProcess a = some (s', p)) :
    ∃ k', k.createProcess a = some (k', p) ∧ ∃ idxs tss t u, Creates s a s' p idxs tss t ∧
      Creates k a k' p idxs tss u := by
  unfold Kernel.createProcess at hs ⊢
  rw [hslot]
  cases hempty : s.emptySlot (maxNoProcs + 1) 0 with
  | none =>
      simp only [hempty, Option.some.injEq, Prod.mk.injEq] at hs
      exact absurd hs.2.symm hp
  | some process =>
      obtain ⟨hstate, hproc⟩ := emptySlot_spec hempty (by omega)
      obtain ⟨hstate', -⟩ := emptySlot_spec (hslot.trans hempty) (by omega)
      simp only [hempty, Option.bind_eq_some_iff] at hs
      obtain ⟨⟨t, idxs, ok⟩, hsegs, hs⟩ := hs
      obtain ⟨u, hu, hsame⟩ := h.createSegments hsegs
      have hblocks := createSegments_spec hsegs
      have hblocks' := createSegments_spec hu
      simp only [hu, Option.bind_some]
      split at hs
      next =>
        simp only [Option.some.injEq, Prod.mk.injEq] at hs
        exact absurd hs.2.symm hp
      next hok =>
        rw [if_neg hok, ← hsame.getFreeGdtIdx]
        have hok' : ok = true := by simpa using hok
        rw [hok'] at hblocks hblocks'
        obtain ⟨w, hw, hs⟩ := Option.map_eq_some_iff.mp hs
        rw [hw, Option.map_some]
        split at hs
        next =>
          simp only [Prod.mk.injEq] at hs
          exact absurd hs.2.symm hp
        next hinv =>
          rw [if_neg hinv]
          simp only [Prod.mk.injEq] at hs
          obtain ⟨rfl, rfl⟩ := hs
          have hw' := hsame.getFreeGdtIdx ▸ hw
          exact ⟨_, rfl, idxs, w, t, u, ⟨hstate, hproc, hblocks, available_of_eq hw hinv, rfl⟩,
            hstate', hproc, hblocks', available_of_eq hw' hinv, rfl⟩

/-! ## The fields of the new process -/

/-- Two processes that the same call creates in the same slot with the same entries are the
same if the slot held the same in the fields that the call does not assign. -/
theorem Creates.sameFields_iff {k' u : Kernel} (h : Creates s a s' p idxs tss l)
    (h' : Creates k a k' p idxs tss u) : SameFields s' k' p ↔ SameLeftovers a.name s k p := by
  have hs := h.gdtOnly
  have hk := h'.gdtOnly
  rw [h.eq, h'.eq, ← hs, ← hk]
  constructor
  · intro hsame
    have hregs := hsame.slot.regs
    simp only [fillSlot, update_self, Regs.mk.injEq] at hregs
    obtain ⟨-, -, heax, hecx, hedx, hebx, -, -, hesi, hedi, -⟩ := hregs
    have hname := hsame.procname
    simp only [fillSlot, update_self] at hname
    exact ⟨heax, hecx, hedx, hebx, hesi, hedi, hsame.slot.interrupts, hsame.slot.pid,
      hsame.slot.sched.misc, strncpy_eq_iff.mp hname⟩
  · intro hleft
    refine ⟨⟨⟨?_, ?_, ?_, ?_, hleft.misc⟩, ?_, ?_, hleft.interrupts, hleft.pid, ?_, ?_, ?_, ?_⟩,
      ?_, ?_, ?_⟩
    · simp only [fillSlot, update_self]
    · simp only [fillSlot, update_self]
    · simp only [fillSlot, update_self]
    · simp only [fillSlot, update_self]
    · simp only [fillSlot, update_self, hleft.eaxReg, hleft.ecxReg, hleft.edxReg, hleft.ebxReg,
        hleft.esiReg, hleft.ediReg]
    · simp only [fillSlot, update_self]
    · simp only [fillSlot, update_self]
    · simp only [fillSlot, update_self]
    · simp only [fillSlot, update_self]
    · simp only [fillSlot, update_self]
    · simp only [fillSlot, update_self]
    · simp only [fillSlot, update_self]
    · simp only [fillSlot, update_self]
      exact strncpy_eq_iff.mpr hleft.procname

/-- Whatever has happened to a slot that is `EMPTY`, the call that takes it creates a process
in it, and the process is the same as after another history if and only if the two have left
the same in the fields that `create_process` does not assign. -/
theorem slot_reuse_iff (s k : Kernel) (a : ProcessArgs) (s' : Kernel) (p : Ptr) (hp : p ≠ null)
    (hslot : k.emptySlot (maxNoProcs + 1) 0 = s.emptySlot (maxNoProcs + 1) 0)
    (hfree : SameFree s k) (hcreate : s.createProcess a = some (s', p)) :
    ∃ k', k.createProcess a = some (k', p) ∧ (SameFields s' k' p ↔ SameLeftovers a.name s k p) := by
  obtain ⟨k', hk', idxs, tss, t, u, h, h'⟩ := hfree.createProcess hp hslot hcreate
  exact ⟨k', hk', h.sameFields_iff h'⟩

/-! ## Two histories of a slot -/

/-- The GDT bitmap is 1024 bytes long. -/
theorem sameFree_of_bytes
    (h : ∀ n < 1024, s.kmem (Layout.gdtBitmap + BitVec.ofNat 32 n) =
      k.kmem (Layout.gdtBitmap + BitVec.ofNat 32 n)) : SameFree s k := by
  intro i hi
  have hlt : i.toNat < 8192 := hi
  have hbyte := h (i.toNat / 8) (by omega)
  have haddr : BitVec.ofNat 32 (i.toNat / 8) = i / 8 := by
    apply BitVec.eq_of_toNat_eq
    rw [BitVec.toNat_udiv, BitVec.toNat_ofNat]
    exact Nat.mod_eq_of_lt (by omega)
  rw [haddr] at hbyte
  rw [gdtBit, gdtBit, bit, bit, hbyte]

/-- The registers of a process with the selectors that `plainArgs` gets first, when it makes
the call `syscall_exit`. -/
def exitRegs (ebx : Word) : Regs where
  ebxReg := ebx
  csReg := 0x183
  dsReg := 0x18b
  esReg := 0x193
  fsReg := 0x19b
  gsReg := 0x1a3
  ssReg := 0x1ab

/-- A process is created in the first slot, runs, and exits with a value in `ebx`. -/
def life (ebx : Word) : List Action :=
  [.create plainArgs, .enqueue (proctab 0), .interrupt .tick,
    .interrupt (.syscall (exitRegs ebx) 0)]

section

omit [Layout]

/-- The first slot after a process has exited with 0 in `ebx`, and after one has exited
with 7; and the next process in it. -/
theorem two_lives :
    letI := Layout.sample
    ∃ s k s' k', (life 0).foldlM act powerOn = some s ∧ (life 7).foldlM act powerOn = some k ∧
      s.createProcess plainArgs = some (s', proctab 0) ∧
      k.createProcess plainArgs = some (k', proctab 0) ∧
      k.emptySlot (maxNoProcs + 1) 0 = s.emptySlot (maxNoProcs + 1) 0 ∧ SameFree s k ∧
      s.state (proctab 0) = Flag.empty ∧ k.state (proctab 0) = Flag.empty ∧
      (s.regs (proctab 0)).ebxReg = 0 ∧ (k.regs (proctab 0)).ebxReg = 7 ∧
      (s'.regs (proctab 0)).ebxReg = 0 ∧ (k'.regs (proctab 0)).ebxReg = 7 := by
  let _ := Layout.sample
  have hrun : (((life 0).foldlM act powerOn).bind fun s =>
      ((life 7).foldlM act powerOn).bind fun k =>
        (s.createProcess plainArgs).bind fun c => (k.createProcess plainArgs).map fun d =>
          (c.2, d.2, decide (
            k.emptySlot (maxNoProcs + 1) 0 = s.emptySlot (maxNoProcs + 1) 0 ∧
            (∀ n < 1024, s.kmem (Layout.gdtBitmap + BitVec.ofNat 32 n) =
              k.kmem (Layout.gdtBitmap + BitVec.ofNat 32 n)) ∧
            s.state (proctab 0) = Flag.empty ∧ k.state (proctab 0) = Flag.empty ∧
            (s.regs (proctab 0)).ebxReg = 0 ∧ (k.regs (proctab 0)).ebxReg = 7 ∧
            (c.1.regs (proctab 0)).ebxReg = 0 ∧ (d.1.regs (proctab 0)).ebxReg = 7))) =
      some (proctab 0, proctab 0, true) := by decide +kernel
  obtain ⟨s, hs, hrun⟩ := Option.bind_eq_some_iff.mp hrun
  obtain ⟨k, hk, hrun⟩ := Option.bind_eq_some_iff.mp hrun
  obtain ⟨⟨s', p⟩, hcreate, hrun⟩ := Option.bind_eq_some_iff.mp hrun
  obtain ⟨⟨k', r⟩, hcreate', heq⟩ := Option.map_eq_some_iff.mp hrun
  simp only [Prod.mk.injEq, decide_eq_true_eq] at heq
  obtain ⟨rfl, rfl, hslot, hbytes, hrest⟩ := heq
  exact ⟨s, k, s', k', hs, hk, hcreate, hcreate', hslot, sameFree_of_bytes hbytes, hrest⟩

/-- The next process is not the same after the two. -/
theorem slot_reuse_iff_main :
    letI := Layout.sample
    ∃ s k s' k', (life 0).foldlM act powerOn = some s ∧ (life 7).foldlM act powerOn = some k ∧
      s.createProcess plainArgs = some (s', proctab 0) ∧
      k.createProcess plainArgs = some (k', proctab 0) ∧
      (SameFields s' k' (proctab 0) ↔ SameLeftovers plainArgs.name s k (proctab 0)) := by
  let _ := Layout.sample
  obtain ⟨s, k, s', -, hs, hk, hcreate, -, hslot, hfree, -⟩ := two_lives
  obtain ⟨k', hcreate', hiff⟩ := slot_reuse_iff s k plainArgs s' (proctab 0) (by decide) hslot
    hfree hcreate
  exact ⟨s, k, s', k', hs, hk, hcreate, hcreate', hiff⟩

/-- The next process finds in `ebx` what the last one has left there. -/
theorem slot_reuse_iff_fails :
    letI := Layout.sample
    ∃ s k s' k', (life 0).foldlM act powerOn = some s ∧ (life 7).foldlM act powerOn = some k ∧
      s.state (proctab 0) = Flag.empty ∧ k.state (proctab 0) = Flag.empty ∧ SameFree s k ∧
      s.createProcess plainArgs = some (s', proctab 0) ∧
      k.createProcess plainArgs = some (k', proctab 0) ∧ ¬ SameFields s' k' (proctab 0) := by
  let _ := Layout.sample
  obtain ⟨s, k, s', k', hs, hk, hcreate, hcreate', -, hfree, hstate, hstate', -, -, hebx, hebx'⟩ :=
    two_lives
  refine ⟨s, k, s', k', hs, hk, hstate, hstate', hfree, hcreate, hcreate', fun hsame => ?_⟩
  rw [hsame.slot.regs, hebx] at hebx'
  exact absurd hebx' (by decide)

end

end Kernel

end Mycrokernel
