import Mycrokernel.Kernel.Start
import Mycrokernel.Kernel.Context

/-!
# Isolation

The processor lets a program load any segment of any process into `ds`, so the kernel's
segments do not keep the processes apart.  But they keep all of them out of the kernel: as
long as no receive names a buffer that wraps around, everything that is ever copied lands in
the images of the processes or in the video memory (`images_only`).  The kernel, its
tables and the stacks of its tasks stay as they are.
-/

namespace Mycrokernel

open Function (update update_self update_of_ne)

/-- The address belongs to a segment of a process. -/
def Image.Owns (img : Image) (a : Word) : Prop :=
  ∃ process ∈ img.processes, ∃ seg ∈ process.segments,
    seg.base.toNat ≤ a.toNat ∧ a.toNat < seg.base.toNat + seg.limit.toNat

namespace Kernel

open Rendezvous (Place)

variable [Layout] {s k l : Kernel} {p r x : Ptr} {a : Word}

/-! ## What a copy leaves alone -/

section Copy

variable {mem : Word → BitVec 8} {src dst bytes : Word} {n width : Nat}

omit [Layout]

theorem moveBytes_of_le (h : width ≤ (a - dst).toNat) : moveBytes mem src dst width a = mem a :=
  if_neg (Nat.not_lt.2 h)

/-- The distance from the place where a copy goes on. -/
theorem distance_add (h : n ≤ (a - dst).toNat) :
    (a - (dst + BitVec.ofNat 32 n)).toNat = (a - dst).toNat - n := by
  have hlt := (a - dst).isLt
  rw [← BitVec.sub_sub, BitVec.toNat_sub_of_le]
  · rw [BitVec.toNat_ofNat, Nat.mod_eq_of_lt (by omega)]
  · rw [BitVec.le_def, BitVec.toNat_ofNat, Nat.mod_eq_of_lt (by omega)]
    exact h

theorem moveDwords_dst (n : Nat) (mem : Word → BitVec 8) (src dst : Word) :
    (moveDwords n mem src dst).2.2 = dst + BitVec.ofNat 32 (4 * n) := by
  induction n generalizing mem src dst with
  | zero => simp [moveDwords]
  | succ n ih =>
    rw [moveDwords, ih, BitVec.add_assoc]
    congr 1
    rw [show 4 * (n + 1) = 4 + 4 * n by omega, BitVec.ofNat_add]
    rfl

theorem moveDwords_of_le (h : 4 * n ≤ (a - dst).toNat) : (moveDwords n mem src dst).1 a = mem a := by
  induction n generalizing mem src dst with
  | zero => rfl
  | succ n ih =>
    have hnext := distance_add (show 4 ≤ (a - dst).toNat by omega)
    rw [moveDwords, ih, moveBytes_of_le (by omega)]
    show 4 * n ≤ (a - (dst + BitVec.ofNat 32 4)).toNat
    omega

/-- A copy leaves everything alone that is not at its destination. -/
theorem copy_of_le (h : bytes.toNat ≤ (a - dst).toNat) : copy mem src dst bytes a = mem a := by
  have hdst := moveDwords_dst (bytes.toNat / 4) mem src dst
  have hmem : (moveDwords (bytes.toNat / 4) mem src dst).1 a = mem a := moveDwords_of_le (by omega)
  have hafter := distance_add (show 4 * (bytes.toNat / 4) ≤ (a - dst).toNat by omega)
  unfold copy
  generalize moveDwords (bytes.toNat / 4) mem src dst = moved at hdst hmem
  obtain ⟨mem', src', dst'⟩ := moved
  dsimp only at hdst hmem ⊢
  rw [← hdst] at hafter
  by_cases hword : 1 < bytes.toNat % 4
  · have hnext := distance_add (show 2 ≤ (a - dst').toNat by omega)
    rw [if_pos hword]
    dsimp only
    split
    next hbyte =>
      rw [moveBytes_of_le, moveBytes_of_le (by omega), hmem]
      show 1 ≤ (a - (dst' + BitVec.ofNat 32 2)).toNat
      omega
    next => rw [moveBytes_of_le (by omega), hmem]
  · rw [if_neg hword]
    dsimp only
    split
    next hbyte => rw [moveBytes_of_le (by omega), hmem]
    next => rw [hmem]

end Copy

/-- The address is in the buffer that the message registers of `p` describe. -/
def InBuffer (s : Kernel) (p : Ptr) (a : Word) : Prop :=
  (a - (s.dataBase p + (s.regs p).edxReg)).toNat < (s.regs p).ecxReg.toNat

omit [Layout] in
/-- A message lands in the buffer of its receiver. -/
theorem exchangeData_mem (h : ¬ InBuffer s r a) : (s.exchangeData p r).mem a = s.mem a := by
  refine copy_of_le ?_
  have hbytes : (s.exchangeBytes p r).toNat ≤ (s.regs r).ecxReg.toNat := by
    rw [exchangeBytes]
    split
    next => exact Nat.le_refl _
    next hle => exact Nat.not_lt.1 hle
  exact hbytes.trans (Nat.not_lt.1 h)

/-! ## Which segments a program can use -/

/-- The processor lets a program load the segment at this offset of the table. -/
structure ForPrograms (s : Kernel) (idx : Word) : Prop where
  covered : Covered s idx
  memory : (s.gdt idx).typeBits.getLsbD 4 = true
  privilege : (s.gdt idx).privilege = 3

/-- What a program can have in `ds`: nothing, or a segment. -/
def Loadable (s : Kernel) (selector : BitVec 16) : Prop :=
  gdtOffset selector = 0 ∨ ForPrograms s (gdtOffset selector)

/-- The receive has a data segment that the processor has let the program load, and its buffer
does not wrap around. -/
def Plain (s : Kernel) (e : Event) : Prop :=
  e.call = some 2 →
    Loadable s e.regs.dsReg ∧ e.regs.edxReg.toNat + e.regs.ecxReg.toNat < 2 ^ 32

instance (s : Kernel) (idx : Word) : Decidable (ForPrograms s idx) :=
  decidable_of_iff (idx.toNat + 7 ≤ s.gdtLimit.toNat ∧ (s.gdt idx).typeBits.getLsbD 4 = true ∧
    (s.gdt idx).privilege = 3) ⟨fun ⟨h, h', h''⟩ => ⟨h, h', h''⟩, fun ⟨h, h', h''⟩ => ⟨h, h', h''⟩⟩

instance (s : Kernel) (e : Event) : Decidable (Plain s e) :=
  inferInstanceAs (Decidable (_ → (_ ∨ _) ∧ _))

omit [Layout] in
theorem exists_index (selector : BitVec 16) : ∃ w < noAvlDscrpts, gdtOffset selector = w * 8 := by
  have hlt := selector.isLt
  have hw : (BitVec.ofNat 32 (selector.toNat / 8)).toNat = selector.toNat / 8 := by
    rw [BitVec.toNat_ofNat, Nat.mod_eq_of_lt (by omega)]
  refine ⟨BitVec.ofNat 32 (selector.toNat / 8), ?_, ?_⟩
  · show (BitVec.ofNat 32 (selector.toNat / 8)).toNat < 8192
    omega
  · apply BitVec.eq_of_toNat_eq
    have hmask := offset_and_mask (show selector.toNat / 8 < 8192 by omega)
      (show selector.toNat % 8 < 8 by omega)
    rw [gdtOffset, BitVec.toNat_and, BitVec.toNat_setWidth, Nat.mod_eq_of_lt (by omega),
      BitVec.toNat_mul, hw]
    rw [show selector.toNat / 8 * 8 + selector.toNat % 8 = selector.toNat by omega] at hmask
    show selector.toNat &&& 0xfff8 = selector.toNat / 8 * 8 % 2 ^ 32
    omega

/-! ## The table that `start` leaves -/

theorem markDefaults_gdt (s : Kernel) : s.markDefaults.gdt = s.gdt := by
  unfold markDefaults
  induction List.range 8 generalizing s with
  | nil => rfl
  | cons i l ih => rw [List.foldl_cons, ih, unfreeGdtIdx]

/-- The first entries are the loader's. -/
theorem Launching.default {m : Kernel} {as : List ProcessArgs} {img : Image} {w : Word}
    (hs : m.Loaded) (h : Launching (m.prepared img) as k) (hw : w.toNat < 8) :
    k.gdt (w * 8) = globalDT.getD w.toNat {} := by
  have hlt : w < noAvlDscrpts := by
    rw [BitVec.lt_def]
    exact hw.trans (by decide)
  have hfree : w ∉ freeEntries := by
    intro hmem
    have hge : ∀ w ∈ freeEntries, 8 ≤ w.toNat := forall_mem_of_all (by decide)
    have := hge w hmem
    omega
  have htasks : ∀ task ∈ tasks img, w * 8 ≠ task.1 * 8 := by
    intro task htask heq
    have hmem := List.mem_map_of_mem (f := Prod.fst) htask
    rw [tasks_indices] at hmem
    have hbounds : ∀ w ∈ 8 :: 9 :: interruptNumbers.map (10 + BitVec.ofNat 32 ·) ++
        exceptionNumbers.map (26 + BitVec.ofNat 32 ·), 8 ≤ w.toNat ∧ w < noAvlDscrpts :=
      forall_mem_of_all (by decide)
    obtain ⟨hge, htask⟩ := hbounds _ hmem
    rw [offset_inj hlt htask heq] at hw
    omega
  rw [h.others w hlt hfree, prepared, unfreePids_gdt, describeTasks_of_notMem htasks, markDefaults_gdt]
  have hgdt := hs.gdt w.toNat hw
  rwa [BitVec.ofNat_toNat, BitVec.setWidth_eq] at hgdt

section

omit [Layout]

/-- Every entry up to the last one belongs to the loader, to a task of the kernel, or to a
process. -/
theorem entry_cases : ∀ n < 66, n < 8 ∨ BitVec.ofNat 32 n ∈ kernelEntries.drop 8 ∨
    ∃ i < 3, BitVec.ofNat 32 n ∈ handedTo i := by
  decide

theorem globalDT_privilege : ∀ n < 8, (globalDT.getD n {}).privilege ≠ 3 := by decide

theorem mem_zip_of_mem {α β : Type} {as : List α} {bs : List β} {a : α} (hlen : as.length = bs.length)
    (ha : a ∈ as) : ∃ b, (a, b) ∈ as.zip bs := by
  obtain ⟨n, hn, rfl⟩ := List.mem_iff_getElem.1 ha
  refine ⟨bs[n], List.mem_iff_getElem.2 ⟨n, by simpa [hlen] using hlen ▸ hn, ?_⟩⟩
  simp

end

/-- The segments that programs can use are those of the processes. -/
theorem Launching.segment {m : Kernel} {img : Image} {w : Word} (hs : m.Loaded)
    (hfits : img.Fits) (h : Launching (m.prepared img) img.processes k) (hlt : w < noAvlDscrpts)
    (hprog : ForPrograms k (w * 8)) :
    ∃ process ∈ img.processes, ∃ seg ∈ process.segments,
      k.getBase (w * 8) = seg.base ∧ k.getLimit (w * 8) = seg.limit := by
  have hw : w.toNat < 66 := by
    have hcovered := hprog.covered
    have hends := h.ends
    unfold Covered at hcovered
    unfold EndsBy at hends
    have hnat : (w * 8).toNat = 8 * w.toNat := by
      have hlt : w.toNat < 8192 := hlt
      rw [BitVec.toNat_mul]
      show w.toNat * 8 % 2 ^ 32 = _
      omega
    omega
  have hcases := entry_cases w.toNat hw
  rw [BitVec.ofNat_toNat, BitVec.setWidth_eq] at hcases
  rcases hcases with hdefault | htask | ⟨i, hi, hmem⟩
  · have hprivilege := hprog.privilege
    rw [h.default hs hdefault] at hprivilege
    exact absurd hprivilege (globalDT_privilege _ hdefault)
  · have hindices : kernelEntries.drop 8 = (tasks img).map Prod.fst := by
      rw [tasks_indices]
      rfl
    rw [hindices, List.mem_map] at htask
    obtain ⟨⟨v, p⟩, htask, rfl⟩ := htask
    have hmemory := hprog.memory
    rw [(h.task htask).2, taskDesc] at hmemory
    simp [encode, SegDesc.typeBits] at hmemory
  · obtain ⟨process, hprocess⟩ : ∃ process, img.processes[i]? = some process :=
      ⟨_, List.getElem?_eq_getElem hi⟩
    have hmem' := List.mem_of_getElem? hprocess
    rw [handedTo, List.mem_append, List.mem_singleton] at hmem
    rcases hmem with hmem | rfl
    · have hlen : (entriesOf i).length = process.segments.length := entriesOf_length i hi
      obtain ⟨seg, hseg⟩ := mem_zip_of_mem hlen hmem
      have hdesc := (h.resident i process hprocess).descriptors w seg hseg
      have hsegs := (List.of_mem_zip hseg).2
      exact ⟨process, hmem', seg, hsegs, getBase_of_encode hdesc,
        getLimit_of_descriptor (hfits.roomy process hmem' seg hsegs).limit hdesc⟩
    · have hmemory := hprog.memory
      rw [h.tss i process hprocess, tssDesc] at hmemory
      simp [encode, SegDesc.typeBits] at hmemory

/-! ## Effects -/

variable {m m' : Rendezvous Ptr Nat} {ps : Finset Ptr} {e : Event} {img : Image} {boot : Kernel}
  {q : List Ptr}

/-- The table has the segments of the processes for programs, and nothing else. -/
structure Segmented (img : Image) (boot : Kernel) : Prop where
  segment : ∀ w < noAvlDscrpts, ForPrograms boot (w * 8) → ∃ process ∈ img.processes,
    ∃ seg ∈ process.segments, boot.getBase (w * 8) = seg.base ∧ boot.getLimit (w * 8) = seg.limit
  fits : ∀ process ∈ img.processes, ∀ seg ∈ process.segments,
    seg.base.toNat + seg.limit.toNat < 2 ^ 32
  empty : boot.getLimit 0 = 0

/-- The buffer of a receive is inside a segment that the program could load. -/
structure HasBuffer (s : Kernel) (x : Ptr) : Prop where
  ok : BufferOk s x
  fits : (s.regs x).edxReg.toNat + (s.regs x).ecxReg.toNat < 2 ^ 32
  loadable : Loadable s (s.regs x).dsReg

section

omit [Layout]

theorem Loadable.mono {selector : BitVec 16} (h : Loadable s selector)
    (hprog : ∀ idx, ForPrograms s idx → ForPrograms k idx) : Loadable k selector :=
  h.imp id (hprog _)

theorem HasBuffer.congr (h : HasBuffer s x) (hregs : k.regs x = s.regs x)
    (hlimit : ∀ idx, k.getLimit idx = s.getLimit idx)
    (hprog : ∀ idx, ForPrograms s idx → ForPrograms k idx) : HasBuffer k x := by
  refine ⟨?_, by rw [hregs]; exact h.fits, by rw [hregs]; exact h.loadable.mono hprog⟩
  have hok := h.ok
  rw [BufferOk, validateDataArea_eq_zero] at hok ⊢
  rwa [dataIndex, hregs, hlimit]

/-- What the table says to programs has not changed. -/
structure SameTable (s k : Kernel) : Prop where
  base : ∀ idx, k.getBase idx = s.getBase idx
  limit : ∀ idx, k.getLimit idx = s.getLimit idx
  programs : ∀ idx, ForPrograms k idx ↔ ForPrograms s idx

theorem SameTable.trans (h : SameTable s k) (h' : SameTable k l) : SameTable s l :=
  ⟨fun idx => (h'.base idx).trans (h.base idx), fun idx => (h'.limit idx).trans (h.limit idx),
    fun idx => (h'.programs idx).trans (h.programs idx)⟩

/-- An address in the buffer of a receive belongs to a process. -/
theorem HasBuffer.owns (h : HasBuffer s r) (hseg : Segmented img boot) (hsame : SameTable boot s)
    (ha : InBuffer s r a) : img.Owns a := by
  have hok := h.ok
  rw [BufferOk, validateDataArea_eq_zero, BitVec.le_def, BitVec.toNat_add, Nat.mod_eq_of_lt h.fits] at hok
  rw [InBuffer, dataBase_eq_getBase] at ha
  obtain ⟨w, hw, hidx⟩ := exists_index (s.regs r).dsReg
  have hdata : s.dataIndex r = w * 8 := hidx
  rw [hdata] at hok ha
  rcases h.loadable with hnull | hprog
  · rw [← hidx, hnull, hsame.limit, hseg.empty] at hok
    have hzero : (s.regs r).edxReg.toNat + (s.regs r).ecxReg.toNat ≤ 0 := hok
    omega
  · rw [hidx] at hprog
    obtain ⟨process, hprocess, seg, hmem, hbase, hlimit⟩ :=
      hseg.segment w hw ((hsame.programs _).1 hprog)
    have hfits := hseg.fits process hprocess seg hmem
    rw [hsame.limit, hlimit] at hok
    rw [hsame.base, hbase] at ha
    refine ⟨process, hprocess, seg, hmem, ?_⟩
    have hstart : (seg.base + (s.regs r).edxReg).toNat = seg.base.toNat + (s.regs r).edxReg.toNat := by
      rw [BitVec.toNat_add, Nat.mod_eq_of_lt (by omega)]
    -- the address is its distance behind the start of the buffer
    have hadd : a = (a - (seg.base + (s.regs r).edxReg)) + (seg.base + (s.regs r).edxReg) :=
      (BitVec.sub_add_cancel _ _).symm
    have hnat := congrArg BitVec.toNat hadd
    rw [BitVec.toNat_add, hstart, Nat.mod_eq_of_lt (by omega)] at hnat
    omega

end

/-- Memory changes only in the buffer of a receive. -/
theorem Effect.lands (heff : Effect ps s m p e k m') (hmem : k.exchanges = s.exchanges → k.mem = s.mem)
    (ha : k.mem a ≠ s.mem a) :
    ∃ r, InBuffer s r a ∧ (m.place r = .receiving ∨ r = p ∧ e.call = some 2 ∧ BufferOk s p) := by
  have hsame : k.exchanges ≠ s.exchanges := fun h => ha (congrFun (hmem h) a)
  cases heff with
  | quiet hq => exact absurd hq.exchanges hsame
  | @direct r i hr _ _ hrun _ _ _ _ _ halike =>
    refine ⟨r, ?_, .inl hr⟩
    have hrp : r ≠ p := by
      rintro rfl
      exact absurd (hrun.symm.trans hr) (by simp)
    have hregs : (s.setRegs p fun c => { c with ebxReg := r }).regs r = s.regs r := update_of_ne hrp _ _
    by_contra hout
    refine ha ((congrFun halike.mem a).trans ?_)
    refine exchangeData_mem fun hin => hout ?_
    rw [InBuffer, dataBase_eq_getBase, dataIndex, hregs] at hin
    rw [InBuffer, dataBase_eq_getBase]
    exact hin
  | queued _ _ _ _ _ _ _ _ _ _ halike => exact absurd halike.exchanges hsame
  | parked _ _ _ _ _ _ _ _ halike => exact absurd halike.exchanges hsame
  | fetched _ hcall _ _ hok _ _ _ halike =>
    refine ⟨p, ?_, .inr ⟨rfl, hcall, hok⟩⟩
    by_contra hout
    exact ha ((congrFun halike.mem a).trans (exchangeData_mem hout))
  | listening _ _ _ _ _ _ _ halike => exact absurd halike.exchanges hsame
  | adopted _ _ _ _ _ _ _ halike => exact absurd halike.exchanges hsame
  | exited _ _ _ _ _ _ _ _ _ _ _ hexch => exact absurd hexch hsame
  | rung _ _ _ _ _ _ halike => exact absurd halike.exchanges hsame

/-- Who waits for a message has done so before with the same registers, or has just begun to. -/
theorem Effect.listens (heff : Effect ps s m p e k m') (hcur : s.sched.curptr = p)
    (hp : m.place p ≠ .receiving) (hx : m'.place x = .receiving) : k.regs x = s.regs x ∧
      (m.place x = .receiving ∨ x = p ∧ e.call = some 2 ∧ BufferOk s p) := by
  by_cases hxp : x = p
  · subst hxp
    cases heff.caller hp with
    | unmoved hplace => exact absurd (hplace.symm.trans hx) hp
    | sends _ _ _ _ _ _ hplace => exact absurd (hplace.symm.trans hx) (by simp)
    | waits _ _ _ _ _ _ _ _ hplace => exact absurd (hplace.symm.trans hx) (by simp)
    | listens _ hcall hbuf hregs => exact ⟨hregs, .inr ⟨rfl, hcall, hbuf⟩⟩
    | exits _ hplace => exact absurd (hplace.symm.trans hx) (by simp)
  · cases heff.bystander hcur hxp with
    | stays hplace hregs => exact ⟨hregs, .inl (hplace.symm.trans hx)⟩
    | woken _ hnew => exact absurd (hnew.symm.trans hx) (by simp)
    | served _ hnew => exact absurd (hnew.symm.trans hx) (by simp)
    | stranded _ hnew => exact absurd (hnew.symm.trans hx) (by simp)

/-! ## Runs -/

omit [Layout] in
theorem sameTable_of_eq (hgdt : k.gdt = s.gdt) (hlimit : k.gdtLimit = s.gdtLimit) : SameTable s k := by
  refine ⟨fun idx => ?_, fun idx => getLimit_congr (by rw [hgdt]) (by rw [hgdt]), fun idx => ?_⟩
  · rw [getBase, getBase, hgdt]
  · constructor
    · rintro ⟨hcovered, hmemory, hprivilege⟩
      rw [Covered, hlimit] at hcovered
      rw [hgdt] at hmemory hprivilege
      exact ⟨hcovered, hmemory, hprivilege⟩
    · rintro ⟨hcovered, hmemory, hprivilege⟩
      rw [← hgdt] at hmemory hprivilege
      exact ⟨by rwa [Covered, hlimit], hmemory, hprivilege⟩

omit [Layout] in
/-- A task that becomes busy is still a task. -/
theorem sameTable_schedule (s : Kernel) (n : Nat) : SameTable s (s.schedule n) := by
  have hgdt : ∀ idx, ((s.schedule n).gdt idx).limit = (s.gdt idx).limit ∧
      ((s.schedule n).gdt idx).base1 = (s.gdt idx).base1 ∧
      ((s.schedule n).gdt idx).base2 = (s.gdt idx).base2 ∧
      ((s.schedule n).gdt idx).base3 = (s.gdt idx).base3 ∧
      ((s.schedule n).gdt idx).props2 = (s.gdt idx).props2 ∧
      (((s.schedule n).gdt idx).props1 = (s.gdt idx).props1 ∨
        ((s.schedule n).gdt idx).props1 = (s.gdt idx).props1 ||| 0b10) := by
    intro idx
    simp only [schedule]
    by_cases hidx : idx = (s.idxTss s.sched.schedule.curptr).setWidth 32
    · rw [hidx, update_self]
      exact ⟨rfl, rfl, rfl, rfl, rfl, .inr rfl⟩
    · rw [update_of_ne hidx]
      exact ⟨rfl, rfl, rfl, rfl, rfl, .inl rfl⟩
  have hbusy : ∀ b : BitVec 8, ((b ||| 0b10).setWidth 5).getLsbD 4 = (b.setWidth 5).getLsbD 4 ∧
      (b ||| 0b10).extractLsb' 5 2 = b.extractLsb' 5 2 := by
    decide
  refine ⟨fun idx => ?_, fun idx => ?_, fun idx => ?_⟩
  · obtain ⟨-, hbase1, hbase2, hbase3, -, -⟩ := hgdt idx
    rw [getBase, getBase, hbase1, hbase2, hbase3]
  · obtain ⟨hlimit, -, -, -, hprops2, -⟩ := hgdt idx
    exact getLimit_congr hlimit hprops2
  · have hkinds : ((s.schedule n).gdt idx).typeBits.getLsbD 4 = (s.gdt idx).typeBits.getLsbD 4 ∧
        ((s.schedule n).gdt idx).privilege = (s.gdt idx).privilege := by
      obtain ⟨-, -, -, -, -, hsame | hset⟩ := hgdt idx
      · rw [SegDesc.typeBits, SegDesc.typeBits, SegDesc.privilege, SegDesc.privilege, hsame]
        exact ⟨rfl, rfl⟩
      · rw [SegDesc.typeBits, SegDesc.typeBits, SegDesc.privilege, SegDesc.privilege, hset]
        exact hbusy _
    constructor
    · rintro ⟨hcovered, hmemory, hprivilege⟩
      exact ⟨hcovered, hkinds.1.symm.trans hmemory, hkinds.2.symm.trans hprivilege⟩
    · rintro ⟨hcovered, hmemory, hprivilege⟩
      exact ⟨hcovered, hkinds.1.trans hmemory, hkinds.2.trans hprivilege⟩

/-- `finish` is about the scheduler. -/
theorem finish_rest (k : Kernel) : k.finish.mem = k.mem ∧ k.finish.exchanges = k.exchanges ∧
    k.finish.gdt = k.gdt ∧ k.finish.gdtLimit = k.gdtLimit := by
  unfold finish
  split
  next => exact ⟨rfl, rfl, rfl, rfl⟩
  next => exact ⟨rfl, rfl, rfl, rfl⟩

/-- What a run has kept so far. -/
structure Enclosed (img : Image) (boot s : Kernel) (m : Rendezvous Ptr Nat) : Prop where
  table : SameTable boot s
  mem : ∀ a, s.mem a ≠ boot.mem a → img.Owns a
  buffers : ∀ x, m.place x = .receiving → HasBuffer s x

/-- The current process is not waiting for a message. -/
theorem IpcInv.curptr_not_receiving (h : IpcInv ps s q m) (hb : Between s.sched q) :
    m.place s.sched.curptr ≠ .receiving := by
  intro hpl
  have hmem := h.place_mem s.sched.curptr (by simp [hpl])
  rcases hb.curptr with hnull | hidle | hq
  · exact h.ne_null hmem hnull
  · exact h.ne_idle hmem hidle
  · exact absurd (((h.running _).1 hq).symm.trans hpl) (by simp)

theorem Enclosed.step (h : Enclosed img boot s m) (hseg : Segmented img boot) (hinv : IpcInv ps s q m)
    (hb : Between s.sched q) (hplain : Plain s e) (he : s.Enabled e)
    (hk : s.interrupt e = some k.finish)
    (heff : Effect ps (s.saveContext e.regs) m s.sched.curptr e k m') :
    Enclosed img boot (k.finish.schedule e.number) m' := by
  have hsaved := saved s e.regs
  obtain ⟨hslimit, hsmem⟩ := saveContext_rest s e.regs
  have hrecorded := recorded_interrupt hk
  obtain ⟨hfmem, hfexch, hfgdt, hflimit⟩ := finish_rest k
  have hmem : k.exchanges = (s.saveContext e.regs).exchanges → k.mem = (s.saveContext e.regs).mem := by
    intro hexch
    rw [← hfmem]
    exact hrecorded.mem (hfexch.trans hexch)
  have hcur : (s.saveContext e.regs).sched.curptr = s.sched.curptr := by rw [hsaved.sched]
  have hnot := hinv.curptr_not_receiving hb
  have htable : SameTable s (s.saveContext e.regs) := sameTable_of_eq hsaved.gdt hslimit
  have hafter : SameTable (s.saveContext e.regs) (k.finish.schedule e.number) :=
    (sameTable_of_eq (hfgdt.trans heff.gdt) hrecorded.gdtLimit).trans (sameTable_schedule ..)
  have hbuffers : ∀ x, m.place x = .receiving → HasBuffer (s.saveContext e.regs) x := by
    intro x hx
    refine (h.buffers x hx).congr (hsaved.regs_of_ne x ?_) htable.limit fun idx => (htable.programs idx).2
    rintro rfl
    exact hnot hx
  -- a receive begins with the registers that the processor has saved
  have hbegins : e.call = some 2 → BufferOk (s.saveContext e.regs) s.sched.curptr →
      HasBuffer (s.saveContext e.regs) s.sched.curptr := by
    intro hcall hok
    obtain ⟨hload, hfits⟩ := hplain hcall
    have hnull : s.sched.curptr ≠ null := by
      intro hnull
      cases e with
      | timer regs => exact absurd hcall (by simp [Event.call])
      | device n regs => exact absurd hcall (by simp [Event.call])
      | syscall regs input => exact he.1 hnull
    rw [← hsaved.regs_cur hnull] at hload hfits
    exact ⟨hok, hfits, hload.mono fun idx => (htable.programs idx).2⟩
  refine ⟨(h.table.trans htable).trans hafter, fun a ha => ?_, fun x hx => ?_⟩
  · by_cases hs : s.mem a = boot.mem a
    · have hk : k.mem a ≠ (s.saveContext e.regs).mem a := by
        rw [hsmem, hs, ← hfmem]
        exact ha
      obtain ⟨r, hin, hr | ⟨rfl, hcall, hok⟩⟩ := heff.lands hmem hk
      · exact (hbuffers r hr).owns hseg (h.table.trans htable) hin
      · exact (hbegins hcall hok).owns hseg (h.table.trans htable) hin
    · exact h.mem a hs
  · obtain ⟨hregs, hbefore | ⟨rfl, hcall, hok⟩⟩ := heff.listens hcur hnot hx
    · refine (hbuffers x hbefore).congr ?_ hafter.limit fun idx => (hafter.programs idx).2
      rw [(resumed k e.number).regs, hregs]
    · refine (hbegins hcall hok).congr ?_ hafter.limit fun idx => (hafter.programs idx).2
      rw [(resumed k e.number).regs, hregs]

/-- `start` leaves a table with the segments of the processes. -/
theorem Launching.segmented {m : Kernel} (hs : m.Loaded) (hfits : img.Fits)
    (h : Launching (m.prepared img) img.processes k) : Segmented img k := by
  refine ⟨fun w hw hprog => h.segment hs hfits hw hprog, fun process hprocess seg hseg => ?_, ?_⟩
  · have hbounds := hfits.below process hprocess seg hseg
    have hlower := lowerBound_le seg.video
    omega
  · have hgdt : k.gdt 0 = {} := h.default hs (show (0 : Word).toNat < 8 by decide)
    rw [getLimit, hgdt]
    decide

omit [Layout] in
/-- The kernel is below the processes. -/
theorem owns_above_kernel (hfits : img.Fits) (h : img.Owns a) : img.videoBase.toNat ≤ a.toNat := by
  obtain ⟨process, hprocess, seg, hseg, hle, -⟩ := h
  have hbase : img.videoBase.toNat ≤ seg.base.toNat := hfits.bases_above process hprocess seg hseg
  omega

/-- After `start`, all that is ever copied lands in segments of the processes, as long as
receives have data segments that the processor lets a program load and buffers that do not
wrap around.  So nothing is copied into the kernel, and the segments stay where they are. -/
theorem images_only (s : Kernel) (h : Hardware) (img : Image) (hs : s.Loaded) (hfits : img.Fits)
    (hlimit : img.gdtLimit = 8 * 8 - 1) (happart : BitmapsApart) (hend : TableEnds) (k : Kernel)
    (h' : Hardware) (hstart : start s h img = some (k, h')) (es : List Event) (k' : Kernel)
    (hrun : Machine.Run step Plain k es k') :
    (∀ a, k'.mem a ≠ k.mem a → img.Owns a) ∧
      (∀ a, a.toNat < img.videoBase.toNat → k'.mem a = k.mem a) ∧
      ∀ idx, k'.getBase idx = k.getBase idx ∧ k'.getLimit idx = k.getLimit idx := by
  obtain ⟨l, l', hl, hlaunched, -⟩ := start_launches h hs hfits hlimit happart hend
  obtain ⟨rfl, rfl⟩ : l = k ∧ l' = h' := Prod.mk.inj (Option.some.inj (hl.symm.trans hstart))
  obtain ⟨q, hq⟩ := (hlaunched.booted hs rfl).started
  have hfirst : Enclosed img l l (allRunning mainProcs) :=
    ⟨sameTable_of_eq rfl rfl, fun a ha => absurd rfl ha,
      fun x hx => absurd hx (allRunning_ne (by simp) (by simp))⟩
  have hseg := hlaunched.segmented hs hfits
  obtain ⟨q', m', -, -, henclosed⟩ := Run.tracked (P := fun s _ m => Enclosed img l s m)
    (fun hinv hb hP hplain he hk _ heff => hP.step hseg hinv hb hplain he hk heff) hrun hq.inv
    hq.between hfirst
  refine ⟨henclosed.mem, fun a ha => ?_, fun idx => ⟨henclosed.table.base idx, henclosed.table.limit idx⟩⟩
  by_contra hne
  have habove := owns_above_kernel hfits (henclosed.mem a hne)
  omega

/-- The disk driver waits for a message of up to 100 bytes. -/
def sampleReceive : Event :=
  .syscall { eaxReg := 2, ebxReg := anyproc, edxReg := 0x400, ecxReg := 100, dsReg := 60 * 8 + 3 } 0

omit [Layout] in
theorem images_only_sample : letI := Layout.sample
    ∃ k h' k', start declared Hardware.found Image.sample = some (k, h') ∧
      Machine.Run step Plain k [.tick, sampleReceive] k' ∧
      ∀ a, a.toNat < Image.sample.videoBase.toNat → k'.mem a = k.mem a := by
  let := Layout.sample
  have hsome : ((start declared Hardware.found Image.sample).bind fun kh =>
      [.tick, sampleReceive].foldlM (Machine.guarded step Plain) kh.1).isSome = true := by
    decide +kernel
  obtain ⟨k', hk'⟩ := Option.isSome_iff_exists.1 hsome
  obtain ⟨⟨k, h'⟩, hstart, hrun⟩ := Option.bind_eq_some_iff.1 hk'
  have hrun : Machine.Run step Plain k [.tick, sampleReceive] k' :=
    .of_foldlM (fun _ _ _ => Machine.of_guarded) hrun
  have hkept := images_only declared Hardware.found Image.sample declared_loaded
    (by show (_ : Nat) ≤ _; decide) rfl sample_bitmapsApart sample_tableEnds k h' hstart _ k' hrun
  exact ⟨k, h', k', hstart, hrun, hkept.2.1⟩

end Kernel

end Mycrokernel
