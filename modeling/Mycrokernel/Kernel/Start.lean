import Mycrokernel.Kernel.Launch
import Mycrokernel.Kernel.Vector

/-!
# Starting

`start` marks the entries of the GDT that are in use, describes the tasks of the
kernel, wires the interrupts, and launches the display driver, the shell and the
disk driver from where the loader has put them, behind the kernel.  If they end
below the video memory, it leaves what the results about runs begin with: a booted
system of the three processes, each with its own segments (`start_boots`).
-/

namespace Mycrokernel

open Function (update update_self update_of_ne)

/-- `NUM_PORTS`. -/
def numPorts : Nat := 65536

/-- The selectors of the segment registers, in the order of the segments of `create_process`. -/
def Regs.selectors (r : Regs) : List (BitVec 16) :=
  [r.csReg, r.dsReg, r.esReg, r.fsReg, r.gsReg, r.ssReg]

/-- A segment of the kernel, in `globalDT`. -/
def kernelSegment (props1 : BitVec 8) : SegDesc where
  limit := 0xffff
  base1 := (0xffff &&& kernelBase).setWidth 16
  base2 := (kernelBase >>> 16).setWidth 8
  props1 := props1
  props2 := 0b1001111
  base3 := (kernelBase >>> 24).setWidth 8

/-- `globalDT`, which the loader reads from the disk. -/
def globalDT : List SegDesc :=
  [{}, kernelSegment 0b10011010, kernelSegment 0b10010010, kernelSegment 0b10010010,
    { limit := 0x0200, base1 := 0x0500, base2 := 0, props1 := 0b10011010, props2 := 0b01001111 },
    { limit := 0x0fa2, base1 := 0x8000, base2 := 0xb, props1 := 0b10010010, props2 := 0b01000000 },
    { limit := 0xffff, base1 := 0, base2 := 0, props1 := 0b10010010, props2 := 0b11001111 },
    kernelSegment 0b10010010]

/-- What the loader passes, the sizes the images were built with, and where the linker has put
the tasks of the kernel. -/
structure Image where
  gdtLimit : BitVec 16
  kernelSize : Word
  videoSize : Word
  shellSize : Word
  hdSize : Word
  kernelstate : Ptr
  interruptState : Nat → Ptr
  exceptionState : Nat → Ptr
  /-- What `write_tss_desc` finds on the stack above its arguments, for each process. -/
  above : Nat → Nat → Word

namespace Image

variable (img : Image)

/-- Where the images of the processes begin. -/
def videoBase : Word := kernelBase + img.kernelSize
def shellBase : Word := img.videoBase + img.videoSize
def hdBase : Word := img.shellBase + img.shellSize

/-- A process whose segments are all its image, but for one that is given. -/
def processArgs (base size gsegmBase gsegmLimit : Word) (name : List (BitVec 8))
    (above : Nat → Word) : ProcessArgs where
  privilege := 3
  schedticks := 1
  start := 0
  csegmBase := base
  dsegmBase := base
  esegmBase := base
  fsegmBase := base
  gsegmBase := gsegmBase
  ssegmBase := base
  csegmLimit := size
  dsegmLimit := size
  esegmLimit := size
  fsegmLimit := size
  gsegmLimit := gsegmLimit
  ssegmLimit := size
  name := name
  above := above

/-- The display driver: `gs` is the video memory. -/
def tty : ProcessArgs :=
  processArgs img.videoBase img.videoSize 0xb8000 4096 [0x74, 0x74, 0x79] (img.above 0)

def shell : ProcessArgs :=
  processArgs img.shellBase img.shellSize img.shellBase img.shellSize
    [0x73, 0x68, 0x65, 0x6c, 0x6c] (img.above 1)

def hd : ProcessArgs :=
  processArgs img.hdBase img.hdSize img.hdBase img.hdSize [0x68, 0x64] (img.above 2)

def processes : List ProcessArgs := [img.tty, img.shell, img.hd]

/-- The images end below the video memory. -/
def Fits : Prop :=
  kernelBase.toNat + img.kernelSize.toNat + img.videoSize.toNat + img.shellSize.toNat +
    img.hdSize.toNat ≤ 0xa0000

variable {img}

/-- A segment that ends below its bound. -/
theorem roomy_of_le {seg : Segment}
    (h : seg.base.toNat + seg.limit.toNat ≤ lowerBound seg.video) : Kernel.Roomy seg := by
  have hlower := lowerBound_le seg.video
  refine ⟨?_, ?_, by omega⟩
  · intro heq
    have hlarge : seg.base.toNat = 0xffffffff := congrArg BitVec.toNat heq
    omega
  · rw [memAreaValid_iff, Nat.mod_eq_of_lt (by omega)]
    omega

theorem below_processArgs {base size gsegmBase gsegmLimit : Word} {name : List (BitVec 8)}
    {above : Nat → Word} (h : base.toNat + size.toNat ≤ 0xa0000)
    (hgs : gsegmBase.toNat + gsegmLimit.toNat ≤ 0xc0000) :
    ∀ seg ∈ (processArgs base size gsegmBase gsegmLimit name above).segments,
      seg.base.toNat + seg.limit.toNat ≤ lowerBound seg.video := by
  intro seg hseg
  simp only [ProcessArgs.segments, processArgs, List.mem_cons, List.not_mem_nil, or_false] at hseg
  rcases hseg with rfl | rfl | rfl | rfl | rfl | rfl
  all_goals first | exact h | exact hgs

/-- The images follow each other. -/
theorem Fits.bases (h : img.Fits) :
    img.videoBase.toNat + img.videoSize.toNat = img.shellBase.toNat ∧
      img.shellBase.toNat + img.shellSize.toNat = img.hdBase.toNat ∧
      img.hdBase.toNat + img.hdSize.toNat ≤ 0xa0000 := by
  unfold Image.Fits at h
  have hvideo : img.videoBase.toNat = kernelBase.toNat + img.kernelSize.toNat := by
    rw [videoBase, BitVec.toNat_add, Nat.mod_eq_of_lt (by omega)]
  have hshell : img.shellBase.toNat = img.videoBase.toNat + img.videoSize.toNat := by
    rw [shellBase, BitVec.toNat_add, Nat.mod_eq_of_lt (by omega)]
  have hhd : img.hdBase.toNat = img.shellBase.toNat + img.shellSize.toNat := by
    rw [hdBase, BitVec.toNat_add, Nat.mod_eq_of_lt (by omega)]
  omega

/-- The segments end below the hole. -/
theorem Fits.below (h : img.Fits) : ∀ a ∈ img.processes, ∀ seg ∈ a.segments,
    seg.base.toNat + seg.limit.toNat ≤ lowerBound seg.video := by
  obtain ⟨hvideo, hshell, hhd⟩ := h.bases
  intro a ha
  simp only [processes, List.mem_cons, List.not_mem_nil, or_false] at ha
  rcases ha with rfl | rfl | rfl
  · exact below_processArgs (by omega) (by decide)
  · exact below_processArgs (by omega) (by omega)
  · exact below_processArgs hhd (by omega)

/-- The segments begin behind the kernel. -/
theorem Fits.bases_above (h : img.Fits) : ∀ a ∈ img.processes, ∀ seg ∈ a.segments,
    img.videoBase.toNat ≤ seg.base.toNat := by
  obtain ⟨hvideo, hshell, hhd⟩ := h.bases
  intro a ha seg hseg
  simp only [processes, List.mem_cons, List.not_mem_nil, or_false] at ha
  have hmonitor : img.videoBase.toNat ≤ (0xb8000 : Word).toNat := by
    show img.videoBase.toNat ≤ 0xb8000
    omega
  rcases ha with rfl | rfl | rfl
  all_goals
    simp only [ProcessArgs.segments, tty, shell, hd, processArgs, List.mem_cons, List.not_mem_nil,
      or_false] at hseg
    rcases hseg with rfl | rfl | rfl | rfl | rfl | rfl
  all_goals first | exact hmonitor | (dsimp only; omega)

theorem Fits.roomy (h : img.Fits) : ∀ a ∈ img.processes, ∀ seg ∈ a.segments, Kernel.Roomy seg :=
  fun a ha seg hseg => roomy_of_le (h.below a ha seg hseg)

end Image

theorem Sched.Shares.congr [Layout] {procs : Finset Ptr} {f g : Ptr → Word} (h : Sched.Shares procs f)
    (hfg : ∀ p ∈ procs, g p = f p) : Sched.Shares procs g := by
  refine ⟨h.null_notMem, h.idle_notMem, fun p hp => ?_, ?_⟩
  · rw [hfg p hp]
    exact h.pos p hp
  · rw [Finset.sum_congr rfl fun p hp => congrArg BitVec.toNat (hfg p hp)]
    exact h.fits

theorem Hardware.wired (h : Hardware) :
    ∃ h', h.wire = some h' ∧ h'.idt = hookExceptions (hookInterrupts h.idt) :=
  ⟨_, Option.map_eq_some_iff.2 ⟨_, remapPics_eq _ _ _, rfl⟩, rfl⟩

namespace Kernel

variable [Layout] {s k m l : Kernel} {a : ProcessArgs} {p : Ptr} {w : Word} {ws : List Word}
  {img : Image} {n : Nat}

/-! ## The steps of `start` -/

/-- `init_port_accessers`. -/
def initPortAccessers (s : Kernel) : Kernel :=
  { s with portAccessers := fun port =>
      if port.toNat < numPorts then null else s.portAccessers port }

/-- The entries of the GDT the loader has filled in. -/
def markDefaults (s : Kernel) : Kernel :=
  (List.range 8).foldl (fun s i => s.unfreeGdtIdx (BitVec.ofNat 32 i * 8)) s

/-- The tasks of the kernel, by the index of their entry: the kernel, the idle task, the
interrupts and the exceptions. -/
def tasks (img : Image) : List (Word × Ptr) :=
  (8, img.kernelstate) :: (9, idlestate) ::
    (interruptNumbers.map fun n => (10 + BitVec.ofNat 32 n, img.interruptState n)) ++
    exceptionNumbers.map fun n => (26 + BitVec.ofNat 32 n, img.exceptionState n)

def describeTask (s : Kernel) (task : Word × Ptr) : Kernel :=
  s.writeTssDesc (task.1 * 8) 104 (task.2 + kernelBase) 1 0 0

/-- `PID_KERNEL`, `PID_IDLE`, and the pids of the interrupts and the exceptions. -/
def kernelPids : List Word :=
  [1, 0] ++ (interruptNumbers.map fun n => 2 + BitVec.ofNat 32 n) ++
    exceptionNumbers.map fun n => 18 + BitVec.ofNat 32 n

/-- `_create_process`, and `_enqueue` of what it returns. -/
def launch (s : Kernel) (a : ProcessArgs) : Option Kernel :=
  (s.createProcess a).bind fun (s, process) => s.enqueue process

/-- `start`, up to where it enables interrupts.  What it prints is left out, and so are the clock
and `memory`, which nothing reads. -/
def start (s : Kernel) (h : Hardware) (img : Image) : Option (Kernel × Hardware) :=
  let s := { s with gdtLimit := img.gdtLimit }
  let s := s.initPortAccessers
  let s := s.markDefaults
  let s := (tasks img).foldl describeTask s
  let s := kernelPids.foldl unfreePid s
  h.wire.bind fun h => (img.processes.foldlM launch s).map fun s => (s, h)

/-- The static variables have the values they are declared with, and no process has been
created. -/
structure Loaded (s : Kernel) : Prop where
  sched : s.sched = Sched.created fun _ => 0
  state : ∀ i < maxNoProcs, s.state (proctab i) = Flag.empty
  interrupts : ∀ i < maxNoProcs, s.interrupts (proctab i) = 0
  featureTable : ∀ idx < featureTableSize, s.featureTable idx = { supplier := null, waiter := null }
  irqs : ∀ number ≤ maxIrq, s.irqs number = null
  /-- The table of ports has no further entries. -/
  portAccessers : ∀ port : Word, numPorts ≤ port.toNat → s.portAccessers port = null
  gdtBitmap : ∀ i < 1024#32, s.kmem (Layout.gdtBitmap + i) = 0
  gdt : ∀ w < 8, s.gdt (BitVec.ofNat 32 w * 8) = globalDT.getD w {}
  exchanges : s.exchanges = []
  freedGdt : s.freedGdt = []
  freedPids : s.freedPids = []
  portLog : s.portLog = []

/-- The GDT bitmap and the part of the pid bitmap that `start` writes are apart. -/
def BitmapsApart : Prop := ∀ i < 1024#32, ∀ j < 8#32, Layout.gdtBitmap + i ≠ Layout.pidBitmap + j

/-- Behind the process table, `pproctab` goes on with something that is no slot. -/
def TableEnds : Prop := ∀ i < maxNoProcs, proctab i ≠ proctab maxNoProcs

/-! ## Marking -/

/-- The state after indices `ws` of the GDT have been marked. -/
structure Marks (s : Kernel) (ws : List Word) (k : Kernel) : Prop where
  only : TableOnly s k
  bit : ∀ i, k.gdtBit i = true ↔ s.gdtBit i = true ∨ i ∈ ws
  ends : ∀ last < 8192, (∀ w ∈ ws, w.toNat ≤ last) → s.EndsBy last → k.EndsBy last

theorem Marks.trans {vs : List Word} (h : Marks s ws k) (h' : Marks k vs l) :
    Marks s (ws ++ vs) l := by
  refine ⟨h.only.trans h'.only, fun i => ?_, fun last hlast hw hs => ?_⟩
  · rw [h'.bit, h.bit, List.mem_append, or_assoc]
  · exact h'.ends last hlast (fun w hv => hw w (by simp [hv]))
      (h.ends last hlast (fun w hv => hw w (by simp [hv])) hs)

theorem marks_unfree (s : Kernel) (hw : w < noAvlDscrpts) : Marks s [w] (s.unfreeGdtIdx (w * 8)) := by
  refine ⟨rfl, fun i => ?_, fun _ _ _ h => h⟩
  rw [gdtBit, unfreeGdtIdx, index_offset hw, (unfreeBitInBitfield_spec s.kmem _ w).bit_eq i,
    List.mem_singleton]
  split
  next hi => simp [hi]
  next hi => simp [hi, gdtBit]

theorem marks_writeDesc (s : Kernel) (hw : w < noAvlDscrpts) (limit base attr access : Word) :
    Marks s [w] (s.writeDesc (w * 8) limit base attr access) := by
  refine ⟨tableOnly_writeDesc .., fun i => ?_, fun last hlast hws h => ?_⟩
  · rw [writeDesc_gdtBit, index_offset hw, List.mem_singleton]
    split
    next hi => simp [hi]
    next hi => simp [hi]
  · exact h.writeDesc (hws w (by simp)) hlast ..

/-- Entries marked one after the other. -/
theorem marks_foldl {β : Type} {f : Kernel → β → Kernel} {index : β → Word} {bs : List β}
    (hf : ∀ s, ∀ b ∈ bs, Marks s [index b] (f s b)) (s : Kernel) :
    Marks s (bs.map index) (bs.foldl f s) := by
  induction bs generalizing s with
  | nil => exact ⟨.refl s, by simp, fun _ _ _ h => h⟩
  | cons b bs ih =>
    exact (hf s b (by simp)).trans (ih (fun s b hb => hf s b (by simp [hb])) _)

/-- The indices that `start` marks. -/
def kernelEntries : List Word :=
  (List.range 8).map (BitVec.ofNat 32 ·) ++
    (8 :: 9 :: interruptNumbers.map (10 + BitVec.ofNat 32 ·) ++
      exceptionNumbers.map (26 + BitVec.ofNat 32 ·))

theorem tasks_indices (img : Image) : (tasks img).map Prod.fst =
    8 :: 9 :: interruptNumbers.map (10 + BitVec.ofNat 32 ·) ++
      exceptionNumbers.map (26 + BitVec.ofNat 32 ·) := by
  simp [tasks, Function.comp_def]

omit [Layout] in
/-- A finite check of a list. -/
theorem forall_mem_of_all {β : Type} {l : List β} {P : β → Prop} [DecidablePred P]
    (h : l.all (fun b => decide (P b)) = true) : ∀ b ∈ l, P b := fun b hb =>
  of_decide_eq_true (List.all_eq_true.1 h b hb)

omit [Layout] in
theorem kernelEntries_lt : ∀ w ∈ kernelEntries, w < noAvlDscrpts :=
  forall_mem_of_all (by decide)

/-- The defaults and the tasks are marked. -/
theorem marks_kernel (s : Kernel) (img : Image) :
    Marks s kernelEntries ((tasks img).foldl describeTask s.markDefaults) := by
  have hdefaults : Marks s ((List.range 8).map (BitVec.ofNat 32 ·)) s.markDefaults :=
    marks_foldl (fun s i hi => marks_unfree s
      (kernelEntries_lt _ (List.mem_append_left _ (List.mem_map_of_mem hi)))) s
  have htasks : Marks s.markDefaults ((tasks img).map Prod.fst)
      ((tasks img).foldl describeTask s.markDefaults) := by
    refine marks_foldl (fun s task htask => marks_writeDesc s (kernelEntries_lt _ ?_) ..) _
    have hmem : task.1 ∈ (tasks img).map Prod.fst := List.mem_map_of_mem htask
    rw [tasks_indices] at hmem
    exact List.mem_append_right _ hmem
  rw [tasks_indices] at htasks
  exact hdefaults.trans htasks

theorem gdtBit_congr (h : ∀ i < 1024#32, k.kmem (Layout.gdtBitmap + i) = s.kmem (Layout.gdtBitmap + i))
    (hw : w < noAvlDscrpts) : k.gdtBit w = s.gdtBit w := by
  have hbyte : w / 8 < 1024#32 := by
    have hlt : w.toNat < 8192 := hw
    rw [BitVec.lt_def, BitVec.toNat_udiv]
    show w.toNat / 8 < 1024
    omega
  rw [gdtBit, gdtBit, bit, bit, h _ hbyte]

/-- Marking the pids leaves the GDT bitmap alone. -/
theorem unfreePids_gdtBit (happart : BitmapsApart) (pids : List Word) (hpids : ∀ w ∈ pids, w < 64#32)
    (s : Kernel) (i : Word) (hi : i < 1024#32) :
    (pids.foldl unfreePid s).kmem (Layout.gdtBitmap + i) = s.kmem (Layout.gdtBitmap + i) := by
  induction pids generalizing s with
  | nil => rfl
  | cons pid pids ih =>
    have hbyte : pid / 8 < 8#32 := by
      have hlt : pid.toNat < 64 := hpids pid (by simp)
      rw [BitVec.lt_def, BitVec.toNat_udiv]
      show pid.toNat / 8 < 8
      omega
    rw [List.foldl_cons, ih (fun w hw => hpids w (by simp [hw]))]
    exact (unfreeBitInBitfield_spec s.kmem Layout.pidBitmap pid).bytes _ (happart i hi _ hbyte)

theorem unfreePids_eq (pids : List Word) (s : Kernel) : ∃ kmem usedPids,
    pids.foldl unfreePid s = { s with kmem, usedPids } := by
  induction pids generalizing s with
  | nil => exact ⟨s.kmem, s.usedPids, rfl⟩
  | cons pid pids ih =>
    obtain ⟨kmem, usedPids, h⟩ := ih (s.unfreePid pid)
    exact ⟨kmem, usedPids, h⟩

theorem unfreePids_gdtLimit (pids : List Word) (s : Kernel) :
    (pids.foldl unfreePid s).gdtLimit = s.gdtLimit := by
  obtain ⟨kmem, usedPids, h⟩ := unfreePids_eq pids s
  rw [h]

theorem unfreePids_gdt (pids : List Word) (s : Kernel) : (pids.foldl unfreePid s).gdt = s.gdt := by
  obtain ⟨kmem, usedPids, h⟩ := unfreePids_eq pids s
  rw [h]

/-! ## What is free then -/

/-- The entries of the GDT that are free when the processes are launched: one between the
exceptions, whose numbers leave out 15, and those behind them. -/
def freeEntries : List Word := 41 :: (List.range 20).map (46 + BitVec.ofNat 32 ·)

section

omit [Layout]

theorem freeEntries_sorted : freeEntries.Pairwise (· < ·) := by decide

theorem freeEntries_lt : ∀ w ∈ freeEntries, w < noAvlDscrpts :=
  forall_mem_of_all (by decide)

theorem freeEntries_unmarked : ∀ w ∈ freeEntries, w ∉ kernelEntries :=
  forall_mem_of_all (by decide)

theorem entries_cover : ∀ w ∈ freeEntries, ∀ j < w, j ∉ freeEntries → j ∈ kernelEntries := by
  intro w hw j hj
  have hsmall : ∀ w ∈ freeEntries, w ≤ 65#32 := forall_mem_of_all (by decide)
  have hall : ∀ n < 66, BitVec.ofNat 32 n ∉ freeEntries → BitVec.ofNat 32 n ∈ kernelEntries := by
    decide
  have hjlt : j.toNat < 66 := by
    have hlt : j.toNat < w.toNat := hj
    have hle : w.toNat ≤ 65 := hsmall w hw
    omega
  have hjall := hall j.toNat hjlt
  rwa [BitVec.ofNat_toNat, BitVec.setWidth_eq] at hjall

end

theorem freeList_of_marks (h : Marks s kernelEntries k) (hclear : ∀ w < noAvlDscrpts, s.gdtBit w = false) :
    FreeList k freeEntries := by
  refine ⟨freeEntries_sorted, freeEntries_lt, fun w hw => ?_, fun w hw j hj hjw => ?_⟩
  · rw [← Bool.not_eq_true, h.bit, not_or]
    exact ⟨by simp [hclear w (freeEntries_lt w hw)], freeEntries_unmarked w hw⟩
  · exact (h.bit j).2 (Or.inr (entries_cover w hw j hj hjw))

/-- The entries that the `n`-th process gets: six for its segments, and one for its task state. -/
def entriesOf (n : Nat) : List Word := (freeEntries.drop (7 * n)).take 6
def tssOf (n : Nat) : Word := freeEntries.getD (7 * n + 6) 0

section

omit [Layout]

theorem freeEntries_drop : ∀ n < 3,
    freeEntries.drop (7 * n) = entriesOf n ++ tssOf n :: freeEntries.drop (7 * (n + 1)) := by
  decide

theorem entriesOf_length : ∀ n < 3, (entriesOf n).length = 6 := by decide

theorem entriesOf_subset (n : Nat) : ∀ w ∈ entriesOf n, w ∈ freeEntries := fun _ hw =>
  List.mem_of_mem_drop (List.mem_of_mem_take hw)

theorem entriesOf_lt (n : Nat) : ∀ w ∈ entriesOf n, w < noAvlDscrpts := fun w hw =>
  freeEntries_lt w (entriesOf_subset n w hw)

theorem tssOf_mem : ∀ n < 3, tssOf n ∈ freeEntries := by decide

theorem entriesOf_nodup (n : Nat) : (entriesOf n).Nodup :=
  ((freeEntries_sorted.imp fun h => BitVec.ne_of_lt h).drop).take

theorem tssOf_notMem : ∀ n < 3, tssOf n ∉ entriesOf n := by decide

/-- All the entries of the `n`-th process. -/
def handedTo (n : Nat) : List Word := entriesOf n ++ [tssOf n]

theorem handedTo_subset : ∀ n < 3, ∀ w ∈ handedTo n, w ∈ freeEntries := by
  intro n hn w hw
  rw [handedTo, List.mem_append, List.mem_singleton] at hw
  rcases hw with hw | rfl
  · exact entriesOf_subset n w hw
  · exact tssOf_mem n hn

theorem handedTo_le : ∀ n < 3, (handedTo n).all (fun w => w.toNat ≤ 65) = true := by decide

/-- No entry is handed out twice. -/
theorem entries_apart : ∀ i < 3, ∀ n < 3, i < n →
    (handedTo i).all (fun w => w ∉ handedTo n) = true := by decide

/-! ## Launching -/

/-- The slots of the first `n` processes. -/
def slots (n : Nat) : List Ptr := (List.range n).map proctab

/-- The segment registers of `p` select the segments that it was to have. -/
structure Resident (s : Kernel) (p : Ptr) (a : ProcessArgs) (ws : List Word) : Prop where
  selectors : (s.regs p).selectors = (List.range 6).map (selectorOf a ws)
  descriptors : ∀ w seg, (w, seg) ∈ ws.zip a.segments → s.gdt (w * 8) = segmentDesc a.privilege seg

/-- What creating and enqueueing processes leaves alone. -/
structure Kept (m s : Kernel) : Prop where
  interrupts : s.interrupts = m.interrupts
  featureTable : s.featureTable = m.featureTable
  irqs : s.irqs = m.irqs
  portAccessers : s.portAccessers = m.portAccessers
  exchanges : s.exchanges = m.exchanges
  freedGdt : s.freedGdt = m.freedGdt
  freedPids : s.freedPids = m.freedPids
  portLog : s.portLog = m.portLog
  mem : s.mem = m.mem

theorem TableOnly.kept (h : TableOnly s k) : Kept s k := by
  unfold TableOnly at h
  rw [← h]
  exact ⟨rfl, rfl, rfl, rfl, rfl, rfl, rfl, rfl, rfl⟩

theorem Kept.trans (h : Kept m s) (h' : Kept s k) : Kept m k :=
  ⟨h'.interrupts.trans h.interrupts, h'.featureTable.trans h.featureTable, h'.irqs.trans h.irqs,
    h'.portAccessers.trans h.portAccessers, h'.exchanges.trans h.exchanges,
    h'.freedGdt.trans h.freedGdt, h'.freedPids.trans h.freedPids, h'.portLog.trans h.portLog,
    h'.mem.trans h.mem⟩

end

/-- The processes `as` have been launched from the state `m`. -/
structure Launching (m : Kernel) (as : List ProcessArgs) (s : Kernel) : Prop where
  sched : s.sched = (slots as.length).foldl (Sched.launch 1) (Sched.created fun _ => 0)
  state : ∀ i < maxNoProcs, s.state (proctab i) = if i < as.length then 0 else Flag.empty
  firstSender : ∀ i < as.length, s.firstSender (proctab i) = null
  nextSender : ∀ i < as.length, s.nextSender (proctab i) = null
  receivingFrom : ∀ i < as.length, s.receivingFrom (proctab i) = null
  kept : Kept m s
  free : FreeList s (freeEntries.drop (7 * as.length))
  resident : ∀ i a, as[i]? = some a → Resident s (proctab i) a (entriesOf i)
  idxTss : ∀ i < as.length, s.idxTss (proctab i) = (tssOf i * 8).setWidth 16
  tss : ∀ i a, as[i]? = some a → s.gdt (tssOf i * 8) = tssDesc (proctab i) a
  ends : s.EndsBy 65
  others : ∀ w < noAvlDscrpts, w ∉ freeEntries → s.gdt (w * 8) = m.gdt (w * 8)

theorem slots_succ (n : Nat) : slots (n + 1) = slots n ++ [proctab n] := by
  simp [slots, List.range_succ]

theorem mem_slots {n : Nat} : p ∈ slots n ↔ ∃ i < n, proctab i = p := by simp [slots]

theorem proctab_notMem_slots {n i : Nat} (hn : n ≤ i) (hi : i < maxNoProcs) : proctab i ∉ slots n := by
  rw [mem_slots]
  rintro ⟨j, hj, heq⟩
  have := Layout.proctab_inj j (by omega) i hi heq
  omega

theorem launched_slots (n : Nat) : Sched.Launched 1
    ((slots n).foldl (Sched.launch 1) (Sched.created fun _ => 0)) (slots n) := by
  induction n with
  | zero => exact Sched.launched_created 1
  | succ n ih =>
    rw [slots_succ, List.foldl_append]
    exact ih.launch

variable {as : List ProcessArgs}

/-- The first slot that is empty is the one behind those that have been filled. -/
theorem Launching.emptySlot (h : Launching m as s) (hn : as.length < maxNoProcs) (hend : TableEnds) :
    s.emptySlot (maxNoProcs + 1) 0 = some (proctab as.length) := by
  refine (emptySlot_lowest ⟨⟨hn, ?_⟩, fun i hi => ?_⟩).2 fun j hj => hend j (by omega)
  · rw [h.state _ hn, if_neg (Nat.lt_irrefl _)]
  · by_contra hlt
    have hempty := hi.2
    rw [h.state i hi.1, if_pos (Nat.not_le.1 hlt)] at hempty
    exact absurd hempty (by decide)

omit [Layout] in
/-- A slot that is filled in while the run queue is left to `create_process`. -/
theorem fillSlot_sched (k : Kernel) (p : Ptr) (a : ProcessArgs) (tss : Word) (sel : Nat → BitVec 16) :
    (k.fillSlot p a tss sel).sched = k.sched.fill a.schedticks p := rfl

theorem offset_inj {v w : Word} (hv : v < noAvlDscrpts) (hw : w < noAvlDscrpts)
    (h : v * 8 = w * 8) : v = w := by
  rw [← index_offset hv, h, index_offset hw]

/-- Launching a process leaves the entries of others alone. -/
theorem gdt_of_notMem {gdt gdt' : Word → SegDesc} {privilege : Word} {segs : List Segment} {d : SegDesc}
    (hgdt : gdt' = update (describe privilege gdt (entriesOf n) segs) (tssOf n * 8) d) (hn : n < 3)
    (hw : w < noAvlDscrpts) (hapart : w ∉ handedTo n) : gdt' (w * 8) = gdt (w * 8) := by
  have hne : ∀ v ∈ handedTo n, w * 8 ≠ v * 8 := fun v hv heq =>
    hapart (offset_inj hw (freeEntries_lt v (handedTo_subset n hn v hv)) heq ▸ hv)
  rw [hgdt, update_of_ne (hne _ (by simp [handedTo])), describe_of_notMem]
  exact fun v hv => hne v (by simp [handedTo, hv])

omit [Layout] in
theorem notMem_handedTo {i : Nat} (hi : i < 3) (hn : n < 3) (hin : i < n) (hw : w ∈ handedTo i) :
    w < noAvlDscrpts ∧ w ∉ handedTo n :=
  ⟨freeEntries_lt w (handedTo_subset i hi w hw),
    of_decide_eq_true (List.all_eq_true.1 (entries_apart i hi n hn hin) w hw)⟩

/-- What launching a process leaves behind: the next slot is filled in, and the process is queued. -/
theorem Launching.launch_eq (h : Launching m as s) (hn : as.length < 3) (hend : TableEnds)
    (hshare : a.schedticks = 1) (hsegs : ∀ seg ∈ a.segments, Roomy seg) :
    ∃ k, s.launch a = some { k.fillSlot (proctab as.length) a (tssOf as.length * 8)
          (selectorOf a (entriesOf as.length)) with
        sched := Sched.launch 1 s.sched (proctab as.length) } ∧
      TableOnly s k ∧ FreeList k (freeEntries.drop (7 * (as.length + 1))) ∧
      k.gdt = update (describe a.privilege s.gdt (entriesOf as.length) a.segments)
        (tssOf as.length * 8) (tssDesc (proctab as.length) a) ∧ k.EndsBy 65 := by
  have hmax : as.length < maxNoProcs := hn.trans (by decide)
  have hfree := h.free
  rw [freeEntries_drop _ hn] at hfree
  obtain ⟨k, hk, honly, hrest, hgdt, hends⟩ := createProcess_eq (h.emptySlot hmax hend) hsegs
    (entriesOf_length _ hn) hfree
  have hle : ∀ w ∈ handedTo as.length, w.toNat ≤ 65 := fun w hw =>
    of_decide_eq_true (List.all_eq_true.1 (handedTo_le _ hn) w hw)
  have hsched : k.sched = s.sched := (congrArg Kernel.sched honly).symm
  have henter : (k.sched.fill a.schedticks (proctab as.length)).enqueue (proctab as.length) =
      some (Sched.launch 1 s.sched (proctab as.length)) := by
    rw [hsched, hshare, h.sched]
    exact (launched_slots as.length).enqueue (proctab_notMem_slots (Nat.le_refl _) hmax)
  refine ⟨k, ?_, honly, hrest, hgdt, hends 65 (by decide) hle h.ends⟩
  rw [Kernel.launch, hk, Option.bind_some]
  dsimp only
  rw [Kernel.enqueue, fillSlot_sched, henter, Option.map_some]

omit [Layout] in
/-- The selectors in a slot that has been filled in. -/
theorem fillSlot_selectors (k : Kernel) (p : Ptr) (a : ProcessArgs) (tss : Word)
    (sel : Nat → BitVec 16) :
    ((k.fillSlot p a tss sel).regs p).selectors = (List.range 6).map sel := by
  rw [fillSlot]
  dsimp only
  rw [update_self]
  rfl

/-- The slot that has just been filled in is resident. -/
theorem resident_fillSlot (hn : n < 3)
    (hgdt : k.gdt = update (describe a.privilege s.gdt (entriesOf n) a.segments) (tssOf n * 8)
      (tssDesc p a)) :
    Resident (k.fillSlot p a (tssOf n * 8) (selectorOf a (entriesOf n))) p a (entriesOf n) := by
  refine ⟨fillSlot_selectors k _ a (tssOf n * 8) _, fun w seg hmem => ?_⟩
  have hw := (List.of_mem_zip hmem).1
  show k.gdt (w * 8) = _
  rw [hgdt, update_of_ne, describe_of_mem (entriesOf_nodup _) (entriesOf_lt _) hmem]
  intro heq
  exact tssOf_notMem _ hn (offset_inj (entriesOf_lt _ w hw) (freeEntries_lt _ (tssOf_mem _ hn)) heq ▸ hw)

/-- One process more is launched. -/
theorem Launching.launch (h : Launching m as s) (hn : as.length < 3) (hend : TableEnds)
    (hshare : a.schedticks = 1) (hsegs : ∀ seg ∈ a.segments, Roomy seg) :
    ∃ s', s.launch a = some s' ∧ Launching m (as ++ [a]) s' := by
  have hmax : as.length < maxNoProcs := hn.trans (by decide)
  obtain ⟨k, hk, honly, hrest, hgdt, hends⟩ := h.launch_eq hn hend hshare hsegs
  have hlen : (as ++ [a]).length = as.length + 1 := by simp
  have hne : ∀ i < maxNoProcs, i ≠ as.length → proctab i ≠ proctab as.length := fun i hi hne heq =>
    hne (Layout.proctab_inj i hi _ hmax heq)
  -- a field of the slot is filled in, and the slots filled in before keep theirs
  have hslot : ∀ {β : Type} (f g : Ptr → β) (v : Nat → β), f = g →
      (∀ i < as.length, g (proctab i) = v i) → ∀ i < (as ++ [a]).length,
        update f (proctab as.length) (v as.length) (proctab i) = v i := by
    intro β f g v hfg hold i hi
    by_cases hin : i = as.length
    · rw [hin, update_self]
    · rw [update_of_ne (hne i (by omega) hin), hfg, hold i (by omega)]
  have hkept := h.kept.trans honly.kept
  -- the process is the last one, or has been launched before
  have hcases : ∀ {i b}, (as ++ [a])[i]? = some b → i = as.length ∧ a = b ∨
      i < as.length ∧ as[i]? = some b := by
    intro i b hb
    by_cases hin : i = as.length
    · subst hin
      exact Or.inl ⟨rfl, by simpa using hb⟩
    · have hi : i < as.length := by
        have hlt := (List.getElem?_eq_some_iff.1 hb).1
        omega
      exact Or.inr ⟨hi, by rwa [List.getElem?_append_left hi] at hb⟩
  refine ⟨_, hk, ?_, fun i hi => ?_, hslot _ _ (fun _ => null) (congrArg Kernel.firstSender honly).symm
    h.firstSender, hslot _ _ (fun _ => null) (congrArg Kernel.nextSender honly).symm h.nextSender,
    hslot _ _ (fun _ => null) (congrArg Kernel.receivingFrom honly).symm h.receivingFrom,
    ⟨hkept.interrupts, hkept.featureTable, hkept.irqs, hkept.portAccessers, hkept.exchanges,
      hkept.freedGdt, hkept.freedPids, hkept.portLog, hkept.mem⟩, ?_, fun i b hb => ?_,
    hslot _ _ (fun i => (tssOf i * 8).setWidth 16) (congrArg Kernel.idxTss honly).symm h.idxTss,
    fun i b hb => ?_, hends, fun w hw hwf => ?_⟩
  · dsimp only
    rw [hlen, slots_succ, List.foldl_append, h.sched]
    rfl
  · show update k.state (proctab as.length) 0 (proctab i) = _
    by_cases hin : i = as.length
    · rw [hin, update_self, if_pos (by omega)]
    · rw [update_of_ne (hne i hi hin), (congrArg Kernel.state honly).symm, h.state i hi, hlen]
      simp only [show i < as.length + 1 ↔ i < as.length by omega]
  · rw [hlen]
    exact hrest.congr fun _ _ => rfl
  · obtain ⟨rfl, rfl⟩ | ⟨hi, hb⟩ := hcases hb
    · have hresident := resident_fillSlot hn hgdt
      exact ⟨hresident.selectors, hresident.descriptors⟩
    · obtain ⟨hselectors, hdescriptors⟩ := h.resident i b hb
      refine ⟨?_, fun w seg hmem => ?_⟩
      · show (update k.regs (proctab as.length) _ (proctab i)).selectors = _
        rw [update_of_ne (hne i (hi.trans hmax) (Nat.ne_of_lt hi)), (congrArg Kernel.regs honly).symm]
        exact hselectors
      · obtain ⟨hw, hapart⟩ := notMem_handedTo (hi.trans hn) hn hi
          (List.mem_append_left [tssOf i] (List.of_mem_zip hmem).1)
        exact (gdt_of_notMem hgdt hn hw hapart).trans (hdescriptors w seg hmem)
  · show k.gdt _ = _
    obtain ⟨rfl, rfl⟩ | ⟨hi, hb⟩ := hcases hb
    · rw [hgdt, update_self]
    · obtain ⟨hw, hapart⟩ := notMem_handedTo (hi.trans hn) hn hi
        (List.mem_append_right (entriesOf i) (List.mem_singleton_self _))
      rw [gdt_of_notMem hgdt hn hw hapart, h.tss i b hb]
  · have hapart : w ∉ handedTo as.length := fun hmem => hwf (handedTo_subset _ hn w hmem)
    exact (gdt_of_notMem hgdt hn hw hapart).trans (h.others w hw hwf)

/-! ## What the segments are -/

/-- The offset in the GDT that a selector leads to. -/
def gdtOffset (selector : BitVec 16) : Word := selector.setWidth 32 &&& 0xfff8

/-- A selector of a program that leads to the descriptor of a segment. -/
structure Selects (s : Kernel) (selector : BitVec 16) (seg : Segment) : Prop where
  /-- The privilege level it requests is that of a program. -/
  requested : selector.toNat % 8 = 3
  base : s.getBase (gdtOffset selector) = seg.base
  limit : s.getLimit (gdtOffset selector) = seg.limit
  present : (s.gdt (gdtOffset selector)).present = true
  privilege : (s.gdt (gdtOffset selector)).privilege = 3
  type : (s.gdt (gdtOffset selector)).typeBits = seg.type.bits

section

omit [Layout]

theorem offset_and_mask {n r : Nat} (hn : n < 8192) (hr : r < 8) : (n * 8 + r) &&& 0xfff8 = n * 8 := by
  have hmask : ∀ i, Nat.testBit 0xfff8 i = (decide (3 ≤ i) && decide (i < 16)) := by
    intro i
    rw [show 0xfff8 = 2 ^ 3 * (2 ^ 13 - 1) + 0 from rfl,
      Nat.testBit_two_pow_mul_add _ (show 0 < 2 ^ 3 by decide)]
    by_cases hi : i < 3
    · simp [hi, Nat.not_le.2 hi]
    · rw [if_neg hi, Nat.testBit_two_pow_sub_one]
      simp only [show 3 ≤ i by omega, decide_true, Bool.true_and, show i - 3 < 13 ↔ i < 16 by omega]
  apply Nat.eq_of_testBit_eq
  intro i
  rw [Nat.testBit_and, hmask, show n * 8 + r = 2 ^ 3 * n + r by omega,
    show n * 8 = 2 ^ 3 * n + 0 by omega, Nat.testBit_two_pow_mul_add _ hr,
    Nat.testBit_two_pow_mul_add _ (show 0 < 2 ^ 3 by decide)]
  by_cases hi : i < 3
  · simp [hi, Nat.not_le.2 hi]
  · by_cases hi16 : i < 16
    · simp [hi, Nat.not_lt.1 hi, hi16]
    · have hpow : 2 ^ 13 ≤ 2 ^ (i - 3) := Nat.pow_le_pow_right (by simp) (by omega)
      have hzero : n.testBit (i - 3) = false := Nat.testBit_lt_two_pow (hn.trans_le hpow)
      simp [hi, hi16, hzero]

theorem gdtOffset_selector (hw : w < noAvlDscrpts) {r : Word} (hr : r.toNat < 8) :
    gdtOffset ((w * 8 + r).setWidth 16) = w * 8 := by
  have hlt : w.toNat < 8192 := hw
  have hsum : (w * 8 + r).toNat = w.toNat * 8 + r.toNat := by
    rw [BitVec.toNat_add, BitVec.toNat_mul]
    show (w.toNat * 8 % 2 ^ 32 + r.toNat) % 2 ^ 32 = _
    omega
  apply BitVec.eq_of_toNat_eq
  rw [gdtOffset, BitVec.toNat_and, BitVec.toNat_setWidth, BitVec.toNat_setWidth, hsum,
    Nat.mod_eq_of_lt (by omega), Nat.mod_eq_of_lt (by omega)]
  show (w.toNat * 8 + r.toNat) &&& 0xfff8 = _
  rw [offset_and_mask hlt hr, BitVec.toNat_mul]
  show _ = w.toNat * 8 % 2 ^ 32
  omega

theorem getLimit_of_descriptor {privilege idx : Word} {seg : Segment} (hlimit : seg.limit.toNat ≤ 0xfffff)
    (h : s.gdt idx = segmentDesc privilege seg) : s.getLimit idx = seg.limit := by
  have hlow : (0b1000000 : Word).toNat % 0x10 = 0 := by decide
  have hhigh : seg.limit.getLsbD 23 = false := Nat.testBit_lt_two_pow (by omega)
  apply BitVec.eq_of_toNat_eq
  rw [toNat_getLimit, h, segmentDesc, encode_rawLimit hlow, encode_pageGranular, hhigh]
  simp
  omega

theorem selects_of_descriptor {seg : Segment} (hw : w < noAvlDscrpts) (hlimit : seg.limit.toNat ≤ 0xfffff)
    (h : s.gdt (w * 8) = segmentDesc 3 seg) : Selects s ((w * 8 + 3).setWidth 16) seg := by
  have hoff := gdtOffset_selector hw (r := 3) (by decide)
  refine ⟨?_, ?_, ?_, ?_, ?_, ?_⟩
  · have hlt : w.toNat < 8192 := hw
    rw [BitVec.toNat_setWidth, BitVec.toNat_add, BitVec.toNat_mul]
    show (w.toNat * 8 % 2 ^ 32 + 3) % 2 ^ 32 % 2 ^ 16 % 8 = 3
    omega
  · rw [hoff]
    exact getBase_of_encode h
  · rw [hoff]
    exact getLimit_of_descriptor hlimit h
  · rw [hoff, h, segmentDesc, segmentAccess_present (by decide)]
    decide
  · rw [hoff, h, segmentDesc, segmentAccess_privilege]
    decide
  · rw [hoff, h, segmentDesc, segmentAccess_typeBits]

/-- The selectors of a resident process select its segments, one each. -/
theorem Resident.selects (h : Resident s p a ws) (hprivilege : a.privilege = 3) (hlen : ws.length = 6)
    (hlt : ∀ w ∈ ws, w < noAvlDscrpts) (hlimit : ∀ seg ∈ a.segments, seg.limit.toNat ≤ 0xfffff) :
    List.Forall₂ (Selects s) (s.regs p).selectors a.segments := by
  have hsel : (List.range 6).map (selectorOf a ws) = ws.map fun w => (w * 8 + 3).setWidth 16 := by
    refine List.ext_getElem (by simp [hlen]) fun i hi hi' => ?_
    have hiw : i < ws.length := by simpa using hi'
    simp [selectorOf, hprivilege, hiw]
  rw [h.selectors, hsel, List.forall₂_map_left_iff, List.forall₂_iff_zip]
  refine ⟨hlen, fun {w seg} hmem => ?_⟩
  obtain ⟨hw, hseg⟩ := List.of_mem_zip hmem
  refine selects_of_descriptor (hlt w hw) (hlimit seg hseg) ?_
  rw [← hprivilege]
  exact h.descriptors w seg hmem

end

/-! ## The tasks of the kernel -/

/-- The descriptor of the task at `p`. -/
def taskDesc (p : Ptr) : SegDesc := encode 104 (p + kernelBase) (0 <<< 7) ((0 <<< 1 ||| 1 <<< 7) ||| 0b1001)

theorem describeTask_gdt (s : Kernel) (task : Word × Ptr) :
    (describeTask s task).gdt = update s.gdt (task.1 * 8) (taskDesc task.2) := writeDesc_gdt ..

theorem describeTasks_of_notMem {tasks : List (Word × Ptr)} {idx : Word}
    (h : ∀ task ∈ tasks, idx ≠ task.1 * 8) (s : Kernel) :
    (tasks.foldl describeTask s).gdt idx = s.gdt idx := by
  induction tasks generalizing s with
  | nil => rfl
  | cons task tasks ih =>
    rw [List.foldl_cons, ih fun t ht => h t (by simp [ht]), describeTask_gdt,
      update_of_ne (h task (by simp))]

/-- Tasks with entries of their own are described there. -/
theorem describeTasks_of_mem {tasks : List (Word × Ptr)} {task : Word × Ptr}
    (hnd : (tasks.map Prod.fst).Nodup) (hlt : ∀ w ∈ tasks.map Prod.fst, w < noAvlDscrpts)
    (htask : task ∈ tasks) (s : Kernel) :
    (tasks.foldl describeTask s).gdt (task.1 * 8) = taskDesc task.2 := by
  induction tasks generalizing s with
  | nil => exact absurd htask (by simp)
  | cons first tasks ih =>
    rw [List.map_cons, List.nodup_cons] at hnd
    rw [List.foldl_cons]
    by_cases hmem : task ∈ tasks
    · exact ih hnd.2 (fun w hw => hlt w (by simp [hw])) hmem _
    · obtain rfl : task = first := by simpa [hmem] using htask
      rw [describeTasks_of_notMem, describeTask_gdt, update_self]
      intro t ht heq
      have hidx := List.mem_map_of_mem (f := Prod.fst) ht
      refine hnd.1 ?_
      rwa [offset_inj (hlt task.1 (by simp)) (hlt t.1 (List.mem_cons_of_mem _ hidx)) heq]

/-- The vector leads to the task at `p`, and programs may call it. -/
def LeadsTo (s : Kernel) (h : Hardware) (vector : Nat) (p : Ptr) : Prop :=
  ∃ selector, (h.idt (BitVec.ofNat 32 vector * 8)).gate = some (.task 3 selector) ∧
    s.getBase (gdtOffset selector) = p + kernelBase ∧ (s.gdt (gdtOffset selector)).present = true

omit [Layout] in
theorem leadsTo_of_desc {h : Hardware} (hw : w < noAvlDscrpts)
    (hgate : (h.idt (BitVec.ofNat 32 n * 8)).gate = some (.task 3 ((w * 8).setWidth 16)))
    (hdesc : s.gdt (w * 8) = taskDesc p) : LeadsTo s h n p := by
  have hoff : gdtOffset ((w * 8).setWidth 16) = w * 8 := by
    have hzero := gdtOffset_selector hw (r := 0) (by decide)
    rwa [show w * 8 + 0 = w * 8 from BitVec.add_zero _] at hzero
  refine ⟨_, hgate, ?_, ?_⟩
  · rw [hoff]
    exact getBase_of_encode hdesc
  · rw [hoff, hdesc, taskDesc]
    simp [encode, SegDesc.present]

/-! ## Everything together -/

/-- The state in which the processes are launched. -/
def prepared (s : Kernel) (img : Image) : Kernel :=
  kernelPids.foldl unfreePid
    ((tasks img).foldl describeTask { s with gdtLimit := img.gdtLimit }.initPortAccessers.markDefaults)

theorem start_eq (s : Kernel) (h : Hardware) (img : Image) : start s h img =
    h.wire.bind fun h => (img.processes.foldlM launch (s.prepared img)).map fun s => (s, h) := rfl

/-- What is prepared touches the GDT, the bitmaps and the table of ports. -/
theorem prepared_eq (s : Kernel) (img : Image) : ∃ kmem gdt gdtLimit usedGdt usedPids,
    s.prepared img = { s with
      kmem, gdt, gdtLimit, usedGdt, usedPids
      portAccessers := fun port => if port.toNat < numPorts then null else s.portAccessers port } := by
  obtain ⟨kmem, usedPids, hpids⟩ := unfreePids_eq kernelPids
    ((tasks img).foldl describeTask { s with gdtLimit := img.gdtLimit }.initPortAccessers.markDefaults)
  have honly := (marks_kernel { s with gdtLimit := img.gdtLimit }.initPortAccessers img).only
  unfold TableOnly at honly
  rw [prepared, hpids, ← honly]
  exact ⟨_, _, _, _, _, rfl⟩

omit [Layout] in
theorem kernelPids_lt : ∀ w ∈ kernelPids, w < 64#32 := forall_mem_of_all (by decide)

/-- The table entries at the start of the launches. -/
theorem prepared_free (hs : s.Loaded) (happart : BitmapsApart) (img : Image) :
    FreeList (s.prepared img) freeEntries := by
  have hmarks := marks_kernel { s with gdtLimit := img.gdtLimit }.initPortAccessers img
  have hclear : ∀ w < noAvlDscrpts, s.gdtBit w = false := by
    intro w hw
    have hzero : s.gdtBit w = { s with kmem := fun _ => 0 }.gdtBit w :=
      gdtBit_congr (fun i hi => hs.gdtBitmap i hi) hw
    rw [hzero, gdtBit, bit]
    exact BitVec.getLsbD_zero
  exact (freeList_of_marks hmarks hclear).congr fun w hw =>
    gdtBit_congr (unfreePids_gdtBit happart kernelPids kernelPids_lt _) hw

theorem prepared_ends (hlimit : img.gdtLimit = 8 * 8 - 1) : (s.prepared img).EndsBy 65 := by
  have hle : ∀ w ∈ kernelEntries, w.toNat ≤ 65 := forall_mem_of_all (by decide)
  have hstart : EndsBy { s with gdtLimit := img.gdtLimit }.initPortAccessers 65 := by
    unfold EndsBy
    dsimp only [initPortAccessers]
    rw [hlimit]
    decide
  have hends := (marks_kernel _ img).ends 65 (by decide) hle hstart
  unfold EndsBy at hends ⊢
  rw [prepared, unfreePids_gdtLimit]
  exact hends

theorem Loaded.launching (hs : s.Loaded) (happart : BitmapsApart) (hlimit : img.gdtLimit = 8 * 8 - 1) :
    Launching (s.prepared img) [] (s.prepared img) := by
  obtain ⟨kmem, gdt, gdtLimit, usedGdt, usedPids, heq⟩ := prepared_eq s img
  refine ⟨?_, fun i hi => ?_, by simp, by simp, by simp, ⟨rfl, rfl, rfl, rfl, rfl, rfl, rfl, rfl, rfl⟩,
    prepared_free hs happart img, by simp, by simp, by simp, prepared_ends hlimit, fun _ _ _ => rfl⟩
  · rw [heq]
    exact hs.sched
  · rw [heq]
    exact hs.state i hi

/-- The processes are launched one after the other. -/
theorem Launching.launches {bs : List ProcessArgs} (h : Launching m as s)
    (hlen : as.length + bs.length ≤ 3) (hend : TableEnds) (hshare : ∀ b ∈ bs, b.schedticks = 1)
    (hsegs : ∀ b ∈ bs, ∀ seg ∈ b.segments, Roomy seg) :
    ∃ k, bs.foldlM Kernel.launch s = some k ∧ Launching m (as ++ bs) k := by
  induction bs generalizing s as with
  | nil => exact ⟨s, rfl, by simpa using h⟩
  | cons b bs ih =>
    rw [List.length_cons] at hlen
    obtain ⟨t, ht, hlaunched⟩ := h.launch (by omega) hend (hshare b (by simp)) (hsegs b (by simp))
    obtain ⟨k, hk, hall⟩ := ih hlaunched (by simp; omega) (fun c hc => hshare c (by simp [hc]))
      fun c hc => hsegs c (by simp [hc])
    refine ⟨k, ?_, by simpa using hall⟩
    rw [List.foldlM_cons, ht]
    exact hk

theorem mem_mainProcs : p ∈ mainProcs ↔ ∃ i < 3, proctab i = p := @mem_slots _ p 3

/-- Three processes that have been launched are a booted system: they might as well have been
created all before the first was enqueued. -/
theorem Launching.booted (hs : s.Loaded) (h : Launching (s.prepared img) as k) (hlen : as.length = 3) :
    Booted mainProcs k := by
  obtain ⟨kmem, gdt, gdtLimit, usedGdt, usedPids, heq⟩ := prepared_eq s img
  have hkept := h.kept
  rw [heq] at hkept
  have hlt : ∀ {i}, i < 3 → i < maxNoProcs := fun hi => hi.trans (by decide)
  refine ⟨{ k with sched := Sched.created fun x => if x ∈ mainProcs then 1 else 0 }, ⟨mainProcs_nodup,
    mainProcs_shares.congr fun p hp => if_pos (List.mem_toFinset.1 hp), rfl, ?_, ?_, ?_, ?_, ?_, ?_, ?_,
    ?_, ?_, ?_, ?_, ?_⟩, ?_⟩
  · intro p hp
    obtain ⟨i, hi, rfl⟩ := mem_mainProcs.1 hp
    exact (h.state i (hlt hi)).trans (if_pos (by omega))
  · intro p hp
    obtain ⟨i, hi, rfl⟩ := mem_mainProcs.1 hp
    exact (congrFun hkept.interrupts _).trans (hs.interrupts i (hlt hi))
  · intro p hp
    obtain ⟨i, hi, rfl⟩ := mem_mainProcs.1 hp
    exact h.firstSender i (by omega)
  · intro p hp
    obtain ⟨i, hi, rfl⟩ := mem_mainProcs.1 hp
    exact h.nextSender i (by omega)
  · intro p hp
    obtain ⟨i, hi, rfl⟩ := mem_mainProcs.1 hp
    exact h.receivingFrom i (by omega)
  · exact fun idx hidx => (congrFun hkept.featureTable idx).trans (hs.featureTable idx hidx)
  · exact fun number hnumber => (congrFun hkept.irqs number).trans (hs.irqs number hnumber)
  · intro port
    refine (congrFun hkept.portAccessers port).trans ?_
    dsimp only
    split
    next => rfl
    next hport => exact hs.portAccessers port (Nat.not_lt.1 hport)
  · exact hkept.exchanges.trans hs.exchanges
  · exact hkept.freedGdt.trans hs.freedGdt
  · exact hkept.freedPids.trans hs.freedPids
  · exact hkept.portLog.trans hs.portLog
  · have hnull : null ∉ mainProcs := by
      rw [mem_mainProcs]
      rintro ⟨i, hi, heq⟩
      exact Layout.proctab_ne_null i (hlt hi) heq
    rw [foldlM_enqueue]
    dsimp only
    rw [Sched.launched_sched mainProcs_nodup hnull, Option.map_some]
    have hsched := h.sched
    rw [hlen] at hsched
    rw [show mainProcs = slots 3 from rfl, ← hsched]

/-- The tasks of the kernel are still described after the launches. -/
theorem Launching.task (h : Launching (s.prepared img) as k) (htask : (w, p) ∈ tasks img) :
    w < noAvlDscrpts ∧ k.gdt (w * 8) = taskDesc p := by
  have hnd : ((tasks img).map Prod.fst).Nodup := by
    rw [tasks_indices]
    decide
  have hentries : ∀ v ∈ (tasks img).map Prod.fst, v ∈ kernelEntries := by
    rw [tasks_indices]
    exact fun v hv => List.mem_append_right _ hv
  have hw := hentries w (List.mem_map_of_mem htask)
  have hfree : w ∉ freeEntries := fun hmem => freeEntries_unmarked w hmem hw
  refine ⟨kernelEntries_lt w hw, ?_⟩
  rw [h.others w (kernelEntries_lt w hw) hfree, prepared, unfreePids_gdt]
  exact describeTasks_of_mem hnd (fun v hv => kernelEntries_lt v (hentries v hv)) htask _

theorem interrupt_mem_tasks (hn : n < 16) :
    (10 + BitVec.ofNat 32 n, img.interruptState n) ∈ tasks img := by
  have hmem := List.mem_map_of_mem (f := fun n => ((10 + BitVec.ofNat 32 n : Word), img.interruptState n))
    (mem_interruptNumbers.2 hn)
  simp only [tasks, List.mem_append, List.mem_cons]
  exact .inl (.inr (.inr hmem))

theorem exception_mem_tasks (hn : n ∈ exceptionNumbers) :
    (26 + BitVec.ofNat 32 n, img.exceptionState n) ∈ tasks img :=
  List.mem_append_right _ (List.mem_map_of_mem (f := fun n =>
    ((26 + BitVec.ofNat 32 n : Word), img.exceptionState n)) hn)

/-- `start` launches the three processes and wires the interrupts. -/
theorem start_launches (h : Hardware) (hs : s.Loaded) (hfits : img.Fits)
    (hlimit : img.gdtLimit = 8 * 8 - 1) (happart : BitmapsApart) (hend : TableEnds) :
    ∃ k h', start s h img = some (k, h') ∧ Launching (s.prepared img) img.processes k ∧
      h'.idt = hookExceptions (hookInterrupts h.idt) := by
  have hplain : ∀ a ∈ img.processes, a.schedticks = 1 := by
    simp [Image.processes, Image.tty, Image.shell, Image.hd, Image.processArgs]
  have hlen : ([] : List ProcessArgs).length + img.processes.length ≤ 3 := Nat.le_refl 3
  obtain ⟨k, hk, hlaunched⟩ := (hs.launching happart hlimit).launches hlen hend hplain hfits.roomy
  obtain ⟨h', hwire, hidt⟩ := h.wired
  refine ⟨k, h', ?_, hlaunched, hidt⟩
  rw [start_eq, hwire, Option.bind_some, hk, Option.map_some]

/-- The static variables as they are declared. -/
def declared : Kernel :=
  { blank fun _ => 0 with
    state := fun _ => Flag.empty
    gdt := fun idx => globalDT.getD (idx.toNat / 8) {} }

section

omit [Layout]

theorem declared_loaded : letI := Layout.sample; declared.Loaded := by
  let := Layout.sample
  exact ⟨rfl, fun _ _ => rfl, fun _ _ => rfl, fun _ _ => rfl, fun _ _ => rfl, fun _ _ => rfl,
    fun _ _ => rfl, by decide, rfl, rfl, rfl, rfl⟩

/-- Images of 64 KiB each. -/
def Image.sample : Image where
  gdtLimit := 0x3f
  kernelSize := 0x10000
  videoSize := 0x10000
  shellSize := 0x10000
  hdSize := 0x10000
  kernelstate := 0x3000
  interruptState n := 0x4000 + 0x80 * BitVec.ofNat 32 n
  exceptionState n := 0x5000 + 0x80 * BitVec.ofNat 32 n
  above _ _ := 0

theorem sample_bitmapsApart : letI := Layout.sample; BitmapsApart := by
  let := Layout.sample
  intro i hi j hj heq
  have hnat := congrArg BitVec.toNat heq
  rw [BitVec.lt_def] at hi hj
  change i.toNat < 1024 at hi
  change j.toNat < 8 at hj
  rw [BitVec.toNat_add, BitVec.toNat_add] at hnat
  change (0x8000 + i.toNat) % 2 ^ 32 = (0x9000 + j.toNat) % 2 ^ 32 at hnat
  omega

theorem sample_tableEnds : letI := Layout.sample; TableEnds := by
  let := Layout.sample
  intro i hi heq
  have hnat := congrArg BitVec.toNat heq
  change (0x2000 + 0x80 * i) % 2 ^ 32 = (0x2000 + 0x80 * 100) % 2 ^ 32 at hnat
  change i < 100 at hi
  omega

end

end Kernel

end Mycrokernel
