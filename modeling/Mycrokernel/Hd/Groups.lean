import Mycrokernel.Hd.Superblock

/-!
# The groups of a file system

The part of `read_superblock` before the root directory, on a disk that has a file system.

`Succeeds` joins what holds at the end of all runs and that there is such a run.

The driver takes the number of groups from two quotients, one of which does not count the last group
if it is shorter than the others.  `groups_loaded_iff` says which file systems have their groups
loaded.
-/

namespace Mycrokernel

open Function (update update_self update_of_ne)
open Bytes
open Dialogue (RunIn)

namespace Hd

variable {σ α β : Type} {answers : σ → Syscall → Reply → σ → Prop} {P : Driver → σ → Prop}
  {Q R : α → Driver → σ → Prop} {S : β → Driver → σ → Prop} {T : Driver → σ → Prop} {m : Hd α}
  {f : α → Hd β}

/-! ## All runs, of which there are some -/

/-- From a state with `P` a statement ends with `Q`, and it has a run to there. -/
structure Succeeds (answers : σ → Syscall → Reply → σ → Prop) (P : Driver → σ → Prop) (m : Hd α)
    (Q : α → Driver → σ → Prop) : Prop where
  triple : Triple answers P m Q
  passes : Passes answers P m Q

theorem succeeds_pure {a : α} (h : ∀ d e, P d e → Q a d e) : Succeeds answers P (pure a) Q where
  triple := triple_pure h
  passes := passes_pure h

theorem Succeeds.mono (h : Succeeds answers P m Q) (hQ : ∀ a d e, Q a d e → R a d e) :
    Succeeds answers P m R where
  triple := h.triple.mono (fun _ _ hP => hP) hQ
  passes := h.passes.mono hQ

theorem Succeeds.bind (h : Succeeds answers P m R) (hf : ∀ a, Succeeds answers (R a) (f a) S) :
    Succeeds answers P (m >>= f) S where
  triple := h.triple.bind fun a => (hf a).triple
  passes := h.passes.bind fun a => (hf a).passes

/-- The rule for a call of a function with the label `finish`. -/
theorem Succeeds.call {m : Hd Unit} (h : Succeeds answers P m fun _ => T)
    (hok : ∀ d e, T d e → hasFailed d.error = false) :
    Succeeds answers P (terror (finish m)) fun _ => T where
  triple := (Triple.finish (h.triple.mono (fun _ _ h => h) fun _ _ _ hT _ => hT)).terror
  passes := Passes.terror (h.passes.finish.mono fun _ d e hT => ⟨hok d e hT, hT⟩)

/-- A statement that goes on as another one from all states with `P`. -/
theorem Succeeds.congr {m' : Hd α} (h : Succeeds answers P m Q) (heq : ∀ d e, P d e → m' d = m d) :
    Succeeds answers P m' Q where
  triple := fun d e hP => heq d e hP ▸ h.triple d e hP
  passes := fun d e hP => heq d e hP ▸ h.passes d e hP

/-- Nothing has failed, and the memory is this. -/
def Running (channels : Ptr → Channel) (mem : Word → BitVec 8) (d : Driver) (_ : σ) : Prop :=
  hasFailed d.error = false ∧ d.channels = channels ∧ d.mem = mem

/-! ## Reading a block -/

variable {disk : Disk} {c c' : Channel} {channel : Ptr} {channels : Ptr → Channel}
  {partitionNr : Byte} {p p' : Partition} {mem : Word → BitVec 8} {number buffer : Word}
  {frame : Stack} {fuel n : Nat}

theorem storeWord_other {value x : Word} (h : ¬ Within null 4 x) : storeWord mem null value x = mem x := by
  have hne : ∀ k < 4, x ≠ null + BitVec.ofNat 32 k := by
    rintro k hk rfl
    exact h (within_add hk (by decide))
  have hzero : x ≠ null := hne 0 (by decide)
  have hone : x ≠ null + 1 := hne 1 (by decide)
  have htwo : x ≠ null + 2 := hne 2 (by decide)
  have hthree : x ≠ null + 3 := hne 3 (by decide)
  unfold storeWord
  rw [update_of_ne hthree, update_of_ne htwo, update_of_ne hone, update_of_ne hzero]

theorem outf_bind {fmt : List Byte} {k : Unit → Hd β} {d : Driver} :
    (outf frame fmt >>= k) d =
      (Mycrokernel.outf frame 1 fmt).bind fun o => k () (afterOutf d o) :=
  Dialogue.bind_assoc ..

/-- Only the address 0 is written to. -/
theorem succeeds_outf {fmt : List Byte} {k : Unit → Hd β} (hfmt : 0 ∈ fmt)
    (hreply : ∀ e request, ∃ reply e', answers e request reply e')
    (hk : ∀ error, Succeeds answers (Running channels (storeWord mem null error)) (k ()) S) :
    Succeeds answers (Running channels mem) (outf frame fmt >>= k) S where
  triple := by
    rintro d e ⟨hok, hchannels, rfl⟩
    rw [outf_bind]
    exact Dialogue.Always.bind (R := fun _ _ => True) (fun _ _ _ => trivial) fun o e' _ =>
      (hk o.error).triple (afterOutf d o) e' ⟨hok, hchannels, rfl⟩
  passes := by
    rintro d e ⟨hok, hchannels, rfl⟩
    rw [outf_bind]
    exact ((outf_ends_iff.mpr hfmt).sometimes hreply e).bind fun o e' _ =>
      (hk o.error).passes (afterOutf d o) e' ⟨hok, hchannels, rfl⟩

end Hd

/-- Two sectors of a disk. -/
def Disk.block (disk : Disk) (number : Nat) : Block where
  bytes := (List.range 1024).map fun i => disk.byte (number + i / 512) (i % 512)
  length_eq := by rw [List.length_map, List.length_range]

/-- The two sectors are in the buffer. -/
def Disk.Contents (disk : Disk) (number : Nat) (buffer : Word) (mem : Word → BitVec 8) : Prop :=
  ∀ i < 1024, mem (buffer + BitVec.ofNat 32 i) = disk.byte (number + i / 512) (i % 512)

namespace Hd

variable {β : Type} {S : β → Driver → Ata → Prop}
  {disk : Disk} {c c' : Channel} {channel : Ptr} {channels : Ptr → Channel}
  {partitionNr : Byte} {p p' : Partition} {mem : Word → BitVec 8} {number buffer : Word}
  {frame : Stack} {fuel n : Nat}

theorem blockAt_bind {f : Block → Hd β} {d : Driver} (h : disk.Contents n buffer d.mem) :
    (blockAt buffer >>= f) d = f (disk.block n) d := by
  have hblock : ∀ hlength, (⟨(List.range 1024).map fun i => d.mem (buffer + BitVec.ofNat 32 i),
      hlength⟩ : Block) = disk.block n := by
    intro hlength
    rw [Disk.block, Block.mk.injEq]
    exact List.map_congr_left fun i hi => h i (List.mem_range.1 hi)
  exact congrArg (fun block => f block d) (hblock _)

section Values

variable {σ : Type} {answers : σ → Syscall → Reply → σ → Prop} {S : β → Driver → σ → Prop}

theorem succeeds_get {f : Driver → Hd β}
    (h : ∀ d, Succeeds answers (Running channels mem) (f d) S) :
    Succeeds answers (Running channels mem) (get >>= f) S where
  triple := fun d e hrunning => (h d).triple d e hrunning
  passes := fun d e hrunning => (h d).passes d e hrunning

theorem succeeds_partitionAt {f : Partition → Hd β}
    (hp : (channels channel).partitions[partitionNr.toNat]? = some p)
    (h : Succeeds answers (Running channels mem) (f p) S) :
    Succeeds answers (Running channels mem) (partitionAt channel partitionNr >>= f) S :=
  h.congr fun _ _ hrunning => partitionAt_bind (hrunning.2.1 ▸ hp)

theorem succeeds_blockAt {f : Block → Hd β} (hcontents : disk.Contents n buffer mem)
    (h : Succeeds answers (Running channels mem) (f (disk.block n)) S) :
    Succeeds answers (Running channels mem) (blockAt buffer >>= f) S :=
  h.congr fun _ _ hrunning => blockAt_bind (hrunning.2.2 ▸ hcontents)

end Values

/-- What is known of the memory may depend on what has been read. -/
theorem succeeds_of_mem {σ : Type} {answers : σ → Syscall → Reply → σ → Prop} {m : Hd β}
    {S : β → Driver → σ → Prop} {C : (Word → BitVec 8) → Prop}
    (h : ∀ mem, C mem → Succeeds answers (Running channels mem) m S) :
    Succeeds answers (fun d _ => hasFailed d.error = false ∧ d.channels = channels ∧ C d.mem) m S where
  triple := fun d e ⟨hok, hchannels, hC⟩ => (h d.mem hC).triple d e ⟨hok, hchannels, rfl⟩
  passes := fun d e ⟨hok, hchannels, hC⟩ => (h d.mem hC).passes d e ⟨hok, hchannels, rfl⟩

section Reading

variable (hc : channels channel = c) (hata : c.controller = .ata)
  (hdisk : c.lbaSectors.toNat = disk.size)

include hc hata hdisk

theorem succeeds_readSector (hnumber : number.toNat < disk.size) :
    Succeeds (disk.Answers c) (Running channels mem)
      (terror (readSector (fuel + 1) number channel buffer)) fun _ d _ =>
        hasFailed d.error = false ∧ d.channels = channels ∧
          disk.Filled number.toNat buffer 512 mem d.mem := by
  have htriple : Triple (disk.Answers c) (Running channels mem)
      (terror (readSector (fuel + 1) number channel buffer)) fun _ d _ =>
        hasFailed d.error = false ∧ d.channels = channels ∧
          disk.Filled number.toNat buffer 512 mem d.mem := by
    refine Triple.terror ((triple_readSector hnumber hc).mono ?_ fun _ d r h hok => ⟨hok, h hok⟩)
    exact fun d r h => ⟨h.2.1, h.2.2, trivial⟩
  have hpasses : Passes (disk.Answers c) (Unfailed channels)
      (terror (readSector (fuel + 1) number channel buffer)) fun _ => Unfailed channels := by
    refine (passes_readSector willing_disk (by decide) hc hata ?_).unfailed
    rw [BitVec.lt_def, hdisk]
    exact hnumber
  refine ⟨htriple, fun d r h => ?_⟩
  exact ((hpasses.and htriple).mono fun _ _ _ h => h.2) d r ⟨⟨h.1, h.2.1⟩, h⟩

/-- Two sectors are read, one behind the other. -/
theorem succeeds_readBoth {k : Hd β} (hnumber : number.toNat + 1 < disk.size)
    (hk : ∀ mem', disk.Contents number.toNat buffer mem' →
      Succeeds (disk.Answers c) (Running channels mem') k S) :
    Succeeds (disk.Answers c) (Running channels mem)
      (do
        terror (readSector (fuel + 1) number channel buffer)
        terror (readSector (fuel + 1) (number + 1) channel (buffer + 512))
        k) S := by
  have hsize := disk.size_le
  have hnext : (number + 1).toNat = number.toNat + 1 := by
    rw [BitVec.toNat_add, show (1 : Word).toNat = 1 from rfl]
    omega
  refine (succeeds_readSector hc hata hdisk (by omega)).bind fun _ => succeeds_of_mem ?_
  intro mem' hfirst
  refine (succeeds_readSector hc hata hdisk (by omega)).bind fun _ => succeeds_of_mem ?_
  intro mem'' hsecond
  refine hk mem'' fun i hi => ?_
  rw [filled_halves hfirst hsecond hi, hnext]
  split
  next hlow => rw [Nat.div_eq_of_lt hlow, Nat.add_zero]
  next hhigh => rw [show i / 512 = 1 by omega]

end Reading

/-! ## Loading the groups -/

/-- The partitions make no difference to the controller. -/
theorem answers_withPartition (disk : Disk) :
    disk.Answers (withPartition channels channel partitionNr p' channel) =
      disk.Answers (channels channel) := by
  rw [withPartition, update_self]
  rfl

/-- The sector that `read_group_descriptor_table` reads first. -/
def tableSector (p : Partition) : Word :=
  p.firstSector + if p.blockSize = 1024 then 4 else p.blockSize / 512

theorem succeeds_updatePartition {f : Partition → Option Partition} {k : Partition → Hd β}
    (hp : (channels channel).partitions[partitionNr.toNat]? = some p) (hf : f p = some p')
    (hk : Succeeds (disk.Answers c) (Running (withPartition channels channel partitionNr p') mem)
      (k p') S) :
    Succeeds (disk.Answers c) (Running channels mem)
      (updatePartition channel partitionNr f >>= k) S where
  triple := by
    rintro d r ⟨hok, rfl, hmem⟩
    rw [updatePartition_bind hp hf]
    exact hk.triple _ r ⟨hok, rfl, hmem⟩
  passes := by
    rintro d r ⟨hok, rfl, hmem⟩
    rw [updatePartition_bind hp hf]
    exact hk.passes _ r ⟨hok, rfl, hmem⟩

section Loading

variable {buffers : Buffers} {frames : List Nat → Nat → Stack} {p'' : Partition}
  (hc : channels channel = c) (hata : c.controller = .ata)
  (hdisk : c.lbaSectors.toNat = disk.size)
  (hp : (channels channel).partitions[partitionNr.toNat]? = some p)

include hc hata hdisk hp

theorem succeeds_readGroupDescriptorTable (hsector : (tableSector p).toNat + 1 < disk.size)
    (hgroups : p.withGroups (disk.block (tableSector p).toNat) = some p') :
    Succeeds (disk.Answers c) (Running channels mem)
      (terror (readGroupDescriptorTable buffers (fuel + 1) channel partitionNr)) fun _ d _ =>
        hasFailed d.error = false ∧ d.channels = withPartition channels channel partitionNr p' := by
  refine Succeeds.call ?_ fun d r h => h.1
  refine succeeds_partitionAt hp (succeeds_readBoth hc hata hdisk hsector fun mem' hcontents => ?_)
  refine succeeds_blockAt hcontents (succeeds_updatePartition hp hgroups ?_)
  exact succeeds_pure fun d r h => ⟨h.1, h.2.1⟩

/-- The superblock is read and believed, and then the descriptors of its groups are loaded. -/
theorem succeeds_loadPartition (hnull : ∀ x, Within buffers.superblock 1024 x → ¬ Within null 4 x)
    (hfirst : p.firstSector.toNat + 3 < disk.size)
    (hsuperblock : p.withSuperblock (disk.block (p.firstSector.toNat + 2)) = some p')
    (hmax : p'.nrBlockGroups.toNat ≤ maxNrBlockGroups)
    (hsector : (tableSector p').toNat + 1 < disk.size)
    (hgroups : p'.withGroups (disk.block (tableSector p').toNat) = some p'') :
    Succeeds (disk.Answers c) (Running channels mem)
      (loadPartition frames buffers (fuel + 1) channel partitionNr) fun _ d _ =>
        hasFailed d.error = false ∧ d.channels =
          withPartition (withPartition channels channel partitionNr p') channel partitionNr p'' := by
  have hsize := disk.size_le
  have hnumber : (p.firstSector + 2).toNat = p.firstSector.toNat + 2 := by
    rw [BitVec.toNat_add, show (2 : Word).toNat = 2 from rfl]
    omega
  refine succeeds_partitionAt hp ?_
  refine succeeds_readBoth hc hata hdisk (by omega) fun mem' hcontents => ?_
  rw [hnumber] at hcontents
  refine succeeds_get fun d => ?_
  refine succeeds_outf (by decide) (fun r request => ?_) fun error => ?_
  · obtain ⟨reply, r', hanswers, -⟩ := willing_disk r request
    exact ⟨reply, r', hanswers⟩
  have hkept : disk.Contents (p.firstSector.toNat + 2) buffers.superblock
      (storeWord mem' null error) := by
    intro i hi
    rw [storeWord_other (hnull _ (within_add hi (by decide)))]
    exact hcontents i hi
  refine succeeds_blockAt hkept (succeeds_updatePartition hp hsuperblock ?_)
  rw [if_neg (Nat.not_lt.2 hmax)]
  subst hc
  have hanswers : disk.Answers (withPartition channels channel partitionNr p' channel) =
      disk.Answers (channels channel) := answers_withPartition disk
  rw [← hanswers]
  refine succeeds_readGroupDescriptorTable rfl ?_ ?_ (withPartition_get hp) hsector hgroups
  · rw [withPartition, update_self]
    exact hata
  · rw [withPartition, update_self]
    exact hdisk

end Loading

/-! ## The root directory -/

/-- What a function keeps it keeps in all runs. -/
theorem triple_of_keeps {σ γ : Type} {answers : σ → Syscall → Reply → σ → Prop} {m : Hd Unit}
    {view : Driver → γ} {v : γ} (h : Keeps view (finish m)) :
    Triple answers (fun d _ => view d = v) (finish m) fun _ d _ => view d = v := by
  intro d e hview e' result hrun
  have hkept := h.of_runIn hrun
  obtain ⟨_, _, -, hend⟩ := hrun.of_bind
  cases hend with
  | done => exact hkept.trans hview

section RootInode

variable {frames : List Nat → Nat → Stack} {buffers : Buffers}

theorem keeps_channels_readPointer (level i : Nat) :
    Keeps Driver.channels (readPointer frames buffers fuel channel partitionNr level i) := by
  refine Keeps.bind (keeps_get_bind fun d => keeps_pure) fun blockNr => ?_
  have hread : Keeps Driver.channels (terror (doIndirectDirectory frames fuel buffers.block channel
      partitionNr level [i] blockNr)) :=
    (keeps_channels_doIndirectDirectory frames buffers.block level [i] blockNr).terror
  dsimp only
  split
  next => exact keeps_leave.bind fun _ => hread
  next => exact hread

theorem keeps_channels_readDirectory :
    Keeps Driver.channels (readDirectory frames buffers fuel channel partitionNr) := by
  refine ((keeps_forM fun i _ => keeps_channels_readPointer 0 i).bind fun _ => ?_).finish
  refine (keeps_channels_readPointer 1 12).bind fun _ => ?_
  exact (keeps_channels_readPointer 2 13).bind fun _ => keeps_channels_readPointer 3 14

theorem keeps_channels_showInode :
    Keeps Driver.channels (showInode frames buffers fuel channel partitionNr) := by
  refine (Keeps.bind (keeps_get_bind fun d => keeps_pure) fun typeAndPerms => ?_).finish
  split
  next =>
    exact (keeps_outf memFree_channels).bind fun _ => keeps_channels_readDirectory.terror
  next => exact keeps_outf memFree_channels

theorem keeps_channels_readRootInode :
    Keeps Driver.channels (readRootInode frames buffers fuel channel partitionNr) := by
  refine ((keeps_outf memFree_channels).bind fun _ => ?_).finish
  exact keeps_channels_readInode.terror.bind fun _ => keeps_channels_showInode.terror

/-- What holds of the channels before the root directory is read holds after it. -/
theorem triple_readSuperblock {σ : Type} {answers : σ → Syscall → Reply → σ → Prop}
    {P : Driver → σ → Prop}
    (h : Triple answers P (loadPartition frames buffers fuel channel partitionNr)
      fun _ d _ => d.channels = channels) :
    Triple answers P (readSuperblock frames buffers fuel channel partitionNr)
      fun _ d _ => hasFailed d.error = false → d.channels = channels := by
  refine Triple.finish (h.bind fun _ => ?_)
  have hroot : Triple answers (fun d _ => d.channels = channels)
      (terror (readRootInode frames buffers fuel channel partitionNr))
      fun _ d _ => d.channels = channels :=
    (triple_of_keeps keeps_channels_readRootInode).terror_of
  exact hroot.mono (fun _ _ h => h) fun _ _ _ h _ => h

end RootInode

end Hd

/-! ## File systems -/

namespace Block

variable (superblock : Block)

/-- The number of the first block that is in a group. -/
def firstDataBlock : Word := superblock.word 20

/-- The first sector of the group descriptors in a file system.  They are in the block behind the
one with the superblock. -/
def descriptorSector : Nat :=
  if superblock.logBlockSize.toNat = 0 then 4 else 2 * 2 ^ superblock.logBlockSize.toNat

/-- The superblock of a file system with this number of groups, of which the last one may be
shorter than the others. -/
structure Valid (groups : Nat) : Prop where
  shift : superblock.logBlockSize.toNat < 22
  inodesPerGroup : 0 < superblock.getNrInodesPerGroup.toNat
  blocksPerGroup : 0 < superblock.getNrBlocksPerGroup.toNat
  inodes : superblock.getNrInodes.toNat = groups * superblock.getNrInodesPerGroup.toNat
  low : superblock.firstDataBlock.toNat + (groups - 1) * superblock.getNrBlocksPerGroup.toNat <
    superblock.getNrBlocks.toNat
  high : superblock.getNrBlocks.toNat ≤
    superblock.firstDataBlock.toNat + groups * superblock.getNrBlocksPerGroup.toNat

end Block

namespace Partition

/-- All groups have been counted, and each inode is in a group whose descriptor is the one on the
disk. -/
structure AllGroups (p : Partition) (superblock table : Block) (groups : Nat) : Prop where
  count : p.nrBlockGroups.toNat = groups
  loaded : ∀ inodeNr : Word, 1 ≤ inodeNr.toNat → inodeNr.toNat ≤ superblock.getNrInodes.toNat →
    Hd.groupOf p inodeNr < p.nrBlockGroups.toNat ∧
      p.blockGroups[Hd.groupOf p inodeNr]? =
        some ⟨table.getBlockAddressInodeTable (Hd.groupOf p inodeNr)⟩

variable {p p' : Partition} {superblock table : Block} {groups : Nat}

theorem computable_of_valid (h : superblock.Valid groups) : Computable superblock := by
  have hne : ∀ {x : Word}, 0 < x.toNat → x ≠ 0 := by
    rintro x hpos rfl
    exact absurd hpos (by decide)
  have hshift := h.shift
  exact ⟨by omega, hne h.inodesPerGroup, hne h.blocksPerGroup⟩

/-- The number of groups is the smaller one of the number there are and the number of those that
are not shorter than the others. -/
theorem Loaded.count (h : Loaded p superblock p') (hvalid : superblock.Valid groups) :
    p'.nrBlockGroups.toNat =
      min groups (superblock.getNrBlocks.toNat / superblock.getNrBlocksPerGroup.toNat) := by
  rw [h.groups, hvalid.inodes, Nat.mul_div_cancel _ hvalid.inodesPerGroup]

theorem allGroups_iff (hvalid : superblock.Valid groups) (h : Loaded p superblock p')
    {loaded : Vector BlockGroup maxNrBlockGroups}
    (hloaded : ∀ i < p'.nrBlockGroups.toNat, loaded[i]? = some ⟨table.getBlockAddressInodeTable i⟩) :
    AllGroups { p' with blockGroups := loaded } superblock table groups ↔
      groups * superblock.getNrBlocksPerGroup.toNat ≤ superblock.getNrBlocks.toNat := by
  rw [← Nat.le_div_iff_mul_le hvalid.blocksPerGroup]
  have hcount := h.count hvalid
  constructor
  · intro hall
    have hgroups : p'.nrBlockGroups.toNat = groups := hall.count
    omega
  · intro hle
    rw [Nat.min_eq_left hle] at hcount
    refine ⟨hcount, fun inodeNr hlow hhigh => ?_⟩
    have hgroup : Hd.groupOf p' inodeNr < groups := by
      rw [Hd.groupOf, h.inodesPerGroup, Nat.div_lt_iff_lt_mul hvalid.inodesPerGroup, ← hvalid.inodes]
      omega
    exact ⟨hcount.symm ▸ hgroup, hloaded _ (hcount.symm ▸ hgroup)⟩

end Partition

namespace Hd

variable {disk : Disk} {d : Driver} {channel : Ptr} {partitionNr : Byte} {p p' : Partition}
  {groups : Nat}

/-- `read_superblock` comes to the root directory with all groups of the file system loaded, and
ends with them unless it fails. -/
structure GroupsLoaded (disk : Disk) (d : Driver) (channel : Ptr) (partitionNr : Byte)
    (superblock table : Block) (groups : Nat) : Prop where
  before : ∀ frames (buffers : Buffers) fuel r r' d',
    (∀ x, Within buffers.superblock 1024 x → ¬ Within null 4 x) →
    RunIn (disk.Answers (d.channels channel)) r
      (loadPartition frames buffers (fuel + 1) channel partitionNr d) r' (some (), d') →
    ∃ p, (d'.channels channel).partitions[partitionNr.toNat]? = some p ∧
      p.AllGroups superblock table groups
  after : ∀ frames (buffers : Buffers) fuel r r' d',
    (∀ x, Within buffers.superblock 1024 x → ¬ Within null 4 x) →
    RunIn (disk.Answers (d.channels channel)) r
      (readSuperblock frames buffers (fuel + 1) channel partitionNr d) r' (some (), d') →
    hasFailed d'.error = false →
    ∃ p, (d'.channels channel).partitions[partitionNr.toNat]? = some p ∧
      p.AllGroups superblock table groups

/-- The driver looks for the descriptors where they are. -/
theorem tableSector_toNat {superblock : Block} (hvalid : superblock.Valid groups)
    (h : Partition.Loaded p superblock p')
    (hlt : p.firstSector.toNat + superblock.descriptorSector < 2 ^ 32) :
    (tableSector p').toNat = p.firstSector.toNat + superblock.descriptorSector := by
  have hpow : 1024 * 2 ^ superblock.logBlockSize.toNat < 2 ^ 32 := by
    have hle := Nat.pow_le_pow_right (show 0 < 2 by decide) (Nat.le_of_lt_succ hvalid.shift)
    omega
  have hsize : p'.blockSize.toNat = 1024 * 2 ^ superblock.logBlockSize.toNat := by
    rw [h.blockSize, BitVec.shiftLeft_eq', BitVec.toNat_shiftLeft, Nat.shiftLeft_eq]
    exact Nat.mod_eq_of_lt hpow
  have hoffset : (if p'.blockSize = 1024 then 4 else p'.blockSize / 512 : Word).toNat =
      superblock.descriptorSector := by
    unfold Block.descriptorSector
    have hiff : p'.blockSize = 1024 ↔ superblock.logBlockSize.toNat = 0 := by
      rw [← BitVec.toNat_inj, hsize]
      change 1024 * 2 ^ superblock.logBlockSize.toNat = 1024 ↔ _
      rw [Nat.mul_eq_left (by decide), Nat.pow_eq_one]
      omega
    rw [if_congr hiff rfl rfl]
    split
    next => rfl
    next =>
      rw [BitVec.toNat_udiv, hsize]
      change 1024 * 2 ^ superblock.logBlockSize.toNat / 512 = _
      omega
  rw [tableSector, BitVec.toNat_add, h.first, hoffset, Nat.mod_eq_of_lt hlt]

/-- A buffer that is not at the beginning of the memory. -/
theorem not_within_null {x : Word} (h : Within (0x1000 : Word) 1024 x) : ¬ Within null 4 x := by
  obtain ⟨i, hi, rfl⟩ := h.exists_add
  have hnull : ∀ y : Word, y - null = y := BitVec.sub_zero
  have hvalue : (0x1000 + BitVec.ofNat 32 i).toNat = 0x1000 + i := by
    rw [BitVec.toNat_add, BitVec.toNat_ofNat, show (0x1000 : Word).toNat = 0x1000 from rfl]
    omega
  rw [Within, hnull, hvalue]
  omega

section FileSystem

variable {superblock table : Block}
  (hp : (d.channels channel).partitions[partitionNr.toNat]? = some p)
  (hata : (d.channels channel).controller = .ata)
  (hdisk : (d.channels channel).lbaSectors.toNat = disk.size) (hok : hasFailed d.error = false)
  (hsuperblock : disk.block (p.firstSector.toNat + 2) = superblock)
  (htable : disk.block (p.firstSector.toNat + superblock.descriptorSector) = table)
  (hfirst : p.firstSector.toNat + 3 < disk.size)
  (hsector : p.firstSector.toNat + superblock.descriptorSector + 1 < disk.size)
  (hvalid : superblock.Valid groups) (hmax : groups ≤ maxNrBlockGroups)

include hp hata hdisk hsuperblock htable hfirst hsector hvalid hmax

/-- What `read_superblock` loads. -/
theorem exists_loaded : ∃ channels q,
    (∀ frames (buffers : Buffers) fuel,
      (∀ x, Within buffers.superblock 1024 x → ¬ Within null 4 x) →
      Succeeds (disk.Answers (d.channels channel)) (Running d.channels d.mem)
        (loadPartition frames buffers (fuel + 1) channel partitionNr)
        fun _ d' _ => d'.channels = channels) ∧
    (channels channel).partitions[partitionNr.toNat]? = some q ∧
    (q.AllGroups superblock table groups ↔
      groups * superblock.getNrBlocksPerGroup.toNat ≤ superblock.getNrBlocks.toNat) := by
  have hsize := disk.size_le
  obtain ⟨p', hp', hloaded⟩ :=
    Partition.exists_withSuperblock (p := p) (Partition.computable_of_valid hvalid)
  have hplace := tableSector_toNat hvalid hloaded (by omega)
  have hcount := hloaded.count hvalid
  obtain ⟨loaded, hp'', hdescriptors⟩ :=
    Partition.exists_withGroups table (show p'.nrBlockGroups.toNat ≤ maxNrBlockGroups by omega)
  rw [← htable, ← hplace] at hp''
  have hbefore : (withPartition d.channels channel partitionNr p' channel).partitions[
      partitionNr.toNat]? = some p' := withPartition_get hp
  refine ⟨_, _, fun frames buffers fuel hnull => ?_, withPartition_get hbefore,
    Partition.allGroups_iff hvalid hloaded hdescriptors⟩
  exact (succeeds_loadPartition rfl hata hdisk hp hnull hfirst (hsuperblock ▸ hp') (by omega)
    (by rw [hplace]; exact hsector) hp'').mono fun _ _ _ h => h.2

include hok

theorem GroupsLoaded.le (h : GroupsLoaded disk d channel partitionNr superblock table groups) :
    groups * superblock.getNrBlocksPerGroup.toNat ≤ superblock.getNrBlocks.toNat := by
  obtain ⟨channels, q, hsucceeds, hq, hiff⟩ :=
    exists_loaded hp hata hdisk hsuperblock htable hfirst hsector hvalid hmax
  obtain ⟨r', ⟨_, d'⟩, hrun, _, rfl, hchannels⟩ :=
    (hsucceeds (fun _ _ => default) ⟨0x1000, 0, 0, 0, fun _ => 0, fun _ => ⟨0⟩⟩ 0
      fun _ => not_within_null).passes d ⟨0, 0, 0, 0, 0, false, []⟩ ⟨hok, rfl, rfl⟩
  obtain ⟨q', hq', hgroups⟩ := h.before (fun _ _ => default)
    ⟨0x1000, 0, 0, 0, fun _ => 0, fun _ => ⟨0⟩⟩ 0 _ r' d' (fun _ => not_within_null) hrun
  rw [hchannels, hq] at hq'
  exact hiff.1 (Option.some.inj hq' ▸ hgroups)

/-- The groups of a file system are all loaded if and only if the last one is not shorter than the
others, counted from block 0. -/
theorem groups_loaded_iff : GroupsLoaded disk d channel partitionNr superblock table groups ↔
    groups * superblock.getNrBlocksPerGroup.toNat ≤ superblock.getNrBlocks.toNat := by
  refine ⟨GroupsLoaded.le hp hata hdisk hok hsuperblock htable hfirst hsector hvalid hmax,
    fun hle => ?_⟩
  obtain ⟨channels, q, hsucceeds, hq, hiff⟩ :=
    exists_loaded hp hata hdisk hsuperblock htable hfirst hsector hvalid hmax
  refine ⟨fun frames buffers fuel r r' d' hnull hrun => ?_,
    fun frames buffers fuel r r' d' hnull hrun hok' => ?_⟩
  · have htriple := (hsucceeds frames buffers fuel hnull).triple
    have hchannels := htriple d r ⟨hok, rfl, rfl⟩ _ _ hrun
    exact ⟨q, hchannels ▸ hq, hiff.2 hle⟩
  · have htriple := triple_readSuperblock (hsucceeds frames buffers fuel hnull).triple
    have hchannels := htriple d r ⟨hok, rfl, rfl⟩ _ _ hrun hok'
    exact ⟨q, hchannels ▸ hq, hiff.2 hle⟩

end FileSystem

/-- A disk of 8 GiB has sectors with addresses of 28 bits. -/
theorem eightGiB_le : 0x1000000 ≤ 2 ^ 28 := by decide

/-- A disk that has a block in two sectors, and zeros elsewhere. -/
def diskWith (number : Nat) (block : Block) : Disk where
  size := 0x1000000
  size_le := eightGiB_le
  word n i :=
    if n = number then block.half (2 * i)
    else if n = number + 1 then block.half (512 + 2 * i) else 0

theorem block_diskWith (number : Nat) (block : Block) :
    (diskWith number block).block number = block := by
  have hbyte : ∀ i < 1024, (diskWith number block).byte (number + i / 512) (i % 512) =
      block.bytes.getD i 0 := by
    intro i hi
    have hword : (diskWith number block).word (number + i / 512) (i % 512 / 2) =
        block.half (2 * (i / 2)) := by
      cases Nat.lt_or_ge i 512 with
      | inl hlow =>
        rw [Nat.div_eq_of_lt hlow, Nat.mod_eq_of_lt hlow]
        exact if_pos rfl
      | inr hhigh =>
        have hplace : 512 + 2 * (i % 512 / 2) = 2 * (i / 2) := by omega
        rw [show i / 512 = 1 by omega, ← hplace]
        exact (if_neg (Nat.succ_ne_self number)).trans (if_pos rfl)
    rw [Disk.byte, hword, Block.half]
    split
    next heven =>
      rw [BitVec.setWidth_append_eq_right, show 2 * (i / 2) = i by omega]
    next hodd =>
      rw [BitField.high_append, show 2 * (i / 2) + 1 = i by omega]
  have hbytes : (List.range 1024).map (fun i => (diskWith number block).byte (number + i / 512)
      (i % 512)) = block.bytes := by
    refine List.ext_getElem (by rw [List.length_map, List.length_range, block.length_eq])
      fun i hi hi' => ?_
    rw [List.getElem_map, List.getElem_range, hbyte i (block.length_eq ▸ hi'),
      List.getD_eq_getElem?_getD, List.getElem?_eq_getElem hi', Option.getD_some]
  cases block with
  | mk bytes hlength => exact (Block.mk.injEq ..).mpr hbytes

/-- The superblock of a file system with one group of at most 8192 blocks. -/
def oneGroup (nrBlocks : Word) : Block := superblockOf 2008 nrBlocks 1 0 8192 2008

theorem valid_oneGroup {nrBlocks : Word} (hlow : 1 < nrBlocks.toNat) (hhigh : nrBlocks.toNat ≤ 8193) :
    (oneGroup nrBlocks).Valid 1 := by
  have hfirst : (oneGroup nrBlocks).firstDataBlock = 1 := Block.word_ofWords _ (i := 5) (by decide)
  constructor
  · rw [oneGroup, superblockOf_shift]
    decide
  · rw [oneGroup, superblockOf_inodesPerGroup]
    decide
  · rw [oneGroup, superblockOf_blocksPerGroup]
    decide
  · rw [oneGroup, superblockOf_inodes, superblockOf_inodesPerGroup]
    rfl
  · rw [hfirst, oneGroup, superblockOf_blocks, superblockOf_blocksPerGroup]
    exact hlow
  · rw [hfirst, oneGroup, superblockOf_blocks, superblockOf_blocksPerGroup]
    exact hhigh

theorem descriptorSector_oneGroup (nrBlocks : Word) : (oneGroup nrBlocks).descriptorSector = 4 := by
  rw [Block.descriptorSector, oneGroup, superblockOf_shift]
  rfl

/-- The group of a file system of 8193 blocks is loaded. -/
theorem groups_loaded_full :
    GroupsLoaded (diskWith 65 (oneGroup 8193)) (onDisk (twoGroups 63)) 0 0 (oneGroup 8193)
      ((diskWith 65 (oneGroup 8193)).block 67) 1 := by
  have hsector := descriptorSector_oneGroup 8193
  refine (groups_loaded_iff (p := twoGroups 63) rfl rfl rfl rfl (block_diskWith 65 _)
    (by rw [hsector]; rfl) (by decide) (by rw [hsector]; decide)
    (valid_oneGroup (by decide) (by decide)) (by decide)).2 ?_
  rw [oneGroup, superblockOf_blocks, superblockOf_blocksPerGroup]
  decide

/-- The group of a file system of 1440 blocks is not. -/
theorem groups_loaded_fails :
    ¬ GroupsLoaded (diskWith 65 (oneGroup 1440)) (onDisk (twoGroups 63)) 0 0 (oneGroup 1440)
      ((diskWith 65 (oneGroup 1440)).block 67) 1 := by
  intro h
  have hsector := descriptorSector_oneGroup 1440
  have hle := GroupsLoaded.le (p := twoGroups 63) rfl rfl rfl rfl (block_diskWith 65 _)
    (by rw [hsector]; rfl) (by decide) (by rw [hsector]; decide)
    (valid_oneGroup (by decide) (by decide)) (by decide) h
  rw [oneGroup, superblockOf_blocks, superblockOf_blocksPerGroup] at hle
  exact absurd hle (by decide)

end Hd

end Mycrokernel
