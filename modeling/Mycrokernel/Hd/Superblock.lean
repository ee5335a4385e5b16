import Mycrokernel.Hd.Frame
import Mycrokernel.Hd.Identify

/-!
# Superblocks

`read_superblock` of `hd/main.c` takes the size of a file system from its superblock, loads the
group descriptors, and reads the root directory.

It believes what the superblock says: two fields are divisors, one is a shift count, and what comes
out is a divisor and an index in `read_inode`.  `superblock_survived_iff` says which superblocks do
no harm.
-/

namespace Mycrokernel

open Function (update update_self)

/-! ## The fields of a superblock -/

namespace Block

/-- The `uint16_t` at a place. -/
def half (block : Block) (i : Nat) : BitVec 16 :=
  block.bytes.getD (i + 1) 0 ++ block.bytes.getD i 0

/-- The `uint32_t` at a place. -/
def word (block : Block) (i : Nat) : Word := block.half (i + 2) ++ block.half i

variable (superblock : Block)

/-- The shift count of `get_block_size`. -/
def logBlockSize : Word := superblock.word 24

/-- `get_block_size`, which is undefined for a shift count from 32 on. -/
def getBlockSize : Option Word :=
  if superblock.logBlockSize < 32 then some ((1024 : Word) <<< superblock.logBlockSize) else none

/-- `get_nr_inodes`. -/
def getNrInodes : Word := superblock.word 0

/-- `get_nr_blocks`. -/
def getNrBlocks : Word := superblock.word 4

/-- `get_nr_blocks_per_group`. -/
def getNrBlocksPerGroup : Word := superblock.word 32

/-- `get_nr_inodes_per_group`. -/
def getNrInodesPerGroup : Word := superblock.word 40

/-- `get_major_version`. -/
def getMajorVersion : Word := superblock.word 76

/-- `get_minor_version`. -/
def getMinorVersion : BitVec 16 := superblock.half 62

/-- `get_inode_size`. -/
def getInodeSize : BitVec 16 := superblock.half 88

/-- `get_block_address_inode_table`, of the descriptor of a group. -/
def getBlockAddressInodeTable (table : Block) (i : Nat) : Word := table.word (32 * i + 8)

end Block

/-- A quotient, which is undefined if the divisor is zero. -/
def quotient (x y : Word) : Option Word := if y = 0 then none else some (x / y)

namespace Partition

/-- The partition with the fields that `read_superblock` gets from the superblock. -/
def withSuperblock (p : Partition) (superblock : Block) : Option Partition := do
  let blockSize ← superblock.getBlockSize
  let inodeGroups ← quotient superblock.getNrInodes superblock.getNrInodesPerGroup
  let blockGroups ← quotient superblock.getNrBlocks superblock.getNrBlocksPerGroup
  return { p with
    blockSize
    nrInodes := superblock.getNrInodes
    nrBlocks := superblock.getNrBlocks
    nrBlocksPerGroup := superblock.getNrBlocksPerGroup
    nrInodesPerGroup := superblock.getNrInodesPerGroup
    majorVersion := superblock.getMajorVersion
    inodeSize :=
      if superblock.getMajorVersion < 1 then 128 else superblock.getInodeSize.setWidth 32
    minorVersion := superblock.getMinorVersion.setWidth 32
    nrBlockGroups := if inodeGroups < blockGroups then inodeGroups else blockGroups }

/-- Assign to `block_groups[i]`, which is undefined outside the array. -/
def setGroup (p : Partition) (i : Nat) (group : BlockGroup) : Option Partition :=
  if h : i < maxNrBlockGroups then some { p with blockGroups := p.blockGroups.set i group } else none

/-- The partition after the loop of `read_group_descriptor_table`. -/
def withGroups (p : Partition) (table : Block) : Option Partition :=
  (List.range p.nrBlockGroups.toNat).foldlM
    (fun p i => p.setGroup i ⟨table.getBlockAddressInodeTable i⟩) p

end Partition

/-! ## The functions -/

/-- What the functions from `read_superblock` on find in the memory: the addresses of their buffers,
and what is behind `block_groups`. -/
structure Buffers where
  superblock : Word
  blockDescriptorTable : Word
  inode : Word
  /-- The buffer of `read_inode`. -/
  sector : Word
  /-- The buffers of `do_indirect_directory`. -/
  block : Nat → Word
  behind : Nat → BlockGroup

namespace Hd

/-- A value, where there is one.  The behaviour is undefined where there is none. -/
def defined {α : Type} : Option α → Hd α
  | some a => pure a
  | none => fun _ => .stuck

/-- Assign to fields of `channel->partitions[partition_nr]`. -/
def updatePartition (channel : Ptr) (partitionNr : Byte) (f : Partition → Option Partition) :
    Hd Partition := do
  let partition ← partitionAt channel partitionNr
  let partition ← defined (f partition)
  modifyChannel channel fun c =>
    { c with partitions := c.partitions.setIfInBounds partitionNr.toNat partition }
  return partition

/-- `read_group_descriptor_table`. -/
def readGroupDescriptorTable (buffers : Buffers) (fuel : Nat) (channel : Ptr) (partitionNr : Byte) :
    Hd Unit := finish do
  let partition ← partitionAt channel partitionNr
  let sector := partition.firstSector
  let sector := sector + if partition.blockSize = 1024 then 4 else partition.blockSize / 512
  terror (readSector fuel sector channel buffers.blockDescriptorTable)
  terror (readSector fuel (sector + 1) channel (buffers.blockDescriptorTable + 512))
  let table ← blockAt buffers.blockDescriptorTable
  let _partition ← updatePartition channel partitionNr fun p => p.withGroups table

/-- The part of `read_directory` for a pointer to a block, which is the end if it is zero. -/
def readPointer (frames : List Nat → Nat → Stack) (buffers : Buffers) (fuel : Nat) (channel : Ptr)
    (partitionNr : Byte) (level i : Nat) : Hd Unit := do
  let blockNr ← load32 buffers.inode (10 + i)
  if blockNr = 0 then leave
  terror (doIndirectDirectory frames fuel buffers.block channel partitionNr level [i] blockNr)

/-- `read_directory`. -/
def readDirectory (frames : List Nat → Nat → Stack) (buffers : Buffers) (fuel : Nat) (channel : Ptr)
    (partitionNr : Byte) : Hd Unit := finish do
  (List.range 12).forM fun i => readPointer frames buffers fuel channel partitionNr 0 i
  readPointer frames buffers fuel channel partitionNr 1 12
  readPointer frames buffers fuel channel partitionNr 2 13
  readPointer frames buffers fuel channel partitionNr 3 14

/-- `DIRECTORY`. -/
def typeDirectory : BitVec 16 := 0x4000

/-- `show_inode`. -/
def showInode (frames : List Nat → Nat → Stack) (buffers : Buffers) (fuel : Nat) (channel : Ptr)
    (partitionNr : Byte) : Hd Unit := finish do
  let typeAndPerms ← load16 buffers.inode 0
  if typeAndPerms &&& typeDirectory ≠ 0 then
    outf (frames [] 0) (stringLiteral "Reading directory")
    terror (readDirectory frames buffers fuel channel partitionNr)
  else
    outf ((frames [] 1).push (typeAndPerms.setWidth 32)) (stringLiteral "type of inode is %x")

/-- `read_root_inode`. -/
def readRootInode (frames : List Nat → Nat → Stack) (buffers : Buffers) (fuel : Nat) (channel : Ptr)
    (partitionNr : Byte) : Hd Unit := finish do
  outf (frames [] 2) (stringLiteral "Reading root inode ...")
  terror (readInode (frames [] 3) fuel buffers.behind buffers.sector channel partitionNr 2
    buffers.inode)
  terror (showInode frames buffers fuel channel partitionNr)

/-- The part of `read_superblock` before it reads the root directory. -/
def loadPartition (frames : List Nat → Nat → Stack) (buffers : Buffers) (fuel : Nat)
    (channel : Ptr) (partitionNr : Byte) : Hd Unit := do
  let partition ← partitionAt channel partitionNr
  let sector := partition.firstSector + 2
  terror (readSector fuel sector channel buffers.superblock)
  terror (readSector fuel (sector + 1) channel (buffers.superblock + 512))
  let signature := (← get).mem (buffers.superblock + 56)
  outf ((frames [] 4).push (signature.signExtend 32)) (stringLiteral "Suberblock signature: %x")
  let superblock ← blockAt buffers.superblock
  let partition ← updatePartition channel partitionNr fun p => p.withSuperblock superblock
  if maxNrBlockGroups < partition.nrBlockGroups.toNat then todoError (frames [] 5)
  terror (readGroupDescriptorTable buffers fuel channel partitionNr)

/-- `read_superblock`. -/
def readSuperblock (frames : List Nat → Nat → Stack) (buffers : Buffers) (fuel : Nat)
    (channel : Ptr) (partitionNr : Byte) : Hd Unit := finish do
  loadPartition frames buffers fuel channel partitionNr
  terror (readRootInode frames buffers fuel channel partitionNr)

/-! ## Assignments -/

section Assignments

variable {β : Type} {channels : Ptr → Channel} {channel : Ptr} {partitionNr : Byte}
  {p p' : Partition} {f : Partition → Option Partition} {d : Driver}

/-- The channels after an assignment to `channel->partitions[partition_nr]`. -/
def withPartition (channels : Ptr → Channel) (channel : Ptr) (partitionNr : Byte)
    (partition : Partition) : Ptr → Channel :=
  update channels channel { channels channel with
    partitions := (channels channel).partitions.setIfInBounds partitionNr.toNat partition }

theorem withPartition_get (hp : (channels channel).partitions[partitionNr.toNat]? = some p) :
    (withPartition channels channel partitionNr p' channel).partitions[partitionNr.toNat]? =
      some p' := by
  have hlt : partitionNr.toNat < 4 := by
    by_contra hge
    rw [Vector.getElem?_eq_none (Nat.not_lt.1 hge)] at hp
    exact absurd hp nofun
  rw [withPartition, update_self]
  exact Vector.getElem?_setIfInBounds_self_of_lt hlt

theorem updatePartition_eq (hp : (d.channels channel).partitions[partitionNr.toNat]? = some p)
    (hf : f p = some p') : updatePartition channel partitionNr f d =
      .done (some p', { d with channels := withPartition d.channels channel partitionNr p' }) := by
  rw [updatePartition, partitionAt_bind hp, hf]
  rfl

theorem updatePartition_bind {k : Partition → Hd β}
    (hp : (d.channels channel).partitions[partitionNr.toNat]? = some p) (hf : f p = some p') :
    (updatePartition channel partitionNr f >>= k) d =
      k p' { d with channels := withPartition d.channels channel partitionNr p' } := by
  change (updatePartition channel partitionNr f d).bind (goOn k) = _
  rw [updatePartition_eq hp hf]
  rfl

end Assignments

end Hd

/-! ## What is defined -/

section Defined

variable {p p' : Partition} {superblock table : Block} {x y inodeNr : Word}

theorem quotient_eq_some : (∃ z, quotient x y = some z) ↔ y ≠ 0 := by
  unfold quotient
  split
  next hzero => exact iff_of_false nofun fun h => h hzero
  next hne => exact iff_of_true ⟨_, rfl⟩ hne

theorem getBlockSize_eq_some : (∃ size, superblock.getBlockSize = some size) ↔
    superblock.logBlockSize.toNat < 32 := by
  unfold Block.getBlockSize
  split
  next hlt => exact iff_of_true ⟨_, rfl⟩ (BitVec.lt_def.1 hlt)
  next hge => exact iff_of_false nofun fun hlt => hge (BitVec.lt_def.2 hlt)

/-- The only bit of 1024 is shifted out from a count of 22 on. -/
theorem shifted_eq_zero (n : Word) : (1024 : Word) <<< n = 0 ↔ 22 ≤ n.toNat := by
  have hvalue : ((1024 : Word) <<< n).toNat = 2 ^ (10 + n.toNat) % 2 ^ 32 := by
    rw [BitVec.shiftLeft_eq', BitVec.toNat_shiftLeft, Nat.shiftLeft_eq, Nat.pow_add]
    rfl
  rw [← BitVec.toNat_inj, hvalue]
  change 2 ^ (10 + n.toNat) % 2 ^ 32 = 0 ↔ _
  rw [← Nat.dvd_iff_mod_eq_zero, Nat.pow_dvd_pow_iff_le_right (by decide)]
  omega

namespace Partition

/-- The superblock is one that `read_superblock` can compute with. -/
structure Computable (superblock : Block) : Prop where
  shift : superblock.logBlockSize.toNat < 32
  inodes : superblock.getNrInodesPerGroup ≠ 0
  blocks : superblock.getNrBlocksPerGroup ≠ 0

theorem computable_of_withSuperblock (h : p.withSuperblock superblock = some p') :
    Computable superblock := by
  obtain ⟨size, hsize, h⟩ := Option.bind_eq_some_iff.1 h
  obtain ⟨inodeGroups, hinodes, h⟩ := Option.bind_eq_some_iff.1 h
  obtain ⟨blockGroups, hblocks, -⟩ := Option.bind_eq_some_iff.1 h
  exact ⟨getBlockSize_eq_some.1 ⟨size, hsize⟩, quotient_eq_some.1 ⟨_, hinodes⟩,
    quotient_eq_some.1 ⟨_, hblocks⟩⟩

/-- What the partition gets, as far as it matters. -/
structure Loaded (p : Partition) (superblock : Block) (p' : Partition) : Prop where
  first : p'.firstSector = p.firstSector
  last : p'.lastSector = p.lastSector
  blockSize : p'.blockSize = (1024 : Word) <<< superblock.logBlockSize
  inodes : p'.nrInodes = superblock.getNrInodes
  inodesPerGroup : p'.nrInodesPerGroup = superblock.getNrInodesPerGroup
  groups : p'.nrBlockGroups.toNat =
    min (superblock.getNrInodes.toNat / superblock.getNrInodesPerGroup.toNat)
      (superblock.getNrBlocks.toNat / superblock.getNrBlocksPerGroup.toNat)

theorem exists_withSuperblock (h : Computable superblock) :
    ∃ p', p.withSuperblock superblock = some p' ∧ Loaded p superblock p' := by
  have hsize : superblock.getBlockSize = some ((1024 : Word) <<< superblock.logBlockSize) :=
    if_pos (BitVec.lt_def.2 h.shift)
  have hinodes : quotient superblock.getNrInodes superblock.getNrInodesPerGroup =
      some (superblock.getNrInodes / superblock.getNrInodesPerGroup) := if_neg h.inodes
  have hblocks : quotient superblock.getNrBlocks superblock.getNrBlocksPerGroup =
      some (superblock.getNrBlocks / superblock.getNrBlocksPerGroup) := if_neg h.blocks
  unfold withSuperblock
  rw [hsize, hinodes, hblocks]
  refine ⟨_, rfl, rfl, rfl, rfl, rfl, rfl, ?_⟩
  dsimp only
  split
  next hlt =>
    rw [BitVec.lt_def] at hlt
    rw [← BitVec.toNat_udiv, ← BitVec.toNat_udiv, Nat.min_eq_left hlt.le]
  next hge =>
    rw [BitVec.lt_def, Nat.not_lt] at hge
    rw [← BitVec.toNat_udiv, ← BitVec.toNat_udiv, Nat.min_eq_right hge]

theorem setGroup_eq {i : Nat} (group : BlockGroup) (h : i < maxNrBlockGroups) :
    p.setGroup i group = some { p with blockGroups := p.blockGroups.set i group } := dif_pos h

/-- The descriptors of the groups are loaded, and the rest is as it was. -/
theorem exists_withGroups (table : Block) (h : p.nrBlockGroups.toNat ≤ maxNrBlockGroups) :
    ∃ groups, p.withGroups table = some { p with blockGroups := groups } ∧
      ∀ i < p.nrBlockGroups.toNat,
        groups[i]? = some ⟨table.getBlockAddressInodeTable i⟩ := by
  have hloop : ∀ n ≤ maxNrBlockGroups, ∃ groups, (List.range n).foldlM
      (fun p i => p.setGroup i ⟨table.getBlockAddressInodeTable i⟩) p =
        some { p with blockGroups := groups } ∧
      ∀ i < n, groups[i]? = some ⟨table.getBlockAddressInodeTable i⟩ := by
    intro n
    induction n with
    | zero => exact fun _ => ⟨p.blockGroups, rfl, nofun⟩
    | succ n ih =>
      intro hn
      obtain ⟨groups, hfold, hgroups⟩ := ih (by omega)
      refine ⟨groups.set n ⟨table.getBlockAddressInodeTable n⟩ hn, ?_, fun i hi => ?_⟩
      · rw [List.range_succ, List.foldlM_append, hfold]
        change Option.bind (setGroup _ n _) some = _
        rw [setGroup_eq _ hn]
        rfl
      · rw [Vector.getElem?_set]
        split
        next heq => rw [heq]
        next hne => exact hgroups i (by omega)
  exact hloop _ h

theorem sectors_of_setGroup {i : Nat} {group : BlockGroup} (h : p.setGroup i group = some p') :
    p'.firstSector = p.firstSector ∧ p'.lastSector = p.lastSector := by
  unfold setGroup at h
  split at h
  next =>
    obtain rfl := Option.some.inj h
    exact ⟨rfl, rfl⟩
  next => exact absurd h nofun

/-- The descriptors do not matter to the sectors of the partition. -/
theorem sectors_of_withGroups (h : p.withGroups table = some p') :
    p'.firstSector = p.firstSector ∧ p'.lastSector = p.lastSector := by
  have hloop : ∀ (l : List Nat) (p : Partition), l.foldlM
      (fun p i => p.setGroup i ⟨table.getBlockAddressInodeTable i⟩) p = some p' →
      p'.firstSector = p.firstSector ∧ p'.lastSector = p.lastSector := by
    intro l
    induction l with
    | nil =>
      intro p hp
      obtain rfl := Option.some.inj hp
      exact ⟨rfl, rfl⟩
    | cons i l ih =>
      intro p hp
      obtain ⟨q, hq, hp⟩ := Option.bind_eq_some_iff.1 hp
      have hsame := sectors_of_setGroup hq
      have hrest := ih q hp
      exact ⟨hrest.1.trans hsame.1, hrest.2.trans hsame.2⟩
  exact hloop _ p h

/-- The place of an inode is defined if the divisors are not zero, and there is such a group. -/
theorem inodePlace_isSome (hlow : 1 ≤ inodeNr.toNat) : (Hd.inodePlace p inodeNr).isSome ↔
    p.nrInodesPerGroup ≠ 0 ∧ p.blockSize ≠ 0 ∧ Hd.groupOf p inodeNr < maxNrBlockGroups := by
  have hpred : (inodeNr - 1).toNat = inodeNr.toNat - 1 :=
    BitVec.toNat_sub_of_le (BitVec.le_def.2 hlow)
  unfold Hd.inodePlace
  split
  next hzero => exact iff_of_false (by simp) fun h => hzero.elim h.1 h.2.1
  next hne =>
    rw [not_or] at hne
    dsimp only
    rw [Option.isSome_map, BitVec.toNat_udiv, hpred, and_iff_right hne.1, and_iff_right hne.2,
      Hd.groupOf, isSome_getElem?]

/-- Nothing undefined is computed from the superblock: not in `read_superblock`, which stops if there
are too many groups, not with the group descriptors, and not for an inode that `read_inode`
accepts. -/
def Survives (p : Partition) (superblock : Block) : Prop :=
  ∃ p', p.withSuperblock superblock = some p' ∧
    (p'.nrBlockGroups.toNat ≤ maxNrBlockGroups → ∀ table, ∃ p'', p'.withGroups table = some p'' ∧
      ∀ inodeNr, ¬ (inodeNr < 1 ∨ p''.nrInodes < inodeNr) → (Hd.inodePlace p'' inodeNr).isSome)

/-- All inodes of the partition have a place if the last one has. -/
theorem inodePlace_all_iff (h : Loaded p superblock p') (hblocks : superblock.getNrInodesPerGroup ≠ 0)
    (groups : Vector BlockGroup maxNrBlockGroups) :
    (∀ inodeNr, ¬ (inodeNr < 1 ∨ p'.nrInodes < inodeNr) →
      (Hd.inodePlace { p' with blockGroups := groups } inodeNr).isSome) ↔
    (1 ≤ superblock.getNrInodes.toNat → superblock.logBlockSize.toNat < 22 ∧
      (superblock.getNrInodes.toNat - 1) / superblock.getNrInodesPerGroup.toNat <
        maxNrBlockGroups) := by
  have hsize : p'.blockSize ≠ 0 ↔ superblock.logBlockSize.toNat < 22 := by
    rw [h.blockSize, ne_eq, shifted_eq_zero, Nat.not_le]
  rw [h.inodes, ← hsize]
  constructor
  · intro hall hone
    have hlast := hall superblock.getNrInodes (by
      rw [not_or, BitVec.lt_def, BitVec.lt_def, Nat.not_lt]
      exact ⟨hone, lt_irrefl _⟩)
    obtain ⟨-, hne, hgroup⟩ := (inodePlace_isSome hone).1 hlast
    rw [Hd.groupOf, h.inodesPerGroup] at hgroup
    exact ⟨hne, hgroup⟩
  · intro hlast inodeNr hrange
    rw [not_or, BitVec.lt_def, BitVec.lt_def, Nat.not_lt, Nat.not_lt] at hrange
    obtain ⟨hne, hgroup⟩ := hlast (hrange.1.trans hrange.2)
    refine (inodePlace_isSome hrange.1).2 ⟨?_, hne, ?_⟩
    · rw [h.inodesPerGroup]
      exact hblocks
    · rw [Hd.groupOf, h.inodesPerGroup]
      exact (Nat.div_le_div_right (Nat.sub_le_sub_right hrange.2 1)).trans_lt hgroup

/-- The divisors and the shift count are good, and, if the superblock is not turned down for its
groups, the block size is not zero and the last inode is in a group of the table. -/
structure Harmless (superblock : Block) : Prop extends Computable superblock where
  last : min (superblock.getNrInodes.toNat / superblock.getNrInodesPerGroup.toNat)
      (superblock.getNrBlocks.toNat / superblock.getNrBlocksPerGroup.toNat) ≤ maxNrBlockGroups →
    1 ≤ superblock.getNrInodes.toNat → superblock.logBlockSize.toNat < 22 ∧
      (superblock.getNrInodes.toNat - 1) / superblock.getNrInodesPerGroup.toNat < maxNrBlockGroups

theorem Survives.harmless (h : p.Survives superblock) : Harmless superblock := by
  obtain ⟨p', hp', hsurvives⟩ := h
  have hcomputable := computable_of_withSuperblock hp'
  obtain ⟨_, hsome, hloaded⟩ := exists_withSuperblock (p := p) hcomputable
  obtain rfl := Option.some.inj (hp'.symm.trans hsome)
  refine ⟨hcomputable, fun hgroups => ?_⟩
  rw [← hloaded.groups] at hgroups
  obtain ⟨_, htable, hall⟩ := hsurvives hgroups ⟨List.replicate 1024 0, List.length_replicate⟩
  obtain ⟨groups, hsome, -⟩ := exists_withGroups _ hgroups
  obtain rfl := Option.some.inj (htable.symm.trans hsome)
  exact (inodePlace_all_iff hloaded hcomputable.inodes groups).1 hall

theorem Harmless.survives (h : Harmless superblock) (p : Partition) : p.Survives superblock := by
  obtain ⟨p', hp', hloaded⟩ := exists_withSuperblock (p := p) h.toComputable
  refine ⟨p', hp', fun hgroups table => ?_⟩
  obtain ⟨groups, htable, -⟩ := exists_withGroups table hgroups
  rw [hloaded.groups] at hgroups
  exact ⟨_, htable, (inodePlace_all_iff hloaded h.inodes groups).2 (h.last hgroups)⟩

/-- The superblocks that are survived are the harmless ones. -/
theorem superblock_survived_iff (p : Partition) (superblock : Block) :
    p.Survives superblock ↔ Harmless superblock :=
  ⟨Survives.harmless, fun h => h.survives p⟩

end Partition

/-- A block with these words at its beginning. -/
def Block.ofWords (words : List Word) : Block where
  bytes := (List.range 1024).map fun i => (words.getD (i / 4) 0 >>> (8 * (i % 4))).setWidth 8
  length_eq := by rw [List.length_map, List.length_range]

theorem Block.word_ofWords (words : List Word) {i : Nat} (hi : i < 256) :
    (Block.ofWords words).word (4 * i) = words.getD i 0 := by
  have hbyte : ∀ k < 4, (Block.ofWords words).bytes.getD (4 * i + k) 0 =
      (words.getD i 0 >>> (8 * k)).setWidth 8 := by
    intro k hk
    have hplace : (4 * i + k) / 4 = i := by omega
    have hbits : (4 * i + k) % 4 = k := by omega
    rw [List.getD_eq_getElem?_getD, Block.ofWords, List.getElem?_map,
      List.getElem?_range (by omega), Option.map_some, Option.getD_some, hplace, hbits]
  have hhigh : words.getD i 0 >>> (8 * 3) = words.getD i 0 >>> 16 >>> 8 :=
    BitVec.shiftRight_add _ 16 8
  rw [Block.word, Block.half, Block.half, hbyte 3 (by decide), hbyte 2 (by decide),
    hbyte 1 (by decide), show (4 * i) = 4 * i + 0 from rfl, hbyte 0 (by decide), hhigh,
    BitField.append_low, BitVec.ushiftRight_zero, BitField.append_low, BitField.append_low,
    BitVec.setWidth_eq]

section Fields

variable (nrInodes nrBlocks firstDataBlock logBlockSize nrBlocksPerGroup nrInodesPerGroup : Word)

/-- A superblock of a file system. -/
def superblockOf : Block :=
  .ofWords [nrInodes, nrBlocks, 0, 0, 0, firstDataBlock, logBlockSize, 0, nrBlocksPerGroup, 0,
    nrInodesPerGroup]

@[simp] theorem superblockOf_inodes : (superblockOf nrInodes nrBlocks firstDataBlock logBlockSize
    nrBlocksPerGroup nrInodesPerGroup).getNrInodes = nrInodes :=
  Block.word_ofWords _ (i := 0) (by decide)

@[simp] theorem superblockOf_blocks : (superblockOf nrInodes nrBlocks firstDataBlock logBlockSize
    nrBlocksPerGroup nrInodesPerGroup).getNrBlocks = nrBlocks :=
  Block.word_ofWords _ (i := 1) (by decide)

@[simp] theorem superblockOf_shift : (superblockOf nrInodes nrBlocks firstDataBlock logBlockSize
    nrBlocksPerGroup nrInodesPerGroup).logBlockSize = logBlockSize :=
  Block.word_ofWords _ (i := 6) (by decide)

@[simp] theorem superblockOf_blocksPerGroup : (superblockOf nrInodes nrBlocks firstDataBlock
    logBlockSize nrBlocksPerGroup nrInodesPerGroup).getNrBlocksPerGroup = nrBlocksPerGroup :=
  Block.word_ofWords _ (i := 8) (by decide)

@[simp] theorem superblockOf_inodesPerGroup : (superblockOf nrInodes nrBlocks firstDataBlock
    logBlockSize nrBlocksPerGroup nrInodesPerGroup).getNrInodesPerGroup = nrInodesPerGroup :=
  Block.word_ofWords _ (i := 10) (by decide)

end Fields

/-- A superblock of zeros makes the driver divide by zero, a shift count may be too large, and an
inode may be in a group behind the table. -/
theorem superblock_survived_fails :
    ¬ (Hd.twoGroups 63).Survives (superblockOf 0 0 0 0 0 0) ∧
      ¬ (Hd.twoGroups 63).Survives (superblockOf 2008 8192 1 32 8192 2008) ∧
      ¬ (Hd.twoGroups 63).Survives (superblockOf 6 1 1 0 1 1) := by
  refine ⟨fun h => ?_, fun h => ?_, fun h => ?_⟩
  · exact h.harmless.inodes (superblockOf_inodesPerGroup ..)
  · have hshift := h.harmless.shift
    rw [superblockOf_shift] at hshift
    exact absurd hshift (by decide)
  · have hlast := h.harmless.last
    rw [superblockOf_inodes, superblockOf_blocks, superblockOf_blocksPerGroup,
      superblockOf_inodesPerGroup] at hlast
    exact absurd (hlast (by decide) (by decide)).2 (by decide)

end Defined

end Mycrokernel
