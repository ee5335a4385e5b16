import Mycrokernel.Hd.Ata
import Mycrokernel.Usr.Memcpy

/-!
# Inodes

`read_inode` of `hd/main.c` computes the place of an inode as one byte offset of 32 bits.
`inodePlace` is that place.  The inode is copied from there (`triple_readInode`).

A group descriptor has the number of the first block of the inode table in the partition, but the
driver adds what lies before the group once more, and the offset cannot count more than 4 GiB.
`inode_place_iff` says when the place is right all the same.
-/

namespace Mycrokernel

open Function (update)
open Bytes

namespace Hd

variable {α : Type}

/-- `goto finish`. -/
def leave : Hd α := fun d => .done (none, d)

/-- `TODOERROR`. -/
def todoError (frame : Stack) : Hd α := do
  outf frame (stringLiteral "%s:%d: UNDEFINED ERROR")
  leave

/-- `channel->partitions[partition_nr]`, which is undefined outside the array. -/
def partitionAt (channel : Ptr) (partitionNr : Byte) : Hd Partition := fun d =>
  match (d.channels channel).partitions[partitionNr.toNat]? with
  | some partition => .done (some partition, d)
  | none => .stuck

/-- `memcpy`. -/
def memcpy (dst src num : Word) : Hd Unit :=
  modify fun d => { d with mem := Mycrokernel.memcpy d.mem dst src num }

/-- The sector and the offset in it that `read_inode` computes with this descriptor of the group. -/
def placeIn (partition : Partition) (inodeNr : Word) (blockGroup : BlockGroup) : Word × Word :=
  let blockGroupNr := (inodeNr - 1) / partition.nrInodesPerGroup
  let inodeIndex := (inodeNr - 1) % partition.nrInodesPerGroup
  let inodeOffset := partition.firstSector * 512
  let inodeOffset := inodeOffset +
    blockGroupNr * partition.nrBlocksPerGroup * partition.blockSize
  let inodeOffset := inodeOffset + blockGroup.blockAddressInodeTable * partition.blockSize
  let inodeOffset := inodeOffset + inodeIndex * partition.inodeSize
  (inodeOffset / 512, inodeOffset % 512)

/-- The place, where all that it is computed from is defined: no divisor is zero, and the table has
the group. -/
def inodePlace (partition : Partition) (inodeNr : Word) : Option (Word × Word) :=
  if partition.nrInodesPerGroup = 0 ∨ partition.blockSize = 0 then none
  else
    let blockGroupNr := (inodeNr - 1) / partition.nrInodesPerGroup
    partition.blockGroups[blockGroupNr.toNat]?.map fun blockGroup =>
      placeIn partition inodeNr blockGroup

/-- `partition->block_groups[i]`.  The index is not checked, and behind the array there are other
words. -/
def groupAt (behind : Nat → BlockGroup) (partition : Partition) (i : Nat) : BlockGroup :=
  (partition.blockGroups[i]?).getD (behind i)

/-- The place that `read_inode` computes.  There is none if a divisor is zero. -/
def placeComputed (behind : Nat → BlockGroup) (partition : Partition) (inodeNr : Word) :
    Option (Word × Word) :=
  if partition.nrInodesPerGroup = 0 ∨ partition.blockSize = 0 then none
  else
    let blockGroupNr := (inodeNr - 1) / partition.nrInodesPerGroup
    some (placeIn partition inodeNr (groupAt behind partition blockGroupNr.toNat))

/-- `sizeof(inode_t)`. -/
def sizeofInode : Nat := 128

/-- `read_inode`, with its buffer at an address. -/
def readInode (frame : Stack) (fuel : Nat) (behind : Nat → BlockGroup) (buffer : Word)
    (channel : Ptr) (partitionNr : Byte) (inodeNr inode : Word) : Hd Unit := finish do
  let partition ← partitionAt channel partitionNr
  if inodeNr < 1 ∨ partition.nrInodes < inodeNr then todoError frame
  match placeComputed behind partition inodeNr with
  | none => spent
  | some (sector, offset) =>
    terror (readSector fuel sector channel buffer)
    memcpy inode (buffer + offset) (BitVec.ofNat 32 sizeofInode)

variable {behind : Nat → BlockGroup} {p : Partition} {inodeNr : Word}

/-! ## The place -/

theorem ne_zero_of_placeComputed {place : Word × Word}
    (h : placeComputed behind p inodeNr = some place) :
    p.nrInodesPerGroup ≠ 0 ∧ p.blockSize ≠ 0 := by
  unfold placeComputed at h
  split at h
  next => exact absurd h (by simp)
  next hne => exact not_or.1 hne

/-- Where the place is defined, it is computed. -/
theorem placeComputed_of_inodePlace {place : Word × Word} (h : inodePlace p inodeNr = some place) :
    placeComputed behind p inodeNr = some place := by
  unfold inodePlace at h
  unfold placeComputed
  split at h
  next => exact absurd h (by simp)
  next hne =>
    obtain ⟨group, hgroup, rfl⟩ := Option.map_eq_some_iff.1 h
    rw [if_neg hne]
    dsimp only
    rw [groupAt, hgroup, Option.getD_some]

/-- The number of the group of an inode. -/
def groupOf (p : Partition) (inodeNr : Word) : Nat :=
  (inodeNr.toNat - 1) / p.nrInodesPerGroup.toNat

/-- The number of an inode in its group. -/
def indexOf (p : Partition) (inodeNr : Word) : Nat :=
  (inodeNr.toNat - 1) % p.nrInodesPerGroup.toNat

/-- The offset of an inode in the blocks of its partition, for a group whose inode table begins
with the block `table`. -/
def inodeBytes (p : Partition) (table inodeNr : Word) : Nat :=
  table.toNat * p.blockSize.toNat + indexOf p inodeNr * p.inodeSize.toNat

/-- What the driver adds for the blocks that lie before the group. -/
def blocksBefore (p : Partition) (inodeNr : Word) : Nat :=
  groupOf p inodeNr * p.nrBlocksPerGroup.toNat * p.blockSize.toNat

theorem toNat_group (hlow : 1 ≤ inodeNr.toNat) :
    ((inodeNr - 1) / p.nrInodesPerGroup).toNat = groupOf p inodeNr := by
  have hpred : (inodeNr - 1).toNat = inodeNr.toNat - 1 :=
    BitVec.toNat_sub_of_le (BitVec.le_def.2 hlow)
  rw [BitVec.toNat_udiv, hpred, groupOf]

/-- The byte offset that the driver computes, before it wraps. -/
theorem placeIn_eq (group : BlockGroup) (hlow : 1 ≤ inodeNr.toNat) :
    placeIn p inodeNr group =
      (BitVec.ofNat 32 (p.firstSector.toNat * 512 + blocksBefore p inodeNr +
          inodeBytes p group.blockAddressInodeTable inodeNr) / 512,
        BitVec.ofNat 32 (p.firstSector.toNat * 512 + blocksBefore p inodeNr +
          inodeBytes p group.blockAddressInodeTable inodeNr) % 512) := by
  have hpred : (inodeNr - 1).toNat = inodeNr.toNat - 1 :=
    BitVec.toNat_sub_of_le (BitVec.le_def.2 hlow)
  have hdiv : ((inodeNr - 1) / p.nrInodesPerGroup).toNat = groupOf p inodeNr := toNat_group hlow
  have hmod : ((inodeNr - 1) % p.nrInodesPerGroup).toNat = indexOf p inodeNr := by
    rw [BitVec.toNat_umod, hpred, indexOf]
  have hoffset : BitVec.ofNat 32 (p.firstSector.toNat * 512 + blocksBefore p inodeNr +
      inodeBytes p group.blockAddressInodeTable inodeNr) =
      p.firstSector * 512 + (inodeNr - 1) / p.nrInodesPerGroup * p.nrBlocksPerGroup * p.blockSize +
        group.blockAddressInodeTable * p.blockSize +
        (inodeNr - 1) % p.nrInodesPerGroup * p.inodeSize := by
    rw [blocksBefore, inodeBytes, ← hdiv, ← hmod, ← Nat.add_assoc]
    simp only [BitVec.ofNat_add, BitVec.ofNat_mul, BitVec.ofNat_toNat, BitVec.setWidth_eq]
    rfl
  unfold placeIn
  dsimp only
  rw [hoffset]

theorem inodePlace_eq {group : BlockGroup} (hlow : 1 ≤ inodeNr.toNat) (hper : p.nrInodesPerGroup ≠ 0)
    (hblock : p.blockSize ≠ 0) (hgroup : p.blockGroups[groupOf p inodeNr]? = some group) :
    inodePlace p inodeNr =
      some (BitVec.ofNat 32 (p.firstSector.toNat * 512 + blocksBefore p inodeNr +
          inodeBytes p group.blockAddressInodeTable inodeNr) / 512,
        BitVec.ofNat 32 (p.firstSector.toNat * 512 + blocksBefore p inodeNr +
          inodeBytes p group.blockAddressInodeTable inodeNr) % 512) := by
  unfold inodePlace
  rw [if_neg (not_or.2 ⟨hper, hblock⟩)]
  dsimp only
  rw [toNat_group hlow, hgroup, Option.map_some, placeIn_eq group hlow]

theorem placeComputed_eq (hlow : 1 ≤ inodeNr.toNat) (hper : p.nrInodesPerGroup ≠ 0)
    (hblock : p.blockSize ≠ 0) : placeComputed behind p inodeNr =
      some (placeIn p inodeNr (groupAt behind p (groupOf p inodeNr))) := by
  unfold placeComputed
  rw [if_neg (not_or.2 ⟨hper, hblock⟩)]
  dsimp only
  rw [toNat_group hlow]

/-- An offset of 32 bits is cut into sectors correctly if it has not lost anything but what was to
be left out. -/
theorem wrapped_iff (first before bytes : Nat) :
    (first * 512 + before + bytes) % 2 ^ 32 / 512 = first + bytes / 512 ∧
        (first * 512 + before + bytes) % 2 ^ 32 % 512 = bytes % 512 ↔
      first * 512 + bytes < 2 ^ 32 ∧ 2 ^ 32 ∣ before := by
  have hcut : ∀ offset, offset / 512 = first + bytes / 512 ∧ offset % 512 = bytes % 512 ↔
      offset = first * 512 + bytes := by omega
  have hsum : first * 512 + before + bytes = first * 512 + bytes + before := by omega
  rw [hcut, hsum]
  constructor
  · intro heq
    have hlt := Nat.mod_lt (first * 512 + bytes + before) (show 2 ^ 32 > 0 by decide)
    rw [heq] at hlt
    refine ⟨hlt, Nat.dvd_of_mod_eq_zero ?_⟩
    have hsub := Nat.sub_mod_eq_zero_of_mod_eq (heq.trans (Nat.mod_eq_of_lt hlt).symm)
    rwa [Nat.add_sub_cancel_left] at hsub
  · rintro ⟨hlt, n, rfl⟩
    rw [Nat.add_mul_mod_self_left, Nat.mod_eq_of_lt hlt]

/-- The place is right if nothing lies before the group, counted in 32 bits, and the offset of the
inode on the disk is below 4 GiB. -/
theorem inode_place_iff (p : Partition) (inodeNr : Word) (group : BlockGroup)
    (hlow : 1 ≤ inodeNr.toNat) (hper : p.nrInodesPerGroup ≠ 0) (hblock : p.blockSize ≠ 0)
    (hsector : 512 ∣ p.blockSize.toNat)
    (hgroup : p.blockGroups[groupOf p inodeNr]? = some group) :
    (∃ sector offset, inodePlace p inodeNr = some (sector, offset) ∧
      sector.toNat = p.firstSector.toNat + inodeBytes p group.blockAddressInodeTable inodeNr / 512 ∧
      offset.toNat = indexOf p inodeNr * p.inodeSize.toNat % 512) ↔
      p.firstSector.toNat * 512 + inodeBytes p group.blockAddressInodeTable inodeNr < 2 ^ 32 ∧
        2 ^ 32 ∣ blocksBefore p inodeNr := by
  have hbytes : inodeBytes p group.blockAddressInodeTable inodeNr % 512 =
      indexOf p inodeNr * p.inodeSize.toNat % 512 := by
    obtain ⟨n, hn⟩ := hsector
    rw [inodeBytes, hn, Nat.mul_left_comm, Nat.mul_add_mod]
  rw [inodePlace_eq hlow hper hblock hgroup, ← hbytes, ← wrapped_iff]
  constructor
  · rintro ⟨sector, offset, hplace, hnumber, hoffset⟩
    obtain ⟨rfl, rfl⟩ := Prod.mk.inj (Option.some.inj hplace)
    rw [BitVec.toNat_udiv, BitVec.toNat_ofNat] at hnumber
    rw [BitVec.toNat_umod, BitVec.toNat_ofNat] at hoffset
    exact ⟨hnumber, hoffset⟩
  · rintro ⟨hnumber, hoffset⟩
    refine ⟨_, _, rfl, ?_, ?_⟩
    · rw [BitVec.toNat_udiv, BitVec.toNat_ofNat]
      exact hnumber
    · rw [BitVec.toNat_umod, BitVec.toNat_ofNat]
      exact hoffset

/-- A partition with two groups of 2008 inodes in blocks of one KiB. -/
def twoGroups (firstSector : Word) : Partition where
  firstSector
  nrBlockGroups := 2
  blockSize := 1024
  nrInodes := 4016
  nrBlocks := 16384
  nrBlocksPerGroup := 8192
  nrInodesPerGroup := 2008
  inodeSize := 128
  blockGroups := #v[⟨5⟩, ⟨8197⟩, ⟨0⟩, ⟨0⟩, ⟨0⟩]

/-- The inode of the root directory, on a partition at the beginning of the disk. -/
theorem inode_place_root :
    ∃ sector offset, inodePlace (twoGroups 63) 2 = some (sector, offset) ∧
      sector.toNat = (twoGroups 63).firstSector.toNat + inodeBytes (twoGroups 63) 5 2 / 512 ∧
      offset.toNat = indexOf (twoGroups 63) 2 * (twoGroups 63).inodeSize.toNat % 512 :=
  (inode_place_iff (twoGroups 63) 2 ⟨5⟩ (by decide) (by decide) (by decide) (by decide)
    (by decide)).2 ⟨by decide, by decide⟩

/-- The first inode of the second group is looked for 8 MiB behind its place, and the root inode of
a partition that begins 4 GiB from the beginning of the disk at the beginning of the disk. -/
theorem inode_place_fails :
    (¬ ∃ sector offset, inodePlace (twoGroups 63) 2009 = some (sector, offset) ∧
      sector.toNat = (twoGroups 63).firstSector.toNat + inodeBytes (twoGroups 63) 8197 2009 / 512 ∧
      offset.toNat = indexOf (twoGroups 63) 2009 * (twoGroups 63).inodeSize.toNat % 512) ∧
    ¬ ∃ sector offset, inodePlace (twoGroups 0x800000) 2 = some (sector, offset) ∧
      sector.toNat =
        (twoGroups 0x800000).firstSector.toNat + inodeBytes (twoGroups 0x800000) 5 2 / 512 ∧
      offset.toNat = indexOf (twoGroups 0x800000) 2 * (twoGroups 0x800000).inodeSize.toNat % 512 := by
  have hgroup : inodePlace (twoGroups 63) 2009 = some (32841, 0) := by decide
  have hfar : inodePlace (twoGroups 0x800000) 2 = some (10, 128) := by decide
  constructor
  · rintro ⟨sector, offset, hplace, hsector, -⟩
    obtain ⟨rfl, rfl⟩ := Prod.mk.inj (Option.some.inj (hgroup.symm.trans hplace))
    exact absurd hsector (by decide)
  · rintro ⟨sector, offset, hplace, hsector, -⟩
    obtain ⟨rfl, rfl⟩ := Prod.mk.inj (Option.some.inj (hfar.symm.trans hplace))
    exact absurd hsector (by decide)

/-! ## Reading it -/

section Reading

variable {β : Type} {disk : Disk} {c : Channel} {channel : Ptr} {channels : Ptr → Channel}
  {partitionNr : Byte} {mem : Word → BitVec 8} {sector offset : Word}

theorem partitionAt_bind {d : Driver} {f : Partition → Hd β}
    (hp : (d.channels channel).partitions[partitionNr.toNat]? = some p) :
    (partitionAt channel partitionNr >>= f) d = f p d := by
  change (partitionAt channel partitionNr d).bind (goOn f) = _
  rw [partitionAt, hp]
  rfl

/-- For the number of an inode, `read_inode` reads a sector and copies from it. -/
theorem readInode_accepted {frame : Stack} {fuel : Nat} {buffer inode : Word} {d : Driver}
    (hp : (d.channels channel).partitions[partitionNr.toNat]? = some p) (hlow : 1 ≤ inodeNr)
    (hhigh : inodeNr ≤ p.nrInodes) :
    readInode frame fuel behind buffer channel partitionNr inodeNr inode d =
      finish (match placeComputed behind p inodeNr with
        | none => spent
        | some (sector, offset) => do
          terror (readSector fuel sector channel buffer)
          memcpy inode (buffer + offset) (BitVec.ofNat 32 sizeofInode)) d := by
  have hrange : ¬ (inodeNr < 1 ∨ p.nrInodes < inodeNr) :=
    not_or.2 ⟨BitVec.not_lt.2 hlow, BitVec.not_lt.2 hhigh⟩
  unfold readInode finish
  rw [partitionAt_bind hp, if_neg hrange]

/-- A copy of an inode is right, but for a byte at address 0. -/
theorem memcpy_inode {mem : Word → BitVec 8} {src dst : Word}
    (h : Kernel.Apart src dst sizeofInode) (hnull : ¬ Within dst sizeofInode 0) {k : Nat}
    (hk : k < sizeofInode) :
    Mycrokernel.memcpy mem dst src (BitVec.ofNat 32 sizeofInode) (dst + BitVec.ofNat 32 k) =
      mem (src + BitVec.ofNat 32 k) := by
  have hne : dst + BitVec.ofNat 32 k ≠ lastPlace sizeofInode := fun heq => by
    have hthere := within_add (a := dst) hk (show sizeofInode ≤ 2 ^ 32 by decide)
    rw [heq] at hthere
    exact hnull hthere
  have hsmall : (BitVec.ofNat 32 k).toNat = k := by
    have hsize : sizeofInode = 128 := rfl
    rw [BitVec.toNat_ofNat]
    omega
  have hnum : (BitVec.ofNat 32 sizeofInode).toNat = sizeofInode := rfl
  have hhalves : halves sizeofInode = 0 := rfl
  have hwhole : whole sizeofInode = sizeofInode := rfl
  rw [← hnum] at h hne
  rw [memcpy_other h hne, hnum, hhalves, hwhole, if_neg (Nat.not_lt_zero _), Kernel.moveBytes_at,
    hsmall, if_pos hk]

/-- The inode is what the disk has at the place. -/
theorem triple_readInode {frame : Stack} {fuel : Nat} {buffer inode : Word}
    (hc : channels channel = c) (hp : c.partitions[partitionNr.toNat]? = some p)
    (hlow : 1 ≤ inodeNr) (hhigh : inodeNr ≤ p.nrInodes)
    (hplace : inodePlace p inodeNr = some (sector, offset)) (hsector : sector.toNat < disk.size)
    (hoffset : offset.toNat + sizeofInode ≤ 512)
    (hapart : Kernel.Apart (buffer + offset) inode sizeofInode)
    (hnull : ¬ Within inode sizeofInode 0) :
    Triple (disk.Answers c) (Kept channels mem fun _ => True)
      (readInode frame fuel behind buffer channel partitionNr inodeNr inode)
      fun _ d _ => hasFailed d.error = false → ∀ k < sizeofInode,
        d.mem (inode + BitVec.ofNat 32 k) = disk.byte sector.toNat (offset.toNat + k) := by
  intro d r hkept
  rw [readInode_accepted (by rw [hkept.1, hc]; exact hp) hlow hhigh,
    placeComputed_of_inodePlace hplace]
  refine Triple.finish (T := fun d _ => ∀ k < sizeofInode,
    d.mem (inode + BitVec.ofNat 32 k) = disk.byte sector.toNat (offset.toNat + k)) ?_ d r hkept
  refine (triple_readSector hsector hc).terror.bind fun _ => triple_modify ?_
  rintro d r ⟨-, hfilled⟩ - k hk
  have hplaceAt : buffer + offset + BitVec.ofNat 32 k = buffer + BitVec.ofNat 32 (offset.toNat + k) := by
    rw [BitVec.ofNat_add, BitVec.ofNat_toNat, BitVec.setWidth_eq, BitVec.add_assoc]
  have hsize : sizeofInode = 128 := rfl
  dsimp only
  rw [memcpy_inode hapart hnull hk, hplaceAt]
  exact hfilled.bytes _ (by omega)

end Reading

end Hd

end Mycrokernel
