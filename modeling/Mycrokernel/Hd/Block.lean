import Mycrokernel.Hd.Directory
import Mycrokernel.Hd.Inode

/-!
# Blocks

`do_indirect_directory` of `hd/main.c` reads a block, which takes two sectors, and shows the
directory in it, or goes on to the blocks it names.

It reads the same sector for both halves of its buffer, and computes the sector from a byte offset
of 32 bits.  `block_fetch_iff` says when the buffer has the block in it all the same.
-/

namespace Mycrokernel

open Bytes
open Dialogue (RunIn)

namespace Hd

/-- `indirect[i]`, for an array of `uint32_t`. -/
def load32 (b : Word) (i : Nat) : Hd Word := do
  let d ← get
  let address := b + BitVec.ofNat 32 (4 * i)
  return d.mem (address + 3) ++ d.mem (address + 2) ++ d.mem (address + 1) ++ d.mem address

/-- What a buffer of 1024 bytes holds. -/
def blockAt (block : Word) : Hd Block := do
  let d ← get
  return ⟨(List.range 1024).map fun i => d.mem (block + BitVec.ofNat 32 i), by simp⟩

/-- The part of `do_indirect_directory` that fills its buffer. -/
def fetchBlock (frame : Stack) (fuel : Nat) (channel : Ptr) (partitionNr : Byte)
    (blockNr block : Word) : Hd Unit := do
  let partition ← partitionAt channel partitionNr
  let blockSize := partition.blockSize
  let byteOffset := blockNr * blockSize
  let sectorNr := byteOffset / 512
  let sectorNr := sectorNr + partition.firstSector
  if blockSize ≠ 1024 then todoError frame
  terror (readSector fuel sectorNr channel block)
  terror (readSector fuel sectorNr channel (block + 512))

/-- `do_indirect_directory`.  The buffer of each level of indirection is at an address of its own,
and the stack is what it is for the blocks on the way. -/
def doIndirectDirectory (frames : List Nat → Nat → Stack) (fuel : Nat) (buffers : Nat → Word)
    (channel : Ptr) (partitionNr : Byte) : Nat → List Nat → Word → Hd Unit
  | 0, way, blockNr => finish do
    fetchBlock (frames way 0) fuel channel partitionNr blockNr (buffers 0)
    let block ← blockAt (buffers 0)
    terror (doDirectDirectory (frames way) fuel channel partitionNr block)
  | level + 1, way, blockNr => finish do
    fetchBlock (frames way 0) fuel channel partitionNr blockNr (buffers (level + 1))
    (List.range 256).forM fun i => do
      let indirect ← load32 (buffers (level + 1)) i
      if indirect = 0 then leave
      terror (doIndirectDirectory frames fuel buffers channel partitionNr level (i :: way) indirect)

/-- The place of the block does not wrap, and the buffer gets its two sectors, one behind the
other. -/
structure Fetches (disk : Disk) (d : Driver) (channel : Ptr) (partitionNr : Byte) (p : Partition)
    (blockNr block : Word) : Prop where
  offset : blockNr.toNat * p.blockSize.toNat < 2 ^ 32
  sector : p.firstSector.toNat + blockNr.toNat * p.blockSize.toNat / 512 < 2 ^ 32
  fills : ∀ frame fuel r r' d',
    RunIn (disk.Answers (d.channels channel)) r
      (fetchBlock frame fuel channel partitionNr blockNr block d) r' (some (), d') →
    ∀ i < 1024, d'.mem (block + BitVec.ofNat 32 i) =
      disk.byte (p.firstSector.toNat + 2 * blockNr.toNat + i / 512) (i % 512)
  /-- There are such runs. -/
  ends : ∀ frame fuel r, ∃ r' d',
    RunIn (disk.Answers (d.channels channel)) r
      (fetchBlock frame (fuel + 1) channel partitionNr blockNr block d) r' (some (), d')

variable {disk : Disk} {d : Driver} {c : Channel} {channel : Ptr} {channels : Ptr → Channel}
  {partitionNr : Byte} {p : Partition} {mem mem' mem'' : Word → BitVec 8} {blockNr block : Word}
  {frame : Stack} {fuel number : Nat}

/-- The buffer is filled first, whatever the level. -/
theorem doIndirectDirectory_eq (frames : List Nat → Nat → Stack) (fuel : Nat) (buffers : Nat → Word)
    (channel : Ptr) (partitionNr : Byte) (level : Nat) (way : List Nat) (blockNr : Word) :
    ∃ rest, doIndirectDirectory frames fuel buffers channel partitionNr level way blockNr =
      finish (fetchBlock (frames way 0) fuel channel partitionNr blockNr (buffers level) >>= rest) := by
  cases level with
  | zero => exact ⟨_, rfl⟩
  | succ level => exact ⟨_, rfl⟩

/-! ## The buffer -/

/-- The sector that is read. -/
def sectorOf (p : Partition) (blockNr : Word) : Word :=
  blockNr * p.blockSize / 512 + p.firstSector

/-- Each half of the buffer gets a sector. -/
theorem filled_halves {disk' : Disk} {number' : Nat} (h : disk.Filled number block 512 mem mem')
    (h' : disk'.Filled number' (block + 512) 512 mem' mem'') {i : Nat} (hi : i < 1024) :
    mem'' (block + BitVec.ofNat 32 i) =
      if i < 512 then disk.byte number (i % 512) else disk'.byte number' (i % 512) := by
  have hsecond : ∀ j, block + 512 + BitVec.ofNat 32 j = block + BitVec.ofNat 32 (512 + j) := by
    intro j
    rw [BitVec.ofNat_add, BitVec.add_assoc]
    rfl
  split
  next hlow =>
    have hout : ¬ Within (block + 512) 512 (block + BitVec.ofNat 32 i) := by
      intro hin
      obtain ⟨j, hj, heq⟩ := hin.exists_add
      rw [hsecond, add_ofNat_inj (by omega) (by omega)] at heq
      omega
    rw [h'.frame _ hout, h.bytes i hlow, Nat.mod_eq_of_lt hlow]
  next hnot =>
    have hhigh := Nat.not_lt.1 hnot
    have hbyte := h'.bytes (i - 512) (by omega)
    rw [hsecond, Nat.add_sub_cancel' hhigh] at hbyte
    rw [hbyte, Nat.mod_eq_sub_mod hhigh, Nat.mod_eq_of_lt (by omega)]

/-- A block of the size that is supported takes two reads. -/
theorem fetchBlock_supported (hp : (d.channels channel).partitions[partitionNr.toNat]? = some p)
    (hsize : p.blockSize = 1024) :
    fetchBlock frame fuel channel partitionNr blockNr block d =
      (do
        terror (readSector fuel (sectorOf p blockNr) channel block)
        terror (readSector fuel (sectorOf p blockNr) channel (block + 512)) : Hd Unit) d := by
  unfold fetchBlock
  rw [partitionAt_bind hp]
  dsimp only
  rw [if_neg (not_not.2 hsize)]
  rfl

/-- Both halves of the buffer get the same sector. -/
theorem triple_fetchBlock (hc : channels channel = c)
    (hp : c.partitions[partitionNr.toNat]? = some p) (hsize : p.blockSize = 1024)
    (hsector : (sectorOf p blockNr).toNat < disk.size) :
    Triple (disk.Answers c) (Kept channels mem fun _ => True)
      (fetchBlock frame fuel channel partitionNr blockNr block) fun _ d _ => ∀ i < 1024,
        d.mem (block + BitVec.ofNat 32 i) = disk.byte (sectorOf p blockNr).toNat (i % 512) := by
  intro d r hkept
  rw [fetchBlock_supported (by rw [hkept.1, hc]; exact hp) hsize]
  refine (triple_readSector hsector hc).terror.bind (fun _ => ?_) d r hkept
  rintro d r ⟨hchannels, hfirst⟩
  have hsecond : Triple (disk.Answers c) (Kept channels d.mem fun _ => True)
      (terror (readSector fuel (sectorOf p blockNr) channel (block + 512))) fun _ d' _ =>
        d'.channels = channels ∧
          disk.Filled (sectorOf p blockNr).toNat (block + 512) 512 d.mem d'.mem :=
    (triple_readSector hsector hc).terror
  refine hsecond.mono (fun _ _ h => h) (fun _ d' r' h' i hi => ?_) d r ⟨hchannels, rfl, trivial⟩
  rw [filled_halves hfirst h'.2 hi, ite_self]

theorem passes_fetchBlock {σ : Type} {answers : σ → Syscall → Reply → σ → Prop} {status : Word}
    (hwilling : Willing answers status) (hdrq : status &&& bitDrq ≠ 0) (hc : channels channel = c)
    (hp : c.partitions[partitionNr.toNat]? = some p) (hsize : p.blockSize = 1024)
    (hata : c.controller = .ata) (hsector : sectorOf p blockNr < c.lbaSectors) :
    Passes answers (Unfailed channels)
      (fetchBlock frame (fuel + 1) channel partitionNr blockNr block)
      fun _ => Unfailed channels := by
  have hread : ∀ buffer, Passes answers (Unfailed channels)
      (terror (readSector (fuel + 1) (sectorOf p blockNr) channel buffer))
      fun _ => Unfailed channels :=
    fun _ => (passes_readSector hwilling hdrq hc hata hsector).unfailed
  intro d r hok
  rw [fetchBlock_supported (by rw [hok.2, hc]; exact hp) hsize]
  exact (hread block).bind (fun _ => hread (block + 512)) d r hok

/-- The sector is the first one of the block, if the byte offset does not wrap. -/
theorem sectorOf_toNat (hsize : p.blockSize = 1024) (hblock : blockNr.toNat < 2 ^ 22)
    (hfirst : p.firstSector.toNat + 2 * blockNr.toNat < 2 ^ 32) :
    (sectorOf p blockNr).toNat = p.firstSector.toNat + 2 * blockNr.toNat := by
  have hmul : (blockNr * p.blockSize).toNat = blockNr.toNat * 1024 := by
    rw [hsize, BitVec.toNat_mul]
    exact Nat.mod_eq_of_lt (by change blockNr.toNat * 1024 < 2 ^ 32; omega)
  have hdiv : (blockNr * p.blockSize / 512).toNat = 2 * blockNr.toNat := by
    rw [BitVec.toNat_udiv, hmul]
    change blockNr.toNat * 1024 / 512 = _
    omega
  rw [sectorOf, BitVec.toNat_add, hdiv, Nat.add_comm, Nat.mod_eq_of_lt hfirst]

/-! ## The block -/

section Fetch

variable (hp : (d.channels channel).partitions[partitionNr.toNat]? = some p)
  (hsize : p.blockSize = 1024) (hblock : blockNr.toNat < 2 ^ 22)
  (hexists : p.firstSector.toNat + 2 * blockNr.toNat + 1 < disk.size)

include hp hsize hblock hexists

/-- What the buffer has after a run: the first sector of the block, twice. -/
theorem fetched (r r' : Ata) (d' : Driver)
    (hrun : RunIn (disk.Answers (d.channels channel)) r
      (fetchBlock frame fuel channel partitionNr blockNr block d) r' (some (), d')) :
    ∀ i < 1024, d'.mem (block + BitVec.ofNat 32 i) =
      disk.byte (p.firstSector.toNat + 2 * blockNr.toNat) (i % 512) := by
  have hsize_le := disk.size_le
  have hsector := sectorOf_toNat hsize hblock (by omega)
  have hlt : (sectorOf p blockNr).toNat < disk.size := by
    rw [hsector]
    exact Nat.lt_of_succ_lt hexists
  have hkept : Kept d.channels d.mem (fun _ => True) d r := ⟨rfl, rfl, trivial⟩
  have hall := triple_fetchBlock rfl hp hsize hlt d r hkept r' (some (), d') hrun
  rw [hsector] at hall
  exact hall

theorem exists_fetched (hok : hasFailed d.error = false)
    (hata : (d.channels channel).controller = .ata)
    (hdisk : (d.channels channel).lbaSectors.toNat = disk.size) (r : Ata) :
    ∃ r' d', RunIn (disk.Answers (d.channels channel)) r
      (fetchBlock frame (fuel + 1) channel partitionNr blockNr block d) r' (some (), d') := by
  have hsize_le := disk.size_le
  have hsector := sectorOf_toNat hsize hblock (by omega)
  have hlt : sectorOf p blockNr < (d.channels channel).lbaSectors := by
    rw [BitVec.lt_def, hsector, hdisk]
    omega
  have hpasses : Passes (disk.Answers (d.channels channel)) (Unfailed d.channels)
      (fetchBlock frame (fuel + 1) channel partitionNr blockNr block)
      fun _ => Unfailed d.channels :=
    passes_fetchBlock willing_disk (by decide) rfl hp hsize hata hlt
  obtain ⟨r', ⟨_, d'⟩, hrun, _, rfl, -⟩ := hpasses d r ⟨hok, rfl⟩
  exact ⟨r', d', hrun⟩

end Fetch

/-- The buffer has the block in it if the byte offset of the block is below 4 GiB, and the two
sectors of the block have the same contents. -/
theorem block_fetch_iff (disk : Disk) (d : Driver) (channel : Ptr) (partitionNr : Byte)
    (p : Partition) (blockNr block : Word)
    (hp : (d.channels channel).partitions[partitionNr.toNat]? = some p) (hsize : p.blockSize = 1024)
    (hata : (d.channels channel).controller = .ata)
    (hdisk : (d.channels channel).lbaSectors.toNat = disk.size)
    (hexists : p.firstSector.toNat + 2 * blockNr.toNat + 1 < disk.size)
    (hok : hasFailed d.error = false) :
    Fetches disk d channel partitionNr p blockNr block ↔
      blockNr.toNat < 2 ^ 22 ∧ ∀ i < 512,
        disk.byte (p.firstSector.toNat + 2 * blockNr.toNat) i =
          disk.byte (p.firstSector.toNat + 2 * blockNr.toNat + 1) i := by
  have hnat : p.blockSize.toNat = 1024 := congrArg BitVec.toNat hsize
  have hsize_le := disk.size_le
  constructor
  · intro h
    have hoffset := h.offset
    rw [hnat] at hoffset
    have hblock : blockNr.toNat < 2 ^ 22 := by omega
    refine ⟨hblock, fun i hi => ?_⟩
    obtain ⟨r', d', hrun⟩ := h.ends default 0 ⟨0, 0, 0, 0, 0, false, []⟩
    have htwice := fetched hp hsize hblock hexists _ r' d' hrun (512 + i) (by omega)
    have hright := h.fills _ _ _ r' d' hrun (512 + i) (by omega)
    have hhalf : (512 + i) / 512 = 1 := by omega
    have hmod : (512 + i) % 512 = i := by omega
    rw [hmod] at htwice
    rw [hhalf, hmod] at hright
    exact htwice.symm.trans hright
  · rintro ⟨hblock, hsame⟩
    refine ⟨by rw [hnat]; omega, by rw [hnat]; omega, fun frame fuel r r' d' hrun i hi => ?_,
      fun frame fuel r => exists_fetched hp hsize hblock hexists hok hata hdisk r⟩
    have htwice := fetched hp hsize hblock hexists r r' d' hrun i hi
    cases Nat.lt_or_ge i 512 with
    | inl hlow => rw [htwice, Nat.div_eq_of_lt hlow, Nat.add_zero]
    | inr hhigh =>
      have hhalf : i / 512 = 1 := by omega
      rw [htwice, hhalf]
      exact hsame _ (Nat.mod_lt i (by decide))

/-- A driver for a disk of 8 GiB with the partition on it. -/
def onDisk (p : Partition) : Driver :=
  { (default : Driver) with
    channels := fun _ => {
      controller := .ata
      lbaSectors := 0x1000000
      busInfo := 3
      partitions := Vector.replicate 4 p } }

/-- A disk of 8 GiB with these words in its sectors. -/
def diskOf (word : Nat → Nat → BitVec 16) : Disk where
  size := 0x1000000
  size_le := by decide
  word := word

/-- A block on a disk whose sectors all have the numbers of their bytes in them. -/
theorem block_fetch_numbered :
    Fetches (diskOf fun _ i => BitVec.ofNat 16 (2 * i + 256 * (2 * i + 1))) (onDisk (twoGroups 63)) 0 0
      (twoGroups 63) 5 0x1000 :=
  (block_fetch_iff (diskOf fun _ i => BitVec.ofNat 16 (2 * i + 256 * (2 * i + 1)))
    (onDisk (twoGroups 63)) 0 0 (twoGroups 63) 5 0x1000 rfl rfl rfl rfl (by decide) rfl).2
    ⟨by decide, fun _ _ => rfl⟩

/-- The second half of a block is not what the disk has, if the sectors differ, and a block behind
4 GiB is looked for at the beginning of the partition. -/
theorem block_fetch_fails :
    (¬ Fetches (diskOf fun number _ => BitVec.ofNat 16 number) (onDisk (twoGroups 63)) 0 0
      (twoGroups 63) 5 0x1000) ∧
    ¬ Fetches (diskOf fun _ _ => 0) (onDisk { twoGroups 63 with nrBlocks := 0x800000 }) 0 0
      { twoGroups 63 with nrBlocks := 0x800000 } 0x400000 0x1000 := by
  constructor
  · intro h
    obtain ⟨r', d', hrun⟩ := h.ends default 0 ⟨0, 0, 0, 0, 0, false, []⟩
    have hdisk : (twoGroups 63).firstSector.toNat + 2 * (5 : Word).toNat + 1 <
      (diskOf fun number _ => BitVec.ofNat 16 number).size := by decide
    have htwice := fetched rfl rfl (by decide) hdisk _ r' d' hrun 512 (by decide)
    have hright := h.fills _ _ _ r' d' hrun 512 (by decide)
    exact absurd (htwice.symm.trans hright) (by decide)
  · exact fun h => absurd h.offset (by decide)

end Hd

end Mycrokernel
