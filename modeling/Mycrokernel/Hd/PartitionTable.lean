import Mycrokernel.Hd.Groups

/-!
# The partition table

`read_partition_table` of `hd/main.c` takes the first and the last sector of the partitions from
sector 0, where each is packed into three bytes as cylinder, head and sector.

An entry that packs the number of a sector is stored as that number (`partition_entry_stored`).
Entries of type 0 are not in use, and are left out; and an error that comes before an entry ends the
function, but one that comes after it does not undo it.
-/

namespace Mycrokernel

open Function (update update_self update_of_ne update_eq_self)
open Dialogue (RunIn)

/-! ## Entries -/

/-- The bytes of an entry. -/
abbrev Entry : Type := Nat → Byte

namespace Entry

variable (entry : Entry)

/-- The head of the address at a place. -/
def head (i : Nat) : Byte := entry i

/-- The sector of the address at a place. -/
def sector (i : Nat) : Byte := entry (i + 1) &&& 0x3f

/-- The cylinder of the address at a place.  The byte with its upper bits is a signed `char`. -/
def cylinder (i : Nat) : Word :=
  (((entry (i + 1)).signExtend 16).setWidth 32 &&& 0xc0) <<< 2 ||| (entry (i + 2)).setWidth 32

/-- `partition_get_bootable`. -/
def getBootable : Byte := entry 0

/-- `partition_get_type`. -/
def getType : Byte := entry 4

/-- `partition_get_first_cylinder`. -/
def getFirstCylinder : Word := entry.cylinder 1

/-- `partition_get_first_head`. -/
def getFirstHead : Byte := entry.head 1

/-- `partition_get_first_sector`. -/
def getFirstSector : Byte := entry.sector 1

/-- `partition_get_last_cylinder`. -/
def getLastCylinder : Word := entry.cylinder 5

/-- `partition_get_last_head`. -/
def getLastHead : Byte := entry.head 5

/-- `partition_get_last_sector`. -/
def getLastSector : Byte := entry.sector 5

end Entry

/-- `chs2lba`. -/
def chs2lba (ch : Channel) (c h s : BitVec 16) : Word :=
  (c.setWidth 32 * ch.nrHeads.setWidth 32 + h.setWidth 32) * ch.nrSectorsPerTrack.setWidth 32 +
    s.setWidth 32 - 1

namespace Hd

/-! ## The function -/

/-- What the buffer of a sector holds. -/
def sectorAt (buffer : Word) : Hd (List Byte) := do
  let d ← get
  return (List.range 512).map fun i => d.mem (buffer + BitVec.ofNat 32 i)

/-- An entry of the table in a sector. -/
def entryOf (sector : List Byte) (k : Nat) : Entry := fun i => sector.getD (446 + 16 * k + i) 0

/-- The body of the loop of `read_partition_table`. -/
def readEntry (frames : List Nat → Nat → Stack) (buffers : Buffers) (fuel : Nat) (channel : Ptr)
    (entryStart : Entry) (partitionNr : Byte) : Hd Unit := do
  if entryStart.getType = 0 then
    let _partition ← updatePartition channel partitionNr fun p => some { p with used := false }
  else
    outf ((frames [] 6).push (partitionNr.setWidth 32)) (stringLiteral "Partition %u in use ...")
    let c := (← get).channels channel
    let _partition ← updatePartition channel partitionNr fun p => some { p with
      bootable := entryStart.getBootable
      type := entryStart.getType.setWidth 32
      firstSector := chs2lba c (entryStart.getFirstCylinder.setWidth 16)
        (entryStart.getFirstHead.setWidth 16) (entryStart.getFirstSector.setWidth 16)
      lastSector := chs2lba c (entryStart.getLastCylinder.setWidth 16)
        (entryStart.getLastHead.setWidth 16) (entryStart.getLastSector.setWidth 16) }
    if entryStart.getType = 0x83 then
      terror (readSuperblock frames buffers fuel channel partitionNr)
    let _partition ← updatePartition channel partitionNr fun p => some { p with used := true }

/-- `read_partition_table`. -/
def readPartitionTable (frames : Nat → List Nat → Nat → Stack) (buffers : Buffers) (fuel : Nat)
    (buffer : Word) (channel : Ptr) : Hd Unit := finish do
  terror (readSector fuel 0 channel buffer)
  let sector ← sectorAt buffer
  (List.range 4).forM fun k =>
    readEntry (frames k) buffers fuel channel (entryOf sector k) (BitVec.ofNat 8 k)
  outf (frames 4 [] 0) (stringLiteral "")

end Hd

/-! ## Packed addresses -/

/-- The address at a place of an entry is the packed cylinder, head and sector of a number: the
head, the sector in six bits with the two upper bits of the cylinder above them, and the lower bits
of the cylinder. -/
structure Entry.Packs (entry : Entry) (i heads sectors n : Nat) : Prop where
  head : (entry i).toNat = n / sectors % heads
  sector : (entry (i + 1)).toNat = n % sectors + 1 + 64 * (n / (heads * sectors) / 256)
  cylinder : (entry (i + 2)).toNat = n / (heads * sectors) % 256

namespace Entry

variable {entry : Entry} {i heads sectors n : Nat} {ch : Channel}

/-- The upper two bits of a signed `char`, above eight others. -/
theorem signed_upper (x : Byte) :
    (((x.signExtend 16).setWidth 32 &&& 0xc0) <<< 2 : Word) = BitVec.ofNat 32 (2 ^ 8 * (x.toNat / 64)) := by
  revert x
  decide

/-- A value goes through a variable of 16 bits. -/
theorem setWidth_setWidth_16 {w m : Nat} {x : BitVec w} (h : x.toNat = m) (hm : m < 2 ^ 16) :
    (x.setWidth 16).setWidth 32 = BitVec.ofNat 32 m := by
  apply BitVec.eq_of_toNat_eq
  rw [BitVec.toNat_setWidth, BitVec.toNat_setWidth, BitVec.toNat_ofNat, h, Nat.mod_eq_of_lt hm]

namespace Packs

variable (h : entry.Packs i heads sectors n)

include h

theorem sector_toNat (hsectors : 0 < sectors) (hmax : sectors ≤ 63) :
    (entry.sector i).toNat = n % sectors + 1 := by
  have hlt := Nat.mod_lt n hsectors
  have hmask : ((0x3f : Byte)).toNat = 2 ^ 6 - 1 := rfl
  rw [Entry.sector, BitVec.toNat_and, hmask, Nat.and_two_pow_sub_one_eq_mod, h.sector]
  omega

theorem cylinder_toNat (hsectors : 0 < sectors) (hmax : sectors ≤ 63)
    (hn : n / (heads * sectors) < 1024) :
    (entry.cylinder i).toNat = n / (heads * sectors) := by
  have hlt := Nat.mod_lt n hsectors
  have hupper : (entry (i + 1)).toNat / 64 = n / (heads * sectors) / 256 := by
    rw [h.sector]
    omega
  have hlow : (entry (i + 2)).toNat < 2 ^ 8 := (entry (i + 2)).isLt
  rw [Entry.cylinder, signed_upper, hupper, BitVec.toNat_or, BitVec.toNat_ofNat,
    BitVec.toNat_setWidth, Nat.mod_eq_of_lt (a := (entry (i + 2)).toNat) (by omega),
    Nat.mod_eq_of_lt (by omega), ← Nat.two_pow_add_eq_or_of_lt hlow, h.cylinder]
  omega

/-- The number is unpacked. -/
theorem chs2lba_eq (hheads : ch.nrHeads.toNat = heads) (hnr : ch.nrSectorsPerTrack.toNat = sectors)
    (hsectors : 0 < sectors) (hmax : sectors ≤ 63) (hn : n < 1024 * heads * sectors) :
    chs2lba ch ((entry.cylinder i).setWidth 16) ((entry.head i).setWidth 16)
      ((entry.sector i).setWidth 16) = BitVec.ofNat 32 n := by
  have hcylinder : n / (heads * sectors) < 1024 := by
    rw [Nat.mul_assoc] at hn
    exact Nat.div_lt_of_lt_mul (by rwa [Nat.mul_comm])
  have hlt := Nat.mod_lt n hsectors
  have hhead : n / sectors % heads < 2 ^ 16 := by
    rw [← h.head]
    exact (entry i).isLt.trans (by decide)
  have hnumber : (n / (heads * sectors) * heads + n / sectors % heads) * sectors + n % sectors = n := by
    rw [Nat.mul_comm heads, ← Nat.div_div_eq_div_mul, Nat.mul_comm _ heads, Nat.div_add_mod,
      Nat.mul_comm, Nat.div_add_mod]
  have hgeometry : ∀ {x : BitVec 16} {m : Nat}, x.toNat = m → x.setWidth 32 = BitVec.ofNat 32 m := by
    rintro x m rfl
    exact (BitVec.ofNat_toNat ..).symm
  have hbyte : (entry.head i).toNat = n / sectors % heads := h.head
  rw [chs2lba, setWidth_setWidth_16 (h.cylinder_toNat hsectors hmax hcylinder) (by omega),
    setWidth_setWidth_16 hbyte hhead,
    setWidth_setWidth_16 (h.sector_toNat hsectors hmax) (by omega), hgeometry hheads, hgeometry hnr,
    BitVec.ofNat_add _ 1, ← BitVec.add_assoc]
  change _ + 1 - 1 = _
  rw [BitVec.add_sub_cancel]
  simp only [← BitVec.ofNat_add, ← BitVec.ofNat_mul]
  rw [hnumber]

end Packs

end Entry

/-! ## What the partitions are -/

/-- The geometry of a device, and the first and the last sectors of its partitions. -/
structure DiskLayout where
  nrHeads : BitVec 16
  nrSectorsPerTrack : BitVec 16
  ranges : Nat → Option (Word × Word)

namespace DiskLayout

/-- The layout of a channel. -/
def of (c : Channel) : DiskLayout where
  nrHeads := c.nrHeads
  nrSectorsPerTrack := c.nrSectorsPerTrack
  ranges := fun j => c.partitions[j]?.map fun p => (p.firstSector, p.lastSector)

variable (v : DiskLayout)

/-- A channel with the geometry. -/
def geometry : Channel :=
  { (default : Channel) with nrHeads := v.nrHeads, nrSectorsPerTrack := v.nrSectorsPerTrack }

/-- The numbers in an entry. -/
def decoded (entry : Entry) : Word × Word :=
  (chs2lba v.geometry (entry.getFirstCylinder.setWidth 16) (entry.getFirstHead.setWidth 16)
      (entry.getFirstSector.setWidth 16),
    chs2lba v.geometry (entry.getLastCylinder.setWidth 16) (entry.getLastHead.setWidth 16)
      (entry.getLastSector.setWidth 16))

/-- The layout after an entry. -/
def after (entry : Entry) (k : Nat) : DiskLayout :=
  if entry.getType = 0 then v else { v with ranges := update v.ranges k (some (v.decoded entry)) }

/-- The layout after some entries of the table. -/
def upTo (sector : List Byte) (k : Nat) : DiskLayout :=
  { v with ranges := fun j =>
      if j < k ∧ (Hd.entryOf sector j).getType ≠ 0 then some (v.decoded (Hd.entryOf sector j))
      else v.ranges j }

variable {v} {sector : List Byte} {k : Nat}

@[simp] theorem upTo_zero : v.upTo sector 0 = v := by
  rw [upTo]
  have hnone : ∀ j, ¬ (j < 0 ∧ (Hd.entryOf sector j).getType ≠ 0) :=
    fun j h => Nat.not_lt_zero j h.1
  simp only [if_neg (hnone _)]

theorem upTo_used {j : Nat} (hj : j < k) (h : (Hd.entryOf sector j).getType ≠ 0) :
    (v.upTo sector k).ranges j = some (v.decoded (Hd.entryOf sector j)) := if_pos ⟨hj, h⟩

theorem upTo_free {j : Nat} (h : (Hd.entryOf sector j).getType = 0) :
    (v.upTo sector k).ranges j = v.ranges j := if_neg fun hused => hused.2 h

theorem upTo_succ : (v.upTo sector k).after (Hd.entryOf sector k) k = v.upTo sector (k + 1) := by
  have hother : ∀ j, j ≠ k → (v.upTo sector (k + 1)).ranges j = (v.upTo sector k).ranges j := by
    intro j hj
    have hiff : j < k + 1 ↔ j < k := by omega
    simp only [upTo, hiff]
  unfold after
  split
  next hfree =>
    refine (DiskLayout.mk.injEq ..).mpr ⟨rfl, rfl, funext fun j => ?_⟩
    cases Decidable.em (j = k) with
    | inl heq =>
      rw [heq]
      exact (upTo_free hfree).trans (upTo_free hfree).symm
    | inr hne => exact (hother j hne).symm
  next hused =>
    refine (DiskLayout.mk.injEq ..).mpr ⟨rfl, rfl, funext fun j => ?_⟩
    cases Decidable.em (j = k) with
    | inl heq =>
      rw [heq, update_self]
      exact (upTo_used (v := v) (Nat.lt_succ_self k) hused).symm
    | inr hne => exact (update_of_ne hne ..).trans (hother j hne).symm

end DiskLayout

theorem toNat_partitionNr {k : Nat} (hk : k < 4) : (BitVec.ofNat 8 k).toNat = k := by
  rw [BitVec.toNat_ofNat]
  omega

/-- The bytes of a sector of a disk. -/
def Disk.sector (disk : Disk) (number : Nat) : List Byte := (List.range 512).map (disk.byte number)

namespace Hd

variable {σ β : Type} {answers : σ → Syscall → Reply → σ → Prop} {P : Driver → σ → Prop}
  {channel : Ptr} {channels : Ptr → Channel} {partitionNr : Byte} {p p' : Partition} {v : DiskLayout}
  {frame : Stack} {frames : List Nat → Nat → Stack} {buffers : Buffers} {fuel k : Nat}
  {entry : Entry} {sector : List Byte}

theorem of_withPartition (hnr : partitionNr.toNat < 4) :
    DiskLayout.of (withPartition channels channel partitionNr p' channel) =
      { DiskLayout.of (channels channel) with
        ranges := update (DiskLayout.of (channels channel)).ranges partitionNr.toNat
          (some (p'.firstSector, p'.lastSector)) } := by
  rw [withPartition, update_self, DiskLayout.of, DiskLayout.mk.injEq]
  refine ⟨rfl, rfl, funext fun j => ?_⟩
  dsimp only
  rw [Vector.getElem?_setIfInBounds]
  cases Decidable.em (partitionNr.toNat = j) with
  | inl heq =>
    rw [if_pos heq, ← heq, if_pos hnr, update_self]
    rfl
  | inr hne =>
    rw [if_neg hne, update_of_ne (Ne.symm hne)]
    rfl

/-- The layout of a channel is this. -/
def Laid (channel : Ptr) (v : DiskLayout) (d : Driver) (_ : σ) : Prop :=
  DiskLayout.of (d.channels channel) = v

/-- The fields of a partition are assigned to. -/
theorem succeeds_assign {g : Partition → Partition} {Q : Partition → Driver → σ → Prop}
    (hnr : partitionNr.toNat < 4)
    (h : ∀ d e p, P d e → (d.channels channel).partitions[partitionNr.toNat]? = some p →
      Q (g p) { d with channels := withPartition d.channels channel partitionNr (g p) } e) :
    Succeeds answers P (updatePartition channel partitionNr fun p => some (g p)) Q := by
  have hend : ∀ d e, P d e → ∃ p d', Q p d' e ∧
      updatePartition channel partitionNr (fun p => some (g p)) d = .done (some p, d') := by
    intro d e hP
    obtain ⟨p, hp⟩ : ∃ p, (d.channels channel).partitions[partitionNr.toNat]? = some p :=
      ⟨_, Vector.getElem?_eq_getElem hnr⟩
    exact ⟨g p, _, h d e p hP hp, updatePartition_eq hp rfl⟩
  constructor
  · intro d e hP
    obtain ⟨p, d', hQ, heq⟩ := hend d e hP
    rw [heq]
    exact Dialogue.always_done hQ
  · intro d e hP
    obtain ⟨p, d', hQ, heq⟩ := hend d e hP
    rw [heq]
    exact Dialogue.sometimes_done ⟨p, rfl, hQ⟩

/-- The assignment does not matter to the layout. -/
theorem triple_assign {g : Partition → Partition} (hnr : partitionNr.toNat < 4)
    (hfirst : ∀ p, (g p).firstSector = p.firstSector) (hlast : ∀ p, (g p).lastSector = p.lastSector) :
    Triple answers (Laid channel v) (updatePartition channel partitionNr fun p => some (g p))
      fun _ => Laid channel v := by
  refine (succeeds_assign hnr fun d e p hlaid hp => ?_).triple
  have hrange : v.ranges partitionNr.toNat = some ((g p).firstSector, (g p).lastSector) := by
    rw [← hlaid, hfirst, hlast]
    exact congrArg (Option.map _) hp
  rw [Laid, of_withPartition hnr, hlaid, ← hrange, update_eq_self]

theorem lt_of_partition {d : Driver}
    (hp : (d.channels channel).partitions[partitionNr.toNat]? = some p) : partitionNr.toNat < 4 := by
  by_contra hge
  rw [Vector.getElem?_eq_none (Nat.not_lt.1 hge)] at hp
  cases hp

/-- The partition is assigned to, or the assignment is not defined. -/
theorem keeps_updatePartition {γ : Type} {view : Driver → γ} {f : Partition → Option Partition}
    (h : ∀ d p p', (d.channels channel).partitions[partitionNr.toNat]? = some p → f p = some p' →
      view { d with channels := withPartition d.channels channel partitionNr p' } = view d) :
    Keeps view (updatePartition channel partitionNr f) := by
  intro d
  cases hp : (d.channels channel).partitions[partitionNr.toNat]? with
  | none =>
    have hstuck : updatePartition channel partitionNr f d = .stuck := by
      change Dialogue.bind (partitionAt channel partitionNr d) _ = _
      rw [partitionAt, hp]
      rfl
    rw [hstuck]
    exact .stuck
  | some p =>
    cases hf : f p with
    | none =>
      have hstuck : updatePartition channel partitionNr f d = .stuck := by
        rw [updatePartition, partitionAt_bind hp, hf]
        rfl
      rw [hstuck]
      exact .stuck
    | some p' =>
      rw [updatePartition_eq hp hf]
      exact .done (h d p p' hp hf)

/-- An assignment that does not matter to the layout. -/
theorem keeps_layout_updatePartition {f : Partition → Option Partition}
    (h : ∀ p p', f p = some p' → p'.firstSector = p.firstSector ∧ p'.lastSector = p.lastSector) :
    Keeps (fun d => DiskLayout.of (d.channels channel)) (updatePartition channel partitionNr f) := by
  refine keeps_updatePartition fun d p p' hp hf => ?_
  have hrange : (DiskLayout.of (d.channels channel)).ranges partitionNr.toNat =
      some (p'.firstSector, p'.lastSector) := by
    rw [(h p p' hf).1, (h p p' hf).2]
    exact congrArg (Option.map _) hp
  dsimp only
  rw [of_withPartition (lt_of_partition hp), ← hrange, update_eq_self]

/-- The first and the last sector of a partition. -/
def rangeAt (channel : Ptr) (k : Nat) (d : Driver) : Option (Word × Word) :=
  (DiskLayout.of (d.channels channel)).ranges k

/-- An assignment to another partition. -/
theorem keeps_range_updatePartition {f : Partition → Option Partition} (hne : partitionNr.toNat ≠ k) :
    Keeps (rangeAt channel k) (updatePartition channel partitionNr f) := by
  refine keeps_updatePartition fun d p p' hp _ => ?_
  unfold rangeAt
  dsimp only
  rw [of_withPartition (lt_of_partition hp)]
  exact update_of_ne hne.symm ..

theorem keeps_layout_loadPartition : Keeps (fun d => DiskLayout.of (d.channels channel))
    (loadPartition frames buffers fuel channel partitionNr) := by
  have hmem : MemFree fun d => DiskLayout.of (d.channels channel) := fun _ _ => rfl
  have hread : ∀ number buffer, Keeps (fun d => DiskLayout.of (d.channels channel))
      (terror (readSector fuel number channel buffer)) := fun _ _ =>
    Keeps.comp (fun channels => DiskLayout.of (channels channel)) keeps_channels_readSector.terror
  refine keeps_partitionAt.bind fun p => (hread _ _).bind fun _ => (hread _ _).bind fun _ => ?_
  refine keeps_get_bind fun d => (keeps_outf hmem).bind fun _ => ?_
  refine Keeps.bind (keeps_get_bind fun d => keeps_pure) fun superblock => ?_
  refine Keeps.bind (keeps_layout_updatePartition fun p p' hp' => ?_) fun partition => ?_
  · obtain ⟨_, hsome, hloaded⟩ :=
      Partition.exists_withSuperblock (p := p) (Partition.computable_of_withSuperblock hp')
    obtain rfl := Option.some.inj (hp'.symm.trans hsome)
    exact ⟨hloaded.first, hloaded.last⟩
  have htable : Keeps (fun d => DiskLayout.of (d.channels channel))
      (terror (readGroupDescriptorTable buffers fuel channel partitionNr)) := by
    refine (keeps_partitionAt.bind fun p => ?_).finish.terror
    refine (hread _ _).bind fun _ => (hread _ _).bind fun _ => ?_
    refine Keeps.bind (keeps_get_bind fun d => keeps_pure) fun table => ?_
    refine (keeps_layout_updatePartition fun p p' hp' => ?_).bind fun _ => keeps_pure
    exact Partition.sectors_of_withGroups hp'
  dsimp only
  split
  next => exact (keeps_todoError hmem).bind fun _ => htable
  next => exact htable

theorem keeps_layout_readSuperblock : Keeps (fun d => DiskLayout.of (d.channels channel))
    (readSuperblock frames buffers fuel channel partitionNr) := by
  have hroot : Keeps (fun d => DiskLayout.of (d.channels channel))
      (readRootInode frames buffers fuel channel partitionNr) :=
    Keeps.comp (fun channels => DiskLayout.of (channels channel)) keeps_channels_readRootInode
  exact (keeps_layout_loadPartition.bind fun _ => hroot.terror).finish

/-- What comes after the numbers of a partition have been assigned does not change them. -/
theorem keeps_layout_rest : Keeps (fun d => DiskLayout.of (d.channels channel)) (do
    if entry.getType = 0x83 then
      terror (readSuperblock frames buffers fuel channel partitionNr)
    let _partition ← updatePartition channel partitionNr fun p => some { p with used := true }) := by
  have hused : Keeps (fun d => DiskLayout.of (d.channels channel)) (do
      let _partition ← updatePartition channel partitionNr fun p => some { p with used := true }) := by
    refine (keeps_layout_updatePartition fun p p' hp' => ?_).bind fun _ => keeps_pure
    obtain rfl := Option.some.inj hp'
    exact ⟨rfl, rfl⟩
  dsimp only
  split
  next => exact keeps_layout_readSuperblock.terror.bind fun _ => hused
  next => exact hused

/-- However the body of the loop ends, it has not changed the numbers of another partition. -/
theorem keeps_range_readEntry (hne : partitionNr.toNat ≠ k) :
    Keeps (rangeAt channel k) (readEntry frames buffers fuel channel entry partitionNr) := by
  unfold readEntry
  split
  next => exact (keeps_range_updatePartition hne).bind fun _ => keeps_pure
  next =>
    refine (keeps_outf fun _ _ => rfl).bind fun _ => keeps_get_bind fun d => ?_
    refine (keeps_range_updatePartition hne).bind fun _ => ?_
    exact keeps_layout_rest.comp fun v => v.ranges k

theorem assign_bind {g : Partition → Partition} {f : Partition → Hd β} {d : Driver}
    (hp : (d.channels channel).partitions[partitionNr.toNat]? = some p) :
    (updatePartition channel partitionNr (fun p => some (g p)) >>= f) d =
      f (g p) { d with channels := withPartition d.channels channel partitionNr (g p) } :=
  updatePartition_bind hp rfl

/-- However it ends, the numbers of an entry that is in use have been stored. -/
theorem every_readEntry {d : Driver} (hnr : partitionNr.toNat < 4) (htype : entry.getType ≠ 0)
    (hlaid : DiskLayout.of (d.channels channel) = v) :
    (readEntry frames buffers fuel channel entry partitionNr d).Every (fun _ _ => True)
      fun result => rangeAt channel partitionNr.toNat result.2 = some (v.decoded entry) := by
  obtain ⟨p, hp⟩ : ∃ p, (d.channels channel).partitions[partitionNr.toNat]? = some p :=
    ⟨_, Vector.getElem?_eq_getElem hnr⟩
  unfold readEntry
  rw [if_neg htype, outf_bind]
  refine (Dialogue.every_trivial _).bind (fun _ _ _ => trivial) fun o _ => ?_
  have hafter : ((afterOutf d o).channels channel).partitions[partitionNr.toNat]? = some p := hp
  have hget : ∀ {f : Driver → Hd Unit}, (get >>= f) (afterOutf d o) = f (afterOutf d o) (afterOutf d o) :=
    rfl
  rw [hget, assign_bind hafter]
  refine (keeps_layout_rest _).mono (fun _ _ h => h) fun result hkept => ?_
  refine (congrArg (fun v => v.ranges partitionNr.toNat) hkept).trans ?_
  dsimp only
  rw [of_withPartition hnr, ← hlaid]
  exact update_self ..

theorem triple_outf_laid {fmt : List Byte} :
    Triple answers (Laid channel v) (outf frame fmt) fun _ => Laid channel v := by
  intro d e hlaid
  exact Dialogue.Always.bind (R := fun _ _ => True) (fun _ _ _ => trivial)
    fun _ _ _ => Dialogue.always_done hlaid

theorem triple_used (used : Bool) (hnr : partitionNr.toNat < 4) :
    Triple answers (Laid channel v)
      (do
        let _partition ← updatePartition channel partitionNr fun p => some { p with used })
      fun _ => Laid channel v := by
  refine Triple.bind (triple_assign hnr ?_ ?_) fun _ => triple_pure fun _ _ hlaid => hlaid
  · exact fun _ => rfl
  · exact fun _ => rfl

theorem passes_outf {fmt : List Byte} (hfmt : 0 ∈ fmt)
    (hreply : ∀ e request, ∃ reply e', answers e request reply e') :
    Passes answers (fun d _ => hasFailed d.error = false) (outf frame fmt)
      fun _ d _ => hasFailed d.error = false := by
  intro d e hok
  exact ((outf_ends_iff.mpr hfmt).sometimes hreply e).bind
    fun o e' _ => Dialogue.sometimes_done ⟨(), rfl, hok⟩

/-- An entry changes the numbers of its own partition, if it is in use. -/
theorem triple_readEntry (hnr : partitionNr.toNat < 4) :
    Triple answers (Laid channel v) (readEntry frames buffers fuel channel entry partitionNr)
      fun _ => Laid channel (v.after entry partitionNr.toNat) := by
  unfold readEntry DiskLayout.after
  split
  next => exact triple_used false hnr
  next =>
    refine triple_outf_laid.bind fun _ => triple_get_bind fun d _ hlaid => ?_
    refine (succeeds_assign hnr (Q := fun _ => Laid channel { v with
      ranges := update v.ranges partitionNr.toNat (some (v.decoded entry)) })
      fun d' e p hlaid' _ => ?_).triple.bind fun _ => ?_
    · rw [Laid, of_withPartition hnr, hlaid', ← hlaid]
      rfl
    split
    next =>
      refine (triple_of_keeps keeps_layout_readSuperblock).terror_of.bind fun _ => ?_
      exact triple_used true hnr
    next => exact triple_used true hnr

/-! ## The table -/

section Table

variable {disk : Disk} {c : Channel} {mem : Word → BitVec 8} {buffer : Word} {number : Nat}
  {allFrames : Nat → List Nat → Nat → Stack}

theorem sectorAt_bind {f : List Byte → Hd β} {d : Driver}
    (h : disk.Filled number buffer 512 mem d.mem) :
    (sectorAt buffer >>= f) d = f (disk.sector number) d := by
  have hbytes : (List.range 512).map (fun i => d.mem (buffer + BitVec.ofNat 32 i)) =
      disk.sector number :=
    List.map_congr_left fun i hi => h.bytes i (List.mem_range.1 hi)
  exact congrArg (fun bytes => f bytes d) hbytes

/-- The entries that are in use are stored, one after the other. -/
theorem triple_entries {n : Nat} (hn : n ≤ 4) : Triple answers (Laid channel v)
    ((List.range n).forM fun k =>
      readEntry (allFrames k) buffers fuel channel (entryOf sector k) (BitVec.ofNat 8 k))
    fun _ => Laid channel (v.upTo sector n) := by
  have hloop : Triple answers (Laid channel (v.upTo sector 0))
      ((List.range n).forM fun k =>
        readEntry (allFrames k) buffers fuel channel (entryOf sector k) (BitVec.ofNat 8 k))
      fun _ => Laid channel (v.upTo sector n) := by
    refine triple_range (I := fun k => Laid channel (v.upTo sector k)) n fun k hk => ?_
    have hnr := toNat_partitionNr (hk.trans_le hn)
    have hafter : Triple answers (Laid channel (v.upTo sector k))
        (readEntry (allFrames k) buffers fuel channel (entryOf sector k) (BitVec.ofNat 8 k))
        fun _ => Laid channel ((v.upTo sector k).after (entryOf sector k) (BitVec.ofNat 8 k).toNat) :=
      triple_readEntry (hnr.symm ▸ hk.trans_le hn)
    rwa [hnr, DiskLayout.upTo_succ] at hafter
  rwa [DiskLayout.upTo_zero] at hloop

/-- In all runs the entries that are in use are stored. -/
theorem triple_readPartitionTable (hc : channels channel = c) (hdisk : 0 < disk.size) :
    Triple (disk.Answers c) (Kept channels mem fun _ => True)
      (readPartitionTable allFrames buffers fuel buffer channel) fun _ d _ =>
        hasFailed d.error = false →
          DiskLayout.of (d.channels channel) = (DiskLayout.of c).upTo (disk.sector 0) 4 := by
  refine Triple.finish (T := Laid channel ((DiskLayout.of c).upTo (disk.sector 0) 4)) ?_
  have hfirst : (0 : Word).toNat < disk.size := hdisk
  refine (triple_readSector hfirst hc).terror.bind fun _ => ?_
  rintro d r ⟨hchannels, hfilled⟩
  have hsector : disk.Filled 0 buffer 512 mem d.mem := hfilled
  rw [sectorAt_bind hsector]
  have hrest : Triple (disk.Answers c) (Laid channel (DiskLayout.of c))
      (do
        (List.range 4).forM fun k => readEntry (allFrames k) buffers fuel channel
          (entryOf (disk.sector 0) k) (BitVec.ofNat 8 k)
        outf (allFrames 4 [] 0) (stringLiteral ""))
      fun _ d r => hasFailed d.error = false →
        Laid channel ((DiskLayout.of c).upTo (disk.sector 0) 4) d r :=
    ((triple_entries le_rfl).bind fun _ => triple_outf_laid).mono (fun _ _ h => h)
      fun _ _ _ h _ => h
  refine hrest d r ?_
  rw [Laid, hchannels, hc]

/-- Without a file system there is nothing to fail for but the device. -/
theorem passes_readEntry {frames : List Nat → Nat → Stack} (hnr : partitionNr.toNat < 4)
    (hreply : ∀ e request, ∃ reply e', answers e request reply e') (htype : entry.getType ≠ 0x83) :
    Passes answers (fun d _ => hasFailed d.error = false)
      (readEntry frames buffers fuel channel entry partitionNr)
      fun _ d _ => hasFailed d.error = false := by
  have hassign : ∀ g : Partition → Partition, Passes answers (fun d _ => hasFailed d.error = false)
      (updatePartition channel partitionNr fun p => some (g p))
      fun _ d _ => hasFailed d.error = false := by
    intro g
    refine Succeeds.passes (succeeds_assign hnr ?_)
    exact fun d e p hok _ => hok
  unfold readEntry
  rw [if_neg htype]
  split
  next => exact (hassign _).bind fun _ => passes_pure fun _ _ hok => hok
  next =>
    refine (passes_outf (by decide) hreply).bind fun _ => passes_get_bind fun d _ _ => ?_
    refine (hassign _).bind fun _ => ?_
    exact (hassign _).bind fun _ => passes_pure fun _ _ hok => hok

theorem passes_readPartitionTable (hc : channels channel = c) (hata : c.controller = .ata)
    (hdisk : c.lbaSectors.toNat = disk.size) (hpos : 0 < disk.size)
    (htypes : ∀ k < 4, (entryOf (disk.sector 0) k).getType ≠ 0x83) :
    Passes (disk.Answers c) (Running channels mem)
      (readPartitionTable allFrames buffers (fuel + 1) buffer channel)
      fun _ d _ => hasFailed d.error = false := by
  have hreply : ∀ e request, ∃ reply e', disk.Answers c e request reply e' := by
    intro e request
    obtain ⟨reply, e', hanswers, -⟩ := willing_disk e request
    exact ⟨reply, e', hanswers⟩
  refine Passes.finish ?_
  have hfirst : (0 : Word).toNat < disk.size := hpos
  refine (succeeds_readSector hc hata hdisk hfirst).passes.bind fun _ => ?_
  rintro d r ⟨hok, -, hfilled⟩
  have hsector : disk.Filled 0 buffer 512 mem d.mem := hfilled
  rw [sectorAt_bind hsector]
  refine Passes.bind (passes_forM fun k hk => ?_) (fun _ => passes_outf (by decide) hreply) d r hok
  have hlt := List.mem_range.1 hk
  have hnr := toNat_partitionNr hlt
  exact passes_readEntry (hnr.symm ▸ hlt) hreply (htypes k hlt)

end Table

/-! ## The numbers of an entry -/

/-- The numbers of the sectors that an entry packs are stored. -/
def Stored (disk : Disk) (channel : Ptr) (k heads sectors n : Nat) (d : Driver) : Prop :=
  ∃ p, (d.channels channel).partitions[k]? = some p ∧
    ((entryOf (disk.sector 0) k).Packs 1 heads sectors n → p.firstSector = BitVec.ofNat 32 n) ∧
    ((entryOf (disk.sector 0) k).Packs 5 heads sectors n → p.lastSector = BitVec.ofNat 32 n)

/-- They are stored in all runs that end like this. -/
def Stores (disk : Disk) (d : Driver) (channel : Ptr) (k heads sectors n : Nat)
    (ends : Driver → Prop) : Prop :=
  ∀ allFrames buffers fuel buffer r r' d',
    RunIn (disk.Answers (d.channels channel)) r
      (readPartitionTable allFrames buffers fuel buffer channel d) r' (some (), d') → ends d' →
    Stored disk channel k heads sectors n d'

/-- The part of `read_partition_table` that comes before an entry. -/
def beforeEntry (frames : Nat → List Nat → Nat → Stack) (buffers : Buffers) (fuel : Nat)
    (buffer : Word) (channel : Ptr) (k : Nat) : Hd Unit := do
  terror (readSector fuel 0 channel buffer)
  let sector ← sectorAt buffer
  (List.range k).forM fun j =>
    readEntry (frames j) buffers fuel channel (entryOf sector j) (BitVec.ofNat 8 j)

variable {disk : Disk} {d d' : Driver} {r r' : Ata} {heads sectors n : Nat} {buffer : Word}
  {allFrames : Nat → List Nat → Nat → Stack}

/-- However the loop ends after it has come to an entry that is in use, the numbers of the entry have
been stored. -/
theorem every_entries (hk : k < 4) (htype : (entryOf sector k).getType ≠ 0)
    (hlaid : DiskLayout.of (d.channels channel) = v) :
    ((k :: List.range' (k + 1) (3 - k)).forM (fun j => readEntry (allFrames j) buffers fuel channel
      (entryOf sector j) (BitVec.ofNat 8 j)) d).Every (fun _ _ => True)
      fun result => rangeAt channel k result.2 = some (v.decoded (entryOf sector k)) := by
  have hnr := toNat_partitionNr hk
  have hentry : (readEntry (allFrames k) buffers fuel channel (entryOf sector k) (BitVec.ofNat 8 k)
      d).Every (fun _ _ => True) fun result => rangeAt channel (BitVec.ofNat 8 k).toNat result.2 =
        some (v.decoded (entryOf sector k)) :=
    every_readEntry (hnr.symm ▸ hk) htype hlaid
  rw [hnr] at hentry
  refine hentry.bind (fun _ _ _ => trivial) ?_
  rintro ⟨_ | u, d₁⟩ hstored
  · exact .done hstored
  · have hrest : Keeps (rangeAt channel k) ((List.range' (k + 1) (3 - k)).forM fun j =>
        readEntry (allFrames j) buffers fuel channel (entryOf sector j) (BitVec.ofNat 8 j)) := by
      refine keeps_forM fun j hj => keeps_range_readEntry ?_
      obtain ⟨i, hi, rfl⟩ := List.mem_range'.mp hj
      rw [toNat_partitionNr (by omega)]
      omega
    exact (hrest d₁).mono (fun _ _ h => h) fun _ hkept => hkept.trans hstored

theorem range_four (hk : k < 4) :
    List.range 4 = List.range k ++ k :: List.range' (k + 1) (3 - k) := by
  revert hk
  revert k
  decide

/-- A run stores the numbers of an entry that is in use, or an error ends it before. -/
theorem stored_or_before (hk : k < 4) (hdisk : 0 < disk.size)
    (htype : (entryOf (disk.sector 0) k).getType ≠ 0)
    (hrun : RunIn (disk.Answers (d.channels channel)) r
      (readPartitionTable allFrames buffers fuel buffer channel d) r' (some (), d')) :
    rangeAt channel k d' = some ((DiskLayout.of (d.channels channel)).decoded
        (entryOf (disk.sector 0) k)) ∨
      RunIn (disk.Answers (d.channels channel)) r
        (beforeEntry allFrames buffers fuel buffer channel k d) r' (none, d') ∧
        hasFailed d'.error = true := by
  obtain ⟨_, ⟨_, _⟩, hbody, hfinish⟩ := hrun.of_bind
  cases hfinish with
  | done =>
    obtain ⟨r₁, result, hread, hrest⟩ := hbody.of_bind
    have hfirst : (0 : Word).toNat < disk.size := hdisk
    have hend := (triple_readSector hfirst rfl).terror d r ⟨rfl, rfl, trivial⟩ r₁ result hread
    obtain ⟨_ | u, d₁⟩ := result
    · cases hrest with
      | done => exact .inr ⟨runIn_leave hread, hend⟩
    · obtain ⟨hchannels, hfilled⟩ := hend
      have hsector : disk.Filled 0 buffer 512 d.mem d₁.mem := hfilled
      change RunIn _ r₁ ((sectorAt buffer >>= _) d₁) r' _ at hrest
      rw [sectorAt_bind hsector] at hrest
      obtain ⟨r₂, ⟨o₂, d₂⟩, hloop, hout⟩ := hrest.of_bind
      have hlaid : Laid channel (DiskLayout.of (d.channels channel)) d₁ r₁ := by
        rw [Laid, hchannels]
      rw [range_four hk] at hloop
      obtain ⟨rfl, hbefore⟩ | ⟨r₃, d₃, hbefore, hfrom⟩ := runIn_forM_append hloop
      · have hfailed := triple_entries hk.le d₁ r₁ hlaid r₂ _ hbefore
        cases hout with
        | done =>
          refine .inr ⟨runIn_bind hread ?_, hfailed⟩
          rw [sectorAt_bind hsector]
          exact hbefore
      · have hlaid₃ := triple_entries hk.le d₁ r₁ hlaid r₃ _ hbefore
        have hstored := (every_entries hk htype hlaid₃).of_runIn hfrom
        cases o₂ with
        | none =>
          cases hout with
          | done => exact .inl hstored
        | some u =>
          have hfree : MemFree (rangeAt channel k) := fun _ _ => rfl
          have hkept := (keeps_outf hfree).of_runIn hout
          exact .inl (hkept.trans hstored)

/-- The numbers of an entry that is in use are stored, unless an error ends the function before it
comes to the entry; and there need not be an error if the device is ready, and there is no file
system to look into. -/
theorem partition_entry_stored (hheads : (d.channels channel).nrHeads.toNat = heads)
    (hnr : (d.channels channel).nrSectorsPerTrack.toNat = sectors) (hsectors : 0 < sectors)
    (hmax : sectors ≤ 63) (hn : n < 1024 * heads * sectors) (hk : k < 4) (hdisk : 0 < disk.size)
    (htype : (entryOf (disk.sector 0) k).getType ≠ 0) :
    (∀ allFrames buffers fuel buffer r r' d', RunIn (disk.Answers (d.channels channel)) r
        (readPartitionTable allFrames buffers fuel buffer channel d) r' (some (), d') →
      Stored disk channel k heads sectors n d' ∨
        RunIn (disk.Answers (d.channels channel)) r
          (beforeEntry allFrames buffers fuel buffer channel k d) r' (none, d') ∧
          hasFailed d'.error = true) ∧
      ((∀ j < 4, (entryOf (disk.sector 0) j).getType ≠ 0x83) →
        (d.channels channel).controller = .ata →
        (d.channels channel).lbaSectors.toNat = disk.size → hasFailed d.error = false →
        ∀ allFrames buffers fuel buffer r, ∃ r' d', RunIn (disk.Answers (d.channels channel)) r
          (readPartitionTable allFrames buffers (fuel + 1) buffer channel d) r' (some (), d') ∧
            hasFailed d'.error = false) := by
  constructor
  · intro allFrames buffers fuel buffer r r' d' hrun
    obtain hrange | hbefore := stored_or_before hk hdisk htype hrun
    · obtain ⟨p, hp, hnumbers⟩ := Option.map_eq_some_iff.1 hrange
      obtain ⟨hfirst, hlast⟩ := Prod.mk.inj hnumbers
      refine .inl ⟨p, hp, fun hpacks => ?_, fun hpacks => ?_⟩
      · exact hfirst.trans (hpacks.chs2lba_eq hheads hnr hsectors hmax hn)
      · exact hlast.trans (hpacks.chs2lba_eq hheads hnr hsectors hmax hn)
    · exact .inr hbefore
  · intro htypes hata hsize hok allFrames buffers fuel buffer r
    obtain ⟨r', ⟨_, d'⟩, hrun, _, rfl, hend⟩ :=
      passes_readPartitionTable rfl hata hsize hdisk htypes d r ⟨hok, rfl, rfl⟩
    exact ⟨r', d', hrun, hend⟩

theorem entryOf_sector {number i : Nat} (h : 446 + 16 * k + i < 512) :
    entryOf (disk.sector number) k i = disk.byte number (446 + 16 * k + i) := by
  rw [entryOf, Disk.sector, List.getD_eq_getElem?_getD, List.getElem?_map, List.getElem?_range h]
  rfl

/-- A disk whose first partition is of this type, and begins with sector 63. -/
def tableDisk (type : Byte) : Disk where
  size := 0x1000000
  size_le := eightGiB_le
  word number i :=
    if number ≠ 0 then 0
    else if i = 223 then 0x100
    else if i = 224 then 1
    else if i = 225 then type.setWidth 16 else 0

theorem packs_tableDisk (type : Byte) :
    (entryOf ((tableDisk type).sector 0) 0).Packs 1 16 63 63 where
  head := by
    rw [entryOf_sector (by decide), Disk.byte, if_neg (by decide)]
    change (((0x100 : BitVec 16) >>> 8).setWidth 8).toNat = 1
    decide
  sector := by
    rw [entryOf_sector (by decide)]
    rfl
  cylinder := by
    rw [entryOf_sector (by decide), Disk.byte, if_neg (by decide)]
    change (((1 : BitVec 16) >>> 8).setWidth 8).toNat = 0
    decide

theorem getType_tableDisk (type : Byte) {j : Nat} (hj : j < 4) :
    (entryOf ((tableDisk type).sector 0) j).getType = if j = 0 then type else 0 := by
  have hplace : (446 + 16 * j + 4) / 2 = 225 + 8 * j := by omega
  rw [Entry.getType, entryOf_sector (by omega), Disk.byte, if_pos (by omega), hplace]
  cases j with
  | zero => exact BitVec.setWidth_setWidth_of_le type (by decide)
  | succ j =>
    have hword : (tableDisk type).word 0 (225 + 8 * (j + 1)) = 0 := by
      change (if 225 + 8 * (j + 1) = 223 then (_ : BitVec 16) else _) = 0
      rw [if_neg (by omega), if_neg (by omega), if_neg (by omega)]
    rw [hword, if_neg (Nat.succ_ne_zero j)]
    rfl

/-- A driver for a device with 16 heads and 63 sectors per track. -/
def withGeometry (controller : Controller) : Driver :=
  { (default : Driver) with
    channels := fun _ => {
      controller
      lbaSectors := 0x1000000
      busInfo := 3
      nrHeads := 16
      nrSectorsPerTrack := 63 } }

/-- The first sector of a partition with another file system. -/
theorem partition_entry_fat :
    Stores (tableDisk 0xc) (withGeometry .ata) 0 0 16 63 63 fun d' => hasFailed d'.error = false := by
  have htype : (entryOf ((tableDisk 0xc).sector 0) 0).getType ≠ 0 := by
    rw [getType_tableDisk _ (by decide)]
    decide
  have hheads : ((withGeometry .ata).channels 0).nrHeads.toNat = 16 := rfl
  have hstored := (partition_entry_stored (n := 63) hheads rfl (by decide) (by decide) (by decide)
    (by decide) (by decide) htype).1
  intro allFrames buffers fuel buffer r r' d' hrun hok
  obtain hdone | ⟨-, hfailed⟩ := hstored _ _ _ _ _ _ _ hrun
  · exact hdone
  · exact absurd (hfailed.symm.trans hok) (by decide)

/-- An entry of type 0 is not stored. -/
theorem not_stores_free :
    ¬ Stores (tableDisk 0) (withGeometry .ata) 0 0 16 63 63 fun d' => hasFailed d'.error = false := by
  intro h
  have htypes : ∀ k < 4, (entryOf ((tableDisk 0).sector 0) k).getType = 0 := by
    intro k hk
    rw [getType_tableDisk _ hk, ite_self]
  have hother : ∀ k < 4, (entryOf ((tableDisk 0).sector 0) k).getType ≠ 0x83 := by
    intro k hk
    rw [htypes k hk]
    decide
  let buffers : Buffers := ⟨0x1000, 0x2000, 0x3000, 0x4000, fun _ => 0x5000, fun _ => ⟨0⟩⟩
  have hpasses : Passes ((tableDisk 0).Answers ((withGeometry .ata).channels 0))
      (Running (withGeometry .ata).channels (withGeometry .ata).mem)
      (readPartitionTable (fun _ _ _ => default) buffers 1 0x6000 0)
      fun _ d _ => hasFailed d.error = false :=
    passes_readPartitionTable rfl rfl rfl (by decide) hother
  obtain ⟨r', ⟨_, d'⟩, hrun, _, rfl, hok⟩ :=
    hpasses (withGeometry .ata) ⟨0, 0, 0, 0, 0, false, []⟩ ⟨rfl, rfl, rfl⟩
  obtain ⟨p, hp, hfirst, -⟩ := h _ _ _ _ _ r' d' hrun hok
  have hlayout := triple_readPartitionTable rfl (by decide) (withGeometry .ata) _ ⟨rfl, rfl, trivial⟩
    r' _ hrun hok
  have hbefore : (DiskLayout.of ((withGeometry .ata).channels 0)).ranges 0 = some (0, 0) := rfl
  have hafter := DiskLayout.upTo_free (v := DiskLayout.of ((withGeometry .ata).channels 0)) (k := 4)
    (htypes 0 (by decide))
  have hrange : (DiskLayout.of (d'.channels 0)).ranges 0 =
      (d'.channels 0).partitions[0]?.map fun p => (p.firstSector, p.lastSector) := rfl
  rw [← hlayout, hbefore, hrange, hp] at hafter
  have hzero : p.firstSector = 0 := (Prod.mk.inj (Option.some.inj hafter)).1
  exact absurd (hzero.symm.trans (hfirst (packs_tableDisk 0))) (by decide)

/-- Nothing is stored for a device that is not an ATA device. -/
theorem not_stores_unready :
    ¬ Stores (tableDisk 0xc) (withGeometry .none) 0 0 16 63 63 fun _ => True := by
  intro h
  have hnotAta : readSector 1 0 0 0x6000 (withGeometry .none) =
      .done (some (), { withGeometry .none with error := Err.notAta }) :=
    transferSector_not_ata rfl (by decide)
  have hend : readPartitionTable (fun _ _ _ => default)
      ⟨0x1000, 0x2000, 0x3000, 0x4000, fun _ => 0x5000, fun _ => ⟨0⟩⟩ 1 0x6000 0
      (withGeometry .none) = .done (some (), { withGeometry .none with error := Err.notAta }) := by
    change Dialogue.bind (Dialogue.bind (Dialogue.bind (readSector 1 0 0 0x6000 (withGeometry .none))
      _) _) _ = _
    rw [hnotAta]
    rfl
  obtain ⟨p, hp, hfirst, -⟩ := h (fun _ _ _ => default)
    ⟨0x1000, 0x2000, 0x3000, 0x4000, fun _ => 0x5000, fun _ => ⟨0⟩⟩ 1 0x6000
    ⟨0, 0, 0, 0, 0, false, []⟩ _ _ (by rw [hend]; exact .done _ _) trivial
  have hbefore : ((withGeometry .none).channels 0).partitions[0]? = some default := rfl
  obtain rfl : default = p := Option.some.inj (hbefore.symm.trans hp)
  exact absurd (hfirst (packs_tableDisk 0xc)) (by decide)

/-- An entry of type 0 is not stored, and neither is one on a device that cannot be read. -/
theorem partition_entry_fails :
    (¬ Stores (tableDisk 0) (withGeometry .ata) 0 0 16 63 63
      fun d' => hasFailed d'.error = false) ∧
    ¬ Stores (tableDisk 0xc) (withGeometry .none) 0 0 16 63 63 fun _ => True :=
  ⟨not_stores_free, not_stores_unready⟩

end Hd

end Mycrokernel
