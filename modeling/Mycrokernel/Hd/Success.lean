import Mycrokernel.Hd.Address
import Mycrokernel.Hd.Superblock

/-!
# Reads without an error

When `read_inode` and `do_indirect_directory` of `hd/main.c` come back without an error, their
callers go on with what they have read.

But `TODOERROR` prints a line, and does not set the error.  A status with data is taken for a
success even if it says that there was an error.  An inode may be looked for at a wrong place, and a
block is never read as a whole.  `InodeHonest` and `BlockHonest` say that a call without an error
has read what it was to read, and `success_honest_iff` says when that is so.

The environment is that of `Watches`: the device may do anything, and the statuses that it may show
are a parameter.
-/

namespace Mycrokernel

open Bytes
open Dialogue (RunIn)

/-! ## Completed reads -/

/-- A read of one sector, the one with this number, that has been completed. -/
structure ReadOf (c : Channel) (number : Nat) (t : Transfer) : Prop where
  addresses : ∃ sector : Word, sector.toNat = number ∧ Addresses c sector commandReadsectors t
  clean : t.clean = true
  length : t.words.length = 256

/-- The bytes of a range of the memory are those of a range of the disk, as completed reads have
given them. -/
def FromDisk (c : Channel) (transfers : List Transfer) (place n : Nat) (address : Word)
    (mem : Word → BitVec 8) : Prop :=
  ∀ k < n, ∃ t ∈ transfers, ReadOf c ((place + k) / 512) t ∧
    mem (address + BitVec.ofNat 32 k) = (Hd.asDisk t.words).byte 0 ((place + k) % 512)

/-- The device lets the driver read a sector: it has the sector, and shows that there are data. -/
def Readable (c : Channel) (statuses : Word → Prop) (number : Nat) : Prop :=
  c.controller = .ata ∧ number < c.lbaSectors.toNat ∧
    ∃ status, statuses status ∧ status &&& bitDrq ≠ 0

/-- The device shows no error together with data. -/
def Flawless (statuses : Word → Prop) : Prop :=
  ∀ status, statuses status → status &&& bitDrq ≠ 0 → cleanStatus status = true

/-- The offset of an inode on the disk. -/
def Partition.inodeAt (p : Partition) (group : BlockGroup) (inodeNr : Word) : Nat :=
  p.firstSector.toNat * 512 + Hd.inodeBytes p group.blockAddressInodeTable inodeNr

/-- The offset that it would have if the descriptor that `read_inode` takes were that of its group. -/
def Partition.takenAt (p : Partition) (behind : Nat → BlockGroup) (inodeNr : Word) : Nat :=
  p.inodeAt (Hd.groupAt behind p (Hd.groupOf p inodeNr)) inodeNr

/-- The offset of a block on the disk. -/
def Partition.blockAt (p : Partition) (blockNr : Word) : Nat :=
  p.firstSector.toNat * 512 + blockNr.toNat * p.blockSize.toNat

namespace Hd

/-- Whenever `read_inode` is called without an error and comes back without one, the number is that
of an inode of the partition, and the bytes come from completed reads of the place of that inode. -/
def InodeHonest (c : Channel) (statuses : Word → Prop) (behind : Nat → BlockGroup)
    (partitionNr : Byte) (p : Partition) (inodeNr : Word) : Prop :=
  ∀ frame fuel buffer inode channel ata w d d', d.channels channel = c → hasFailed d.error = false →
    (∀ x, Within buffer 512 x → ¬ Within inode sizeofInode x) → ¬ Within inode sizeofInode null →
    RunIn (Watches c statuses) ⟨ata, []⟩
      (readInode frame fuel behind buffer channel partitionNr inodeNr inode d) w (some (), d') →
    hasFailed d'.error = false →
      1 ≤ inodeNr.toNat ∧ inodeNr.toNat ≤ p.nrInodes.toNat ∧
        ∃ group, p.blockGroups[groupOf p inodeNr]? = some group ∧
          FromDisk c w.transfers (p.inodeAt group inodeNr) sizeofInode inode d'.mem

/-- The buffers of the levels do not overlap, and none is at the beginning of the memory. -/
structure Placed (buffers : Nat → Word) (level : Nat) : Prop where
  apart : ∀ i ≤ level, ∀ j ≤ level, i ≠ j → Kernel.Apart (buffers i) (buffers j) 1024
  null : ∀ i ≤ level, ∀ x, Within (buffers i) 1024 x → ¬ Within null 4 x

/-- Whenever `do_indirect_directory` is called without an error and comes back without one, the size
of the blocks is supported, and the buffer comes from completed reads of the place of the block. -/
def BlockHonest (c : Channel) (statuses : Word → Prop) (partitionNr : Byte) (p : Partition)
    (level : Nat) (blockNr : Word) : Prop :=
  ∀ frames fuel buffers way channel ata w d d', d.channels channel = c → hasFailed d.error = false →
    Placed buffers level →
    RunIn (Watches c statuses) ⟨ata, []⟩
      (doIndirectDirectory frames fuel buffers channel partitionNr level way blockNr d) w
      (some (), d') →
    hasFailed d'.error = false →
      p.blockSize = 1024 ∧ FromDisk c w.transfers (p.blockAt blockNr) 1024 (buffers level) d'.mem

/-- The number is that of an inode, and if the driver can read something at the place it computes,
the table has the group, the device shows no errors together with data, the place is right, and the
inode is within a sector. -/
structure InodeSound (c : Channel) (statuses : Word → Prop) (behind : Nat → BlockGroup)
    (p : Partition) (inodeNr : Word) : Prop where
  low : 1 ≤ inodeNr.toNat
  high : inodeNr.toNat ≤ p.nrInodes.toNat
  read : p.nrInodesPerGroup ≠ 0 → p.blockSize ≠ 0 →
    Readable c statuses ((p.takenAt behind inodeNr + blocksBefore p inodeNr) % 2 ^ 32 / 512) →
    groupOf p inodeNr < maxNrBlockGroups ∧ Flawless statuses ∧ p.takenAt behind inodeNr < 2 ^ 32 ∧
      2 ^ 32 ∣ blocksBefore p inodeNr ∧ p.takenAt behind inodeNr % 512 + sizeofInode ≤ 512

variable {c : Channel} {channel : Ptr} {channels : Ptr → Channel} {statuses : Word → Prop}
  {status : Word} {behind : Nat → BlockGroup} {partitionNr : Byte} {p : Partition}
  {group : BlockGroup} {frame : Stack}
  {fuel number' : Nat} {mem : Word → BitVec 8} {number buffer inode inodeNr blockNr block : Word}
  {old transfers : List Transfer} {t t' : Transfer}

/-! ## A sector -/

/-- Behind the end of the device nothing is read. -/
theorem triple_beyond (hc : channels channel = c) (hnumber : c.lbaSectors ≤ number)
    {C : Watch → Prop} : Triple (Watches c statuses) (Kept channels mem C)
      (readSector fuel number channel buffer) fun _ d _ => hasFailed d.error = false → False := by
  have hC : ∀ w, C w → True := fun _ _ => trivial
  refine Triple.finish (T := fun _ _ => False) ?_
  refine (steady_checkAta hC).triple.terror_of.bind fun _ => ?_
  refine (steady_checkLbaSupported hC).triple.terror_of.bind fun _ => ?_
  refine triple_get_bind fun d w hkept => ?_
  rw [hkept.1, hc]
  refine Triple.bind (R := fun _ _ _ => False) ?_ fun _ d w h => h.elim
  unfold checkNumber
  rw [if_pos hnumber]
  exact (steady_errSet (I := fun _ => True) (fun _ _ _ => trivial) (by decide)).triple

/-- A sector is read without an error only if it is readable, and then its words are in the
buffer. -/
theorem triple_watchSector (hc : channels channel = c) :
    Triple (Watches c statuses) (Kept channels mem fun w => w.transfers = old)
      (readSector fuel number channel buffer) fun _ d w => hasFailed d.error = false →
        Readable c statuses number.toNat ∧
          ∃ t, Reads c channels statuses mem number buffer old 256 d w t := by
  cases Decidable.em (c.controller = .ata) with
  | inr hata =>
    intro d w hkept
    rw [show readSector fuel number channel buffer d = _ from
      transferSector_not_ata (hkept.1 ▸ hc) hata]
    have hfailed : hasFailed Err.notAta = true := by decide
    exact Dialogue.always_done fun hok => absurd (hfailed.symm.trans hok) (by decide)
  | inl hata =>
    cases Decidable.em (c.lbaSectors ≤ number) with
    | inl hbeyond =>
      exact (triple_beyond hc hbeyond).mono (fun _ _ h => h) fun _ _ _ h hok => (h hok).elim
    | inr hnot =>
      refine (steady_readSector hc).triple.mono (fun _ _ h => h) fun _ d w h hok => ?_
      obtain ⟨t, hreads⟩ := h hok
      obtain ⟨status, hstatus, hdrq, -⟩ := hreads.shown
      exact ⟨⟨hata, BitVec.lt_def.1 (BitVec.not_le.1 hnot), status, hstatus, hdrq⟩, t, hreads⟩

/-- A transfer that has been issued for a sector is a completed read of no other sector. -/
theorem number_of_readOf (h : ReadOf c number' t) (hissued : Issued c number commandReadsectors t)
    (hnumber : number.toNat < 2 ^ 28) : number.toNat = number' := by
  obtain ⟨sector, rfl, haddresses⟩ := h.addresses
  rw [← haddresses.lba, hissued.named.lba hnumber]

/-- It is one of that sector if the device does not show errors together with data. -/
theorem readOf_of_issued (hissued : Issued c number commandReadsectors t)
    (hnumber : number.toNat < 2 ^ 28) (hshown : Shown statuses t) (hflawless : Flawless statuses)
    (hlength : t.words.length = 256) : ReadOf c number.toNat t := by
  obtain ⟨status, hstatus, hdrq, hclean⟩ := hshown
  exact ⟨⟨number, rfl, (addresses_iff hissued).2 hnumber⟩,
    hclean.trans (hflawless status hstatus hdrq), hlength⟩

/-! ## The place of an inode -/

theorem inodeAt_add (p : Partition) (group : BlockGroup) (inodeNr : Word) :
    p.inodeAt group inodeNr + blocksBefore p inodeNr = p.firstSector.toNat * 512 +
      blocksBefore p inodeNr + inodeBytes p group.blockAddressInodeTable inodeNr :=
  Nat.add_right_comm ..

/-- What `read_inode` computes is the place with what lies before the group, in 32 bits. -/
theorem exists_place (behind : Nat → BlockGroup) (hlow : 1 ≤ inodeNr.toNat)
    (hper : p.nrInodesPerGroup ≠ 0) (hblock : p.blockSize ≠ 0) :
    ∃ sector offset, placeComputed behind p inodeNr = some (sector, offset) ∧
      sector.toNat = (p.takenAt behind inodeNr + blocksBefore p inodeNr) % 2 ^ 32 / 512 ∧
      offset.toNat = (p.takenAt behind inodeNr + blocksBefore p inodeNr) % 2 ^ 32 % 512 := by
  rw [Partition.takenAt, inodeAt_add]
  refine ⟨_, _, (placeComputed_eq hlow hper hblock).trans
    (congrArg some (placeIn_eq _ hlow)), ?_, ?_⟩
  · rw [BitVec.toNat_udiv, BitVec.toNat_ofNat]
    rfl
  · rw [BitVec.toNat_umod, BitVec.toNat_ofNat]
    rfl

theorem takenAt_eq (hgroup : p.blockGroups[groupOf p inodeNr]? = some group) :
    p.takenAt behind inodeNr = p.inodeAt group inodeNr := by
  rw [Partition.takenAt, groupAt, hgroup, Option.getD_some]

/-- If a block is made of whole sectors, the place is right as soon as the sector is. -/
theorem sector_right_iff (hsector : 512 ∣ p.blockSize.toNat) :
    (p.inodeAt group inodeNr + blocksBefore p inodeNr) % 2 ^ 32 / 512 =
        p.inodeAt group inodeNr / 512 ↔
      p.inodeAt group inodeNr < 2 ^ 32 ∧ 2 ^ 32 ∣ blocksBefore p inodeNr := by
  have hbefore : 512 ∣ blocksBefore p inodeNr := hsector.mul_left _
  rw [inodeAt_add, Partition.inodeAt, ← wrapped_iff]
  omega

/-! ## Runs -/

section Runs

variable {σ α : Type} {answers : σ → Syscall → Reply → σ → Prop} {e e' : σ} {d d' : Driver}
  {w w' : Watch}

/-- Messages may be sent without the controller noticing. -/
theorem exists_outf {fmt : List Byte} (hfmt : 0 ∈ fmt) (stack : Stack) (w : Watch) :
    ∃ o, RunIn (Watches c statuses) w (Mycrokernel.outf stack 1 fmt) w o := by
  refine (outf_ends_iff.mpr hfmt).exists_quiet ((outf_requests stack 1 fmt).mono ?_ fun _ h => h)
  rintro _ _ ⟨message, block, rfl⟩
  exact ⟨⟨0, 0⟩, .inr ⟨rfl, rfl, nofun⟩⟩

theorem runIn_outf {fmt : List Byte} {stack : Stack} {o : Outf}
    (h : RunIn answers e (Mycrokernel.outf stack 1 fmt) e' o) :
    RunIn answers e (outf stack fmt d) e' (some (), afterOutf d o) := h.bind (.done _ _)

/-- `TODOERROR` leaves the function, and the error is what it was. -/
theorem exists_todoError (d : Driver) (w : Watch) :
    ∃ d', RunIn (Watches c statuses) w (todoError frame d : Dialogue _ _ (Option α × Driver)) w
      (none, d') ∧ d'.error = d.error := by
  obtain ⟨o, hrun⟩ : ∃ o, RunIn (Watches c statuses) w
      (Mycrokernel.outf frame 1 (stringLiteral "%s:%d: UNDEFINED ERROR")) w o :=
    exists_outf (by decide) frame w
  exact ⟨afterOutf d o, runIn_bind (runIn_outf hrun) (.done _ _), rfl⟩

/-- A device that shows one status is one that shows statuses of its kind. -/
theorem runIn_statuses {q : Dialogue Syscall Reply α} {a : α} (hstatus : statuses status)
    (h : RunIn (Watches c (· = status)) w q w' a) : RunIn (Watches c statuses) w q w' a := by
  refine h.map (g := id) fun w request reply w' hreply => ?_
  obtain hfailed | ⟨hok, hnote, hkind⟩ := hreply
  · exact .inl hfailed
  · exact .inr ⟨hok, hnote, fun hrequest => hkind hrequest ▸ hstatus⟩

end Runs

/-! ## Inodes -/

section Inode

variable {d d' : Driver} {ata : Ata} {w : Watch} {sector offset : Word}

/-- What a call of `read_inode` with the number of an inode has done if there is no error after
it. -/
structure InodeRead (c : Channel) (statuses : Word → Prop) (behind : Nat → BlockGroup)
    (p : Partition) (inodeNr inode : Word) (buffer sector offset : Word) (t : Transfer) (transfers : List Transfer)
    (mem : Word → BitVec 8) : Prop where
  place : placeComputed behind p inodeNr = some (sector, offset)
  readable : Readable c statuses sector.toNat
  transfers_eq : transfers = [t]
  issued : Issued c sector commandReadsectors t
  shown : Shown statuses t
  length : t.words.length = 256
  copied : ∃ mem₀, (∀ k < 512, mem₀ (buffer + BitVec.ofNat 32 k) = (asDisk t.words).byte 0 k) ∧
    mem = Mycrokernel.memcpy mem₀ inode (buffer + offset) (BitVec.ofNat 32 sizeofInode)

theorem triple_watchInode (hc : channels channel = c)
    (hp : c.partitions[partitionNr.toNat]? = some p) (hlow : 1 ≤ inodeNr)
    (hhigh : inodeNr ≤ p.nrInodes) :
    Triple (Watches c statuses) (Kept channels mem fun w => w.transfers = [])
      (readInode frame fuel behind buffer channel partitionNr inodeNr inode) fun _ d w =>
        hasFailed d.error = false → ∃ sector offset t,
          InodeRead c statuses behind p inodeNr inode buffer sector offset t w.transfers d.mem := by
  intro d w hkept
  rw [readInode_accepted (by rw [hkept.1, hc]; exact hp) hlow hhigh]
  refine Triple.finish (T := fun d (w : Watch) => ∃ sector offset t,
    InodeRead c statuses behind p inodeNr inode buffer sector offset t w.transfers d.mem) ?_ d w hkept
  cases hplace : placeComputed behind p inodeNr with
  | none => exact triple_spent
  | some place =>
    obtain ⟨sector, offset⟩ := place
    refine (triple_watchSector hc).terror.bind fun _ => triple_modify ?_
    rintro d w ⟨hreadable, t, hreads⟩ -
    exact ⟨sector, offset, t, hplace, hreadable, hreads.transfers, hreads.issued, hreads.shown,
      hreads.length, d.mem, hreads.filled.bytes, rfl⟩

/-- A run with the number of an inode. -/
theorem inodeRead_of_run (hc : d.channels channel = c)
    (hp : c.partitions[partitionNr.toNat]? = some p) (hlow : 1 ≤ inodeNr)
    (hhigh : inodeNr ≤ p.nrInodes)
    (hrun : RunIn (Watches c statuses) ⟨ata, []⟩
      (readInode frame fuel behind buffer channel partitionNr inodeNr inode d) w (some (), d'))
    (hok : hasFailed d'.error = false) : ∃ sector offset t,
      InodeRead c statuses behind p inodeNr inode buffer sector offset t w.transfers d'.mem := by
  have hkept : Kept d.channels d.mem (fun w : Watch => w.transfers = []) d ⟨ata, []⟩ :=
    ⟨rfl, rfl, rfl⟩
  exact triple_watchInode hc hp hlow hhigh d _ hkept w (some (), d') hrun hok

/-- The inode is in the memory as it is in the sector. -/
theorem InodeRead.byte
    (h : InodeRead c statuses behind p inodeNr inode buffer sector offset t transfers mem)
    (hoffset : offset.toNat + sizeofInode ≤ 512)
    (hapart : ∀ x, Within buffer 512 x → ¬ Within inode sizeofInode x)
    (hnull : ¬ Within inode sizeofInode null) {k : Nat} (hk : k < sizeofInode) :
    mem (inode + BitVec.ofNat 32 k) = (asDisk t.words).byte 0 (offset.toNat + k) := by
  have hsize : sizeofInode = 128 := rfl
  have hplace : ∀ i, buffer + offset + BitVec.ofNat 32 i =
      buffer + BitVec.ofNat 32 (offset.toNat + i) := by
    intro i
    rw [BitVec.ofNat_add, BitVec.ofNat_toNat, BitVec.setWidth_eq, BitVec.add_assoc]
  have hcopied : Kernel.Apart (buffer + offset) inode sizeofInode := by
    intro i hi j hj heq
    rw [hplace] at heq
    refine hapart _ (within_add (i := offset.toNat + i) (by omega) (by decide)) ?_
    rw [heq]
    exact within_add hj (by decide)
  obtain ⟨mem₀, hbytes, rfl⟩ := h.copied
  rw [memcpy_inode hcopied hnull hk, hplace]
  exact hbytes _ (by omega)

theorem honest_of_sound (hp : c.partitions[partitionNr.toNat]? = some p)
    (h : InodeSound c statuses behind p inodeNr) : InodeHonest c statuses behind partitionNr p inodeNr := by
  rintro frame fuel buffer inode channel ata w d d' rfl - hapart hnull hrun hend
  obtain ⟨sector, offset, t, hread⟩ := inodeRead_of_run rfl hp (BitVec.le_def.2 h.low)
    (BitVec.le_def.2 h.high) hrun hend
  obtain ⟨hper, hblock⟩ := ne_zero_of_placeComputed hread.place
  obtain ⟨sector', offset', hplace, hsector, hoffset⟩ :=
    exists_place behind h.low hper hblock
  obtain ⟨rfl, rfl⟩ := Prod.mk.inj (Option.some.inj (hplace.symm.trans hread.place))
  obtain ⟨hlt, hflawless, hfar, ⟨n, hbefore⟩, hwithin⟩ :=
    h.read hper hblock (hsector ▸ hread.readable)
  have hgroup : p.blockGroups[groupOf p inodeNr]? = some p.blockGroups[groupOf p inodeNr] :=
    Vector.getElem?_eq_getElem hlt
  have htaken : p.takenAt behind inodeNr = p.inodeAt p.blockGroups[groupOf p inodeNr] inodeNr :=
    takenAt_eq hgroup
  rw [htaken] at hsector hoffset hfar hwithin
  rw [hbefore, Nat.add_mul_mod_self_left, Nat.mod_eq_of_lt hfar] at hsector hoffset
  have hreadOf := readOf_of_issued hread.issued (by omega) hread.shown hflawless hread.length
  have hsize : sizeofInode = 128 := rfl
  refine ⟨h.low, h.high, _, hgroup, fun k hk => ⟨t, ?_, ?_, ?_⟩⟩
  · rw [hread.transfers_eq]
    exact List.mem_singleton.mpr rfl
  · rwa [show (p.inodeAt _ inodeNr + k) / 512 = sector'.toNat by omega]
  · rw [hread.byte (by omega) hapart hnull hk]
    exact congrArg _ (by omega)

/-- `read_inode` has a run in which nothing fails. -/
theorem passes_readInode {σ : Type} {answers : σ → Syscall → Reply → σ → Prop}
    (hwilling : Willing answers status) (hdrq : status &&& bitDrq ≠ 0) (hc : channels channel = c)
    (hp : c.partitions[partitionNr.toNat]? = some p) (hlow : 1 ≤ inodeNr)
    (hhigh : inodeNr ≤ p.nrInodes)
    (hplace : placeComputed behind p inodeNr = some (sector, offset)) (hata : c.controller = .ata)
    (hnumber : sector < c.lbaSectors) :
    Passes answers (Unfailed channels)
      (readInode frame (fuel + 1) behind buffer channel partitionNr inodeNr inode)
      fun _ => Unfailed channels := by
  intro d r hok
  rw [readInode_accepted (by rw [hok.2, hc]; exact hp) hlow hhigh, hplace]
  have hread : Passes answers (Unfailed channels)
      (terror (readSector (fuel + 1) sector channel buffer)) fun _ => Unfailed channels :=
    (passes_readSector hwilling hdrq hc hata hnumber).unfailed
  refine Passes.finish (T := Unfailed channels) ?_ d r hok
  exact hread.bind fun _ => passes_modify fun _ _ h => h

/-- A driver with the channel. -/
def driverOf (c : Channel) : Driver := { (default : Driver) with channels := fun _ => c }

theorem driverOf_ok (c : Channel) : hasFailed (driverOf c).error = false := rfl

/-- A controller that nothing has been written to. -/
def idle : Ata := ⟨0, 0, 0, 0, 0, false, []⟩

theorem buffer_apart (x : Word) (h : Within 0x1000 512 x) : ¬ Within 0x2000 sizeofInode x := by
  have hsize : sizeofInode = 128 := rfl
  unfold Within at *
  bv_omega

theorem range_of_honest (hp : c.partitions[partitionNr.toNat]? = some p)
    (h : InodeHonest c statuses behind partitionNr p inodeNr) :
    1 ≤ inodeNr.toNat ∧ inodeNr.toNat ≤ p.nrInodes.toNat := by
  cases Decidable.em (inodeNr < 1 ∨ p.nrInodes < inodeNr) with
  | inr hrange =>
    rw [not_or] at hrange
    exact ⟨BitVec.le_def.1 (BitVec.not_lt.1 hrange.1), BitVec.le_def.1 (BitVec.not_lt.1 hrange.2)⟩
  | inl hout =>
    obtain ⟨d', hrun, herror⟩ : ∃ d', RunIn (Watches c statuses) ⟨idle, []⟩
        (readInode default 0 behind 0x1000 0 partitionNr inodeNr 0x2000 (driverOf c)) ⟨idle, []⟩
        (some (), d') ∧ d'.error = (driverOf c).error := by
      obtain ⟨d', hrun, herror⟩ := exists_todoError (α := Unit) (driverOf c) ⟨idle, []⟩
      refine ⟨d', runIn_finish (r := none) ?_, herror⟩
      rw [partitionAt_bind hp, if_pos hout]
      exact runIn_leave hrun
    have hend := h default 0 0x1000 0x2000 0 idle _ _ d' rfl (driverOf_ok c) buffer_apart
      (by decide) hrun (herror ▸ driverOf_ok c)
    exact ⟨hend.1, hend.2.1⟩

/-- There is a run that reads what is at the place that `read_inode` computes. -/
theorem exists_inodeRead (hc : d.channels channel = c) (hfine : hasFailed d.error = false)
    (hp : c.partitions[partitionNr.toNat]? = some p) (hlow : 1 ≤ inodeNr)
    (hhigh : inodeNr ≤ p.nrInodes)
    (hplace : placeComputed behind p inodeNr = some (sector, offset)) (hata : c.controller = .ata)
    (hnumber : sector < c.lbaSectors) (hdrq : status &&& bitDrq ≠ 0) :
    ∃ w d' t, RunIn (Watches c (· = status)) ⟨ata, []⟩
        (readInode frame (fuel + 1) behind buffer channel partitionNr inodeNr inode d) w (some (), d') ∧
      hasFailed d'.error = false ∧
      InodeRead c (· = status) behind p inodeNr inode buffer sector offset t w.transfers d'.mem := by
  have hwilling : Willing (Watches c (· = status)) status := willing_watches rfl
  have hpasses : Passes (Watches c (· = status)) (Unfailed d.channels)
      (readInode frame (fuel + 1) behind buffer channel partitionNr inodeNr inode)
      fun _ => Unfailed d.channels :=
    passes_readInode hwilling hdrq hc hp hlow hhigh hplace hata hnumber
  obtain ⟨w, ⟨_, d'⟩, hrun, _, rfl, hok, -⟩ := hpasses d ⟨ata, []⟩ ⟨hfine, rfl⟩
  obtain ⟨sector', offset', t, hread⟩ := inodeRead_of_run hc hp hlow hhigh hrun hok
  obtain ⟨rfl, rfl⟩ := Prod.mk.inj (Option.some.inj (hplace.symm.trans hread.place))
  exact ⟨w, d', t, hrun, hok, hread⟩

/-- If the driver can read something at the place it computes, and does not fail then, the status it
has seen shows no error, and all bytes of the inode come from the sector it has read. -/
theorem read_of_honest (hp : c.partitions[partitionNr.toNat]? = some p)
    (h : InodeHonest c statuses behind partitionNr p inodeNr)
    (hplace : placeComputed behind p inodeNr = some (sector, offset)) (hsmall : sector.toNat < 2 ^ 28)
    (hata : c.controller = .ata) (hnumber : sector < c.lbaSectors) (hstatus : statuses status)
    (hdrq : status &&& bitDrq ≠ 0) :
    groupOf p inodeNr < maxNrBlockGroups ∧ cleanStatus status = true ∧
      ∀ k < sizeofInode, sector.toNat = (p.takenAt behind inodeNr + k) / 512 := by
  obtain ⟨hlow, hhigh⟩ := range_of_honest hp h
  obtain ⟨w, d', t, hrun, hok, hread⟩ := exists_inodeRead (d := driverOf c) rfl (driverOf_ok c) hp
    (BitVec.le_def.2 hlow) (BitVec.le_def.2 hhigh) hplace hata hnumber hdrq
  obtain ⟨-, -, group, hgroup, hbytes⟩ := h default 1 0x1000 0x2000 0 idle w _ d' rfl
    (driverOf_ok c) buffer_apart (by decide) (runIn_statuses hstatus hrun) hok
  have htaken : p.takenAt behind inodeNr = p.inodeAt group inodeNr := takenAt_eq hgroup
  rw [hread.transfers_eq, ← htaken] at hbytes
  have hall : ∀ k < sizeofInode, ReadOf c ((p.takenAt behind inodeNr + k) / 512) t := by
    intro k hk
    obtain ⟨t', ht', hreadOf, -⟩ := hbytes k hk
    exact List.mem_singleton.mp ht' ▸ hreadOf
  refine ⟨(Vector.getElem?_eq_some_iff.1 hgroup).1, ?_, ?_⟩
  · obtain ⟨_, rfl, -, hclean⟩ := hread.shown
    exact hclean.symm.trans (hall 0 (by decide)).clean
  · exact fun k hk => number_of_readOf (hall k hk) hread.issued hsmall

theorem sound_of_honest (hp : c.partitions[partitionNr.toNat]? = some p)
    (hsector : 512 ∣ p.blockSize.toNat) (h : InodeHonest c statuses behind partitionNr p inodeNr) :
    InodeSound c statuses behind p inodeNr := by
  obtain ⟨hlow, hhigh⟩ := range_of_honest hp h
  refine ⟨hlow, hhigh, fun hper hblock ⟨hata, hnumber, status, hstatus, hdrq⟩ => ?_⟩
  obtain ⟨sector, offset, hplace, hplaced, -⟩ := exists_place behind hlow hper hblock
  have hsmall : sector.toNat < 2 ^ 28 := by omega
  have hlt : sector < c.lbaSectors := BitVec.lt_def.2 (hplaced ▸ hnumber)
  have hread : ∀ status, statuses status → status &&& bitDrq ≠ 0 →
      groupOf p inodeNr < maxNrBlockGroups ∧ cleanStatus status = true ∧
        ∀ k < sizeofInode, sector.toNat = (p.takenAt behind inodeNr + k) / 512 :=
    fun status hstatus hdrq => read_of_honest hp h hplace hsmall hata hlt hstatus hdrq
  obtain ⟨hgroup, -, hbytes⟩ := hread status hstatus hdrq
  have hsize : sizeofInode = 128 := rfl
  have hfirst := hbytes 0 (by decide)
  have hlast := hbytes 127 (by decide)
  rw [Nat.add_zero] at hfirst
  obtain ⟨hfar, hbefore⟩ := (sector_right_iff hsector).1 (hplaced.symm.trans hfirst)
  exact ⟨hgroup, fun status hstatus hdrq => (hread status hstatus hdrq).2.1, hfar, hbefore,
    by omega⟩

end Inode

/-! ## Blocks -/

section Block

variable {d d' : Driver} {ata : Ata} {w : Watch} {word : Word} {level : Nat} {way : List Nat}
  {frames : List Nat → Nat → Stack} {buffers : Nat → Word}

/-- What `do_indirect_directory` has done if there is no error after it has filled its buffer. -/
structure BlockRead (c : Channel) (statuses : Word → Prop) (p : Partition) (blockNr block : Word)
    (transfers : List Transfer) (mem : Word → BitVec 8) : Prop where
  readable : Readable c statuses (sectorOf p blockNr).toNat
  halves : ∃ t t', transfers = [t', t] ∧ Issued c (sectorOf p blockNr) commandReadsectors t ∧
    Issued c (sectorOf p blockNr) commandReadsectors t' ∧ t.words.length = 256 ∧
    t'.words.length = 256 ∧ ∀ i < 1024, mem (block + BitVec.ofNat 32 i) =
      if i < 512 then (asDisk t.words).byte 0 (i % 512) else (asDisk t'.words).byte 0 (i % 512)

theorem triple_watchBlock (hc : channels channel = c)
    (hp : c.partitions[partitionNr.toNat]? = some p) (hsize : p.blockSize = 1024) :
    Triple (Watches c statuses) (Kept channels mem fun w => w.transfers = [])
      (fetchBlock frame fuel channel partitionNr blockNr block) fun _ d w =>
        BlockRead c statuses p blockNr block w.transfers d.mem := by
  intro d w hkept
  rw [fetchBlock_supported (by rw [hkept.1, hc]; exact hp) hsize]
  refine (triple_watchSector hc).terror.bind (fun _ => ?_) d w hkept
  rintro d w ⟨hreadable, t, hfirst⟩
  have hsecond : Triple (Watches c statuses) (Kept channels d.mem fun w => w.transfers = [t])
      (terror (readSector fuel (sectorOf p blockNr) channel (block + 512))) fun _ d' w' =>
        Readable c statuses (sectorOf p blockNr).toNat ∧ ∃ t', Reads c channels statuses d.mem
          (sectorOf p blockNr) (block + 512) [t] 256 d' w' t' :=
    (triple_watchSector hc).terror
  refine hsecond.mono (fun _ _ h => h) ?_ d w ⟨hfirst.channels_eq, rfl, hfirst.transfers⟩
  rintro _ d' w' ⟨-, t', hreads⟩
  exact ⟨hreadable, t, t', hreads.transfers, hfirst.issued, hreads.issued, hfirst.length,
    hreads.length, fun i hi => filled_halves hfirst.filled hreads.filled hi⟩

/-- If nothing can be read, there is an error. -/
theorem honest_of_unreadable (hp : c.partitions[partitionNr.toNat]? = some p)
    (hsize : p.blockSize = 1024) (h : ¬ Readable c statuses (sectorOf p blockNr).toNat) :
    BlockHonest c statuses partitionNr p level blockNr := by
  rintro frames fuel buffers way channel ata w d d' rfl - - hrun hend
  obtain ⟨rest, hrest⟩ :=
    doIndirectDirectory_eq frames fuel buffers channel partitionNr level way blockNr
  rw [hrest] at hrun
  obtain ⟨_, ⟨_, _⟩, hbody, hfinish⟩ := hrun.of_bind
  obtain ⟨w', result, hfetch, hgoOn⟩ := hbody.of_bind
  have hkept : Kept d.channels d.mem (fun w : Watch => w.transfers = []) d ⟨ata, []⟩ :=
    ⟨rfl, rfl, rfl⟩
  have hread := triple_watchBlock rfl hp hsize d _ hkept w' result hfetch
  obtain ⟨_ | u, d₁⟩ := result
  · cases hgoOn with
    | done =>
      cases hfinish with
      | done => exact absurd (hread.symm.trans hend) (by decide)
  · exact absurd hread.readable h

/-! ### A device that gives the same word all the time -/

/-- The device shows the status and gives the word. -/
def Feeds (c : Channel) (status : Word) (value : BitVec 16) (w : Watch) (request : Syscall)
    (reply : Reply) (w' : Watch) : Prop :=
  Watches c (· = status) w request reply w' ∧
    ∀ port, request = .inw port → reply.value.setWidth 16 = value

/-- Nothing but the word has been read. -/
def Fed (value : BitVec 16) (w : Watch) : Prop := ∀ t ∈ w.transfers, ∀ x ∈ t.words, x = value

variable {value : BitVec 16}

theorem willing_feeds : Willing (Feeds c status value) status := by
  intro w request
  cases request with
  | inw port =>
    refine ⟨⟨value.setWidth 32, 0⟩, _, ⟨.inr ⟨rfl, rfl, nofun⟩, fun _ _ => ?_⟩, rfl, nofun⟩
    exact (BitVec.setWidth_setWidth_of_le _ (by decide)).trans (BitVec.setWidth_eq _)
  | inb port => exact ⟨⟨status, 0⟩, _, ⟨.inr ⟨rfl, rfl, fun _ => rfl⟩, nofun⟩, rfl, fun _ _ => rfl⟩
  | receive => exact ⟨⟨0, 0⟩, _, ⟨.inr ⟨rfl, rfl, nofun⟩, nofun⟩, rfl, nofun⟩
  | sendByFeature => exact ⟨⟨0, 0⟩, _, ⟨.inr ⟨rfl, rfl, nofun⟩, nofun⟩, rfl, nofun⟩
  | claimPort => exact ⟨⟨0, 0⟩, _, ⟨.inr ⟨rfl, rfl, nofun⟩, nofun⟩, rfl, nofun⟩
  | requestIrq => exact ⟨⟨0, 0⟩, _, ⟨.inr ⟨rfl, rfl, nofun⟩, nofun⟩, rfl, nofun⟩
  | outb port byte => exact ⟨⟨0, 0⟩, _, ⟨.inr ⟨rfl, rfl, nofun⟩, nofun⟩, rfl, nofun⟩
  | outw => exact ⟨⟨0, 0⟩, _, ⟨.inr ⟨rfl, rfl, nofun⟩, nofun⟩, rfl, nofun⟩

theorem fed_modifyHead {g : Transfer → Transfer} {ata : Ata}
    (hg : ∀ t, (∀ x ∈ t.words, x = value) → ∀ x ∈ (g t).words, x = value) (h : Fed value w) :
    Fed value ⟨ata, w.transfers.modifyHead g⟩ := by
  unfold Fed at *
  cases htransfers : w.transfers with
  | nil => exact nofun
  | cons t rest =>
    rw [htransfers, List.forall_mem_cons] at h
    exact List.forall_mem_cons.mpr ⟨hg t h.1, h.2⟩

theorem Fed.step {request : Syscall} {reply : Reply} {w' : Watch} (h : Fed value w)
    (hreply : Feeds c status value w request reply w') : Fed value w' := by
  obtain ⟨⟨-, rfl⟩ | ⟨-, rfl, -⟩, hword⟩ := hreply
  · exact h
  · cases request with
    | outb port byte =>
      rw [Watch.note]
      split
      next => exact List.forall_mem_cons.mpr ⟨fun _ hx => absurd hx List.not_mem_nil, h⟩
      next => exact h
    | inb port =>
      rw [Watch.note]
      split
      next => exact fed_modifyHead (fun _ ht => ht) h
      next => exact h
    | inw port =>
      rw [Watch.note]
      split
      next =>
        refine fed_modifyHead (fun t ht x hx => ?_) h
        obtain hx | hx := List.mem_append.mp hx
        · exact ht x hx
        · rw [List.mem_singleton.mp hx, hword port rfl]
      next => exact h
    | receive => exact h
    | sendByFeature => exact h
    | claimPort => exact h
    | requestIrq => exact h
    | outw => exact h

/-- The bytes of a sector that has the word in all places. -/
theorem byte_fed {words : List (BitVec 16)} (hlength : words.length = 256)
    (h : ∀ x ∈ words, x = value) {j : Nat} (hj : j < 512) : (asDisk words).byte 0 j =
      if j % 2 = 0 then value.setWidth 8 else (value >>> 8).setWidth 8 := by
  have hword : words.getD (j / 2) 0 = value := by
    have hlt : j / 2 < words.length := by omega
    rw [List.getD_eq_getElem?_getD, List.getElem?_eq_getElem hlt]
    exact h _ (List.getElem_mem hlt)
  rw [Disk.byte, asDisk_word, hword]

/-- There is a run that fills the buffer with the word. -/
theorem exists_blockRead (hc : d.channels channel = c) (hfine : hasFailed d.error = false)
    (hp : c.partitions[partitionNr.toNat]? = some p) (hsize : p.blockSize = 1024)
    (hata : c.controller = .ata) (hnumber : sectorOf p blockNr < c.lbaSectors)
    (hdrq : status &&& bitDrq ≠ 0) (value : BitVec 16) (block : Word) :
    ∃ w d', RunIn (Watches c (· = status)) ⟨ata, []⟩
        (fetchBlock frame (fuel + 1) channel partitionNr blockNr block d) w (some (), d') ∧
      hasFailed d'.error = false ∧ BlockRead c (· = status) p blockNr block w.transfers d'.mem ∧
      ∀ i < 1024, d'.mem (block + BitVec.ofNat 32 i) =
        if i % 2 = 0 then value.setWidth 8 else (value >>> 8).setWidth 8 := by
  have hpasses : Passes (Feeds c status value) (Unfailed d.channels)
      (fetchBlock frame (fuel + 1) channel partitionNr blockNr block)
      fun _ => Unfailed d.channels :=
    passes_fetchBlock willing_feeds hdrq hc hp hsize hata hnumber
  obtain ⟨w, ⟨_, d'⟩, hfed, _, rfl, hok, -⟩ := hpasses d ⟨ata, []⟩ ⟨hfine, rfl⟩
  have hrun := hfed.map (g := id) fun _ _ _ _ hreply => hreply.1
  have hread := triple_watchBlock hc hp hsize d _ ⟨rfl, rfl, rfl⟩ w _ hrun
  refine ⟨w, d', hrun, hok, hread, fun i hi => ?_⟩
  have hwords : Fed value w := hfed.invariant (fun _ _ _ _ hI hreply => hI.step hreply) nofun
  obtain ⟨t, t', htransfers, -, -, hlength, hlength', hbytes⟩ := hread.halves
  rw [Fed, htransfers, List.forall_mem_cons, List.forall_mem_singleton] at hwords
  have hmod : i % 512 % 2 = i % 2 := by omega
  rw [hbytes i hi, byte_fed hlength hwords.2 (Nat.mod_lt i (by decide)),
    byte_fed hlength' hwords.1 (Nat.mod_lt i (by decide)), ite_self, hmod]

/-! ### Calls without an error -/

/-- A block that can be gone through is shown without the controller noticing. -/
theorem exists_directory {block : Mycrokernel.Block} {cur : Nat} (h : block.Safe cur) :
    ∃ n, ∀ (frames : Nat → Stack) d (w : Watch), ∃ d', RunIn (Watches c statuses) w
      (directoryLoop frames block (n + 1) cur d) w (some (), d') ∧ d'.error = d.error := by
  induction h with
  | finish hend =>
    refine ⟨0, fun frames d w => ⟨d, ?_, rfl⟩⟩
    rw [directoryLoop_end hend]
    exact .done _ _
  | @record cur hcur hname _ ih =>
    obtain ⟨n, ih⟩ := ih
    refine ⟨n + 1, fun frames d w => ?_⟩
    have hplace := lt_of_name hname
    obtain ⟨o, hfound⟩ : ∃ o, RunIn (Watches c statuses) w (Mycrokernel.outf
        (frames (2 * (n + 1) + 1)) 1 (stringLiteral "Found entry:")) w o :=
      exists_outf (by decide) _ w
    obtain ⟨o', hshown⟩ : ∃ o', RunIn (Watches c statuses) w (Mycrokernel.outf
        (frames (2 * (n + 1))) 1 (block.bytes.drop (cur + 8))) w o' := exists_outf hname _ w
    obtain ⟨d', hrest, herror⟩ := ih frames (afterOutf (afterOutf d o) o') w
    refine ⟨d', ?_, herror⟩
    rw [directoryLoop_record _ _ _ hcur]
    refine hfound.bind (hshown.bind ?_)
    rw [directoryLoop_next _ (by omega)]
    exact hrest

/-- A block with one record, the length of which is that of the block. -/
def oneRecord : Mycrokernel.Block :=
  ⟨(List.range 1024).map fun i => if i % 2 = 0 then 0 else 4, by simp⟩

theorem safe_oneRecord : oneRecord.Safe 0 := by
  have hbyte : ∀ i < 1024, oneRecord.bytes.getD i 0 = if i % 2 = 0 then 0 else 4 := by
    intro i hi
    rw [oneRecord, List.getD_eq_getElem?_getD, List.getElem?_map,
      List.getElem?_range hi]
    rfl
  refine .record (by decide) ?_ (.finish ?_)
  · refine List.mem_iff_getElem?.mpr ⟨0, ?_⟩
    rw [List.getElem?_drop, oneRecord, List.getElem?_map, List.getElem?_range (by decide)]
    rfl
  · rw [Block.recordLength, hbyte _ (by decide), hbyte _ (by decide)]
    decide

/-- A buffer that holds one record. -/
theorem blockAt_oneRecord {β : Type} {f : Mycrokernel.Block → Hd β} (hmem : ∀ i < 1024,
    d.mem (block + BitVec.ofNat 32 i) = if i % 2 = 0 then 0 else 4) :
    (blockAt block >>= f) d = f oneRecord d := by
  have hblock : ∀ hlength, (⟨(List.range 1024).map fun i => d.mem (block + BitVec.ofNat 32 i),
      hlength⟩ : Mycrokernel.Block) = oneRecord := by
    intro hlength
    rw [oneRecord, Block.mk.injEq]
    exact List.map_congr_left fun i hi => hmem i (List.mem_range.1 hi)
  exact congrArg (fun b => f b d) (hblock _)

/-- The first pointer of a buffer of zeros. -/
theorem load32_zero {β : Type} {f : Word → Hd β}
    (hmem : ∀ i < 1024, d.mem (block + BitVec.ofNat 32 i) = 0) :
    (load32 block 0 >>= f) d = f 0 d := by
  have hplace : block + BitVec.ofNat 32 (4 * 0) = block := BitVec.add_zero block
  have hfirst : d.mem block = 0 := hplace ▸ hmem 0 (by decide)
  have hsecond : d.mem (block + 1) = 0 := hmem 1 (by decide)
  have hthird : d.mem (block + 2) = 0 := hmem 2 (by decide)
  have hfourth : d.mem (block + 3) = 0 := hmem 3 (by decide)
  change f (d.mem (block + BitVec.ofNat 32 (4 * 0) + 3) ++
    d.mem (block + BitVec.ofNat 32 (4 * 0) + 2) ++ d.mem (block + BitVec.ofNat 32 (4 * 0) + 1) ++
    d.mem (block + BitVec.ofNat 32 (4 * 0))) d = _
  rw [hplace, hfirst, hsecond, hthird, hfourth]
  rfl

/-- If the block can be read, there is a call without an error that has done no more than fill its
buffer. -/
theorem exists_call (hc : d.channels channel = c) (hfine : hasFailed d.error = false)
    (hp : c.partitions[partitionNr.toNat]? = some p) (hsize : p.blockSize = 1024)
    (hata : c.controller = .ata) (hnumber : sectorOf p blockNr < c.lbaSectors)
    (hdrq : status &&& bitDrq ≠ 0) (level : Nat) : ∃ fuel w d',
      RunIn (Watches c (· = status)) ⟨ata, []⟩
        (doIndirectDirectory frames fuel buffers channel partitionNr level way blockNr d) w
        (some (), d') ∧
      hasFailed d'.error = false ∧
      ∃ mem, BlockRead c (· = status) p blockNr (buffers level) w.transfers mem := by
  cases level with
  | zero =>
    obtain ⟨n, hdirectory⟩ : ∃ n, ∀ (frames : Nat → Stack) d w, ∃ d',
        RunIn (Watches c (· = status)) w (directoryLoop frames oneRecord (n + 1) 0 d) w
          (some (), d') ∧ d'.error = d.error := exists_directory safe_oneRecord
    obtain ⟨w, d₁, hfetch, hok, hread, hmem⟩ :=
      exists_blockRead hc hfine hp hsize hata hnumber hdrq 0x0400 (buffers 0)
    obtain ⟨d', hshown, herror⟩ := hdirectory (frames way) d₁ w
    have hend : hasFailed d'.error = false := herror ▸ hok
    refine ⟨n + 1, w, d', runIn_finish (r := some ()) (runIn_bind hfetch ?_), hend, d₁.mem, hread⟩
    rw [blockAt_oneRecord hmem]
    exact runIn_terror (runIn_finish hshown) hend
  | succ level =>
    obtain ⟨w, d', hfetch, hok, hread, hmem⟩ :=
      exists_blockRead hc hfine hp hsize hata hnumber hdrq 0 (buffers (level + 1))
    have hzero : ∀ i < 1024, d'.mem (buffers (level + 1) + BitVec.ofNat 32 i) = 0 :=
      fun i hi => (hmem i hi).trans (ite_self 0)
    refine ⟨1, w, d', runIn_finish (r := none) (runIn_bind hfetch ?_), hok, d'.mem, hread⟩
    -- the first pointer is zero already
    refine runIn_leave ?_
    dsimp only
    rw [load32_zero hzero, if_pos rfl]
    exact runIn_leave (.done _ _)

/-- Both halves of the buffer come from one sector, so that one of them does not come from the
block. -/
theorem BlockRead.not_fromDisk {mem' : Word → BitVec 8}
    (h : BlockRead c statuses p blockNr block transfers mem)
    (hbytes : FromDisk c transfers (p.blockAt blockNr) 1024 block mem') : False := by
  obtain ⟨t, t', rfl, hissued, hissued', -⟩ := h.halves
  have hall : ∀ u ∈ [t', t], Issued c (sectorOf p blockNr) commandReadsectors u :=
    List.forall_mem_cons.mpr ⟨hissued', List.forall_mem_singleton.mpr hissued⟩
  obtain ⟨u, hu, hfirst, -⟩ := hbytes 0 (by decide)
  obtain ⟨u', hu', hsecond, -⟩ := hbytes 512 (by decide)
  have hsame : u.registers.lba = u'.registers.lba := by
    obtain ⟨hselect, -, hlow, hmid, hhigh⟩ := sameAddress_of_issued (hall u hu) (hall u' hu')
    rw [Ata.lba, Ata.lba, hselect, hlow, hmid, hhigh]
  obtain ⟨_, hnumber, haddresses⟩ := hfirst.addresses
  obtain ⟨_, hnumber', haddresses'⟩ := hsecond.addresses
  rw [haddresses.lba, haddresses'.lba, hnumber, hnumber'] at hsame
  omega

/-- Where the buffers may be. -/
def placedAt (i : Nat) : Word := BitVec.ofNat 32 (0x1000 + 1024 * i)

theorem placed (hlevel : level < 256) : Placed placedAt level := by
  have htoNat : ∀ i ≤ level, (placedAt i).toNat = 0x1000 + 1024 * i := by
    intro i hi
    rw [placedAt, BitVec.toNat_ofNat]
    omega
  constructor
  · intro i hi j hj hne
    have hplace := htoNat i hi
    have hplace' := htoNat j hj
    exact Kernel.apart_of_disjoint (by omega) (by omega) (by omega)
  · intro i hi x hx
    have hplace := htoNat i hi
    have hnull : ∀ y : Word, y - null = y := BitVec.sub_zero
    rw [Within, hnull]
    rw [Within] at hx
    bv_omega

/-- A block of another size is not read, and the error is what it was. -/
theorem exists_unsupported (hc : d.channels channel = c)
    (hp : c.partitions[partitionNr.toNat]? = some p) (hsize : p.blockSize ≠ 1024) : ∃ d',
      RunIn (Watches c statuses) w
        (doIndirectDirectory frames fuel buffers channel partitionNr level way blockNr d) w
        (some (), d') ∧ d'.error = d.error := by
  obtain ⟨d', hleft, herror⟩ : ∃ d', RunIn (Watches c statuses) w (todoError (frames way 0) d) w
      (none, d') ∧ d'.error = d.error := exists_todoError (α := Unit) d w
  obtain ⟨rest, hrest⟩ :=
    doIndirectDirectory_eq frames fuel buffers channel partitionNr level way blockNr
  refine ⟨d', ?_, herror⟩
  rw [hrest]
  refine runIn_finish (r := none) (runIn_leave ?_)
  unfold fetchBlock
  rw [partitionAt_bind (hc ▸ hp)]
  dsimp only
  rw [if_pos hsize]
  exact runIn_leave hleft

theorem supported_of_honest (hlevel : level < 256) (hp : c.partitions[partitionNr.toNat]? = some p)
    (h : BlockHonest c statuses partitionNr p level blockNr) : p.blockSize = 1024 := by
  by_contra hsize
  obtain ⟨d', hrun, herror⟩ := exists_unsupported (d := driverOf c) rfl hp hsize
  exact hsize (h default 0 placedAt [] 0 idle ⟨idle, []⟩ _ d' rfl (driverOf_ok c) (placed hlevel)
    hrun (herror ▸ driverOf_ok c)).1

theorem unreadable_of_honest (hlevel : level < 256) (hp : c.partitions[partitionNr.toNat]? = some p)
    (h : BlockHonest c statuses partitionNr p level blockNr) :
    ¬ Readable c statuses (sectorOf p blockNr).toNat := by
  rintro ⟨hata, hnumber, status, hstatus, hdrq⟩
  have hsize := supported_of_honest hlevel hp h
  obtain ⟨fuel, w, d', hrun, hok, mem, hread⟩ := exists_call (d := driverOf c) rfl (driverOf_ok c)
    hp hsize hata (BitVec.lt_def.2 hnumber) hdrq level
  exact hread.not_fromDisk (h default fuel placedAt [] 0 idle w _ d' rfl (driverOf_ok c)
    (placed hlevel) (runIn_statuses hstatus hrun) hok).2

end Block

/-- All calls of `read_inode` that come back without an error have read the inode if and only if the
number is that of an inode and, if the device lets the driver read at the place it computes, the
table has the group of the inode, the place is right, the inode is within its sector, and the device
shows no errors together with data.

A call of `do_indirect_directory` that comes back without an error has never read the block.  So all
of them have if and only if there is none: blocks of this size are supported, but the device does
not let the driver read where it looks for the block. -/
theorem success_honest_iff (c : Channel) (statuses : Word → Prop) (behind : Nat → BlockGroup)
    (partitionNr : Byte) (p : Partition) (hp : c.partitions[partitionNr.toNat]? = some p)
    (hsector : 512 ∣ p.blockSize.toNat) :
    (∀ inodeNr, InodeHonest c statuses behind partitionNr p inodeNr ↔
        InodeSound c statuses behind p inodeNr) ∧
      ∀ (level : Byte) blockNr, BlockHonest c statuses partitionNr p level.toNat blockNr ↔
        p.blockSize = 1024 ∧ ¬ Readable c statuses (sectorOf p blockNr).toNat := by
  refine ⟨fun inodeNr => ⟨sound_of_honest hp hsector, honest_of_sound hp⟩, fun level blockNr => ?_⟩
  constructor
  · intro h
    exact ⟨supported_of_honest level.isLt hp h, unreadable_of_honest level.isLt hp h⟩
  · rintro ⟨hsize, hunreadable⟩
    exact honest_of_unreadable hp hsize hunreadable

/-- A channel with a disk of 8 GiB with the partition on it. -/
def channelOf (p : Partition) : Channel := (onDisk p).channels 0

/-- What is behind the groups of a partition while no other partition is used. -/
def unused : Nat → BlockGroup := fun _ => ⟨0⟩

/-- The inode of the root directory, and a block. -/
theorem success_honest_root :
    InodeHonest (channelOf (twoGroups 63)) (· = bitDrq) unused 0 (twoGroups 63) 2 ∧
      ¬ BlockHonest (channelOf (twoGroups 63)) (· = bitDrq) 0 (twoGroups 63) 0 5 := by
  have hiff := success_honest_iff (channelOf (twoGroups 63)) (· = bitDrq) unused 0 (twoGroups 63)
    rfl (by decide)
  constructor
  · refine (hiff.1 2).2 ⟨by decide, by decide, fun _ _ _ => ?_⟩
    refine ⟨by decide, ?_, by decide, by decide, by decide⟩
    rintro _ rfl -
    decide
  · exact fun h => ((hiff.2 0 5).1 h).2 ⟨rfl, by decide, bitDrq, rfl, by decide⟩

/-- The number 0 is not that of an inode, a block of 2 KiB is not supported, an error of the device
is not the inode, and behind the table there is no group. -/
theorem success_honest_fails :
    ¬ InodeHonest (channelOf (twoGroups 63)) (· = bitDrq) unused 0 (twoGroups 63) 0 ∧
      ¬ BlockHonest (channelOf { twoGroups 63 with blockSize := 2048 }) (· = bitDrq) 0
        { twoGroups 63 with blockSize := 2048 } 0 5 ∧
      ¬ InodeHonest (channelOf (twoGroups 63)) (· = bitDrq ||| bitErr) unused 0 (twoGroups 63) 2 ∧
      ¬ InodeHonest (channelOf { twoGroups 63 with nrInodes := 12048 }) (· = bitDrq) unused 0
        { twoGroups 63 with nrInodes := 12048 } 10041 := by
  refine ⟨fun h => ?_, fun h => ?_, fun h => ?_, fun h => ?_⟩
  · exact absurd (range_of_honest rfl h).1 (by decide)
  · exact absurd (supported_of_honest (by decide) rfl h) (by decide)
  · have hsound := sound_of_honest rfl (by decide) h
    have hread := hsound.read (by decide) (by decide)
      ⟨rfl, by decide, bitDrq ||| bitErr, rfl, by decide⟩
    exact absurd (hread.2.1 _ rfl (by decide)) (by decide)
  · have hsound := sound_of_honest rfl (by decide) h
    have hread := hsound.read (by decide) (by decide) ⟨rfl, by decide, bitDrq, rfl, by decide⟩
    exact absurd hread.1 (by decide)

end Hd

end Mycrokernel
