import Mycrokernel.Hd.Driver
import Mycrokernel.Lib.BitField
import Mycrokernel.Lib.Bytes
import Mycrokernel.Lib.Environment

/-!
# Reading from a disk

`Triple` are the pre- and postconditions of statements of the driver in an environment, and
`Passes` says that there is a run in which nothing fails.

`Disk.Answers` is the environment with a disk at the controller of a channel: it keeps what is
written to its registers, and a command for a sector it has makes it give the words of the sector,
from the time on when it has set the data request bit.  There `read_sector` fills its buffer with
the sector it is asked for (`triple_readSector`).
-/

namespace Mycrokernel

open Function (update update_self update_of_ne)
open Bytes
open Dialogue (RunIn)

namespace Hd

variable {σ α β : Type} {answers : σ → Syscall → Reply → σ → Prop} {P P' : Driver → σ → Prop}
  {Q Q' R : α → Driver → σ → Prop} {S : β → Driver → σ → Prop} {T : Driver → σ → Prop} {m : Hd α}
  {f : α → Hd β}

/-! ## Triples -/

/-- From a state with `P` a statement ends with `Q`, or at the label with an error. -/
def Triple (answers : σ → Syscall → Reply → σ → Prop) (P : Driver → σ → Prop) (m : Hd α)
    (Q : α → Driver → σ → Prop) : Prop :=
  ∀ d e, P d e → (m d).Always answers e fun r e' =>
    match r with
    | (some a, d') => Q a d' e'
    | (none, d') => hasFailed d'.error = true

theorem triple_pure {a : α} (h : ∀ d e, P d e → Q a d e) : Triple answers P (pure a) Q :=
  fun d e hP => Dialogue.always_done (h d e hP)

theorem triple_modify {g : Driver → Driver} {Q : Unit → Driver → σ → Prop}
    (h : ∀ d e, P d e → Q () (g d) e) : Triple answers P (modify g) Q :=
  fun d e hP => Dialogue.always_done (h d e hP)

theorem triple_spent : Triple answers P (spent : Hd α) Q := fun _ _ _ => Dialogue.always_stuck

theorem triple_call {request : Syscall} {result : Reply → α}
    (h : ∀ d e reply e', P d e → answers e request reply e' →
      Q (result reply) { d with error := reply.error } e') :
    Triple answers P (call request result) Q := by
  intro d e hP
  exact Dialogue.always_ask fun reply e' hreply => Dialogue.always_done (h d e reply e' hP hreply)

theorem Triple.mono (h : Triple answers P m Q) (hP : ∀ d e, P' d e → P d e)
    (hQ : ∀ a d e, Q a d e → Q' a d e) : Triple answers P' m Q' := by
  intro d e hP'
  refine (h d e (hP d e hP')).mono ?_
  rintro ⟨_ | a, d'⟩ e' hend
  · exact hend
  · exact hQ a d' e' hend

theorem Triple.bind (h : Triple answers P m R) (hf : ∀ a, Triple answers (R a) (f a) S) :
    Triple answers P (m >>= f) S := by
  intro d e hP
  refine (h d e hP).bind ?_
  rintro ⟨_ | a, d'⟩ e' hend
  · exact Dialogue.always_done hend
  · exact hf a d' e' hend

theorem triple_get_bind {f : Driver → Hd β} (h : ∀ d e, P d e → Triple answers P (f d) S) :
    Triple answers P (get >>= f) S :=
  fun d e hP => h d e hP d e hP

theorem Triple.terror (h : Triple answers P m fun a d e => hasFailed d.error = false → Q a d e) :
    Triple answers P (terror m) Q := by
  intro d e hP
  refine (h d e hP).bind ?_
  rintro ⟨_ | a, d'⟩ e' hend
  · refine Dialogue.always_done ?_
    dsimp only at hend
    rw [if_pos hend]
    exact hend
  · refine Dialogue.always_done ?_
    cases hfailed : hasFailed d'.error with
    | true => exact hfailed
    | false => exact hend hfailed

theorem Triple.terror_of (h : Triple answers P m Q) : Triple answers P (Hd.terror m) Q :=
  Triple.terror (h.mono (fun _ _ hP => hP) fun _ _ _ hQ _ => hQ)

theorem Triple.finish {m : Hd Unit}
    (h : Triple answers P m fun _ d e => hasFailed d.error = false → T d e) :
    Triple answers P (finish m) fun _ d e => hasFailed d.error = false → T d e := by
  intro d e hP
  refine (h d e hP).bind ?_
  rintro ⟨_ | a, d'⟩ e' hend
  · exact Dialogue.always_done fun hok => absurd (hend.symm.trans hok) (by decide)
  · exact Dialogue.always_done hend

/-- The rule for a loop over the numbers up to `n`. -/
theorem triple_range {g : Nat → Hd Unit} {I : Nat → Driver → σ → Prop} (n : Nat)
    (h : ∀ i < n, Triple answers (I i) (g i) fun _ => I (i + 1)) :
    Triple answers (I 0) ((List.range n).forM g) fun _ => I n := by
  have hfrom : ∀ k s, s + k = n →
      Triple answers (I s) ((List.range' s k).forM g) fun _ => I n := by
    intro k
    induction k with
    | zero =>
      rintro s rfl
      exact triple_pure fun _ _ hI => hI
    | succ k ih =>
      intro s hs
      exact (h s (by omega)).bind fun _ => ih (s + 1) (by omega)
  rw [List.range_eq_range']
  exact hfrom n 0 (Nat.zero_add n)

/-! ## Runs without an error -/

/-- From a state with `P` a statement has a run that does not end at the label, and that ends
with `Q`. -/
def Passes (answers : σ → Syscall → Reply → σ → Prop) (P : Driver → σ → Prop) (m : Hd α)
    (Q : α → Driver → σ → Prop) : Prop :=
  ∀ d e, P d e → (m d).Sometimes answers e fun r e' => ∃ a, r.1 = some a ∧ Q a r.2 e'

theorem passes_pure {a : α} (h : ∀ d e, P d e → Q a d e) : Passes answers P (pure a) Q :=
  fun d e hP => Dialogue.sometimes_done ⟨a, rfl, h d e hP⟩

theorem passes_modify {g : Driver → Driver} {Q : Unit → Driver → σ → Prop}
    (h : ∀ d e, P d e → Q () (g d) e) : Passes answers P (modify g) Q :=
  fun d e hP => Dialogue.sometimes_done ⟨(), rfl, h d e hP⟩

theorem passes_call {request : Syscall} {result : Reply → α}
    (h : ∀ d e, P d e → ∃ reply e', answers e request reply e' ∧
      Q (result reply) { d with error := reply.error } e') :
    Passes answers P (call request result) Q := by
  intro d e hP
  obtain ⟨reply, e', hreply, hQ⟩ := h d e hP
  exact Dialogue.sometimes_ask hreply (Dialogue.sometimes_done ⟨_, rfl, hQ⟩)

theorem Passes.mono (h : Passes answers P m Q) (hQ : ∀ a d e, Q a d e → Q' a d e) :
    Passes answers P m Q' := by
  intro d e hP
  obtain ⟨e', r, hrun, a, hr, hend⟩ := h d e hP
  exact ⟨e', r, hrun, a, hr, hQ _ _ _ hend⟩

/-- What holds at the end of all runs holds at the end of the one there is. -/
theorem Passes.and (h : Passes answers P m Q) (hall : Triple answers P' m R) :
    Passes answers (fun d e => P d e ∧ P' d e) m fun a d e => Q a d e ∧ R a d e := by
  intro d e hP
  obtain ⟨e', ⟨_, d'⟩, hrun, a, rfl, hQ⟩ := h d e hP.1
  exact ⟨e', _, hrun, a, rfl, hQ, hall d e hP.2 e' _ hrun⟩

theorem Passes.bind (h : Passes answers P m R) (hf : ∀ a, Passes answers (R a) (f a) S) :
    Passes answers P (m >>= f) S := by
  intro d e hP
  refine (h d e hP).bind ?_
  rintro ⟨_, d'⟩ e' ⟨a, rfl, hR⟩
  exact hf a d' e' hR

theorem passes_get_bind {f : Driver → Hd β} (h : ∀ d e, P d e → Passes answers P (f d) S) :
    Passes answers P (get >>= f) S :=
  fun d e hP => h d e hP d e hP

theorem Passes.terror (h : Passes answers P m fun a d e => hasFailed d.error = false ∧ Q a d e) :
    Passes answers P (terror m) Q := by
  intro d e hP
  refine (h d e hP).bind ?_
  rintro ⟨_, d'⟩ e' ⟨a, rfl, hok, hQ⟩
  refine Dialogue.sometimes_done ⟨a, ?_, hQ⟩
  dsimp only
  rw [hok, if_neg Bool.false_ne_true]

theorem Passes.finish {m : Hd Unit} (h : Passes answers P m fun _ => T) :
    Passes answers P (finish m) fun _ => T := by
  intro d e hP
  refine (h d e hP).bind ?_
  rintro ⟨_, d'⟩ e' ⟨a, rfl, hT⟩
  exact Dialogue.sometimes_done ⟨(), rfl, hT⟩

theorem passes_forM {l : List β} {g : β → Hd Unit}
    (h : ∀ b ∈ l, Passes answers T (g b) fun _ => T) : Passes answers T (l.forM g) fun _ => T := by
  induction l with
  | nil => exact passes_pure fun _ _ hT => hT
  | cons b l ih =>
    refine (h b List.mem_cons_self).bind fun _ => ih fun b' hb' => ?_
    exact h b' (List.mem_cons_of_mem b hb')

/-! ## Single runs -/

section SingleRuns

variable {e e' e'' : σ} {d d' : Driver}

theorem runIn_bind {a : α} {result : Option β × Driver}
    (h : RunIn answers e (m d) e' (some a, d')) (hf : RunIn answers e' (f a d') e'' result) :
    RunIn answers e ((m >>= f) d) e'' result := h.bind hf

theorem runIn_leave (h : RunIn answers e (m d) e' (none, d')) :
    RunIn answers e ((m >>= f) d) e' (none, d') := h.bind (.done _ _)

theorem runIn_finish {m : Hd Unit} {r : Option Unit} (h : RunIn answers e (m d) e' (r, d')) :
    RunIn answers e (finish m d) e' (some (), d') := h.bind (.done _ _)

theorem runIn_terror {r : Option α} (h : RunIn answers e (m d) e' (r, d'))
    (hok : hasFailed d'.error = false) : RunIn answers e (terror m d) e' (r, d') := by
  refine h.bind ?_
  dsimp only
  rw [hok, if_neg Bool.false_ne_true]
  exact .done _ _

/-- A run of a loop leaves it in its first part, or goes on with the second. -/
theorem runIn_forM_append {l l' : List β} {g : β → Hd Unit} {result : Option Unit × Driver}
    (h : RunIn answers e ((l ++ l').forM g d) e'' result) :
    (result.1 = none ∧ RunIn answers e (l.forM g d) e'' result) ∨
      ∃ e' d', RunIn answers e (l.forM g d) e' (some (), d') ∧
        RunIn answers e' (l'.forM g d') e'' result := by
  induction l generalizing e d with
  | nil => exact .inr ⟨e, d, .done _ _, h⟩
  | cons b l ih =>
    obtain ⟨e₁, ⟨_ | u, d₁⟩, hfirst, hrest⟩ := h.of_bind
    · cases hrest with
      | done => exact .inl ⟨rfl, runIn_leave hfirst⟩
    · obtain ⟨hnone, hleft⟩ | ⟨e', d', hpart, hsecond⟩ := ih hrest
      · exact .inl ⟨hnone, runIn_bind hfirst hleft⟩
      · exact .inr ⟨e', d', runIn_bind hfirst hpart, hsecond⟩

end SingleRuns

end Hd

/-! ## The disk -/

/-- A disk whose sectors have addresses of 28 bits. -/
structure Disk where
  size : Nat
  size_le : size ≤ 2 ^ 28
  /-- The words of a sector. -/
  word : Nat → Nat → BitVec 16

/-- The bytes of a sector, the lower byte of a word first. -/
def Disk.byte (disk : Disk) (number i : Nat) : Byte :=
  if i % 2 = 0 then (disk.word number (i / 2)).setWidth 8
  else (disk.word number (i / 2) >>> 8).setWidth 8

/-- The controller: the registers, whether it has set the data request bit, and the words it has
yet to give. -/
structure Ata where
  select : Byte
  count : Byte
  low : Byte
  mid : Byte
  high : Byte
  ready : Bool
  data : List (BitVec 16)

/-- The registers of the controller that are written to. -/
inductive AtaRegister where
  | select | count | low | mid | high | command
deriving DecidableEq

namespace AtaRegister

def all : List AtaRegister := [select, count, low, mid, high, command]

def port : AtaRegister → Word
  | select => portDriveselect
  | count => portSectorcount
  | low => portLbaLow
  | mid => portLbaMid
  | high => portLbaHigh
  | command => portCommand

end AtaRegister

namespace Ata

variable (r : Ata) (c : Channel) (disk : Disk)

/-- The sector the registers name. -/
def lba : Nat := (r.select.setWidth 4 ++ r.high ++ r.mid ++ r.low).toNat

/-- The registers name one sector of the disk of the channel. -/
def Names : Prop :=
  r.count = 1 ∧ r.select.getLsbD 6 = true ∧ r.select.getLsbD 4 = !c.isMaster ∧ r.lba < disk.size

instance : Decidable (r.Names c disk) := inferInstanceAs (Decidable (_ ∧ _ ∧ _ ∧ _))

/-- The register at a port. -/
def register (c : Channel) (port : Word) : Option AtaRegister :=
  AtaRegister.all.find? fun register => port = c.portBase ||| register.port

/-- The controller after a byte has been written to a register. -/
def put (value : Word) : AtaRegister → Ata
  | .select => { r with select := value.setWidth 8 }
  | .count => { r with count := value.setWidth 8 }
  | .low => { r with low := value.setWidth 8 }
  | .mid => { r with mid := value.setWidth 8 }
  | .high => { r with high := value.setWidth 8 }
  | .command => { r with
      ready := false
      data := if value = commandReadsectors ∧ r.Names c disk then
          (List.range 256).map (disk.word r.lba) else [] }

/-- The controller after a byte has been written to a port. -/
def written (port value : Word) : Ata :=
  match register c port with
  | some register => r.put c disk value register
  | none => r

/-- What the controller does with a request that the kernel lets pass. -/
def Serves (r' : Ata) (reply : Reply) : Syscall → Prop
  | .outb port value => r' = r.written c disk port value
  | .inb port =>
    r' = if port = c.portBase ||| portAlternateStatus ∧ reply.value &&& bitDrq ≠ 0 then
        { r with ready := true } else r
  | .inw port =>
    if port = c.portBase ||| portData ∧ r.ready = true then
      match r.data with
      | [] => r' = r
      | value :: data => reply.value = value.setWidth 32 ∧ r' = { r with data }
    else r' = r
  | _ => r' = r

end Ata

/-- The environment with a disk at the controller of a channel.  A request may fail, with no matter
what consequences. -/
def Disk.Answers (disk : Disk) (c : Channel) (r : Ata) (request : Syscall) (reply : Reply)
    (r' : Ata) : Prop :=
  hasFailed reply.error = true ∨ r.Serves c disk r' reply request

/-- The buffer has the first bytes of a sector, and the rest of the memory is as it was. -/
structure Disk.Filled (disk : Disk) (number : Nat) (buffer : Word) (n : Nat)
    (mem mem' : Word → BitVec 8) : Prop where
  bytes : ∀ i < n, mem' (buffer + BitVec.ofNat 32 i) = disk.byte number i
  frame : ∀ x, ¬ Within buffer n x → mem' x = mem x

namespace Hd

variable {disk : Disk} {c : Channel} {channel : Ptr} {channels : Ptr → Channel}
  {mem mem' : Word → BitVec 8} {number buffer value : Word} {i n fuel : Nat}
  {P : Driver → Ata → Prop} {Q : Unit → Driver → Ata → Prop} {r : Ata}

/-! ## The registers -/

theorem setWidth_and_ff (x : Word) : (x &&& 0xff).setWidth 8 = x.setWidth 8 := by
  apply BitVec.eq_of_getLsbD_eq
  intro i hi
  have hbit : (0xff : Word).getLsbD i = true := by
    revert i
    decide
  rw [BitVec.getLsbD_setWidth, BitVec.getLsbD_and, BitVec.getLsbD_setWidth, hbit, Bool.and_true]

/-- What `read_sector` writes to the drive register. -/
def driveSelect (c : Channel) (number : Word) : Word :=
  let value : Word := if c.isMaster then 0xe0 else 0xf0
  value ||| (number >>> 24)

/-- The registers name the sector of the number. -/
structure Named (c : Channel) (number : Word) (r : Ata) : Prop where
  select : r.select = (driveSelect c number).setWidth 8
  count : r.count = 1
  low : r.low = (number &&& 0xff).setWidth 8
  mid : r.mid = ((number >>> 8) &&& 0xff).setWidth 8
  high : r.high = ((number >>> 16) &&& 0xff).setWidth 8

theorem Named.lba (h : Named c number r) (hnumber : number.toNat < 2 ^ 28) :
    r.lba = number.toNat := by
  have hvalue : (driveSelect c number).setWidth 4 = (number >>> 16 >>> 8).setWidth 4 := by
    rw [driveSelect, BitVec.setWidth_or, ← BitVec.shiftRight_add]
    cases c.isMaster with
    | true => exact BitVec.zero_or
    | false => exact BitVec.zero_or
  have hmid : number >>> 16 = number >>> 8 >>> 8 := BitVec.shiftRight_add number 8 8
  rw [Ata.lba, h.select, h.high, h.mid, h.low, setWidth_and_ff, setWidth_and_ff, setWidth_and_ff,
    BitVec.setWidth_setWidth_of_le _ (by decide), hvalue, BitField.append_low, hmid,
    BitField.append_low, BitField.append_low, BitVec.toNat_setWidth, Nat.mod_eq_of_lt hnumber]

theorem Named.names (h : Named c number r) (hnumber : number.toNat < disk.size) :
    r.Names c disk := by
  have hlt := hnumber.trans_le disk.size_le
  have htop : (number >>> 24).getLsbD 4 = false := by
    rw [BitVec.getLsbD_ushiftRight]
    exact Nat.testBit_lt_two_pow hlt
  refine ⟨h.count, ?_, ?_, ?_⟩
  · rw [h.select, driveSelect, BitVec.getLsbD_setWidth, BitVec.getLsbD_or]
    cases c.isMaster with
    | true => rfl
    | false => rfl
  · rw [h.select, driveSelect, BitVec.getLsbD_setWidth, BitVec.getLsbD_or, htop]
    cases c.isMaster with
    | true => rfl
    | false => rfl
  · rw [h.lba hlt]
    exact hnumber

/-- The ports of the registers are different ones. -/
theorem register_port (c : Channel) (register : AtaRegister) :
    Ata.register c (c.portBase ||| register.port) = some register := by
  unfold Ata.register Channel.portBase
  cases c.isPrimary with
  | true => cases register <;> rfl
  | false => cases register <;> rfl

theorem written_port (r : Ata) (disk : Disk) (c : Channel) (value : Word) (register : AtaRegister) :
    r.written c disk (c.portBase ||| register.port) value = r.put c disk value register := by
  rw [Ata.written, register_port]

theorem named_written (r : Ata) (disk : Disk) (c : Channel) (number : Word) :
    Named c number
      (((((r.written c disk (c.portBase ||| portDriveselect) (driveSelect c number)).written c disk
        (c.portBase ||| portSectorcount) 1).written c disk
        (c.portBase ||| portLbaLow) (number &&& 0xff)).written c disk
        (c.portBase ||| portLbaMid) ((number >>> 8) &&& 0xff)).written c disk
        (c.portBase ||| portLbaHigh) ((number >>> 16) &&& 0xff)) := by
  have hselect := written_port r disk c (driveSelect c number) .select
  have hcount := fun r => written_port r disk c 1 .count
  have hlow := fun r => written_port r disk c (number &&& 0xff) .low
  have hmid := fun r => written_port r disk c ((number >>> 8) &&& 0xff) .mid
  have hhigh := fun r => written_port r disk c ((number >>> 16) &&& 0xff) .high
  simp only [AtaRegister.port] at hselect hcount hlow hmid hhigh
  rw [hselect, hcount, hlow, hmid, hhigh]
  exact ⟨rfl, rfl, rfl, rfl, rfl⟩

theorem written_command (h : r.Names c disk) :
    r.written c disk (c.portBase ||| portCommand) commandReadsectors =
      { r with ready := false, data := (List.range 256).map (disk.word r.lba) } := by
  have hcommand := written_port r disk c commandReadsectors .command
  simp only [AtaRegister.port] at hcommand
  rw [hcommand, Ata.put, if_pos ⟨rfl, h⟩]

/-! ## `read_sector` -/

/-- The channels and the memory are as they were, and the environment meets a condition. -/
def Kept (channels : Ptr → Channel) (mem : Word → BitVec 8) (C : σ → Prop) (d : Driver) (e : σ) :
    Prop :=
  d.channels = channels ∧ d.mem = mem ∧ C e

theorem triple_errSet {error : Word} {P : Driver → Ata → Prop} {Q : Unit → Driver → Ata → Prop}
    (h : hasFailed error = true) : Triple (disk.Answers c) P (terror (errSet error)) Q := by
  refine Triple.terror (triple_modify fun d r _ hok => ?_)
  exact absurd (h.symm.trans hok) (by decide)

/-- A system call that does not fail. -/
theorem triple_served {α : Type} {request : Syscall} {result : Reply → α}
    {P : Driver → Ata → Prop} {Q : α → Driver → Ata → Prop}
    (h : ∀ d r reply r', P d r → r.Serves c disk r' reply request →
      Q (result reply) { d with error := reply.error } r') :
    Triple (disk.Answers c) P (terror (call request result)) Q := by
  refine Triple.terror (triple_call fun d r reply r' hP hreply hok => ?_)
  rcases hreply with hfailed | hserves
  · exact absurd (hfailed.symm.trans hok) (by decide)
  · exact h d r reply r' hP hserves

theorem triple_outb {port value : Word} {C : Ata → Prop} :
    Triple (disk.Answers c) (Kept channels mem C) (terror (callSyscallOutb port value))
      fun _ => Kept channels mem fun r' => ∃ r, C r ∧ r' = r.written c disk port value :=
  triple_served fun _ r _ _ ⟨hchannels, hmem, hC⟩ hserves => ⟨hchannels, hmem, r, hC, hserves⟩

/-- The status is read. -/
theorem triple_status {C : Ata → Prop} (hready : ∀ r, C r → C { r with ready := true }) :
    Triple (disk.Answers c) (Kept channels mem C)
      (terror (callSyscallInb (c.portBase ||| portAlternateStatus)))
      fun status => Kept channels mem fun r => C r ∧ (status &&& bitDrq ≠ 0 → r.ready = true) := by
  refine triple_served fun d r reply r' hkept hserves => ?_
  obtain ⟨hchannels, hmem, hC⟩ := hkept
  refine ⟨hchannels, hmem, ?_⟩
  rw [Ata.Serves] at hserves
  rw [hserves]
  split
  next => exact ⟨hready r hC, fun _ => rfl⟩
  next hnot => exact ⟨hC, fun hdrq => absurd ⟨rfl, hdrq⟩ hnot⟩

/-- The loop ends when the data request bit is set. -/
theorem triple_waitForData {C : Ata → Prop} (hready : ∀ r, C r → C { r with ready := true })
    (n : Nat) (status : Word) :
    Triple (disk.Answers c)
      (Kept channels mem fun r => C r ∧ (status &&& bitDrq ≠ 0 → r.ready = true))
      (waitForData c n status) fun _ => Kept channels mem fun r => C r ∧ r.ready = true := by
  induction n generalizing status with
  | zero => exact triple_spent
  | succ n ih =>
    rw [waitForData]
    split
    next hdrq =>
      exact triple_pure fun d r ⟨hchannels, hmem, hC, hset⟩ => ⟨hchannels, hmem, hC, hset hdrq⟩
    next hdrq =>
      refine Triple.bind (R := fun _ => Kept channels mem C) ?_ fun _ => ?_
      · refine triple_served fun d r reply r' ⟨hchannels, hmem, hC, _⟩ hserves => ?_
        obtain rfl : r' = r := hserves
        exact ⟨hchannels, hmem, hC⟩
      · refine triple_get_bind fun d _ _ => ?_
        split
        next =>
          refine (ih status).mono (fun d r ⟨hchannels, hmem, hC⟩ => ?_) fun _ _ _ h => h
          exact ⟨hchannels, hmem, hC, fun h => absurd h hdrq⟩
        next => exact (triple_status hready).bind fun status => ih status

theorem triple_checkAta {C : Ata → Prop} :
    Triple (disk.Answers c) (Kept channels mem C) (checkAta channel)
      fun _ => Kept channels mem C := by
  refine triple_get_bind fun d _ _ => ?_
  split
  next => exact triple_errSet (by decide)
  next => exact triple_pure fun _ _ h => h

theorem triple_checkLbaSupported {C : Ata → Prop} :
    Triple (disk.Answers c) (Kept channels mem C) (checkLbaSupported channel)
      fun _ => Kept channels mem C :=
  triple_pure fun _ _ h => h

theorem triple_checkNumber {C : Ata → Prop} :
    Triple (disk.Answers c) (Kept channels mem C) (checkNumber c number)
      fun _ => Kept channels mem C := by
  unfold checkNumber
  split
  next => exact triple_errSet (by decide)
  next => exact triple_pure fun _ _ h => h

theorem triple_selectDrive :
    Triple (disk.Answers c) (Kept channels mem fun _ => True) (terror (selectDrive channel))
      fun _ => Kept channels mem fun _ => True := by
  refine Triple.terror (triple_get_bind fun d _ _ => ?_)
  split
  next =>
    refine Triple.finish (triple_get_bind fun d _ _ => ?_)
    refine triple_outb.bind fun _ => triple_modify fun d r ⟨hchannels, hmem, _⟩ _ => ?_
    exact ⟨hchannels, hmem, trivial⟩
  next => exact triple_pure fun _ _ h _ => h

/-- The two bytes of a word go behind the ones before it. -/
theorem Filled.store {number : Nat} (h : disk.Filled number buffer (2 * i) mem mem') (hi : i < 256) :
    disk.Filled number buffer (2 * (i + 1)) mem
      (update (update mem' (buffer + BitVec.ofNat 32 (2 * i)) ((disk.word number i).setWidth 8))
        (buffer + BitVec.ofNat 32 (2 * i) + 1) ((disk.word number i >>> 8).setWidth 8)) := by
  have hsecond : buffer + BitVec.ofNat 32 (2 * i) + 1 = buffer + BitVec.ofNat 32 (2 * i + 1) := by
    rw [BitVec.add_assoc, BitVec.ofNat_add]
    rfl
  have hne : ∀ k < 512, ∀ l < 512, k ≠ l →
      buffer + BitVec.ofNat 32 k ≠ buffer + BitVec.ofNat 32 l := fun k hk l hl hkl heq =>
    hkl ((add_ofNat_inj (by omega) (by omega)).1 heq)
  rw [hsecond]
  constructor
  · intro k hk
    rcases (by omega : k = 2 * i + 1 ∨ k = 2 * i ∨ k < 2 * i) with rfl | rfl | hlow
    · rw [update_self, Disk.byte, if_neg (by omega), show (2 * i + 1) / 2 = i by omega]
    · rw [update_of_ne (hne _ (by omega) _ (by omega) (by omega)), update_self, Disk.byte,
        if_pos (by omega), show 2 * i / 2 = i by omega]
    · rw [update_of_ne (hne _ (by omega) _ (by omega) (by omega)),
        update_of_ne (hne _ (by omega) _ (by omega) (by omega))]
      exact h.bytes k hlow
  · intro x hx
    have hout : ∀ k < 2 * (i + 1), x ≠ buffer + BitVec.ofNat 32 k := by
      rintro k hk rfl
      exact hx (within_add hk (by omega))
    rw [update_of_ne (hout _ (by omega)), update_of_ne (hout _ (by omega))]
    exact h.frame x fun hin => hx (Nat.lt_trans hin (by omega))

/-- The first words of the sector have been transferred. -/
structure Reading (disk : Disk) (channels : Ptr → Channel) (mem : Word → BitVec 8) (number : Nat)
    (buffer : Word) (i : Nat) (d : Driver) (r : Ata) : Prop where
  channels_eq : d.channels = channels
  filled : disk.Filled number buffer (2 * i) mem d.mem
  ready : r.ready = true
  data : r.data = ((List.range 256).drop i).map (disk.word number)

theorem triple_word {number : Nat} (hi : i < 256) :
    Triple (disk.Answers c) (Reading disk channels mem number buffer i)
      (terror do
        let value ← callSyscallInw (c.portBase ||| portData)
        store16 buffer i (value.setWidth 16))
      fun _ => Reading disk channels mem number buffer (i + 1) := by
  have hdrop : (List.range 256).drop i = i :: (List.range 256).drop (i + 1) := by
    rw [List.drop_eq_getElem_cons (by simpa using hi), List.getElem_range]
  refine Triple.terror (Triple.bind (R := fun value d r => hasFailed d.error = false →
    value.setWidth 16 = disk.word number i ∧ d.channels = channels ∧
      disk.Filled number buffer (2 * i) mem d.mem ∧ r.ready = true ∧
        r.data = ((List.range 256).drop (i + 1)).map (disk.word number)) ?_ fun value => ?_)
  · refine triple_call fun d r reply r' hreading hreply hok => ?_
    rcases hreply with hfailed | hserves
    · exact absurd (hfailed.symm.trans hok) (by decide)
    · rw [Ata.Serves, if_pos ⟨rfl, hreading.ready⟩, hreading.data, hdrop, List.map_cons] at hserves
      obtain ⟨hvalue, rfl⟩ := hserves
      refine ⟨?_, hreading.channels_eq, hreading.filled, hreading.ready, rfl⟩
      rw [hvalue]
      exact BitVec.setWidth_setWidth_of_le _ (by decide)
  · refine triple_modify fun d r h hok => ?_
    obtain ⟨hvalue, hchannels, hfilled, hready, hdata⟩ := h hok
    rw [hvalue]
    exact ⟨hchannels, Filled.store hfilled hi, hready, hdata⟩

/-- The loop over the words of a sector. -/
theorem triple_words {number : Nat} :
    Triple (disk.Answers c)
      (Kept channels mem fun r => r.data = (List.range 256).map (disk.word number) ∧ r.ready = true)
      ((List.range 256).forM fun i => terror do
        let value ← callSyscallInw (c.portBase ||| portData)
        store16 buffer i (value.setWidth 16))
      fun _ d _ => d.channels = channels ∧ disk.Filled number buffer 512 mem d.mem := by
  have hloop := triple_range (I := Reading disk channels mem number buffer) 256
    fun i hi => triple_word (c := c) hi
  refine hloop.mono ?_ fun _ d r h => ⟨h.channels_eq, h.filled⟩
  rintro d r ⟨hchannels, hmem, hdata, hready⟩
  exact ⟨hchannels, ⟨nofun, fun x _ => congrFun hmem x⟩, hready, hdata⟩

/-- The command is for the sector, and from then on its words are there. -/
theorem triple_command {k : Hd Unit} {Q : Unit → Driver → Ata → Prop}
    (hnumber : number.toNat < disk.size)
    (hk : Triple (disk.Answers c) (Kept channels mem fun r =>
      r.data = (List.range 256).map (disk.word number.toNat)) k Q) :
    Triple (disk.Answers c) (Kept channels mem fun _ => True)
      (do
        terror (callSyscallOutb (c.portBase ||| portDriveselect) (driveSelect c number))
        terror (callSyscallOutb (c.portBase ||| portSectorcount) 1)
        terror (callSyscallOutb (c.portBase ||| portLbaLow) (number &&& 0xff))
        terror (callSyscallOutb (c.portBase ||| portLbaMid) ((number >>> 8) &&& 0xff))
        terror (callSyscallOutb (c.portBase ||| portLbaHigh) ((number >>> 16) &&& 0xff))
        terror (callSyscallOutb (c.portBase ||| portCommand) commandReadsectors)
        k) Q := by
  refine triple_outb.bind fun _ => triple_outb.bind fun _ => triple_outb.bind fun _ => ?_
  refine triple_outb.bind fun _ => triple_outb.bind fun _ => triple_outb.bind fun _ => ?_
  refine hk.mono ?_ fun _ _ _ h => h
  rintro d _ ⟨hchannels, hmem, _, ⟨_, ⟨_, ⟨_, ⟨_, ⟨r, -, rfl⟩, rfl⟩, rfl⟩, rfl⟩, rfl⟩, rfl⟩
  have hnamed := named_written r disk c number
  refine ⟨hchannels, hmem, ?_⟩
  rw [written_command (hnamed.names hnumber), hnamed.lba (hnumber.trans_le disk.size_le)]

/-- `read_sector` fills its buffer with the sector. -/
theorem triple_readSector (hnumber : number.toNat < disk.size) (hc : channels channel = c) :
    Triple (disk.Answers c) (Kept channels mem fun _ => True)
      (readSector fuel number channel buffer) fun _ d _ => hasFailed d.error = false →
        d.channels = channels ∧ disk.Filled number.toNat buffer 512 mem d.mem := by
  refine Triple.finish (T := fun d _ => d.channels = channels ∧
    disk.Filled number.toNat buffer 512 mem d.mem) ?_
  refine triple_checkAta.terror_of.bind fun _ => triple_checkLbaSupported.terror_of.bind fun _ => ?_
  refine triple_get_bind fun d _ hkept => ?_
  rw [hkept.1, hc]
  refine triple_checkNumber.bind fun _ => triple_selectDrive.bind fun _ => ?_
  dsimp only
  refine triple_command (c := c) hnumber ?_
  refine (triple_status fun _ h => h).bind fun status => ?_
  refine (triple_waitForData (fun _ h => h) fuel status).bind fun _ => ?_
  exact triple_words.mono (fun _ _ h => h) fun _ _ _ h _ => h

/-- Without an ATA device the function ends at once. -/
theorem transferSector_not_ata {command : Word} {transfer : Channel → Nat → Hd Unit}
    {d : Driver} (hc : d.channels channel = c)
    (hata : c.controller ≠ .ata) :
    transferSector command transfer fuel number channel d =
      .done (some (), { d with error := Err.notAta }) := by
  have hcheck : terror (checkAta channel) d = .done (none, { d with error := Err.notAta }) := by
    change Dialogue.bind ((if (d.channels channel).controller ≠ .ata then
      terror (errSet Err.notAta) else pure ()) d) _ = _
    rw [hc, if_pos hata]
    rfl
  change Dialogue.bind (Dialogue.bind (terror (checkAta channel) d) _) _ = _
  rw [hcheck]
  rfl

/-! ## A run of `read_sector` -/

section Passing

variable {answers : σ → Syscall → Reply → σ → Prop} {status : Word}

/-- Nothing has failed. -/
def Unfailed (channels : Ptr → Channel) (d : Driver) (_ : σ) : Prop :=
  hasFailed d.error = false ∧ d.channels = channels

/-- The environment may serve every request at once, and give this status. -/
def Willing (answers : σ → Syscall → Reply → σ → Prop) (status : Word) : Prop :=
  ∀ e request, ∃ reply e', answers e request reply e' ∧ hasFailed reply.error = false ∧
    ∀ port, request = .inb port → reply.value = status

theorem Passes.unfailed {m : Hd Unit}
    (h : Passes answers (Unfailed channels) m fun _ => Unfailed channels) :
    Passes answers (Unfailed channels) (Hd.terror m) fun _ => Unfailed channels :=
  Passes.terror (h.mono fun _ _ _ hok => ⟨hok.1, hok⟩)

/-- The controller may serve a request at once. -/
theorem exists_serves (disk : Disk) (c : Channel) (r : Ata) (request : Syscall) :
    ∃ reply r', r.Serves c disk r' reply request ∧ hasFailed reply.error = false ∧
      ∀ port, request = .inb port → reply.value = bitDrq := by
  cases request with
  | inb port => exact ⟨⟨bitDrq, 0⟩, _, rfl, rfl, fun _ _ => rfl⟩
  | inw port =>
    cases Decidable.em (port = c.portBase ||| portData ∧ r.ready = true) with
    | inr hnot => exact ⟨⟨0, 0⟩, r, by rw [Ata.Serves, if_neg hnot], rfl, nofun⟩
    | inl hready =>
      cases hdata : r.data with
      | nil => exact ⟨⟨0, 0⟩, r, by rw [Ata.Serves, if_pos hready, hdata], rfl, nofun⟩
      | cons value data =>
        refine ⟨⟨value.setWidth 32, 0⟩, { r with data }, ?_, rfl, nofun⟩
        rw [Ata.Serves, if_pos hready, hdata]
        exact ⟨rfl, rfl⟩
  | outb port value => exact ⟨⟨0, 0⟩, _, rfl, rfl, nofun⟩
  | receive => exact ⟨⟨0, 0⟩, r, rfl, rfl, nofun⟩
  | sendByFeature => exact ⟨⟨0, 0⟩, r, rfl, rfl, nofun⟩
  | claimPort => exact ⟨⟨0, 0⟩, r, rfl, rfl, nofun⟩
  | requestIrq => exact ⟨⟨0, 0⟩, r, rfl, rfl, nofun⟩
  | outw => exact ⟨⟨0, 0⟩, r, rfl, rfl, nofun⟩

theorem willing_disk : Willing (disk.Answers c) bitDrq := by
  intro r request
  obtain ⟨reply, r', hserves, hok, hinb⟩ := exists_serves disk c r request
  exact ⟨reply, r', Or.inr hserves, hok, hinb⟩

theorem passes_served {α : Type} {request : Syscall} {result : Reply → α}
    (hwilling : Willing answers status) :
    Passes answers (Unfailed channels) (call request result)
      fun a d e => (∃ reply, a = result reply ∧ ∀ port, request = .inb port → reply.value = status) ∧
        Unfailed channels d e := by
  refine passes_call fun d e hbefore => ?_
  obtain ⟨reply, e', hanswers, hok, hinb⟩ := hwilling e request
  exact ⟨reply, e', hanswers, ⟨reply, rfl, hinb⟩, hok, hbefore.2⟩

theorem passes_outb {port value : Word} (hwilling : Willing answers status) :
    Passes answers (Unfailed channels) (terror (callSyscallOutb port value))
      fun _ => Unfailed channels :=
  Passes.terror ((passes_served hwilling).mono fun _ _ _ h => ⟨h.2.1, h.2⟩)

theorem passes_status {port : Word} (hwilling : Willing answers status) :
    Passes answers (Unfailed channels) (terror (callSyscallInb port))
      fun a d e => a = status ∧ Unfailed channels d e := by
  refine Passes.terror ((passes_served hwilling).mono ?_)
  rintro _ d e ⟨⟨reply, rfl, hinb⟩, hok⟩
  exact ⟨hok.1, hinb port rfl, hok⟩

theorem passes_word {i : Nat} (hwilling : Willing answers status) :
    Passes answers (Unfailed channels)
      (terror do
        let value ← callSyscallInw (c.portBase ||| portData)
        store16 buffer i (value.setWidth 16))
      fun _ => Unfailed channels := by
  refine Passes.terror ((passes_served hwilling).bind fun value => passes_modify fun d e h => ?_)
  exact ⟨h.2.1, h.2⟩

theorem passes_selectDrive (hwilling : Willing answers status) :
    Passes answers (Unfailed channels) (selectDrive channel) fun _ => Unfailed channels := by
  refine passes_get_bind fun d _ _ => ?_
  split
  next =>
    refine Passes.finish (passes_get_bind fun d _ _ => ?_)
    exact (passes_outb hwilling).bind fun _ => passes_modify fun _ _ h => h
  next => exact passes_pure fun _ _ h => h

/-- A transfer has a run in which nothing fails, if that is so for each word. -/
theorem passes_transferSector {command : Word} {transfer : Channel → Nat → Hd Unit}
    (hwilling : Willing answers status) (hdrq : status &&& bitDrq ≠ 0)
    (htransfer : ∀ i, Passes answers (Unfailed channels) (transfer c i) fun _ => Unfailed channels)
    (hc : channels channel = c) (hata : c.controller = .ata) (hnumber : number < c.lbaSectors) :
    Passes answers (Unfailed channels) (transferSector command transfer (fuel + 1) number channel)
      fun _ => Unfailed channels := by
  refine Passes.finish ?_
  refine Passes.bind (R := fun _ => Unfailed channels) (Passes.unfailed ?_) fun _ => ?_
  · refine passes_get_bind fun d r hok => ?_
    rw [hok.2, hc, if_neg (not_not.2 hata)]
    exact passes_pure fun _ _ h => h
  refine (Passes.unfailed (m := checkLbaSupported channel) (passes_pure fun _ _ h => h)).bind
    fun _ => ?_
  refine passes_get_bind fun d r hok => ?_
  rw [hok.2, hc]
  refine Passes.bind (R := fun _ => Unfailed channels) ?_ fun _ => ?_
  · unfold checkNumber
    rw [if_neg (BitVec.not_le.2 hnumber)]
    exact passes_pure fun _ _ h => h
  refine (passes_selectDrive hwilling).unfailed.bind fun _ => ?_
  have houtb : ∀ port value, Passes answers (Unfailed channels)
      (terror (callSyscallOutb port value)) fun _ => Unfailed channels :=
    fun _ _ => passes_outb hwilling
  refine (houtb _ _).bind fun _ => (houtb _ _).bind fun _ => (houtb _ _).bind fun _ => ?_
  refine (houtb _ _).bind fun _ => (houtb _ _).bind fun _ => (houtb _ _).bind fun _ => ?_
  refine (passes_status hwilling).bind fun status' => ?_
  refine Passes.bind (R := fun _ => Unfailed channels) ?_ fun _ => passes_forM fun i _ => htransfer i
  intro d r h
  rw [waitForData, h.1, if_pos hdrq]
  exact passes_pure (fun _ _ h => h) d r h.2

/-- `read_sector` has a run in which nothing fails. -/
theorem passes_readSector (hwilling : Willing answers status) (hdrq : status &&& bitDrq ≠ 0)
    (hc : channels channel = c) (hata : c.controller = .ata) (hnumber : number < c.lbaSectors) :
    Passes answers (Unfailed channels) (readSector (fuel + 1) number channel buffer)
      fun _ => Unfailed channels :=
  passes_transferSector hwilling hdrq (fun _ => passes_word hwilling) hc hata hnumber

end Passing

end Hd

end Mycrokernel
