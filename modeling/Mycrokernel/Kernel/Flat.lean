import Mycrokernel.Kernel.Copy
import Mycrokernel.Lib.Bytes

/-!
# A message in the memory of the machine

`_exchange_data` finds the registers of the two processes in the records of the process table, and
their segments in the descriptor table.  All this is memory like the messages are.

If no message is where an `eax_reg` is, just the message is copied (`exchange_data_copies`), and
the program does what `Kernel.exchangeData` does, for which the records, the descriptors and the
messages are apart (`exchangeData_refines`).  A process whose message is to be written over its
own `eax_reg` does not get the number of bytes (`exchange_data_aliased`).
-/

namespace Mycrokernel

open Bytes
open Function (update_self update_of_ne)

/-- The memory of the machine, by linear addresses. -/
abbrev Memory := Word → BitVec 8

/-- `GDT_BASE`. -/
def gdtBase : Word := 0x10700

/-- The fields of a `tss_t` that `_exchange_data` uses. -/
inductive TssField where
  | eaxReg
  | ecxReg
  | edxReg
  | dsReg
deriving DecidableEq

/-- The place of a field in the record. -/
def TssField.offset : TssField → Word
  | eaxReg => 40
  | ecxReg => 44
  | edxReg => 48
  | dsReg => 84

/-- `&proctab[i*@size(tss_t)]`, for the process table at some address. -/
def slot (table : Ptr) (i : Nat) : Ptr := table + BitVec.ofNat 32 (sizeofTss.toNat * i)

namespace Memory

def word (mem : Memory) (a : Word) : BitVec 16 := BitVec.ofNat 16 (load mem a 2)

def dword (mem : Memory) (a : Word) : Word := BitVec.ofNat 32 (load mem a 4)

def setDword (mem : Memory) (a value : Word) : Memory := store mem a 4 value.toNat

/-- The address of a field of the record of `process`, in the data segment of the kernel. -/
def field (process : Ptr) (f : TssField) : Word := kernelBase + (process + f.offset)

/-- The address of the descriptor of the data segment of `process`, through `fs`. -/
def descriptor (mem : Memory) (process : Ptr) : Word :=
  ((mem.word (field process .dsReg)).setWidth 32 &&& 0xfff8) + gdtBase

/-- The base that `_exchange_data` assembles. -/
def dataBase (mem : Memory) (process : Ptr) : Word :=
  let edi := mem.descriptor process
  let edx := (mem (edi + 7)).setWidth 32 <<< 8
  let esi := (mem (edi + 4)).setWidth 32 ||| edx
  (esi <<< 16) ||| (mem.word (edi + 2)).setWidth 32

/-- Where the message of `process` is. -/
def message (mem : Memory) (process : Ptr) : Word :=
  mem.dataBase process + mem.dword (field process .edxReg)

/-- The number of bytes. -/
def exchangeBytes (mem : Memory) (sender receiver : Ptr) : Word :=
  let ecx := mem.dword (field sender .ecxReg)
  if mem.dword (field receiver .ecxReg) < ecx then mem.dword (field receiver .ecxReg) else ecx

/-- `_exchange_data`, and what it returns. -/
def exchangeData (mem : Memory) (sender receiver : Ptr) : Memory × Word :=
  let ecx := mem.exchangeBytes sender receiver
  let esi := mem.message receiver
  let edi := mem.message sender
  let mem := mem.setDword (field sender .eaxReg) ecx
  let mem := mem.setDword (field receiver .eaxReg) ecx
  (Kernel.copy mem edi esi ecx, ecx)

variable {mem mem' : Memory} {table sender receiver : Ptr} {a b value x : Word} {i j : Nat}

/-! ## Fields -/

theorem dword_setDword (mem : Memory) (a value : Word) : (mem.setDword a value).dword a = value := by
  have hvalue := load_store mem a value.toNat (show 4 ≤ 2 ^ 32 by decide)
  rw [Nat.mod_eq_of_lt (show value.toNat < 256 ^ 4 from value.isLt)] at hvalue
  rw [dword, setDword, hvalue, BitVec.ofNat_toNat, BitVec.setWidth_eq]

theorem dword_congr (h : ∀ x, Within a 4 x → mem x = mem' x) : mem.dword a = mem'.dword a :=
  congrArg (BitVec.ofNat 32) (load_congr fun _ hi => h _ (within_add hi (by decide)))

theorem dword_setDword_outside (h : ∀ x, Within b 4 x → ¬ Within a 4 x) :
    (mem.setDword a value).dword b = mem.dword b :=
  congrArg (BitVec.ofNat 32) (load_store_outside h (by decide))

theorem setDword_outside (h : ¬ Within a 4 x) : mem.setDword a value x = mem x := store_outside h

/-- The fields of two records are the same or have no byte in common. -/
theorem field_slot (f : TssField) (hi : i < maxNoProcs) (hj : j < maxNoProcs) (hne : i ≠ j)
    (hx : Within (field (slot table i) f) 4 x) : ¬ Within (field (slot table j) f) 4 x := by
  intro hx'
  obtain ⟨k, hk, rfl⟩ := hx.exists_add
  obtain ⟨l, hl, heq⟩ := hx'.exists_add
  have hplace : ∀ i k, field (slot table i) f + BitVec.ofNat 32 k =
      kernelBase + (table + f.offset) + BitVec.ofNat 32 (sizeofTss.toNat * i + k) := by
    intro i k
    rw [field, slot, add_right_comm table, ← BitVec.add_assoc, BitVec.add_assoc, BitVec.ofNat_add]
  rw [hplace, hplace] at heq
  have hnat := congrArg BitVec.toNat ((BitVec.add_right_inj _).1 heq)
  have hsize : sizeofTss.toNat = 148 := rfl
  unfold maxNoProcs at hi hj
  rw [hsize, BitVec.toNat_ofNat, BitVec.toNat_ofNat, Nat.mod_eq_of_lt (by omega),
    Nat.mod_eq_of_lt (by omega)] at hnat
  omega

/-! ## The copy -/

/-- Neither message has a byte in common with one of the two fields that are written to. -/
def Spared (mem : Memory) (sender receiver : Ptr) : Prop :=
  ∀ process ∈ [sender, receiver], ∀ x, Within (field process .eaxReg) 4 x →
    ¬ Within (mem.message sender) (mem.exchangeBytes sender receiver).toNat x ∧
      ¬ Within (mem.message receiver) (mem.exchangeBytes sender receiver).toNat x

/-- Just the message has been copied, and the two processes and the caller are told how much
it was. -/
structure Exchanged (mem mem' : Memory) (returned : Word) (sender receiver : Ptr) : Prop where
  bytes : returned.toNat =
    min (mem.dword (field sender .ecxReg)).toNat (mem.dword (field receiver .ecxReg)).toNat
  message : ∀ i < returned.toNat, mem' (mem.message receiver + BitVec.ofNat 32 i) =
    mem (mem.message sender + BitVec.ofNat 32 i)
  frame : ∀ x, ¬ Within (mem.message receiver) returned.toNat x →
    ¬ Within (field sender .eaxReg) 4 x → ¬ Within (field receiver .eaxReg) 4 x → mem' x = mem x
  senderEax : mem'.dword (field sender .eaxReg) = returned
  receiverEax : mem'.dword (field receiver .eaxReg) = returned

theorem exchangeBytes_toNat (mem : Memory) (sender receiver : Ptr) :
    (mem.exchangeBytes sender receiver).toNat =
      min (mem.dword (field sender .ecxReg)).toNat (mem.dword (field receiver .ecxReg)).toNat := by
  unfold exchangeBytes
  dsimp only
  split
  next hlt =>
    rw [Nat.min_eq_right (Nat.le_of_lt (BitVec.lt_def.1 hlt))]
  next hge =>
    rw [Nat.min_eq_left (Nat.not_lt.1 fun hlt => hge (BitVec.lt_def.2 hlt))]

/-- The memory when the two `eax_reg` have been written. -/
def withEax (mem : Memory) (sender receiver : Ptr) : Memory :=
  let ecx := mem.exchangeBytes sender receiver
  (mem.setDword (field sender .eaxReg) ecx).setDword (field receiver .eaxReg) ecx

theorem withEax_outside (hs : ¬ Within (field sender .eaxReg) 4 x)
    (hr : ¬ Within (field receiver .eaxReg) 4 x) : mem.withEax sender receiver x = mem x :=
  (setDword_outside hr).trans (setDword_outside hs)

theorem exchangeData_eq (hapart : Kernel.Apart (mem.message sender) (mem.message receiver)
    (mem.exchangeBytes sender receiver).toNat) :
    mem.exchangeData sender receiver =
      (Kernel.moveBytes (mem.withEax sender receiver) (mem.message sender) (mem.message receiver)
        (mem.exchangeBytes sender receiver).toNat, mem.exchangeBytes sender receiver) := by
  rw [← Kernel.copy_eq hapart]
  rfl

theorem Spared.source (h : mem.Spared sender receiver)
    (hx : Within (mem.message sender) (mem.exchangeBytes sender receiver).toNat x) :
    mem.withEax sender receiver x = mem x :=
  withEax_outside (fun hin => (h sender (by simp) x hin).1 hx)
    fun hin => (h receiver (by simp) x hin).1 hx

theorem Spared.eax (h : mem.Spared sender receiver) {process : Ptr}
    (hp : process ∈ [sender, receiver]) (src : Word) :
    Memory.dword (Kernel.moveBytes (mem.withEax sender receiver) src (mem.message receiver)
        (mem.exchangeBytes sender receiver).toNat) (field process .eaxReg) =
      (mem.withEax sender receiver).dword (field process .eaxReg) :=
  dword_congr fun x hx => if_neg (h process hp x hx).2

/-- Just the message is copied if it is nowhere near the fields that are written to. -/
theorem exchange_data_copies (mem : Memory) (table : Ptr) (i j : Nat) (hi : i < maxNoProcs)
    (hj : j < maxNoProcs)
    (hapart : Kernel.Apart (mem.message (slot table i)) (mem.message (slot table j))
      (mem.exchangeBytes (slot table i) (slot table j)).toNat)
    (hspared : mem.Spared (slot table i) (slot table j)) :
    Exchanged mem (mem.exchangeData (slot table i) (slot table j)).1
      (mem.exchangeData (slot table i) (slot table j)).2 (slot table i) (slot table j) := by
  rw [exchangeData_eq hapart]
  refine ⟨exchangeBytes_toNat .., fun k hk => ?_, fun x hx hs hr => ?_, ?_, ?_⟩
  · have hlt := (mem.exchangeBytes (slot table i) (slot table j)).isLt
    dsimp only at hk ⊢
    rw [Kernel.moveBytes_at, BitVec.toNat_ofNat, Nat.mod_eq_of_lt (hk.trans hlt), if_pos hk]
    exact hspared.source (within_add hk (Nat.le_of_lt hlt))
  · exact (if_neg hx).trans (withEax_outside hs hr)
  · rw [hspared.eax (by simp)]
    cases Decidable.em (i = j) with
    | inl heq =>
      rw [heq]
      exact dword_setDword ..
    | inr hne =>
      have hother : (mem.withEax (slot table i) (slot table j)).dword (field (slot table i) .eaxReg) =
          (mem.setDword (field (slot table i) .eaxReg)
            (mem.exchangeBytes (slot table i) (slot table j))).dword (field (slot table i) .eaxReg) :=
        dword_setDword_outside fun x hx => field_slot _ hi hj hne hx
      rw [hother]
      exact dword_setDword ..
  · rw [hspared.eax (by simp)]
    exact dword_setDword ..

/-- A memory with two processes that have all of it as their data segment.  One sends the four
bytes at `src`, the other has its buffer at `dst`. -/
def flatPair (src dst : Word) : Memory :=
  let descriptor : Memory := store (fun _ => 0) (gdtBase + 0x30) 8 0xcf92000000ffff
  [(slot 0x1000 0, src), (slot 0x1000 1, dst)].foldl (fun mem (process, edx) =>
    let mem : Memory := store mem (field process .dsReg) 2 0x30
    (mem.setDword (field process .ecxReg) 4).setDword (field process .edxReg) edx) descriptor

/-- Four bytes go from one buffer to another. -/
theorem exchange_data_copies_pair :
    Exchanged (flatPair 0x200000 0x300000)
      ((flatPair 0x200000 0x300000).exchangeData (slot 0x1000 0) (slot 0x1000 1)).1
      ((flatPair 0x200000 0x300000).exchangeData (slot 0x1000 0) (slot 0x1000 1)).2 (slot 0x1000 0) (slot 0x1000 1) := by
  have hsrc : (flatPair 0x200000 0x300000).message (slot 0x1000 0) = 0x200000 := by decide +kernel
  have hdst : (flatPair 0x200000 0x300000).message (slot 0x1000 1) = 0x300000 := by decide +kernel
  have hbytes : (flatPair 0x200000 0x300000).exchangeBytes (slot 0x1000 0) (slot 0x1000 1) = 4 := by
    decide +kernel
  refine exchange_data_copies _ 0x1000 0 1 (by decide) (by decide) ?_ ?_
  · rw [hsrc, hdst, hbytes]
    exact Kernel.apart_of_disjoint (by decide) (by decide) (by decide)
  · intro process hp x hx
    rw [hsrc, hdst, hbytes]
    have hfar : ∀ i < 2, ∀ k < 4,
        ¬ Within 0x200000 4 (field (slot 0x1000 i) .eaxReg + BitVec.ofNat 32 k) ∧
          ¬ Within 0x300000 4 (field (slot 0x1000 i) .eaxReg + BitVec.ofNat 32 k) := by decide +kernel
    obtain ⟨k, hk, rfl⟩ := hx.exists_add
    rcases List.mem_pair.1 hp with rfl | rfl
    · exact hfar 0 (by decide) k hk
    · exact hfar 1 (by decide) k hk

/-- The buffer of the receiver is its own `eax_reg`. -/
theorem exchange_data_aliased :
    let mem := flatPair 0x200000 (field (slot 0x1000 1) .eaxReg)
    mem.message (slot 0x1000 0) = 0x200000 ∧ mem.message (slot 0x1000 1) = field (slot 0x1000 1) .eaxReg ∧
      mem.exchangeBytes (slot 0x1000 0) (slot 0x1000 1) = 4 ∧
      Kernel.Apart (mem.message (slot 0x1000 0)) (mem.message (slot 0x1000 1)) 4 ∧
      ¬ Exchanged mem (mem.exchangeData (slot 0x1000 0) (slot 0x1000 1)).1
        (mem.exchangeData (slot 0x1000 0) (slot 0x1000 1)).2 (slot 0x1000 0) (slot 0x1000 1) := by
  dsimp only
  have hsrc : (flatPair 0x200000 (field (slot 0x1000 1) .eaxReg)).message (slot 0x1000 0) = 0x200000 := by
    decide +kernel
  have hdst : (flatPair 0x200000 (field (slot 0x1000 1) .eaxReg)).message (slot 0x1000 1) =
      field (slot 0x1000 1) .eaxReg := by decide +kernel
  refine ⟨hsrc, hdst, by decide +kernel, ?_, fun h => ?_⟩
  · rw [hsrc, hdst]
    exact Kernel.apart_of_disjoint (by decide) (by decide) (by decide)
  · exact absurd h.receiverEax (by decide +kernel)

/-! ## The kernel's records -/

variable {s : Kernel}

/-- The record of a process and the descriptor of its data segment are in the memory. -/
structure Holds (s : Kernel) (mem : Memory) (process : Ptr) : Prop where
  ecxReg : mem.dword (field process .ecxReg) = (s.regs process).ecxReg
  edxReg : mem.dword (field process .edxReg) = (s.regs process).edxReg
  dsReg : mem.word (field process .dsReg) = (s.regs process).dsReg
  base1 : mem.word (mem.descriptor process + 2) = (s.gdt (s.dataIndex process)).base1
  base2 : mem (mem.descriptor process + 4) = (s.gdt (s.dataIndex process)).base2
  base3 : mem (mem.descriptor process + 7) = (s.gdt (s.dataIndex process)).base3

theorem Holds.message (h : Holds s mem sender) :
    mem.message sender = s.dataBase sender + (s.regs sender).edxReg := by
  unfold Memory.message dataBase Kernel.dataBase
  dsimp only
  rw [h.edxReg, h.base1, h.base2, h.base3]

theorem Holds.exchangeBytes (hs : Holds s mem sender) (hr : Holds s mem receiver) :
    mem.exchangeBytes sender receiver = s.exchangeBytes sender receiver := by
  unfold Memory.exchangeBytes Kernel.exchangeBytes
  dsimp only
  rw [hs.ecxReg, hr.ecxReg]

/-- The program does to the memory of the machine what `exchange_data` does to the memory and the
registers of the kernel. -/
theorem exchangeData_refines (hi : i < maxNoProcs) (hj : j < maxNoProcs)
    (hs : Holds s mem (slot table i)) (hr : Holds s mem (slot table j))
    (hmem : ∀ x, ¬ Within (field (slot table i) .eaxReg) 4 x →
      ¬ Within (field (slot table j) .eaxReg) 4 x → s.mem x = mem x)
    (hapart : Kernel.Apart (mem.message (slot table i)) (mem.message (slot table j))
      (mem.exchangeBytes (slot table i) (slot table j)).toNat)
    (hspared : mem.Spared (slot table i) (slot table j)) :
    let after := s.exchangeData (slot table i) (slot table j)
    let result := mem.exchangeData (slot table i) (slot table j)
    (∀ x, ¬ Within (field (slot table i) .eaxReg) 4 x →
      ¬ Within (field (slot table j) .eaxReg) 4 x → after.mem x = result.1 x) ∧
      (∀ process ∈ [slot table i, slot table j],
        (after.regs process).eaxReg = result.1.dword (field process .eaxReg)) ∧
      s.exchangeBytes (slot table i) (slot table j) = result.2 := by
  dsimp only
  have hdone := exchange_data_copies mem table i j hi hj hapart hspared
  have hbytes := hs.exchangeBytes hr
  refine ⟨fun x hxs hxr => ?_, fun process hp => ?_, hbytes.symm⟩
  · have hcopy : (s.exchangeData (slot table i) (slot table j)).mem = Kernel.moveBytes s.mem
        (mem.message (slot table i)) (mem.message (slot table j))
        (mem.exchangeBytes (slot table i) (slot table j)).toNat := by
      rw [← Kernel.copy_eq hapart, hs.message, hr.message, hbytes]
      rfl
    rw [hcopy]
    cases Decidable.em (Within (mem.message (slot table j))
      (mem.exchangeBytes (slot table i) (slot table j)).toNat x) with
    | inl hin =>
      obtain ⟨k, hk, rfl⟩ := hin.exists_add
      have hlt := (mem.exchangeBytes (slot table i) (slot table j)).isLt
      have hsrc : Within (mem.message (slot table i))
          (mem.exchangeBytes (slot table i) (slot table j)).toNat
          (mem.message (slot table i) + BitVec.ofNat 32 k) := within_add hk (Nat.le_of_lt hlt)
      rw [hdone.message k hk, Kernel.moveBytes_at, BitVec.toNat_ofNat,
        Nat.mod_eq_of_lt (hk.trans hlt), if_pos hk]
      exact hmem _ (fun h => (hspared _ (by simp) _ h).1 hsrc)
        fun h => (hspared _ (by simp) _ h).1 hsrc
    | inr hout =>
      rw [hdone.frame x hout hxs hxr]
      exact (if_neg hout).trans (hmem x hxs hxr)
  · have heax : ((s.exchangeData (slot table i) (slot table j)).regs process).eaxReg =
        s.exchangeBytes (slot table i) (slot table j) := by
      unfold Kernel.exchangeData Kernel.setEax Kernel.setRegs
      dsimp only
      cases Decidable.em (process = slot table j) with
      | inl heq => rw [heq, update_self]
      | inr hne =>
        have heq : process = slot table i := (List.mem_pair.1 hp).resolve_right hne
        rw [update_of_ne hne, heq, update_self]
    rw [heax, ← hbytes]
    rcases List.mem_pair.1 hp with rfl | rfl
    · exact hdone.senderEax.symm
    · exact hdone.receiverEax.symm

end Memory

end Mycrokernel
