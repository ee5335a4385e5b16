import Mathlib.Algebra.Order.Ring.Nat
import Mathlib.Logic.Function.Basic

/-!
# Constants, addresses and flags

Addresses are the 32-bit words the C code casts pointers to.  A field of the
`tss_t` records is modelled as a map from addresses to values, so a store
through a pointer is an update of one map at one address, the null address
included.

`Layout` holds what the linker decides: where `idlestate`, the process table
and the two bitmaps lie.  Nothing depends on the addresses beyond their being
distinct and not null.
-/

namespace Mycrokernel

/-- A 32-bit machine word, `uint32_t`. -/
abbrev Word := BitVec 32

instance : LawfulBEq Word := inferInstance

/-- The low half of a word, as a number. -/
theorem toNat_and_ffff (w : Word) : (w &&& 0xffff).toNat = w.toNat % 0x10000 := by
  change (w &&& 0xffff#32).toNat = _
  rw [BitVec.toNat_and]
  exact Nat.and_two_pow_sub_one_eq_mod w.toNat 16

/-- The address of a `tss_t`. -/
abbrev Ptr := Word

/-- `NULL`. -/
def null : Ptr := 0

/-- `ANYPROC`, the sender a receive names when it accepts every process. -/
abbrev anyproc : Ptr := null

/-- `MAX_NO_PROCS`. -/
def maxNoProcs : Nat := 100

/-- `MAX_IRQ`. -/
def maxIrq : Nat := 15

/-- The number of entries of `featureTable`, which is declared with
`sizeof(uint32_t)` of them. -/
def featureTableSize : Nat := 4

/-- `KERNEL_BASE`. -/
def kernelBase : Word := 0x14800

/-- `sizeof(tss_t)`. -/
def sizeofTss : Word := 148

/-- The fuel of the loops that follow pointers.  A list that has not ended after as many
nodes as there are addresses never ends. -/
def walkFuel : Nat := 2 ^ 32

/-- What the linker decides. -/
class Layout where
  /-- `&idlestate`. -/
  idlestate : Ptr
  /-- `pproctab[i]`, the address of slot `i` of the process table. -/
  proctab : Nat → Ptr
  /-- `&gdtBitmap`. -/
  gdtBitmap : Word
  /-- `&pidBitmap`. -/
  pidBitmap : Word
  idlestate_ne_null : idlestate ≠ null
  proctab_ne_null : ∀ i < maxNoProcs, proctab i ≠ null
  proctab_ne_idlestate : ∀ i < maxNoProcs, proctab i ≠ idlestate
  proctab_inj : ∀ i < maxNoProcs, ∀ j < maxNoProcs, proctab i = proctab j → i = j

export Layout (idlestate proctab)

/-- A memory map, for examples. -/
@[reducible] def Layout.sample : Layout where
  idlestate := 0x1000
  proctab i := BitVec.ofNat 32 (0x2000 + 0x80 * i)
  gdtBitmap := 0x8000
  pidBitmap := 0x9000
  idlestate_ne_null := by decide
  proctab_ne_null := by decide +kernel
  proctab_ne_idlestate := by decide +kernel
  proctab_inj i hi j hj h := by
    have hnat := congrArg BitVec.toNat h
    simp only [maxNoProcs, BitVec.toNat_ofNat] at hi hj hnat
    omega

/-! ## Flags -/

namespace Flag

/-- State flag: the slot of the process table is free. -/
def empty : BitVec 8 := 1

/-- State flag: blocked in a receive. -/
def receiving : BitVec 8 := empty <<< 1

/-- State flag: blocked in a send. -/
def sending : BitVec 8 := receiving <<< 1

/-- Flag in `misc`: on the run queue. -/
def enqueued : BitVec 8 := 1

@[simp] theorem or_enqueued_and (m : BitVec 8) : ((m ||| enqueued) &&& enqueued != 0) = true := by
  revert m
  decide

@[simp] theorem and_not_enqueued_and (m : BitVec 8) :
    ((m &&& ~~~enqueued) &&& enqueued != 0) = false := by
  revert m
  decide

end Flag

/-! ## Error codes

The codes of `include/const.h`, as the unsigned `esi_reg` holds them. -/

namespace Err

def ok : Word := 0
def unknownSyscall : Word := -1
def invalidBuffer : Word := -2
def circularSend : Word := -3
def wouldBlock : Word := -4
def invalidFeature : Word := -5
def invalidIrq : Word := -6
def irqInUse : Word := -7
def processDied : Word := -8
def noPerms : Word := -9
def unavailable : Word := -10
def featureBusy : Word := -11
def beyondEndOfDevice : Word := -12
def notAta : Word := -13
def invalidAddress : Word := -14

end Err

end Mycrokernel
