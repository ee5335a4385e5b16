import Mycrokernel.Kernel.Const
import Mycrokernel.Usr.Number
import Mycrokernel.Lib.WordStack

/-!
# The machine of the boot loader

`boot/512.asm` runs in real mode, with 16-bit registers and with segments of 64 KB that overlap.
`Cpu` holds the registers that the routines for loading use, and the memory: the stack lies in it, and
so does what is loaded.

The BIOS is not part of the program.  `Loader.int13` stands for its disk services, and `Serves` says
what the loader relies on: a request for a sector of the disk succeeds and keeps the registers but
`ax`, and outside of the buffer the words on the stack and the program stay as they are.
-/

namespace Mycrokernel

namespace Boot

open WordStack
open Bytes (Within)

/-! ## Registers -/

/-- The lower half of a register. -/
def low (x : BitVec 16) : Byte := x.setWidth 8

/-- The upper half of a register. -/
def high (x : BitVec 16) : Byte := x.extractLsb' 8 8

def withLow (x : BitVec 16) (b : Byte) : BitVec 16 := high x ++ b

def withHigh (x : BitVec 16) (b : Byte) : BitVec 16 := b ++ low x

@[simp] theorem low_append (a b : Byte) : low (a ++ b) = b := BitVec.setWidth_append_eq_right

@[simp] theorem high_append (a b : Byte) : high (a ++ b) = a := BitVec.extractLsb'_append_eq_left

theorem high_append_low (x : BitVec 16) : high x ++ low x = x := append_bytes x

/-- What `int 13h` finds in the registers. -/
structure Request where
  ah : Byte
  al : Byte
  ch : Byte
  cl : Byte
  dh : Byte
  dl : Byte
  es : BitVec 16
  bx : BitVec 16
deriving DecidableEq

namespace Request

/-- The cylinder: `ch`, and two more bits in `cl`. -/
def cylinder (r : Request) : Nat := r.ch.toNat + 256 * (r.cl.toNat / 64)

def head (r : Request) : Nat := r.dh.toNat

/-- The sector, counted from 1: the other bits of `cl`. -/
def sector (r : Request) : Nat := r.cl.toNat % 64

/-- The address of the buffer. -/
def address (r : Request) : Nat := 16 * r.es.toNat + r.bx.toNat

end Request

/-- The registers, the carry flag and the memory. -/
structure Cpu where
  ax : BitVec 16
  bx : BitVec 16
  cx : BitVec 16
  dx : BitVec 16
  si : BitVec 16
  di : BitVec 16
  es : BitVec 16
  ss : BitVec 16
  sp : BitVec 16
  carry : Bool
  mem : Word → Byte
  /-- History: the calls of `int 13h`, the latest first. -/
  requests : List Request

/-- How the loader can fail. -/
inductive Stop where
  /-- At `lderr`: it has printed `Load Error!` and halts. -/
  | lderr
  /-- It does not go on as the program says: a `ret` has not led behind the call, or the program has
  been written over. -/
  | astray
  /-- A loop has no turns left. -/
  | endless
deriving DecidableEq

/-- The address of an offset in a segment. -/
def physical (segment offset : BitVec 16) : Word :=
  segment.setWidth 32 <<< 4 + offset.setWidth 32

theorem toNat_physical (segment offset : BitVec 16) :
    (physical segment offset).toNat = 16 * segment.toNat + offset.toNat := by
  have hsegment := segment.isLt
  have hoffset := offset.isLt
  rw [physical, BitVec.toNat_add, BitVec.toNat_shiftLeft, BitVec.toNat_setWidth,
    BitVec.toNat_setWidth, Nat.shiftLeft_eq]
  omega

theorem physical_injective (segment : BitVec 16) : Function.Injective (physical segment) := by
  intro a b heq
  have htoNat := congrArg BitVec.toNat heq
  rw [toNat_physical, toNat_physical] at htoNat
  exact BitVec.eq_of_toNat_eq (by omega)

namespace Cpu

def al (m : Cpu) : Byte := low m.ax

def ch (m : Cpu) : Byte := high m.cx

def cl (m : Cpu) : Byte := low m.cx

def dh (m : Cpu) : Byte := high m.dx

def dl (m : Cpu) : Byte := low m.dx

/-- The request that the registers make. -/
def request (m : Cpu) : Request where
  ah := high m.ax
  al := m.al
  ch := m.ch
  cl := m.cl
  dh := m.dh
  dl := m.dl
  es := m.es
  bx := m.bx

/-- The address of the buffer, `es:bx`. -/
def buffer (m : Cpu) : Word := physical m.es m.bx

/-! ## Moves -/

def setAx (m : Cpu) (x : BitVec 16) : Cpu := { m with ax := x }

def setAh (m : Cpu) (b : Byte) : Cpu := { m with ax := withHigh m.ax b }

def setAl (m : Cpu) (b : Byte) : Cpu := { m with ax := withLow m.ax b }

def setCh (m : Cpu) (b : Byte) : Cpu := { m with cx := withHigh m.cx b }

def setCl (m : Cpu) (b : Byte) : Cpu := { m with cx := withLow m.cx b }

def setDh (m : Cpu) (b : Byte) : Cpu := { m with dx := withHigh m.dx b }

@[simp] theorem setAx_ax (m : Cpu) (x : BitVec 16) : (m.setAx x).ax = x := rfl

@[simp] theorem setAx_setAx (m : Cpu) (x y : BitVec 16) : (m.setAx x).setAx y = m.setAx y := rfl

@[simp] theorem setAx_self (m : Cpu) : m.setAx m.ax = m := rfl

@[simp] theorem ch_setCh (m : Cpu) (b : Byte) : (m.setCh b).ch = b := high_append b _

@[simp] theorem setCh_setCh (m : Cpu) (a b : Byte) : (m.setCh a).setCh b = m.setCh b := by
  simp [setCh, withHigh]

@[simp] theorem setCh_ch (m : Cpu) : m.setCh m.ch = m := by
  simp [setCh, withHigh, ch, high_append_low]

@[simp] theorem cl_setCl (m : Cpu) (b : Byte) : (m.setCl b).cl = b := low_append _ b

@[simp] theorem setCl_setCl (m : Cpu) (a b : Byte) : (m.setCl a).setCl b = m.setCl b := by
  simp [setCl, withLow]

@[simp] theorem dh_setDh (m : Cpu) (b : Byte) : (m.setDh b).dh = b := high_append b _

@[simp] theorem setDh_setDh (m : Cpu) (a b : Byte) : (m.setDh a).setDh b = m.setDh b := by
  simp [setDh, withHigh]

@[simp] theorem setDh_dh (m : Cpu) : m.setDh m.dh = m := by
  simp [setDh, withHigh, dh, high_append_low]

/-! ## The stack -/

def push (m : Cpu) (x : BitVec 16) : Cpu :=
  { m with sp := m.sp - 2, mem := setWord (physical m.ss) m.mem (m.sp - 2) x }

@[simp] theorem push_ax (m : Cpu) (x : BitVec 16) : (m.push x).ax = m.ax := rfl

@[simp] theorem push_bx (m : Cpu) (x : BitVec 16) : (m.push x).bx = m.bx := rfl

@[simp] theorem push_cx (m : Cpu) (x : BitVec 16) : (m.push x).cx = m.cx := rfl

@[simp] theorem push_dx (m : Cpu) (x : BitVec 16) : (m.push x).dx = m.dx := rfl

@[simp] theorem push_si (m : Cpu) (x : BitVec 16) : (m.push x).si = m.si := rfl

@[simp] theorem push_di (m : Cpu) (x : BitVec 16) : (m.push x).di = m.di := rfl

@[simp] theorem push_es (m : Cpu) (x : BitVec 16) : (m.push x).es = m.es := rfl

@[simp] theorem push_ss (m : Cpu) (x : BitVec 16) : (m.push x).ss = m.ss := rfl

@[simp] theorem push_sp (m : Cpu) (x : BitVec 16) : (m.push x).sp = m.sp - 2 := rfl

@[simp] theorem push_requests (m : Cpu) (x : BitVec 16) : (m.push x).requests = m.requests := rfl

/-- The word at the top of the stack, and the machine without it. -/
def pop (m : Cpu) : BitVec 16 × Cpu :=
  (word (physical m.ss) m.mem m.sp, { m with sp := m.sp + 2 })

/-- The words at the top of the stack. -/
def Stacked (m : Cpu) (xs : List (BitVec 16)) : Prop := Holds (physical m.ss) m.mem m.sp xs

/-- `call`, with the offset behind it. -/
def call (m : Cpu) (behind : BitVec 16) (routine : Cpu → Except Stop Cpu) : Except Stop Cpu := do
  let m ← routine (m.push behind)
  -- `ret`
  let (ip, m) := m.pop
  if ip = behind then pure m else throw .astray

end Cpu

/-! ## The BIOS -/

/-- `_512_BASE`, where the program has moved itself to. -/
def base512 : Word := 0x500

/-- The bytes of the program. -/
def programSize : Nat := 512

/-- What is not in the source: the BIOS, and the offsets behind the calls in `loop_load_again`. -/
structure Loader where
  /-- `int 13h`. -/
  int13 : Cpu → Cpu
  behindChs : BitVec 16
  behindLoadSector : BitVec 16

/-- The program has not been written over. -/
def Cpu.Intact (m m' : Cpu) : Prop :=
  ∀ i < programSize, m'.mem (base512 + BitVec.ofNat 32 i) = m.mem (base512 + BitVec.ofNat 32 i)

instance (m m' : Cpu) : Decidable (m.Intact m') := Nat.decidableBallLT programSize _

/-- `int 13h`.  The program goes on if it is still there. -/
def Loader.interrupt (l : Loader) (m : Cpu) : Except Stop Cpu :=
  let m' := { l.int13 m with requests := m.request :: m.requests }
  if m.Intact m' then .ok m' else .error .astray

/-- The request is for one sector of a disk with 80 cylinders of two heads, and 18 sectors each. -/
structure Request.Valid (r : Request) : Prop where
  function : r.ah = 2
  count : r.al = 1
  cylinder : r.cylinder < 80
  head : r.head < 2
  first : 1 ≤ r.sector
  last : r.sector ≤ 18

/-- The address is one of the program, or of the words on the stack. -/
def Cpu.InUse (m : Cpu) (a : Word) : Prop :=
  (∃ i < programSize, a = base512 + BitVec.ofNat 32 i) ∨ ∃ offset, m.sp ≤ offset ∧ a = physical m.ss offset

/-- The BIOS does what it is asked for. -/
structure Loader.Serves (l : Loader) : Prop where
  /-- The carry flag stands for an error. -/
  succeeds : ∀ m, m.request.Valid → (l.int13 m).carry = false
  /-- The registers but `ax` are preserved. -/
  preserves : ∀ m, m.request.Valid → l.int13 m =
    { m with ax := (l.int13 m).ax, carry := (l.int13 m).carry, mem := (l.int13 m).mem,
             requests := (l.int13 m).requests }
  /-- What is in use changes in the buffer only. -/
  memory : ∀ m, m.request.Valid → ∀ a, m.InUse a → ¬ Within m.buffer 512 a →
    (l.int13 m).mem a = m.mem a

/-! ## What the operations do -/

variable {l : Loader} {m m' : Cpu} {x behind : BitVec 16} {xs : List (BitVec 16)}
  {routine : Cpu → Except Stop Cpu}

theorem ok_bind (m : Cpu) (f : Cpu → Except Stop Cpu) : ((Except.ok m : Except Stop Cpu) >>= f) = f m :=
  rfl

namespace Cpu

theorem Stacked.push (h : m.Stacked xs) (hroom : 2 * xs.length + 2 ≤ 2 ^ 16) :
    (m.push x).Stacked (x :: xs) :=
  Holds.push h (physical_injective m.ss) hroom

/-- A push leaves the words that are there. -/
theorem Stacked.keep (h : m.Stacked xs) (hroom : 2 * xs.length + 2 ≤ 2 ^ 16) :
    Holds (physical m.ss) (m.push x).mem m.sp xs :=
  Holds.behind (h.push hroom)

/-- A pop takes the first word. -/
theorem Stacked.pop (h : m.Stacked (x :: xs)) : m.pop = (x, { m with sp := m.sp + 2 }) :=
  congrArg (·, _) h.head

/-- A routine that leaves the stack as it has found it comes back. -/
theorem call_eq (h : routine (m.push behind) = .ok m') (hsp : m'.sp = m.sp - 2)
    (htop : m'.Stacked (behind :: xs)) : m.call behind routine = .ok { m' with sp := m.sp } := by
  have hback : m.sp - 2 + 2 = m.sp := BitVec.sub_add_cancel m.sp 2
  rw [call, h, ok_bind, htop.pop, hsp, hback]
  exact if_pos rfl

end Cpu

/-- The buffer is apart from the program, and from the words on the stack. -/
structure Cpu.BufferClear (m : Cpu) (words : Nat) : Prop where
  program : ∀ i < programSize, ¬ Within m.buffer 512 (base512 + BitVec.ofNat 32 i)
  stack : ∀ i < 2 * words, ¬ Within m.buffer 512 (physical m.ss (m.sp + BitVec.ofNat 16 i))

theorem Loader.interrupt_eq
    (hintact : m.Intact { l.int13 m with requests := m.request :: m.requests }) :
    l.interrupt m = .ok { l.int13 m with requests := m.request :: m.requests } := by
  unfold Loader.interrupt
  exact if_pos hintact

/-- A request is served, and the program and the words on the stack are still there. -/
theorem Loader.Serves.interrupt (hl : l.Serves) (hvalid : m.request.Valid) (hstack : m.Stacked xs)
    (hroom : m.sp.toNat + 2 * xs.length ≤ 2 ^ 16) (hclear : m.BufferClear xs.length) :
    ∃ ax mem, l.interrupt m =
        .ok { m with ax, mem, carry := false, requests := m.request :: m.requests } ∧
      Holds (physical m.ss) mem m.sp xs := by
  have hmemory := hl.memory m hvalid
  have hintact : m.Intact { l.int13 m with requests := m.request :: m.requests } := by
    intro i hi
    have huse : m.InUse (base512 + BitVec.ofNat 32 i) := .inl ⟨i, hi, rfl⟩
    exact hmemory _ huse (hclear.program i hi)
  have hpreserved := congrArg (fun m' : Cpu => { m' with requests := m.request :: m.requests })
    (hl.preserves m hvalid)
  dsimp only at hpreserved
  refine ⟨(l.int13 m).ax, (l.int13 m).mem, ?_, ?_⟩
  · rw [Loader.interrupt_eq hintact, hpreserved, hl.succeeds m hvalid]
  · refine Holds.congr hstack fun i hi => ?_
    have hin : m.sp ≤ m.sp + BitVec.ofNat 16 i := by
      rw [BitVec.le_def, BitVec.toNat_add, BitVec.toNat_ofNat]
      omega
    exact hmemory _ (.inr ⟨_, hin, rfl⟩) (hclear.stack i hi)

end Boot

end Mycrokernel
