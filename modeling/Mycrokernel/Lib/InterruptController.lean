import Mathlib.Logic.Function.Basic
import Mathlib.Data.List.Find

/-!
# The 8259A interrupt controller

A controller has eight lines.  A line that is raised is requested until the
processor acknowledges it, and in service from then on until the end of the
interrupt is commanded.  Lines with lower numbers go first: a line is offered to
the processor when it is requested, its bit in the mask is clear, and no line that
goes before it, nor the line itself, is in service.

The initialization words ICW1 to ICW4 come one after the other, the first at the
command port and the others at the data port; what `expects` says is whose turn it
is.  A `Pair` is a master with a slave on its line 2.
-/

namespace InterruptController

/-- What a controller takes the next byte at its data port for. -/
inductive Expects where
  /-- ICW2.  ICW1 has said whether the controller is single, and whether ICW4 comes. -/
  | vector (single icw4 : Bool)
  /-- ICW3. -/
  | wiring (icw4 : Bool)
  /-- ICW4. -/
  | mode
  /-- The initialization is over, and the byte is the new mask. -/
  | mask
deriving DecidableEq

structure Controller where
  mask : BitVec 8
  request : BitVec 8
  service : BitVec 8
  vector : BitVec 8
  wiring : BitVec 8
  mode : BitVec 8
  expects : Expects
deriving DecidableEq

/-- A set of lines with the line `n` put in or taken out. -/
def setLine (lines : BitVec 8) (n : Nat) (b : Bool) : BitVec 8 :=
  if b then lines ||| BitVec.twoPow 8 n else lines &&& ~~~ BitVec.twoPow 8 n

theorem getLsbD_setLine (lines : BitVec 8) {n i : Nat} {b : Bool} (hi : i < 8) :
    (setLine lines n b).getLsbD i = if i = n then b else lines.getLsbD i := by
  cases b with
  | true =>
    simp only [setLine, if_true, BitVec.getLsbD_or, BitVec.getLsbD_twoPow]
    by_cases hin : i = n
    · simp [hin, hin ▸ hi]
    · simp [hin, Ne.symm hin]
  | false =>
    simp only [setLine, Bool.false_eq_true, if_false, BitVec.getLsbD_and, BitVec.getLsbD_not,
      BitVec.getLsbD_twoPow]
    by_cases hin : i = n
    · simp [hin, hin ▸ hi]
    · simp [hin, Ne.symm hin, hi]

namespace Controller

variable {c c' : Controller} {n v : Nat}

/-- The first line that is in service or asks to be. -/
def first (c : Controller) : Option Nat :=
  (List.range 8).find? fun n => c.service.getLsbD n || c.request.getLsbD n && !c.mask.getLsbD n

/-- The line that is offered to the processor. -/
def pending (c : Controller) : Option Nat := c.first.filter fun n => !c.service.getLsbD n

/-- A device raises a line. -/
def raise (c : Controller) (n : Nat) : Controller := { c with request := setLine c.request n true }

/-- The processor acknowledges the line `n`.  In the automatic mode the interrupt is over. -/
def acknowledge (c : Controller) (n : Nat) : Controller :=
  { c with
    request := setLine c.request n false
    service := if c.mode.getLsbD 1 then c.service else setLine c.service n true }

/-- The vector of a line: the upper five bits are those of ICW2. -/
def vectorOf (c : Controller) (n : Nat) : Nat := c.vector.toNat / 8 * 8 + n

/-- The unspecific end of an interrupt: the first line in service is over. -/
def endOfInterrupt (c : Controller) : Controller :=
  match (List.range 8).find? fun n => c.service.getLsbD n with
  | some n => { c with service := setLine c.service n false }
  | none => c

/-- A byte at the command port: ICW1, or the unspecific end of an interrupt.  No other
command is modelled. -/
def command (c : Controller) (b : BitVec 8) : Option Controller :=
  if b.getLsbD 4 then
    some { c with
      mask := 0
      request := 0
      mode := if b.getLsbD 0 then c.mode else 0
      expects := .vector (b.getLsbD 1) (b.getLsbD 0) }
  else if b = 0x20 then some c.endOfInterrupt
  else none

/-- A byte at the data port. -/
def data (c : Controller) (b : BitVec 8) : Controller :=
  match c.expects with
  | .vector single icw4 =>
    { c with
      vector := b
      expects := if !single then .wiring icw4 else if icw4 then .mode else .mask }
  | .wiring icw4 => { c with wiring := b, expects := if icw4 then .mode else .mask }
  | .mode => { c with mode := b, expects := .mask }
  | .mask => { c with mask := b }

/-! ## What is offered -/

/-- While no line is in service, the first line is offered that is requested and not masked. -/
theorem pending_of_idle (h : c.service = 0) :
    c.pending = (List.range 8).find? fun n => c.request.getLsbD n && !c.mask.getLsbD n := by
  simp only [pending, first, h, BitVec.ofNat_eq_ofNat, BitVec.getLsbD_zero, Bool.false_or,
    Bool.not_false]
  cases (List.range 8).find? fun n => c.request.getLsbD n && !c.mask.getLsbD n with
  | none => rfl
  | some n => rfl

/-- A controller that masks all lines offers none. -/
theorem pending_of_masked (h : c.service = 0) (hmask : c.mask = 0xff) : c.pending = none := by
  rw [pending_of_idle h, List.find?_range_eq_none]
  intro n hn
  have hall : ∀ n < 8, (0xff : BitVec 8).getLsbD n = true := by decide
  rw [hmask, hall n hn, Bool.not_true, Bool.and_false, Bool.not_false]

/-! ## An interrupt and its end -/

theorem endOfInterrupt_idle (h : c.service = 0) : c.endOfInterrupt = c := by
  have hnone : (List.range 8).find? (fun n => c.service.getLsbD n) = none := by
    rw [List.find?_range_eq_none]
    simp [h]
  rw [endOfInterrupt, hnone]

/-- An interrupt that is acknowledged while none is in service, and then ended, takes back the
request and leaves no other trace. -/
theorem endOfInterrupt_acknowledge (h : c.service = 0) (hmode : c.mode.getLsbD 1 = false)
    (hn : n < 8) :
    (c.acknowledge n).endOfInterrupt = { c with request := setLine c.request n false } := by
  have hline : ∀ i < 8, (setLine 0 n true).getLsbD i = decide (i = n) := by
    intro i hi
    rw [getLsbD_setLine _ hi]
    by_cases hin : i = n <;> simp [hin]
  have hfind : (List.range 8).find? (fun i => (setLine 0 n true).getLsbD i) = some n := by
    rw [List.find?_range_eq_some]
    refine ⟨by rw [hline n hn, decide_eq_true rfl], List.mem_range.2 hn, fun i hi => ?_⟩
    rw [hline i (by omega)]
    simp [Nat.ne_of_lt hi]
  have hback : setLine (setLine 0 n true) n false = 0 := by
    apply BitVec.eq_of_getLsbD_eq
    intro i hi
    rw [getLsbD_setLine _ hi, hline i hi]
    by_cases hin : i = n <;> simp [hin]
  have hack : c.acknowledge n =
      { c with request := setLine c.request n false, service := setLine 0 n true } := by
    rw [acknowledge, hmode, if_neg (by decide), h]
  rw [hack, endOfInterrupt]
  dsimp only
  rw [hfind]
  dsimp only
  rw [hback, ← h]

end Controller

/-! ## Two controllers -/

/-- A master, and a slave on its line 2. -/
structure Pair where
  master : Controller
  slave : Controller
deriving DecidableEq

namespace Pair

variable {p : Pair} {n : Nat}

/-- The master, its line 2 driven by the slave. -/
def driven (p : Pair) : Controller :=
  { p.master with request := setLine p.master.request 2 p.slave.pending.isSome }

/-- A device raises a line: 0 to 7 are those of the master, 8 to 15 those of the slave. -/
def raise (p : Pair) (n : Nat) : Pair :=
  if n < 8 then { p with master := p.master.raise n } else { p with slave := p.slave.raise (n - 8) }

/-- The processor acknowledges an interrupt, and gets its vector. -/
def acknowledge (p : Pair) : Option (Nat × Pair) :=
  p.driven.pending.bind fun n =>
    if n = 2 then
      p.slave.pending.map fun k =>
        (p.slave.vectorOf k, { master := p.driven.acknowledge n, slave := p.slave.acknowledge k })
    else some (p.driven.vectorOf n, { p with master := p.driven.acknowledge n })

/-- The end of an interrupt is commanded to both. -/
def endOfInterrupt (p : Pair) : Pair where
  master := p.master.endOfInterrupt
  slave := p.slave.endOfInterrupt

/-- No interrupt is in service, the initialization is over, and the slave masks all lines. -/
structure Quiet (p : Pair) : Prop where
  master : p.master.service = 0
  slave : p.slave.service = 0
  manual : p.master.mode.getLsbD 1 = false
  masked : p.slave.mask = 0xff

theorem Quiet.raise (h : p.Quiet) (n : Nat) : (p.raise n).Quiet := by
  unfold Pair.raise
  split
  next => exact ⟨h.master, h.slave, h.manual, h.masked⟩
  next => exact ⟨h.master, h.slave, h.manual, h.masked⟩

theorem Quiet.endOfInterrupt (h : p.Quiet) : p.endOfInterrupt = p := by
  rw [Pair.endOfInterrupt, Controller.endOfInterrupt_idle h.master,
    Controller.endOfInterrupt_idle h.slave]

/-- Line 2 of the master is silent. -/
theorem Quiet.driven_request (h : p.Quiet) {i : Nat} (hi : i < 8) :
    p.driven.request.getLsbD i = (p.master.request.getLsbD i && i != 2) := by
  rw [driven, getLsbD_setLine _ hi, Controller.pending_of_masked h.slave h.masked]
  by_cases hi2 : i = 2 <;> simp [hi2]

/-- What is offered while all is quiet: the first request of the master that is not masked. -/
def offered (p : Pair) : Option Nat :=
  (List.range 8).find? fun n => (p.master.request.getLsbD n && n != 2) && !p.master.mask.getLsbD n

theorem Quiet.pending (h : p.Quiet) : p.driven.pending = p.offered := by
  rw [Controller.pending_of_idle (c := p.driven) h.master, offered]
  apply List.find?_congr
  intro n hn
  rw [h.driven_request (List.mem_range.1 hn)]
  rfl

/-- An interrupt from its acknowledgement to its end. -/
def interrupt (p : Pair) : Option (Nat × Pair) := p.acknowledge.map fun (v, p) => (v, p.endOfInterrupt)

/-- While all is quiet, an interrupt takes back the request that was offered. -/
theorem Quiet.interrupt (h : p.Quiet) : p.interrupt = p.offered.map fun n =>
    (p.master.vectorOf n,
      { p with master := { p.driven with request := setLine p.driven.request n false } }) := by
  rw [Pair.interrupt, Pair.acknowledge, h.pending]
  cases hn : p.offered with
  | none => rfl
  | some n =>
    have hoffered := List.find?_range_eq_some.1 hn
    have hn2 : n ≠ 2 := by
      rintro rfl
      simp at hoffered
    have hn8 : n < 8 := List.mem_range.1 hoffered.2.1
    rw [Option.bind_some, if_neg hn2, Option.map_some, Option.map_some]
    dsimp only [Pair.endOfInterrupt]
    rw [Controller.endOfInterrupt_acknowledge (c := p.driven) h.master h.manual hn8,
      Controller.endOfInterrupt_idle h.slave]
    rfl

end Pair

end InterruptController
