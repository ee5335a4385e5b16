import Mathlib.Order.Basic
import Mycrokernel.Lib.InterruptController
import Mycrokernel.Kernel.Const

/-!
# Interrupt vectors

`start` programs the two interrupt controllers (`remap_pics`), hooks a task into
the IDT for each interrupt and each exception (`hook_int`), and unmasks two lines
of the master.  Every task of `hw_intrrpt` commands the end of an interrupt to both
controllers before it returns, also when a program has called it with `int`.

`Hardware` puts the controllers and the IDT together.  To the outside they are a
desk with two lines: the timer and the keyboard (`lines_delivered`).
-/

namespace Mycrokernel

open Function (update update_self update_of_ne)
open InterruptController (Controller Pair setLine getLsbD_setLine)

/-! ## The IDT -/

/-- `inttype_t`. -/
inductive IntType where
  | interrupt
  | trap
  | tss
deriving DecidableEq

/-- `idtdesc_t`. -/
structure IdtDesc where
  offset1 : BitVec 16 := 0
  selector : BitVec 16 := 0
  zero : BitVec 8 := 0
  type : BitVec 8 := 0
  offset2 : BitVec 16 := 0
deriving DecidableEq

/-- The descriptors of the IDT, by their offset from `IDT_BASE`. -/
abbrev Idt : Type := Word → IdtDesc

/-- `hook_int`. -/
def hookInt (idt : Idt) (i : Word) (t : IntType) (s offset : Word) : Idt :=
  let eax := i * 8
  match t with
  | .interrupt | .trap =>
    update idt eax {
      offset1 := offset.setWidth 16
      selector := s.setWidth 16
      zero := 0
      type := if t = .interrupt then 0b10001110 else 0b10001111
      offset2 := (offset >>> 16).setWidth 16 }
  | .tss =>
    update idt eax {
      offset1 := 0
      selector := s.setWidth 16
      zero := 0
      type := 0b11100101
      offset2 := 0 }

/-- What the processor makes of a descriptor that is present. -/
inductive Gate where
  | task (privilege : BitVec 2) (selector : BitVec 16)
  | interrupt (privilege : BitVec 2) (selector : BitVec 16) (offset : Word)
  | trap (privilege : BitVec 2) (selector : BitVec 16) (offset : Word)
deriving DecidableEq

def IdtDesc.gate (d : IdtDesc) : Option Gate :=
  let privilege := d.type.extractLsb' 5 2
  if !d.type.getLsbD 7 then none
  else if d.type.setWidth 5 = 0b00101#5 then some (.task privilege d.selector)
  else if d.type.setWidth 5 = 0b01110#5 then
    some (.interrupt privilege d.selector (d.offset2 ++ d.offset1))
  else if d.type.setWidth 5 = 0b01111#5 then
    some (.trap privilege d.selector (d.offset2 ++ d.offset1))
  else none

/-- The gate a call of `hook_int` makes: a task is open to programs, a procedure is not. -/
def IntType.gate (t : IntType) (s offset : Word) : Gate :=
  match t with
  | .interrupt => .interrupt 0 (s.setWidth 16) offset
  | .trap => .trap 0 (s.setWidth 16) offset
  | .tss => .task 3 (s.setWidth 16)

theorem offset_halves (offset : Word) :
    ((offset >>> 16).setWidth 16 ++ offset.setWidth 16 : BitVec 32) = offset := by
  apply BitVec.eq_of_getLsbD_eq
  intro i hi
  rw [BitVec.getLsbD_append]
  split
  next hlow => simp [hlow, hi]
  next hlow =>
    simp only [BitVec.getLsbD_setWidth, BitVec.getLsbD_ushiftRight]
    rw [show 16 + (i - 16) = i by omega, decide_eq_true (by omega), Bool.true_and]

/-- What `hook_int` writes is read back as the gate it was to make. -/
theorem hookInt_gate (idt : Idt) (i : Word) (t : IntType) (s offset : Word) :
    (hookInt idt i t s offset (i * 8)).gate = some (t.gate s offset) := by
  cases t with
  | interrupt =>
    rw [hookInt, update_self, IdtDesc.gate]
    simp [IntType.gate, offset_halves]
  | trap =>
    rw [hookInt, update_self, IdtDesc.gate]
    simp [IntType.gate, offset_halves]
  | tss =>
    rw [hookInt, update_self, IdtDesc.gate]
    simp [IntType.gate]

theorem hookInt_of_ne (idt : Idt) {i j : Word} (t : IntType) (s offset : Word) (h : j ≠ i * 8) :
    hookInt idt i t s offset j = idt j := by
  cases t with
  | interrupt => exact update_of_ne h _ _
  | trap => exact update_of_ne h _ _
  | tss => exact update_of_ne h _ _

/-! ## The controllers -/

/-- `remap_pics`. -/
def remapPics (p : Pair) (offset1 offset2 : Word) : Option Pair :=
  (p.master.command 0x11).bind fun master =>
    (p.slave.command 0x11).map fun slave =>
      let master := master.data (offset1.setWidth 8)
      let slave := slave.data (offset2.setWidth 8)
      let master := master.data 0b100
      let slave := slave.data 0b10
      let master := master.data 1
      let slave := slave.data 1
      let master := master.data 0b11111111
      let slave := slave.data 0b11111111
      { master, slave }

/-- A controller after `remap_pics`: whatever it has been doing, it starts anew. -/
def remapped (c : Controller) (offset : Word) (wiring : BitVec 8) : Controller where
  mask := 0xff
  request := 0
  service := c.service
  vector := offset.setWidth 8
  wiring := wiring
  mode := 1
  expects := .mask

theorem remapPics_eq (p : Pair) (offset1 offset2 : Word) : remapPics p offset1 offset2 =
    some { master := remapped p.master offset1 0b100, slave := remapped p.slave offset2 0b10 } := rfl

/-! ## The tables of `start` -/

/-- The numbers `interrupts.hhf` lists. -/
def interruptNumbers : List Nat := List.range 16

/-- The numbers `exceptions.hhf` lists. -/
def exceptionNumbers : List Nat := List.range 15 ++ [16, 17, 18, 19]

/-- `IDX_INTERRUPTn * @size(segdesc_t)`. -/
def interruptSelector (n : Nat) : Word := (10 + BitVec.ofNat 32 n) * 8

/-- `IDX_EXCEPTIONn * @size(segdesc_t)`. -/
def exceptionSelector (n : Nat) : Word := (26 + BitVec.ofNat 32 n) * 8

/-- The calls of `intrrpt_hook`. -/
def hookInterrupts (idt : Idt) : Idt :=
  interruptNumbers.foldl
    (fun idt n => hookInt idt (0x20 + BitVec.ofNat 32 n) .tss (interruptSelector n) 0) idt

/-- The calls of `exceptn_hook`. -/
def hookExceptions (idt : Idt) : Idt :=
  exceptionNumbers.foldl
    (fun idt n => hookInt idt (BitVec.ofNat 32 n) .tss (exceptionSelector n) 0) idt

/-- Hooks at other offsets leave a descriptor alone, and the last one at its offset makes it. -/
theorem hooks_apply {vector selector : Nat → Word} {l : List Nat} {idt : Idt}
    (hinj : ∀ m ∈ l, ∀ n ∈ l, vector m * 8 = vector n * 8 → m = n) :
    (∀ n ∈ l, (l.foldl (fun idt n => hookInt idt (vector n) .tss (selector n) 0) idt
        (vector n * 8)).gate = some (.task 3 ((selector n).setWidth 16))) ∧
      ∀ j, (∀ n ∈ l, j ≠ vector n * 8) →
        l.foldl (fun idt n => hookInt idt (vector n) .tss (selector n) 0) idt j = idt j := by
  induction l generalizing idt with
  | nil => exact ⟨by simp, fun _ _ => rfl⟩
  | cons m l ih =>
    obtain ⟨hhooked, hother⟩ := @ih (hookInt idt (vector m) .tss (selector m) 0)
      fun a ha b hb => hinj a (by simp [ha]) b (by simp [hb])
    refine ⟨fun n hn => ?_, fun j hj => ?_⟩
    · rw [List.foldl_cons]
      by_cases hnl : n ∈ l
      · exact hhooked n hnl
      · obtain rfl : n = m := by simpa [hnl] using hn
        rw [hother _ fun k hk heq => hnl (by rwa [hinj n (by simp) k (by simp [hk]) heq])]
        exact hookInt_gate ..
    · rw [List.foldl_cons, hother j fun n hn => hj n (by simp [hn])]
      exact hookInt_of_ne _ _ _ _ (hj m (by simp))

theorem vector_inj {m n : Nat} (hm : m < 256) (hn : n < 256)
    (h : BitVec.ofNat 32 m * 8 = BitVec.ofNat 32 n * 8) : m = n := by
  have hnat := congrArg BitVec.toNat h
  simp only [BitVec.toNat_mul, BitVec.toNat_ofNat] at hnat
  rw [show BitVec.toNat (8 : Word) = 8 from rfl] at hnat
  omega

theorem interruptVector (n : Nat) : 0x20 + BitVec.ofNat 32 n = BitVec.ofNat 32 (0x20 + n) :=
  (BitVec.ofNat_add ..).symm

theorem mem_interruptNumbers {n : Nat} : n ∈ interruptNumbers ↔ n < 16 := List.mem_range

theorem exceptionNumbers_lt {n : Nat} (hn : n ∈ exceptionNumbers) : n < 20 := by
  revert n
  decide

/-- Each interrupt leads to its task, and programs may call it. -/
theorem hookInterrupts_gate (idt : Idt) {n : Nat} (hn : n < 16) :
    (hookInterrupts idt (BitVec.ofNat 32 (0x20 + n) * 8)).gate =
      some (.task 3 ((interruptSelector n).setWidth 16)) := by
  have hinj : ∀ m ∈ interruptNumbers, ∀ k ∈ interruptNumbers,
      (0x20 + BitVec.ofNat 32 m) * 8 = (0x20 + BitVec.ofNat 32 k) * 8 → m = k := by
    intro m hm k hk h
    rw [mem_interruptNumbers] at hm hk
    rw [interruptVector, interruptVector] at h
    have := vector_inj (by omega) (by omega) h
    omega
  rw [← interruptVector]
  exact (hooks_apply hinj).1 n (mem_interruptNumbers.2 hn)

theorem exceptionVector_inj : ∀ m ∈ exceptionNumbers, ∀ k ∈ exceptionNumbers,
    BitVec.ofNat 32 m * 8 = BitVec.ofNat 32 k * 8 → m = k := fun _ hm _ hk h =>
  vector_inj (by have := exceptionNumbers_lt hm; omega) (by have := exceptionNumbers_lt hk; omega) h

theorem hookExceptions_gate (idt : Idt) {n : Nat} (hn : n ∈ exceptionNumbers) :
    (hookExceptions idt (BitVec.ofNat 32 n * 8)).gate =
      some (.task 3 ((exceptionSelector n).setWidth 16)) :=
  (hooks_apply exceptionVector_inj).1 n hn

theorem hookExceptions_of_interrupt (idt : Idt) {n : Nat} (hn : n < 16) :
    hookExceptions idt (BitVec.ofNat 32 (0x20 + n) * 8) = idt (BitVec.ofNat 32 (0x20 + n) * 8) := by
  refine (hooks_apply exceptionVector_inj).2 _ fun k hk h => ?_
  have hlt := exceptionNumbers_lt hk
  have := vector_inj (by omega) (by omega) h
  omega

/-! ## The hardware -/

/-- The interrupt hardware, with an account of the gates taken. -/
structure Hardware where
  idt : Idt
  pics : Pair
  /-- History: the gates the processor has gone through for devices, the latest first. -/
  taken : List (Option Gate)

namespace Hardware

/-- What `start` does to it. -/
def wire (h : Hardware) : Option Hardware :=
  (remapPics h.pics 0x20 0x28).map fun pics => {
    idt := hookExceptions (hookInterrupts h.idt)
    pics := { pics with master := pics.master.data 0b11111100 }
    taken := h.taken }

/-- What happens at the interrupt hardware once `start` has ended. -/
inductive Signal where
  /-- A device raises its line. -/
  | raise (line : Nat)
  /-- The processor takes an interrupt, and its task runs up to its `iret`. -/
  | interrupt
  /-- A program calls a task of an interrupt with `int`. -/
  | call

def step (h : Hardware) : Signal → Option Hardware
  | .raise line => some { h with pics := h.pics.raise line }
  | .interrupt =>
    h.pics.interrupt.map fun (v, pics) =>
      { h with pics, taken := (h.idt (BitVec.ofNat 32 v * 8)).gate :: h.taken }
  | .call => some { h with pics := h.pics.endOfInterrupt }

end Hardware

/-- What the hardware is for: a desk where the timer (0) and the keyboard (1) ask, and the timer
goes first. -/
structure Desk where
  timer : Bool
  keyboard : Bool
  /-- Who has been served, the latest first. -/
  served : List Nat

namespace Desk

def step (d : Desk) : Hardware.Signal → Option Desk
  | .raise 0 => some { d with timer := true }
  | .raise 1 => some { d with keyboard := true }
  | .raise _ => some d
  | .interrupt =>
    if d.timer then some { d with timer := false, served := 0 :: d.served }
    else if d.keyboard then some { d with keyboard := false, served := 1 :: d.served }
    else none
  | .call => some d

/-- Nobody has asked yet. -/
def empty : Desk where
  timer := false
  keyboard := false
  served := []

/-- The gates of those who have been served. -/
def gates (d : Desk) : List (Option Gate) :=
  d.served.map fun n => some (.task 3 ((interruptSelector n).setWidth 16))

end Desk

namespace Hardware

variable {h h' : Hardware} {d d' : Desk}

/-- The hardware represents the desk. -/
structure Represents (h : Hardware) (d : Desk) : Prop where
  quiet : h.pics.Quiet
  mask : h.pics.master.mask = 0b11111100
  vector : h.pics.master.vector = 0x20
  timer : h.pics.master.request.getLsbD 0 = d.timer
  keyboard : h.pics.master.request.getLsbD 1 = d.keyboard
  idt : ∀ n < 16, (h.idt (BitVec.ofNat 32 (0x20 + n) * 8)).gate =
    some (.task 3 ((interruptSelector n).setWidth 16))
  taken : h.taken = d.gates

/-- The lines that are not masked are those of the desk. -/
theorem Represents.offered (hr : h.Represents d) :
    h.pics.offered = if d.timer then some 0 else if d.keyboard then some 1 else none := by
  have hmask : ∀ n < 8, h.pics.master.mask.getLsbD n = decide (2 ≤ n) := by
    rw [hr.mask]
    decide
  have hrest : [2, 3, 4, 5, 6, 7].find? (fun n =>
      (h.pics.master.request.getLsbD n && n != 2) && !h.pics.master.mask.getLsbD n) = none := by
    rw [List.find?_eq_none]
    intro n hn
    have hbounds : 2 ≤ n ∧ n < 8 := by
      revert n
      decide
    simp [hmask n hbounds.2, hbounds.1]
  rw [Pair.offered, show List.range 8 = [0, 1] ++ [2, 3, 4, 5, 6, 7] from rfl, List.find?_append,
    hrest, Option.or_none]
  simp only [List.find?_cons, List.find?_nil, hr.timer, hr.keyboard, hmask 0 (by decide),
    hmask 1 (by decide)]
  cases d.timer <;> cases d.keyboard <;> rfl

/-- A device raises a line. -/
theorem Represents.raise (hr : h.Represents d) (line : Nat) :
    Option.Rel Represents (h.step (.raise line)) (d.step (.raise line)) := by
  have hquiet := hr.quiet.raise line
  have hmaster : ∀ n < 2, line ≠ n →
      (h.pics.raise line).master.request.getLsbD n = h.pics.master.request.getLsbD n := by
    intro n hn hne
    rw [Pair.raise]
    split
    next => exact (getLsbD_setLine _ (by omega)).trans (if_neg (Ne.symm hne))
    next => rfl
  have hself : ∀ n < 2, (h.pics.raise n).master.request.getLsbD n = true := by
    intro n hn
    rw [Pair.raise, if_pos (by omega)]
    exact (getLsbD_setLine _ (by omega)).trans (if_pos rfl)
  have hsame : (h.pics.raise line).master.mask = h.pics.master.mask ∧
      (h.pics.raise line).master.vector = h.pics.master.vector := by
    rw [Pair.raise]
    split
    next => exact ⟨rfl, rfl⟩
    next => exact ⟨rfl, rfl⟩
  have hmask := hsame.1.trans hr.mask
  have hvector := hsame.2.trans hr.vector
  match line with
  | 0 =>
    exact .some ⟨hquiet, hmask, hvector, hself 0 (by decide),
      (hmaster 1 (by decide) (by decide)).trans hr.keyboard, hr.idt, hr.taken⟩
  | 1 =>
    exact .some ⟨hquiet, hmask, hvector, (hmaster 0 (by decide) (by decide)).trans hr.timer,
      hself 1 (by decide), hr.idt, hr.taken⟩
  | n + 2 =>
    exact .some ⟨hquiet, hmask, hvector, (hmaster 0 (by decide) (by simp)).trans hr.timer,
      (hmaster 1 (by decide) (by simp)).trans hr.keyboard, hr.idt, hr.taken⟩

/-- The interrupt of the line `n` is over, and only its request is gone. -/
theorem Represents.served (hr : h.Represents d) {n : Nat} (hn : n < 2)
    (htimer : d'.timer = (d.timer && n != 0)) (hkeyboard : d'.keyboard = (d.keyboard && n != 1))
    (hserved : d'.served = n :: d.served) :
    Represents
      { h with
        pics := { h.pics with
          master := { h.pics.driven with request := setLine h.pics.driven.request n false } }
        taken := (h.idt (BitVec.ofNat 32 (h.pics.master.vectorOf n) * 8)).gate :: h.taken } d' := by
  have hrequest : ∀ i < 2, (setLine h.pics.driven.request n false).getLsbD i =
      (h.pics.master.request.getLsbD i && n != i) := by
    intro i hi
    rw [getLsbD_setLine _ (by omega), hr.quiet.driven_request (by omega)]
    by_cases hin : i = n
    · simp [hin]
    · rw [if_neg hin, (bne_iff_ne (a := i) (b := 2)).2 (by omega),
        (bne_iff_ne (a := n) (b := i)).2 (Ne.symm hin)]
  have hvector : h.pics.master.vectorOf n = 0x20 + n := by
    rw [Controller.vectorOf, hr.vector]
    rfl
  refine ⟨⟨hr.quiet.master, hr.quiet.slave, hr.quiet.manual, hr.quiet.masked⟩, hr.mask, hr.vector,
    ?_, ?_, hr.idt, ?_⟩
  · exact (hrequest 0 (by decide)).trans (by rw [hr.timer, htimer])
  · exact (hrequest 1 (by decide)).trans (by rw [hr.keyboard, hkeyboard])
  · dsimp only
    rw [hvector, hr.idt n (by omega), hr.taken, Desk.gates, Desk.gates, hserved, List.map_cons]

/-- Every signal does to the hardware what it does to the desk. -/
theorem Represents.step (hr : h.Represents d) (signal : Signal) :
    Option.Rel Represents (h.step signal) (d.step signal) := by
  cases signal with
  | raise line => exact hr.raise line
  | call =>
    rw [Hardware.step, hr.quiet.endOfInterrupt]
    exact .some hr
  | interrupt =>
    rw [Hardware.step, hr.quiet.interrupt, hr.offered, Desk.step]
    cases htimer : d.timer with
    | true => exact .some (hr.served (by decide) (by simp) (by simp) rfl)
    | false =>
      cases hkeyboard : d.keyboard with
      | true => exact .some (hr.served (by decide) (by simp [htimer]) (by simp) rfl)
      | false => exact .none

/-- By induction on the signals. -/
theorem Represents.run (hr : h.Represents d) (signals : List Signal) :
    Option.Rel Represents (signals.foldlM Hardware.step h) (signals.foldlM Desk.step d) := by
  induction signals generalizing h d with
  | nil => exact .some hr
  | cons signal signals ih =>
    rw [List.foldlM_cons, List.foldlM_cons]
    have hstep := hr.step signal
    generalize h.step signal = a at hstep
    generalize d.step signal = b at hstep
    cases hstep with
    | some hr' => exact ih hr'
    | none => exact .none

/-- `start` puts the hardware into the state of a desk where nobody has asked yet. -/
theorem wire_represents (hmaster : h.pics.master.service = 0) (hslave : h.pics.slave.service = 0)
    (htaken : h.taken = []) : ∃ k, h.wire = some k ∧ k.Represents Desk.empty := by
  refine ⟨_, Option.map_eq_some_iff.2 ⟨_, remapPics_eq _ _ _, rfl⟩, ⟨hmaster, hslave, ?_, rfl⟩, rfl,
    rfl, ?_, ?_, fun n hn => ?_, htaken⟩
  · show (1 : BitVec 8).getLsbD 1 = false
    decide
  · show (0 : BitVec 8).getLsbD 0 = false
    decide
  · show (0 : BitVec 8).getLsbD 1 = false
    decide
  · dsimp only
    rw [hookExceptions_of_interrupt _ hn, hookInterrupts_gate _ hn]

/-- After `start`, the devices reach the processor through two lines.  Each request of the timer
and of the keyboard is served once by the task of its line, the timer first, and none of the
other lines is ever served. -/
theorem lines_delivered (h : Hardware) (hmaster : h.pics.master.service = 0)
    (hslave : h.pics.slave.service = 0) (htaken : h.taken = []) :
    ∃ k, h.wire = some k ∧ ∀ signals : List Signal,
      (signals.foldlM Hardware.step k).map Hardware.taken =
        (signals.foldlM Desk.step Desk.empty).map Desk.gates := by
  obtain ⟨k, hk, hr⟩ := wire_represents hmaster hslave htaken
  refine ⟨k, hk, fun signals => ?_⟩
  have hrun := hr.run signals
  generalize signals.foldlM Hardware.step k = a at hrun
  generalize signals.foldlM Desk.step Desk.empty = b at hrun
  cases hrun with
  | some hr' => exact congrArg some hr'.taken
  | none => rfl

/-- A controller that the BIOS has used and left, with the timer requested and masked. -/
def used : Controller where
  mask := 0b11111111
  request := 1
  service := 0
  vector := 8
  wiring := 0b100
  mode := 1
  expects := .mask

/-- The hardware as the BIOS has left it. -/
def found : Hardware where
  idt _ := {}
  pics := { master := used, slave := used }
  taken := []

/-- The disk (14) is not served; the keyboard is, after the timer. -/
theorem lines_delivered_found : ∃ k, found.wire = some k ∧
    (([.raise 14, .raise 1, .raise 0, .interrupt, .call, .interrupt] : List Signal).foldlM
      Hardware.step k).map Hardware.taken = some [some (.task 3 88), some (.task 3 80)] := by
  obtain ⟨k, hk, hrun⟩ := lines_delivered found (by decide) (by decide) rfl
  exact ⟨k, hk, (hrun _).trans (by decide)⟩

end Hardware

end Mycrokernel
