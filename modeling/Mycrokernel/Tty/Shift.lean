import Mycrokernel.Tty.Message

/-!
# The shift keys

`shiftCount` counts the make codes of the two shift keys up and their break codes down.  A
keyboard repeats the make code of a key that is held, so that the count goes up twice for one
key, and a break code may come without a make code.

`Keyboard` watches which of the keys are down.  `shift_follows` says that the count agrees with that
if the codes of each key alternate, and `proper_iff` that a code that does not alternate shows: at
once, or when the keys have been released.
-/

namespace Mycrokernel

open Machine

inductive ShiftKey where
  | left | right
deriving DecidableEq

namespace ShiftKey

def makeCode : ShiftKey → Word
  | left => 0x2a
  | right => 0x36

def breakCode : ShiftKey → Word
  | left => 0xaa
  | right => 0xb6

def other : ShiftKey → ShiftKey
  | left => right
  | right => left

instance {P : ShiftKey → Prop} [DecidablePred P] : Decidable (∀ key, P key) :=
  decidable_of_iff (P .left ∧ P .right)
    ⟨fun h key => match key with
      | .left => h.1
      | .right => h.2,
    fun h => ⟨h .left, h .right⟩⟩

end ShiftKey

/-- The scancode that a round of `main_loop` has read. -/
def Round.scancode (r : Round) : Option Word :=
  match r with
  | .message _ => none
  | .interrupts _ port => if Tty.Scans r then some port.value else none

/-- A terminal, and the shift keys that are down: the last code of theirs was a make code. -/
structure Keyboard where
  terminal : Terminal
  down : ShiftKey → Bool

namespace Keyboard

/-- The keys that are down after a round. -/
def note (w : Keyboard) (r : Round) (y : Terminal) : Keyboard where
  terminal := y
  down key :=
    if r.scancode = some key.makeCode then true
    else if r.scancode = some key.breakCode then false
    else w.down key

/-- A round of the terminal. -/
def step (w : Keyboard) (r : Round) : Option Keyboard := (w.terminal.step r).map (w.note r)

/-- The terminal at the start, with no key down. -/
def boot (video : Nat → Byte) : Keyboard := ⟨.boot video, fun _ => false⟩

/-- The count is not zero if and only if a shift key is down. -/
def Follows (w : Keyboard) : Prop := w.terminal.tty.shiftCount ≠ 0 ↔ ∃ key, w.down key = true

/-- A make code comes for a key that is up, and a break code for one that is down. -/
def Proper (w : Keyboard) (r : Round) : Prop :=
  ∀ key : ShiftKey, (r.scancode = some key.makeCode → w.down key = false) ∧
    (r.scancode = some key.breakCode → w.down key = true)

instance (w : Keyboard) (r : Round) : Decidable (w.Proper r) :=
  inferInstanceAs (Decidable (∀ _ : ShiftKey, (_ → _) ∧ (_ → _)))

/-- To watch the keys does not change what the terminal does. -/
theorem observes : Observes Terminal.step step terminal := by
  intro w r
  rw [step, Option.map_map]
  exact Option.map_id'

end Keyboard

/-! ## The count -/

namespace Tty

variable {t : Tty} {func : KeyFunc} {r : Round} {y : Tty × List Action}

/-- What a function makes of the count. -/
def KeyFunc.count (func : KeyFunc) (shiftCount : Word) : Word :=
  match func with
  | .shiftPressed => shiftCount + 1
  | .shiftReleased => shiftCount - 1
  | _ => shiftCount

theorem run_shiftCount (t : Tty) (func : KeyFunc) :
    (func.run t).1.shiftCount = func.count t.shiftCount := by
  cases func with
  | readChar c => exact (frame_readChar t c).shiftCount
  | backspacePressed => exact (frame_backspacePressed t).shiftCount
  | readUnsint | enterPressed | escapePressed | noop | printline | shiftReleased | shiftPressed
  | altPressed => rfl

theorem redraw_shiftCount (t : Tty) : t.redraw.1.shiftCount = t.shiftCount := by
  rw [redraw]
  split
  next => rfl
  next => rfl

/-- The functions of a row. -/
def KeyRow.shifts (row : KeyRow) : List (Option KeyFunc) := [row.1, row.2]

/-- The rows of the shift keys have their functions in both columns, and no others have them. -/
theorem km_shifts : ∀ i < km.length, ∀ entry ∈ (km[i]?.map KeyRow.shifts).getD [],
    (entry = some .shiftPressed ↔ i = 0x2a ∨ i = 0x36) ∧
      (entry = some .shiftReleased ↔ i = 0xaa ∨ i = 0xb6) := by
  decide +kernel

theorem km_rows : km.length = 183 := by decide +kernel

theorem toNat_code (scancode : Word) :
    ((scancode.toNat = 0x2a ∨ scancode.toNat = 0x36) ↔
      ∃ key : ShiftKey, scancode = key.makeCode) ∧
    ((scancode.toNat = 0xaa ∨ scancode.toNat = 0xb6) ↔
      ∃ key : ShiftKey, scancode = key.breakCode) := by
  have hcode : ∀ left right : Word, (scancode.toNat = left.toNat ∨ scancode.toNat = right.toNat) ↔
      scancode = left ∨ scancode = right := fun left right =>
    or_congr BitVec.toNat_inj BitVec.toNat_inj
  have hkeys : ∀ code : ShiftKey → Word, (scancode = code .left ∨ scancode = code .right) ↔
      ∃ key, scancode = code key := by
    intro code
    constructor
    · rintro (hleft | hright)
      · exact ⟨.left, hleft⟩
      · exact ⟨.right, hright⟩
    · rintro ⟨key, hkey⟩
      cases key with
      | left => exact .inl hkey
      | right => exact .inr hkey
  exact ⟨(hcode 0x2a 0x36).trans (hkeys ShiftKey.makeCode),
    (hcode 0xaa 0xb6).trans (hkeys ShiftKey.breakCode)⟩

/-- The code of a shift key, and no other, calls the function for it. -/
theorem keyFunc_shift (t : Tty) (scancode : Word) :
    ((t.keyFunc scancode).join = some .shiftPressed ↔
      ∃ key : ShiftKey, scancode = key.makeCode) ∧
    ((t.keyFunc scancode).join = some .shiftReleased ↔
      ∃ key : ShiftKey, scancode = key.breakCode) := by
  rw [← (toNat_code scancode).1, ← (toNat_code scancode).2, keyFunc]
  cases hrow : km[scancode.toNat]? with
  | none =>
      have hlength := List.getElem?_eq_none_iff.mp hrow
      rw [km_rows] at hlength
      constructor
      · exact iff_of_false (by simp) (by omega)
      · exact iff_of_false (by simp) (by omega)
  | some row =>
      obtain ⟨hlt, -⟩ := List.getElem?_eq_some_iff.mp hrow
      have hboth := km_shifts _ hlt
      rw [hrow] at hboth
      rw [Option.map_some, Option.join_some]
      split
      next => exact hboth row.1 List.mem_cons_self
      next => exact hboth row.2 (List.mem_cons_of_mem _ List.mem_cons_self)

/-- A round calls a function of the shift keys if and only if it reads a code of theirs. -/
theorem pressed_shift (t : Tty) (r : Round) :
    (t.pressed r = some .shiftPressed ↔ ∃ key : ShiftKey, r.scancode = some key.makeCode) ∧
    (t.pressed r = some .shiftReleased ↔ ∃ key : ShiftKey, r.scancode = some key.breakCode) := by
  cases r with
  | message => simp [pressed, Round.scancode]
  | interrupts pending port =>
      rw [pressed, Round.scancode]
      split
      next => simpa only [Option.some_inj] using t.keyFunc_shift port.value
      next => simp

theorem elim_count {pressed : Option KeyFunc} (hmake : pressed ≠ some .shiftPressed)
    (hbreak : pressed ≠ some .shiftReleased) : pressed.elim id KeyFunc.count = id := by
  cases pressed with
  | none => rfl
  | some func =>
      cases func with
      | shiftPressed => exact absurd rfl hmake
      | shiftReleased => exact absurd rfl hbreak
      | readUnsint | enterPressed | escapePressed | noop | printline | readChar | backspacePressed
      | altPressed => rfl

/-- What a round makes of the count. -/
theorem shiftCount_handles (h : t.Handles r y) :
    y.1.shiftCount = ((t.pressed r).elim id KeyFunc.count) t.shiftCount := by
  cases h with
  | message => rfl
  | others hscans =>
      rw [pressed_of_not_scans hscans]
      rfl
  | @key _ func _ hpressed =>
      rw [hpressed, run_shiftCount, redraw_shiftCount]
      rfl
  | unhandled _ hpressed =>
      rw [hpressed, redraw_shiftCount]
      rfl

end Tty

namespace Keyboard

variable {w w' : Keyboard} {r : Round} {key : ShiftKey}

/-- What a round makes of the count and of the keys. -/
inductive Counts (w w' : Keyboard) (r : Round) : Prop where
  | make (key : ShiftKey) : r.scancode = some key.makeCode →
      w'.terminal.tty.shiftCount = w.terminal.tty.shiftCount + 1 → w'.down key = true →
      w'.down key.other = w.down key.other → Counts w w' r
  | release (key : ShiftKey) : r.scancode = some key.breakCode →
      w'.terminal.tty.shiftCount = w.terminal.tty.shiftCount - 1 → w'.down key = false →
      w'.down key.other = w.down key.other → Counts w w' r
  | neither : (∀ key : ShiftKey, r.scancode ≠ some key.makeCode ∧ r.scancode ≠ some key.breakCode) →
      w'.terminal.tty.shiftCount = w.terminal.tty.shiftCount → w'.down = w.down → Counts w w' r

/-- The codes are those of one key. -/
theorem codes_ne (key : ShiftKey) : key.breakCode ≠ key.makeCode ∧
    key.makeCode ≠ key.other.makeCode ∧ key.makeCode ≠ key.other.breakCode ∧
      key.breakCode ≠ key.other.makeCode ∧ key.breakCode ≠ key.other.breakCode := by
  cases key with
  | left => decide
  | right => decide

theorem makeCode_ne (key key' : ShiftKey) : key.breakCode ≠ key'.makeCode := by
  cases key with
  | left => cases key' <;> decide
  | right => cases key' <;> decide

theorem makeCode_inj {key key' : ShiftKey} (h : key.makeCode = key'.makeCode) : key = key' := by
  cases key with
  | left => cases key' with
    | left => rfl
    | right => exact absurd h (by decide)
  | right => cases key' with
    | left => exact absurd h (by decide)
    | right => rfl

theorem breakCode_inj {key key' : ShiftKey} (h : key.breakCode = key'.breakCode) : key = key' := by
  cases key with
  | left => cases key' with
    | left => rfl
    | right => exact absurd h (by decide)
  | right => cases key' with
    | left => exact absurd h (by decide)
    | right => rfl

theorem eq_or_other (key key' : ShiftKey) : key' = key ∨ key' = key.other := by
  cases key with
  | left => cases key' <;> decide
  | right => cases key' <;> decide

theorem counts_step (h : w.step r = some w') : Counts w w' r := by
  obtain ⟨y, hy, rfl⟩ := Option.map_eq_some_iff.mp h
  obtain ⟨z, hz, rfl⟩ := Option.map_eq_some_iff.mp hy
  have hcount := Tty.shiftCount_handles (Tty.handles_of_mainLoop hz)
  have hother : ∀ {code : Word} {key : ShiftKey}, r.scancode = some code →
      code ≠ key.makeCode → code ≠ key.breakCode →
      (if r.scancode = some key.makeCode then true
        else if r.scancode = some key.breakCode then false else w.down key) = w.down key := by
    intro code key hcode hmake hbreak
    rw [hcode, if_neg fun heq => hmake (Option.some.inj heq),
      if_neg fun heq => hbreak (Option.some.inj heq)]
  cases Classical.em (∃ key : ShiftKey, r.scancode = some key.makeCode) with
  | inl hmake =>
      obtain ⟨key, hcode⟩ := hmake
      obtain ⟨-, hmake, hbreak, -⟩ := codes_ne key
      rw [(Tty.pressed_shift ..).1.mpr ⟨key, hcode⟩] at hcount
      exact .make key hcode hcount (if_pos hcode) (hother hcode hmake hbreak)
  | inr hnomake =>
      cases Classical.em (∃ key : ShiftKey, r.scancode = some key.breakCode) with
      | inl hbreak =>
          obtain ⟨key, hcode⟩ := hbreak
          obtain ⟨hne, -, -, hmake, hbreak⟩ := codes_ne key
          rw [(Tty.pressed_shift ..).2.mpr ⟨key, hcode⟩] at hcount
          refine .release key hcode hcount ?_ (hother hcode hmake hbreak)
          exact (if_neg fun heq => hnomake ⟨key, heq⟩).trans (if_pos hcode)
      | inr hnobreak =>
          refine .neither (fun key => ⟨fun h => hnomake ⟨key, h⟩, fun h => hnobreak ⟨key, h⟩⟩) ?_ ?_
          · rw [Tty.elim_count (fun h => hnomake ((Tty.pressed_shift ..).1.mp h))
              fun h => hnobreak ((Tty.pressed_shift ..).2.mp h)] at hcount
            exact hcount
          · funext key
            exact (if_neg fun h => hnomake ⟨key, h⟩).trans (if_neg fun h => hnobreak ⟨key, h⟩)

/-- If the codes of each key alternate, the count is the number of keys that are down. -/
def Exact (w : Keyboard) : Prop :=
  w.terminal.tty.shiftCount = (if w.down .left then 1 else 0) + if w.down .right then 1 else 0

theorem exact_boot (video : Nat → Byte) : (boot video).Exact := rfl

theorem exact_step (hw : w.Exact) (hproper : w.Proper r) (h : Counts w w' r) : w'.Exact := by
  unfold Exact at hw ⊢
  cases h with
  | make key hcode hcount hdown hother =>
      have hup := (hproper key).1 hcode
      cases key with
      | left =>
          rw [hcount, hw, hup, hdown, show w'.down .right = w.down .right from hother]
          cases w.down .right <;> rfl
      | right =>
          rw [hcount, hw, hup, hdown, show w'.down .left = w.down .left from hother]
          cases w.down .left <;> rfl
  | release key hcode hcount hdown hother =>
      have hheld := (hproper key).2 hcode
      cases key with
      | left =>
          rw [hcount, hw, hheld, hdown, show w'.down .right = w.down .right from hother]
          cases w.down .right <;> rfl
      | right =>
          rw [hcount, hw, hheld, hdown, show w'.down .left = w.down .left from hother]
          cases w.down .left <;> rfl
  | neither _ hcount hdown => rw [hcount, hdown, hw]

theorem follows_of_exact (hw : w.Exact) : w.Follows := by
  rw [Follows, hw]
  constructor
  · intro hcount
    cases hleft : w.down .left with
    | true => exact ⟨.left, hleft⟩
    | false =>
        cases hright : w.down .right with
        | true => exact ⟨.right, hright⟩
        | false => simp [hleft, hright] at hcount
  · rintro ⟨key, hdown⟩
    cases key with
    | left =>
        rw [hdown]
        cases w.down .right <;> decide
    | right =>
        rw [hdown]
        cases w.down .left <;> decide

/-! ## Codes that do not alternate -/

theorem exists_key (w : Keyboard) (scancode : Word) : ∃ w', w.step (.key scancode) = some w' :=
  ⟨_, rfl⟩

theorem scancode_key (scancode : Word) : (Round.key scancode).scancode = some scancode := rfl

/-- A key that is held can be released. -/
theorem exists_release (w : Keyboard) (key : ShiftKey) : ∃ rs w', Run step Proper w rs w' ∧
    w'.terminal.tty.shiftCount = w.terminal.tty.shiftCount - (if w.down key then 1 else 0) ∧
      w'.down key = false ∧ w'.down key.other = w.down key.other := by
  cases hdown : w.down key with
  | false => exact ⟨[], w, .nil w, (BitVec.sub_zero _).symm, hdown, rfl⟩
  | true =>
      obtain ⟨w', hstep⟩ := w.exists_key key.breakCode
      have hcode := scancode_key key.breakCode
      have hproper : w.Proper (.key key.breakCode) := by
        intro key'
        rw [hcode]
        refine ⟨fun heq => absurd (Option.some.inj heq) (makeCode_ne key key'), fun heq => ?_⟩
        rwa [← breakCode_inj (Option.some.inj heq)]
      refine ⟨_, w', .single hproper hstep, ?_⟩
      cases counts_step hstep with
      | make key' hmake => exact absurd (Option.some.inj hmake) (makeCode_ne key key')
      | release key' hbreak hcount hup hother =>
          obtain rfl := breakCode_inj (Option.some.inj hbreak)
          exact ⟨hcount, hup, hother⟩
      | neither hneither => exact absurd rfl (hneither key).2

/-- When all keys have been released, the count should have come down to zero. -/
theorem exists_released (w : Keyboard) : ∃ rs w', Run step Proper w rs w' ∧
    w'.terminal.tty.shiftCount = w.terminal.tty.shiftCount -
      ((if w.down .left then 1 else 0) + if w.down .right then 1 else 0) ∧
      ∀ key, w'.down key = false := by
  obtain ⟨rs, v, hleft, hcount, hup, hother⟩ := w.exists_release .left
  obtain ⟨rs', u, hright, hcount', hup', hother'⟩ := v.exists_release .right
  have hsame : v.down .right = w.down .right := hother
  refine ⟨_, u, hleft.append hright, ?_, fun key => ?_⟩
  · rw [hcount', hcount, hsame]
    cases w.down .left <;> cases w.down .right <;> bv_omega
  · cases key with
    | left => exact hother'.trans hup
    | right => exact hup'

/-- A code that does not alternate is counted wrong.  If it is a make code, that shows when the keys
have been released, and not before. -/
theorem not_follows_of_improper (hw : w.Exact) (hproper : ¬ w.Proper r) (h : Counts w w' r) :
    ¬ ∀ rs u, Run step Proper w' rs u → u.Follows := by
  intro hfollows
  cases h with
  | make key hcode hcount hdown hother =>
      have hheld : w.down key = true := by
        rw [← Bool.not_eq_false]
        refine fun hup => hproper fun key' => ⟨fun hmake => ?_, fun hbreak => ?_⟩
        · rwa [← makeCode_inj (Option.some.inj (hcode.symm.trans hmake))]
        · exact absurd (Option.some.inj (hbreak.symm.trans hcode)) (makeCode_ne key' key)
      have hsame : ∀ key', w'.down key' = w.down key' := by
        intro key'
        cases eq_or_other key key' with
        | inl heq => rw [heq, hdown, hheld]
        | inr heq => rw [heq, hother]
      obtain ⟨rs, u, hrun, hcount', hup⟩ := w'.exists_released
      rw [hcount, hw, hsame, hsame, BitVec.add_comm _ 1, BitVec.add_sub_cancel] at hcount'
      obtain ⟨key', hkey'⟩ := (hfollows rs u hrun).mp (by rw [hcount']; decide)
      exact absurd (hkey'.symm.trans (hup key')) (by decide)
  | release key hcode hcount hup hother =>
      have hnot : w.down key = false := by
        rw [← Bool.not_eq_true]
        refine fun hdown => hproper fun key' => ⟨fun hmake => ?_, fun hbreak => ?_⟩
        · exact absurd (Option.some.inj (hcode.symm.trans hmake)) (makeCode_ne key key')
        · rwa [← breakCode_inj (Option.some.inj (hcode.symm.trans hbreak))]
      have hone : w.terminal.tty.shiftCount = if w.down key.other then 1 else 0 := by
        rw [hw]
        cases key with
        | left => rw [hnot]; exact BitVec.zero_add _
        | right => rw [hnot]; exact BitVec.add_zero _
      have hnow : w'.Follows := hfollows [] w' (.nil w')
      cases hdown : w.down key.other with
      | true =>
          refine hnow.mpr ⟨key.other, hother.trans hdown⟩ ?_
          rw [hcount, hone, hdown]
          rfl
      | false =>
          obtain ⟨key', hkey'⟩ := hnow.mp (by rw [hcount, hone, hdown]; decide)
          cases eq_or_other key key' with
          | inl heq => exact absurd (hkey'.symm.trans (heq ▸ hup)) (by decide)
          | inr heq => exact absurd (hkey'.symm.trans (heq ▸ hother.trans hdown)) (by decide)
  | neither hcode =>
      exact hproper fun key =>
        ⟨fun h => absurd h (hcode key).1, fun h => absurd h (hcode key).2⟩

end Keyboard

/-- In a run in which the codes of each key alternate, a make code coming first, the count agrees with
the keys. -/
theorem shift_follows (video : Nat → Byte) (rs : List Round) (w : Keyboard)
    (h : Run Keyboard.step Keyboard.Proper (.boot video) rs w) : w.Follows := by
  have hexact : w.Exact := h.invariant
    (fun _ _ _ hw hproper hs => Keyboard.exact_step hw hproper (Keyboard.counts_step hs))
    (Keyboard.exact_boot video)
  exact Keyboard.follows_of_exact hexact

/-- The left key is held while the right one is pressed and released. -/
theorem shift_follows_both :
    ∃ w, Run Keyboard.step Keyboard.Proper (.boot fun _ => 0)
        [.key 0x2a, .key 0x36, .key 0x1e, .key 0xb6] w ∧
      w.down .left = true ∧ w.terminal.tty.shiftCount = 1 ∧ w.Follows := by
  have hrun : Run Keyboard.step Keyboard.Proper (.boot fun _ => 0)
      [.key 0x2a, .key 0x36, .key 0x1e, .key 0xb6] _ :=
    .cons (by decide) rfl (.cons (by decide) rfl (.cons (by decide) rfl
      (.single (by decide) rfl)))
  exact ⟨_, hrun, by decide, by decide, shift_follows _ _ _ hrun⟩

/-- The left key repeats its make code, and after its release the count is 1. -/
theorem shift_follows_fails :
    ∃ w, Run Keyboard.step always (.boot fun _ => 0) [.key 0x2a, .key 0x2a, .key 0xaa] w ∧
      ¬ w.Follows := by
  refine ⟨_, .cons trivial rfl (.cons trivial rfl (.single trivial rfl)), fun h => ?_⟩
  obtain ⟨key, hdown⟩ := h.mp (by decide)
  cases key with
  | left => exact absurd hdown (by decide)
  | right => exact absurd hdown (by decide)

/-- The codes of each key alternate in a run if and only if the count agrees with the keys wherever
the run comes, and wherever it could go on with codes that alternate. -/
theorem proper_iff (video : Nat → Byte) (rs : List Round) (w : Keyboard) :
    (Run Keyboard.step always (.boot video) rs w ∧
        ∀ rs₁ rs₂ v, rs = rs₁ ++ rs₂ → Run Keyboard.step always (.boot video) rs₁ v →
          ∀ rs' u, Run Keyboard.step Keyboard.Proper v rs' u → u.Follows) ↔
      Run Keyboard.step Keyboard.Proper (.boot video) rs w := by
  have hkeep : ∀ w r w', w.Exact → w.Proper r → Keyboard.step w r = some w' → w'.Exact :=
    fun _ _ _ hw hproper hs => Keyboard.exact_step hw hproper (Keyboard.counts_step hs)
  refine Run.kept_iff (P := fun v => ∀ rs' u, Run Keyboard.step Keyboard.Proper v rs' u → u.Follows)
    hkeep ?_ ?_ (Keyboard.exact_boot video)
  · exact fun _ _ _ hw hproper hs =>
      Keyboard.not_follows_of_improper hw hproper (Keyboard.counts_step hs)
  · exact fun _ hw _ _ hrun => Keyboard.follows_of_exact (hrun.invariant hkeep hw)

end Mycrokernel
