import Mycrokernel.Usr.Number

/-!
# The screen of the terminal

The procedures of `tty/utilities.hla`.  They write to the video memory, two bytes for a
character and its attribute: `NO_LINES * NO_COLUMNS * 2 = 3840` bytes for the main area, in
lines of `NO_COLUMNS * 2 = 160` bytes, and the status line behind it.

The main area is a window on an endless sheet, which scrolling moves down.  `position` is
the place of the cursor on the sheet, and `onSheet` reads it: a character that is put moves the
position by two whether the screen scrolls or not, and what was there before it stays as it is.
-/

namespace Mycrokernel

open Function (update update_self update_of_ne)

/-- The video memory and the variables of the procedures. -/
structure Screen where
  /-- The bytes at `gs`. -/
  video : Nat → Byte
  cursor : BitVec 16
  ttyCursor : BitVec 16
  /-- The place of the cursor in the registers of the display controller. -/
  crtc : BitVec 16
  /-- Where `putcharacter`, `backspace` and `move_cursor` have written to. -/
  touched : List Nat
  /-- How many lines have been scrolled off. -/
  scrolled : Nat

namespace Screen

/-- `ATTRIB`. -/
def attrib : Byte := 15

/-- `TTY_ATTRIB`. -/
def ttyAttrib : Byte := 20

/-- `character.isPrintable`. -/
def isPrintable (c : Byte) : Bool := decide (0x1f < c) && decide (c < 0x7f)

def lf : Byte := 10

def tab : Byte := 9

/-- Write a byte to the video memory. -/
def poke (s : Screen) (offset : Nat) (b : Byte) : Screen :=
  { s with video := update s.video offset b, touched := offset :: s.touched }

/-- `move_cursor`. -/
def moveCursor (s : Screen) : Screen :=
  { s.poke (s.cursor.toNat + 1) attrib with crtc := s.cursor >>> 1 }

/-- `scrollscreen`: the lines move up, and zeros come into the last one. -/
def scrollscreen (s : Screen) : Screen :=
  { s with
    video := fun a =>
      if a < 3680 then s.video (a + 160)
      else if a < 3840 then (if a % 2 = 0 then 0 else 0xf)
      else s.video a
    touched := List.range 3840 ++ s.touched
    scrolled := s.scrolled + 1 }

/-- What `putcharacter` does with a printable character. -/
def putPrintable (s : Screen) (c : Byte) : Screen :=
  let eax := s.cursor.toNat
  let s := (s.poke eax c).poke (eax + 1) attrib
  let eax := eax + 2
  if 3840 ≤ eax then { s.scrollscreen with cursor := BitVec.ofNat 16 (eax - 160) }.moveCursor
  else { s with cursor := BitVec.ofNat 16 eax }.moveCursor

/-- The loops of `putcharacter`: put spaces until the cursor is at a stop. -/
def putSpaces (stop : Nat → Bool) : Nat → Screen → Screen
  | 0, s => s
  | n + 1, s =>
    if stop s.cursor.toNat then s else putSpaces stop n (s.putPrintable (byte ' '))

/-- The end of the loop for a line feed. -/
def lineStop (eax : Nat) : Bool := eax % 160 = 0

/-- The end of the loop for a `TAB`. -/
def tabStop (eax : Nat) : Bool := (eax + 2) % 160 % 6 = 0

/-- `putcharacter`. -/
def putcharacter (s : Screen) (c : Byte) : Screen :=
  if isPrintable c then s.putPrintable c
  else if c = lf then (putSpaces lineStop 80 (s.putPrintable (byte ' '))).moveCursor
  else if c = tab then (putSpaces tabStop 80 (s.putPrintable (byte ' '))).moveCursor
  else s.moveCursor

/-- `backspace`. -/
def backspace (s : Screen) : Screen :=
  let s := { s with cursor := s.cursor - 2 }
  let s := s.putcharacter (byte ' ')
  { s with cursor := s.cursor - 2 }.moveCursor

/-- `tty_putcharacter`, which writes to the status line. -/
def ttyPutcharacter (s : Screen) (c : Byte) : Screen :=
  if isPrintable c then
    let eax := s.ttyCursor.toNat
    if eax < 4000 then
      { s with
        video := update (update s.video eax c) (eax + 1) ttyAttrib
        ttyCursor := BitVec.ofNat 16 (eax + 2) }
    else s
  else if c = lf then
    { s with
      video := fun a =>
        if 3840 ≤ a ∧ a < 4000 then (if a % 2 = 0 then byte ' ' else ttyAttrib) else s.video a
      ttyCursor := 3840 }
  else s

/-- `cls`. -/
def cls (s : Screen) : Screen :=
  { Nat.iterate (fun s => s.putcharacter lf) 24 { s with cursor := 0 } with cursor := 0 }

/-! ## The cursor -/

/-- The cursor is at a character of the main area, and nothing outside of it was written to.
The status line has the other cursor. -/
structure OnScreen (s : Screen) : Prop where
  even : s.cursor.toNat % 2 = 0
  inside : s.cursor.toNat < 3840
  touched : ∀ a ∈ s.touched, a < 3840
  status : 3840 ≤ s.ttyCursor.toNat

variable {s : Screen} {c : Byte}

theorem OnScreen.poke (h : s.OnScreen) {a : Nat} {b : Byte} (ha : a < 3840) :
    (s.poke a b).OnScreen where
  even := h.even
  inside := h.inside
  touched := List.forall_mem_cons.mpr ⟨ha, h.touched⟩
  status := h.status

theorem OnScreen.scrollscreen (h : s.OnScreen) : s.scrollscreen.OnScreen where
  even := h.even
  inside := h.inside
  touched := List.forall_mem_append.mpr ⟨fun _ ha => List.mem_range.mp ha, h.touched⟩
  status := h.status

theorem OnScreen.goto (h : s.OnScreen) (cursor : BitVec 16) (heven : cursor.toNat % 2 = 0)
    (hinside : cursor.toNat < 3840) : { s with cursor }.OnScreen where
  even := heven
  inside := hinside
  touched := h.touched
  status := h.status

theorem OnScreen.moveCursor (h : s.OnScreen) : s.moveCursor.OnScreen := by
  have heven := h.even
  have hinside := h.inside
  have hpoked := h.poke (b := attrib) (show s.cursor.toNat + 1 < 3840 by omega)
  exact ⟨hpoked.even, hpoked.inside, hpoked.touched, hpoked.status⟩

/-! ## The sheet -/

/-- The place of the cursor on the sheet. -/
def position (s : Screen) : Nat := s.cursor.toNat + 160 * s.scrolled

/-- The byte at a place of the sheet that is in the window. -/
def onSheet (s : Screen) (p : Nat) : Byte := s.video (p - 160 * s.scrolled)

/-- What stays in the window keeps its place on the sheet. -/
theorem onSheet_scrollscreen {p : Nat} {cursor : BitVec 16} (hvisible : 160 * (s.scrolled + 1) ≤ p)
    (hbefore : p < 160 * s.scrolled + 3840) :
    { s.scrollscreen with cursor }.onSheet p = s.onSheet p := by
  have hup : p - 160 * (s.scrolled + 1) + 160 = p - 160 * s.scrolled := by omega
  simp only [onSheet, scrollscreen]
  rw [if_pos (by omega), hup]

/-- `text` has been put at the cursor.  The screen scrolls when the last line is full. -/
structure Puts (s : Screen) (text : List Byte) (s' : Screen) : Prop where
  onScreen : s'.OnScreen
  position : s'.position = s.position + 2 * text.length
  scrolled : s.scrolled ≤ s'.scrolled
  scroll : s'.scrolled = s.scrolled ∨ 3680 ≤ s'.cursor.toNat
  old : ∀ p < s.position, 160 * s'.scrolled ≤ p → s'.onSheet p = s.onSheet p
  new : ∀ i (hi : i < text.length), 160 * s'.scrolled ≤ s.position + 2 * i →
    s'.onSheet (s.position + 2 * i) = text[i]

namespace Puts

variable {s s' s'' : Screen} {text text' : List Byte}

theorem refl (h : s.OnScreen) : Puts s [] s where
  onScreen := h
  position := rfl
  scrolled := le_rfl
  scroll := .inl rfl
  old := fun _ _ _ => rfl
  new := fun _ hi => absurd hi (Nat.not_lt_zero _)

theorem trans (h : Puts s text s') (h' : Puts s' text' s'') : Puts s (text ++ text') s'' where
  onScreen := h'.onScreen
  position := by
    rw [h'.position, h.position, List.length_append]
    omega
  scrolled := h.scrolled.trans h'.scrolled
  scroll := by
    have hposition := h'.position
    have hplace : s'.position = s'.cursor.toNat + 160 * s'.scrolled := rfl
    have hplace' : s''.position = s''.cursor.toNat + 160 * s''.scrolled := rfl
    have hscroll := h.scroll
    have hscroll' := h'.scroll
    omega
  old := fun p hp hvisible => by
    have hscrolled := h'.scrolled
    have hposition := h.position
    rw [h'.old p (by omega) hvisible, h.old p hp (by omega)]
  new := fun i hi hvisible => by
    have hscrolled := h'.scrolled
    have hposition := h.position
    rw [List.length_append] at hi
    by_cases hfirst : i < text.length
    · rw [List.getElem_append_left hfirst, h'.old _ (by omega) hvisible,
        h.new i hfirst (by omega)]
    · have hplace : s.position + 2 * i = s'.position + 2 * (i - text.length) := by omega
      rw [List.getElem_append_right (by omega), hplace,
        h'.new (i - text.length) (by omega) (by omega)]

/-- Behind a text the cursor is not at the start. -/
theorem cursor_ne_zero (h : Puts s text s') (hne : text ≠ []) : s'.cursor ≠ 0 := by
  intro hzero
  have hnat : s'.cursor.toNat = 0 := congrArg BitVec.toNat hzero
  have hposition := h.position
  have hplace : s.position = s.cursor.toNat + 160 * s.scrolled := rfl
  have hplace' : s'.position = s'.cursor.toNat + 160 * s'.scrolled := rfl
  have hscroll := h.scroll
  have hlength := List.length_pos_iff.mpr hne
  omega

end Puts

/-- Nothing is put by what leaves the cursor and the window in front of it alone. -/
theorem Puts.of_video {s' : Screen} (h : s'.OnScreen) (hcursor : s'.cursor = s.cursor)
    (hscrolled : s'.scrolled = s.scrolled)
    (hvideo : ∀ a < s.cursor.toNat, s'.video a = s.video a) : Puts s [] s' where
  onScreen := h
  position := by
    rw [Screen.position, Screen.position, hcursor, hscrolled]
    rfl
  scrolled := hscrolled.ge
  scroll := .inl hscrolled
  old := fun p hp hvisible => by
    have hplace : s.position = s.cursor.toNat + 160 * s.scrolled := rfl
    rw [hscrolled] at hvisible
    rw [onSheet, onSheet, hscrolled]
    exact hvideo _ (by omega)
  new := fun _ hi => absurd hi (Nat.not_lt_zero _)

theorem puts_moveCursor (h : s.OnScreen) : Puts s [] s.moveCursor := by
  refine .of_video h.moveCursor rfl rfl fun a ha => ?_
  exact update_of_ne (by omega) _ _

/-- A cell that is written at the cursor changes nothing in front of it. -/
theorem onSheet_cell_of_lt {p : Nat} (c : Byte) (hp : p < s.position)
    (hvisible : 160 * s.scrolled ≤ p) :
    ((s.poke s.cursor.toNat c).poke (s.cursor.toNat + 1) attrib).onSheet p = s.onSheet p := by
  have hplace : s.position = s.cursor.toNat + 160 * s.scrolled := rfl
  change update (update s.video _ _) _ _ (p - 160 * s.scrolled) = _
  rw [update_of_ne (by omega), update_of_ne (by omega)]
  rfl

theorem onSheet_cell (s : Screen) (c : Byte) :
    ((s.poke s.cursor.toNat c).poke (s.cursor.toNat + 1) attrib).onSheet s.position = c := by
  have hplace : s.position - 160 * s.scrolled = s.cursor.toNat := Nat.add_sub_cancel ..
  change update (update s.video _ _) _ _ (s.position - 160 * s.scrolled) = c
  rw [hplace, update_of_ne (Nat.succ_ne_self _).symm, update_self]

/-- The cursor goes on, in a line that is not the last or not full. -/
theorem puts_cell (h : s.OnScreen) (c : Byte) (hroom : s.cursor.toNat + 2 < 3840) :
    Puts s [c] { (s.poke s.cursor.toNat c).poke (s.cursor.toNat + 1) attrib with
      cursor := BitVec.ofNat 16 (s.cursor.toNat + 2) } := by
  have heven := h.even
  have hpoked := (h.poke (b := c) h.inside).poke (a := s.cursor.toNat + 1) (b := attrib) (by omega)
  have hcursor : (BitVec.ofNat 16 (s.cursor.toNat + 2)).toNat = s.cursor.toNat + 2 := by
    rw [BitVec.toNat_ofNat]
    omega
  have hplace : s.position = s.cursor.toNat + 160 * s.scrolled := rfl
  constructor
  case onScreen => exact hpoked.goto _ (by omega) (by omega)
  case position =>
    change (BitVec.ofNat 16 _).toNat + 160 * s.scrolled = _
    rw [hcursor, hplace, List.length_singleton]
    omega
  case scrolled => exact le_rfl
  case scroll => exact .inl rfl
  case old => exact fun p hp hvisible => onSheet_cell_of_lt c hp hvisible
  case new =>
    intro i hi _
    obtain rfl : i = 0 := Nat.lt_one_iff.mp hi
    exact onSheet_cell s c

/-- The cursor goes on from the end of the last line. -/
theorem puts_scroll (h : s.OnScreen) (c : Byte) (hend : 3840 ≤ s.cursor.toNat + 2) :
    Puts s [c] { ((s.poke s.cursor.toNat c).poke (s.cursor.toNat + 1) attrib).scrollscreen with
      cursor := BitVec.ofNat 16 (s.cursor.toNat + 2 - 160) } := by
  have heven := h.even
  have hinside := h.inside
  have hpoked := (h.poke (b := c) h.inside).poke (a := s.cursor.toNat + 1) (b := attrib) (by omega)
  have hcursor : (BitVec.ofNat 16 (s.cursor.toNat + 2 - 160)).toNat = s.cursor.toNat + 2 - 160 := by
    rw [BitVec.toNat_ofNat]
    omega
  have hplace : s.position = s.cursor.toNat + 160 * s.scrolled := rfl
  constructor
  case onScreen => exact hpoked.scrollscreen.goto _ (by omega) (by omega)
  case position =>
    change (BitVec.ofNat 16 _).toNat + 160 * (s.scrolled + 1) = _
    rw [hcursor, hplace, List.length_singleton]
    omega
  case scrolled => exact Nat.le_succ _
  case scroll =>
    right
    change 3680 ≤ (BitVec.ofNat 16 _).toNat
    omega
  case old =>
    intro p hp hvisible
    have hvisible : 160 * (s.scrolled + 1) ≤ p := hvisible
    have hbefore : p < 160 * s.scrolled + 3840 := by omega
    rw [onSheet_scrollscreen (by exact hvisible) (by exact hbefore)]
    exact onSheet_cell_of_lt c hp (by omega)
  case new =>
    intro i hi hvisible
    obtain rfl : i = 0 := Nat.lt_one_iff.mp hi
    have hvisible : 160 * (s.scrolled + 1) ≤ s.position + 2 * 0 := hvisible
    have hbefore : s.position + 2 * 0 < 160 * s.scrolled + 3840 := by omega
    rw [onSheet_scrollscreen (by exact hvisible) (by exact hbefore)]
    exact onSheet_cell s c

theorem puts_putPrintable (h : s.OnScreen) (c : Byte) : Puts s [c] (s.putPrintable c) := by
  unfold putPrintable
  dsimp only
  split
  next hend =>
    have hputs := puts_scroll h c hend
    exact hputs.trans (puts_moveCursor hputs.onScreen)
  next hroom =>
    have hputs := puts_cell h c (by omega)
    exact hputs.trans (puts_moveCursor hputs.onScreen)

/-- The cursor goes on by a character, or to the start of the last line. -/
theorem putPrintable_cursor (h : s.OnScreen) (c : Byte) :
    (s.putPrintable c).cursor.toNat =
      if s.cursor.toNat + 2 < 3840 then s.cursor.toNat + 2 else 3680 := by
  have heven := h.even
  have hinside := h.inside
  unfold putPrintable
  dsimp only
  split
  next hend =>
    change (BitVec.ofNat 16 _).toNat = _
    rw [if_neg (by omega), BitVec.toNat_ofNat]
    omega
  next hroom =>
    change (BitVec.ofNat 16 _).toNat = _
    rw [if_pos (by omega), BitVec.toNat_ofNat]
    omega

theorem position_mod (s : Screen) : s.position % 160 = s.cursor.toNat % 160 :=
  Nat.add_mul_mod_self_left ..

/-! ## Spaces up to a stop -/

theorem puts_putSpaces (h : s.OnScreen) (stop : Nat → Bool) (n : Nat) :
    ∃ text, Puts s text (putSpaces stop n s) := by
  induction n generalizing s with
  | zero => exact ⟨[], .refl h⟩
  | succ n ih =>
      rw [putSpaces]
      split
      next => exact ⟨[], .refl h⟩
      next =>
        have hputs := puts_putPrintable h (byte ' ')
        obtain ⟨text, htext⟩ := ih hputs.onScreen
        exact ⟨_, hputs.trans htext⟩

/-- A loop that stops in the column `r` ends before it has gone through a whole line. -/
theorem stop_putSpaces (h : s.OnScreen) {stop : Nat → Bool} {r n : Nat} (hr : r % 2 = 0)
    (hlt : r < 160) (hstop : ∀ eax, eax % 160 = r → stop eax = true)
    (hn : (r + 160 - s.cursor.toNat % 160) % 160 ≤ 2 * n) :
    stop (putSpaces stop n s).cursor.toNat = true := by
  have heven := h.even
  induction n generalizing s with
  | zero =>
      rw [putSpaces]
      exact hstop _ (by omega)
  | succ n ih =>
      rw [putSpaces]
      split
      next hdone => exact hdone
      next hgoing =>
        have hne : s.cursor.toNat % 160 ≠ r := fun heq => hgoing (hstop _ heq)
        have hputs := puts_putPrintable h (byte ' ')
        have hposition := hputs.position
        rw [List.length_singleton] at hposition
        have hmod := position_mod s
        have hmod' := position_mod (s.putPrintable (byte ' '))
        exact ih hputs.onScreen (by omega) hputs.onScreen.even

/-- The loop for a line feed ends. -/
theorem lineStop_putSpaces (h : s.OnScreen) :
    lineStop (putSpaces lineStop 80 s).cursor.toNat = true :=
  stop_putSpaces (r := 0) h rfl (by omega) (fun _ heq => decide_eq_true heq) (by omega)

/-- The loop for a `TAB` ends. -/
theorem tabStop_putSpaces (h : s.OnScreen) :
    tabStop (putSpaces tabStop 80 s).cursor.toNat = true :=
  stop_putSpaces (r := 158) h rfl (by omega) (fun _ heq => decide_eq_true (by omega)) (by omega)

/-! ## The procedures -/

theorem puts_putcharacter (h : s.OnScreen) (c : Byte) : ∃ text, Puts s text (s.putcharacter c) := by
  have hspace := puts_putPrintable h (byte ' ')
  rw [putcharacter]
  split
  next => exact ⟨_, puts_putPrintable h c⟩
  next =>
    split
    next =>
      obtain ⟨text, htext⟩ := puts_putSpaces hspace.onScreen lineStop 80
      exact ⟨_, (hspace.trans htext).trans (puts_moveCursor htext.onScreen)⟩
    next =>
      split
      next =>
        obtain ⟨text, htext⟩ := puts_putSpaces hspace.onScreen tabStop 80
        exact ⟨_, (hspace.trans htext).trans (puts_moveCursor htext.onScreen)⟩
      next => exact ⟨[], puts_moveCursor h⟩

theorem puts_printable (h : s.OnScreen) (hc : isPrintable c = true) :
    Puts s [c] (s.putcharacter c) := by
  rw [putcharacter, if_pos hc]
  exact puts_putPrintable h c

/-- A line feed puts something, and goes to the start of a line. -/
theorem puts_lf (h : s.OnScreen) :
    (s.putcharacter lf).cursor.toNat % 160 = 0 ∧ ∃ text ≠ [], Puts s text (s.putcharacter lf) := by
  have hspace := puts_putPrintable h (byte ' ')
  obtain ⟨text, htext⟩ := puts_putSpaces hspace.onScreen lineStop 80
  constructor
  · exact of_decide_eq_true (lineStop_putSpaces hspace.onScreen)
  · exact ⟨_, by simp, (hspace.trans htext).trans (puts_moveCursor htext.onScreen)⟩

/-- The character before the cursor has been taken back. -/
structure Erases (s s' : Screen) : Prop where
  onScreen : s'.OnScreen
  position : s'.position + 2 = s.position
  scrolled : s'.scrolled = s.scrolled
  old : ∀ p < s'.position, 160 * s.scrolled ≤ p → s'.onSheet p = s.onSheet p

theorem putPrintable_scrolled (hroom : s.cursor.toNat + 2 < 3840) :
    (s.putPrintable c).scrolled = s.scrolled := by
  unfold putPrintable
  dsimp only
  rw [if_neg (by omega)]
  rfl

theorem toNat_sub_two {cursor : BitVec 16} (h : 2 ≤ cursor.toNat) :
    (cursor - 2).toNat = cursor.toNat - 2 :=
  BitVec.toNat_sub_of_le h

theorem erases_backspace (h : s.OnScreen) (hstart : s.cursor ≠ 0) : Erases s s.backspace := by
  have heven := h.even
  have hinside := h.inside
  have hne : s.cursor.toNat ≠ 0 := fun heq => hstart (BitVec.eq_of_toNat_eq heq)
  have hback : (s.cursor - 2).toNat = s.cursor.toNat - 2 := toNat_sub_two (by omega)
  have hfirst : { s with cursor := s.cursor - 2 }.OnScreen := h.goto _ (by omega) (by omega)
  have hput := puts_printable hfirst (c := byte ' ') rfl
  have hscrolled : ({ s with cursor := s.cursor - 2 }.putcharacter (byte ' ')).scrolled =
      s.scrolled := putPrintable_scrolled (show (s.cursor - 2).toNat + 2 < 3840 by omega)
  have hplace : s.position = s.cursor.toNat + 160 * s.scrolled := rfl
  have hthere : { s with cursor := s.cursor - 2 }.position + 2 = s.position := by
    change (s.cursor - 2).toNat + 160 * s.scrolled + 2 = s.cursor.toNat + 160 * s.scrolled
    omega
  unfold backspace
  dsimp only
  generalize { s with cursor := s.cursor - 2 }.putcharacter (byte ' ') = s' at hput hscrolled ⊢
  have hposition := hput.position
  have hplace' : s'.position = s'.cursor.toNat + 160 * s'.scrolled := rfl
  rw [List.length_singleton] at hposition
  have hback' : (s'.cursor - 2).toNat = s'.cursor.toNat - 2 := toNat_sub_two (by omega)
  have hsecond : { s' with cursor := s'.cursor - 2 }.OnScreen :=
    hput.onScreen.goto _ (by omega) (by omega)
  have hmove := puts_moveCursor hsecond
  have hthere' : { s' with cursor := s'.cursor - 2 }.position + 2 = s'.position := by
    change (s'.cursor - 2).toNat + 160 * s'.scrolled + 2 = s'.position
    omega
  have hmoved := hmove.position
  constructor
  case onScreen => exact hmove.onScreen
  case position =>
    rw [hmoved, List.length_nil]
    omega
  case scrolled => exact hscrolled
  case old =>
    intro p hp hvisible
    rw [hmoved, List.length_nil] at hp
    have hvisible' : 160 * s'.scrolled ≤ p := by
      rw [hscrolled]
      exact hvisible
    calc { s' with cursor := s'.cursor - 2 }.moveCursor.onSheet p
        = s'.onSheet p := hmove.old p hp hvisible'
      _ = s.onSheet p := hput.old p (by omega) hvisible'

theorem puts_ttyPutcharacter (h : s.OnScreen) (c : Byte) : Puts s [] (s.ttyPutcharacter c) := by
  have hstatus := h.status
  have hinside := h.inside
  unfold ttyPutcharacter
  dsimp only
  split
  next =>
    split
    next hroom =>
      refine .of_video ⟨h.even, h.inside, h.touched, ?_⟩ rfl rfl fun a ha => ?_
      · rw [BitVec.toNat_ofNat]
        omega
      · dsimp only
        rw [update_of_ne (by omega), update_of_ne (by omega)]
    next => exact .refl h
  next =>
    split
    next =>
      refine .of_video ⟨h.even, h.inside, h.touched, le_rfl⟩ rfl rfl fun a ha => ?_
      exact if_neg (by omega)
    next => exact .refl h

end Screen

end Mycrokernel
