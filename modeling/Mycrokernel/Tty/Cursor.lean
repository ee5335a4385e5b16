import Mycrokernel.Tty.Message

/-!
# The cursor on the screen

All that the terminal does puts something at the cursor, apart from `backspace`.  So the cursor
stays in the main area unless a character is taken back while the cursor is at its start.  That
can happen: what digits put is not in the line, and so a line can be longer on the screen than
`snd_buffer` is, and its beginning be scrolled off.
-/

namespace Mycrokernel

open Machine HiddenLine

namespace Screen

variable {s : Screen}

/-- The cursor is even and in the main area, and so was every write. -/
structure CursorKept (s : Screen) : Prop where
  even : s.cursor.toNat % 2 = 0
  inside : s.cursor.toNat < 24 * 80 * 2
  touched : ∀ a ∈ s.touched, a < 24 * 80 * 2

theorem OnScreen.kept (h : s.OnScreen) : s.CursorKept := ⟨h.even, h.inside, h.touched⟩

/-! ## Actions -/

theorem puts_doPutcharacter (h : s.OnScreen) (tty : Bool) (c : Byte) :
    ∃ text, Puts s text (s.doPutcharacter tty c) := by
  cases tty with
  | true => exact ⟨[], puts_ttyPutcharacter h c⟩
  | false => exact puts_putcharacter h c

theorem puts_string (h : s.OnScreen) (tty : Bool) (what : List Byte) :
    ∃ text, Puts s text (what.foldl (doPutcharacter tty) s) := by
  induction what generalizing s with
  | nil => exact ⟨[], .refl h⟩
  | cons c what ih =>
      obtain ⟨text, hfirst⟩ := puts_doPutcharacter h tty c
      obtain ⟨text', hrest⟩ := ih hfirst.onScreen
      exact ⟨_, hfirst.trans hrest⟩

theorem puts_act (h : s.OnScreen) {a : Action} (ha : a ≠ .backspace) :
    ∃ text, Puts s text (s.act a) := by
  cases a with
  | putcharacter c tty => exact puts_doPutcharacter h tty c
  | putstring what tty => exact puts_string h tty what
  | backspace => exact absurd rfl ha
  | terminate => exact ⟨[], .refl h⟩
  | call => exact ⟨[], .refl h⟩

theorem puts_acts (h : s.OnScreen) {actions : List Action} (ha : ∀ a ∈ actions, a ≠ .backspace) :
    ∃ text, Puts s text (actions.foldl act s) := by
  induction actions generalizing s with
  | nil => exact ⟨[], .refl h⟩
  | cons a actions ih =>
      obtain ⟨hfirst, hrest⟩ := List.forall_mem_cons.mp ha
      obtain ⟨text, hputs⟩ := puts_act h hfirst
      obtain ⟨text', hputs'⟩ := ih hputs.onScreen hrest
      exact ⟨_, hputs.trans hputs'⟩

/-- Printable characters are put as they are. -/
theorem puts_text (h : s.OnScreen) {text : List Byte}
    (htext : ∀ c ∈ text, isPrintable c = true) :
    Puts s text ((text.map fun c => Action.putcharacter c false).foldl act s) := by
  induction text generalizing s with
  | nil => exact .refl h
  | cons c text ih =>
      obtain ⟨hc, hrest⟩ := List.forall_mem_cons.mp htext
      have hputs := puts_printable h hc
      exact hputs.trans (ih hputs.onScreen hrest)

/-- Taken back at the start of the main area, a character takes the cursor out of it. -/
theorem backspace_origin (h : s.cursor = 0) : s.backspace.cursor = 65374 := by
  have hput : { s with cursor := s.cursor - 2 }.putcharacter (byte ' ') =
      { s with cursor := s.cursor - 2 }.putPrintable (byte ' ') := if_pos rfl
  have hend : 3840 ≤ (0 - 2 : BitVec 16).toNat + 2 := by decide
  unfold backspace
  dsimp only
  rw [hput]
  unfold putPrintable
  dsimp only
  rw [h, if_pos hend]
  change BitVec.ofNat 16 ((0 - 2 : BitVec 16).toNat + 2 - 160) - 2 = 65374
  decide

end Screen

/-! ## Rounds -/

namespace Tty

variable {t : Tty} {line : List Typed}

/-- The variables tell whether the line ends with a character that was echoed. -/
theorem Holds.endsShown_iff (h : t.Holds line) :
    EndsShown line ↔ 0 < t.screenIdx ∧ t.screenEchoed.getD (t.screenIdx - 1) false = true := by
  rw [h.screenIdx]
  induction line using List.reverseRecOn with
  | nil => exact iff_of_false not_endsShown_nil fun hidx => absurd hidx.1 (Nat.lt_irrefl 0)
  | append_singleton line p =>
      obtain ⟨c, mark⟩ := p
      obtain ⟨marks, hmarks⟩ := h.screenEchoed
      rw [List.map_append, List.append_assoc] at hmarks
      have hmark : t.screenEchoed.getD line.length false = mark := by
        rw [hmarks]
        exact getD_marks line mark marks
      rw [List.length_append, List.length_singleton, Nat.add_sub_cancel, hmark, endsShown_concat]
      exact (and_iff_right (Nat.succ_pos _)).symm

theorem OnStatus.forward {a : Action} (h : OnStatus a) : a ≠ .backspace := by
  obtain ⟨c, rfl⟩ | ⟨what, rfl⟩ := h
  · exact Action.noConfusion
  · exact Action.noConfusion

theorem KeyFunc.Does.forward {func : KeyFunc} {a : Action} (hdoes : func.Does a)
    (h : func ≠ .backspacePressed) : a ≠ .backspace := by
  cases func with
  | readUnsint =>
      obtain ⟨c, rfl⟩ := hdoes
      exact Action.noConfusion
  | enterPressed =>
      obtain rfl | ⟨request, rfl⟩ := hdoes
      · exact Action.noConfusion
      · exact Action.noConfusion
  | escapePressed => exact OnStatus.forward hdoes
  | printline => exact OnStatus.forward hdoes
  | readChar =>
      obtain rfl := hdoes
      exact Action.noConfusion
  | backspacePressed => exact absurd rfl h
  | altPressed =>
      obtain hstatus | rfl | ⟨buffer, idx, rfl⟩ | ⟨what, rfl⟩ := hdoes
      · exact hstatus.forward
      · exact Action.noConfusion
      · exact Action.noConfusion
      · exact Action.noConfusion
  | noop => exact hdoes.elim
  | shiftReleased => exact hdoes.elim
  | shiftPressed => exact hdoes.elim

theorem forward_processMessage (t : Tty) (buffer : Buffer) (contents : List Byte) (bytes : Word) :
    ∀ a ∈ (t.processMessage buffer contents bytes).2, a ≠ .backspace := by
  refine List.forall_mem_append.mpr ⟨?_, ?_⟩
  · split
    next => exact List.forall_mem_singleton.mpr Action.noConfusion
    next => exact fun a ha => absurd ha List.not_mem_nil
  · exact List.forall_mem_cons.mpr ⟨Action.noConfusion, List.forall_mem_cons.mpr
      ⟨Action.noConfusion, List.forall_mem_singleton.mpr Action.noConfusion⟩⟩

theorem forward_redraw (t : Tty) : ∀ a ∈ t.redraw.2, a ≠ .backspace := by
  intro a ha
  obtain ⟨c, rfl⟩ := mem_redraw t a ha
  exact Action.noConfusion

/-- Only the key for it takes back a character. -/
theorem Handles.forward {r : Round} {y : Tty × List Action} (h : t.Handles r y)
    (hpressed : t.pressed r ≠ some .backspacePressed) : ∀ a ∈ y.2, a ≠ .backspace := by
  cases h with
  | message => exact forward_processMessage _ _ _ _
  | others => exact fun a ha => absurd ha List.not_mem_nil
  | key _ hkey =>
      refine List.forall_mem_append.mpr ⟨forward_redraw t, fun a ha => (run_does a ha).forward ?_⟩
      rintro rfl
      exact hpressed hkey
  | unhandled _ _ hstatus =>
      exact List.forall_mem_append.mpr ⟨forward_redraw t, fun a ha => (hstatus a ha).forward⟩

/-- What the key takes back, the line being shown. -/
theorem backspace_actions (h : t.Holds line) {r : Round} {y : Tty × List Action}
    (hround : t.mainLoop r = some y) (hpressed : t.pressed r = some .backspacePressed) :
    y.2 = t.redraw.2 ++ if EndsShown line then [.backspace] else [] := by
  rw [mainLoop_of_pressed hpressed] at hround
  obtain rfl := Option.some.inj hround
  exact congrArg _ (holds_backspacePressed (holds_redraw h)).2

end Tty

namespace Terminal

/-- An echoed character is taken back with the cursor at the start of the main area. -/
def ErasesAtOrigin (x : Terminal) (r : Round) : Prop :=
  x.tty.pressed r = some .backspacePressed ∧ x.tty.inputDirty = false ∧ 0 < x.tty.screenIdx ∧
    x.tty.screenEchoed.getD (x.tty.screenIdx - 1) false = true ∧ x.screen.cursor = 0

/-- What holds of the terminal while the cursor is on the screen. -/
def Fine (x : Terminal) : Prop := (∃ line, x.tty.Editing line) ∧ x.screen.OnScreen

variable {x y : Terminal} {r : Round}

theorem fine_boot (video : Nat → Byte) : (boot video).Fine := by
  refine ⟨⟨[], Tty.editing_initial⟩, ?_⟩
  have hlines : ∀ (n : Nat) (s : Screen), s.OnScreen →
      (Nat.iterate (fun s => s.putcharacter Screen.lf) n s).OnScreen := by
    intro n
    induction n with
    | zero => exact fun s h => h
    | succ n ih =>
        intro s h
        obtain ⟨text, hputs⟩ := Screen.puts_putcharacter h Screen.lf
        exact ih _ hputs.onScreen
  have hstart : Screen.OnScreen
      { video, cursor := 0, ttyCursor := 3840, crtc := 0, touched := [], scrolled := 0 } :=
    ⟨rfl, Nat.succ_pos _, fun a ha => absurd ha List.not_mem_nil, le_rfl⟩
  have hcls := (hlines 24 _ hstart).goto 0 (by decide) (by decide)
  exact (Screen.puts_ttyPutcharacter hcls Screen.lf).onScreen.moveCursor

/-- A round moves the cursor on, or takes back a character. -/
theorem fine_step (hx : x.Fine) (hcond : ¬ x.ErasesAtOrigin r) (hstep : x.step r = some y) :
    y.Fine := by
  obtain ⟨⟨line, hline⟩, hscreen⟩ := hx
  obtain ⟨z, hz, rfl⟩ := Option.map_eq_some_iff.mp hstep
  have hhandles := Tty.handles_of_mainLoop hz
  refine ⟨⟨_, Tty.editing_handles hline hhandles⟩, ?_⟩
  change (z.2.foldl Screen.act x.screen).OnScreen
  by_cases hpressed : x.tty.pressed r = some .backspacePressed
  · rw [Tty.backspace_actions hline.toHolds hz hpressed]
    obtain ⟨text, hputs⟩ := Screen.puts_acts hscreen (Tty.forward_redraw x.tty)
    split
    next hends =>
      rw [List.foldl_append]
      refine (Screen.erases_backspace hputs.onScreen ?_).onScreen
      rw [Tty.redraw_actions hline.toHolds]
      split
      next => exact (Screen.puts_text hscreen hline.printable_shown).cursor_ne_zero
                (shown_ne_nil hends)
      next hclean =>
        intro hzero
        have hlast := hline.endsShown_iff.mp hends
        exact hcond ⟨hpressed, Bool.eq_false_iff.mpr hclean, hlast.1, hlast.2, hzero⟩
    next =>
      rw [List.append_nil]
      exact hputs.onScreen
  · obtain ⟨text, hputs⟩ := Screen.puts_acts hscreen (hhandles.forward hpressed)
    exact hputs.onScreen

theorem breaks_step (hx : x.Fine) (hcond : x.ErasesAtOrigin r) (hstep : x.step r = some y) :
    ¬ y.screen.CursorKept := by
  obtain ⟨⟨line, hline⟩, hscreen⟩ := hx
  obtain ⟨hpressed, hclean, hidx, hmark, hzero⟩ := hcond
  obtain ⟨z, hz, rfl⟩ := Option.map_eq_some_iff.mp hstep
  have hredraw : x.tty.redraw.2 = [] := by
    rw [Tty.redraw, hclean]
    rfl
  intro hkept
  have hinside : (z.2.foldl Screen.act x.screen).cursor.toNat < 3840 := hkept.inside
  rw [Tty.backspace_actions hline.toHolds hz hpressed, hredraw, List.nil_append,
    if_pos (hline.endsShown_iff.mpr ⟨hidx, hmark⟩)] at hinside
  change x.screen.backspace.cursor.toNat < 3840 at hinside
  rw [Screen.backspace_origin hzero] at hinside
  exact absurd hinside (by decide)

end Terminal

/-! ## A line that is too long -/

namespace Screen

variable {s : Screen} {n : Nat}

/-- Characters that stay in the window. -/
theorem puts_iterate (h : s.OnScreen) (c : Byte) (hn : s.cursor.toNat + 2 * n < 3840) :
    ((fun s => s.putPrintable c)^[n] s).OnScreen ∧
      ((fun s => s.putPrintable c)^[n] s).cursor.toNat = s.cursor.toNat + 2 * n := by
  induction n with
  | zero => exact ⟨h, rfl⟩
  | succ n ih =>
      obtain ⟨hscreen, hcursor⟩ := ih (by omega)
      rw [Function.iterate_succ_apply']
      refine ⟨(puts_putPrintable hscreen c).onScreen, ?_⟩
      rw [putPrintable_cursor hscreen, hcursor, if_pos (by omega)]
      omega

/-- Characters that are taken back up to the start of the main area. -/
theorem backspace_iterate (h : s.OnScreen) (hn : 2 * n ≤ s.cursor.toNat) :
    (backspace^[n] s).OnScreen ∧ (backspace^[n] s).cursor.toNat = s.cursor.toNat - 2 * n := by
  induction n with
  | zero => exact ⟨h, rfl⟩
  | succ n ih =>
      obtain ⟨hscreen, hcursor⟩ := ih (by omega)
      have hne : (backspace^[n] s).cursor ≠ 0 := by
        intro hzero
        rw [hzero] at hcursor
        change 0 = _ at hcursor
        omega
      have herases := erases_backspace hscreen hne
      have hposition := herases.position
      have hscrolled := herases.scrolled
      rw [Function.iterate_succ_apply']
      refine ⟨herases.onScreen, ?_⟩
      rw [position, position, hscrolled, hcursor] at hposition
      omega

end Screen

namespace Terminal

/-- A line is being typed, with echo and no shift key. -/
structure Typing (x : Terminal) (line : List Typed) : Prop where
  holds : x.tty.Holds line
  echo : x.tty.echo = true
  shiftCount : x.tty.shiftCount = 0
  clean : x.tty.inputDirty = false

variable {x : Terminal} {line : List Typed}

theorem Typing.pressed {scancode : Word} {func : Tty.KeyFunc} {row : Tty.KeyRow}
    (h : x.Typing line) (hrow : Tty.km[scancode.toNat]? = some row) (hfunc : row.1 = some func) :
    x.tty.pressed (.key scancode) = some func := by
  have hkey : x.tty.keyFunc scancode = some (some func) := by
    rw [Tty.keyFunc, hrow, Option.map_some, if_pos h.shiftCount, hfunc]
  rw [Round.key, Tty.pressed, if_pos ⟨by decide, by simp [hasFailed]⟩, hkey]
  rfl

theorem Typing.step {scancode : Word} {func : Tty.KeyFunc} {row : Tty.KeyRow}
    (h : x.Typing line) (hrow : Tty.km[scancode.toNat]? = some row) (hfunc : row.1 = some func) :
    x.step (.key scancode) =
      some ⟨(func.run x.tty).1, (func.run x.tty).2.foldl Screen.act x.screen⟩ := by
  have hredraw : x.tty.redraw = (x.tty, []) := by
    rw [Tty.redraw, h.clean]
    rfl
  rw [Terminal.step, Tty.mainLoop_of_pressed (h.pressed hrow hfunc), hredraw]
  rfl

theorem Typing.of_frame {y : Terminal} {line' : List Typed} (h : x.Typing line)
    (hframe : x.tty.Frame y.tty) (hholds : y.tty.Holds line') : y.Typing line' where
  holds := hholds
  echo := hframe.echo.trans h.echo
  shiftCount := hframe.shiftCount.trans h.shiftCount
  clean := hframe.inputDirty.trans h.clean

/-- The key of a digit, which is shown but not kept. -/
theorem Typing.digit (h : x.Typing line) :
    ∃ y, x.step (.key 2) = some y ∧ y.Typing line ∧
      y.screen = x.screen.putPrintable (byte '1') := by
  have hrow : Tty.km[(2 : Word).toNat]? = some (some (.readUnsint 1), none) := rfl
  have hdigit : Tty.putunsint 1 false = [.putcharacter (byte '1') false] := by decide
  refine ⟨_, h.step hrow rfl, h.of_frame (.refl x.tty) h.holds, ?_⟩
  change (Tty.putunsint 1 false).foldl Screen.act x.screen = _
  rw [hdigit]
  rfl

/-- The key of an `a`. -/
theorem Typing.type (h : x.Typing line) (hroom : line.length < bufferSize) :
    ∃ y, x.step (.key 30) = some y ∧ y.Typing (line ++ [(byte 'a', true)]) ∧
      y.screen = x.screen.putPrintable (byte 'a') := by
  obtain ⟨hholds, hactions⟩ := Tty.holds_readChar h.holds (c := byte 'a') rfl
  rw [insert_of_lt hroom, h.echo] at hholds
  rw [if_pos ⟨hroom, h.echo⟩] at hactions
  have hrow : Tty.km[(30 : Word).toNat]? =
    some (some (.readChar (byte 'a')), some (.readChar (byte 'A'))) := rfl
  refine ⟨_, h.step hrow rfl, h.of_frame (Tty.frame_readChar ..) hholds, ?_⟩
  change (x.tty.readChar (byte 'a')).2.foldl Screen.act x.screen = _
  rw [hactions]
  rfl

/-- The backspace key, behind a character that was echoed. -/
theorem Typing.erase {c : Byte} (h : x.Typing (line ++ [(c, true)])) :
    ∃ y, x.step (.key 14) = some y ∧ y.Typing line ∧ y.screen = x.screen.backspace := by
  obtain ⟨hholds, hactions⟩ := Tty.holds_backspacePressed h.holds
  rw [erase_shown] at hholds
  rw [if_pos (endsShown_concat.mpr rfl)] at hactions
  have hrow : Tty.km[(14 : Word).toNat]? =
    some (some .backspacePressed, some .backspacePressed) := rfl
  refine ⟨_, h.step hrow rfl, h.of_frame (Tty.frame_backspacePressed _) hholds, ?_⟩
  change x.tty.backspacePressed.2.foldl Screen.act x.screen = _
  rw [hactions]
  rfl

/-- As many keys of an `a` as there is room for. -/
theorem Typing.run_type {n : Nat} (h : x.Typing line) (hroom : line.length + n ≤ bufferSize) :
    ∃ y, Run Terminal.step always x (List.replicate n (.key 30)) y ∧
      y.Typing (line ++ List.replicate n (byte 'a', true)) ∧
      y.screen = (fun s => s.putPrintable (byte 'a'))^[n] x.screen := by
  induction n generalizing x line with
  | zero => exact ⟨x, .nil x, by rwa [List.replicate_zero, List.append_nil], rfl⟩
  | succ n ih =>
      obtain ⟨y, hstep, htyping, hscreen⟩ := h.type (by omega)
      obtain ⟨z, hrun, htyping', hscreen'⟩ := ih htyping (by
        rw [List.length_append, List.length_singleton]
        omega)
      refine ⟨z, .cons trivial hstep hrun, ?_, ?_⟩
      · rw [List.append_assoc] at htyping'
        exact htyping'
      · rw [hscreen', hscreen]
        rfl

/-- As many backspaces as there are characters. -/
theorem Typing.run_erase {c : Byte} {n : Nat} (h : x.Typing (line ++ List.replicate n (c, true))) :
    ∃ y, Run Terminal.step always x (List.replicate n (.key 14)) y ∧ y.Typing line ∧
      y.screen = Screen.backspace^[n] x.screen := by
  induction n generalizing x with
  | zero => exact ⟨x, .nil x, by rwa [List.replicate_zero, List.append_nil] at h, rfl⟩
  | succ n ih =>
      rw [List.replicate_succ', ← List.append_assoc] at h
      obtain ⟨y, hstep, htyping, hscreen⟩ := h.erase
      obtain ⟨z, hrun, htyping', hscreen'⟩ := ih htyping
      refine ⟨z, .cons trivial hstep hrun, htyping', ?_⟩
      rw [hscreen', hscreen]
      rfl

end Terminal

/-- The runs in which the cursor is always on the screen are those in which no echoed character
is taken back at its start. -/
theorem cursor_kept_iff (video : Nat → Byte) (rs : List Round) (x : Terminal) :
    (Run Terminal.step always (.boot video) rs x ∧
        ∀ rs₁ rs₂ y, rs = rs₁ ++ rs₂ → Run Terminal.step always (.boot video) rs₁ y →
          y.screen.CursorKept) ↔
      Run Terminal.step (fun x r => ¬ x.ErasesAtOrigin r) (.boot video) rs x :=
  Run.kept_iff (fun _ _ _ hx hcond hstep => Terminal.fine_step hx hcond hstep)
    (fun _ _ _ hx hcond hstep => Terminal.breaks_step hx (not_not.mp hcond) hstep)
    (fun _ hx => hx.2.kept) (Terminal.fine_boot video)

/-- Characters to the end of the main area and back from the last line, and one more. -/
theorem Screen.backspace_scrolled {s : Screen} {n m : Nat} (h : s.OnScreen) (c : Byte)
    (hn : s.cursor.toNat + 2 * n = 3838) (hm : 2 * m = 3680) :
    (Screen.backspace^[m + 1] ((fun s => s.putPrintable c)^[n + 1] s)).cursor = 65374 := by
  obtain ⟨hfull, hend⟩ := Screen.puts_iterate (n := n) h c (by omega)
  rw [Function.iterate_succ_apply', Function.iterate_succ_apply']
  have hlast := Screen.putPrintable_cursor hfull c
  rw [if_neg (by omega)] at hlast
  have hscrolled := (Screen.puts_putPrintable hfull c).onScreen
  obtain ⟨-, hzero⟩ := Screen.backspace_iterate (n := m) hscrolled (by omega)
  rw [hlast, hm] at hzero
  exact Screen.backspace_origin (BitVec.eq_of_toNat_eq hzero)

/-- With a digit and a full line behind it, the start of the line is scrolled off, and taking back
the rest leads there. -/
theorem cursor_kept_fails :
    ∃ x, Run Terminal.step always (.boot fun _ => 0)
        (.key 2 :: (List.replicate 1919 (.key 30) ++ List.replicate 1841 (.key 14))) x ∧
      ¬ x.screen.CursorKept := by
  obtain ⟨-, hscreen⟩ := Terminal.fine_boot fun _ => 0
  generalize hboot : (Terminal.boot fun _ => 0) = x at hscreen ⊢
  have htyping : x.Typing [] := by
    rw [← hboot]
    exact ⟨Tty.holds_initial, rfl, rfl, rfl⟩
  have hcursor : x.screen.cursor.toNat = 0 := by
    rw [← hboot]
    rfl
  obtain ⟨w, hdigit, hshown, hfirst⟩ := htyping.digit
  obtain ⟨y, htype, htyped, hfull⟩ := hshown.run_type (n := 1919) (by decide)
  rw [List.nil_append, ← List.replicate_append_replicate (n := 78) (m := 1841)] at htyped
  obtain ⟨z, herase, -, hback⟩ := htyped.run_erase
  refine ⟨z, .cons trivial hdigit (htype.append herase), fun hkept => ?_⟩
  have hone := (Screen.puts_putPrintable hscreen (byte '1')).onScreen
  have htwo := Screen.putPrintable_cursor hscreen (byte '1')
  rw [hcursor] at htwo
  have hout := Screen.backspace_scrolled (n := 1918) (m := 1840) hone (byte 'a')
    (by rw [htwo]; decide) rfl
  have hinside := hkept.inside
  rw [hback, hfull, hfirst, hout] at hinside
  exact absurd hinside (by decide)

end Mycrokernel
