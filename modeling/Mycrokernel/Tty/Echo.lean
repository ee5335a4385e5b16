import Mycrokernel.Tty.Cursor

/-!
# What is seen is what is sent

What the screen shows from the start of the input line on should be the echoed part of
`snd_buffer`, unless a message has come in between.  `Watched` notes where the line has started on
the sheet: behind an enter, or where it was shown again.  A message that comes while there is no
line is shown there, so that the line starts behind it (`Begins`).
-/

namespace Mycrokernel

open Machine HiddenLine

namespace Screen

variable {s s' : Screen} {start : Nat} {text text' : List Byte}

/-- What the window shows from a place of the sheet up to the cursor. -/
def shownFrom (s : Screen) (start : Nat) : List Byte :=
  let first := max start (160 * s.scrolled)
  (List.range ((s.position - first) / 2)).map fun i => s.onSheet (first + 2 * i)

/-- The window shows the text from the start of a line up to the cursor. -/
structure Shows (s : Screen) (start : Nat) (text : List Byte) : Prop where
  column : start % 160 = 0
  visible : 160 * s.scrolled ≤ start
  position : s.position = start + 2 * text.length
  text : ∀ i (hi : i < text.length), s.onSheet (start + 2 * i) = text[i]

namespace Shows

theorem shownFrom_eq (h : s.Shows start text) : s.shownFrom start = text := by
  have hposition := h.position
  have hcount : (start + 2 * text.length - start) / 2 = text.length := by omega
  rw [shownFrom, max_eq_left h.visible, hposition, hcount]
  refine List.ext_getElem (by simp) fun i hi hi' => ?_
  rw [List.getElem_map, List.getElem_range]
  exact h.text i hi'

/-- Nothing has been typed at the start of a line. -/
theorem nil (hcolumn : s.cursor.toNat % 160 = 0) : s.Shows s.position [] where
  column := (position_mod s).trans hcolumn
  visible := Nat.le_add_left ..
  position := rfl
  text := fun _ hi => absurd hi (Nat.not_lt_zero _)

/-- A line that is not longer than the screen stays in the window. -/
theorem puts (h : s.Shows start text) (hputs : Puts s text' s')
    (hlength : text.length + text'.length ≤ bufferSize) : s'.Shows start (text ++ text') := by
  have hcolumn := h.column
  have hvisible := h.visible
  have hposition := h.position
  have hposition' := hputs.position
  have hscroll := hputs.scroll
  have hplace : s'.position = s'.cursor.toNat + 160 * s'.scrolled := rfl
  have hvisible' : 160 * s'.scrolled ≤ start := by
    rw [bufferSize] at hlength
    omega
  constructor
  case column => exact hcolumn
  case visible => exact hvisible'
  case position =>
    rw [List.length_append]
    omega
  case text =>
    intro i hi
    by_cases hfirst : i < text.length
    · rw [List.getElem_append_left hfirst, ← h.text i hfirst]
      exact hputs.old _ (by omega) (by omega)
    · rw [List.length_append] at hi
      have hat : start + 2 * i = s.position + 2 * (i - text.length) := by omega
      rw [List.getElem_append_right (by omega), hat]
      exact hputs.new _ (by omega) (by omega)

theorem beside (h : s.Shows start text) (hputs : Puts s [] s') (hlength : text.length ≤ bufferSize) :
    s'.Shows start text := by
  have hshows := h.puts hputs hlength
  rwa [List.append_nil] at hshows

/-- The last character of the line is taken back. -/
theorem erase (h : s.Shows start text) (hscreen : s.OnScreen) (hne : text ≠ []) :
    s.backspace.OnScreen ∧ s.backspace.Shows start text.dropLast := by
  have hvisible := h.visible
  have hposition := h.position
  have hplace : s.position = s.cursor.toNat + 160 * s.scrolled := rfl
  have hlength := List.length_pos_iff.mpr hne
  have hcursor : s.cursor ≠ 0 := by
    intro hzero
    have hnat : s.cursor.toNat = 0 := congrArg BitVec.toNat hzero
    omega
  have herases := erases_backspace hscreen hcursor
  have hback := herases.position
  refine ⟨herases.onScreen, ?_⟩
  constructor
  case column => exact h.column
  case visible =>
    rw [herases.scrolled]
    exact hvisible
  case position =>
    rw [List.length_dropLast]
    omega
  case text =>
    intro i hi
    rw [List.length_dropLast] at hi
    rw [List.getElem_dropLast, ← h.text i (by omega)]
    exact herases.old _ (by omega) (by omega)

end Shows

theorem puts_status (h : s.OnScreen) {a : Action} (ha : Tty.OnStatus a) : Puts s [] (s.act a) := by
  obtain ⟨c, rfl⟩ | ⟨what, rfl⟩ := ha
  · exact puts_ttyPutcharacter h c
  · change Puts s [] (what.foldl (doPutcharacter true) s)
    induction what generalizing s with
    | nil => exact .refl h
    | cons c what ih =>
        have hputs := puts_ttyPutcharacter h c
        exact hputs.trans (ih hputs.onScreen)

/-- The status line is not part of the window. -/
theorem puts_statuses (h : s.OnScreen) {actions : List Action}
    (ha : ∀ a ∈ actions, Tty.OnStatus a) : Puts s [] (actions.foldl act s) := by
  induction actions generalizing s with
  | nil => exact .refl h
  | cons a actions ih =>
      obtain ⟨hfirst, hrest⟩ := List.forall_mem_cons.mp ha
      have hputs := puts_status h hfirst
      exact hputs.trans (ih hputs.onScreen hrest)

/-- `process_message` puts something, and leaves the cursor at the start of a line. -/
theorem acts_processMessage (h : s.OnScreen) (t : Tty) (buffer : Buffer) (contents : List Byte)
    (bytes : Word) :
    ((t.processMessage buffer contents bytes).2.foldl act s).cursor.toNat % 160 = 0 ∧
      ∃ text ≠ [], Puts s text ((t.processMessage buffer contents bytes).2.foldl act s) := by
  have hforward := t.forward_processMessage buffer contents bytes
  have hsplit : ∃ front, (t.processMessage buffer contents bytes).2 =
      front ++ [.putcharacter lf false] :=
    ⟨_ ++ [_, _], (List.append_assoc _ [_, _] [_]).symm⟩
  obtain ⟨front, hfront⟩ := hsplit
  rw [hfront] at hforward ⊢
  obtain ⟨text, hputs⟩ := puts_acts h (List.forall_mem_append.mp hforward).1
  obtain ⟨hcolumn, text', hne, hlf⟩ := puts_lf hputs.onScreen
  rw [List.foldl_append]
  exact ⟨hcolumn, _, List.append_ne_nil_of_right_ne_nil text hne, hputs.trans hlf⟩

/-- What has been put is seen. -/
theorem Puts.shownFrom_ne_nil (h : Puts s text s') (hscreen : s.OnScreen) (hne : text ≠ []) :
    s'.shownFrom s.position ≠ [] := by
  have heven := hscreen.even
  have heven' := h.onScreen.even
  have hposition := h.position
  have hplace : s.position = s.cursor.toNat + 160 * s.scrolled := rfl
  have hplace' : s'.position = s'.cursor.toNat + 160 * s'.scrolled := rfl
  have hlength := List.length_pos_iff.mpr hne
  have hcursor : s'.cursor.toNat ≠ 0 := fun hzero =>
    h.cursor_ne_zero hne (BitVec.eq_of_toNat_eq hzero)
  intro hnil
  have hcount := congrArg List.length hnil
  rw [shownFrom, List.length_map, List.length_range, List.length_nil] at hcount
  omega

end Screen

/-! ## Keys -/

namespace Tty

variable {t : Tty} {line : List Typed} {s : Screen} {start : Nat}

/-- The line is shown, again if it has to be. -/
theorem shows_redraw (h : t.Holds line) (hscreen : s.OnScreen)
    (hshows : t.inputDirty = false → s.Shows start (shown line))
    (hcolumn : t.inputDirty = true → s.cursor.toNat % 160 = 0) :
    (t.redraw.2.foldl Screen.act s).OnScreen ∧
      (t.redraw.2.foldl Screen.act s).Shows (if t.inputDirty then s.position else start)
        (shown line) := by
  rw [redraw_actions h]
  split
  next hdirty =>
    have hputs := Screen.puts_text hscreen h.printable_shown
    have hroom : (shown line).length ≤ bufferSize := (length_shown_le line).trans h.length_le
    have hline := (Screen.Shows.nil (hcolumn hdirty)).puts hputs (by rwa [List.length_nil, Nat.zero_add])
    exact ⟨hputs.onScreen, hline⟩
  next hclean => exact ⟨hscreen, hshows (Bool.eq_false_iff.mpr hclean)⟩

/-- What `process_message` notes: the line is missing from the screen now, if there is one. -/
theorem head_of_clean (h : (t.inputDirty || decide (t.sndBuffer.headD 0 ≠ 0)) = false) :
    t.sndBuffer.headD 0 = 0 := by
  rw [Bool.or_eq_false_iff, decide_eq_false_iff_not, not_not] at h
  exact h.2

/-- The keys behind which a new line may begin. -/
theorem column_run (hscreen : s.OnScreen) {func : KeyFunc}
    (hfunc : func = .enterPressed ∨ func = .altPressed) :
    ((func.run t).2.foldl Screen.act s).OnScreen ∧
      ((func.run t).2.foldl Screen.act s).cursor.toNat % 160 = 0 := by
  obtain rfl | rfl := hfunc
  · obtain ⟨hcolumn, _, _, hputs⟩ := Screen.puts_lf hscreen
    exact ⟨hputs.onScreen, hcolumn⟩
  · have hlf := Screen.puts_ttyPutcharacter hscreen Screen.lf
    have hstatus := Screen.puts_status hlf.onScreen
      (.inr ⟨cString (stringLiteral "faking sudden message"), rfl⟩)
    have hactions : (KeyFunc.altPressed.run t).2 = .putcharacter Screen.lf true ::
        putstring "faking sudden message" true ::
        (t.processMessage .literal suddenMessage (BitVec.ofNat 32 suddenMessage.length)).2 := rfl
    obtain ⟨hcolumn, _, _, hputs⟩ := Screen.acts_processMessage hstatus.onScreen t .literal
      suddenMessage (BitVec.ofNat 32 suddenMessage.length)
    rw [hactions, List.foldl_cons, List.foldl_cons]
    exact ⟨hputs.onScreen, hcolumn⟩

/-- The other keys keep the line on the screen as it is in the buffer, apart from the digits. -/
theorem shows_run (h : t.Holds line) (hscreen : s.OnScreen) (hshows : s.Shows start (shown line))
    {func : KeyFunc} (hreads : func.Reads) (henter : func ≠ .enterPressed)
    (halt : func ≠ .altPressed) (hdigit : ∀ v, func ≠ .readUnsint v) :
    ((func.run t).2.foldl Screen.act s).OnScreen ∧
      ((func.run t).2.foldl Screen.act s).Shows start (shown (func.edit t.echo line)) := by
  have hlength : (shown line).length ≤ bufferSize := (length_shown_le line).trans h.length_le
  have hsame (hstatus : ∀ a ∈ (func.run t).2, OnStatus a) :
      ((func.run t).2.foldl Screen.act s).OnScreen ∧
        ((func.run t).2.foldl Screen.act s).Shows start (shown line) := by
    have hputs := Screen.puts_statuses hscreen hstatus
    exact ⟨hputs.onScreen, hshows.beside hputs hlength⟩
  cases func with
  | readUnsint v => exact absurd rfl (hdigit v)
  | enterPressed => exact absurd rfl henter
  | altPressed => exact absurd rfl halt
  | readChar c =>
      obtain ⟨hholds, hactions⟩ := holds_readChar h (hreads c rfl)
      have hlength' := (length_shown_le _).trans hholds.length_le
      change (List.foldl Screen.act s (t.readChar c).2).OnScreen ∧
        (List.foldl Screen.act s (t.readChar c).2).Shows start
          (shown (HiddenLine.insert bufferSize line c t.echo))
      rw [hactions]
      by_cases hroom : line.length < bufferSize
      · rw [insert_of_lt hroom, shown_append] at hlength' ⊢
        cases hecho : t.echo with
        | true =>
            rw [hecho, shown_true, List.length_append] at hlength'
            have hputs := Screen.puts_printable hscreen (hreads c rfl)
            rw [if_pos ⟨hroom, rfl⟩, shown_true]
            exact ⟨hputs.onScreen, hshows.puts hputs hlength'⟩
        | false =>
            rw [if_neg fun hboth => Bool.false_ne_true hboth.2, shown_false, List.append_nil]
            exact ⟨hscreen, hshows⟩
      · rw [insert_of_not_lt hroom, if_neg fun hboth => hroom hboth.1]
        exact ⟨hscreen, hshows⟩
  | backspacePressed =>
      change (List.foldl Screen.act s t.backspacePressed.2).OnScreen ∧
        (List.foldl Screen.act s t.backspacePressed.2).Shows start (shown (erase line))
      rw [(holds_backspacePressed h).2]
      split
      next hends =>
        rw [shown_erase hends]
        exact hshows.erase hscreen (shown_ne_nil hends)
      next hends =>
        rw [shown_erase_hidden hends]
        exact ⟨hscreen, hshows⟩
  | escapePressed => exact hsame fun a ha => run_does a ha
  | printline => exact hsame fun a ha => run_does a ha
  | noop => exact ⟨hscreen, hshows⟩
  | shiftReleased => exact ⟨hscreen, hshows⟩
  | shiftPressed => exact ⟨hscreen, hshows⟩

end Tty

/-! ## The start of the line -/

namespace Tty

variable {t : Tty} {line : List Typed}

/-- The enter key ends a line. -/
def Enters (t : Tty) (r : Round) : Prop := t.pressed r = some .enterPressed

/-- A message is shown, one that has come or the one that is made up. -/
def ShowsMessage (t : Tty) : Round → Prop
  | .message _ => True
  | r => t.pressed r = some .altPressed

/-- A line begins behind the round: with an enter, or with a message while there is no line. -/
def Begins (t : Tty) (r : Round) : Prop :=
  t.Enters r ∨ t.ShowsMessage r ∧ t.sndBuffer.headD 0 = 0

instance (t : Tty) : DecidablePred t.Enters := fun _ => inferInstanceAs (Decidable (_ = _))

instance (t : Tty) : DecidablePred t.ShowsMessage
  | .message _ => inferInstanceAs (Decidable True)
  | .interrupts _ _ => inferInstanceAs (Decidable (_ = _))

instance (t : Tty) : DecidablePred t.Begins := fun _ => inferInstanceAs (Decidable (_ ∨ _ ∧ _))

/-- The characters of `snd_buffer` whose flag in `screen_echoed` is set. -/
def echoedText (t : Tty) : List Byte := shown ((cString t.sndBuffer).zip t.screenEchoed)

theorem zip_marks (line : List Typed) (marks : List Bool) :
    (line.map Prod.fst).zip (line.map Prod.snd ++ marks) = line := by
  induction line with
  | nil => rfl
  | cons p line ih => exact congrArg (p :: ·) ih

theorem Holds.echoedText_eq (h : t.Holds line) : t.echoedText = shown line := by
  obtain ⟨marks, hmarks⟩ := h.screenEchoed
  rw [echoedText, h.cString_eq, hmarks, zip_marks]

end Tty

/-- A terminal, and the place of the sheet where the input line has started. -/
structure Watched where
  terminal : Terminal
  start : Nat

namespace Watched

/-- The note on a round.  The line starts behind it if it `begins` there, and where it is shown
again. -/
def note (begins : Tty → Round → Prop) [∀ t, DecidablePred (begins t)] (w : Watched) (r : Round)
    (y : Terminal) : Watched where
  terminal := y
  start :=
    if begins w.terminal.tty r then y.screen.position
    else if w.terminal.tty.inputDirty = true ∧ Tty.Scans r then w.terminal.screen.position
    else w.start

/-- A round of the terminal. -/
def step (begins : Tty → Round → Prop) [∀ t, DecidablePred (begins t)] (w : Watched) (r : Round) :
    Option Watched :=
  (w.terminal.step r).map (w.note begins r)

section

variable {begins : Tty → Round → Prop} [∀ t, DecidablePred (begins t)] {w : Watched} {r : Round}
  {y : Terminal}

theorem note_begins (h : begins w.terminal.tty r) :
    w.note begins r y = ⟨y, y.screen.position⟩ := by
  rw [note, if_pos h]

theorem note_scans (h : ¬ begins w.terminal.tty r) (hscans : Tty.Scans r) :
    w.note begins r y =
      ⟨y, if w.terminal.tty.inputDirty then w.terminal.screen.position else w.start⟩ := by
  rw [note, if_neg h, if_congr (and_iff_left hscans) rfl rfl]

theorem note_others (h : ¬ begins w.terminal.tty r) (hscans : ¬ Tty.Scans r) :
    w.note begins r y = ⟨y, w.start⟩ := by
  rw [note, if_neg h, if_neg fun hboth => hscans hboth.2]

end

/-- The terminal at the start, when the line is empty. -/
def boot (video : Nat → Byte) : Watched := ⟨.boot video, (Terminal.boot video).screen.position⟩

theorem boot_start (video : Nat → Byte) :
    (boot video).start = (boot video).terminal.screen.position := rfl

/-- To watch the terminal does not change what it does. -/
theorem observes (begins : Tty → Round → Prop) [∀ t, DecidablePred (begins t)] :
    Observes Terminal.step (step begins) Watched.terminal := by
  intro w r
  rw [step, Option.map_map]
  exact Option.map_id'

/-- Unless a message has come in between, what is seen of the line is what will be sent. -/
def Seen (w : Watched) : Prop :=
  w.terminal.tty.inputDirty = false →
    w.terminal.screen.shownFrom w.start = w.terminal.tty.echoedText

/-- No digit is typed. -/
def NoDigit (w : Watched) (r : Round) : Prop :=
  ∀ v, w.terminal.tty.pressed r ≠ some (.readUnsint v)

/-- The key is that of a digit. -/
def isDigit : Option Tty.KeyFunc → Bool
  | some (.readUnsint _) => true
  | _ => false

theorem noDigit_iff {w : Watched} {r : Round} :
    isDigit (w.terminal.tty.pressed r) = false ↔ w.NoDigit r := by
  unfold NoDigit
  rcases w.terminal.tty.pressed r with - | f
  · simp [isDigit]
  · cases f <;> simp [isDigit]

instance (w : Watched) (r : Round) : Decidable (w.NoDigit r) := decidable_of_iff _ noDigit_iff

/-- The screen fits the line. -/
structure Fits (w : Watched) (line : List Typed) : Prop where
  editing : w.terminal.tty.Editing line
  onScreen : w.terminal.screen.OnScreen
  shows : w.terminal.tty.inputDirty = false → w.terminal.screen.Shows w.start (shown line)
  column : w.terminal.tty.inputDirty = true → w.terminal.screen.cursor.toNat % 160 = 0

theorem Fits.seen {w : Watched} {line : List Typed} (h : w.Fits line) : w.Seen := by
  intro hclean
  rw [(h.shows hclean).shownFrom_eq, h.editing.echoedText_eq]

theorem fits_boot (video : Nat → Byte) : (boot video).Fits [] where
  editing := Tty.editing_initial
  onScreen := (Terminal.fine_boot video).2
  shows := fun _ => .nil rfl
  column := fun h => absurd h Bool.false_ne_true

/-- A line may begin at the start of a line of the screen. -/
theorem Fits.of_column {w : Watched} {line : List Typed} (hediting : w.terminal.tty.Editing line)
    (hscreen : w.terminal.screen.OnScreen) (hcolumn : w.terminal.screen.cursor.toNat % 160 = 0)
    (hstart : w.terminal.tty.inputDirty = false →
      line = [] ∧ w.start = w.terminal.screen.position) : w.Fits line where
  editing := hediting
  onScreen := hscreen
  shows := fun hclean => by
    obtain ⟨rfl, hposition⟩ := hstart hclean
    rw [hposition]
    exact .nil hcolumn
  column := fun _ => hcolumn

theorem not_begins {t : Tty} {pending : BitVec 16} {port : Reply}
    (henter : t.pressed (.interrupts pending port) ≠ some .enterPressed)
    (halt : t.pressed (.interrupts pending port) ≠ some .altPressed) :
    ¬ t.Begins (.interrupts pending port) := by
  rintro (h | ⟨h, -⟩)
  · exact henter h
  · exact halt h

/-- A round without a digit keeps the screen fitting. -/
theorem fits_step {w w' : Watched} {r : Round} {line : List Typed} (h : w.Fits line)
    (hdigit : w.NoDigit r) (hstep : w.step Tty.Begins r = some w') :
    w'.Fits (w.terminal.tty.editRound r line) := by
  obtain ⟨⟨t, s⟩, start⟩ := w
  obtain ⟨y, hy, rfl⟩ := Option.map_eq_some_iff.mp hstep
  obtain ⟨⟨t', actions⟩, hround, rfl⟩ := Option.map_eq_some_iff.mp hy
  have hhandles : t.Handles r (t', actions) := Tty.handles_of_mainLoop hround
  have hediting := Tty.editing_handles h.editing hhandles
  have hholds : t.Holds line := h.editing.toHolds
  have hscreen : s.OnScreen := h.onScreen
  have hredraw := Tty.shows_redraw hholds hscreen h.shows h.column
  dsimp only at hediting hredraw ⊢
  cases hhandles with
  | message bytes length =>
      obtain ⟨hcolumn, _, _, hputs⟩ := Screen.acts_processMessage hscreen
        { t with rcvBuffer := t.fill bytes } .rcvBuffer (t.fill bytes) (BitVec.ofNat 32 length)
      refine .of_column hediting hputs.onScreen hcolumn fun hclean => ?_
      have hhead : t.sndBuffer.headD 0 = 0 := Tty.head_of_clean (t := t) hclean
      exact ⟨hholds.head_eq_zero.mp hhead, if_pos (.inr ⟨trivial, hhead⟩)⟩
  | others hscans =>
      have hnone := t.pressed_of_not_scans hscans
      rw [note_others (not_begins (by simp [hnone]) (by simp [hnone])) hscans,
        Tty.editRound_of_none hnone]
      exact ⟨h.editing, hscreen, h.shows, h.column⟩
  | key hscans hpressed hreads =>
      rename_i func
      obtain ⟨pending, port, rfl⟩ : ∃ pending port, r = .interrupts pending port := by
        cases r with
        | message => exact hscans.elim
        | interrupts pending port => exact ⟨pending, port, rfl⟩
      have hholds' := Tty.holds_redraw hholds
      rw [List.foldl_append]
      by_cases hfunc : func = .enterPressed ∨ func = .altPressed
      · obtain ⟨hon, hcolumn⟩ := Tty.column_run (t := t.redraw.1) hredraw.1 hfunc
        refine .of_column hediting hon hcolumn fun hclean => ?_
        rw [Tty.editRound_of_some hpressed]
        obtain rfl | rfl := hfunc
        · exact ⟨rfl, if_pos (.inl hpressed)⟩
        · have hneither : (Tty.KeyFunc.altPressed.run t.redraw.1).1.inputDirty = false := hclean
          have hline := hholds'.head_eq_zero.mp (Tty.head_of_clean hneither)
          have hbegins : t.Begins (.interrupts pending port) :=
            .inr ⟨hpressed, hholds.head_eq_zero.mpr hline⟩
          refine ⟨hline, ?_⟩
          rw [note_begins hbegins]
      · obtain ⟨henter, halt⟩ := not_or.mp hfunc
        have hrun := Tty.shows_run hholds' hredraw.1 hredraw.2 hreads henter halt
          fun v hv => hdigit v (hv ▸ hpressed)
        rw [Tty.redraw_echo] at hrun
        rw [note_scans (not_begins (by simp [hpressed, henter]) (by simp [hpressed, halt])) hscans]
        rw [Tty.editRound_of_some hpressed] at hediting ⊢
        refine ⟨hediting, hrun.1, fun _ => hrun.2, fun hdirty => ?_⟩
        exact absurd (Tty.run_inputDirty t.redraw_inputDirty hdirty).1 halt
  | unhandled hscans hpressed hstatus =>
      have hputs := Screen.puts_statuses hredraw.1 hstatus
      have hroom := (length_shown_le line).trans hholds.length_le
      rw [note_scans (not_begins (by simp [hpressed]) (by simp [hpressed])) hscans,
        Tty.editRound_of_none hpressed, List.foldl_append]
      rw [Tty.editRound_of_none hpressed] at hediting
      refine ⟨hediting, hputs.onScreen, fun _ => hredraw.2.beside hputs hroom, fun hdirty => ?_⟩
      exact absurd (t.redraw_inputDirty.symm.trans hdirty) Bool.false_ne_true

end Watched

theorem Watched.fits_run {video : Nat → Byte} {rs : List Round} {w : Watched}
    (h : Run (Watched.step Tty.Begins) Watched.NoDigit (.boot video) rs w) :
    ∃ line, w.Fits line := by
  refine h.invariant (P := fun w => ∃ line, w.Fits line) (fun w r w' hw hdigit hstep => ?_)
    ⟨[], Watched.fits_boot video⟩
  obtain ⟨line, hline⟩ := hw
  exact ⟨_, Watched.fits_step hline hdigit hstep⟩

/-- It takes digits to get the cursor off the screen. -/
theorem cursor_kept_of_noDigit {video : Nat → Byte} {rs : List Round} {w : Watched}
    (h : Run (Watched.step Tty.Begins) Watched.NoDigit (.boot video) rs w) :
    w.terminal.screen.CursorKept := by
  obtain ⟨line, hline⟩ := Watched.fits_run h
  exact hline.onScreen.kept

/-- Without digits, what is seen from the start of the line on is what will be sent. -/
theorem seen_is_sent (video : Nat → Byte) (rs : List Round) (w : Watched)
    (h : Run (Watched.step Tty.Begins) Watched.NoDigit (.boot video) rs w) : w.Seen := by
  obtain ⟨line, hline⟩ := Watched.fits_run h
  exact hline.seen

/-- An `a` is typed, a message comes, and a `b`, a backspace and a `c` are typed.  The line is shown
again behind the message. -/
theorem seen_is_sent_typed :
    ∃ w, Run (Watched.step Tty.Begins) Watched.NoDigit (.boot fun _ => 0)
        [.key 30, .message (stringLiteral "hi"), .key 48, .key 14, .key 46] w ∧
      w.terminal.tty.inputDirty = false ∧ w.start = 480 ∧
      w.terminal.screen.shownFrom w.start = [byte 'a', byte 'c'] := by
  have hrun : ([.key 30, .message (stringLiteral "hi"), .key 48, .key 14, .key 46].foldlM
      (Machine.guarded (Watched.step Tty.Begins) Watched.NoDigit) (.boot fun _ => 0)).map
        (fun w => (w.terminal.tty.inputDirty, w.start, w.terminal.tty.echoedText)) =
      some (false, 480, [97, 99]) := by decide +kernel
  obtain ⟨w, hw, heq⟩ := Option.map_eq_some_iff.mp hrun
  have hr := Run.of_foldlM (fun _ _ _ => Machine.of_guarded) hw
  simp only [Prod.mk.injEq] at heq
  obtain ⟨hclean, hstart, htext⟩ := heq
  exact ⟨w, hr, hclean, hstart, (seen_is_sent _ _ w hr hclean).trans htext⟩

/-! ## A message while there is no line -/

namespace Watched

variable {w : Watched} {line : List Typed}

/-- A message that comes while there is no line is seen, but not sent. -/
theorem not_seen_message (htyping : w.terminal.Typing []) (hscreen : w.terminal.screen.OnScreen)
    (hstart : w.start = w.terminal.screen.position) (bytes : List Byte) :
    ∃ w', w.step Tty.Enters (.message bytes) = some w' ∧ ¬ w'.Seen := by
  obtain ⟨⟨t, s⟩, start⟩ := w
  obtain rfl : start = s.position := hstart
  have hround := t.mainLoop_message bytes
  generalize BitVec.ofNat 32 (min (t.received bytes) (maxMsgSize - 1)) = length at hround
  have hholds : { t with rcvBuffer := t.fill bytes }.Holds [] := htyping.holds.of_eq rfl rfl rfl
  have hheld := Tty.holds_processMessage hholds .rcvBuffer (t.fill bytes) length
  have hhead : t.sndBuffer.headD 0 = 0 := htyping.holds.head_eq_zero.mpr rfl
  have hclean : ({ t with rcvBuffer := t.fill bytes }.processMessage .rcvBuffer (t.fill bytes)
      length).1.inputDirty = false := by
    change (t.inputDirty || decide (t.sndBuffer.headD 0 ≠ 0)) = false
    rw [htyping.clean, hhead]
    rfl
  obtain ⟨-, text, hne, hputs⟩ := Screen.acts_processMessage hscreen
    { t with rcvBuffer := t.fill bytes } .rcvBuffer (t.fill bytes) length
  have hshown := hputs.shownFrom_ne_nil hscreen hne
  generalize { t with rcvBuffer := t.fill bytes }.processMessage .rcvBuffer (t.fill bytes) length = z
    at hround hheld hclean hshown
  have hstep : Terminal.step ⟨t, s⟩ (.message bytes) = some ⟨z.1, z.2.foldl Screen.act s⟩ :=
    congrArg (Option.map _) hround
  refine ⟨⟨⟨z.1, z.2.foldl Screen.act s⟩, s.position⟩, ?_, fun hseen => ?_⟩
  · have hnot : ¬ t.Enters (.message bytes) := by simp [Tty.Enters, Tty.pressed]
    have hscans : ¬ Tty.Scans (.message bytes) := id
    rw [step, hstep, Option.map_some, note_others hnot hscans]
  · exact hshown ((hseen hclean).trans hheld.echoedText_eq)

/-- A digit is seen, but not sent. -/
theorem not_seen_digit (htyping : w.terminal.Typing []) (hscreen : w.terminal.screen.OnScreen)
    (hstart : w.start = w.terminal.screen.position) :
    ∃ w', w.step Tty.Begins (.key 2) = some w' ∧ ¬ w'.Seen := by
  obtain ⟨y, hstep, htyped, hshown⟩ := htyping.digit
  have hrow : Tty.km[(2 : Word).toNat]? = some (some (.readUnsint 1), none) := rfl
  have hpressed : w.terminal.tty.pressed (.key 2) = some (.readUnsint 1) := htyping.pressed hrow rfl
  have hnot : ¬ w.terminal.tty.Begins (.key 2) :=
    not_begins (fun henter => by cases hpressed.symm.trans henter)
      (fun halt => by cases hpressed.symm.trans halt)
  have hscans : Tty.Scans (.key 2) := ⟨by decide, by simp [hasFailed]⟩
  refine ⟨_, by rw [step, hstep, Option.map_some, note_scans hnot hscans, htyping.clean], ?_⟩
  intro hseen
  have hputs := Screen.puts_putPrintable hscreen (byte '1')
  refine hputs.shownFrom_ne_nil hscreen (List.cons_ne_nil _ _) ?_
  rw [← hshown, ← hstart]
  exact (hseen htyped.clean).trans htyped.holds.echoedText_eq

/-- The enter key, while a line is typed. -/
theorem step_enter (htyping : w.terminal.Typing line) (hscreen : w.terminal.screen.OnScreen) :
    ∃ w', w.step Tty.Enters (.key 28) = some w' ∧ w'.terminal.Typing [] ∧
      w'.terminal.screen.OnScreen ∧ w'.start = w'.terminal.screen.position := by
  have hrow : Tty.km[(28 : Word).toNat]? = some (some .enterPressed, some .enterPressed) := rfl
  have hstep := htyping.step hrow rfl
  have henter : w.terminal.tty.Enters (.key 28) := htyping.pressed hrow rfl
  obtain ⟨-, text, -, hputs⟩ := Screen.puts_lf hscreen
  rw [step, hstep, Option.map_some, note_begins henter]
  exact ⟨_, rfl, htyping.of_frame ⟨rfl, rfl, rfl, rfl⟩ (Tty.holds_flush htyping.holds),
    hputs.onScreen, rfl⟩

end Watched

/-- If a line only begins behind an enter, what is seen of it need not be what is sent; and the
digits that are shown are never sent. -/
theorem seen_is_sent_fails :
    (∃ w, Run (Watched.step Tty.Enters) always (.boot fun _ => 0)
        [.key 28, .message (stringLiteral "hi")] w ∧ ¬ w.Seen) ∧
      ∃ w, Run (Watched.step Tty.Begins) always (.boot fun _ => 0) [.key 2] w ∧ ¬ w.Seen := by
  obtain ⟨-, hscreen⟩ := Terminal.fine_boot fun _ => 0
  have htyping : (Terminal.boot fun _ => 0).Typing [] := ⟨Tty.holds_initial, rfl, rfl, rfl⟩
  constructor
  · obtain ⟨w, hkey, htyped, hscreen', hstart⟩ :=
      Watched.step_enter (w := .boot fun _ => 0) htyping hscreen
    obtain ⟨w', hmessage, hseen⟩ := Watched.not_seen_message htyped hscreen' hstart _
    exact ⟨w', .cons trivial hkey (.single trivial hmessage), hseen⟩
  · obtain ⟨w, hdigit, hseen⟩ :=
      Watched.not_seen_digit (w := .boot fun _ => 0) htyping hscreen (Watched.boot_start _)
    exact ⟨w, .single trivial hdigit, hseen⟩

end Mycrokernel
