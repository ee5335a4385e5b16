import Mycrokernel.Tty.Shift

/-!
# The line editor

`Editor` is what the keys do, without arrays: it keeps the line as a list of characters with their
marks, and the lines that have been sent.  `line_editor_refines` says that the terminal does the
same in every session: `snd_buffer` is a string with the text of the line, and what is sent is
what the editor has sent.
-/

namespace Mycrokernel

open Machine HiddenLine

/-- The editor of the specification. -/
structure Editor where
  line : List Typed
  echo : Bool
  shiftCount : Word
  /-- The texts that have been sent, the last one at the end. -/
  sent : List (List Byte)

namespace Editor

def start : Editor := ⟨[], true, 0, []⟩

def text (e : Editor) : List Byte := e.line.map Prod.fst

/-- What a function of the key map does. -/
def press (e : Editor) : Tty.KeyFunc → Editor
  | .readChar c => { e with line := HiddenLine.insert bufferSize e.line c e.echo }
  | .backspacePressed => { e with line := erase e.line }
  | .enterPressed => { e with line := [], sent := e.sent ++ [e.text ++ [0]] }
  | .escapePressed => { e with echo := !e.echo }
  | func => { e with shiftCount := func.count e.shiftCount }

/-- A key. -/
def key (e : Editor) (scancode : Word) : Editor :=
  match Tty.km[scancode.toNat]?.bind fun row => if e.shiftCount = 0 then row.1 else row.2 with
  | some func => e.press func
  | none => e

theorem press_sent (e : Editor) (func : Tty.KeyFunc) : (e.press func).sent =
    e.sent ++ if func = .enterPressed then [e.text ++ [0]] else [] := by
  cases func with
  | enterPressed => rfl
  | readUnsint | escapePressed | noop | printline | shiftReleased | shiftPressed | altPressed
  | readChar | backspacePressed => exact (List.append_nil _).symm

/-- A round: messages do not change the line. -/
def round (e : Editor) (r : Round) : Editor := r.scancode.elim e e.key

end Editor

namespace Tty

/-- The texts that actions send to the shell. -/
def commands (actions : List Action) : List (List Byte) :=
  actions.filterMap fun
    | .call (.sendByFeature feature message _) => if feature = featureCmd then some message else none
    | _ => none

end Tty

/-- A terminal, and what it has sent. -/
structure Session where
  terminal : Terminal
  sent : List (List Byte)

namespace Session

/-- A round of the terminal. -/
def step (s : Session) (r : Round) : Option Session :=
  (s.terminal.tty.mainLoop r).map fun (tty, actions) =>
    ⟨⟨tty, actions.foldl Screen.act s.terminal.screen⟩, s.sent ++ Tty.commands actions⟩

def boot (video : Nat → Byte) : Session := ⟨.boot video, []⟩

/-- To keep what is sent does not change what the terminal does. -/
theorem observes : Observes Terminal.step step terminal := by
  intro s r
  rw [step, Option.map_map]
  rfl

/-- The arrays of the terminal hold the line of the editor, and the same has been sent. -/
structure Edits (s : Session) (e : Editor) : Prop where
  length : e.text.length = s.terminal.tty.screenIdx
  limit : s.terminal.tty.screenIdx ≤ bufferSize
  noNul : 0 ∉ e.text
  sndBuffer : ∃ rest, s.terminal.tty.sndBuffer = e.text ++ 0 :: rest
  screenEchoed : ∃ rest, s.terminal.tty.screenEchoed = e.line.map Prod.snd ++ rest
  sent : s.sent = e.sent

end Session

/-! ## A key -/

namespace Tty

variable {t : Tty} {line : List Typed} {func : KeyFunc}

theorem commands_append (actions actions' : List Action) :
    commands (actions ++ actions') = commands actions ++ commands actions' :=
  List.filterMap_append ..

theorem commands_eq_nil {actions : List Action} (h : ∀ a ∈ actions, ∀ request, a ≠ .call request) :
    commands actions = [] := by
  rw [commands, List.filterMap_eq_nil_iff]
  intro a ha
  cases a with
  | call request => exact absurd rfl (h _ ha request)
  | putcharacter | putstring | backspace | terminate => rfl

theorem OnStatus.not_call {a : Action} (h : OnStatus a) (request : Syscall) : a ≠ .call request := by
  obtain ⟨c, rfl⟩ | ⟨what, rfl⟩ := h
  · exact Action.noConfusion
  · exact Action.noConfusion

theorem commands_redraw (t : Tty) : commands t.redraw.2 = [] := by
  refine commands_eq_nil fun a ha request => ?_
  obtain ⟨c, rfl⟩ := mem_redraw t a ha
  exact Action.noConfusion

theorem commands_processMessage (t : Tty) (buffer : Buffer) (contents : List Byte) (bytes : Word) :
    commands (t.processMessage buffer contents bytes).2 = [] := by
  rw [processMessage]
  dsimp only
  rw [commands_append]
  split
  next => rfl
  next => rfl

/-- Only the key for enter sends something. -/
theorem commands_run (h : t.Holds line) (func : KeyFunc) : commands (func.run t).2 =
    if func = .enterPressed then [line.map Prod.fst ++ [0]] else [] := by
  split
  next henter =>
    rw [henter, ← h.cString_eq]
    rfl
  next hother =>
    refine commands_eq_nil fun a ha request => ?_
    have hdoes := run_does a ha
    cases func with
    | enterPressed => exact absurd rfl hother
    | readUnsint =>
        obtain ⟨c, rfl⟩ := hdoes
        exact Action.noConfusion
    | escapePressed => exact OnStatus.not_call hdoes request
    | printline => exact OnStatus.not_call hdoes request
    | readChar =>
        obtain rfl : a = _ := hdoes
        exact Action.noConfusion
    | backspacePressed =>
        obtain rfl : a = _ := hdoes
        exact Action.noConfusion
    | altPressed =>
        obtain hstatus | rfl | ⟨buffer, idx, rfl⟩ | ⟨what, rfl⟩ := hdoes
        · exact hstatus.not_call request
        · exact Action.noConfusion
        · exact Action.noConfusion
        · exact Action.noConfusion
    | noop | shiftReleased | shiftPressed => exact hdoes.elim

theorem run_echo (t : Tty) (func : KeyFunc) :
    (func.run t).1.echo = if func = .escapePressed then !t.echo else t.echo := by
  cases func with
  | readChar c => exact (frame_readChar t c).echo
  | backspacePressed => exact (frame_backspacePressed t).echo
  | readUnsint | enterPressed | escapePressed | noop | printline | shiftReleased | shiftPressed
  | altPressed => rfl

/-- The variables are those of the editor. -/
structure Follows (t : Tty) (e : Editor) : Prop where
  holds : t.Holds e.line
  echo : t.echo = e.echo
  shiftCount : t.shiftCount = e.shiftCount

theorem follows_redraw {e : Editor} (h : t.Follows e) : t.redraw.1.Follows e where
  holds := holds_redraw h.holds
  echo := (redraw_echo t).trans h.echo
  shiftCount := (redraw_shiftCount t).trans h.shiftCount

/-- A function of the key map does what the editor does. -/
theorem follows_run {e : Editor} (h : t.Follows e) (hreads : func.Reads) :
    (func.run t).1.Follows (e.press func) := by
  have hholds := holds_run h.holds hreads
  have hecho := run_echo t func
  have hcount := run_shiftCount t func
  rw [h.echo] at hholds hecho
  rw [h.shiftCount] at hcount
  cases func with
  | readUnsint | enterPressed | escapePressed | noop | printline | shiftReleased | shiftPressed
  | altPressed | readChar | backspacePressed => exact ⟨hholds, hecho, hcount⟩

/-- A round calls the function that the editor finds for the key. -/
theorem round_eq {e : Editor} (h : t.Follows e) (r : Round) :
    e.round r = (t.pressed r).elim e e.press := by
  cases r with
  | message => rfl
  | interrupts pending port =>
      rw [Editor.round, Round.scancode, pressed]
      split
      next =>
        rw [Option.elim_some, Editor.key, keyFunc, h.shiftCount]
        cases km[port.value.toNat]? with
        | none => rfl
        | some row =>
            rw [Option.bind_some, Option.map_some, Option.join_some]
            generalize (if e.shiftCount = 0 then row.1 else row.2) = entry
            cases entry with
            | none => rfl
            | some func => rfl
      next => rfl

end Tty

/-! ## Rounds -/

namespace Session

variable {s s' : Session} {e : Editor} {r : Round}

/-- The terminal follows the editor, and both have sent the same. -/
structure Agrees (s : Session) (e : Editor) : Prop where
  follows : s.terminal.tty.Follows e
  sent : s.sent = e.sent

theorem agrees_boot (video : Nat → Byte) : (boot video).Agrees .start where
  follows := ⟨Tty.holds_initial, rfl, rfl⟩
  sent := rfl

theorem agrees_step (h : s.Agrees e) (hstep : s.step r = some s') : s'.Agrees (e.round r) := by
  obtain ⟨y, hy, rfl⟩ := Option.map_eq_some_iff.mp hstep
  rw [Tty.round_eq h.follows]
  cases Tty.handles_of_mainLoop hy with
  | message bytes length =>
      refine ⟨⟨h.follows.holds.of_eq rfl rfl rfl, h.follows.echo, h.follows.shiftCount⟩, ?_⟩
      dsimp only
      rw [Tty.commands_processMessage, List.append_nil]
      exact h.sent
  | others hscans =>
      rw [Tty.pressed_of_not_scans hscans]
      exact ⟨h.follows, (List.append_nil _).trans h.sent⟩
  | @key _ func _ hpressed hreads =>
      have hfollows := Tty.follows_redraw h.follows
      rw [hpressed]
      refine ⟨Tty.follows_run hfollows hreads, ?_⟩
      dsimp only
      rw [Tty.commands_append, Tty.commands_redraw, List.nil_append,
        Tty.commands_run hfollows.holds, h.sent]
      exact (e.press_sent func).symm
  | unhandled _ hpressed hstatus =>
      rw [hpressed]
      refine ⟨Tty.follows_redraw h.follows, ?_⟩
      dsimp only
      rw [Tty.commands_append, Tty.commands_redraw, List.nil_append,
        Tty.commands_eq_nil fun a ha request => (hstatus a ha).not_call request, List.append_nil]
      exact h.sent

theorem agrees_run {cond : Session → Round → Prop} {rs : List Round} (h : s.Agrees e)
    (hrun : Run step cond s rs s') : s'.Agrees (rs.foldl Editor.round e) := by
  induction hrun generalizing e with
  | nil => exact h
  | cons _ hstep _ ih => exact ih (agrees_step h hstep)

theorem Agrees.edits (h : s.Agrees e) : s.Edits e where
  length := (List.length_map _).trans h.follows.holds.screenIdx.symm
  limit := h.follows.holds.screenIdx ▸ h.follows.holds.length_le
  noNul := by
    intro hmem
    obtain ⟨p, hp, hzero⟩ := List.mem_map.mp hmem
    exact Tty.printable_ne_zero (h.follows.holds.printable p hp) hzero
  sndBuffer := h.follows.holds.sndBuffer
  screenEchoed := h.follows.holds.screenEchoed
  sent := h.sent

end Session

/-- After every run the arrays hold the line of the editor, and the same has been sent; and every
key can follow. -/
theorem line_editor_refines (video : Nat → Byte) {rs : List Round} {s : Session}
    (h : Run Session.step always (.boot video) rs s) :
    s.Edits (rs.foldl Editor.round .start) ∧ ∀ scancode, (s.step (.key scancode)).isSome :=
  ⟨(Session.agrees_run (Session.agrees_boot video) h).edits, fun _ => rfl⟩

/-- An `A` without echo and a `b` with it are typed and sent. -/
theorem line_editor_refines_two : ∃ s : Session,
    s.Edits ([0x1, 0x2a, 0x1e, 0xaa, 0x1, 0x30, 0x1c].map Round.key |>.foldl Editor.round .start) ∧
      s.sent = [[65, 98, 0]] := by
  obtain ⟨s, hrun, hsent⟩ : ∃ s, Run Session.step always (.boot fun _ => 0)
      ([0x1, 0x2a, 0x1e, 0xaa, 0x1, 0x30, 0x1c].map Round.key) s ∧ s.sent = [[65, 98, 0]] :=
    ⟨_, .cons trivial rfl (.cons trivial rfl (.cons trivial rfl (.cons trivial rfl
      (.cons trivial rfl (.cons trivial rfl (.single trivial rfl)))))), by decide +kernel⟩
  exact ⟨s, (line_editor_refines _ hrun).1, hsent⟩

end Mycrokernel
