import Mycrokernel.Lib.HiddenLine
import Mycrokernel.Tty.Terminal

/-!
# The input line

`Holds` says that `snd_buffer`, `screen_echoed` and `screen_idx` hold a line, as a list of
characters with their marks.  For each function that is called for a key there is the line that
it leaves and what it does to the screen.
-/

namespace Mycrokernel

open HiddenLine

/-- A character with the mark whether it was echoed. -/
abbrev Typed := Byte × Bool

namespace Tty

/-- The variables of the editor hold the line. -/
structure Holds (t : Tty) (line : List Typed) : Prop where
  screenIdx : t.screenIdx = line.length
  sndBuffer : ∃ rest, t.sndBuffer = line.map Prod.fst ++ 0 :: rest
  screenEchoed : ∃ rest, t.screenEchoed = line.map Prod.snd ++ rest
  sndLength : t.sndBuffer.length = bufferSize + 1
  echoedLength : t.screenEchoed.length = bufferSize
  printable : ∀ p ∈ line, Screen.isPrintable p.1 = true

theorem printable_ne_zero {c : Byte} (h : Screen.isPrintable c = true) : c ≠ 0 := by
  rintro rfl
  exact absurd h (by decide)

namespace Holds

variable {t : Tty} {line : List Typed}

theorem length_le (h : t.Holds line) : line.length ≤ bufferSize := by
  obtain ⟨rest, hrest⟩ := h.sndBuffer
  have hlength := h.sndLength
  rw [hrest, List.length_append, List.length_map, List.length_cons] at hlength
  omega

/-- The text in `snd_buffer` is that of the line. -/
theorem cString_eq (h : t.Holds line) : cString t.sndBuffer = line.map Prod.fst := by
  obtain ⟨rest, hrest⟩ := h.sndBuffer
  have htext : ∀ c ∈ line.map Prod.fst, c ≠ 0 := by
    intro c hc
    obtain ⟨p, hp, rfl⟩ := List.mem_map.mp hc
    exact printable_ne_zero (h.printable p hp)
  rw [cString, hrest, List.takeWhile_append_of_pos fun c hc => decide_eq_true (htext c hc)]
  simp

/-- `snd_buffer[0]` tells whether there is a line. -/
theorem head_eq_zero (h : t.Holds line) : t.sndBuffer.headD 0 = 0 ↔ line = [] := by
  obtain ⟨rest, hrest⟩ := h.sndBuffer
  rw [hrest]
  cases line with
  | nil => simp
  | cons p line => simpa using printable_ne_zero (h.printable p List.mem_cons_self)

theorem printable_shown (h : t.Holds line) : ∀ c ∈ shown line, Screen.isPrintable c = true := by
  intro c hc
  obtain ⟨p, hp, rfl⟩ := List.mem_map.mp hc
  exact h.printable p (List.mem_of_mem_filter hp)

end Holds

theorem holds_initial : initial.Holds [] where
  screenIdx := rfl
  sndBuffer := ⟨List.replicate bufferSize 0, List.replicate_succ⟩
  screenEchoed := ⟨List.replicate bufferSize false, rfl⟩
  sndLength := List.length_replicate
  echoedLength := List.length_replicate
  printable := fun _ hp => absurd hp List.not_mem_nil

variable {t : Tty} {line : List Typed}

/-- The line does not depend on the other variables. -/
theorem Holds.of_eq {t' : Tty} (h : t.Holds line) (hidx : t'.screenIdx = t.screenIdx)
    (hsnd : t'.sndBuffer = t.sndBuffer) (hechoed : t'.screenEchoed = t.screenEchoed) :
    t'.Holds line where
  screenIdx := hidx.trans h.screenIdx
  sndBuffer := hsnd ▸ h.sndBuffer
  screenEchoed := hechoed ▸ h.screenEchoed
  sndLength := hsnd ▸ h.sndLength
  echoedLength := hechoed ▸ h.echoedLength
  printable := h.printable

/-! ## The functions of the editor -/

theorem holds_flush (h : t.Holds line) : t.flush.Holds [] where
  screenIdx := rfl
  sndBuffer := by
    obtain ⟨rest, hrest⟩ := h.sndBuffer
    change ∃ rest, t.sndBuffer.set 0 0 = _
    rw [hrest]
    cases line with
    | nil => exact ⟨rest, rfl⟩
    | cons p line => exact ⟨line.map Prod.fst ++ 0 :: rest, rfl⟩
  screenEchoed := ⟨t.screenEchoed, rfl⟩
  sndLength := List.length_set.trans h.sndLength
  echoedLength := h.echoedLength
  printable := fun _ hp => absurd hp List.not_mem_nil

theorem set_append_cons {α : Type} (front : List α) (x y : α) (back : List α) :
    (front ++ x :: back).set front.length y = front ++ y :: back := by
  simp

theorem holds_readChar (h : t.Holds line) {c : Byte} (hc : Screen.isPrintable c = true) :
    (t.readChar c).1.Holds (HiddenLine.insert bufferSize line c t.echo) ∧
      (t.readChar c).2 =
        if line.length < bufferSize ∧ t.echo then [.putcharacter c false] else [] := by
  rw [readChar, h.screenIdx]
  by_cases hroom : line.length < bufferSize
  · rw [if_pos hroom, insert_of_lt hroom]
    obtain ⟨rest, hrest⟩ := h.sndBuffer
    obtain ⟨marks, hmarks⟩ := h.screenEchoed
    have hlength := h.sndLength
    have hlength' := h.echoedLength
    rw [hrest, List.length_append, List.length_map, List.length_cons] at hlength
    rw [hmarks, List.length_append, List.length_map] at hlength'
    obtain ⟨x, rest, rfl⟩ : ∃ x rest', rest = x :: rest' :=
      List.exists_cons_of_length_pos (by omega)
    obtain ⟨mark, marks, rfl⟩ : ∃ mark marks', marks = mark :: marks' :=
      List.exists_cons_of_length_pos (by omega)
    constructor
    · constructor
      case screenIdx => rw [List.length_append, List.length_singleton]
      case sndBuffer =>
        refine ⟨rest, ?_⟩
        have hfirst := set_append_cons (line.map Prod.fst) 0 c (x :: rest)
        have hsecond := set_append_cons (line.map Prod.fst ++ [c]) x 0 rest
        rw [List.length_map] at hfirst
        rw [List.length_append, List.length_map, List.length_singleton, List.append_assoc,
          List.singleton_append] at hsecond
        dsimp only
        rw [hrest, hfirst, hsecond, List.map_append]
        rfl
      case screenEchoed =>
        refine ⟨marks, ?_⟩
        have hset := set_append_cons (line.map Prod.snd) mark t.echo marks
        rw [List.length_map] at hset
        dsimp only
        rw [hmarks, hset, List.map_append, List.append_assoc]
        rfl
      case sndLength => exact List.length_set.trans (List.length_set.trans h.sndLength)
      case echoedLength => exact List.length_set.trans h.echoedLength
      case printable =>
        exact List.forall_mem_append.mpr ⟨h.printable, List.forall_mem_singleton.mpr hc⟩
    · simp only [hroom, true_and]
  · rw [if_neg hroom, insert_of_not_lt hroom, if_neg fun hboth => hroom hboth.1]
    exact ⟨h, rfl⟩

theorem getD_marks (line : List Typed) (mark : Bool) (marks : List Bool) :
    (line.map Prod.snd ++ mark :: marks).getD line.length false = mark := by
  simp [List.getD_eq_getElem?_getD]

/-- The loop of `backspace_pressed` takes the hidden characters from the end of the line. -/
theorem goBack_spec (line : List Typed) (marks : List Bool) (rest : List Byte) :
    ∃ rest', goBack (line.map Prod.snd ++ marks) line.length (line.map Prod.fst ++ 0 :: rest) =
      ((unhide line).length, (unhide line).map Prod.fst ++ 0 :: rest') := by
  induction line using List.reverseRecOn generalizing marks rest with
  | nil => exact ⟨rest, rfl⟩
  | append_singleton line p ih =>
      obtain ⟨c, mark⟩ := p
      have hmarks : (line ++ [(c, mark)]).map Prod.snd ++ marks =
          line.map Prod.snd ++ mark :: marks := by
        rw [List.map_append, List.append_assoc]
        rfl
      have htext : (line ++ [(c, mark)]).map Prod.fst ++ 0 :: rest =
          line.map Prod.fst ++ c :: 0 :: rest := by
        rw [List.map_append, List.append_assoc]
        rfl
      rw [hmarks, htext, List.length_append, List.length_singleton, goBack, getD_marks]
      cases mark with
      | true =>
          rw [if_pos rfl, unhide_shown, ← htext, List.length_append]
          exact ⟨rest, rfl⟩
      | false =>
          have hset := set_append_cons (line.map Prod.fst) c 0 (0 :: rest)
          rw [List.length_map] at hset
          rw [if_neg (by decide), unhide_hidden, hset]
          exact ih (false :: marks) (0 :: rest)

theorem goBack_length (marks : List Bool) (idx : Nat) (buf : List Byte) :
    (goBack marks idx buf).2.length = buf.length := by
  induction idx generalizing buf with
  | zero => rfl
  | succ idx ih =>
      rw [goBack]
      split
      next => rfl
      next => exact (ih _).trans List.length_set

/-- The variables hold a beginning of the line when the text is cut there. -/
theorem Holds.cut {line' : List Typed} {buf rest : List Byte} (h : t.Holds line)
    (hline : line' <+: line) (hbuf : buf = line'.map Prod.fst ++ 0 :: rest)
    (hlength : buf.length = t.sndBuffer.length) :
    { t with screenIdx := line'.length, sndBuffer := buf }.Holds line' where
  screenIdx := rfl
  sndBuffer := ⟨rest, hbuf⟩
  screenEchoed := by
    obtain ⟨more, rfl⟩ := hline
    obtain ⟨marks, hmarks⟩ := h.screenEchoed
    rw [List.map_append, List.append_assoc] at hmarks
    exact ⟨_, hmarks⟩
  sndLength := hlength.trans h.sndLength
  echoedLength := h.echoedLength
  printable := fun p hp => h.printable p (hline.subset hp)

theorem holds_backspacePressed (h : t.Holds line) :
    t.backspacePressed.1.Holds (erase line) ∧
      t.backspacePressed.2 = if EndsShown line then [.backspace] else [] := by
  rw [backspacePressed, h.screenIdx]
  induction line using List.reverseRecOn with
  | nil => exact ⟨h, rfl⟩
  | append_singleton line p =>
      obtain ⟨c, mark⟩ := p
      obtain ⟨rest, hrest⟩ := h.sndBuffer
      obtain ⟨marks, hmarks⟩ := h.screenEchoed
      have hset := set_append_cons (line.map Prod.fst) c 0 (0 :: rest)
      rw [List.length_map] at hset
      rw [List.map_append, List.append_assoc] at hrest hmarks
      have hcut : t.sndBuffer.set line.length 0 = line.map Prod.fst ++ 0 :: 0 :: rest := by
        rw [hrest]
        exact hset
      have hmark : t.screenEchoed.getD line.length false = mark := by
        rw [hmarks]
        exact getD_marks line mark marks
      rw [List.length_append, List.length_singleton]
      dsimp only
      rw [hmark]
      cases mark with
      | true =>
          rw [if_pos rfl, erase_shown, if_pos (endsShown_concat.mpr rfl)]
          exact ⟨h.cut (List.prefix_append ..) hcut List.length_set, rfl⟩
      | false =>
          obtain ⟨rest', hback⟩ := goBack_spec line (false :: marks) (0 :: rest)
          have hlength := goBack_length t.screenEchoed line.length (t.sndBuffer.set line.length 0)
          have hback' : goBack t.screenEchoed line.length (t.sndBuffer.set line.length 0) =
              ((unhide line).length, (unhide line).map Prod.fst ++ 0 :: rest') := by
            rw [hcut, hmarks]
            exact hback
          rw [hback', List.length_set] at hlength
          rw [if_neg (by decide), hback', erase_hidden,
            if_neg fun hends => Bool.false_ne_true (endsShown_concat.mp hends)]
          exact ⟨h.cut ((List.rdropWhile_prefix _ line).trans (List.prefix_append ..)) rfl hlength,
            rfl⟩

/-- `restore_input` shows the characters that were echoed. -/
theorem echoed_eq (h : t.Holds line) :
    echoed t.sndBuffer t.screenEchoed = (shown line).map fun c => .putcharacter c false := by
  obtain ⟨rest, hrest⟩ := h.sndBuffer
  obtain ⟨marks, hmarks⟩ := h.screenEchoed
  have hprintable := h.printable
  rw [hrest, hmarks]
  clear hrest hmarks h
  induction line with
  | nil => rw [List.map_nil, List.nil_append, echoed, if_pos rfl]; rfl
  | cons p line ih =>
      obtain ⟨c, mark⟩ := p
      have hc : c ≠ 0 := printable_ne_zero (hprintable _ List.mem_cons_self)
      have hnext := ih fun p hp => hprintable p (List.mem_cons_of_mem _ hp)
      rw [List.map_cons, List.map_cons, List.cons_append, List.cons_append, echoed, if_neg hc,
        List.headD_cons, List.tail_cons, hnext]
      cases mark with
      | true => rfl
      | false => rfl

/-! ## Keys -/

/-- What a key makes of the line. -/
def KeyFunc.edit (func : KeyFunc) (echo : Bool) (line : List Typed) : List Typed :=
  match func with
  | .readChar c => HiddenLine.insert bufferSize line c echo
  | .backspacePressed => erase line
  | .enterPressed => []
  | _ => line

/-- Only printable characters are read. -/
def KeyFunc.Reads (func : KeyFunc) : Prop := ∀ c, func = .readChar c → Screen.isPrintable c = true

/-- `Reads`, as a computation over the key map. -/
def KeyFunc.reads : KeyFunc → Bool
  | .readChar c => Screen.isPrintable c
  | _ => true

theorem km_reads : ∀ row ∈ km, row.1.all KeyFunc.reads = true ∧ row.2.all KeyFunc.reads = true := by
  decide +kernel

theorem reads_of_all {entry : Option KeyFunc} {func : KeyFunc}
    (hall : entry.all KeyFunc.reads = true) (hentry : entry = some func) : func.Reads := by
  rintro c rfl
  rw [hentry] at hall
  exact hall

theorem keyFunc_reads {scancode : Word} {func : KeyFunc}
    (h : t.keyFunc scancode = some (some func)) : func.Reads := by
  obtain ⟨row, hrow, hfunc⟩ := Option.map_eq_some_iff.mp h
  have hreads := km_reads row (List.mem_of_getElem? hrow)
  split at hfunc
  next => exact reads_of_all hreads.1 hfunc
  next => exact reads_of_all hreads.2 hfunc

theorem holds_processMessage (h : t.Holds line) (buffer : Buffer) (contents : List Byte)
    (bytes : Word) : (t.processMessage buffer contents bytes).1.Holds line :=
  h.of_eq rfl rfl rfl

theorem holds_run (h : t.Holds line) {func : KeyFunc} (hreads : func.Reads) :
    (func.run t).1.Holds (func.edit t.echo line) := by
  cases func with
  | readUnsint => exact h
  | enterPressed => exact holds_flush h
  | escapePressed => exact h.of_eq rfl rfl rfl
  | noop => exact h
  | printline => exact h
  | readChar c => exact (holds_readChar h (hreads c rfl)).1
  | shiftReleased => exact h.of_eq rfl rfl rfl
  | shiftPressed => exact h.of_eq rfl rfl rfl
  | backspacePressed => exact (holds_backspacePressed h).1
  | altPressed => exact holds_processMessage h ..

/-- The round calls `process_scancode`. -/
def Scans : Round → Prop
  | .message _ => False
  | .interrupts pending port => pending &&& 2 ≠ 0 ∧ ¬ hasFailed port.error

instance : DecidablePred Scans
  | .message _ => inferInstanceAs (Decidable False)
  | .interrupts _ _ => inferInstanceAs (Decidable (_ ∧ _))

/-- The function that a round calls for a key. -/
def pressed (t : Tty) : Round → Option KeyFunc
  | .message _ => none
  | .interrupts pending port =>
    if Scans (.interrupts pending port) then (t.keyFunc port.value).join else none

/-! ## Rounds -/

/-- The action is about the status line. -/
def OnStatus (a : Action) : Prop :=
  (∃ c, a = .putcharacter c true) ∨ ∃ what, a = .putstring what true

theorem mem_puthexLoop {what mask : Word} {tty first : Bool} {n : Nat} {shift : BitVec 8} :
    ∀ a ∈ puthexLoop what tty n mask shift first, ∃ c, a = .putcharacter c tty := by
  induction n generalizing mask shift first with
  | zero => exact fun a ha => absurd ha List.not_mem_nil
  | succ n ih =>
      rw [puthexLoop]
      dsimp only
      split
      next =>
        split
        next => exact ih
        next => exact List.forall_mem_cons.mpr ⟨⟨_, rfl⟩, ih⟩
      next => exact fun a ha => absurd ha List.not_mem_nil

theorem mem_putunsintLoop {what divider : Word} {tty first : Bool} {n : Nat} :
    ∀ a ∈ putunsintLoop tty n what divider first, ∃ c, a = .putcharacter c tty := by
  induction n generalizing what divider first with
  | zero => exact fun a ha => absurd ha List.not_mem_nil
  | succ n ih =>
      rw [putunsintLoop]
      dsimp only
      split
      next =>
        split
        next => exact ih
        next => exact List.forall_mem_append.mpr ⟨mem_puthexLoop, ih⟩
      next => exact fun a ha => absurd ha List.not_mem_nil

/-- `putunsint` puts characters. -/
theorem mem_putunsint {what : Word} {tty : Bool} :
    ∀ a ∈ putunsint what tty, ∃ c, a = .putcharacter c tty := mem_putunsintLoop

theorem pressed_of_not_scans {r : Round} (h : ¬ Scans r) : t.pressed r = none := by
  cases r with
  | message => rfl
  | interrupts => exact if_neg h

/-- A number in the status line, in a sentence. -/
theorem onStatus_sentence (before after : String) (number : Word) :
    ∀ a ∈ .putcharacter Screen.lf true :: putstring before true :: putunsint number true ++
      [putstring after true], OnStatus a := by
  intro a ha
  rcases List.mem_append.mp ha with ha | ha
  · rcases List.mem_cons.mp ha with rfl | ha
    · exact .inl ⟨_, rfl⟩
    · rcases List.mem_cons.mp ha with rfl | ha
      · exact .inr ⟨_, rfl⟩
      · exact .inl (mem_putunsint a ha)
  · rw [List.mem_singleton.mp ha]
    exact .inr ⟨_, rfl⟩

/-- What a key does. -/
def KeyFunc.Does : KeyFunc → Action → Prop
  | .readUnsint _, a => ∃ c, a = .putcharacter c false
  | .enterPressed, a => a = .putcharacter Screen.lf false ∨ ∃ request, a = .call request
  | .escapePressed, a => OnStatus a
  | .printline _, a => OnStatus a
  | .readChar c, a => a = .putcharacter c false
  | .backspacePressed, a => a = .backspace
  | .altPressed, a => OnStatus a ∨ a = .putcharacter Screen.lf false ∨
      (∃ buffer idx, a = .terminate buffer idx) ∨ ∃ what, a = .putstring what false
  | _, _ => False

theorem run_does {func : KeyFunc} : ∀ a ∈ (func.run t).2, func.Does a := by
  have hnone : ∀ a ∈ ([] : List Action), func.Does a := fun a ha => absurd ha List.not_mem_nil
  cases func with
  | readUnsint address => exact mem_putunsint
  | enterPressed =>
      exact List.forall_mem_cons.mpr ⟨.inl rfl, List.forall_mem_singleton.mpr (.inr ⟨_, rfl⟩)⟩
  | escapePressed =>
      refine List.forall_mem_cons.mpr ⟨.inl ⟨_, rfl⟩, List.forall_mem_singleton.mpr (.inr ?_)⟩
      split
      next => exact ⟨_, rfl⟩
      next => exact ⟨_, rfl⟩
  | printline address => exact onStatus_sentence _ _ _
  | readChar c =>
      simp only [KeyFunc.run, readChar]
      split
      next =>
        dsimp only
        split
        next => exact List.forall_mem_singleton.mpr rfl
        next => exact hnone
      next => exact hnone
  | backspacePressed =>
      simp only [KeyFunc.run, backspacePressed]
      split
      next => exact hnone
      next =>
        split
        next => exact List.forall_mem_singleton.mpr rfl
        next => exact hnone
  | altPressed =>
      refine List.forall_mem_cons.mpr ⟨.inl (.inl ⟨_, rfl⟩),
        List.forall_mem_cons.mpr ⟨.inl (.inr ⟨_, rfl⟩), ?_⟩⟩
      refine List.forall_mem_append.mpr ⟨?_, ?_⟩
      · split
        next => exact List.forall_mem_singleton.mpr (.inr (.inl rfl))
        next => exact hnone
      · refine List.forall_mem_cons.mpr ⟨.inr (.inr (.inl ⟨_, _, rfl⟩)), ?_⟩
        exact List.forall_mem_cons.mpr ⟨.inr (.inr (.inr ⟨_, rfl⟩)),
          List.forall_mem_singleton.mpr (.inr (.inl rfl))⟩
  | noop => exact hnone
  | shiftReleased => exact hnone
  | shiftPressed => exact hnone

theorem mem_echoed (buf : List Byte) (marks : List Bool) :
    ∀ a ∈ echoed buf marks, ∃ c, a = .putcharacter c false := by
  induction buf generalizing marks with
  | nil => exact fun a ha => absurd ha List.not_mem_nil
  | cons c buf ih =>
      rw [echoed]
      split
      next => exact fun a ha => absurd ha List.not_mem_nil
      next =>
        refine List.forall_mem_append.mpr ⟨?_, ih _⟩
        split
        next => exact List.forall_mem_singleton.mpr ⟨c, rfl⟩
        next => exact fun a ha => absurd ha List.not_mem_nil

theorem mem_redraw (t : Tty) : ∀ a ∈ t.redraw.2, ∃ c, a = .putcharacter c false := by
  rw [redraw]
  split
  next => exact mem_echoed _ _
  next => exact fun a ha => absurd ha List.not_mem_nil

/-- What a round does. -/
inductive Handles (t : Tty) : Round → Tty × List Action → Prop where
  | message (bytes : List Byte) (length : Nat) :
      length = min (t.received bytes) (maxMsgSize - 1) →
      Handles t (.message bytes) ({ t with rcvBuffer := t.fill bytes }.processMessage .rcvBuffer
        (t.fill bytes) (BitVec.ofNat 32 length))
  /-- Interrupts of others. -/
  | others {pending : BitVec 16} {port : Reply} : ¬ Scans (.interrupts pending port) →
      Handles t (.interrupts pending port) (t, [])
  | key {r : Round} {func : KeyFunc} : Scans r → t.pressed r = some func → func.Reads →
      Handles t r ((func.run t.redraw.1).1, t.redraw.2 ++ (func.run t.redraw.1).2)
  /-- No function is called for the key. -/
  | unhandled {pending : BitVec 16} {port : Reply} {actions : List Action} :
      Scans (.interrupts pending port) → t.pressed (.interrupts pending port) = none →
      (∀ a ∈ actions, OnStatus a) →
      Handles t (.interrupts pending port) (t.redraw.1, t.redraw.2 ++ actions)

theorem mainLoop_message (t : Tty) (bytes : List Byte) :
    t.mainLoop (.message bytes) = some ({ t with rcvBuffer := t.fill bytes }.processMessage
      .rcvBuffer (t.fill bytes) (BitVec.ofNat 32 (min (t.received bytes) (maxMsgSize - 1)))) := by
  have hlength : (if t.received bytes < maxMsgSize then t.received bytes else maxMsgSize - 1) =
      min (t.received bytes) (maxMsgSize - 1) := by
    rw [maxMsgSize]
    split <;> omega
  rw [← hlength]
  rfl

theorem handles_of_mainLoop {r : Round} {y : Tty × List Action} (h : t.mainLoop r = some y) :
    t.Handles r y := by
  cases r with
  | message bytes =>
      rw [mainLoop_message] at h
      obtain rfl := Option.some.inj h
      exact .message bytes _ rfl
  | interrupts pending port =>
      rw [mainLoop] at h
      split at h
      next hkeyboard =>
        split at h
        next => exact absurd h (by simp)
        next hok =>
          obtain rfl := Option.some.inj h
          have hpressed : t.pressed (.interrupts pending port) = (t.keyFunc port.value).join :=
            if_pos ⟨hkeyboard, hok⟩
          unfold processScancode
          dsimp only
          cases hfunc : t.keyFunc port.value with
          | none =>
              rw [hfunc] at hpressed
              exact .unhandled ⟨hkeyboard, hok⟩ hpressed (onStatus_sentence _ _ _)
          | some entry =>
              rw [hfunc] at hpressed
              cases entry with
              | none => exact .unhandled ⟨hkeyboard, hok⟩ hpressed (onStatus_sentence _ _ _)
              | some func => exact .key ⟨hkeyboard, hok⟩ hpressed (keyFunc_reads hfunc)
      next hother =>
        obtain rfl := Option.some.inj h
        exact .others fun hscans => hother hscans.1

theorem mainLoop_of_pressed {r : Round} {func : KeyFunc} (h : t.pressed r = some func) :
    t.mainLoop r =
      some ((func.run t.redraw.1).1, t.redraw.2 ++ (func.run t.redraw.1).2) := by
  cases r with
  | message => exact absurd h (by simp [pressed])
  | interrupts pending port =>
      rw [pressed] at h
      split at h
      next hboth =>
        rw [mainLoop, if_pos hboth.1, if_neg hboth.2, processScancode, Option.join_eq_some_iff.mp h]
        rfl
      next => exact absurd h (by simp)

/-- The line after a round. -/
def editRound (t : Tty) (r : Round) (line : List Typed) : List Typed :=
  match t.pressed r with
  | some func => func.edit t.echo line
  | none => line

/-- The variables hold the line, and it is only missing from the screen if there is one. -/
structure Editing (t : Tty) (line : List Typed) : Prop extends Holds t line where
  dirty : t.inputDirty = true → line ≠ []

theorem editing_initial : initial.Editing [] where
  toHolds := holds_initial
  dirty := fun h => absurd h (by decide)

theorem redraw_inputDirty (t : Tty) : t.redraw.1.inputDirty = false := by
  rw [redraw]
  split
  next => rfl
  next hclean => exact Bool.eq_false_iff.mpr hclean

theorem redraw_echo (t : Tty) : t.redraw.1.echo = t.echo := by
  rw [redraw]
  split
  next => rfl
  next => rfl

theorem holds_redraw (h : t.Holds line) : t.redraw.1.Holds line := by
  rw [redraw]
  split
  next => exact h.of_eq rfl rfl rfl
  next => exact h

/-- The line is shown again if it is missing from the screen. -/
theorem redraw_actions (h : t.Holds line) :
    t.redraw.2 = if t.inputDirty then (shown line).map fun c => .putcharacter c false else [] := by
  rw [redraw]
  split
  next => exact echoed_eq h
  next => rfl

/-- The two differ in the line only. -/
structure Frame (t t' : Tty) : Prop where
  shiftCount : t'.shiftCount = t.shiftCount
  echo : t'.echo = t.echo
  rcvBuffer : t'.rcvBuffer = t.rcvBuffer
  inputDirty : t'.inputDirty = t.inputDirty

theorem Frame.refl (t : Tty) : Frame t t := ⟨rfl, rfl, rfl, rfl⟩

theorem frame_readChar (t : Tty) (c : Byte) : Frame t (t.readChar c).1 := by
  rw [readChar]
  split
  next => exact ⟨rfl, rfl, rfl, rfl⟩
  next => exact .refl t

theorem frame_backspacePressed (t : Tty) : Frame t t.backspacePressed.1 := by
  rw [backspacePressed]
  split
  next => exact .refl t
  next =>
    split
    next => exact ⟨rfl, rfl, rfl, rfl⟩
    next => exact ⟨rfl, rfl, rfl, rfl⟩

/-- Only a message makes the line go missing, and only if there is one. -/
theorem run_inputDirty {func : KeyFunc} (hclean : t.inputDirty = false)
    (hdirty : (func.run t).1.inputDirty = true) :
    func = .altPressed ∧ t.sndBuffer.headD 0 ≠ 0 := by
  have hkept (h : (func.run t).1.inputDirty = t.inputDirty) : False :=
    Bool.false_ne_true (hclean.symm.trans (h.symm.trans hdirty))
  cases func with
  | readChar c => exact (hkept (frame_readChar t c).inputDirty).elim
  | backspacePressed => exact (hkept (frame_backspacePressed t).inputDirty).elim
  | altPressed =>
      have hboth : (t.inputDirty || decide (t.sndBuffer.headD 0 ≠ 0)) = true := hdirty
      rw [hclean, Bool.false_or, decide_eq_true_eq] at hboth
      exact ⟨rfl, hboth⟩
  | readUnsint | enterPressed | escapePressed | noop | printline | shiftReleased | shiftPressed =>
      exact (hkept rfl).elim

theorem editRound_of_none {r : Round} (h : t.pressed r = none) : t.editRound r line = line := by
  rw [editRound, h]

theorem editRound_of_some {r : Round} {func : KeyFunc} (h : t.pressed r = some func) :
    t.editRound r line = func.edit t.echo line := by
  rw [editRound, h]

theorem editing_handles {r : Round} {y : Tty × List Action} (h : t.Editing line)
    (hhandles : t.Handles r y) : y.1.Editing (t.editRound r line) := by
  cases hhandles with
  | message bytes length =>
      have hholds : { t with rcvBuffer := t.fill bytes }.Holds line := h.toHolds.of_eq rfl rfl rfl
      refine ⟨holds_processMessage hholds .., fun hdirty => ?_⟩
      have hboth : (t.inputDirty || decide (t.sndBuffer.headD 0 ≠ 0)) = true := hdirty
      rw [Bool.or_eq_true, decide_eq_true_eq] at hboth
      obtain hdirty | hhead := hboth
      · exact h.dirty hdirty
      · exact fun hnil => hhead (h.head_eq_zero.mpr hnil)
  | others hscans =>
      rw [editRound_of_none (pressed_of_not_scans hscans)]
      exact h
  | key _ hpressed hreads =>
      rename_i func
      have hholds := holds_redraw h.toHolds
      have hrun := holds_run hholds hreads
      rw [redraw_echo] at hrun
      rw [editRound_of_some hpressed]
      refine ⟨hrun, fun hdirty => ?_⟩
      obtain ⟨rfl, hhead⟩ := run_inputDirty t.redraw_inputDirty hdirty
      exact fun hnil => hhead (hholds.head_eq_zero.mpr hnil)
  | unhandled _ hpressed =>
      rw [editRound_of_none hpressed]
      exact ⟨holds_redraw h.toHolds, fun hdirty =>
        absurd (t.redraw_inputDirty.symm.trans hdirty) (by decide)⟩

end Tty

end Mycrokernel
