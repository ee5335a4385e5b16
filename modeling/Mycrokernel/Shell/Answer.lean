import Mycrokernel.Usr.Plain
import Mycrokernel.Tty.Editor
import Mycrokernel.Tty.Message

/-!
# The shell

`main_loop` of `shell/main.c` tells the terminal how long each message is that it gets.  What it
says is short, so that `outf` sends it in one message (`Outf.loop_short`), and `main_loop` makes
two calls a message.

The messages come from the terminal: they are lines that the editor sends, not all of them if the
kernel refuses some, and each is answered with the number of its characters (`lines_answered`).
-/

namespace Mycrokernel

open Machine Dialogue

variable {stack : Stack} {block : Word} {o : Outf} {part text rest : List Byte} {n : Nat}

/-! ## Short messages -/

/-- A character that begins no conversion. -/
theorem conversionOf_of_ne {c : Byte} {cs : List Byte} (h : c ≠ byte '%') :
    conversionOf (c :: cs) = none := by
  cases cs with
  | nil => rfl
  | cons d cs => exact if_neg h

/-- Text without a `%` is copied. -/
theorem flatMap_items (args : Nat → Word) (n : Nat) (h : byte '%' ∉ text) (rest : List Byte) :
    (items args n (text ++ rest)).flatMap Item.text =
      text ++ (items args n rest).flatMap Item.text := by
  induction text with
  | nil => rfl
  | cons c cs ih =>
      rw [List.mem_cons, not_or] at h
      rw [List.cons_append, items_char (conversionOf_of_ne (Ne.symm h.1)), List.flatMap_cons,
        Item.text, ih h.2]
      rfl

/-- A format with one conversion in it. -/
theorem formatted_number (args : Nat → Word) (front back : List Byte) {d : Byte}
    {conversion : Conversion} (h : Conversion.ofByte d = some conversion)
    (hfront : byte '%' ∉ front) (hback : byte '%' ∉ back) :
    formatted args (front ++ byte '%' :: d :: back) =
      front ++ (conversion.text (args 0) ++ back) := by
  have hrest := flatMap_items args 1 hback []
  rw [List.append_nil, items, List.flatMap_nil, List.append_nil] at hrest
  rw [formatted, flatMap_items args 0 hfront, items_number h, List.flatMap_cons, Item.text, hrest]

namespace Outf

/-- A text that does not fill the buffer is sent in one message. -/
theorem loop_short (htext : 0 ∉ text) (hold : o.Holds part) (hvl : o.vl = n)
    (hsize : part.length + ((items stack.args n text).flatMap Item.text).length < maxMsgSize - 1) :
    ∃ o' : Outf, o'.message = part ++ (items stack.args n text).flatMap Item.text ++ [0] ∧
      loop stack block (text ++ 0 :: rest) o = o'.send block .done := by
  induction n, text using format_induction generalizing o part with
  | nil n =>
      refine ⟨o.put 0, ?_, loop_end⟩
      rw [message_put hold, items, List.flatMap_nil, List.append_nil]
  | char n c cs hchar ih =>
      rw [items_char hchar, List.flatMap_cons, Item.text, List.length_append,
        List.length_singleton] at hsize
      have htail : 0 ∉ cs := fun h => htext (List.mem_cons_of_mem _ h)
      obtain ⟨o', hmessage, hloop⟩ := ih htail (hold.append c) hvl
        (by rw [List.length_append, List.length_singleton]; omega)
      refine ⟨o', ?_, ?_⟩
      · rw [hmessage, items_char hchar, List.flatMap_cons, Item.text, List.append_assoc part]
      · rw [loop_literal hchar htext hold, if_neg (by omega)]
        exact hloop
  | number n d cs conversion hconversion ih =>
      rw [items_number hconversion, List.flatMap_cons, Item.text, List.length_append] at hsize
      have htail : 0 ∉ cs := fun h => htext (List.mem_cons_of_mem _ (List.mem_cons_of_mem _ h))
      subst hvl
      have htaken := (hold.taken stack conversion).foldl_append
        (conversion.text (stack.args o.vl))
      obtain ⟨o', hmessage, hloop⟩ := ih htail htaken (vl_foldl_append _)
        (by rw [List.length_append]; omega)
      refine ⟨o', ?_, ?_⟩
      · rw [hmessage, items_number hconversion, List.flatMap_cons, Item.text,
          List.append_assoc part]
      · rw [List.cons_append, List.cons_append, loop_number hconversion, number_eq hold,
          if_neg (by omega)]
        exact hloop

end Outf

/-- A call of `outf` whose text is short. -/
theorem outf_short (stack : Stack) (block : Word) (htext : 0 ∉ text)
    (hsize : (formatted stack.args text).length < maxMsgSize - 1) :
    ∃ o : Outf, o.message = formatted stack.args text ++ [0] ∧
      outf stack block (text ++ [0]) = o.send block .done :=
  Outf.loop_short htext Outf.holds_start rfl (by rwa [List.length_nil, Nat.zero_add])

namespace Shell

/-! ## The program -/

/-- The format of the answers. -/
def fmt : String := "got message containing %u characters"

/-- What a receive leaves in `buffer`. -/
def fill (buffer message : List Byte) : List Byte :=
  message.take maxMsgSize ++ buffer.drop (min maxMsgSize message.length)

/-- `main_loop`, whose receives bring `messages`.  It waits when they have all come.  Before a
call of `outf` the stack is one of `frames`, and the argument is put on it. -/
def mainLoop (frames : Nat → Stack) (address : Word) :
    List (List Byte) → List Byte → Dialogue Syscall Reply Unit
  | [], _ => .ask (.receive anyproc address (BitVec.ofNat 32 maxMsgSize)) fun _ => .stuck
  | message :: messages, buffer =>
    .ask (.receive anyproc address (BitVec.ofNat 32 maxMsgSize)) fun reply =>
      if hasFailed reply.error then .done ()
      else
        match strlen (fill buffer message) with
        | none => .stuck
        | some len =>
          -- what becomes of the answer is not looked at
          (outf ((frames messages.length).push (BitVec.ofNat 32 len)) 1 (stringLiteral fmt)).bind
            fun _ => mainLoop frames address messages (fill buffer message)

/-! ## Answers -/

/-- What the shell says about a message of `n` characters. -/
def answer (n : Nat) : List Byte :=
  "got message containing ".toList.map byte ++
    (uintText (BitVec.ofNat 32 n) ++ stringLiteral " characters")

theorem formatted_fmt (args : Nat → Word) :
    formatted args (fmt.toList.map byte) = "got message containing ".toList.map byte ++
      (uintText (args 0) ++ " characters".toList.map byte) := by
  have hfmt : fmt.toList.map byte = "got message containing ".toList.map byte ++
      byte '%' :: byte 'u' :: " characters".toList.map byte := by decide
  have hu : Conversion.ofByte (byte 'u') = some .u := by decide
  rw [hfmt]
  exact formatted_number args _ _ hu (by decide) (by decide +kernel)

/-- A call of `outf` sends one answer. -/
theorem outf_fmt (stack : Stack) (block : Word) (len : Nat) :
    ∃ o : Outf, o.message = answer len ∧
      outf (stack.push (BitVec.ofNat 32 len)) block (stringLiteral fmt) = o.send block .done := by
  have hassoc : ∀ front number back : List Byte,
      front ++ (number ++ back) ++ [0] = front ++ (number ++ (back ++ [0])) := by
    intro front number back
    rw [List.append_assoc, List.append_assoc]
  have hlen : (uintText (BitVec.ofNat 32 len)).length ≤ 11 :=
    (Conversion.numberText .u (BitVec.ofNat 32 len)).length_le
  have htext := formatted_fmt (stack.push (BitVec.ofNat 32 len)).args
  have harg : (stack.push (BitVec.ofNat 32 len)).args 0 = BitVec.ofNat 32 len := by
    simp [Stack.push]
  rw [harg] at htext
  have hfront : ("got message containing ".toList.map byte).length = 23 := by decide
  have hback : (" characters".toList.map byte).length = 11 := by decide
  obtain ⟨o, hmessage, hsend⟩ := outf_short (stack.push (BitVec.ofNat 32 len)) block
    (by decide : 0 ∉ fmt.toList.map byte)
    (by
      rw [htext, List.length_append, List.length_append, hfront, hback, maxMsgSize]
      omega)
  refine ⟨o, ?_, hsend⟩
  rw [hmessage, htext]
  exact hassoc _ _ _

/-! ## Runs -/

variable {frames : Nat → Stack} {address : Word} {buffer message : List Byte}
  {messages : List (List Byte)} {replies : List Reply}

/-- No receive fails. -/
def Receiving (log : List (Syscall × Reply)) : Prop :=
  ∀ entry ∈ log, ∀ sender address length, entry.1 = .receive sender address length →
    hasFailed entry.2.error = false

theorem receiving_of_replies {p : Dialogue Syscall Reply Unit}
    (h : ∀ reply ∈ replies, hasFailed reply.error = false) : Receiving (answered replies p) :=
  fun _ hentry _ _ _ _ => h _ (snd_mem hentry)

theorem cString_append (h : 0 ∉ text) (rest : List Byte) : cString (text ++ 0 :: rest) = text := by
  have hne : ∀ c ∈ text, c ≠ 0 := fun c hc hzero => h (hzero ▸ hc)
  rw [cString, List.takeWhile_append_of_pos fun c hc => decide_eq_true (hne c hc)]
  simp

theorem strlen_fill (h : 0 ∈ message.take maxMsgSize) :
    strlen (fill buffer message) = some (cString message).length := by
  obtain ⟨text, rest, htake, htext⟩ := List.eq_append_cons_of_mem h
  have hmessage : message = text ++ 0 :: (rest ++ message.drop maxMsgSize) := by
    rw [← List.cons_append, ← List.append_assoc, ← htake, List.take_append_drop]
  have hstring : cString message = text := by
    rw [hmessage, cString_append htext]
  rw [fill, htake, List.append_assoc, List.cons_append, strlen_append htext, hstring]

/-- A round of the loop is a receive and a send. -/
theorem mainLoop_cons (frames : Nat → Stack) (address : Word) (messages : List (List Byte))
    (buffer : List Byte) (h : 0 ∈ message.take maxMsgSize) :
    mainLoop frames address (message :: messages) buffer =
      .ask (.receive anyproc address (BitVec.ofNat 32 maxMsgSize)) fun reply =>
        if hasFailed reply.error then .done ()
        else .ask (.sendByFeature featureTty (answer (cString message).length) 1) fun _ =>
          mainLoop frames address messages (fill buffer message) := by
  rw [mainLoop]
  simp only [strlen_fill h]
  refine congrArg _ (funext fun reply => ?_)
  split
  next => rfl
  next =>
    obtain ⟨o, hmessage, hsend⟩ := outf_fmt (frames messages.length) 1 (cString message).length
    rw [hsend, ← hmessage, Outf.send, Dialogue.bind]
    refine congrArg _ (funext fun reply => ?_)
    split
    next => rfl
    next => rfl

/-- Each message is answered, in order, with the number of its characters. -/
theorem ttyMessages_mainLoop (hmessages : ∀ message ∈ messages, 0 ∈ message.take maxMsgSize)
    (hok : Receiving (answered replies (mainLoop frames address messages buffer))) :
    ttyMessages (answered replies (mainLoop frames address messages buffer)) =
      (messages.take (replies.length / 2)).map fun message => answer (cString message).length := by
  induction messages generalizing buffer replies with
  | nil =>
      rw [mainLoop, List.take_nil]
      cases replies with
      | nil => rfl
      | cons reply replies =>
          cases replies with
          | nil => rfl
          | cons => rfl
  | cons message messages ih =>
      rw [List.forall_mem_cons] at hmessages
      rw [mainLoop_cons _ _ _ _ hmessages.1] at hok ⊢
      cases replies with
      | nil => rfl
      | cons reply replies =>
          have hfirst : hasFailed reply.error = false := hok _ List.mem_cons_self _ _ _ rfl
          rw [answered, hfirst, if_neg Bool.false_ne_true] at hok ⊢
          cases replies with
          | nil => simp [ttyMessages, answered]
          | cons reply' replies =>
              rw [answered] at hok ⊢
              have hrest := @ih (fill buffer message) replies hmessages.2 fun entry hentry =>
                hok entry (List.mem_cons_of_mem _ (List.mem_cons_of_mem _ hentry))
              have hlength : (reply :: reply' :: replies).length / 2 = replies.length / 2 + 1 := by
                rw [List.length_cons, List.length_cons]
                omega
              rw [hlength, List.take_succ_cons, List.map_cons, ← hrest]
              rfl

theorem length_answer_le (n : Nat) : (answer n).length ≤ maxMsgSize - 1 := by
  have hsum : ∀ front number back : List Byte, front.length = 23 → number.length ≤ 11 →
      back.length = 12 → (front ++ (number ++ back)).length ≤ maxMsgSize - 1 := by
    intro front number back hfront hnumber hback
    rw [List.length_append, List.length_append, hfront, hback, maxMsgSize]
    omega
  exact hsum _ _ _ (by decide) (Conversion.numberText .u (BitVec.ofNat 32 n)).length_le
    (by decide)

theorem nul_mem_answer (n : Nat) : 0 ∈ answer n := by
  have hnul : 0 ∈ stringLiteral " characters" := by decide
  exact List.mem_append_right _ (List.mem_append_right _ hnul)

end Shell

/-! ## Lines -/

/-- The line is a string that fits into a message. -/
def IsLine (line : List Byte) : Prop :=
  ∃ text, 0 ∉ text ∧ text.length ≤ bufferSize ∧ line = text ++ [0]

theorem IsLine.length {line : List Byte} (h : IsLine line) :
    (cString line).length = line.length - 1 := by
  obtain ⟨text, htext, -, rfl⟩ := h
  rw [Shell.cString_append htext, List.length_append, List.length_singleton, Nat.add_sub_cancel]

theorem IsLine.fits {line : List Byte} (h : IsLine line) : 0 ∈ line.take maxMsgSize := by
  obtain ⟨text, -, hlength, rfl⟩ := h
  rw [List.take_of_length_le, List.mem_append]
  · exact Or.inr (List.mem_singleton_self _)
  · rw [bufferSize] at hlength
    rw [List.length_append, List.length_singleton, maxMsgSize]
    omega

theorem Editor.round_sent (e : Editor) (r : Round) :
    (e.round r).sent = e.sent ∨ (e.round r).sent = e.sent ++ [e.text ++ [0]] := by
  rw [Editor.round]
  cases r.scancode with
  | none => exact Or.inl rfl
  | some scancode =>
      rw [Option.elim_some, Editor.key]
      split
      next func _ =>
        rw [Editor.press_sent]
        split
        next => exact Or.inr rfl
        next => exact Or.inl (List.append_nil _)
      next => exact Or.inl rfl

/-- The terminal follows an editor, and has sent lines only. -/
structure Session.SendsLines (s : Session) : Prop where
  follows : ∃ e, s.Agrees e
  lines : ∀ line ∈ s.sent, IsLine line

theorem Session.SendsLines.step {s s' : Session} {r : Round} (h : s.SendsLines)
    (hstep : s.step r = some s') : s'.SendsLines := by
  obtain ⟨⟨e, hagrees⟩, hlines⟩ := h
  have hnext := Session.agrees_step hagrees hstep
  have hedits := hagrees.edits
  refine ⟨⟨_, hnext⟩, ?_⟩
  rw [hagrees.sent] at hlines
  rw [hnext.sent]
  cases e.round_sent r with
  | inl hsame => rwa [hsame]
  | inr hmore =>
      rw [hmore, List.forall_mem_append, List.forall_mem_singleton]
      exact ⟨hlines, e.text, hedits.noNul, hedits.length ▸ hedits.limit, rfl⟩

theorem Session.sendsLines_run {video : Nat → Byte} {rs : List Round} {s : Session}
    (h : Run Session.step always (.boot video) rs s) : s.SendsLines :=
  h.invariant (fun _ _ _ hs _ hstep => hs.step hstep)
    ⟨⟨.start, Session.agrees_boot video⟩, fun _ hline => absurd hline List.not_mem_nil⟩

/-- The terminal can show an answer while no line is begun. -/
theorem Shell.receives_answer {t : Tty} (hidx : t.screenIdx = 0) (n : Nat) :
    t.Receives (.message (Shell.answer n)) := by
  rw [Tty.Receives]
  have htake := List.take_of_length_le (Shell.length_answer_le n)
  exact ⟨hidx, htake.symm ▸ Shell.nul_mem_answer n⟩

/-- Every line that the shell has received is answered with the number of characters that it had in
the editor, in order: after any keys, whatever lines have been lost on the way, and with any replies
but a receive that fails.  The terminal can show each answer. -/
theorem lines_answered (video : Nat → Byte) {rs : List Round} {s : Session}
    (h : Run Session.step always (.boot video) rs s) {received : List (List Byte)}
    (hreceived : received.Sublist s.sent) (frames : Nat → Stack) (address : Word)
    (buffer : List Byte) (replies : List Reply)
    (hok : Shell.Receiving (answered replies (Shell.mainLoop frames address received buffer))) :
    received.Sublist (rs.foldl Editor.round .start).sent ∧
      ttyMessages (answered replies (Shell.mainLoop frames address received buffer)) =
        (received.take (replies.length / 2)).map (fun line => Shell.answer (line.length - 1)) ∧
      ∀ t : Tty, t.screenIdx = 0 → ∀ n, t.Shows (.message (Shell.answer n)) := by
  have hlines : ∀ line ∈ received, IsLine line := fun line hline =>
    (Session.sendsLines_run h).lines line (hreceived.subset hline)
  have hsent := (Session.agrees_run (Session.agrees_boot video) h).sent
  refine ⟨hsent ▸ hreceived, ?_, fun t hidx n => (t.shows_iff _).mpr (Shell.receives_answer hidx n)⟩
  rw [Shell.ttyMessages_mainLoop (fun line hline => (hlines line hline).fits) hok]
  refine List.map_congr_left fun line hline => ?_
  rw [(hlines line (List.mem_of_mem_take hline)).length]

/-- An `A` and a `b` are typed and sent, and then a `b`.  The first line is lost. -/
theorem lines_answered_second : ∃ s : Session, s.sent = [[65, 98, 0], [98, 0]] ∧
    ttyMessages (answered [⟨0, 0⟩, ⟨0, 0⟩] (Shell.mainLoop (fun _ => default) 0 [[98, 0]] [])) =
      [Shell.answer 1] := by
  obtain ⟨s, hrun, hsent⟩ : ∃ s, Run Session.step always (.boot fun _ => 0)
      ([0x2a, 0x1e, 0xaa, 0x30, 0x1c, 0x30, 0x1c].map Round.key) s ∧
      s.sent = [[65, 98, 0], [98, 0]] :=
    ⟨_, .cons trivial rfl (.cons trivial rfl (.cons trivial rfl (.cons trivial rfl
      (.cons trivial rfl (.cons trivial rfl (.single trivial rfl)))))), by decide +kernel⟩
  have hreceived : [[98, 0]].Sublist s.sent := hsent ▸ by decide
  obtain ⟨-, hanswered, -⟩ := lines_answered _ hrun hreceived (fun _ => default) 0 []
    [⟨0, 0⟩, ⟨0, 0⟩] (Shell.receiving_of_replies (by simp [hasFailed]))
  exact ⟨s, hsent, hanswered⟩

end Mycrokernel
