import Mycrokernel.Tty.Screen
import Mycrokernel.Usr.Outf

/-!
# The terminal

The functions of `tty/main.c`.  `Tty` holds their variables, and a function returns them
together with the `Action`s it takes: the procedures of `tty/utilities.hla` that it calls, the
system calls, and the store of `process_message`.  `Terminal` is the variables with the screen, on
which the actions work.

A `Round` of the loop in `main_loop` begins with a message or with interrupts.
-/

namespace Mycrokernel

/-- The text in an array of `char`. -/
def cString (buf : List Byte) : List Byte := buf.takeWhile (· ≠ 0)

/-- `BUFFER_SIZE`. -/
def bufferSize : Nat := 24 * 80 - 1

/-- `FEATURE_CMD`. -/
def featureCmd : Word := featureTty <<< 1

/-- The variables of `tty/main.c`. -/
structure Tty where
  shiftCount : Word
  echo : Bool
  screenEchoed : List Bool
  sndBuffer : List Byte
  rcvBuffer : List Byte
  inputDirty : Bool
  screenIdx : Nat
deriving DecidableEq

/-- What `process_message` is called with: `rcv_buffer`, or the literal of `alt_pressed`. -/
inductive Buffer where
  | rcvBuffer | literal
deriving DecidableEq

/-- What the functions of `tty/main.c` do, apart from assigning to the variables. -/
inductive Action where
  /-- `putcharacter`, or `tty_putcharacter` if `tty` is set. -/
  | putcharacter (c : Byte) (tty : Bool)
  | putstring (what : List Byte) (tty : Bool)
  | backspace
  /-- `buffer[idx] = '\\0'`. -/
  | terminate (buffer : Buffer) (idx : Word)
  | call (request : Syscall)
deriving DecidableEq

namespace Tty

/-! ## Numbers -/

/-- The loop of `puthex`. -/
def puthexLoop (what : Word) (tty : Bool) : Nat → Word → BitVec 8 → Bool → List Action
  | 0, _, _, _ => []
  | n + 1, mask, shift, first =>
    if 0 < mask then
      let val := mask &&& what
      if val = 0 ∧ mask ≠ 0xf ∧ ¬ first then
        puthexLoop what tty n (mask >>> 4) (shift - 1) first
      else
        let val := val >>> (shift.toNat * 4)
        let c := if val ≤ 9 then byte '0' + val.setWidth 8 else byte 'A' + val.setWidth 8 - 10
        .putcharacter c tty :: puthexLoop what tty n (mask >>> 4) (shift - 1) true
    else []

/-- `puthex`.  The mask is zero after eight rounds. -/
def puthex (what : Word) (tty : Bool) : List Action := puthexLoop what tty 9 0xf0000000 7 false

/-- The loop of `putunsint`. -/
def putunsintLoop (tty : Bool) : Nat → Word → Word → Bool → List Action
  | 0, _, _, _ => []
  | n + 1, what, divider, first =>
    if 0 < divider then
      let val := what / divider
      if val = 0 ∧ divider ≠ 1 ∧ ¬ first then
        putunsintLoop tty n (what - val * divider) (divider / 10) first
      else puthex val tty ++ putunsintLoop tty n (what - val * divider) (divider / 10) true
    else []

/-- `putunsint`.  The divider is zero after ten rounds. -/
def putunsint (what : Word) (tty : Bool) : List Action :=
  putunsintLoop tty 11 what 1000000000 false

/-- `putstring`, for a literal. -/
def putstring (what : String) (tty : Bool) : Action := .putstring (cString (stringLiteral what)) tty

/-! ## Keys -/

/-- `flush`. -/
def flush (t : Tty) : Tty := { t with screenIdx := 0, sndBuffer := t.sndBuffer.set 0 0 }

/-- `enter_pressed`. -/
def enterPressed (t : Tty) : Tty × List Action :=
  (t.flush, [.putcharacter Screen.lf false,
    .call (.sendByFeature featureCmd (cString t.sndBuffer ++ [0]) 0)])

/-- `escape_pressed`. -/
def escapePressed (t : Tty) : Tty × List Action :=
  let t := { t with echo := !t.echo }
  (t, [.putcharacter Screen.lf true,
    if t.echo then putstring "echo now on" true else putstring "echo now off" true])

/-- `printline`. -/
def printline (t : Tty) (address : Word) : Tty × List Action :=
  (t, .putcharacter Screen.lf true :: putstring "scancode in line " true ::
    putunsint address true ++ [putstring " unhandled" true])

/-- `read_char`. -/
def readChar (t : Tty) (address : Byte) : Tty × List Action :=
  if t.screenIdx < bufferSize then
    ({ t with
        screenEchoed := t.screenEchoed.set t.screenIdx t.echo
        sndBuffer := (t.sndBuffer.set t.screenIdx address).set (t.screenIdx + 1) 0
        screenIdx := t.screenIdx + 1 },
      if t.echo then [.putcharacter address false] else [])
  else (t, [])

/-- The loop of `backspace_pressed`, which goes back over what was not echoed. -/
def goBack (screenEchoed : List Bool) : Nat → List Byte → Nat × List Byte
  | 0, sndBuffer => (0, sndBuffer)
  | idx + 1, sndBuffer =>
    if screenEchoed.getD idx false then (idx + 1, sndBuffer)
    else goBack screenEchoed idx (sndBuffer.set idx 0)

/-- `backspace_pressed`. -/
def backspacePressed (t : Tty) : Tty × List Action :=
  match t.screenIdx with
  | 0 => (t, [])
  | idx + 1 =>
    let sndBuffer := t.sndBuffer.set idx 0
    if t.screenEchoed.getD idx false then
      ({ t with screenIdx := idx, sndBuffer }, [.backspace])
    else
      let (screenIdx, sndBuffer) := goBack t.screenEchoed idx sndBuffer
      ({ t with screenIdx, sndBuffer }, [])

/-- `process_message`, on a buffer with these contents.  Where the literal is terminated, it has
been already. -/
def processMessage (t : Tty) (buffer : Buffer) (contents : List Byte) (bytes : Word) :
    Tty × List Action :=
  let editing := t.sndBuffer.headD 0 ≠ 0
  let contents := contents.set (bytes - 1).toNat 0
  ({ t with
      inputDirty := t.inputDirty || decide editing
      rcvBuffer := if buffer = .rcvBuffer then contents else t.rcvBuffer },
    (if editing then [.putcharacter Screen.lf false] else []) ++
      [.terminate buffer (bytes - 1), .putstring (cString contents) false,
        .putcharacter Screen.lf false])

/-- `message`, in `alt_pressed`. -/
def suddenMessage : List Byte := stringLiteral "I am a sudden message"

/-- `alt_pressed`. -/
def altPressed (t : Tty) : Tty × List Action :=
  let (t, actions) := t.processMessage .literal suddenMessage (BitVec.ofNat 32 suddenMessage.length)
  (t, .putcharacter Screen.lf true :: putstring "faking sudden message" true :: actions)

/-- A `keyfunc_t` with its arguments. -/
inductive KeyFunc where
  | readUnsint (address : Word)
  | enterPressed
  | escapePressed
  | noop
  | printline (address : Word)
  | readChar (address : Byte)
  | shiftReleased
  | shiftPressed
  | backspacePressed
  | altPressed
deriving DecidableEq

/-- Call a `keyfunc_t`. -/
def KeyFunc.run : KeyFunc → Tty → Tty × List Action
  | .readUnsint address, t => (t, putunsint address false)
  | .enterPressed, t => t.enterPressed
  | .escapePressed, t => t.escapePressed
  | .noop, t => (t, [])
  | .printline address, t => t.printline address
  | .readChar address, t => t.readChar address
  | .shiftReleased, t => ({ t with shiftCount := t.shiftCount - 1 }, [])
  | .shiftPressed, t => ({ t with shiftCount := t.shiftCount + 1 }, [])
  | .backspacePressed, t => t.backspacePressed
  | .altPressed, t => t.altPressed

/-! ## The key map -/

/-- A row of the key map: without and with a shift key. -/
abbrev KeyRow := Option KeyFunc × Option KeyFunc

/-- The rows from a line of the source on that have `printline`. -/
def unhandled (line n : Nat) : List KeyRow :=
  (List.range' line n).map fun line => (some (.printline (BitVec.ofNat 32 line)), none)

/-- The rows of digits. -/
def digits (addresses : List Word) : List KeyRow :=
  addresses.map fun address => (some (.readUnsint address), none)

/-- The rows of letters. -/
def letters (rows : List (Char × Char)) : List KeyRow :=
  rows.map fun row => (some (.readChar (byte row.1)), some (.readChar (byte row.2)))

/-- A row that does the same with a shift key. -/
def always (func : KeyFunc) : KeyRow := (some func, some func)

/-- `km`. -/
def km : List KeyRow :=
  unhandled 209 1 ++ [(some .escapePressed, none)] ++ digits [1, 2, 3, 4, 5, 6, 7, 8, 9, 0] ++
    unhandled 221 2 ++ [always .backspacePressed] ++ unhandled 224 1 ++
    letters [('q', 'Q'), ('w', 'W'), ('e', 'E'), ('r', 'R'), ('t', 'T'), ('y', 'Y'), ('u', 'U'),
      ('i', 'I'), ('o', 'O'), ('p', 'P')] ++
    unhandled 235 2 ++ [always .enterPressed] ++ unhandled 238 1 ++
    letters [('a', 'A'), ('s', 'S'), ('d', 'D'), ('f', 'F'), ('g', 'G'), ('h', 'H'), ('j', 'J'),
      ('k', 'K'), ('l', 'L')] ++
    unhandled 248 3 ++ [always .shiftPressed] ++ unhandled 252 1 ++
    letters [('z', 'Z'), ('x', 'X'), ('c', 'C'), ('v', 'V'), ('b', 'B'), ('n', 'N'), ('m', 'M')] ++
    [(some (.printline 260), some (.printline 44)), (some (.printline 261), some (.printline 44))] ++
    unhandled 262 1 ++ [always .shiftPressed] ++ unhandled 264 1 ++ [(some .altPressed, none)] ++
    letters [(' ', ' ')] ++ unhandled 267 71 ++ [(some .noop, none)] ++ unhandled 339 40 ++
    [always .shiftReleased] ++ unhandled 380 11 ++ [always .shiftReleased]

/-- The loop of `restore_input`. -/
def echoed : List Byte → List Bool → List Action
  | [], _ => []
  | c :: sndBuffer, screenEchoed =>
    if c = 0 then []
    else (if screenEchoed.headD false then [.putcharacter c false] else []) ++
      echoed sndBuffer screenEchoed.tail

/-- `restore_input`. -/
def restoreInput (t : Tty) : Tty × List Action :=
  ({ t with inputDirty := false }, echoed t.sndBuffer t.screenEchoed)

/-- `km[scancode][shifted].func`, if there is such a row. -/
def keyFunc (t : Tty) (scancode : Word) : Option (Option KeyFunc) :=
  km[scancode.toNat]?.map fun row => if t.shiftCount = 0 then row.1 else row.2

/-- What `process_scancode` does with its entry in `km`. -/
def handleKey (t : Tty) (scancode : Word) : Option (Option KeyFunc) → Tty × List Action
  | none => (t, .putcharacter Screen.lf true :: putstring "scancode " true ::
      putunsint scancode true ++ [putstring " out of range!" true])
  | some none => (t, .putcharacter Screen.lf true ::
      putstring "function pointer for scancode " true ::
      putunsint scancode true ++ [putstring " is NULL!" true])
  | some (some func) => func.run t

/-- The start of `process_scancode`. -/
def redraw (t : Tty) : Tty × List Action := if t.inputDirty then t.restoreInput else (t, [])

/-- `process_scancode`. -/
def processScancode (t : Tty) (scancode : Word) : Tty × List Action :=
  let func := t.keyFunc scancode
  let (t, restored) := t.redraw
  let (t, actions) := t.handleKey scancode func
  (t, restored ++ actions)

end Tty

/-! ## The loop -/

/-- What a round of `main_loop` gets from the kernel. -/
inductive Round where
  /-- The bytes of a sender. -/
  | message (bytes : List Byte)
  /-- Pending interrupts, and what port `0x60` gives. -/
  | interrupts (pending : BitVec 16) (port : Reply)
deriving DecidableEq

namespace Tty

/-- The length that `main_loop` passes to `call_syscall_receive`. -/
def receiveLength (t : Tty) : Nat := if t.screenIdx = 0 then maxMsgSize else 0

/-- The result of the receive: the kernel copies the smaller of the two lengths. -/
def received (t : Tty) (bytes : List Byte) : Nat := min t.receiveLength bytes.length

/-- `rcv_buffer` after the receive. -/
def fill (t : Tty) (bytes : List Byte) : List Byte :=
  bytes.take (t.received bytes) ++ t.rcvBuffer.drop (t.received bytes)

/-- A round of `main_loop`.  There is none after the one in which reading the port fails. -/
def mainLoop (t : Tty) : Round → Option (Tty × List Action)
  | .message bytes =>
    let received := t.received bytes
    let length := if received < maxMsgSize then received else maxMsgSize - 1
    some ({ t with rcvBuffer := t.fill bytes }.processMessage .rcvBuffer (t.fill bytes)
      (BitVec.ofNat 32 length))
  | .interrupts pending port =>
    if pending &&& 2 ≠ 0 then
      if hasFailed port.error then none else some (t.processScancode port.value)
    else some (t, [])

/-- The variables at the start. -/
def initial : Tty where
  shiftCount := 0
  echo := true
  screenEchoed := List.replicate bufferSize false
  sndBuffer := List.replicate (bufferSize + 1) 0
  rcvBuffer := List.replicate maxMsgSize 0
  inputDirty := false
  screenIdx := 0

end Tty

/-! ## The terminal with its screen -/

namespace Screen

/-- `do_putcharacter`. -/
def doPutcharacter (tty : Bool) (s : Screen) (c : Byte) : Screen :=
  if tty then s.ttyPutcharacter c else s.putcharacter c

/-- What an action makes of the screen. -/
def act (s : Screen) : Action → Screen
  | .putcharacter c tty => s.doPutcharacter tty c
  | .putstring what tty => what.foldl (doPutcharacter tty) s
  | .backspace => s.backspace
  | .terminate _ _ => s
  | .call _ => s

end Screen

/-- The variables of the two files of the terminal. -/
structure Terminal where
  tty : Tty
  screen : Screen

namespace Terminal

/-- A round of `main_loop`, and what it makes of the screen. -/
def step (x : Terminal) (r : Round) : Option Terminal :=
  (x.tty.mainLoop r).map fun (tty, actions) => ⟨tty, actions.foldl Screen.act x.screen⟩

/-- The terminal when `main` calls `main_loop`, on a screen with these bytes. -/
def boot (video : Nat → Byte) : Terminal where
  tty := .initial
  screen :=
    let s : Screen :=
      { video, cursor := 0, ttyCursor := 3840, crtc := 0, touched := [], scrolled := 0 }
    (s.cls.ttyPutcharacter Screen.lf).moveCursor

end Terminal

end Mycrokernel
