import Mycrokernel.Usr.Syscall

/-!
# Formatted output

`outf` of `usrlib/utilities.c` sends a text to the terminal, in messages of at most
`MAX_MSG_SIZE` bytes.  It gets the address of a format, so that it works on all bytes from
there to the end of the readable memory, and it is `stuck` where it would read behind them.

Writes behind the end of `msg` go to what the compiler has put there.  They are noted in
`overrun`.
-/

namespace Mycrokernel

open Function (update)

/-- `MAX_MSG_SIZE`. -/
def maxMsgSize : Nat := 24 * 80 + 1

/-- The bytes of a string literal. -/
def stringLiteral (text : String) : List Byte := text.toList.map byte ++ [0]

/-! ## Conversions -/

/-- The conversions of a format. -/
inductive Conversion where
  | d | u | x
deriving DecidableEq

namespace Conversion

/-- The conversion a character behind a `%` stands for. -/
def ofByte (next : Byte) : Option Conversion :=
  if next = byte 'd' then some .d
  else if next = byte 'u' then some .u
  else if next = byte 'x' then some .x
  else none

/-- Write an argument into `buf`. -/
def write (conversion : Conversion) (arg : Word) (buf : List Byte) : Option (List Byte) :=
  match conversion with
  | .d => int2String arg buf buf.length
  | .u => uint2String arg buf 0 buf.length
  | .x => hex2String arg buf buf.length

/-- The text of an argument. -/
def text (conversion : Conversion) (arg : Word) : List Byte :=
  match conversion with
  | .d => intText arg
  | .u => uintText arg
  | .x => hexText arg

theorem numberText (conversion : Conversion) (arg : Word) : NumberText (conversion.text arg) := by
  cases conversion with
  | d => exact numberText_intText arg
  | u => exact numberText_uintText arg
  | x => exact numberText_hexText arg

theorem write_eq (conversion : Conversion) (arg : Word) {buf : List Byte} (h : buf.length = 15) :
    conversion.write arg buf = some (conversion.text arg ++
      List.replicate (15 - (conversion.text arg).length) 0) := by
  rw [← h]
  cases conversion with
  | d => exact int2String_spec (by omega)
  | u =>
      have hwrite := uint2String_spec arg [] buf [] (by omega)
      rw [List.nil_append, List.nil_append, List.append_nil, List.append_nil] at hwrite
      exact hwrite
  | x => exact hex2String_spec (by omega)

end Conversion

/-! ## The program -/

/-- What a call of `outf` finds on the stack: the words behind `fmt`, and what is left in the
places of `buf` and `msg`. -/
structure Stack where
  args : Nat → Word
  buf : List Byte
  msg : Nat → Byte
  buf_length : buf.length = 15

instance : Inhabited Stack := ⟨⟨fun _ => 0, List.replicate 15 0, fun _ => 0, rfl⟩⟩

/-- What a call of a function with arguments behind the format finds on the stack. -/
def Stack.push (stack : Stack) (arg : Word) : Stack :=
  { stack with args := fun i => if i = 0 then arg else stack.args (i - 1) }

/-- The variables of `outf`. -/
structure Outf where
  buf : List Byte
  msg : Nat → Byte
  idx : Nat
  /-- The number of arguments `vl` has gone past. -/
  vl : Nat
  /-- `*error`. -/
  error : Word
  /-- Something was written behind the end of `msg`. -/
  overrun : Bool

namespace Outf

/-- `msg[idx] = c`. -/
def put (o : Outf) (c : Byte) : Outf :=
  { o with msg := update o.msg o.idx c, overrun := o.overrun || decide (maxMsgSize ≤ o.idx) }

/-- `msg[idx] = c; idx++`. -/
def append (o : Outf) (c : Byte) : Outf := { o.put c with idx := o.idx + 1 }

/-- The bytes a send passes on. -/
def message (o : Outf) : List Byte := (List.range (o.idx + 1)).map o.msg

/-- Send the message, and go on if that has not failed. -/
def send (o : Outf) (block : Word) (next : Outf → Dialogue Syscall Reply Outf) :
    Dialogue Syscall Reply Outf :=
  .ask (.sendByFeature featureTty o.message block) fun reply =>
    if hasFailed reply.error then .done { o with error := reply.error }
    else next { o with error := reply.error }

/-- Send the text so far, and begin a new one. -/
def flush (o : Outf) (next : Outf → Dialogue Syscall Reply Outf) : Dialogue Syscall Reply Outf :=
  (o.put 0).send 1 fun o => next { o with idx := 0 }

/-- The part of the loop for a character that is copied, with `cs` behind it. -/
def literal (block : Word) (c : Byte) (cs : List Byte) (o : Outf)
    (next : Outf → Dialogue Syscall Reply Outf) : Dialogue Syscall Reply Outf :=
  if c = 0 then (o.put c).send block .done
  else if maxMsgSize - 1 ≤ (o.append c).idx then
    match cs with
    | [] => .stuck
    | d :: _ => if d = 0 then next (o.append c) else (o.append c).flush next
  else next (o.append c)

/-- The part of the loop for a conversion. -/
def number (stack : Stack) (conversion : Conversion) (o : Outf)
    (next : Outf → Dialogue Syscall Reply Outf) : Dialogue Syscall Reply Outf :=
  match conversion.write (stack.args o.vl) o.buf with
  | none => .stuck
  | some buf =>
    match strlen buf with
    | none => .stuck
    | some len =>
      let o := { o with buf, vl := o.vl + 1 }
      let copy (o : Outf) := next ((buf.take len).foldl append o)
      -- `idx` is at most `MAX_MSG_SIZE` here, so that the subtraction does not wrap
      if maxMsgSize - o.idx ≤ len then o.flush copy else copy o

/-- The loop, with `cur` at the first of the bytes. -/
def loop (stack : Stack) (block : Word) : List Byte → Outf → Dialogue Syscall Reply Outf
  | [], _ => .stuck
  | c :: cs, o =>
    if c = byte '%' then
      match cs with
      | [] => .stuck
      | next :: rest =>
        match Conversion.ofByte next with
        | some conversion => number stack conversion o (loop stack block rest)
        | none => literal block c (next :: rest) o (loop stack block (next :: rest))
    else literal block c cs o (loop stack block cs)

/-- The variables at the start. -/
def start (stack : Stack) : Outf where
  buf := stack.buf
  msg := stack.msg
  idx := 0
  vl := 0
  error := 0
  overrun := false

end Outf

/-- `outf`. -/
def outf (stack : Stack) (block : Word) (fmt : List Byte) : Dialogue Syscall Reply Outf :=
  Outf.loop stack block fmt (Outf.start stack)

/-! ## Formatted texts -/

/-- A format is characters to copy and numbers to write. -/
inductive Item where
  | char (c : Byte)
  | number (text : List Byte)
deriving DecidableEq

namespace Item

/-- What an item adds to the text. -/
def text : Item → List Byte
  | .char c => [c]
  | .number text => text

end Item

/-- The items of a format, of which `n` arguments have been taken. -/
def items (args : Nat → Word) : Nat → List Byte → List Item
  | _, [] => []
  | n, c :: cs =>
    if c = byte '%' then
      match cs with
      | [] => [.char c]
      | next :: rest =>
        match Conversion.ofByte next with
        | some conversion => .number (conversion.text (args n)) :: items args (n + 1) rest
        | none => .char c :: items args n (next :: rest)
    else .char c :: items args n cs

/-- The format with each conversion replaced by the text of its number. -/
def formatted (args : Nat → Word) (fmt : List Byte) : List Byte :=
  (items args 0 fmt).flatMap Item.text

/-- The items fit into messages of `MAX_MSG_SIZE` bytes, the first of which has `level` bytes
already.  A message that characters fill is sent at once, and one into which a number does not
fit is sent before the number.  So a character does not fit if a number has filled the
message before it. -/
def packs : Nat → List Item → Bool
  | _, [] => true
  | level, .char _ :: rest =>
    decide (level + 1 < maxMsgSize) &&
      packs (if level + 1 = maxMsgSize - 1 ∧ rest ≠ [] then 0 else level + 1) rest
  | level, .number text :: rest =>
    packs (if maxMsgSize ≤ level + text.length then text.length else level + text.length) rest

/-- The messages are strings that fit into the buffer of a receiver, and `text` is what they
make together. -/
structure Delivers (messages : List (List Byte)) (text : List Byte) : Prop where
  strings : ∀ message ∈ messages, ∃ part, 0 ∉ part ∧ message = part ++ [0]
  size : ∀ message ∈ messages, message.length ≤ maxMsgSize
  text : messages.flatMap List.dropLast = text

end Mycrokernel
