import Mycrokernel.Lib.Run
import Mycrokernel.Kernel.Copy
import Mycrokernel.Tty.Line

/-!
# Messages on the screen

A message should be shown once, with its own text, and `process_message` should write to the
receive buffer only.  `Shows` says so of a round, and `Receives` is the condition under which a
round does it: there is no input line while a message comes in, the message has its `NUL` among
the bytes that `process_message` keeps, and the key that fakes a message stays alone.
-/

namespace Mycrokernel

open Machine HiddenLine

/-! ## Texts -/

theorem cString_cons {c : Byte} (h : c ≠ 0) (buf : List Byte) :
    cString (c :: buf) = c :: cString buf :=
  List.takeWhile_cons_of_pos (decide_eq_true h)

theorem cString_zero (buf : List Byte) : cString (0 :: buf) = [] :=
  List.takeWhile_cons_of_neg (by simp)

/-- A `NUL` in the place of `x` leaves the text alone exactly if the text ends there. -/
theorem cString_terminate (front rest rest' : List Byte) (x : Byte) :
    cString (front ++ 0 :: rest) = cString (front ++ x :: rest') ↔ 0 ∈ front ++ [x] := by
  induction front with
  | nil =>
      rw [List.nil_append, List.nil_append, List.nil_append, cString_zero, List.mem_singleton]
      by_cases hx : x = 0
      · rw [hx, cString_zero]
        simp
      · rw [cString_cons hx]
        exact iff_of_false (fun h => absurd h (by simp)) (Ne.symm hx)
  | cons c front ih =>
      rw [List.cons_append, List.cons_append, List.cons_append, List.mem_cons]
      by_cases hc : c = 0
      · rw [hc, cString_zero, cString_zero]
        simp
      · rw [cString_cons hc, cString_cons hc, List.cons_inj_right, ih]
        exact (or_iff_right (Ne.symm hc)).symm

/-- The text of a buffer with a `NUL` written to it. -/
theorem cString_set (bytes rest : List Byte) (n k : Nat) (hk : k < n) (hn : n ≤ bytes.length) :
    cString ((bytes.take n ++ rest).set k 0) = cString bytes ↔ 0 ∈ bytes.take (k + 1) := by
  obtain ⟨front, x, back, rfl, rfl⟩ :
      ∃ front x back, bytes = front ++ x :: back ∧ front.length = k := by
    refine ⟨bytes.take k, bytes[k], bytes.drop (k + 1), ?_, List.length_take_of_le (by omega)⟩
    rw [← List.drop_eq_getElem_cons, List.take_append_drop]
  obtain ⟨m, rfl⟩ : ∃ m, n = front.length + (m + 1) := ⟨n - front.length - 1, by omega⟩
  rw [List.take_length_add_append, List.take_length_add_append, List.take_succ_cons,
    List.take_succ_cons, List.take_zero, List.append_assoc, List.cons_append, Tty.set_append_cons]
  exact cString_terminate ..

namespace Tty

/-- The texts that are shown in the main area. -/
def displays (actions : List Action) : List (List Byte) :=
  actions.filterMap fun
    | .putstring what false => some what
    | _ => none

/-- Only the receive buffer is written to. -/
def InBuffer : Action → Prop
  | .terminate buffer idx => buffer = .rcvBuffer ∧ idx.toNat < maxMsgSize
  | _ => True

/-- What a round should show. -/
def expected : Round → List (List Byte)
  | .message bytes => [cString bytes]
  | .interrupts _ _ => []

/-- The round shows the message that has come, and nothing else. -/
def Shows (t : Tty) (r : Round) : Prop :=
  ∀ y, t.mainLoop r = some y → displays y.2 = expected r ∧ ∀ a ∈ y.2, InBuffer a

/-- What it takes for that. -/
def Receives (t : Tty) : Round → Prop
  | .message bytes => t.screenIdx = 0 ∧ 0 ∈ bytes.take (maxMsgSize - 1)
  | r => t.pressed r ≠ some .altPressed

variable {t : Tty}

/-! ## Keys show no message -/

/-- The action neither shows a message nor writes to a buffer. -/
def Plain : Action → Prop
  | .putstring _ tty => tty = true
  | .terminate _ _ => False
  | _ => True

theorem Plain.of_onStatus {a : Action} (h : OnStatus a) : Plain a := by
  obtain ⟨c, rfl⟩ | ⟨what, rfl⟩ := h
  · trivial
  · rfl

theorem displays_plain {actions : List Action} (h : ∀ a ∈ actions, Plain a) :
    displays actions = [] := by
  refine List.filterMap_eq_nil_iff.mpr fun a ha => ?_
  have hplain := h a ha
  cases a with
  | putstring what tty =>
      obtain rfl : tty = true := hplain
      rfl
  | terminate => exact hplain.elim
  | putcharacter => rfl
  | backspace => rfl
  | call => rfl

theorem inBuffer_plain {actions : List Action} (h : ∀ a ∈ actions, Plain a) :
    ∀ a ∈ actions, InBuffer a := by
  intro a ha
  have hplain := h a ha
  cases a with
  | terminate => exact hplain.elim
  | putstring => trivial
  | putcharacter => trivial
  | backspace => trivial
  | call => trivial

theorem plain_redraw (t : Tty) : ∀ a ∈ t.redraw.2, Plain a := by
  intro a ha
  obtain ⟨c, rfl⟩ := mem_redraw t a ha
  trivial

theorem plain_run {func : KeyFunc} (h : func ≠ .altPressed) : ∀ a ∈ (func.run t).2, Plain a := by
  intro a ha
  have hdoes := run_does a ha
  cases func with
  | readUnsint =>
      obtain ⟨c, rfl⟩ := hdoes
      trivial
  | enterPressed =>
      obtain rfl | ⟨request, rfl⟩ := hdoes
      · trivial
      · trivial
  | escapePressed => exact .of_onStatus hdoes
  | printline => exact .of_onStatus hdoes
  | readChar =>
      obtain rfl := hdoes
      trivial
  | backspacePressed =>
      obtain rfl := hdoes
      trivial
  | altPressed => exact absurd rfl h
  | noop => exact hdoes.elim
  | shiftReleased => exact hdoes.elim
  | shiftPressed => exact hdoes.elim

/-! ## Rounds -/

theorem displays_append (actions actions' : List Action) :
    displays (actions ++ actions') = displays actions ++ displays actions' :=
  List.filterMap_append

/-- `process_message` shows what is in its buffer. -/
theorem displays_processMessage (t : Tty) (buffer : Buffer) (contents : List Byte) (bytes : Word) :
    displays (t.processMessage buffer contents bytes).2 =
      [cString (contents.set (bytes - 1).toNat 0)] := by
  rw [processMessage]
  dsimp only
  rw [displays_append]
  split
  next => rfl
  next => rfl

theorem inBuffer_processMessage (t : Tty) (buffer : Buffer) (contents : List Byte) (bytes : Word) :
    (∀ a ∈ (t.processMessage buffer contents bytes).2, InBuffer a) ↔
      buffer = .rcvBuffer ∧ (bytes - 1).toNat < maxMsgSize := by
  rw [processMessage]
  dsimp only
  constructor
  · exact fun h => h (.terminate buffer (bytes - 1))
      (List.mem_append_right _ List.mem_cons_self)
  · intro h
    refine List.forall_mem_append.mpr ⟨?_, ?_⟩
    · split
      next => exact List.forall_mem_singleton.mpr trivial
      next => exact fun a ha => absurd ha List.not_mem_nil
    · exact List.forall_mem_cons.mpr
        ⟨h, List.forall_mem_cons.mpr ⟨trivial, List.forall_mem_singleton.mpr trivial⟩⟩

/-- The index of the store, for a length that is not zero. -/
theorem toNat_length_sub {k : Nat} (h : k < maxMsgSize) :
    (BitVec.ofNat 32 (k + 1) - 1).toNat = k := by
  have hback : BitVec.ofNat 32 (k + 1) - 1 = BitVec.ofNat 32 k := by
    rw [BitVec.ofNat_add]
    exact BitVec.add_sub_cancel _ _
  rw [maxMsgSize] at h
  rw [hback, BitVec.toNat_ofNat]
  omega

/-- A message is shown if it comes while no line is typed, and ends. -/
theorem shows_message_iff (t : Tty) (bytes : List Byte) :
    t.Shows (.message bytes) ↔ t.Receives (.message bytes) := by
  generalize hlength : min (t.received bytes) (maxMsgSize - 1) = length
  have hround := t.mainLoop_message bytes
  rw [hlength] at hround
  have hshows : t.Shows (.message bytes) ↔
      cString ((t.fill bytes).set (BitVec.ofNat 32 length - 1).toNat 0) = cString bytes ∧
        (BitVec.ofNat 32 length - 1).toNat < maxMsgSize := by
    simp only [Shows, hround, Option.some.injEq, forall_eq', displays_processMessage,
      inBuffer_processMessage, expected, List.cons.injEq, and_true, true_and]
  rw [hshows, Receives]
  by_cases hidx : t.screenIdx = 0
  · have hreceived : t.received bytes = min maxMsgSize bytes.length := by
      rw [received, receiveLength, if_pos hidx]
    have hmin : length = min bytes.length (maxMsgSize - 1) := by
      rw [← hlength, hreceived, maxMsgSize]
      omega
    have htake : bytes.take length = bytes.take (maxMsgSize - 1) := by
      rw [hmin, Nat.min_comm, ← List.take_eq_take_min]
    rw [and_iff_right hidx, ← htake]
    cases length with
    | zero =>
        rw [List.take_zero]
        exact iff_of_false (fun h => absurd h.2 (by decide)) List.not_mem_nil
    | succ k =>
        have hk : (BitVec.ofNat 32 (k + 1) - 1).toNat = k := toNat_length_sub (by omega)
        have hinside : k < maxMsgSize := by omega
        rw [hk, and_iff_left hinside, fill]
        exact cString_set bytes _ _ k (by omega) (by omega)
  · have hreceived : t.received bytes = 0 := by
      rw [received, receiveLength, if_neg hidx, Nat.zero_min]
    obtain rfl : length = 0 := by rw [← hlength, hreceived, Nat.zero_min]
    exact iff_of_false (fun h => absurd h.2 (by decide)) fun h => hidx h.1

theorem shows_iff (t : Tty) (r : Round) : t.Shows r ↔ t.Receives r := by
  cases r with
  | message bytes => exact shows_message_iff t bytes
  | interrupts pending port =>
      constructor
      · intro hshows halt
        obtain ⟨-, hbuffer⟩ := hshows _ (mainLoop_of_pressed halt)
        have hwrites := (List.forall_mem_append.mp hbuffer).2
        have hprocess := (List.forall_mem_cons.mp (List.forall_mem_cons.mp hwrites).2).2
        have hrcv := ((inBuffer_processMessage ..).mp hprocess).1
        exact absurd hrcv (by decide)
      · intro hplain y hy
        have hactions : ∀ a ∈ y.2, Plain a := by
          cases handles_of_mainLoop hy with
          | others => exact fun a ha => absurd ha List.not_mem_nil
          | key _ hpressed =>
              refine List.forall_mem_append.mpr ⟨plain_redraw t, plain_run ?_⟩
              rintro rfl
              exact hplain hpressed
          | unhandled _ _ hstatus =>
              exact List.forall_mem_append.mpr
                ⟨plain_redraw t, fun a ha => .of_onStatus (hstatus a ha)⟩
        exact ⟨displays_plain hactions, inBuffer_plain hactions⟩

/-! ## The receive buffer -/

/-- `putstring` finds a `NUL` in the receive buffer. -/
structure Ends (t : Tty) : Prop where
  length : t.rcvBuffer.length = maxMsgSize
  nul : 0 ∈ t.rcvBuffer

theorem length_fill (h : t.rcvBuffer.length = maxMsgSize) (bytes : List Byte) :
    (t.fill bytes).length = maxMsgSize := by
  have hlong : t.received bytes ≤ maxMsgSize := by
    rw [received, receiveLength]
    split <;> omega
  have hshort : t.received bytes ≤ bytes.length := Nat.min_le_right ..
  rw [fill, List.length_append, List.length_take_of_le hshort, List.length_drop, h]
  omega

theorem run_rcvBuffer (t : Tty) (func : KeyFunc) : (func.run t).1.rcvBuffer = t.rcvBuffer := by
  cases func with
  | readChar c => exact (frame_readChar t c).rcvBuffer
  | backspacePressed => exact (frame_backspacePressed t).rcvBuffer
  | readUnsint | enterPressed | escapePressed | noop | printline | shiftReleased | shiftPressed
  | altPressed => rfl

theorem redraw_rcvBuffer (t : Tty) : t.redraw.1.rcvBuffer = t.rcvBuffer := by
  rw [redraw]
  split <;> rfl

theorem ends_handles {r : Round} {y : Tty × List Action} (h : t.Ends) (hhandles : t.Handles r y) :
    y.1.Ends := by
  cases hhandles with
  | message bytes length hlength =>
      have hfill := length_fill h.length bytes
      refine ⟨List.length_set.trans hfill, ?_⟩
      change 0 ∈ (t.fill bytes).set (BitVec.ofNat 32 length - 1).toNat 0
      cases length with
      | zero =>
          have hreceived : t.received bytes = 0 := by
            rw [maxMsgSize] at hlength
            omega
          have hkept : t.fill bytes = t.rcvBuffer := by
            rw [fill, hreceived, List.take_zero, List.drop_zero, List.nil_append]
          rw [List.set_eq_of_length_le (by rw [hfill]; decide), hkept]
          exact h.nul
      | succ k =>
          rw [toNat_length_sub (by omega)]
          exact List.mem_set (by omega) 0
  | others => exact h
  | key => exact ⟨(run_rcvBuffer ..).trans (redraw_rcvBuffer t) ▸ h.length,
      (run_rcvBuffer ..).trans (redraw_rcvBuffer t) ▸ h.nul⟩
  | unhandled => exact ⟨redraw_rcvBuffer t ▸ h.length, redraw_rcvBuffer t ▸ h.nul⟩

end Tty

/-- Every text that is shown ends inside of its buffer. -/
theorem rcvBuffer_ends {video : Nat → Byte} {rs : List Round} {x : Terminal}
    (h : Run Terminal.step always (.boot video) rs x) : x.tty.Ends := by
  have hboot : Tty.initial.Ends :=
    ⟨List.length_replicate, List.mem_replicate.mpr ⟨Nat.succ_ne_zero _, rfl⟩⟩
  refine h.invariant (P := fun x => x.tty.Ends) (fun x r y hx _ hy => ?_) hboot
  obtain ⟨z, hz, rfl⟩ := Option.map_eq_some_iff.mp hy
  exact Tty.ends_handles hx (Tty.handles_of_mainLoop hz)

/-! ## The kernel -/

/-- The bytes from an address on. -/
def bytesFrom (mem : Word → BitVec 8) (base : Word) (n : Nat) : List Byte :=
  (List.range n).map fun i => mem (base + BitVec.ofNat 32 i)

theorem getElem_bytesFrom {mem : Word → BitVec 8} {base : Word} {n i : Nat}
    (hi : i < (bytesFrom mem base n).length) :
    (bytesFrom mem base n)[i] = mem (base + BitVec.ofNat 32 i) := by
  simp [bytesFrom]

namespace Tty

variable {t : Tty} {bytes : List Byte} {s : Kernel} {sender receiver : Ptr}

/-- The kernel copies as many bytes as the model has it. -/
theorem received_exchange (hsend : (s.regs sender).ecxReg = BitVec.ofNat 32 bytes.length)
    (hreceive : (s.regs receiver).ecxReg = BitVec.ofNat 32 t.receiveLength)
    (hlength : bytes.length < 2 ^ 32) :
    (s.exchangeBytes sender receiver).toNat = t.received bytes := by
  have hlong : t.receiveLength ≤ maxMsgSize := by
    rw [receiveLength]
    split <;> omega
  rw [maxMsgSize] at hlong
  have hsent : (BitVec.ofNat 32 bytes.length).toNat = bytes.length := by
    rw [BitVec.toNat_ofNat, Nat.mod_eq_of_lt hlength]
  have hasked : (BitVec.ofNat 32 t.receiveLength).toNat = t.receiveLength := by
    rw [BitVec.toNat_ofNat, Nat.mod_eq_of_lt (by omega)]
  rw [Kernel.exchangeBytes, hsend, hreceive, received]
  split
  next hless =>
    rw [BitVec.lt_def, hsent, hasked] at hless
    rw [hasked]
    omega
  next hless =>
    rw [BitVec.lt_def, hsent, hasked] at hless
    rw [hsent]
    omega

/-- The kernel leaves what the model has in the receive buffer. -/
theorem fill_exchange (hsend : (s.regs sender).ecxReg = BitVec.ofNat 32 bytes.length)
    (hreceive : (s.regs receiver).ecxReg = BitVec.ofNat 32 t.receiveLength)
    (hlength : bytes.length < 2 ^ 32)
    (hbytes : bytesFrom s.mem (s.dataBase sender + (s.regs sender).edxReg) bytes.length = bytes)
    (hbuffer : bytesFrom s.mem (s.dataBase receiver + (s.regs receiver).edxReg) maxMsgSize =
      t.rcvBuffer)
    (hapart : Kernel.Apart (s.dataBase sender + (s.regs sender).edxReg)
      (s.dataBase receiver + (s.regs receiver).edxReg) (t.received bytes)) :
    bytesFrom (s.exchangeData sender receiver).mem
      (s.dataBase receiver + (s.regs receiver).edxReg) maxMsgSize = t.fill bytes := by
  have hcount := received_exchange hsend hreceive hlength
  generalize hsrc : s.dataBase sender + (s.regs sender).edxReg = src at hbytes hapart
  generalize hdst : s.dataBase receiver + (s.regs receiver).edxReg = dst at hbuffer hapart ⊢
  have hmem : (s.exchangeData sender receiver).mem =
      Kernel.moveBytes s.mem src dst (t.received bytes) := by
    rw [← hcount] at hapart ⊢
    rw [← Kernel.copy_eq hapart, ← hsrc, ← hdst]
    rfl
  have hlong : t.received bytes ≤ maxMsgSize := by
    rw [received, receiveLength]
    split <;> omega
  have hshort : t.received bytes ≤ bytes.length := Nat.min_le_right ..
  have hrest : t.rcvBuffer.length = maxMsgSize := by
    rw [← hbuffer, bytesFrom, List.length_map, List.length_range]
  refine List.ext_getElem ?_ fun i hi hi' => ?_
  · rw [length_fill hrest, bytesFrom, List.length_map, List.length_range]
  · rw [bytesFrom, List.length_map, List.length_range] at hi
    have hmax : maxMsgSize = 1921 := rfl
    have hplace : (BitVec.ofNat 32 i).toNat = i := by
      rw [BitVec.toNat_ofNat]
      omega
    have hbyte := Kernel.moveBytes_at s.mem src dst (t.received bytes) (BitVec.ofNat 32 i)
    rw [hplace] at hbyte
    have hfront : (bytes.take (t.received bytes)).length = t.received bytes :=
      List.length_take_of_le hshort
    rw [getElem_bytesFrom, hmem, hbyte]
    split
    next hin =>
      have hat := List.getElem_of_eq hbytes.symm (hin.trans_le hshort)
      rw [getElem_bytesFrom] at hat
      simp only [fill]
      rw [List.getElem_append_left (hfront.symm ▸ hin), List.getElem_take, hat]
    next hout =>
      have hat := List.getElem_of_eq hbuffer.symm (show i < t.rcvBuffer.length by omega)
      rw [getElem_bytesFrom] at hat
      simp only [fill]
      have hidx : t.received bytes + (i - (bytes.take (t.received bytes)).length) = i := by omega
      rw [List.getElem_append_right (by omega), List.getElem_drop, ← hat]
      exact getElem_congr_idx hidx.symm

end Tty

/-! ## Runs -/

/-- The key with this scancode. -/
def Round.key (scancode : Word) : Round := .interrupts 2 ⟨scancode, 0⟩

/-- The runs in which every message is shown are those in which every round meets the
condition. -/
theorem messages_shown_iff (video : Nat → Byte) (rs : List Round) (x : Terminal) :
    Run Terminal.step (fun x r => x.tty.Shows r) (.boot video) rs x ↔
      Run Terminal.step (fun x r => x.tty.Receives r) (.boot video) rs x :=
  ⟨fun h => h.mono fun x r => (x.tty.shows_iff r).mp,
    fun h => h.mono fun x r => (x.tty.shows_iff r).mpr⟩

/-- A message that comes after the key of an `a` is not shown. -/
theorem messages_shown_fails :
    ∃ x, Run Terminal.step always (.boot fun _ => 0)
        [.key 30, .message (stringLiteral "hi")] x ∧
      ¬ Run Terminal.step (fun x r => x.tty.Shows r) (.boot fun _ => 0)
        [.key 30, .message (stringLiteral "hi")] x := by
  have hpressed : Tty.initial.pressed (.key 30) = some (.readChar (byte 'a')) := rfl
  have hkey : (Terminal.boot fun _ => 0).step (.key 30) = some _ :=
    congrArg (Option.map _) (Tty.mainLoop_of_pressed hpressed)
  refine ⟨_, .cons trivial hkey (.single trivial rfl), fun h => ?_⟩
  cases h with
  | cons _ hstep hrest =>
      obtain rfl := Option.some.inj (hkey.symm.trans hstep)
      cases hrest with
      | cons hshows =>
          have hidx := ((Tty.shows_iff ..).mp hshows).1
          exact absurd hidx (by decide)

end Mycrokernel
