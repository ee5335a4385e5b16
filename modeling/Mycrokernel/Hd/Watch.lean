import Mycrokernel.Hd.Ata

/-!
# Watching the controller

`Watches` is an environment in which everything may happen that a controller could do, and that keeps
account of it: what is in the registers, and the transfers that have been commanded.  The statuses
that the device shows are a parameter.

`Steady` adds to a triple what holds of the environment all the time.  There the transfers that
`read_sector` and `write_sector` command have the number of the sector in the registers
(`steady_transferSector`).
-/

namespace Mycrokernel

open Function (update update_self update_of_ne)
open Bytes
open Dialogue (RunIn Reaches)

namespace Hd

variable {σ α β : Type} {answers : σ → Syscall → Reply → σ → Prop} {I : σ → Prop}
  {P P' : Driver → σ → Prop} {Q Q' R : α → Driver → σ → Prop} {S : β → Driver → σ → Prop}
  {T : Driver → σ → Prop} {m : Hd α} {f : α → Hd β}

/-! ## All the time -/

/-- A triple, and `I` holds all the time. -/
structure Steady (answers : σ → Syscall → Reply → σ → Prop) (I : σ → Prop) (P : Driver → σ → Prop)
    (m : Hd α) (Q : α → Driver → σ → Prop) : Prop where
  triple : Triple answers P m Q
  holds : ∀ d e e', P d e → Reaches answers e (m d) e' → I e'

theorem steady_pure {a : α} (hI : ∀ d e, P d e → I e) (h : ∀ d e, P d e → Q a d e) :
    Steady answers I P (pure a) Q where
  triple := triple_pure h
  holds := fun d e _ hP hreaches => hreaches.of_done ▸ hI d e hP

theorem steady_modify {g : Driver → Driver} {Q : Unit → Driver → σ → Prop}
    (hI : ∀ d e, P d e → I e) (h : ∀ d e, P d e → Q () (g d) e) :
    Steady answers I P (modify g) Q where
  triple := triple_modify h
  holds := fun d e _ hP hreaches => hreaches.of_done ▸ hI d e hP

theorem steady_spent (hI : ∀ d e, P d e → I e) : Steady answers I P (spent : Hd α) Q where
  triple := triple_spent
  holds := fun d e _ hP hreaches => hreaches.of_stuck ▸ hI d e hP

theorem Steady.mono (h : Steady answers I P m Q) (hP : ∀ d e, P' d e → P d e)
    (hQ : ∀ a d e, Q a d e → Q' a d e) : Steady answers I P' m Q' where
  triple := h.triple.mono hP hQ
  holds := fun d e e' hP' => h.holds d e e' (hP d e hP')

theorem Steady.bind (h : Steady answers I P m R) (hf : ∀ a, Steady answers I (R a) (f a) S) :
    Steady answers I P (m >>= f) S where
  triple := h.triple.bind fun a => (hf a).triple
  holds := by
    intro d e e' hP hreaches
    obtain hwithin | ⟨e₁, ⟨_ | a, d₁⟩, hrun, hrest⟩ := hreaches.of_bind
    · exact h.holds d e e' hP hwithin
    · exact hrest.of_done ▸ h.holds d e e₁ hP hrun.reaches
    · exact (hf a).holds d₁ e₁ e' (h.triple d e hP e₁ _ hrun) hrest

theorem steady_get_bind {f : Driver → Hd β} (h : ∀ d e, P d e → Steady answers I P (f d) S) :
    Steady answers I P (get >>= f) S where
  triple := triple_get_bind fun d e hP => (h d e hP).triple
  holds := fun d e e' hP => (h d e hP).holds d e e' hP

theorem Steady.terror (h : Steady answers I P m fun a d e => hasFailed d.error = false → Q a d e) :
    Steady answers I P (Hd.terror m) Q where
  triple := h.triple.terror
  holds := by
    intro d e e' hP hreaches
    obtain hwithin | ⟨e₁, _, hrun, hrest⟩ := hreaches.of_bind
    · exact h.holds d e e' hP hwithin
    · exact hrest.of_done ▸ h.holds d e e₁ hP hrun.reaches

theorem Steady.terror_of (h : Steady answers I P m Q) : Steady answers I P (Hd.terror m) Q :=
  Steady.terror (h.mono (fun _ _ hP => hP) fun _ _ _ hQ _ => hQ)

theorem Steady.finish {m : Hd Unit}
    (h : Steady answers I P m fun _ d e => hasFailed d.error = false → T d e) :
    Steady answers I P (Hd.finish m) fun _ d e => hasFailed d.error = false → T d e where
  triple := h.triple.finish
  holds := by
    intro d e e' hP hreaches
    obtain hwithin | ⟨e₁, _, hrun, hrest⟩ := hreaches.of_bind
    · exact h.holds d e e' hP hwithin
    · exact hrest.of_done ▸ h.holds d e e₁ hP hrun.reaches

/-- What holds all the time must be kept by a system call that fails, too. -/
theorem steady_call {request : Syscall} {result : Reply → α} (hI : ∀ d e, P d e → I e)
    (h : ∀ d e reply e', P d e → answers e request reply e' →
      I e' ∧ Q (result reply) { d with error := reply.error } e') :
    Steady answers I P (call request result) Q where
  triple := triple_call fun d e reply e' hP hreply => (h d e reply e' hP hreply).2
  holds := by
    intro d e e' hP hreaches
    cases hreaches with
    | start => exact hI d e hP
    | ask hreply hrest => exact hrest.of_done ▸ (h d e _ _ hP hreply).1

theorem steady_terror_call {request : Syscall} {result : Reply → α} (hI : ∀ d e, P d e → I e)
    (h : ∀ d e reply e', P d e → answers e request reply e' →
      I e' ∧ (hasFailed reply.error = false → Q (result reply) { d with error := reply.error } e')) :
    Steady answers I P (Hd.terror (call request result)) Q :=
  Steady.terror (steady_call hI h)

/-- The rule for a loop over the numbers up to `n`. -/
theorem steady_range {g : Nat → Hd Unit} {J : Nat → Driver → σ → Prop} (n : Nat)
    (hI : ∀ i d e, J i d e → I e) (h : ∀ i < n, Steady answers I (J i) (g i) fun _ => J (i + 1)) :
    Steady answers I (J 0) ((List.range n).forM g) fun _ => J n := by
  have hfrom : ∀ k s, s + k = n →
      Steady answers I (J s) ((List.range' s k).forM g) fun _ => J n := by
    intro k
    induction k with
    | zero =>
      rintro s rfl
      exact steady_pure (hI s) fun _ _ hJ => hJ
    | succ k ih =>
      intro s hs
      exact (h s (by omega)).bind fun _ => ih (s + 1) (by omega)
  rw [List.range_eq_range']
  exact hfrom n 0 (Nat.zero_add n)

end Hd

/-! ## The environment -/

def bitErr : Word := 0x1

/-- A command, with the registers it has come with, whether the last status that was read then says
that there are data and no error, and the words that have been read. -/
structure Transfer where
  registers : Ata
  command : Byte
  clean : Bool
  words : List (BitVec 16)

/-- The registers of the controller of a channel, and the commands it has got, the last one first. -/
structure Watch where
  ata : Ata
  transfers : List Transfer

/-- No disk: only the registers of the controller matter. -/
def noDisk : Disk where
  size := 0
  size_le := Nat.zero_le _
  word _ _ := 0

/-- The device has data, and does not say that there was an error. -/
def cleanStatus (status : Word) : Bool := status &&& bitDrq ≠ 0 ∧ status &&& bitErr = 0

namespace Watch

/-- The account after a request that the kernel lets pass, with the value of the reply. -/
def note (w : Watch) (c : Channel) (value : Word) : Syscall → Watch
  | .outb port byte =>
    { ata := w.ata.written c noDisk port byte
      transfers :=
        if Ata.register c port = some .command then
          ⟨w.ata, byte.setWidth 8, false, []⟩ :: w.transfers
        else w.transfers }
  | .inb port =>
    if port = c.portBase ||| portAlternateStatus then
      { w with transfers := w.transfers.modifyHead fun t => { t with clean := cleanStatus value } }
    else w
  | .inw port =>
    if port = c.portBase ||| portData then
      { w with transfers := w.transfers.modifyHead fun t =>
          { t with words := t.words ++ [value.setWidth 16] } }
    else w
  | _ => w

end Watch

/-- The environment that keeps account of what goes to and from the controller of a channel.  The
device gives any words, and statuses of some kind.  A request may fail. -/
def Watches (c : Channel) (statuses : Word → Prop) (w : Watch) (request : Syscall) (reply : Reply)
    (w' : Watch) : Prop :=
  (hasFailed reply.error = true ∧ w' = w) ∨
    (hasFailed reply.error = false ∧ w' = w.note c reply.value request ∧
      (request = .inb (c.portBase ||| portAlternateStatus) → statuses reply.value))

/-- A transfer is for the sector of the number. -/
structure Issued (c : Channel) (number : Word) (command : Word) (t : Transfer) : Prop where
  named : Hd.Named c number t.registers
  command : t.command = command.setWidth 8

namespace Hd

variable {c : Channel} {channel : Ptr} {channels : Ptr → Channel} {mem : Word → BitVec 8}
  {number buffer value command : Word} {statuses : Word → Prop} {old : List Transfer} {fuel : Nat}

/-- Nothing more than one transfer for the sector has been commanded. -/
def AtMost (c : Channel) (number command : Word) (old : List Transfer) (w : Watch) : Prop :=
  w.transfers = old ∨ ∃ t, w.transfers = t :: old ∧ Issued c number command t

/-- The transfer has been commanded, and has got to somewhere. -/
def Commanded (c : Channel) (number command : Word) (old : List Transfer) (C : Transfer → Prop)
    (w : Watch) : Prop :=
  ∃ t, w.transfers = t :: old ∧ Issued c number command t ∧ C t

theorem Commanded.atMost {C : Transfer → Prop} {w : Watch}
    (h : Commanded c number command old C w) : AtMost c number command old w := by
  obtain ⟨t, ht, hissued, -⟩ := h
  exact .inr ⟨t, ht, hissued⟩

/-- A system call that does not touch the account. -/
theorem steady_aside {α : Type} {request : Syscall} {result : Reply → α} {C : Watch → Prop}
    {I : Watch → Prop} (hC : ∀ w, C w → I w) (hnote : ∀ (w : Watch) value, w.note c value request = w) :
    Steady (Watches c statuses) I (Kept channels mem C) (terror (call request result))
      fun _ => Kept channels mem C := by
  refine steady_terror_call (fun d w h => hC w h.2.2) fun d w reply w' hkept hreply => ?_
  obtain ⟨hfailed, rfl⟩ | ⟨hok, rfl, -⟩ := hreply
  · exact ⟨hC _ hkept.2.2, fun hok => absurd (hfailed.symm.trans hok) (by decide)⟩
  · rw [hnote]
    exact ⟨hC _ hkept.2.2, fun _ => hkept⟩

/-- A register is written to, and nothing is commanded. -/
theorem steady_register (register : AtaRegister) (hregister : register ≠ .command)
    {C : Watch → Prop} (hC : ∀ w, C w → w.transfers = old) :
    Steady (Watches c statuses) (AtMost c number command old) (Kept channels mem C)
      (terror (callSyscallOutb (c.portBase ||| register.port) value))
      fun _ => Kept channels mem fun w => w.transfers = old ∧
        ∃ w', C w' ∧ w.ata = w'.ata.written c noDisk (c.portBase ||| register.port) value := by
  refine steady_terror_call (fun d w h => .inl (hC w h.2.2)) fun d w reply w' hkept hreply => ?_
  obtain ⟨hchannels, hmem, hCw⟩ := hkept
  obtain ⟨hfailed, rfl⟩ | ⟨-, rfl, -⟩ := hreply
  · exact ⟨.inl (hC w' hCw), fun hok => absurd (hfailed.symm.trans hok) (by decide)⟩
  · have hsame : (w.note c reply.value (.outb (c.portBase ||| register.port) value)).transfers =
        old := by
      rw [Watch.note, register_port, if_neg fun h => hregister (Option.some.inj h)]
      exact hC w hCw
    exact ⟨.inl hsame, fun _ => ⟨hchannels, hmem, hsame, w, hCw, rfl⟩⟩

/-- The command is written. -/
theorem steady_command {C : Watch → Prop}
    (hC : ∀ w, C w → w.transfers = old ∧ Named c number w.ata) :
    Steady (Watches c statuses) (AtMost c number command old) (Kept channels mem C)
      (terror (callSyscallOutb (c.portBase ||| portCommand) command))
      fun _ => Kept channels mem (Commanded c number command old fun t => t.words = []) := by
  refine steady_terror_call (fun d w h => .inl (hC w h.2.2).1) fun d w reply w' hkept hreply => ?_
  obtain ⟨hchannels, hmem, hCw⟩ := hkept
  obtain ⟨hfailed, rfl⟩ | ⟨-, rfl, -⟩ := hreply
  · exact ⟨.inl (hC w' hCw).1, fun hok => absurd (hfailed.symm.trans hok) (by decide)⟩
  · obtain ⟨htransfers, hnamed⟩ := hC w hCw
    have hport : Ata.register c (c.portBase ||| portCommand) = some .command :=
      register_port c .command
    have hdone : Commanded c number command old (fun t => t.words = [])
        (w.note c reply.value (.outb (c.portBase ||| portCommand) command)) := by
      refine ⟨⟨w.ata, command.setWidth 8, false, []⟩, ?_, ⟨hnamed, rfl⟩, rfl⟩
      rw [Watch.note, hport, if_pos rfl, htransfers]
    exact ⟨hdone.atMost, fun _ => ⟨hchannels, hmem, hdone⟩⟩

/-- The status is read. -/
theorem steady_status {C : Transfer → Prop} (hC : ∀ t b, C t → C { t with clean := b }) :
    Steady (Watches c statuses) (AtMost c number command old)
      (Kept channels mem (Commanded c number command old C))
      (terror (callSyscallInb (c.portBase ||| portAlternateStatus)))
      fun status => Kept channels mem (Commanded c number command old fun t =>
        C t ∧ statuses status ∧ t.clean = cleanStatus status) := by
  refine steady_terror_call (fun d w h => h.2.2.atMost) fun d w reply w' hkept hreply => ?_
  obtain ⟨hchannels, hmem, hcommanded⟩ := hkept
  obtain ⟨hfailed, rfl⟩ | ⟨-, rfl, hstatus⟩ := hreply
  · exact ⟨hcommanded.atMost, fun hok => absurd (hfailed.symm.trans hok) (by decide)⟩
  · obtain ⟨t, ht, hissued, hCt⟩ := hcommanded
    have hdone : Commanded c number command old
        (fun t => C t ∧ statuses reply.value ∧ t.clean = cleanStatus reply.value)
        (w.note c reply.value (.inb (c.portBase ||| portAlternateStatus))) := by
      refine ⟨{ t with clean := cleanStatus reply.value }, ?_, ⟨hissued.named, hissued.command⟩,
        hC t _ hCt, hstatus rfl, rfl⟩
      rw [Watch.note, if_pos rfl, ht]
      rfl
    exact ⟨hdone.atMost, fun _ => ⟨hchannels, hmem, hdone⟩⟩

/-- The loop ends when a status with the data request bit has been read. -/
theorem steady_waitForData {C : Transfer → Prop} (hC : ∀ t b, C t → C { t with clean := b })
    (n : Nat) (status : Word) :
    Steady (Watches c statuses) (AtMost c number command old)
      (Kept channels mem (Commanded c number command old fun t =>
        C t ∧ statuses status ∧ t.clean = cleanStatus status))
      (waitForData c n status)
      fun _ => Kept channels mem (Commanded c number command old fun t =>
        C t ∧ ∃ status, statuses status ∧ status &&& bitDrq ≠ 0 ∧ t.clean = cleanStatus status) := by
  have hI : ∀ d w, Kept channels mem (Commanded c number command old fun t =>
      C t ∧ statuses status ∧ t.clean = cleanStatus status) d w →
      AtMost c number command old w := fun _ _ h => h.2.2.atMost
  induction n generalizing status with
  | zero => exact steady_spent hI
  | succ n ih =>
    rw [waitForData]
    split
    next hdrq =>
      refine steady_pure hI ?_
      rintro d w ⟨hchannels, hmem, t, ht, hissued, hCt, hstatus, hclean⟩
      exact ⟨hchannels, hmem, t, ht, hissued, hCt, status, hstatus, hdrq, hclean⟩
    next =>
      refine (steady_aside (fun w h => h.atMost) fun _ _ => rfl).bind fun _ => ?_
      refine steady_get_bind fun d _ _ => ?_
      split
      next => exact ih status fun _ _ h => h.2.2.atMost
      next =>
        refine Steady.bind (Steady.mono (steady_status hC) ?_ fun _ _ _ h => h) fun status =>
          ih status fun _ _ h => h.2.2.atMost
        rintro d w ⟨hchannels, hmem, t, ht, hissued, hCt, -⟩
        exact ⟨hchannels, hmem, t, ht, hissued, hCt⟩

/-! ## Transfers -/

/-- Nothing has been commanded. -/
theorem steady_errSet {error : Word} {I : Watch → Prop} {P : Driver → Watch → Prop}
    {Q : Unit → Driver → Watch → Prop} (hI : ∀ d w, P d w → I w) (h : hasFailed error = true) :
    Steady (Watches c statuses) I P (terror (errSet error)) Q := by
  refine Steady.terror (steady_modify hI fun d w _ hok => ?_)
  exact absurd (h.symm.trans hok) (by decide)

theorem steady_checkAta {C : Watch → Prop} {I : Watch → Prop} (hC : ∀ w, C w → I w) :
    Steady (Watches c statuses) I (Kept channels mem C) (checkAta channel)
      fun _ => Kept channels mem C := by
  refine steady_get_bind fun d _ _ => ?_
  split
  next => exact steady_errSet (fun d w h => hC w h.2.2) (by decide)
  next => exact steady_pure (fun d w h => hC w h.2.2) fun _ _ h => h

theorem steady_checkLbaSupported {C : Watch → Prop} {I : Watch → Prop} (hC : ∀ w, C w → I w) :
    Steady (Watches c statuses) I (Kept channels mem C) (checkLbaSupported channel)
      fun _ => Kept channels mem C :=
  steady_pure (fun _ w h => hC w h.2.2) fun _ _ h => h

theorem steady_checkNumber {C : Watch → Prop} {I : Watch → Prop} (hC : ∀ w, C w → I w) :
    Steady (Watches c statuses) I (Kept channels mem C) (checkNumber c number)
      fun _ => Kept channels mem C := by
  unfold checkNumber
  split
  next => exact steady_errSet (fun d w h => hC w h.2.2) (by decide)
  next => exact steady_pure (fun d w h => hC w h.2.2) fun _ _ h => h

theorem steady_selectDrive (hc : channels channel = c) :
    Steady (Watches c statuses) (AtMost c number command old)
      (Kept channels mem fun w => w.transfers = old) (terror (selectDrive channel))
      fun _ => Kept channels mem fun w => w.transfers = old := by
  refine Steady.terror (steady_get_bind fun d _ _ => ?_)
  split
  next =>
    refine Steady.finish (steady_get_bind fun d w hkept => ?_)
    rw [hkept.1, hc]
    refine (steady_register .select (by decide) fun _ h => h).bind fun _ => ?_
    exact steady_modify (fun d w h => .inl h.2.2.1) fun d w ⟨hchannels, hmem, htransfers, _⟩ _ =>
      ⟨hchannels, hmem, htransfers⟩
  next => exact steady_pure (fun d w h => .inl h.2.2) fun _ _ h _ => h

/-- All the time no more than one transfer is commanded, and that for the sector of the number; and
what the loop over the words keeps holds at the end. -/
theorem steady_transferSector {transfer : Channel → Nat → Hd Unit}
    {J : Nat → Driver → Watch → Prop} (hc : channels channel = c)
    (hJ : ∀ i d w, J i d w → AtMost c number command old w)
    (hstart : ∀ d w, Kept channels mem (Commanded c number command old fun t =>
      t.words = [] ∧ ∃ status, statuses status ∧ status &&& bitDrq ≠ 0 ∧
        t.clean = cleanStatus status) d w → J 0 d w)
    (htransfer : ∀ i < 256, Steady (Watches c statuses) (AtMost c number command old) (J i)
      (transfer c i) fun _ => J (i + 1)) :
    Steady (Watches c statuses) (AtMost c number command old)
      (Kept channels mem fun w => w.transfers = old)
      (transferSector command transfer fuel number channel)
      fun _ d w => hasFailed d.error = false → J 256 d w := by
  have hold : ∀ w : Watch, w.transfers = old → AtMost c number command old w := fun _ h => .inl h
  refine Steady.finish ?_
  refine (steady_checkAta hold).terror_of.bind fun _ => ?_
  refine (steady_checkLbaSupported hold).terror_of.bind fun _ => ?_
  refine steady_get_bind fun d _ hkept => ?_
  rw [hkept.1, hc]
  refine (steady_checkNumber hold).bind fun _ => (steady_selectDrive hc).bind fun _ => ?_
  refine (steady_register .select (by decide) fun _ h => h).bind fun _ => ?_
  refine (steady_register .count (by decide) fun _ h => h.1).bind fun _ => ?_
  refine (steady_register .low (by decide) fun _ h => h.1).bind fun _ => ?_
  refine (steady_register .mid (by decide) fun _ h => h.1).bind fun _ => ?_
  refine (steady_register .high (by decide) fun _ h => h.1).bind fun _ => ?_
  refine (steady_command ?_).bind fun _ => ?_
  · rintro w ⟨htransfers, _, ⟨-, _, ⟨-, _, ⟨-, _, ⟨-, w₀, -, hselect⟩, hcount⟩, hlow⟩, hmid⟩, hhigh⟩
    refine ⟨htransfers, ?_⟩
    rw [hhigh, hmid, hlow, hcount, hselect]
    exact named_written w₀.ata noDisk c number
  refine (steady_status fun _ _ h => h).bind fun status => ?_
  refine (steady_waitForData (fun _ _ h => h) fuel status).bind fun _ => ?_
  exact ((steady_range 256 hJ htransfer).mono hstart fun _ _ _ h _ => h)

/-! ## The words -/

/-- Words, as the one sector of a disk. -/
def asDisk (words : List (BitVec 16)) : Disk where
  size := 0
  size_le := Nat.zero_le _
  word _ i := words.getD i 0

@[simp] theorem asDisk_word (words : List (BitVec 16)) (number i : Nat) :
    (asDisk words).word number i = words.getD i 0 := rfl

/-- The device has shown a status of its kind with the data request bit, and the transfer is clean if
it does not say that there was an error. -/
def Shown (statuses : Word → Prop) (t : Transfer) : Prop :=
  ∃ status, statuses status ∧ status &&& bitDrq ≠ 0 ∧ t.clean = cleanStatus status

/-- The first words have been read, and are in the buffer. -/
structure Reads (c : Channel) (channels : Ptr → Channel) (statuses : Word → Prop)
    (mem : Word → BitVec 8) (number buffer : Word) (old : List Transfer) (i : Nat) (d : Driver)
    (w : Watch) (t : Transfer) : Prop where
  channels_eq : d.channels = channels
  transfers : w.transfers = t :: old
  issued : Issued c number commandReadsectors t
  shown : Shown statuses t
  length : t.words.length = i
  filled : (asDisk t.words).Filled 0 buffer (2 * i) mem d.mem

/-- A word more does not change the others. -/
theorem filled_append {words : List (BitVec 16)} {mem' : Word → BitVec 8} {i : Nat} (value : BitVec 16)
    (hlength : words.length = i) (h : (asDisk words).Filled 0 buffer (2 * i) mem mem') :
    (asDisk (words ++ [value])).Filled 0 buffer (2 * i) mem mem' where
  bytes := by
    intro k hk
    have hword : (words ++ [value]).getD (k / 2) 0 = words.getD (k / 2) 0 := by
      rw [List.getD_eq_getElem?_getD, List.getD_eq_getElem?_getD,
        List.getElem?_append_left (by omega)]
    rw [h.bytes k hk, Disk.byte, Disk.byte, asDisk_word, asDisk_word, hword]
  frame := h.frame

theorem steady_word {i : Nat} (hi : i < 256) :
    Steady (Watches c statuses) (AtMost c number commandReadsectors old)
      (fun d w => ∃ t, Reads c channels statuses mem number buffer old i d w t)
      (terror do
        let value ← callSyscallInw (c.portBase ||| portData)
        store16 buffer i (value.setWidth 16))
      fun _ d w => ∃ t, Reads c channels statuses mem number buffer old (i + 1) d w t := by
  have hI : ∀ d w, (∃ t, Reads c channels statuses mem number buffer old i d w t) →
      AtMost c number commandReadsectors old w :=
    fun d w ⟨t, h⟩ => .inr ⟨t, h.transfers, h.issued⟩
  refine Steady.terror (Steady.bind (R := fun value d w => (∃ t, w.transfers = t :: old ∧
    Issued c number commandReadsectors t) ∧ (hasFailed d.error = false → ∃ t words,
      t.words = words ++ [value.setWidth 16] ∧ words.length = i ∧
        (asDisk words).Filled 0 buffer (2 * i) mem d.mem ∧ d.channels = channels ∧
          w.transfers = t :: old ∧ Issued c number commandReadsectors t ∧ Shown statuses t)) ?_
    fun value => ?_)
  · refine steady_call hI fun d w reply w' ⟨t, h⟩ hreply => ?_
    obtain ⟨hfailed, rfl⟩ | ⟨-, rfl, -⟩ := hreply
    · exact ⟨hI d w' ⟨t, h⟩, ⟨t, h.transfers, h.issued⟩,
        fun hok => absurd (hfailed.symm.trans hok) (by decide)⟩
    · have hnote : (w.note c reply.value (.inw (c.portBase ||| portData))).transfers =
          { t with words := t.words ++ [reply.value.setWidth 16] } :: old := by
        rw [Watch.note, if_pos rfl, h.transfers]
        rfl
      have hissued : Issued c number commandReadsectors
          { t with words := t.words ++ [reply.value.setWidth 16] } :=
        ⟨h.issued.named, h.issued.command⟩
      exact ⟨.inr ⟨_, hnote, hissued⟩, ⟨_, hnote, hissued⟩, fun _ => ⟨_, t.words, rfl, h.length,
        h.filled, h.channels_eq, hnote, hissued, h.shown⟩⟩
  · refine steady_modify (fun d w h => .inr h.1) fun d w ⟨_, h⟩ hok => ?_
    obtain ⟨t, words, hwords, hlength, hfilled, hchannels, htransfers, hissued, hshown⟩ := h hok
    refine ⟨t, hchannels, htransfers, hissued, hshown, ?_, ?_⟩
    · rw [hwords, List.length_append, hlength, List.length_singleton]
    · have hword : (asDisk t.words).word 0 i = value.setWidth 16 := by
        rw [asDisk_word, hwords, List.getD_eq_getElem?_getD, ← hlength, List.getElem?_concat_length]
        rfl
      have hstored := Filled.store (hwords ▸ filled_append _ hlength hfilled) hi
      rw [hword] at hstored
      exact hstored

/-- All the time `read_sector` has commanded no more than the transfer of the sector; and if it does
not fail, the words of it are in the buffer. -/
theorem steady_readSector (hc : channels channel = c) :
    Steady (Watches c statuses) (AtMost c number commandReadsectors old)
      (Kept channels mem fun w => w.transfers = old) (readSector fuel number channel buffer)
      fun _ d w => hasFailed d.error = false →
        ∃ t, Reads c channels statuses mem number buffer old 256 d w t := by
  refine steady_transferSector hc (J := fun i d w =>
    ∃ t, Reads c channels statuses mem number buffer old i d w t) ?_ ?_ fun i hi => steady_word hi
  · rintro i d w ⟨t, h⟩
    exact .inr ⟨t, h.transfers, h.issued⟩
  · rintro d w ⟨hchannels, hmem, t, ht, hissued, hwords, hshown⟩
    refine ⟨t, hchannels, ht, hissued, hshown, ?_, nofun, fun x _ => congrFun hmem x⟩
    rw [hwords]
    rfl

theorem steady_writeSector (hc : channels channel = c) :
    Steady (Watches c statuses) (AtMost c number commandWritesectors old)
      (Kept channels mem fun w => w.transfers = old) (writeSector fuel number channel buffer)
      fun _ d w => hasFailed d.error = false →
        Kept channels mem (Commanded c number commandWritesectors old fun _ => True) d w := by
  refine steady_transferSector hc (J := fun _ => Kept channels mem
    (Commanded c number commandWritesectors old fun _ => True)) ?_ ?_ fun i _ => ?_
  · exact fun _ d w h => h.2.2.atMost
  · exact fun d w ⟨hchannels, hmem, t, ht, hissued, _⟩ =>
      ⟨hchannels, hmem, t, ht, hissued, trivial⟩
  · refine steady_get_bind fun d _ _ => ?_
    exact steady_aside (fun w h => h.atMost) fun _ _ => rfl

end Hd

end Mycrokernel
