import Mycrokernel.Kernel.Isolation
import Mycrokernel.Kernel.Copy
import Mycrokernel.Kernel.Status

/-!
# Messages arrive as they were sent

A message is copied when its receiver asks for it, which can be long after the send.  What was
in the buffer of the sender then is what arrives, whatever the others do in between
(`messages_unaltered`): they write to memory when they run, and they get messages.

The kernel does not see to it alone.  A program can load the data segment of another, and the
kernel does not check the buffer of a send to a feature without a supplier.  So the programs
have to keep to their own segments (`Discreet`).
-/

namespace Mycrokernel

open Function (update update_self update_of_ne)

/-- What happens to the system: an interrupt, or the program that runs writes a byte. -/
inductive Activity where
  | interrupt (e : Event)
  | write (address : Word) (value : BitVec 8)

namespace Kernel

open Rendezvous (Place)

variable [Layout] {s k : Kernel} {p r w x : Ptr} {a i idx : Word} {regs : Regs}

/-- The address is inside the segment at this offset of the table. -/
def InSegment (s : Kernel) (idx a : Word) : Prop := (a - s.getBase idx).toNat < (s.getLimit idx).toNat

/-- The message registers describe a buffer in the segment, which is in `ds`. -/
structure Describes (s : Kernel) (idx : Word) (regs : Regs) : Prop where
  segment : gdtOffset regs.dsReg = idx
  inside : regs.edxReg.toNat + regs.ecxReg.toNat ≤ (s.getLimit idx).toNat

/-- The programs keep to their data segments, which `own` says: they have them in `ds` when they
send or receive, their buffers are in them, and they do not write to those of the others. -/
def Discreet (procs : List Ptr) (own : Ptr → Word) (s : Kernel) : Activity → Prop
  | .interrupt e => e.call = some 2 ∨ e.call = some 3 → Describes s (own s.sched.curptr) e.regs
  | .write address _ => ∀ p ∈ procs, p ≠ s.sched.curptr → ¬ InSegment s (own p) address

instance (s : Kernel) (idx a : Word) : Decidable (InSegment s idx a) :=
  inferInstanceAs (Decidable (_ < _))

instance (s : Kernel) (idx : Word) (regs : Regs) : Decidable (Describes s idx regs) :=
  decidable_of_iff (gdtOffset regs.dsReg = idx ∧
    regs.edxReg.toNat + regs.ecxReg.toNat ≤ (s.getLimit idx).toNat)
    ⟨fun ⟨h, h'⟩ => ⟨h, h'⟩, fun ⟨h, h'⟩ => ⟨h, h'⟩⟩

instance (procs : List Ptr) (own : Ptr → Word) (s : Kernel) (t : Activity) :
    Decidable (Discreet procs own s t) := by
  cases t with
  | interrupt e => exact inferInstanceAs (Decidable (_ ∨ _ → _))
  | write address value =>
    exact decidable_of_iff
      ((procs.all fun p => p = s.sched.curptr || ¬ InSegment s (own p) address) = true)
      (by simp [Discreet, or_iff_not_imp_left])

/-- No address is in the data segments of two processes. -/
def Separate (procs : List Ptr) (own : Ptr → Word) (s : Kernel) : Prop :=
  ∀ p ∈ procs, ∀ r ∈ procs, p ≠ r → ∀ a, InSegment s (own p) a → ¬ InSegment s (own r) a

/-- What is in the buffer of a process, by the distance from its start. -/
def contents (s : Kernel) (p : Ptr) (i : Word) : BitVec 8 :=
  s.mem (s.dataBase p + (s.regs p).edxReg + i)

end Kernel

/-! ## An observer -/

/-- A message that has been copied. -/
structure Delivery where
  exchange : Exchange
  /-- What was in the buffer of the sender when it made its call. -/
  letter : Word → BitVec 8
  /-- What is in the buffer of the receiver after the copy. -/
  arrived : Word → BitVec 8

/-- The kernel, with what has been sent and what has arrived. -/
structure Post where
  kernel : Kernel
  /-- What was in the buffer of a process when it sent last. -/
  letters : Ptr → Word → BitVec 8
  /-- The latest first. -/
  deliveries : List Delivery

namespace Post

variable [Layout]

/-- The letters when the event has come. -/
def written (o : Post) (e : Event) : Ptr → Word → BitVec 8 :=
  if e.call = some 3 then
    update o.letters o.kernel.sched.curptr
      ((o.kernel.saveContext e.regs).contents o.kernel.sched.curptr)
  else o.letters

/-- What the observer has seen when the interrupt has led to the state `kernel`. -/
def after (o : Post) (e : Event) (kernel : Kernel) : Post where
  kernel
  letters := o.written e
  deliveries :=
    (kernel.exchanges.take (kernel.exchanges.length - o.kernel.exchanges.length)).map
      (fun y => ⟨y, o.written e y.sender, kernel.contents y.receiver⟩) ++ o.deliveries

def step (o : Post) : Activity → Option Post
  | .interrupt e => (o.kernel.step e).map (o.after e)
  | .write address value =>
      some { o with kernel := { o.kernel with mem := update o.kernel.mem address value } }

/-- The observation starts. -/
def start (boot : Kernel) : Post := ⟨boot, fun _ _ => 0, []⟩

end Post

namespace Kernel

open Rendezvous (Place)

variable [Layout] {s k : Kernel} {p r w x : Ptr} {a i idx : Word} {regs : Regs}
  {ps : Finset Ptr} {m m' : Rendezvous Ptr Nat} {e : Event} {q : List Ptr} {own : Ptr → Word}
  {procs : List Ptr} {boot : Kernel}

/-! ## Buffers -/

section

omit [Layout]

theorem Describes.answered {regs' : Regs} (h : Describes s idx regs) (ha : Answered regs regs')
    (hlimit : k.getLimit idx = s.getLimit idx) : Describes k idx regs' := by
  obtain ⟨_, _, _, rfl⟩ := ha
  exact ⟨h.segment, by rw [hlimit]; exact h.inside⟩

theorem contents_of_answered (ha : Answered (s.regs x) (k.regs x))
    (hbase : ∀ idx, k.getBase idx = s.getBase idx) :
    k.contents x i = k.mem (s.dataBase x + (s.regs x).edxReg + i) := by
  obtain ⟨_, _, _, hregs⟩ := ha
  rw [contents, dataBase_eq_getBase, dataBase_eq_getBase, hbase, dataIndex, dataIndex, hregs]

/-- The buffer is in the segment. -/
theorem Describes.contents_inside (h : Describes s idx (s.regs x)) (hi : i < (s.regs x).ecxReg) :
    InSegment s idx (s.dataBase x + (s.regs x).edxReg + i) := by
  have hinside := h.inside
  have hlt := (s.getLimit idx).isLt
  have hsum : ((s.regs x).edxReg + i).toNat = (s.regs x).edxReg.toNat + i.toNat := by
    rw [BitVec.lt_def] at hi
    rw [BitVec.toNat_add, Nat.mod_eq_of_lt (by omega)]
  have hdata : s.dataIndex x = idx := h.segment
  rw [BitVec.lt_def] at hi
  rw [InSegment, dataBase_eq_getBase, hdata, BitVec.add_assoc, BitVec.add_comm (s.getBase idx),
    BitVec.add_sub_cancel, hsum]
  omega

/-- Where a message can land. -/
theorem Describes.buffer_inside (h : Describes s idx (s.regs x)) (ha : InBuffer s x a) :
    InSegment s idx a := by
  have hsplit : a = s.dataBase x + (s.regs x).edxReg + (a - (s.dataBase x + (s.regs x).edxReg)) := by
    rw [BitVec.add_comm, BitVec.sub_add_cancel]
  rw [hsplit]
  exact h.contents_inside ha

/-- The segments are where they were. -/
theorem SameTable.inSegment (h : SameTable s k) : InSegment k idx a ↔ InSegment s idx a := by
  rw [InSegment, InSegment, h.base, h.limit]

/-! ## What an effect copies -/

/-- The message of `w` has been copied into the buffer of `r`. -/
structure Transferred (s k : Kernel) (w r : Ptr) : Prop where
  exchanges : k.exchanges = ⟨w, r, s.exchangeBytes w r⟩ :: s.exchanges
  mem : k.mem = copy s.mem (s.dataBase w + (s.regs w).edxReg) (s.dataBase r + (s.regs r).edxReg)
    (s.exchangeBytes w r)

/-- The place of a process that is blocked in a send. -/
def Sending (pl : Place Ptr Nat) : Prop := (∃ r, pl = .sending r) ∨ ∃ i, pl = .waiting i

theorem Sending.ne_running {pl : Place Ptr Nat} (h : Sending pl) : pl ≠ .running := by
  obtain ⟨r, rfl⟩ | ⟨i, rfl⟩ := h
  · simp
  · simp

end

/-- A copy goes from who sends, or was blocked in a send, to who receives, or waited for it. -/
inductive Copies (m m' : Rendezvous Ptr Nat) (p : Ptr) (e : Event) (w r : Ptr) : Prop where
  | direct : e.call = some 3 → w = p → m.place r = .receiving → Copies m m' p e w r
  | fetched : e.call = some 2 → r = p → m.place w = .sending p → Copies m m' p e w r

theorem Effect.copies (heff : Effect ps s m p e k m')
    (hmem : k.exchanges = s.exchanges → k.mem = s.mem) :
    (k.exchanges = s.exchanges ∧ k.mem = s.mem) ∨ ∃ w r, Transferred s k w r ∧ Copies m m' p e w r ∧
      m'.place r = .running ∧ m.place p = .running ∧ p ∈ ps := by
  cases heff with
  | quiet hq => exact Or.inl ⟨hq.exchanges, hmem hq.exchanges⟩
  | @direct r i hr hcall hp hrun _ _ _ _ _ halike =>
    have hspares := sparesMessage_ebxReg r
    refine Or.inr ⟨p, r, ⟨?_, ?_⟩, .direct hcall rfl hr, ?_, hrun, hp⟩
    · rw [halike.exchanges]
      exact congrArg (fun n => Exchange.mk p r n :: s.exchanges) (exchangeBytes_setRegs hspares)
    · rw [halike.mem]
      exact congrArg Kernel.mem (exchangeData_setRegs hspares)
    · rw [Rendezvous.move_place, update_self]
  | queued _ _ _ _ _ _ _ _ _ _ halike => exact Or.inl ⟨halike.exchanges, halike.mem⟩
  | parked _ _ _ _ _ _ _ _ halike => exact Or.inl ⟨halike.exchanges, halike.mem⟩
  | @fetched w hw hcall hp hrun _ _ _ _ halike =>
    have hpw : p ≠ w := by
      rintro rfl
      exact absurd (hrun.symm.trans hw) (by simp)
    refine Or.inr ⟨w, p, ⟨halike.exchanges, halike.mem⟩, .fetched hcall rfl hw, ?_, hrun, hp⟩
    rw [Rendezvous.take_place, update_of_ne hpw, hrun]
  | listening _ _ _ _ _ _ _ halike => exact Or.inl ⟨halike.exchanges, halike.mem⟩
  | adopted _ _ _ _ _ _ _ halike => exact Or.inl ⟨halike.exchanges, halike.mem⟩
  | exited _ _ _ _ _ _ _ _ _ _ _ hexch => exact Or.inl ⟨hexch, hmem hexch⟩
  | rung _ _ _ _ _ _ halike => exact Or.inl ⟨halike.exchanges, halike.mem⟩

/-! ## What a copy leaves alone -/

section

omit [Layout]

theorem exchangeBytes_le_sender (s : Kernel) (w r : Ptr) : s.exchangeBytes w r ≤ (s.regs w).ecxReg := by
  rw [exchangeBytes]
  split
  next hlt => exact BitVec.le_of_lt hlt
  next => exact BitVec.le_refl _

theorem exchangeBytes_le_receiver (s : Kernel) (w r : Ptr) :
    s.exchangeBytes w r ≤ (s.regs r).ecxReg := by
  rw [exchangeBytes]
  split
  next => exact BitVec.le_refl _
  next hlt => exact BitVec.not_lt.1 hlt

/-- Only the segment of the receiver is written to. -/
theorem Transferred.spares (h : Transferred s k w r) (hr : Describes s (own r) (s.regs r))
    (ha : ¬ InSegment s (own r) a) : k.mem a = s.mem a := by
  rw [h.mem]
  refine copy_of_le (Nat.not_lt.1 fun hin => ha (hr.buffer_inside ?_))
  exact hin.trans_le (exchangeBytes_le_receiver s w r)

/-- The message is in the buffer of the receiver, as it was in the buffer of the sender. -/
theorem Transferred.arrives (h : Transferred s k w r) (hw : Describes s (own w) (s.regs w))
    (hr : Describes s (own r) (s.regs r))
    (hapart : ∀ a, InSegment s (own w) a → ¬ InSegment s (own r) a)
    (hi : i < s.exchangeBytes w r) :
    k.mem (s.dataBase r + (s.regs r).edxReg + i) = s.mem (s.dataBase w + (s.regs w).edxReg + i) := by
  have hdisjoint : Apart (s.dataBase w + (s.regs w).edxReg) (s.dataBase r + (s.regs r).edxReg)
      (s.exchangeBytes w r).toNat := by
    intro n hn n' hn' heq
    have hsender := BitVec.le_def.1 (exchangeBytes_le_sender s w r)
    have hreceiver := BitVec.le_def.1 (exchangeBytes_le_receiver s w r)
    have hbound := (s.exchangeBytes w r).isLt
    have hlt : BitVec.ofNat 32 n < (s.regs w).ecxReg := by
      rw [BitVec.lt_def, BitVec.toNat_ofNat, Nat.mod_eq_of_lt (by omega)]
      omega
    have hlt' : BitVec.ofNat 32 n' < (s.regs r).ecxReg := by
      rw [BitVec.lt_def, BitVec.toNat_ofNat, Nat.mod_eq_of_lt (by omega)]
      omega
    have hinside := hw.contents_inside hlt
    rw [heq] at hinside
    exact hapart _ hinside (hr.contents_inside hlt')
  rw [h.mem, copy_eq hdisjoint, moveBytes_at, if_pos (BitVec.lt_def.1 hi)]

/-! ## Who is blocked -/

/-- The kernel has a buffer of the process to read from or to write to. -/
def Held (pl : Place Ptr Nat) : Prop := pl = .receiving ∨ Sending pl

theorem Sending.of_update {place : Ptr → Place Ptr Nat} {y : Ptr} {pl : Place Ptr Nat}
    (h : Sending (update place y pl x)) (hpl : x = y → ¬ Sending pl) : Sending (place x) := by
  by_cases hx : x = y
  · subst hx
    rw [update_self] at h
    exact absurd h (hpl rfl)
  · rwa [update_of_ne hx] at h

theorem not_sending {pl : Place Ptr Nat} (hpl : pl.Off) : ¬ Sending pl := by
  rintro (⟨r, rfl⟩ | ⟨i, rfl⟩)
  · exact hpl
  · exact hpl

end

/-- Who is blocked in a send has been so before, or has just called. -/
theorem Effect.sends (heff : Effect ps s m p e k m') (hx : Sending (m'.place x)) :
    Sending (m.place x) ∨ x = p ∧ e.call = some 3 := by
  cases heff with
  | quiet => exact Or.inl hx
  | direct => exact Or.inl (hx.of_update fun _ => not_sending Place.off_running)
  | queued _ hcall =>
    by_cases hxp : x = p
    · exact Or.inr ⟨hxp, hcall⟩
    · exact Or.inl (hx.of_update fun h => absurd h hxp)
  | parked _ hcall =>
    by_cases hxp : x = p
    · exact Or.inr ⟨hxp, hcall⟩
    · exact Or.inl (hx.of_update fun h => absurd h hxp)
  | fetched => exact Or.inl (hx.of_update fun _ => not_sending Place.off_running)
  | listening => exact Or.inl (hx.of_update fun _ => not_sending Place.off_receiving)
  | @adopted i =>
    obtain ⟨hwaiting, -⟩ | ⟨-, hstranded⟩ | ⟨-, -, hsame⟩ :=
      Rendezvous.adopt_cases (m := m) (r := p) (i := i) (x := x)
    · exact Or.inl (Or.inr ⟨i, hwaiting⟩)
    · rw [hstranded] at hx
      exact absurd hx (not_sending Place.off_stranded)
    · exact Or.inl (hsame ▸ hx)
  | exited =>
    have hreleased := hx.of_update fun _ => not_sending Place.off_exited
    exact Or.inl (Rendezvous.place_of_release rfl hreleased.ne_running ▸ hreleased)
  | rung => exact Or.inl (hx.of_update fun _ => not_sending Place.off_running)

/-- The current process is not blocked. -/
theorem IpcInv.held_ne_curptr (h : IpcInv ps s q m) (hb : Between s.sched q)
    (hx : Held (m.place x)) : x ≠ s.sched.curptr := by
  rintro rfl
  rcases hx with hrecv | hsend
  · exact h.curptr_not_receiving hb hrecv
  · have hmem := h.place_mem s.sched.curptr fun hexit =>
      not_sending (hexit ▸ Place.off_exited) hsend
    rcases hb.curptr with hnull | hidle | hq
    · exact h.ne_null hmem hnull
    · exact h.ne_idle hmem hidle
    · exact hsend.ne_running ((h.running _).1 hq)

/-- Who is blocked after an effect has been so before, or has just called. -/
theorem Effect.held (heff : Effect ps s m p e k m') (hcur : s.sched.curptr = p)
    (hp : m.place p ≠ .receiving) (hx : Held (m'.place x)) :
    Held (m.place x) ∨ x = p ∧ (e.call = some 2 ∨ e.call = some 3) := by
  rcases hx with hrecv | hsend
  · obtain ⟨-, hbefore | ⟨hxp, hcall, -⟩⟩ := heff.listens hcur hp hrecv
    · exact Or.inl (Or.inl hbefore)
    · exact Or.inr ⟨hxp, Or.inl hcall⟩
  · obtain hbefore | ⟨hxp, hcall⟩ := heff.sends hsend
    · exact Or.inl (Or.inr hbefore)
    · exact Or.inr ⟨hxp, Or.inr hcall⟩

/-- The buffers of those who are blocked and of the caller are inside their segments, and what
the senders have in them is what they sent. -/
structure Ready (s : Kernel) (own : Ptr → Word) (letters : Ptr → Word → BitVec 8)
    (m : Rendezvous Ptr Nat) (p : Ptr) (e : Event) : Prop where
  buffers : ∀ x, Held (m.place x) ∨ x = p ∧ (e.call = some 2 ∨ e.call = some 3) →
    Describes s (own x) (s.regs x)
  letters : ∀ x, Sending (m.place x) ∨ x = p ∧ e.call = some 3 → ∀ i < (s.regs x).ecxReg,
    letters x i = s.contents x i

namespace Ready

variable {letters : Ptr → Word → BitVec 8}

omit [Layout]

theorem of_sends (h : Ready s own letters m p e)
    (hx : Sending (m.place x) ∨ x = p ∧ e.call = some 3) : Describes s (own x) (s.regs x) :=
  h.buffers x (hx.imp Or.inr fun hcall => ⟨hcall.1, Or.inr hcall.2⟩)

/-- A copy puts the letter of the sender into the buffer of the receiver. -/
theorem arrives (h : Ready s own letters m p e) (hsep : Separate procs own s)
    (hprocs : ∀ x, m.place x ≠ .exited → x ∈ procs) (hrun : m.place p = .running)
    (htrans : Transferred s k w r) (hcopies : Copies m m' p e w r) (hi : i < s.exchangeBytes w r) :
    k.mem (s.dataBase r + (s.regs r).edxReg + i) = letters w i := by
  have hp : p ∈ procs := hprocs p (by simp [hrun])
  have hlt : i < (s.regs w).ecxReg := by
    have hle := BitVec.le_def.1 (exchangeBytes_le_sender s w r)
    rw [BitVec.lt_def] at hi ⊢
    omega
  cases hcopies with
  | direct hcall hwp hr =>
    subst hwp
    have hsends : Sending (m.place w) ∨ w = w ∧ e.call = some 3 := Or.inr ⟨rfl, hcall⟩
    have hne : w ≠ r := by
      rintro rfl
      exact absurd (hrun.symm.trans hr) (by simp)
    rw [h.letters w hsends i hlt]
    exact htrans.arrives (h.of_sends hsends) (h.buffers r (Or.inl (Or.inl hr)))
      (hsep w hp r (hprocs r (by simp [hr])) hne) hi
  | fetched hcall hrp hw =>
    subst hrp
    have hsends : Sending (m.place w) ∨ w = r ∧ e.call = some 3 := Or.inl (Or.inl ⟨r, hw⟩)
    have hne : w ≠ r := by
      rintro rfl
      exact absurd (hrun.symm.trans hw) (by simp)
    rw [h.letters w hsends i hlt]
    exact htrans.arrives (h.of_sends hsends) (h.buffers r (Or.inr ⟨rfl, Or.inl hcall⟩))
      (hsep w (hprocs w (by simp [hw])) r hp hne) hi

/-- A copy for others leaves the letter of a sender in its buffer. -/
theorem spares (h : Ready s own letters m p e) (hsep : Separate procs own s)
    (hprocs : ∀ x, m.place x ≠ .exited → x ∈ procs)
    (hx : Sending (m.place x) ∨ x = p ∧ e.call = some 3) (hxprocs : x ∈ procs)
    (hrun : m.place p = .running) (htrans : Transferred s k w r) (hcopies : Copies m m' p e w r)
    (hxr : x ≠ r) (hi : i < (s.regs x).ecxReg) :
    k.mem (s.dataBase x + (s.regs x).edxReg + i) = letters x i := by
  rw [h.letters x hx i hi]
  have hr : r ∈ procs ∧ Describes s (own r) (s.regs r) := by
    cases hcopies with
    | direct _ _ hr => exact ⟨hprocs r (by simp [hr]), h.buffers r (Or.inl (Or.inl hr))⟩
    | fetched hcall hrp =>
      exact hrp ▸ ⟨hprocs p (by simp [hrun]), h.buffers p (Or.inr ⟨rfl, Or.inl hcall⟩)⟩
  exact htrans.spares hr.2 (hsep x hxprocs r hr.1 hxr _ ((h.of_sends hx).contents_inside hi))

end Ready

end Kernel

/-! ## Runs -/

open Kernel
open Rendezvous (Place)

variable [Layout] {boot k : Kernel} {procs : List Ptr} {own : Ptr → Word} {o o' : Post}
  {m m' : Rendezvous Ptr Nat} {q q' : List Ptr} {e : Event} {x : Ptr} {ts : List Activity}

/-- What is in the buffers of those who are blocked is what they sent, and what has arrived is
what was sent. -/
structure Intact (boot : Kernel) (own : Ptr → Word) (o : Post) (m : Rendezvous Ptr Nat) : Prop where
  table : SameTable boot o.kernel
  buffers : ∀ x, Held (m.place x) → Describes o.kernel (own x) (o.kernel.regs x)
  letters : ∀ x, Sending (m.place x) → ∀ i < (o.kernel.regs x).ecxReg,
    o.letters x i = o.kernel.contents x i
  exchanges : o.deliveries.map Delivery.exchange = o.kernel.exchanges
  delivered : ∀ d ∈ o.deliveries, ∀ i < d.exchange.bytes, d.arrived i = d.letter i

namespace Post

omit [Layout]

theorem written_of_ne (hx : x ≠ o.kernel.sched.curptr) : o.written e x = o.letters x := by
  unfold written
  split
  next => exact update_of_ne hx _ _
  next => rfl

theorem written_curptr (hcall : e.call = some 3) : o.written e o.kernel.sched.curptr =
    (o.kernel.saveContext e.regs).contents o.kernel.sched.curptr := by
  rw [written, if_pos hcall, update_self]

theorem after_same (hexch : k.exchanges = o.kernel.exchanges) :
    (o.after e k).deliveries = o.deliveries := by
  rw [after, hexch]
  simp

theorem after_transferred {y : Exchange} (hexch : k.exchanges = y :: o.kernel.exchanges) :
    (o.after e k).deliveries = ⟨y, o.written e y.sender, k.contents y.receiver⟩ :: o.deliveries := by
  rw [after, hexch]
  simp

end Post

/-- When the processor has saved the registers and the letter has been written, the caller is
ready as well. -/
theorem Intact.ready (h : Intact boot own o m) (hinv : IpcInv procs.toFinset o.kernel q m)
    (hb : Between o.kernel.sched q) (hc : Discreet procs own o.kernel (.interrupt e))
    (he : o.kernel.Enabled e) :
    Ready (o.kernel.saveContext e.regs) own (o.written e) m o.kernel.sched.curptr e := by
  have hsaved := saved o.kernel e.regs
  obtain ⟨hlimit, hmem⟩ := saveContext_rest o.kernel e.regs
  have htable : SameTable o.kernel (o.kernel.saveContext e.regs) := sameTable_of_eq hsaved.gdt hlimit
  refine ⟨?_, ?_⟩
  · rintro x (hheld | ⟨rfl, hcall⟩)
    · refine (h.buffers x hheld).answered ?_ (htable.limit _)
      rw [hsaved.regs_of_ne x (hinv.held_ne_curptr hb hheld)]
      exact .refl _
    · have hne : o.kernel.sched.curptr ≠ null := by
        cases e with
        | timer => exact absurd hcall (by simp [Event.call])
        | device => exact absurd hcall (by simp [Event.call])
        | syscall => exact he.1
      rw [hsaved.regs_cur hne]
      exact (hc hcall).answered (.refl _) (htable.limit _)
  · rintro x (hsend | ⟨rfl, hcall⟩) i hi
    · have hx := hinv.held_ne_curptr hb (Or.inr hsend)
      have hregs := hsaved.regs_of_ne x hx
      rw [hregs] at hi
      rw [Post.written_of_ne hx, h.letters x hsend i hi,
        contents_of_answered (hregs ▸ .refl _) htable.base, hmem]
      rfl
    · rw [Post.written_curptr hcall]

theorem Intact.interrupt (h : Intact boot own o m) (hsep : Separate procs own boot)
    (hinv : IpcInv procs.toFinset o.kernel q m) (hb : Between o.kernel.sched q)
    (hc : Discreet procs own o.kernel (.interrupt e)) (he : o.kernel.Enabled e)
    (hk : o.kernel.interrupt e = some k.finish) (hinv' : IpcInv procs.toFinset k q' m')
    (heff : Effect procs.toFinset (o.kernel.saveContext e.regs) m o.kernel.sched.curptr e k m') :
    Intact boot own (o.after e (k.finish.schedule e.number)) m' := by
  have hready := h.ready hinv hb hc he
  have hsaved := saved o.kernel e.regs
  obtain ⟨hslimit, hsmem⟩ := saveContext_rest o.kernel e.regs
  obtain ⟨hfmem, hfexch, hfgdt, hflimit⟩ := finish_rest k
  have hrecorded := recorded_interrupt hk
  have hresumed := resumed k e.number
  generalize hs : o.kernel.saveContext e.regs = s at *
  have htable : SameTable o.kernel s := sameTable_of_eq hsaved.gdt hslimit
  have hafter : SameTable s (k.finish.schedule e.number) :=
    (sameTable_of_eq (hfgdt.trans heff.gdt) hrecorded.gdtLimit).trans (sameTable_schedule ..)
  have hsep' : Separate procs own s := by
    intro x hx r hr hne a
    rw [(h.table.trans htable).inSegment, (h.table.trans htable).inSegment]
    exact hsep x hx r hr hne a
  have hprocs : ∀ x, m.place x ≠ .exited → x ∈ procs := fun x hx =>
    List.mem_toFinset.1 (hinv.place_mem x hx)
  have hregs : ∀ x, Answered (s.regs x) ((k.finish.schedule e.number).regs x) := fun x => by
    rw [hresumed.regs, ← finish_regs k]
    exact hrecorded.regs x
  have hmem : (k.finish.schedule e.number).mem = k.mem := hfmem
  have hexch : (k.finish.schedule e.number).exchanges = k.exchanges := hfexch
  have hunchanged : k.exchanges = s.exchanges → k.mem = s.mem := fun heq => by
    rw [← hfmem]
    exact hrecorded.mem (hfexch.trans heq)
  have hcontents : ∀ x i, (k.finish.schedule e.number).contents x i =
      k.mem (s.dataBase x + (s.regs x).edxReg + i) := fun x i => by
    rw [contents_of_answered (hregs x) hafter.base, hmem]
  have hcount : ∀ x, ((k.finish.schedule e.number).regs x).ecxReg = (s.regs x).ecxReg := fun x => by
    obtain ⟨_, _, _, heq⟩ := hregs x
    rw [heq]
  have hbuffers : ∀ x, Held (m'.place x) →
      Describes (k.finish.schedule e.number) (own x) ((k.finish.schedule e.number).regs x) := fun x hx =>
    (hready.buffers x (heff.held (by rw [hsaved.sched]) (hinv.curptr_not_receiving hb) hx)).answered (hregs x)
      (hafter.limit _)
  obtain ⟨hsame, hstays⟩ | ⟨w, r, htrans, hcopies, hrunning, hrun, hp⟩ := heff.copies hunchanged
  · refine ⟨(h.table.trans htable).trans hafter, hbuffers, fun x hx i hi => ?_, ?_, ?_⟩
    · show o.written e x i = (k.finish.schedule e.number).contents x i
      rw [hcontents, hstays]
      exact hready.letters x (heff.sends hx) i (hcount x ▸ hi)
    · rw [Post.after_same (hexch.trans (hsame.trans hsaved.exchanges)), h.exchanges]
      exact (hexch.trans (hsame.trans hsaved.exchanges)).symm
    · rw [Post.after_same (hexch.trans (hsame.trans hsaved.exchanges))]
      exact h.delivered
  · have hlog : (k.finish.schedule e.number).exchanges =
        ⟨w, r, s.exchangeBytes w r⟩ :: o.kernel.exchanges := by
      rw [hexch, htrans.exchanges, hsaved.exchanges]
    refine ⟨(h.table.trans htable).trans hafter, hbuffers, fun x hx i hi => ?_, ?_, ?_⟩
    · show o.written e x i = (k.finish.schedule e.number).contents x i
      have hxr : x ≠ r := by
        rintro rfl
        exact hx.ne_running hrunning
      have hxprocs : x ∈ procs := List.mem_toFinset.1 <| hinv'.place_mem x fun hexit =>
        not_sending (hexit ▸ Place.off_exited) hx
      rw [hcontents]
      exact (hready.spares hsep' hprocs (heff.sends hx) hxprocs hrun htrans hcopies hxr
        (hcount x ▸ hi)).symm
    · rw [Post.after_transferred hlog, List.map_cons, h.exchanges]
      exact hlog.symm
    · rw [Post.after_transferred hlog]
      intro d hd
      rcases List.mem_cons.1 hd with rfl | hd
      · intro i hi
        show (k.finish.schedule e.number).contents r i = o.written e w i
        rw [hcontents]
        exact hready.arrives hsep' hprocs hrun htrans hcopies hi
      · exact h.delivered d hd

theorem Intact.write (h : Intact boot own o m) (hinv : IpcInv procs.toFinset o.kernel q m)
    (hb : Between o.kernel.sched q) {address : Word} {value : BitVec 8}
    (hc : Discreet procs own o.kernel (.write address value)) :
    Intact boot own { o with kernel := { o.kernel with mem := update o.kernel.mem address value } } m := by
  have htable : SameTable o.kernel { o.kernel with mem := update o.kernel.mem address value } :=
    sameTable_of_eq rfl rfl
  refine ⟨h.table.trans htable, fun x hx => (h.buffers x hx).answered (.refl _) (htable.limit _),
    fun x hx i hi => ?_, h.exchanges, h.delivered⟩
  have hxprocs : x ∈ procs := List.mem_toFinset.1 <| hinv.place_mem x fun hexit =>
    not_sending (hexit ▸ Place.off_exited) hx
  have hne : o.kernel.dataBase x + (o.kernel.regs x).edxReg + i ≠ address := by
    rintro rfl
    exact hc x hxprocs (hinv.held_ne_curptr hb (Or.inr hx))
      ((h.buffers x (Or.inr hx)).contents_inside hi)
  exact (h.letters x hx i hi).trans (update_of_ne hne _ _).symm

theorem Intact.start (hboot : Booted procs boot) : ∃ q, IpcInv procs.toFinset boot q (allRunning procs) ∧
    Between boot.sched q ∧ Intact boot own (.start boot) (allRunning procs) := by
  obtain ⟨q, hq⟩ := hboot.started
  refine ⟨q, hq.inv, hq.between, sameTable_of_eq rfl rfl, fun x hx => ?_, fun x hx => ?_,
    hq.exchanges.symm, fun d hd => absurd hd List.not_mem_nil⟩
  · obtain hrecv | ⟨r, hsend⟩ | ⟨i, hwait⟩ := hx
    · exact absurd hrecv (allRunning_ne (by simp) (by simp))
    · exact absurd hsend (allRunning_ne (by simp) (by simp))
    · exact absurd hwait (allRunning_ne (by simp) (by simp))
  · obtain ⟨r, hsend⟩ | ⟨i, hwait⟩ := hx
    · exact absurd hsend (allRunning_ne (by simp) (by simp))
    · exact absurd hwait (allRunning_ne (by simp) (by simp))

theorem Intact.step {t : Activity} (h : Intact boot own o m) (hsep : Separate procs own boot)
    (hinv : IpcInv procs.toFinset o.kernel q m) (hb : Between o.kernel.sched q)
    (hc : Discreet procs own o.kernel t) (hs : o.step t = some o') :
    ∃ q' m', IpcInv procs.toFinset o'.kernel q' m' ∧ Between o'.kernel.sched q' ∧
      Intact boot own o' m' := by
  cases t with
  | interrupt e =>
    obtain ⟨s', hstep, rfl⟩ := Option.map_eq_some_iff.1 hs
    obtain ⟨-, he, -, -⟩ := interrupt_of_step hstep
    obtain ⟨k, q', m', rfl, hk, hinv', hinv'', hb', heff⟩ := hinv.step hb hstep
    exact ⟨q', m', hinv'', hb', h.interrupt hsep hinv hb hc he hk hinv' heff⟩
  | write address value =>
    obtain rfl := Option.some.inj hs
    exact ⟨q, m, hinv.congr rfl rfl rfl rfl rfl hinv.irqs, hb, h.write hinv hb hc⟩

/-- All messages arrive as they were sent, whatever the others do in between, if the programs keep to
their own data segments. -/
theorem messages_unaltered (procs : List Ptr) (boot : Kernel) (hboot : Booted procs boot)
    (own : Ptr → Word) (hsep : Separate procs own boot) (ts : List Activity) (o : Post)
    (hr : Machine.Run Post.step (fun o t => Discreet procs own o.kernel t) (.start boot) ts o) :
    o.deliveries.map Delivery.exchange = o.kernel.exchanges ∧
      ∀ d ∈ o.deliveries, ∀ i < d.exchange.bytes, d.arrived i = d.letter i := by
  obtain ⟨q, hinv, hb, hfirst⟩ := Intact.start hboot
  obtain ⟨q', m', -, -, hintact⟩ := hr.invariant
    (P := fun o => ∃ q m, IpcInv procs.toFinset o.kernel q m ∧ Between o.kernel.sched q ∧
      Intact boot own o m)
    (fun o t o' ⟨q, m, hinv, hb, hintact⟩ hc hstep => hintact.step hsep hinv hb hc hstep)
    ⟨q, _, hinv, hb, hfirst⟩
  exact ⟨hintact.exchanges, hintact.delivered⟩

/-! ## Segments that follow each other -/

namespace Kernel

omit [Layout] in
/-- A segment that ends where the other one begins, or before. -/
theorem inSegment_apart {s : Kernel} {idx idx' a : Word}
    (h : (s.getBase idx).toNat + (s.getLimit idx).toNat ≤ (s.getBase idx').toNat)
    (h' : (s.getBase idx').toNat + (s.getLimit idx').toNat ≤ 2 ^ 32) (ha : InSegment s idx a) :
    ¬ InSegment s idx' a := by
  intro ha'
  rw [InSegment, BitVec.toNat_sub] at ha ha'
  have hlt := a.isLt
  omega

/-- The data segments follow each other. -/
def InOrder (s : Kernel) (p r : Word) : Prop :=
  (s.getBase p).toNat + (s.getLimit p).toNat ≤ (s.getBase r).toNat ∧
    (s.getBase r).toNat + (s.getLimit r).toNat ≤ 2 ^ 32

instance (s : Kernel) (p r : Word) : Decidable (InOrder s p r) :=
  inferInstanceAs (Decidable (_ ∧ _))

omit [Layout] in
theorem separate_of_inOrder {s : Kernel} (h : procs.Pairwise fun p r => InOrder s (own p) (own r)) :
    Separate procs own s := by
  have hapart : procs.Pairwise fun p r => ∀ a, InSegment s (own p) a → ¬ InSegment s (own r) a :=
    h.imp fun hpr a => inSegment_apart hpr.1 hpr.2
  have : Std.Symm fun p r => ∀ a, InSegment s (own p) a → ¬ InSegment s (own r) a :=
    ⟨fun p r hpr a ha ha' => hpr a ha' ha⟩
  intro p hp r hr hne
  exact hapart.forall hp hr hne

/-! ## The system that `start` leaves -/

variable {img : Image}

/-- The data segment of a process is its image. -/
theorem Launching.dataSegment {s : Kernel} (hfits : img.Fits)
    (h : Launching s img.processes k) {n : Nat} {a : ProcessArgs} (ha : img.processes[n]? = some a) :
    k.getBase (k.dataIndex (proctab n)) = a.dsegmBase ∧
      k.getLimit (k.dataIndex (proctab n)) = a.dsegmLimit := by
  have hn : n < 3 := (List.getElem?_eq_some_iff.1 ha).1
  have hmem := List.mem_of_getElem? ha
  have hplain : ∀ a ∈ img.processes, a.privilege = 3 := by
    simp [Image.processes, Image.tty, Image.shell, Image.hd, Image.processArgs]
  have hselects := (h.resident n a ha).selects (hplain a hmem) (entriesOf_length n hn)
    (entriesOf_lt n) fun seg hseg => (hfits.roomy a hmem seg hseg).limit
  rw [Regs.selectors, ProcessArgs.segments] at hselects
  cases hselects with
  | cons _ hselects =>
    cases hselects with
    | cons hdata => exact ⟨hdata.base, hdata.limit⟩

/-- The processes that `start` launches have their images as data segments, and these do not
overlap. -/
theorem start_separate {s : Kernel} {h h' : Hardware} (hs : s.Loaded) (hfits : img.Fits)
    (hlimit : img.gdtLimit = 8 * 8 - 1) (happart : BitmapsApart) (hend : TableEnds)
    (hstart : start s h img = some (k, h')) : Booted mainProcs k ∧ Separate mainProcs k.dataIndex k := by
  obtain ⟨l, l', hl, hlaunched, -⟩ := start_launches h hs hfits hlimit happart hend
  obtain ⟨rfl, rfl⟩ : l = k ∧ l' = h' := Prod.mk.inj (Option.some.inj (hl.symm.trans hstart))
  refine ⟨hlaunched.booted hs rfl, separate_of_inOrder ?_⟩
  obtain ⟨hshell, hhd, hend⟩ := hfits.bases
  obtain ⟨htty, htty'⟩ := hlaunched.dataSegment hfits (show img.processes[0]? = some img.tty from rfl)
  obtain ⟨hsh, hsh'⟩ := hlaunched.dataSegment hfits (show img.processes[1]? = some img.shell from rfl)
  obtain ⟨hdisk, hdisk'⟩ := hlaunched.dataSegment hfits (show img.processes[2]? = some img.hd from rfl)
  change _ = img.videoBase at htty
  change _ = img.videoSize at htty'
  change _ = img.shellBase at hsh
  change _ = img.shellSize at hsh'
  change _ = img.hdBase at hdisk
  change _ = img.hdSize at hdisk'
  simp only [mainProcs, List.pairwise_cons, List.mem_cons, List.not_mem_nil, or_false,
    forall_eq_or_imp, forall_eq, InOrder, htty, htty', hsh, hsh', hdisk, hdisk']
  refine ⟨⟨⟨?_, ?_⟩, ?_, ?_⟩, ⟨?_, ?_⟩, by simp⟩
  all_goals omega

/-- The display driver sends two bytes and blocks. -/
def sampleSend : Event :=
  .syscall { eaxReg := 3, ebxReg := 1, ediReg := 1, edxReg := 0x100, ecxReg := 2, dsReg := 46 * 8 + 3 } 0

/-- The disk driver becomes a supplier.  The display driver writes a message and sends it, and the
shell writes to its own segment before the message is received. -/
def sampleActivities : List Activity :=
  [.interrupt .tick, .interrupt (.setFeature 1), .interrupt .tick,
    .write (Image.sample.videoBase + 0x100) 0x68, .write (Image.sample.videoBase + 0x101) 0x69,
    .interrupt sampleSend, .interrupt .tick, .write (Image.sample.shellBase + 0x100) 0x21,
    .interrupt .tick, .interrupt sampleReceive]

omit [Layout] in
theorem messages_unaltered_sample : letI := Layout.sample
    ∃ k h' o, start declared Hardware.found Image.sample = some (k, h') ∧
      Machine.Run Post.step (fun o t => Discreet mainProcs k.dataIndex o.kernel t) (.start k)
        sampleActivities o ∧
      o.kernel.exchanges = [⟨proctab 0, proctab 2, 2⟩] ∧
      ∀ d ∈ o.deliveries, ∀ i < d.exchange.bytes, d.arrived i = d.letter i := by
  let := Layout.sample
  have hsome : ((start declared Hardware.found Image.sample).bind fun kh =>
      sampleActivities.foldlM (Machine.guarded Post.step fun o t =>
        Discreet mainProcs kh.1.dataIndex o.kernel t) (.start kh.1)).map (·.kernel.exchanges) =
      some [⟨proctab 0, proctab 2, 2⟩] := by
    decide +kernel
  obtain ⟨o, ho, hexch⟩ := Option.map_eq_some_iff.1 hsome
  obtain ⟨⟨k, h'⟩, hstart, hrun⟩ := Option.bind_eq_some_iff.1 ho
  have hrun : Machine.Run Post.step (fun o t => Discreet mainProcs k.dataIndex o.kernel t) (.start k)
      sampleActivities o := .of_foldlM (fun _ _ _ => Machine.of_guarded) hrun
  obtain ⟨hboot, hsep⟩ := start_separate declared_loaded (by show (_ : Nat) ≤ _; decide) rfl
    sample_bitmapsApart sample_tableEnds hstart
  have hkept := messages_unaltered mainProcs k hboot k.dataIndex hsep sampleActivities o hrun
  exact ⟨k, h', o, hstart, hrun, hexch, hkept.2⟩

end Kernel

end Mycrokernel
