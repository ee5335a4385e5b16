import Mycrokernel.Kernel.Boot

/-!
# Sends and receives pair up

An observer follows the message calls of a run from outside.  A call begins with
the interrupt its caller raises, and it is over at the end of the first interrupt
after which the caller is on the run queue (again).  `esi_reg` and `eax_reg` hold
then what the call returns.  The observer lists the sends and the receives that
are over with `OK`.

After every effect the calls under way fit the places of their callers
(`Calling.callOk`).  An effect completes either no call with `OK`, or one send and one
receive (`Calling.message`), so the two lists pair up (`messages_paired`).
-/

namespace Mycrokernel

open Function (update update_self update_of_ne)

/-- What a message call asks for. -/
inductive Request where
  | send (feature : Word)
  | receive (sender : Ptr)
deriving DecidableEq

def Request.isSend : Request → Bool
  | send _ => true
  | receive _ => false

/-- The message call that an event makes. -/
def Event.request (e : Event) : Option Request :=
  match e.call with
  | some 2 => some (.receive e.regs.ebxReg)
  | some 3 => some (.send e.regs.ebxReg)
  | _ => none

/-- A message call. -/
structure Call where
  /-- The number of the event that makes the call. -/
  id : Nat
  caller : Ptr
  request : Request
  /-- The length of the buffer, `ecx_reg`. -/
  bytes : Word
deriving DecidableEq

/-- A message call that is over with `OK`. -/
structure Completion where
  call : Call
  /-- The number of the event with which the call is over. -/
  time : Nat
  eax : Word
deriving DecidableEq

/-- A kernel under observation. -/
structure Observed where
  kernel : Kernel
  /-- The number of events so far. -/
  clock : Nat
  /-- The call that a process is blocked in. -/
  pending : Ptr → Option Call
  /-- The sends that are over with `OK`, the latest first. -/
  sent : List Completion
  /-- The receives that are over with `OK`, the latest first. -/
  received : List Completion

namespace Observed

variable [Layout]

/-- The calls under way when the event `e` has come. -/
def calls (o : Observed) (e : Event) : Ptr → Option Call :=
  match e.request with
  | some request =>
    update o.pending o.kernel.sched.curptr
      (some { id := o.clock, caller := o.kernel.sched.curptr, request, bytes := e.regs.ecxReg })
  | none => o.pending

/-- The sends (or the receives) that are over with `OK` in the state `k`. -/
def finished (procs : List Ptr) (calls : Ptr → Option Call) (time : Nat) (k : Kernel)
    (isSend : Bool) : List Completion :=
  procs.filterMap fun p =>
    (calls p).bind fun call =>
      if call.request.isSend = isSend ∧ k.sched.isEnqueued p ∧ (k.regs p).esiReg = Err.ok then
        some { call, time, eax := (k.regs p).eaxReg }
      else none

/-- One interrupt, observed. -/
def step (procs : List Ptr) (o : Observed) (e : Event) : Option Observed :=
  (o.kernel.step e).map fun kernel => {
    kernel
    clock := o.clock + 1
    pending := fun p => if kernel.sched.isEnqueued p then none else o.calls e p
    sent := finished procs (o.calls e) o.clock kernel true ++ o.sent
    received := finished procs (o.calls e) o.clock kernel false ++ o.received }

/-- The observation starts. -/
def start (boot : Kernel) : Observed where
  kernel := boot
  clock := 0
  pending _ := none
  sent := []
  received := []

end Observed

/-- A send and a receive that belong together in a run that has reached the state `k`. -/
structure Paired (k : Kernel) (send receive : Completion) : Prop where
  /-- The receiver supplies the feature. -/
  supplier : ∃ feature entry, send.call.request = .send feature ∧
    Kernel.featureEntry feature = some entry ∧
    (k.featureTable entry).supplier = receive.call.caller
  /-- The receive accepts the sender. -/
  accepts : ∃ sender, receive.call.request = .receive sender ∧
    Kernel.Accepts sender send.call.caller
  time : send.time = receive.time
  eax_eq : send.eax = receive.eax
  /-- Both calls return the smaller length. -/
  eax_min : send.eax.toNat = min send.call.bytes.toNat receive.call.bytes.toNat

/-- The message of this send was copied by this call of `exchange_data`. -/
structure CopiedBy (send : Completion) (exchange : Exchange) : Prop where
  sender : exchange.sender = send.call.caller
  bytes : exchange.bytes = send.eax

namespace Kernel

open Rendezvous (Place)

variable [Layout] {procs : List Ptr} {ps : Finset Ptr} {s s' k : Kernel} {e : Event}
  {m m' : Rendezvous Ptr Nat} {p r x a b : Ptr} {q q' : List Ptr} {calls : Ptr → Option Call}
  {o o' : Observed} {es : List Event}

/-! ## Blocked calls -/

/-- A process at this place is blocked in this call. -/
def BlockedIn (s : Kernel) (p : Ptr) : Place Ptr Nat → Request → Prop
  | .receiving, .receive sender => s.receivingFrom p = sender
  | .sending r, .send feature => ∃ i, featureEntry feature = some i ∧ (s.featureTable i).supplier = r
  | .waiting i, .send feature => featureEntry feature = some i
  | .stranded, .send _ => True
  | _, _ => False

/-- The pending call of a process fits its place. -/
structure CallOk (s : Kernel) (m : Rendezvous Ptr Nat) (calls : Ptr → Option Call) (p : Ptr) :
    Prop where
  exited : m.place p = .exited → calls p = none
  blocked : m.place p ≠ .running → m.place p ≠ .exited → ∃ call, calls p = some call ∧
    call.caller = p ∧ call.bytes = (s.regs p).ecxReg ∧ BlockedIn s p (m.place p) call.request

section

omit [Layout]

/-- A call that an effect does not touch stays blocked. -/
theorem CallOk.frame (h : CallOk s m calls p) (hplace : m'.place p = m.place p)
    (hregs : k.regs p = s.regs p)
    (hfrom : m.place p = .receiving → k.receivingFrom p = s.receivingFrom p)
    (hsup : ∀ r i, m.place p = .sending r → (s.featureTable i).supplier = r →
      (k.featureTable i).supplier = r) : CallOk k m' calls p where
  exited hp := h.exited (hplace ▸ hp)
  blocked hrun hex := by
    rw [hplace] at hrun hex ⊢
    obtain ⟨call, hc, hcaller, hbytes, hb⟩ := h.blocked hrun hex
    refine ⟨call, hc, hcaller, by rw [hregs, hbytes], ?_⟩
    cases hpl : m.place p <;> cases hreq : call.request <;> rw [hpl, hreq] at hb
    case receiving.receive sender => exact (hfrom hpl).trans hb
    case sending.send r feature =>
      obtain ⟨i, hi, hr⟩ := hb
      exact ⟨i, hi, hsup r i hpl hr⟩
    case waiting.send => exact hb
    case stranded.send => exact hb
    all_goals exact absurd hb id

/-- The event `e` finds `p` running, and these are the calls under way then. -/
structure Calling (s : Kernel) (m : Rendezvous Ptr Nat) (p : Ptr) (e : Event)
    (calls : Ptr → Option Call) : Prop where
  curptr : s.sched.curptr = p
  ok : ∀ x ≠ p, CallOk s m calls x
  free : ∀ x ≠ p, m.place x = .running → calls x = none
  asks : ∀ request, e.request = some request → ∃ call, calls p = some call ∧ call.caller = p ∧
    call.bytes = (s.regs p).ecxReg ∧ call.request = request
  silent : e.request = none → calls p = none
  regs : m.place p = .running → s.regs p = e.regs
  cur : m.place p = .running ∨ m.place p = .exited ∧ e.request = none

theorem Calling.not_receiving (hc : Calling s m p e calls) : m.place p ≠ .receiving := by
  rcases hc.cur with hrun | ⟨hex, -⟩
  · simp [hrun]
  · simp [hex]

theorem Calling.send (hc : Calling s m p e calls) (hp : m.place p = .running)
    (hcall : e.call = some 3) : ∃ call, calls p = some call ∧ call.caller = p ∧
      call.bytes = (s.regs p).ecxReg ∧ call.request = .send (s.regs p).ebxReg := by
  refine hc.asks _ ?_
  simp only [Event.request, hcall, hc.regs hp]

theorem Calling.receive (hc : Calling s m p e calls) (hp : m.place p = .running)
    (hcall : e.call = some 2) : ∃ call, calls p = some call ∧ call.caller = p ∧
      call.bytes = (s.regs p).ecxReg ∧ call.request = .receive (s.regs p).ebxReg := by
  refine hc.asks _ ?_
  simp only [Event.request, hcall, hc.regs hp]

theorem callOk_of_running (h : m.place x = .running) : CallOk s m calls x :=
  ⟨fun hx => absurd (h.symm.trans hx) (by simp), fun hx => absurd h hx⟩

/-- A process blocked in a receive is in a receive, and remembers whom it waits for. -/
theorem CallOk.receiving (h : CallOk s m calls x) (hx : m.place x = .receiving) :
    ∃ call, calls x = some call ∧ call.caller = x ∧ call.bytes = (s.regs x).ecxReg ∧
      call.request = .receive (s.receivingFrom x) := by
  obtain ⟨call, hc, hcaller, hbytes, hb⟩ := h.blocked (by simp [hx]) (by simp [hx])
  refine ⟨call, hc, hcaller, hbytes, ?_⟩
  rw [hx] at hb
  cases hreq : call.request with
  | send feature =>
    rw [hreq] at hb
    exact absurd hb id
  | receive sender =>
    rw [hreq] at hb
    exact congrArg _ hb.symm

/-- A process on a list of senders is in a send to a feature that the receiver supplies. -/
theorem CallOk.sending (h : CallOk s m calls x) (hx : m.place x = .sending r) :
    ∃ call feature i, calls x = some call ∧ call.caller = x ∧
      call.bytes = (s.regs x).ecxReg ∧ call.request = .send feature ∧
      featureEntry feature = some i ∧ (s.featureTable i).supplier = r := by
  obtain ⟨call, hc, hcaller, hbytes, hb⟩ := h.blocked (by simp [hx]) (by simp [hx])
  rw [hx] at hb
  cases hreq : call.request with
  | send feature =>
    rw [hreq] at hb
    obtain ⟨i, hi, hr⟩ := hb
    exact ⟨call, feature, i, hc, hcaller, hbytes, hreq, hi, hr⟩
  | receive sender =>
    rw [hreq] at hb
    exact absurd hb id

/-- A process that waits for a feature is in a send to it. -/
theorem CallOk.waiting {i : Nat} (h : CallOk s m calls x) (hx : m.place x = .waiting i) :
    ∃ call feature, calls x = some call ∧ call.caller = x ∧ call.bytes = (s.regs x).ecxReg ∧
      call.request = .send feature ∧ featureEntry feature = some i := by
  obtain ⟨call, hc, hcaller, hbytes, hb⟩ := h.blocked (by simp [hx]) (by simp [hx])
  rw [hx] at hb
  cases hreq : call.request with
  | send feature =>
    rw [hreq] at hb
    exact ⟨call, feature, hc, hcaller, hbytes, hreq, hb⟩
  | receive sender =>
    rw [hreq] at hb
    exact absurd hb id

theorem callOk_of_blocked {call : Call} (hc : calls x = some call) (hcaller : call.caller = x)
    (hbytes : call.bytes = (s.regs x).ecxReg) (hx : m.place x ≠ .exited)
    (hb : BlockedIn s x (m.place x) call.request) : CallOk s m calls x :=
  ⟨fun hex => absurd hex hx, fun _ _ => ⟨call, hc, hcaller, hbytes, hb⟩⟩

end

/-- A caller that an effect blocks is blocked in the call that it has made. -/
theorem Calling.callOk_caller (hc : Calling s m p e calls) (heff : Effect ps s m p e k m') :
    CallOk k m' calls p := by
  cases heff.caller hc.not_receiving with
  | unmoved hplace =>
    rcases hc.cur with hrun | ⟨hex, hnone⟩
    · exact callOk_of_running (hplace.trans hrun)
    · exact ⟨fun _ => hc.silent hnone, fun _ hne => absurd (hplace.trans hex) hne⟩
  | sends hp hcall hi hsup _ hregs hplace =>
    obtain ⟨call, hcp, hcaller, hbytes, hreq⟩ := hc.send hp hcall
    refine callOk_of_blocked hcp hcaller (by rw [hbytes, hregs]) (by simp [hplace]) ?_
    rw [hplace, hreq]
    exact ⟨_, hi, hsup⟩
  | waits hp hcall _ _ hi _ _ hregs hplace =>
    obtain ⟨call, hcp, hcaller, hbytes, hreq⟩ := hc.send hp hcall
    refine callOk_of_blocked hcp hcaller (by rw [hbytes, hregs]) (by simp [hplace]) ?_
    rw [hplace, hreq]
    exact hi
  | listens hp hcall _ hregs hfrom hplace =>
    obtain ⟨call, hcp, hcaller, hbytes, hreq⟩ := hc.receive hp hcall
    refine callOk_of_blocked hcp hcaller (by rw [hbytes, hregs]) (by simp [hplace]) ?_
    rw [hplace, hreq]
    exact hfrom
  | exits hcall hplace =>
    refine ⟨fun _ => hc.silent ?_, fun _ hne => absurd hplace hne⟩
    simp [Event.request, hcall]

/-- After every effect the pending calls fit the places. -/
theorem Calling.callOk (hc : Calling s m p e calls) (hinv : IpcInv ps s q m)
    (heff : Effect ps s m p e k m') (x : Ptr) : CallOk k m' calls x := by
  by_cases hxp : x = p
  · rw [hxp]
    exact hc.callOk_caller heff
  cases heff.bystander hc.curptr hxp with
  | stays hplace hregs _ hfrom =>
    refine (hc.ok x hxp).frame hplace hregs (fun _ => hfrom) fun r i hr hi => ?_
    have hne : (s.featureTable i).supplier ≠ null := hi ▸ hinv.ne_null (hinv.receiver_mem x r hr)
    rw [heff.supplier_eq hne, hi]
  | woken _ hrun => exact callOk_of_running hrun
  | @served i hold hnew hsup hregs =>
    obtain ⟨call, feature, hcx, hcaller, hbytes, hreq, hwait⟩ := (hc.ok x hxp).waiting hold
    refine callOk_of_blocked hcx hcaller (by rw [hregs, hbytes]) (by simp [hnew]) ?_
    rw [hnew, hreq]
    exact ⟨i, hwait, hsup⟩
  | stranded hold hnew hregs =>
    obtain ⟨call, feature, j, hcx, hcaller, hbytes, hreq, -⟩ := (hc.ok x hxp).sending hold
    refine callOk_of_blocked hcx hcaller (by rw [hregs, hbytes]) (by simp [hnew]) ?_
    rw [hnew, hreq]
    trivial

/-! ## Completed calls -/

/-- No call is completed with `OK`. -/
structure NoMessage (s k : Kernel) (m' : Rendezvous Ptr Nat) (calls : Ptr → Option Call) : Prop where
  failed : ∀ x, calls x ≠ none → m'.place x = .running → (k.regs x).esiReg ≠ Err.ok
  exchanges : k.exchanges = s.exchanges

/-- A message has gone from `a` to `b`, which completes the calls of these two and no
other. -/
structure Message (ps : Finset Ptr) (s k : Kernel) (m' : Rendezvous Ptr Nat)
    (calls : Ptr → Option Call) (a b : Ptr) : Prop where
  sender_mem : a ∈ ps
  receiver_mem : b ∈ ps
  sender_running : m'.place a = .running
  receiver_running : m'.place b = .running
  sender_regs : (k.regs a).eaxReg = s.exchangeBytes a b ∧ (k.regs a).esiReg = Err.ok
  receiver_regs : (k.regs b).eaxReg = s.exchangeBytes a b ∧ (k.regs b).esiReg = Err.ok
  exchanges : k.exchanges = { sender := a, receiver := b, bytes := s.exchangeBytes a b } ::
    s.exchanges
  send : ∃ call feature i, calls a = some call ∧ call.caller = a ∧
    call.bytes = (s.regs a).ecxReg ∧ call.request = .send feature ∧
    featureEntry feature = some i ∧ (k.featureTable i).supplier = b
  receive : ∃ call sender, calls b = some call ∧ call.caller = b ∧
    call.bytes = (s.regs b).ecxReg ∧ call.request = .receive sender ∧ Accepts sender a
  others : ∀ x, calls x ≠ none → m'.place x = .running → x = a ∨ x = b

omit [Layout] in
theorem exchangeBytes_toNat (s : Kernel) (a b : Ptr) :
    (s.exchangeBytes a b).toNat = min (s.regs a).ecxReg.toNat (s.regs b).ecxReg.toNat := by
  unfold exchangeBytes
  split
  next h =>
    rw [BitVec.lt_def] at h
    omega
  next h =>
    rw [BitVec.lt_def] at h
    omega

section

omit [Layout]

/-- No call is completed if the caller's call, and that of everybody who is woken, has another
result than `OK`. -/
theorem Calling.noMessage (hc : Calling s m p e calls)
    (hp : m'.place p = .running → calls p ≠ none → (k.regs p).esiReg ≠ Err.ok)
    (hold : ∀ x ≠ p, m'.place x = .running → m.place x = .running ∨ (k.regs x).esiReg ≠ Err.ok)
    (hex : k.exchanges = s.exchanges) : NoMessage s k m' calls where
  failed x hcx hrun := by
    by_cases hxp : x = p
    · subst hxp
      exact hp hrun hcx
    · rcases hold x hxp hrun with hwas | hfail
      · exact absurd (hc.free x hxp hwas) hcx
      · exact hfail
  exchanges := hex

/-- A caller that blocks and wakes nobody completes no call. -/
theorem Calling.noMessage_blocks (hc : Calling s m p e calls) (hblocks : m'.place p ≠ .running)
    (hstays : ∀ x ≠ p, m'.place x = m.place x) (hex : k.exchanges = s.exchanges) :
    NoMessage s k m' calls :=
  hc.noMessage (fun hrun => absurd hrun hblocks)
    (fun x hxp hrun => Or.inl ((hstays x hxp).symm.trans hrun)) hex

/-- A call that is about no message, or is about one and fails. -/
theorem Calling.noMessage_quiet (hc : Calling s m p e calls) (hq : Quiet ps s e k) :
    NoMessage s k m calls := by
  refine hc.noMessage (fun _ hcp => ?_) (fun x _ hrun => Or.inl hrun) hq.exchanges
  rw [← hc.curptr]
  refine hq.failed ?_
  by_contra hcall
  refine hcp (hc.silent ?_)
  simp only [not_or] at hcall
  unfold Event.request
  split
  next h => exact absurd h hcall.1
  next h => exact absurd h hcall.2
  next => rfl

/-- The messages that wait for a feature go to the list of its supplier and not further. -/
theorem Calling.noMessage_adopted {i : Nat} (hc : Calling s m p e calls) (hcall : e.call = some 1)
    (hex : k.exchanges = s.exchanges) : NoMessage s k (m.adopt p i) calls := by
  refine hc.noMessage (fun _ hcp => absurd (hc.silent ?_) hcp) (fun x _ hrun => Or.inl ?_) hex
  · simp [Event.request, hcall]
  · exact Rendezvous.place_of_adopt hrun (by simp) (by simp)

/-- A sender that an exit wakes is told that its peer died. -/
theorem Calling.noMessage_exited (hc : Calling s m p e calls) (hp : ((m.release p).place p).Off)
    (hregs : k.regs = diedRegs (m.senders p) s.regs) (hex : k.exchanges = s.exchanges) :
    NoMessage s k ((m.release p).move p .exited hp Place.off_exited) calls := by
  refine hc.noMessage (fun hrun => absurd hrun (by simp)) (fun x hxp hrun => ?_) hex
  rw [Rendezvous.move_place, update_of_ne hxp] at hrun
  rcases Rendezvous.release_cases (m := m) (r := p) (x := x) with ⟨hold, -⟩ | ⟨-, hsame⟩
  · refine Or.inr ?_
    rw [hregs, diedRegs, if_pos (m.mem_senders.2 hold)]
    show Err.processDied ≠ Err.ok
    decide
  · exact Or.inl (hsame.symm.trans hrun)

/-- A receiver that an interrupt wakes is told its number. -/
theorem Calling.noMessage_rung {n : Nat} (hc : Calling s m p e calls)
    (hr : m.place r = .receiving) (hcall : e.call = none) (hn : n ≤ maxIrq)
    (hesi : (k.regs r).esiReg = (1#16 <<< n).setWidth 32) (hex : k.exchanges = s.exchanges) :
    NoMessage s k (m.move r .running (Rendezvous.off_of_receiving hr) Place.off_running) calls := by
  have hmask : ∀ n ≤ 15, 1#16 <<< n ≠ 0 := by decide
  refine hc.noMessage (fun _ hcp => absurd (hc.silent ?_) hcp) (fun x _ hrun => ?_) hex
  · simp [Event.request, hcall]
  · by_cases hxr : x = r
    · rw [hxr, hesi]
      exact Or.inr (setWidth_ne_ok (hmask n hn))
    · rw [Rendezvous.move_place, update_of_ne hxr] at hrun
      exact Or.inl hrun

/-- The processes that a delivery concerns return the number of bytes and `OK`. -/
theorem delivered_regs_eq {t : Kernel} (hx : x = a ∨ x = b) :
    ((t.delivered a b).regs x).eaxReg = t.exchangeBytes a b ∧
      ((t.delivered a b).regs x).esiReg = Err.ok := by
  simp only [delivered, if_pos hx]
  exact ⟨trivial, trivial⟩

end

/-- The message of a caller goes to the supplier that waits for it. -/
theorem Calling.message_direct {t : Kernel} {i : Nat} (hc : Calling s m p e calls)
    (hinv : IpcInv ps s q m) (hr : m.place r = .receiving) (hcall : e.call = some 3)
    (hp : p ∈ ps) (hrun : m.place p = .running) (hi : featureEntry (s.regs p).ebxReg = some i)
    (hsup : (k.featureTable i).supplier = r) (hacc : Accepts (s.receivingFrom r) p)
    (ht : t = s.setRegs p fun c => { c with ebxReg := r })
    (hregs : k.regs = (t.delivered p r).regs) (hex : k.exchanges = (t.delivered p r).exchanges) :
    Message ps s k (m.move r .running (Rendezvous.off_of_receiving hr) Place.off_running)
      calls p r := by
  have hpr : p ≠ r := by
    rintro rfl
    exact hc.not_receiving hr
  have hbytes : t.exchangeBytes p r = s.exchangeBytes p r := by
    simp only [ht, exchangeBytes, setRegs_regs, update_self, update_of_ne (Ne.symm hpr)]
  obtain ⟨call, hcp, hcaller, hcbytes, hreq⟩ := hc.send hrun hcall
  obtain ⟨rcall, hcr, hrcaller, hrbytes, hrreq⟩ := (hc.ok r (Ne.symm hpr)).receiving hr
  exact {
    sender_mem := hp
    receiver_mem := hinv.place_mem r (by simp [hr])
    sender_running := (update_of_ne hpr _ _).trans hrun
    receiver_running := update_self ..
    sender_regs := by rw [hregs, ← hbytes]; exact delivered_regs_eq (Or.inl rfl)
    receiver_regs := by rw [hregs, ← hbytes]; exact delivered_regs_eq (Or.inr rfl)
    exchanges := by rw [hex, ← hbytes, ht]; rfl
    send := ⟨call, _, i, hcp, hcaller, hcbytes, hreq, hi, hsup⟩
    receive := ⟨rcall, _, hcr, hrcaller, hrbytes, hrreq, hacc⟩
    others := fun x hcx hxrun => by
      by_contra hx
      rw [not_or] at hx
      rw [Rendezvous.move_place, update_of_ne hx.2] at hxrun
      exact hcx (hc.free x hx.1 hxrun) }

/-- A caller fetches the message of a sender on its list. -/
theorem Calling.message_fetched {w : Ptr} (hc : Calling s m p e calls) (hinv : IpcInv ps s q m)
    (hw : m.place w = .sending p) (hcall : e.call = some 2) (hp : p ∈ ps)
    (hrun : m.place p = .running) (hacc : Accepts (s.regs p).ebxReg w)
    (hsup : ∀ i, (k.featureTable i).supplier = (s.featureTable i).supplier)
    (hregs : k.regs = (s.delivered w p).regs) (hex : k.exchanges = (s.delivered w p).exchanges) :
    Message ps s k (m.take w p hw) calls w p := by
  have hpw : p ≠ w := by
    rintro rfl
    simp [hrun] at hw
  obtain ⟨call, hcp, hcaller, hcbytes, hreq⟩ := hc.receive hrun hcall
  obtain ⟨wcall, feature, i, hcw, hwcaller, hwbytes, hwreq, hi, hwsup⟩ :=
    (hc.ok w (Ne.symm hpw)).sending hw
  exact {
    sender_mem := hinv.place_mem w (by simp [hw])
    receiver_mem := hp
    sender_running := update_self ..
    receiver_running := (update_of_ne hpw _ _).trans hrun
    sender_regs := by rw [hregs]; exact delivered_regs_eq (Or.inl rfl)
    receiver_regs := by rw [hregs]; exact delivered_regs_eq (Or.inr rfl)
    exchanges := hex
    send := ⟨wcall, feature, i, hcw, hwcaller, hwbytes, hwreq, hi, (hsup i).trans hwsup⟩
    receive := ⟨call, _, hcp, hcaller, hcbytes, hreq, hacc⟩
    others := fun x hcx hxrun => by
      by_contra hx
      rw [not_or] at hx
      rw [Rendezvous.take_place, update_of_ne hx.1] at hxrun
      exact hcx (hc.free x hx.2 hxrun) }

/-- Every effect completes no call with `OK`, or one send and one receive. -/
theorem Calling.message (hc : Calling s m p e calls) (hinv : IpcInv ps s q m)
    (heff : Effect ps s m p e k m') :
    NoMessage s k m' calls ∨ ∃ a b, Message ps s k m' calls a b := by
  cases heff with
  | quiet hq => exact Or.inl (hc.noMessage_quiet hq)
  | @direct r i hr hcall hp hrun hi hsup hbuf hacc ht halike =>
    exact Or.inr ⟨p, r, hc.message_direct hinv hr hcall hp hrun hi
      ((halike.supplier i).trans hsup) hacc rfl halike.regs halike.exchanges⟩
  | queued hp hcall hpp hi hsup hr hrp hbuf hnot ht halike =>
    exact Or.inl (hc.noMessage_blocks (by simp) (fun x hxp => update_of_ne hxp _ _)
      halike.exchanges)
  | parked hp hcall hpp hcheck hi hsup hedi ht halike =>
    exact Or.inl (hc.noMessage_blocks (by simp) (fun x hxp => update_of_ne hxp _ _)
      halike.exchanges)
  | @fetched w hw hcall hpp hrun hbuf hint hacc ht halike =>
    exact Or.inr ⟨w, p, hc.message_fetched hinv hw hcall hpp hrun hacc.accepts halike.supplier
      halike.regs halike.exchanges⟩
  | listening hp hcall hpp hbuf hint hnone ht halike =>
    exact Or.inl (hc.noMessage_blocks (by simp) (fun x hxp => update_of_ne hxp _ _)
      halike.exchanges)
  | adopted hcall hpp hrun hcheck hi hsup ht halike =>
    exact Or.inl (hc.noMessage_adopted hcall halike.exchanges)
  | exited hp hcall hpp hrun ht ht' hregs hint hfrom hgdt hidx hex =>
    exact Or.inl (hc.noMessage_exited hp hregs hex)
  | @rung r n hr hnum hcall hirq hn ht halike =>
    refine Or.inl (hc.noMessage_rung hr hcall hn ?_ halike.exchanges)
    rw [halike.regs]
    show (update s.regs r _ r).esiReg = _
    rw [update_self]

/-! ## Identifiers of calls -/

/-- The calls under way and the completions in `l` have different identifiers, all of them
below `n`. -/
structure Ids (n : Nat) (calls : Ptr → Option Call) (l : List Completion) : Prop where
  fresh : ∀ x call, calls x = some call → call.id < n
  distinct : ∀ x y call call', calls x = some call → calls y = some call' →
    call.id = call'.id → x = y
  old : ∀ c ∈ l, c.call.id < n
  done : ∀ c ∈ l, ∀ x call, calls x = some call → call.id ≠ c.call.id
  nodup : (l.map (·.call.id)).Nodup

variable {n : Nat} {calls' : Ptr → Option Call} {l : List Completion} {call : Call}
  {c : Completion}

section

omit [Layout]

theorem Ids.succ (h : Ids n calls l) : Ids (n + 1) calls l :=
  ⟨fun x call hx => Nat.lt_succ_of_lt (h.fresh x call hx), h.distinct,
    fun c hc => Nat.lt_succ_of_lt (h.old c hc), h.done, h.nodup⟩

/-- A call begins. -/
theorem Ids.begin (h : Ids n calls l) (hid : call.id = n) :
    Ids (n + 1) (update calls p (some call)) l where
  fresh x call' hx := by
    by_cases hxp : x = p
    · rw [hxp, update_self] at hx
      obtain rfl : call = call' := Option.some.inj hx
      omega
    · rw [update_of_ne hxp] at hx
      exact Nat.lt_succ_of_lt (h.fresh x call' hx)
  distinct x y c c' hx hy heq := by
    by_cases hxp : x = p <;> by_cases hyp : y = p
    · rw [hxp, hyp]
    · rw [hxp, update_self] at hx
      rw [update_of_ne hyp] at hy
      have hlt := h.fresh y c' hy
      obtain rfl : call = c := Option.some.inj hx
      omega
    · rw [hyp, update_self] at hy
      rw [update_of_ne hxp] at hx
      have hlt := h.fresh x c hx
      obtain rfl : call = c' := Option.some.inj hy
      omega
    · rw [update_of_ne hxp] at hx
      rw [update_of_ne hyp] at hy
      exact h.distinct x y c c' hx hy heq
  old c hc := Nat.lt_succ_of_lt (h.old c hc)
  done c hc x call' hx := by
    by_cases hxp : x = p
    · rw [hxp, update_self] at hx
      have hlt := h.old c hc
      obtain rfl : call = call' := Option.some.inj hx
      omega
    · rw [update_of_ne hxp] at hx
      exact h.done c hc x call' hx
  nodup := h.nodup

/-- Some calls are over, and none of them counts. -/
theorem Ids.drop (h : Ids n calls l) (hsub : ∀ x call, calls' x = some call → calls x = some call) :
    Ids n calls' l :=
  ⟨fun x call hx => h.fresh x call (hsub x call hx),
    fun x y c c' hx hy => h.distinct x y c c' (hsub x c hx) (hsub y c' hy), h.old,
    fun c hc x call hx => h.done c hc x call (hsub x call hx), h.nodup⟩

/-- Some calls are over, and one of them counts. -/
theorem Ids.complete (h : Ids n calls l) (hx : calls x = some c.call)
    (hsub : ∀ y call, calls' y = some call → calls y = some call) (hover : calls' x = none) :
    Ids n calls' (c :: l) where
  fresh y call hy := h.fresh y call (hsub y call hy)
  distinct y z c c' hy hz := h.distinct y z c c' (hsub y c hy) (hsub z c' hz)
  old c' hc' := by
    rcases List.mem_cons.1 hc' with rfl | hc'
    · exact h.fresh x _ hx
    · exact h.old c' hc'
  done c' hc' y call hy := by
    rcases List.mem_cons.1 hc' with rfl | hc'
    · intro heq
      obtain rfl := h.distinct y x call _ (hsub y call hy) hx heq
      rw [hover] at hy
      exact absurd hy (by simp)
    · exact h.done c' hc' y call (hsub y call hy)
  nodup := by
    rw [List.map_cons, List.nodup_cons]
    refine ⟨fun hmem => ?_, h.nodup⟩
    obtain ⟨c', hc', heq⟩ := List.mem_map.1 hmem
    exact h.done c' hc' x _ hx heq.symm

/-! ## What the observer lists -/

theorem filterMap_eq_singleton {α β : Type*} {f : α → Option β} {l : List α} {a : α} {b : β}
    (hnd : l.Nodup) (ha : a ∈ l) (hfa : f a = some b) (hf : ∀ x ∈ l, x ≠ a → f x = none) :
    l.filterMap f = [b] := by
  induction l with
  | nil => exact absurd ha (by simp)
  | cons x l ih =>
    obtain ⟨hxl, hnd⟩ := List.nodup_cons.1 hnd
    rcases List.mem_cons.1 ha with rfl | hal
    · rw [List.filterMap_cons_some hfa, List.filterMap_eq_nil_iff.2 fun y hy =>
        hf y (by simp [hy]) (ne_of_mem_of_not_mem hy hxl)]
    · rw [List.filterMap_cons_none (hf x (by simp) (ne_of_mem_of_not_mem hal hxl).symm)]
      exact ih hnd hal fun y hy => hf y (by simp [hy])

end

/-- The observer sees which processes run. -/
theorem IpcInv.isEnqueued_iff (h : IpcInv ps s q m) (hx : x ∈ ps) :
    s.sched.isEnqueued x = true ↔ m.place x = .running :=
  (h.queue.isEnqueued_iff x hx).trans (h.running x)

section

omit [Layout]

theorem finished_eq_nil {time : Nat} {isSend : Bool}
    (h : ∀ x ∈ procs, calls x ≠ none → s.sched.isEnqueued x = true → (s.regs x).esiReg ≠ Err.ok) :
    Observed.finished procs calls time s isSend = [] := by
  refine List.filterMap_eq_nil_iff.2 fun x hx => ?_
  cases hc : calls x with
  | none => rfl
  | some call =>
    rw [Option.bind_some, if_neg]
    rintro ⟨-, hon, hok⟩
    exact h x hx (by simp [hc]) hon hok

theorem finished_eq_singleton {time : Nat} {isSend : Bool} (hnd : procs.Nodup) (ha : a ∈ procs)
    (hc : calls a = some call) (hsend : call.request.isSend = isSend)
    (hon : s.sched.isEnqueued a = true) (hok : (s.regs a).esiReg = Err.ok)
    (hothers : ∀ x ∈ procs, x ≠ a → ∀ call, calls x = some call → s.sched.isEnqueued x = true →
      call.request.isSend ≠ isSend) :
    Observed.finished procs calls time s isSend = [{ call, time, eax := (s.regs a).eaxReg }] := by
  refine filterMap_eq_singleton hnd ha ?_ fun x hx hxa => ?_
  · rw [hc, Option.bind_some, if_pos ⟨hsend, hon, hok⟩]
  · cases hcx : calls x with
    | none => rfl
    | some call' =>
      rw [Option.bind_some, if_neg]
      rintro ⟨hs, honx, -⟩
      exact hothers x hx hxa call' hcx honx hs

/-! ## The invariant of the observation -/

/-- The pending calls fit the rendezvous of the kernel, and the completed ones pair up. -/
structure PairInv (o : Observed) (m : Rendezvous Ptr Nat) : Prop where
  callOk : ∀ x, CallOk o.kernel m o.pending x
  free : ∀ x, m.place x = .running → o.pending x = none
  paired : List.Forall₂ (fun send receive => Paired o.kernel send receive ∧
    receive.call.caller ≠ null) o.sent o.received
  copied : List.Forall₂ CopiedBy o.sent o.kernel.exchanges
  sentIds : Ids o.clock o.pending o.sent
  receivedIds : Ids o.clock o.pending o.received

theorem CallOk.calls_congr (h : CallOk s m calls x) (hc : calls' x = calls x) :
    CallOk s m calls' x :=
  ⟨fun hx => hc.trans (h.exited hx), fun hrun hex => hc ▸ h.blocked hrun hex⟩

theorem calls_of_none (h : e.request = none) : o.calls e = o.pending := by
  rw [Observed.calls, h]

theorem calls_of_some {request : Request} (h : e.request = some request) :
    o.calls e = update o.pending o.kernel.sched.curptr (some
      { id := o.clock, caller := o.kernel.sched.curptr, request, bytes := e.regs.ecxReg }) := by
  rw [Observed.calls, h]

end

/-- What the observer knows when an event has come. -/
theorem PairInv.calling (h : PairInv o m) (hinv : IpcInv ps o.kernel q m)
    (hb : Between o.kernel.sched q) (he : o.kernel.Enabled e) :
    Calling (o.kernel.saveContext e.regs) m o.kernel.sched.curptr e (o.calls e) := by
  have hsaved := saved o.kernel e.regs
  have hcalls : ∀ x ≠ o.kernel.sched.curptr, o.calls e x = o.pending x := by
    intro x hx
    cases hreq : e.request with
    | none => rw [calls_of_none hreq]
    | some request =>
      rw [calls_of_some hreq]
      exact update_of_ne hx _ _
  have hcur : m.place o.kernel.sched.curptr = .running ∨
      m.place o.kernel.sched.curptr = .exited ∧ e.request = none := by
    have hout : o.kernel.sched.curptr ∉ ps → m.place o.kernel.sched.curptr = .exited := fun hn => by
      by_contra hne
      exact hn (hinv.place_mem _ hne)
    have hnone : ¬ (o.kernel.sched.curptr ≠ null ∧ o.kernel.sched.curptr ≠ idlestate) →
        e.request = none := fun hn => by
      cases e with
      | syscall regs input => exact absurd he hn
      | timer regs => rfl
      | device number regs => rfl
    rcases hb.curptr with hnull | hidle | hmem
    · exact Or.inr ⟨hout fun hp => hinv.ne_null hp hnull, hnone fun hn => hn.1 hnull⟩
    · exact Or.inr ⟨hout fun hp => hinv.ne_idle hp hidle, hnone fun hn => hn.2 hidle⟩
    · exact Or.inl ((hinv.running _).1 hmem)
  have hregs : m.place o.kernel.sched.curptr = .running →
      (o.kernel.saveContext e.regs).regs o.kernel.sched.curptr = e.regs := fun hrun =>
    hsaved.regs_cur (hinv.ne_null (hinv.place_mem _ (by simp [hrun])))
  refine ⟨by rw [hsaved.sched], fun x hx => ?_, fun x hx hrun => ?_, fun request hreq => ?_,
    fun hnone => ?_, hregs, hcur⟩
  · refine CallOk.frame ((h.callOk x).calls_congr (hcalls x hx)) rfl (hsaved.regs_of_ne x hx)
      (fun _ => by rw [hsaved.receivingFrom]) fun r i _ hi => ?_
    rw [hsaved.featureTable]
    exact hi
  · rw [hcalls x hx]
    exact h.free x hrun
  · have hrun : m.place o.kernel.sched.curptr = .running := by
      rcases hcur with hrun | ⟨-, hnone⟩
      · exact hrun
      · exact absurd (hreq.symm.trans hnone) (by simp)
    rw [calls_of_some hreq, hregs hrun]
    exact ⟨_, update_self .., rfl, rfl, rfl⟩
  · rw [calls_of_none hnone]
    rcases hcur with hrun | ⟨hex, -⟩
    · exact h.free _ hrun
    · exact (h.callOk _).exited hex

omit [Layout] in
/-- The identifiers of the calls under way when an event has come. -/
theorem ids_calls (h : Ids o.clock o.pending l) (e : Event) :
    Ids (o.clock + 1) (o.calls e) l := by
  cases hreq : e.request with
  | none =>
    rw [calls_of_none hreq]
    exact h.succ
  | some request =>
    rw [calls_of_some hreq]
    exact h.begin rfl

omit [Layout] in
/-- A pair stays a pair. -/
theorem paired_mono {send receive : Completion} (h : Paired s send receive)
    (hsup : ∀ i, (s.featureTable i).supplier = receive.call.caller →
      (s'.featureTable i).supplier = receive.call.caller) : Paired s' send receive where
  supplier := by
    obtain ⟨feature, i, hreq, hi, hs⟩ := h.supplier
    exact ⟨feature, i, hreq, hi, hsup i hs⟩
  accepts := h.accepts
  time := h.time
  eax_eq := h.eax_eq
  eax_min := h.eax_min

/-- What the observer finds completed: no call with `OK`, or a send and a receive. -/
inductive Completes (ps : Finset Ptr) (s k : Kernel) (m' : Rendezvous Ptr Nat)
    (calls : Ptr → Option Call) (o o' : Observed) : Prop where
  | nothing : NoMessage s k m' calls → o'.sent = o.sent → o'.received = o.received →
      Completes ps s k m' calls o o'
  | message {a b : Ptr} {call rcall : Call} : Message ps s k m' calls a b →
      calls a = some call → calls b = some rcall →
      o'.sent = { call, time := o.clock, eax := (k.regs a).eaxReg } :: o.sent →
      o'.received = { call := rcall, time := o.clock, eax := (k.regs b).eaxReg } :: o.received →
      Completes ps s k m' calls o o'

/-- The event `e` has one of the effects, and this is what the observer makes of it. -/
structure Stepped (procs : List Ptr) (o : Observed) (m : Rendezvous Ptr Nat) (e : Event)
    (o' : Observed) (k : Kernel) (q' : List Ptr) (m' : Rendezvous Ptr Nat) : Prop where
  calling : Calling (o.kernel.saveContext e.regs) m o.kernel.sched.curptr e (o.calls e)
  effect : Effect procs.toFinset (o.kernel.saveContext e.regs) m o.kernel.sched.curptr e k m'
  resumed : Resumed k o'.kernel
  inv : IpcInv procs.toFinset o'.kernel q' m'
  between : Between o'.kernel.sched q'
  clock : o'.clock = o.clock + 1
  pending : ∀ x call, o'.pending x = some call ↔
    o.calls e x = some call ∧ m'.place x ≠ .running
  completes : Completes procs.toFinset (o.kernel.saveContext e.regs) k m' (o.calls e) o o'

theorem PairInv.stepped (h : PairInv o m) (hnd : procs.Nodup)
    (hinv : IpcInv procs.toFinset o.kernel q m) (hb : Between o.kernel.sched q)
    (hs : Observed.step procs o e = some o') : ∃ k q' m', Stepped procs o m e o' k q' m' := by
  obtain ⟨s', hs', rfl⟩ := Option.map_eq_some_iff.1 hs
  have he : o.kernel.Enabled e := by
    by_contra hn
    rw [Kernel.step, if_neg hn] at hs'
    exact absurd hs' (by simp)
  obtain ⟨k, q', m', hfin, -, hki, hinv', hb', heff⟩ := hinv.step hb hs'
  have hres : Resumed k s' := hfin ▸ resumed k e.number
  have hc := h.calling hinv hb he
  have hinvs := hinv.saveContext e.regs
  have hcallOk := hc.callOk hinvs heff
  have hmem : ∀ x call, o.calls e x = some call → x ∈ procs := by
    intro x call hx
    by_contra hn
    have hex := (hcallOk x).exited (by
      by_contra hne
      exact hn (List.mem_toFinset.1 (hki.place_mem x hne)))
    rw [hx] at hex
    exact absurd hex (by simp)
  have hon : ∀ x ∈ procs, (s'.sched.isEnqueued x = true ↔ m'.place x = .running) := fun x hx =>
    hinv'.isEnqueued_iff (List.mem_toFinset.2 hx)
  refine ⟨k, q', m', hc, heff, hres, hinv', hb', rfl, fun x call => ?_, ?_⟩
  · dsimp only
    constructor
    · intro hx
      split at hx
      · exact absurd hx (by simp)
      next hoff => exact ⟨hx, fun hrun => hoff ((hon x (hmem x call hx)).2 hrun)⟩
    · rintro ⟨hx, hrun⟩
      rw [if_neg fun hoff => hrun ((hon x (hmem x call hx)).1 hoff), hx]
  rcases hc.message hinvs heff with hno | ⟨a, b, hm⟩
  · have hnil : ∀ isSend, Observed.finished procs (o.calls e) o.clock s' isSend = [] := by
      intro isSend
      refine finished_eq_nil fun x hx hcx honx => ?_
      rw [hres.regs]
      exact hno.failed x hcx ((hon x hx).1 honx)
    exact .nothing hno (by simp only [hnil, List.nil_append]) (by simp only [hnil, List.nil_append])
  · obtain ⟨call, feature, i, hca, -, -, hreq, -⟩ := hm.send
    obtain ⟨rcall, sender, hcb, -, -, hrreq, -⟩ := hm.receive
    have ha := List.mem_toFinset.1 hm.sender_mem
    have hbm := List.mem_toFinset.1 hm.receiver_mem
    have hona := (hon a ha).2 hm.sender_running
    have honb := (hon b hbm).2 hm.receiver_running
    have hsend : Observed.finished procs (o.calls e) o.clock s' true =
        [{ call, time := o.clock, eax := (s'.regs a).eaxReg }] := by
      refine finished_eq_singleton hnd ha hca (by rw [hreq]; rfl) hona
        (by rw [hres.regs]; exact hm.sender_regs.2) fun x hx hxa call' hcx honx => ?_
      rcases hm.others x (by simp [hcx]) ((hon x hx).1 honx) with rfl | rfl
      · exact absurd rfl hxa
      · obtain rfl : rcall = call' := Option.some.inj (hcb.symm.trans hcx)
        simp [hrreq, Request.isSend]
    have hreceive : Observed.finished procs (o.calls e) o.clock s' false =
        [{ call := rcall, time := o.clock, eax := (s'.regs b).eaxReg }] := by
      refine finished_eq_singleton hnd hbm hcb (by rw [hrreq]; rfl) honb
        (by rw [hres.regs]; exact hm.receiver_regs.2) fun x hx hxb call' hcx honx => ?_
      rcases hm.others x (by simp [hcx]) ((hon x hx).1 honx) with rfl | rfl
      · obtain rfl : call = call' := Option.some.inj (hca.symm.trans hcx)
        simp [hreq, Request.isSend]
      · exact absurd rfl hxb
    refine .message hm hca hcb ?_ ?_
    · rw [hsend, List.singleton_append, hres.regs]
    · rw [hreceive, List.singleton_append, hres.regs]

/-- A step keeps the invariant. -/
theorem Stepped.pairInv {k : Kernel} (hst : Stepped procs o m e o' k q' m') (h : PairInv o m)
    (hinv : IpcInv procs.toFinset o.kernel q m) : PairInv o' m' := by
  have hsaved := saved o.kernel e.regs
  have hres := hst.resumed
  have hcallOk := hst.calling.callOk (hinv.saveContext e.regs) hst.effect
  have hpaired : List.Forall₂ (fun send receive => Paired o'.kernel send receive ∧
      receive.call.caller ≠ null) o.sent o.received := by
    refine h.paired.imp fun send receive hp => ⟨paired_mono hp.1 fun i hi => ?_, hp.2⟩
    rw [hres.featureTable, hst.effect.supplier_eq (by rw [hsaved.featureTable, hi]; exact hp.2),
      hsaved.featureTable, hi]
  have hsub : ∀ x call, o'.pending x = some call → o.calls e x = some call := fun x call hx =>
    ((hst.pending x call).1 hx).1
  have hfree : ∀ x, m'.place x = .running → o'.pending x = none := by
    intro x hrun
    cases hx : o'.pending x with
    | none => rfl
    | some call => exact absurd hrun ((hst.pending x call).1 hx).2
  have hcalls : ∀ x, CallOk o'.kernel m' o'.pending x := by
    intro x
    by_cases hrun : m'.place x = .running
    · exact callOk_of_running hrun
    · refine CallOk.calls_congr (CallOk.frame (hcallOk x) rfl (by rw [hres.regs])
        (fun _ => by rw [hres.receivingFrom]) fun r i _ hi => by rw [hres.featureTable, hi]) ?_
      cases hcx : o.calls e x with
      | none =>
        cases hx : o'.pending x with
        | none => rfl
        | some call => exact absurd (hcx.symm.trans (hsub x call hx)) (by simp)
      | some call => exact (hst.pending x call).2 ⟨hcx, hrun⟩
  have hsent := ids_calls h.sentIds e
  have hreceived := ids_calls h.receivedIds e
  rw [← hst.clock] at hsent hreceived
  cases hst.completes with
  | nothing hno hs hr =>
    refine ⟨hcalls, hfree, ?_, ?_, ?_, ?_⟩
    · rwa [hs, hr]
    · rw [hs, hres.exchanges, hno.exchanges, hsaved.exchanges]
      exact h.copied
    · rw [hs]
      exact hsent.drop hsub
    · rw [hr]
      exact hreceived.drop hsub
  | @message a b call rcall hm hca hcb hs hr =>
    obtain ⟨call', feature, i, hca', hcaller, hbytes, hreq, hi, hsup⟩ := hm.send
    obtain ⟨rcall', sender, hcb', hrcaller, hrbytes, hrreq, hacc⟩ := hm.receive
    obtain rfl : call = call' := Option.some.inj (hca.symm.trans hca')
    obtain rfl : rcall = rcall' := Option.some.inj (hcb.symm.trans hcb')
    obtain ⟨heax, -⟩ := hm.sender_regs
    obtain ⟨heax', -⟩ := hm.receiver_regs
    refine ⟨hcalls, hfree, ?_, ?_, ?_, ?_⟩
    · rw [hs, hr]
      refine .cons ⟨⟨?_, ?_, rfl, ?_, ?_⟩, ?_⟩ hpaired
      · refine ⟨feature, i, hreq, hi, ?_⟩
        rw [hres.featureTable, hsup, hrcaller]
      · exact ⟨sender, hrreq, hcaller ▸ hacc⟩
      · rw [heax, heax']
      · rw [heax, hbytes, hrbytes]
        exact exchangeBytes_toNat _ a b
      · rw [hrcaller]
        exact hst.inv.ne_null hm.receiver_mem
    · rw [hs, hres.exchanges, hm.exchanges, hsaved.exchanges]
      exact .cons ⟨hcaller.symm, heax.symm⟩ h.copied
    · rw [hs]
      exact hsent.complete hca hsub (hfree a hm.sender_running)
    · rw [hr]
      exact hreceived.complete hcb hsub (hfree b hm.receiver_running)

theorem PairInv.start {boot : Kernel} (hq : Started procs boot q) :
    PairInv (Observed.start boot) (allRunning procs) where
  callOk x := by
    by_cases hx : x ∈ procs
    · exact callOk_of_running (allRunning_place_of_mem hx)
    · exact ⟨fun _ => rfl, fun _ hex => absurd (allRunning_place_of_notMem hx) hex⟩
  free _ _ := rfl
  paired := .nil
  copied := by
    show List.Forall₂ CopiedBy [] boot.exchanges
    rw [hq.exchanges]
    exact .nil
  sentIds := ⟨by simp [Observed.start], by simp [Observed.start], by simp [Observed.start],
    by simp [Observed.start], by simp [Observed.start]⟩
  receivedIds := ⟨by simp [Observed.start], by simp [Observed.start], by simp [Observed.start],
    by simp [Observed.start], by simp [Observed.start]⟩

/-! ## Runs -/

/-- An observed run of the kernel. -/
def observe (procs : List Ptr) (boot : Kernel) (es : List Event) : Option Observed :=
  es.foldlM (Observed.step procs) (Observed.start boot)

theorem observes (procs : List Ptr) :
    Machine.Observes step (Observed.step procs) Observed.kernel := fun o e => by
  rw [Observed.step, Option.map_map]
  exact Option.map_id'

theorem observe_run {boot : Kernel} (ho : observe procs boot es = some o) :
    Machine.Run (Observed.step procs) Machine.always (Observed.start boot) es o :=
  .of_foldlM (fun _ _ _ hs => ⟨trivial, hs⟩) ho

theorem PairInv.run {boot : Kernel} (hboot : Booted procs boot)
    (ho : observe procs boot es = some o) : ∃ m, PairInv o m := by
  obtain ⟨c, hcreated, -⟩ := id hboot
  obtain ⟨q, hq⟩ := hboot.started
  obtain ⟨q', m', -, -, h⟩ := (observe_run ho).invariant
    (P := fun o => ∃ q m, IpcInv procs.toFinset o.kernel q m ∧ Between o.kernel.sched q ∧
      PairInv o m)
    (fun o e o' ⟨q, m, hinv, hb, h⟩ _ hs => by
      obtain ⟨k, q', m', hst⟩ := h.stepped hcreated.nodup hinv hb hs
      exact ⟨q', m', hst.inv, hst.between, hst.pairInv h hinv⟩)
    ⟨q, allRunning procs, hq.inv, hq.between, PairInv.start hq⟩
  exact ⟨m', h⟩

end Kernel

end Mycrokernel
