import Mycrokernel.Kernel.Pairing
import Mycrokernel.Kernel.Wakeup

/-!
# Senders are served in order

Every list of senders holds its processes in the order in which they have made
their calls: who blocks goes to the end, a supplier takes over the whole list of
its feature, and who leaves keeps the order of the others.  A receive from `ANYPROC`
takes the first one, and a process that is blocked in such a receive has an empty
list.  So the sends to a feature that go to receives from `ANYPROC` are over in the
order in which they were made (`senders_in_order`).
-/

namespace Mycrokernel

open Function (update update_self update_of_ne)
open PointerList

/-- The message of this send went to a receive from `ANYPROC`. -/
def Observed.ToAny (o : Observed) (send : Completion) : Prop :=
  ∀ receive ∈ o.received, receive.time = send.time → receive.call.request = .receive anyproc

namespace Kernel

open Rendezvous (Place)

variable [Layout] {procs : List Ptr} {ps : Finset Ptr} {s s' k : Kernel} {e : Event}
  {m m' : Rendezvous Ptr Nat} {p r x a b : Ptr} {q q' l : List Ptr}
  {calls calls' : Ptr → Option Call} {o o' : Observed} {es : List Event} {i : Nat}

/-! ## The lists -/

/-- The lists of a rendezvous, under one kind of name. -/
def listAt (m : Rendezvous Ptr Nat) : Ptr ⊕ Nat → List Ptr := Sum.elim m.senders m.waiters

/-- Where a process on a list is. -/
def placeAt : Ptr ⊕ Nat → Place Ptr Nat := Sum.elim .sending .waiting

omit [Layout] in
theorem mem_listAt {j : Ptr ⊕ Nat} : x ∈ listAt m j ↔ m.place x = placeAt j := by
  cases j with
  | inl r => exact m.mem_senders
  | inr i => exact m.mem_waiters

/-- After an effect a list is a part of one of the lists before, perhaps with the caller of
a send behind it. -/
theorem Effect.listAt (heff : Effect ps s m p e k m') (j : Ptr ⊕ Nat) :
    ∃ j' l, l.Sublist (Kernel.listAt m j') ∧
      (Kernel.listAt m' j = l ∨ Kernel.listAt m' j = l ++ [p] ∧ e.call = some 3) := by
  have hsame : ∀ j', Kernel.listAt m' j = Kernel.listAt m j' →
      ∃ j' l, l.Sublist (Kernel.listAt m j') ∧
        (Kernel.listAt m' j = l ∨ Kernel.listAt m' j = l ++ [p] ∧ e.call = some 3) :=
    fun j' h => ⟨j', _, List.Sublist.refl _, Or.inl h⟩
  cases heff with
  | quiet hq => exact hsame j rfl
  | direct => exact hsame j (by cases j <;> rfl)
  | @queued r _ _ hcall =>
    cases j with
    | inl x =>
      by_cases hx : x = r
      · subst hx
        exact ⟨.inl x, _, List.Sublist.refl _, Or.inr ⟨update_self .., hcall⟩⟩
      · exact hsame (.inl x) (update_of_ne hx _ _)
    | inr i => exact hsame (.inr i) rfl
  | @parked i _ hcall =>
    cases j with
    | inl x => exact hsame (.inl x) rfl
    | inr y =>
      by_cases hy : y = i
      · subst hy
        exact ⟨.inr y, _, List.Sublist.refl _, Or.inr ⟨update_self .., hcall⟩⟩
      · exact hsame (.inr y) (update_of_ne hy _ _)
  | fetched =>
    cases j with
    | inl x =>
      by_cases hx : x = p
      · subst hx
        exact ⟨.inl x, _, List.erase_sublist, Or.inl (update_self ..)⟩
      · exact hsame (.inl x) (update_of_ne hx _ _)
    | inr i => exact hsame (.inr i) rfl
  | listening => exact hsame j (by cases j <;> rfl)
  | @adopted i =>
    cases j with
    | inl x =>
      by_cases hx : x = p
      · subst hx
        exact hsame (.inr i) (update_self ..)
      · exact hsame (.inl x) (update_of_ne hx _ _)
    | inr y =>
      by_cases hy : y = i
      · subst hy
        exact ⟨.inr y, [], List.nil_sublist _, Or.inl (update_self ..)⟩
      · exact hsame (.inr y) (update_of_ne hy _ _)
  | exited =>
    cases j with
    | inl x =>
      by_cases hx : x = p
      · subst hx
        exact ⟨.inl x, [], List.nil_sublist _, Or.inl (update_self ..)⟩
      · exact hsame (.inl x) (update_of_ne hx _ _)
    | inr i => exact hsame (.inr i) rfl
  | rung => exact hsame j (by cases j <;> rfl)

/-- Who is on no list although it is blocked stays so. -/
theorem Effect.stranded (heff : Effect ps s m p e k m') (hx : m.place x = .stranded) :
    m'.place x = .stranded := by
  have hmove : ∀ {y : Ptr} {pl : Place Ptr Nat}, m.place y ≠ .stranded →
      update m.place y pl x = .stranded := fun {y pl} hy => by
    rw [update_of_ne (by rintro rfl; exact hy hx), hx]
  cases heff with
  | quiet => exact hx
  | direct hr => exact hmove (by simp [hr])
  | queued hp => exact hmove (by simp [hp])
  | parked hp => exact hmove (by simp [hp])
  | fetched hw => exact hmove (by simp [hw])
  | listening hp => exact hmove (by simp [hp])
  | adopted => rw [Rendezvous.adopt_place_of_ne (by simp [hx]) (by simp [hx]), hx]
  | exited hp _ _ hrun =>
    have hxp : x ≠ p := by
      rintro rfl
      simp [hrun] at hx
    rw [Rendezvous.move_place, update_of_ne hxp,
      Rendezvous.release_place_of_ne (by simp [hx]), hx]
  | rung hr => exact hmove (by simp [hr])

/-! ## Receives from `ANYPROC` -/

/-- When the event `e` comes, `r` is in a receive from `ANYPROC`, or makes one. -/
def ReceivesAny (s : Kernel) (e : Event) (r : Ptr) : Prop :=
  s.state r &&& Flag.receiving ≠ 0 ∧ s.receivingFrom r = anyproc ∨
    s.sched.curptr = r ∧ e.call = some 2 ∧ e.regs.ebxReg = anyproc

/-- A message for a receive from `ANYPROC` is the one of the first sender, unless there is
no other one. -/
theorem Effect.first {message : Exchange} (hinv : IpcInv ps s q m) (hnone : NoneMissed s m)
    (heff : Effect ps s m p e k m') (hregs : m.place p = .running → s.regs p = e.regs)
    (hex : k.exchanges = message :: s.exchanges) (hany : ReceivesAny s e message.receiver) :
    message.receiver ∈ ps ∧
      (m.senders message.receiver = [] ∧ m'.senders message.receiver = [] ∨
        ∃ l, m.senders message.receiver = message.sender :: l ∧
          m'.senders message.receiver = l) := by
  have hquiet : k.exchanges ≠ s.exchanges := by
    rw [hex]
    exact List.cons_ne_self _ _
  cases heff with
  | quiet hq => exact absurd hq.exchanges hquiet
  | @direct r i hr hcall _ _ _ _ _ _ _ halike =>
    obtain ⟨rfl, -⟩ := List.cons_eq_cons.1 (halike.exchanges.symm.trans hex)
    dsimp only at hany ⊢
    have hfrom : s.receivingFrom r = anyproc := by
      rcases hany with ⟨-, hfrom⟩ | ⟨-, hcall', -⟩
      · exact hfrom
      · exact absurd (hcall.symm.trans hcall') (by decide)
    have hnil : m.senders r = [] := by
      refine List.eq_nil_iff_forall_not_mem.2 fun x hx => ?_
      exact (hnone _ hr).2 x hx (Or.inl hfrom)
    exact ⟨hinv.place_mem r (by simp [hr]), Or.inl ⟨hnil, hnil⟩⟩
  | queued _ _ _ _ _ _ _ _ _ _ halike => exact absurd halike.exchanges hquiet
  | parked _ _ _ _ _ _ _ _ halike => exact absurd halike.exchanges hquiet
  | @fetched w hw hcall hp hrun _ _ hpicks _ halike =>
    obtain ⟨rfl, -⟩ := List.cons_eq_cons.1 (halike.exchanges.symm.trans hex)
    dsimp only at hany ⊢
    have hwm := m.mem_senders.2 hw
    have hfirst : w = s.firstSender p := by
      have hebx : (s.regs p).ebxReg = anyproc := by
        rcases hany with ⟨hrecv, -⟩ | ⟨-, -, hebx⟩
        · rw [hinv.receiving_iff hp, hrun] at hrecv
          exact absurd hrecv (by simp)
        · rw [hregs hrun, hebx]
      rcases hpicks with ⟨-, hfirst⟩ | heq
      · exact hfirst
      · rw [hebx] at heq
        exact absurd heq.symm (hinv.ne_null (hinv.place_mem w (by simp [hw])))
    have hchain := hinv.lists.senders p hp
    obtain ⟨l, hl, -⟩ := hchain.exists_cons fun hnull => by
      rw [hchain.eq_nil_iff.2 hnull] at hwm
      exact absurd hwm (by simp)
    rw [← hfirst] at hl
    refine ⟨hp, Or.inr ⟨l, hl, ?_⟩⟩
    rw [Rendezvous.take_senders, update_self, hl, List.erase_cons_head]
  | listening _ _ _ _ _ _ _ halike => exact absurd halike.exchanges hquiet
  | adopted _ _ _ _ _ _ _ halike => exact absurd halike.exchanges hquiet
  | exited _ _ _ _ _ _ _ _ _ _ _ hk => exact absurd hk hquiet
  | rung _ _ _ _ _ _ halike => exact absurd halike.exchanges hquiet

omit [Layout] in
/-- Who has a receive under way and is not the caller is blocked in it. -/
theorem Calling.place_eq_receiving {call : Call} {sender : Ptr} (hc : Calling s m p e calls)
    (hxp : x ≠ p) (hcall : calls x = some call) (hreq : call.request = .receive sender) :
    m.place x = .receiving := by
  have hrun : m.place x ≠ .running := fun hrun => by
    rw [hc.free x hxp hrun] at hcall
    exact absurd hcall (by simp)
  have hex : m.place x ≠ .exited := fun hex => by
    rw [(hc.ok x hxp).exited hex] at hcall
    exact absurd hcall (by simp)
  obtain ⟨call', hcall', -, -, hb⟩ := (hc.ok x hxp).blocked hrun hex
  obtain rfl : call = call' := Option.some.inj (hcall.symm.trans hcall')
  rw [hreq] at hb
  cases hpl : m.place x with
  | receiving => rfl
  | running => exact absurd hpl hrun
  | exited => exact absurd hpl hex
  | sending r =>
    rw [hpl] at hb
    exact absurd hb id
  | waiting i =>
    rw [hpl] at hb
    exact absurd hb id
  | stranded =>
    rw [hpl] at hb
    exact absurd hb id

/-- A call under way that is a receive from `ANYPROC`. -/
theorem Calling.receivesAny {call : Call} (hc : Calling s m p e calls) (hinv : IpcInv ps s q m)
    (hcall : calls x = some call) (hreq : call.request = .receive anyproc) :
    ReceivesAny s e x := by
  by_cases hxp : x = p
  · subst hxp
    cases hr : e.request with
    | none => exact absurd (hcall.symm.trans (hc.silent hr)) (by simp)
    | some request =>
      obtain ⟨call', hcall', -, -, hreq'⟩ := hc.asks _ hr
      obtain rfl : call = call' := Option.some.inj (hcall.symm.trans hcall')
      rw [← hreq', hreq] at hr
      rcases hc.cur with hrun | ⟨-, hnone⟩
      · rw [Event.request] at hr
        split at hr
        next hcall₂ => exact Or.inr ⟨hc.curptr, hcall₂, by simpa using hr⟩
        next => exact absurd hr (by simp)
        next => exact absurd hr (by simp)
      · exact absurd (hr.symm.trans hnone) (by simp)
  · have hrecv := hc.place_eq_receiving hxp hcall hreq
    obtain ⟨call', hcall', -, -, hreq'⟩ := (hc.ok x hxp).receiving hrecv
    obtain rfl : call = call' := Option.some.inj (hcall.symm.trans hcall')
    rw [hreq] at hreq'
    exact Or.inl ⟨(hinv.receiving_iff (hinv.place_mem x (by simp [hrecv]))).2 hrecv,
      (Request.receive.inj hreq').symm⟩

/-! ## The invariant of the order -/

/-- The call of `x` is older than the one of `y`. -/
def Older (calls : Ptr → Option Call) (x y : Ptr) : Prop :=
  ∀ c d, calls x = some c → calls y = some d → c.id < d.id

/-- The send `c` to a receive from `ANYPROC` is over before any call `d` to the same feature that
has been made later. -/
def Ahead (o : Observed) (c : Completion) (d : Call) : Prop :=
  o.ToAny c → d.request = c.call.request → c.call.id < d.id

structure OrderInv (o : Observed) (m : Rendezvous Ptr Nat) : Prop where
  noneMissed : NoneMissed o.kernel m
  lists : ∀ j, (listAt m j).Pairwise (Older o.pending)
  sent_lt : ∀ c ∈ o.sent, c.time < o.clock
  received_lt : ∀ c ∈ o.received, c.time < o.clock
  sorted : o.sent.Pairwise fun later earlier => earlier.time < later.time
  /-- Who is on no list although it is blocked will never be heard. -/
  pending : ∀ c ∈ o.sent, ∀ x d, o.pending x = some d → m.place x ≠ .stranded → Ahead o c d
  sent : o.sent.Pairwise fun later earlier => Ahead o earlier later.call

section

omit [Layout]

theorem calls_of_ne (hx : x ≠ o.kernel.sched.curptr) : o.calls e x = o.pending x := by
  cases hreq : e.request with
  | none => rw [calls_of_none hreq]
  | some request =>
    rw [calls_of_some hreq]
    exact update_of_ne hx _ _

/-- A call under way is the new one, or has been blocked before. -/
theorem calls_cases {call : Call} (hx : o.calls e x = some call) :
    o.pending x = some call ∨ x = o.kernel.sched.curptr ∧ call.id = o.clock := by
  by_cases hcur : x = o.kernel.sched.curptr
  · cases hreq : e.request with
    | none =>
      rw [calls_of_none hreq] at hx
      exact Or.inl hx
    | some request =>
      rw [calls_of_some hreq, hcur, update_self] at hx
      exact Or.inr ⟨hcur, by rw [← Option.some.inj hx]⟩
  · rw [calls_of_ne hcur] at hx
    exact Or.inl hx

theorem Ahead.mono {c : Completion} {d : Call} (h : Ahead o c d)
    (hsub : ∀ receive ∈ o.received, receive ∈ o'.received) : Ahead o' c d := fun hany =>
  h fun receive hr => hany receive (hsub receive hr)

end

/-- Who is in a send to a feature with a supplier, and not stranded, is on the supplier's list. -/
theorem CallOk.sending_supplier {feature : Word} {d : Call} (h : CallOk s m calls x)
    (hinv : IpcInv ps s q m) (hx : calls x = some d) (hreq : d.request = .send feature)
    (hi : featureEntry feature = some i) (hr : (s.featureTable i).supplier = r) (hrn : r ≠ null)
    (hrun : m.place x ≠ .running) (hst : m.place x ≠ .stranded) : m.place x = .sending r := by
  have hex : m.place x ≠ .exited := fun hex => by
    rw [h.exited hex] at hx
    exact absurd hx (by simp)
  obtain ⟨call, hc, -, -, hb⟩ := h.blocked hrun hex
  obtain rfl : d = call := Option.some.inj (hx.symm.trans hc)
  rw [hreq] at hb
  cases hpl : m.place x with
  | running => exact absurd hpl hrun
  | stranded => exact absurd hpl hst
  | exited => exact absurd hpl hex
  | receiving =>
    rw [hpl] at hb
    exact absurd hb id
  | sending r' =>
    rw [hpl] at hb
    obtain ⟨j, hj, hr'⟩ := hb
    obtain rfl : i = j := Option.some.inj (hi.symm.trans hj)
    rw [← hr', hr]
  | waiting j =>
    rw [hpl] at hb
    obtain rfl : i = j := Option.some.inj (hi.symm.trans hb)
    rcases hinv.supplier i (hinv.entry_lt x i hpl) with hnull | ⟨-, hnil⟩
    · exact absurd (hr.symm.trans hnull) hrn
    · rw [← m.mem_waiters, hnil] at hpl
      exact absurd hpl (by simp)

/-- After a step every list is in the order of the calls. -/
theorem Stepped.older {k : Kernel} (hst : Stepped procs o m e o' k q' m') (h : OrderInv o m)
    (hpair : PairInv o m) (j : Ptr ⊕ Nat) : (listAt m' j).Pairwise (Older o'.pending) := by
  obtain ⟨j', l, hsub, hj⟩ := hst.effect.listAt j
  have hne : ∀ x ∈ l, x ≠ o.kernel.sched.curptr := by
    rintro x hx rfl
    have hpl := mem_listAt.1 (hsub.subset hx)
    rcases hst.calling.cur with hrun | ⟨hex, -⟩
    · cases j' <;> exact absurd (hpl.symm.trans hrun) (by simp [placeAt])
    · cases j' <;> exact absurd (hpl.symm.trans hex) (by simp [placeAt])
  have hcalls : ∀ x ∈ l, o.calls e x = o.pending x := fun x hx => calls_of_ne (hne x hx)
  have hl : l.Pairwise (Older (o.calls e)) := by
    refine ((h.lists j').sublist hsub).imp_of_mem fun {x y} hx hy hxy c d hc hd => ?_
    rw [hcalls x hx] at hc
    rw [hcalls y hy] at hd
    exact hxy c d hc hd
  have hall : (listAt m' j).Pairwise (Older (o.calls e)) := by
    rcases hj with hj | ⟨hj, hcall⟩
    · rwa [hj]
    · -- the caller of the send is behind those that have been blocked before
      rw [hj]
      refine List.pairwise_append.2 ⟨hl, List.pairwise_singleton _ _, fun x hx y hy c d hc hd => ?_⟩
      have hreq : e.request = some (.send e.regs.ebxReg) := by
        simp [Event.request, hcall]
      rw [List.mem_singleton.1 hy, calls_of_some hreq, update_self] at hd
      rw [hcalls x hx] at hc
      rw [← Option.some.inj hd]
      exact hpair.sentIds.fresh x c hc
  exact hall.imp fun {x y} hxy c d hc hd =>
    hxy c d ((hst.pending x c).1 hc).1 ((hst.pending y d).1 hd).1

/-- A step keeps the invariant. -/
theorem Stepped.orderInv {k : Kernel} (hst : Stepped procs o m e o' k q' m') (h : OrderInv o m)
    (hpair : PairInv o m) (hinv : IpcInv procs.toFinset o.kernel q m) : OrderInv o' m' := by
  have hsaved := saved o.kernel e.regs
  have hinvs := hinv.saveContext e.regs
  have hnone : NoneMissed (o.kernel.saveContext e.regs) m :=
    h.noneMissed.congr hsaved.interrupts hsaved.receivingFrom
  have hnone' : NoneMissed o'.kernel m' :=
    (hnone.effect hinvs hst.effect).congr hst.resumed.interrupts hst.resumed.receivingFrom
  have hpair' := hst.pairInv hpair hinv
  have hlists := hst.older h hpair
  -- every call under way, the new one included, is behind the sends that are over
  have hcalls : ∀ c ∈ o.sent, ∀ x d, o.calls e x = some d → m.place x ≠ .stranded →
      Ahead o c d := by
    intro c hc x d hx hstr
    rcases calls_cases hx with hold | ⟨-, hnew⟩
    · exact h.pending c hc x d hold hstr
    · exact fun _ _ => hnew ▸ hpair.sentIds.old c hc
  have hstr : ∀ {x}, m'.place x ≠ .stranded → m.place x ≠ .stranded := fun {x} hx hold =>
    hx (hst.effect.stranded hold)
  cases hst.completes with
  | nothing hno hs hr =>
    have hsub : ∀ receive ∈ o.received, receive ∈ o'.received := fun _ h => hr ▸ h
    refine ⟨hnone', hlists, ?_, ?_, ?_, ?_, ?_⟩
    · rw [hs, hst.clock]
      exact fun c hc => Nat.lt_succ_of_lt (h.sent_lt c hc)
    · rw [hr, hst.clock]
      exact fun c hc => Nat.lt_succ_of_lt (h.received_lt c hc)
    · rw [hs]
      exact h.sorted
    · rw [hs]
      exact fun c hc x d hx hpl =>
        (hcalls c hc x d ((hst.pending x d).1 hx).1 (hstr hpl)).mono hsub
    · rw [hs]
      exact h.sent.imp fun hcd => hcd.mono hsub
  | @message a b call rcall hm hca hcb hs hr =>
    have hsub : ∀ receive ∈ o.received, receive ∈ o'.received := fun _ h => by
      rw [hr]
      exact List.mem_cons_of_mem _ h
    obtain ⟨call', feature, i, hca', -, -, hreq, hi, hsup⟩ := hm.send
    obtain rfl : call = call' := Option.some.inj (hca.symm.trans hca')
    have hastr : m.place a ≠ .stranded := hstr (by simp [hm.sender_running])
    have hahead : ∀ x d, o'.pending x = some d → m'.place x ≠ .stranded →
        Ahead o' { call, time := o.clock, eax := (k.regs a).eaxReg } d := by
      intro x d hx hpl hany hdreq
      have hrany : rcall.request = .receive anyproc :=
        hany { call := rcall, time := o.clock, eax := (k.regs b).eaxReg }
          (by rw [hr]; exact List.mem_cons_self ..) rfl
      obtain ⟨hxc, hxrun⟩ := (hst.pending x d).1 hx
      have hxb : x ∈ m'.senders b := by
        rw [m'.mem_senders]
        refine (hpair'.callOk x).sending_supplier hst.inv hx (hdreq.trans hreq) hi ?_ ?_ hxrun hpl
        · rw [hst.resumed.featureTable, hsup]
        · exact hst.inv.ne_null hm.receiver_mem
      rcases hst.effect.first hinvs hnone hst.calling.regs hm.exchanges
        (hst.calling.receivesAny hinvs hcb hrany) with ⟨-, ⟨-, hnil⟩ | ⟨l, hl, hl'⟩⟩
      · rw [hnil] at hxb
        exact absurd hxb (by simp)
      · rw [hl'] at hxb
        have hab : ∀ y ∈ m.senders b, y ≠ o.kernel.sched.curptr := by
          rintro y hy rfl
          rw [m.mem_senders] at hy
          rcases hst.calling.cur with hrun | ⟨hex, -⟩
          · exact absurd (hy.symm.trans hrun) (by simp)
          · exact absurd (hy.symm.trans hex) (by simp)
        have holder : Older o.pending a x := by
          have hlist : (m.senders b).Pairwise (Older o.pending) := h.lists (.inl b)
          rw [hl] at hlist
          exact (List.pairwise_cons.1 hlist).1 x hxb
        refine holder call d ?_ ?_
        · rw [← calls_of_ne (e := e) (hab a (by rw [hl]; exact List.mem_cons_self ..)), hca]
        · rw [← calls_of_ne (e := e) (hab x (by rw [hl]; exact List.mem_cons_of_mem _ hxb)), hxc]
    refine ⟨hnone', hlists, ?_, ?_, ?_, ?_, ?_⟩
    · rw [hs, hst.clock]
      exact List.forall_mem_cons.2 ⟨Nat.lt_succ_self _, fun c hc =>
        Nat.lt_succ_of_lt (h.sent_lt c hc)⟩
    · rw [hr, hst.clock]
      exact List.forall_mem_cons.2 ⟨Nat.lt_succ_self _, fun c hc =>
        Nat.lt_succ_of_lt (h.received_lt c hc)⟩
    · rw [hs]
      exact List.pairwise_cons.2 ⟨h.sent_lt, h.sorted⟩
    · rw [hs]
      refine List.forall_mem_cons.2 ⟨hahead, fun c hc x d hx hpl => ?_⟩
      exact (hcalls c hc x d ((hst.pending x d).1 hx).1 (hstr hpl)).mono hsub
    · rw [hs]
      refine List.pairwise_cons.2 ⟨fun c hc => ?_, h.sent.imp fun hcd => hcd.mono hsub⟩
      exact (hcalls c hc a call hca hastr).mono hsub

/-! ## Runs -/

omit [Layout] in
theorem OrderInv.start {boot : Kernel} : OrderInv (Observed.start boot) (allRunning procs) where
  noneMissed := NoneMissed.start
  lists j := by cases j <;> exact .nil
  sent_lt := by simp [Observed.start]
  received_lt := by simp [Observed.start]
  sorted := .nil
  pending := by simp [Observed.start]
  sent := .nil

theorem OrderInv.run {boot : Kernel} (hboot : Booted procs boot)
    (ho : observe procs boot es = some o) :
    ∃ q m, IpcInv procs.toFinset o.kernel q m ∧ Between o.kernel.sched q ∧ OrderInv o m := by
  obtain ⟨c, hcreated, -⟩ := id hboot
  obtain ⟨q, hq⟩ := hboot.started
  obtain ⟨q', m', hinv, hb, -, h⟩ := (observe_run ho).invariant
    (P := fun o => ∃ q m, IpcInv procs.toFinset o.kernel q m ∧ Between o.kernel.sched q ∧
      PairInv o m ∧ OrderInv o m)
    (fun o e o' ⟨q, m, hinv, hb, hpair, h⟩ _ hs => by
      obtain ⟨k, q', m', hst⟩ := hpair.stepped hcreated.nodup hinv hb hs
      exact ⟨q', m', hst.inv, hst.between, hst.pairInv hpair hinv, hst.orderInv h hpair hinv⟩)
    ⟨q, allRunning procs, hq.inv, hq.between, PairInv.start hq, OrderInv.start⟩
  exact ⟨q', m', hinv, hb, h⟩

omit [Layout] in
/-- Of two sends to one feature the earlier one is over first, if the later one goes to a
receive from `ANYPROC`. -/
theorem OrderInv.time_lt {c d : Completion} (h : OrderInv o m) (hc : c ∈ o.sent) (hd : d ∈ o.sent)
    (hany : o.ToAny d) (hreq : c.call.request = d.call.request) (hid : c.call.id < d.call.id) :
    c.time < d.time := by
  have hne : c ≠ d := by
    rintro rfl
    exact lt_irrefl _ hid
  obtain ⟨l₁, l₂, hl⟩ := List.append_of_mem hd
  have hsorted := h.sorted
  have hsent := h.sent
  rw [hl, List.pairwise_append] at hsorted hsent
  rw [hl, List.mem_append, List.mem_cons] at hc
  rcases hc with hc | hc | hc
  · -- `c` has been over later than `d`
    have hlt := hsent.2.2 c hc d (List.mem_cons_self ..) hany hreq
    exact absurd hid (Nat.lt_asymm hlt)
  · exact absurd hc hne
  · exact (List.pairwise_cons.1 hsorted.2.1).1 c hc

/-- A message for a receive from `ANYPROC` goes past no sender on the list. -/
theorem OrderInv.no_overtaking {message : Exchange} (h : OrderInv o m)
    (hinv : IpcInv ps o.kernel q m) (hb : Between o.kernel.sched q)
    (hs : o.kernel.step e = some k) (hex : k.exchanges = message :: o.kernel.exchanges)
    (hany : ReceivesAny o.kernel e message.receiver) :
    o.kernel.firstSender message.receiver = null ∨
      o.kernel.firstSender message.receiver = message.sender := by
  obtain ⟨k', q', m', rfl, -, hki, -, -, heff⟩ := hinv.step hb hs
  have hsaved := saved o.kernel e.regs
  have hregs : m.place o.kernel.sched.curptr = .running →
      (o.kernel.saveContext e.regs).regs o.kernel.sched.curptr = e.regs := fun hrun =>
    hsaved.regs_cur (hinv.ne_null (hinv.place_mem _ (by simp [hrun])))
  have hany' : ReceivesAny (o.kernel.saveContext e.regs) e message.receiver := by
    unfold ReceivesAny
    rwa [hsaved.state, hsaved.receivingFrom, hsaved.sched]
  rw [(resumed k' e.number).exchanges] at hex
  obtain ⟨hr, hfirst⟩ := heff.first (hinv.saveContext e.regs)
    (h.noneMissed.congr hsaved.interrupts hsaved.receivingFrom) hregs
    (by rw [hsaved.exchanges, hex]) hany'
  have hchain := hinv.lists.senders _ hr
  rcases hfirst with ⟨hnil, -⟩ | ⟨l, hl, -⟩
  · exact Or.inl (hchain.eq_nil_iff.1 hnil)
  · rw [hl] at hchain
    exact Or.inr (chain_cons.1 hchain).1

end Kernel

end Mycrokernel
