import Mycrokernel.Kernel.Boot

/-!
# Blocked processes

Two invariants about processes that are blocked, for the runs that keep clear of
two mistakes.  `set_feature` overwrites `firstSender` of the process that becomes the
supplier, so that the senders on its list are lost; runs in which the list is
empty then lose nobody (`none_lost`).  `syscall_send_by_feature` parks a process
on a feature without a look at its buffer; runs in which the buffer is fine then
only copy between buffers that are fine (`parked_buffers_valid`).
-/

namespace Mycrokernel

open Function (update update_self update_of_ne)
open PointerList

namespace Kernel

open Rendezvous (Place)

variable [Layout] {procs : List Ptr} {ps : Finset Ptr} {s s' k : Kernel} {e : Event}
  {m m' : Rendezvous Ptr Nat} {p r x : Ptr} {q : List Ptr} {es : List Event} {i : Nat}

/-! ## Where a process is -/

/-- The entries of the features that have no supplier yet. -/
def openEntries (s : Kernel) : Finset Nat :=
  (Finset.range featureTableSize).filter fun i => (s.featureTable i).supplier = null

/-- The lists that senders block on: one for each process, and one for each feature that
has no supplier. -/
structure SenderLists (procs : List Ptr) (s : Kernel) (senders : Ptr → List Ptr)
    (waiters : Nat → List Ptr) : Prop where
  senders : ∀ r ∈ procs, Chain s.nextSender null (s.firstSender r) (senders r)
  waiters : ∀ i ∈ openEntries s, Chain s.nextSender null (s.featureTable i).waiter (waiters i)

/-- The number of positions that `p` has on all these lists. -/
def positions (procs : List Ptr) (s : Kernel) (senders : Ptr → List Ptr)
    (waiters : Nat → List Ptr) (p : Ptr) : Nat :=
  ∑ r ∈ procs.toFinset, (senders r).count p +
    ∑ i ∈ openEntries s, (waiters i).count p

inductive Situation where
  | enqueued
  | receiving
  | listed

/-- The process `p` is in this situation. -/
def InSituation (procs : List Ptr) (s : Kernel) (senders : Ptr → List Ptr)
    (waiters : Nat → List Ptr) (p : Ptr) : Situation → Prop
  | .enqueued => s.sched.isEnqueued p = true
  | .receiving => s.state p &&& Flag.receiving ≠ 0 ∧ positions procs s senders waiters p = 0
  | .listed => positions procs s senders waiters p = 1

/-- The lists of senders end, and every process is in exactly one situation. -/
def NoneLost (procs : List Ptr) (s : Kernel) : Prop :=
  ∃ senders waiters, SenderLists procs s senders waiters ∧
    ∀ p ∈ procs, ∃! situation, InSituation procs s senders waiters p situation

section

omit [Layout]

theorem count_senders_eq_one (h : m.place p = .sending r) : (m.senders r).count p = 1 :=
  List.count_eq_one_of_mem (m.senders_nodup r) (m.mem_senders.2 h)

theorem count_senders_eq_zero (h : m.place p ≠ .sending r) : (m.senders r).count p = 0 :=
  List.count_eq_zero.2 fun hmem => h (m.mem_senders.1 hmem)

theorem count_waiters_eq_one (h : m.place p = .waiting i) : (m.waiters i).count p = 1 :=
  List.count_eq_one_of_mem (m.waiters_nodup i) (m.mem_waiters.2 h)

theorem count_waiters_eq_zero (h : m.place p ≠ .waiting i) : (m.waiters i).count p = 0 :=
  List.count_eq_zero.2 fun hmem => h (m.mem_waiters.1 hmem)

/-- A process that is on no list has no position. -/
theorem positions_of_off (h : (m.place p).Off) :
    positions procs s m.senders m.waiters p = 0 := by
  have hsenders : ∀ r ∈ procs.toFinset, (m.senders r).count p = 0 := fun r _ =>
    count_senders_eq_zero (h.ne_sending r)
  have hwaiters : ∀ i ∈ openEntries s,
      (m.waiters i).count p = 0 := fun i _ => count_waiters_eq_zero (h.ne_waiting i)
  rw [positions, Finset.sum_eq_zero hsenders, Finset.sum_eq_zero hwaiters, Nat.add_zero]

end

theorem IpcInv.positions_of_sending (h : IpcInv procs.toFinset s q m)
    (hp : m.place p = .sending r) : positions procs s m.senders m.waiters p = 1 := by
  have hsenders : ∀ r' ∈ procs.toFinset, r' ≠ r → (m.senders r').count p = 0 := fun r' _ hne =>
    count_senders_eq_zero (by simpa [hp] using Ne.symm hne)
  have hwaiters : ∀ i ∈ openEntries s,
      (m.waiters i).count p = 0 := fun i _ => count_waiters_eq_zero (by simp [hp])
  rw [positions, Finset.sum_eq_single_of_mem r (h.receiver_mem p r hp) hsenders,
    Finset.sum_eq_zero hwaiters, count_senders_eq_one hp, Nat.add_zero]

theorem IpcInv.positions_of_waiting (h : IpcInv procs.toFinset s q m)
    (hp : m.place p = .waiting i) : positions procs s m.senders m.waiters p = 1 := by
  have hlt := h.entry_lt p i hp
  have hsup : (s.featureTable i).supplier = null := by
    rcases h.supplier i hlt with hnull | ⟨-, hnil⟩
    · exact hnull
    · exact absurd (m.mem_waiters.2 hp) (by simp [hnil])
  have hsenders : ∀ r ∈ procs.toFinset, (m.senders r).count p = 0 := fun r _ =>
    count_senders_eq_zero (by simp [hp])
  have hwaiters : ∀ j ∈ openEntries s,
      j ≠ i → (m.waiters j).count p = 0 := fun j _ hne =>
    count_waiters_eq_zero (by simpa [hp] using Ne.symm hne)
  rw [positions, Finset.sum_eq_zero hsenders,
    Finset.sum_eq_single_of_mem i (by simp [openEntries, hlt, hsup]) hwaiters, count_waiters_eq_one hp]

/-- Nobody has exited or is stranded. -/
def AllPresent (procs : List Ptr) (m : Rendezvous Ptr Nat) : Prop :=
  ∀ p ∈ procs, m.place p ≠ .stranded ∧ m.place p ≠ .exited

theorem IpcInv.noneLost (h : IpcInv procs.toFinset s q m) (hall : AllPresent procs m) :
    NoneLost procs s := by
  refine ⟨m.senders, m.waiters, ⟨fun r hr => h.lists.senders r (List.mem_toFinset.2 hr),
    fun i hi => h.lists.waiters i (Finset.mem_range.1 (Finset.mem_of_mem_filter i hi))⟩, fun p hp => ?_⟩
  have hps := List.mem_toFinset.2 hp
  have hon := h.queue.isEnqueued_iff p hps
  rw [h.running] at hon
  have hrecv := h.receiving_iff hps
  obtain ⟨hstranded, hexited⟩ := hall p hp
  -- the situation is the one that the place names
  cases hpl : m.place p with
  | running =>
    have hpos : positions procs s m.senders m.waiters p = 0 :=
      positions_of_off (hpl ▸ Place.off_running)
    refine ⟨.enqueued, hon.2 hpl, fun situation hs => ?_⟩
    cases situation with
    | enqueued => rfl
    | receiving => exact absurd (hrecv.1 hs.1) (by simp [hpl])
    | listed => exact absurd (hpos.symm.trans hs) (by decide)
  | receiving =>
    have hpos : positions procs s m.senders m.waiters p = 0 :=
      positions_of_off (hpl ▸ Place.off_receiving)
    refine ⟨.receiving, ⟨hrecv.2 hpl, hpos⟩, fun situation hs => ?_⟩
    cases situation with
    | enqueued => exact absurd (hon.1 hs) (by simp [hpl])
    | receiving => rfl
    | listed => exact absurd (hpos.symm.trans hs) (by decide)
  | sending r =>
    have hpos := h.positions_of_sending hpl
    refine ⟨.listed, hpos, fun situation hs => ?_⟩
    cases situation with
    | enqueued => exact absurd (hon.1 hs) (by simp [hpl])
    | receiving => exact absurd (hrecv.1 hs.1) (by simp [hpl])
    | listed => rfl
  | waiting i =>
    have hpos := h.positions_of_waiting hpl
    refine ⟨.listed, hpos, fun situation hs => ?_⟩
    cases situation with
    | enqueued => exact absurd (hon.1 hs) (by simp [hpl])
    | receiving => exact absurd (hrecv.1 hs.1) (by simp [hpl])
    | listed => rfl
  | stranded => exact absurd hpl hstranded
  | exited => exact absurd hpl hexited

/-! ## Runs that lose nobody -/

/-- A `set_feature` that succeeds is made by a process nobody is queued on. -/
def KeepsSenders (s : Kernel) (e : Event) : Prop :=
  e.call = some 1 → checkFeature e.regs.ebxReg = some 0 →
    ∀ i ∈ featureEntry e.regs.ebxReg, (s.featureTable i).supplier = null →
      s.firstSender s.sched.curptr = null

instance (s : Kernel) (e : Event) : Decidable (KeepsSenders s e) :=
  inferInstanceAs (Decidable (_ → _ → _))

/-- Every effect but an exit keeps everybody present, if no list of senders is overwritten. -/
theorem AllPresent.effect (h : AllPresent procs m) (heff : Effect ps s m p e k m')
    (hcall : e.call ≠ some 0)
    (hsenders : e.call = some 1 → p ∈ ps → checkFeature (s.regs p).ebxReg = some 0 →
      ∀ i, featureEntry (s.regs p).ebxReg = some i → (s.featureTable i).supplier = null →
        m.senders p = []) : AllPresent procs m' := by
  -- one process has moved to a place that is neither of the two
  have hmove : ∀ (y : Ptr) (pl : Place Ptr Nat), pl ≠ .stranded → pl ≠ .exited →
      m'.place = update m.place y pl → AllPresent procs m' := by
    intro y pl hs hx hplace z hz
    rw [hplace]
    by_cases hzy : z = y
    · rw [hzy, update_self]
      exact ⟨hs, hx⟩
    · rw [update_of_ne hzy]
      exact h z hz
  cases heff with
  | quiet _ => exact h
  | @direct r => exact hmove r .running (by simp) (by simp) rfl
  | @queued r => exact hmove p (.sending r) (by simp) (by simp) rfl
  | @parked i => exact hmove p (.waiting i) (by simp) (by simp) rfl
  | @fetched w => exact hmove w .running (by simp) (by simp) rfl
  | listening => exact hmove p .receiving (by simp) (by simp) rfl
  | @adopted i hc hp _ hcheck hi hsup _ _ =>
    intro z hz
    rcases Rendezvous.adopt_cases (m := m) (r := p) (i := i) (x := z) with
      ⟨-, hnew⟩ | ⟨hold, -⟩ | ⟨-, -, hsame⟩
    · rw [hnew]
      exact ⟨by simp, by simp⟩
    · have hmem := m.mem_senders.2 hold
      rw [hsenders hc hp hcheck i hi hsup] at hmem
      exact absurd hmem (by simp)
    · rw [hsame]
      exact h z hz
  | exited _ hc => exact absurd hc hcall
  | @rung r => exact hmove r .running (by simp) (by simp) rfl

section

omit [Layout]

/-- The process `p` is blocked in a receive or on one of the lists. -/
inductive IsParked (procs : List Ptr) (s : Kernel) (p : Ptr) : Prop where
  | receiving : s.state p &&& Flag.receiving ≠ 0 → IsParked procs s p
  | sending {r : Ptr} {l : List Ptr} : r ∈ procs →
      Chain s.nextSender null (s.firstSender r) l → p ∈ l → IsParked procs s p
  | waiting {i : Nat} {l : List Ptr} : i < featureTableSize →
      Chain s.nextSender null (s.featureTable i).waiter l → p ∈ l → IsParked procs s p

/-- The buffers of the blocked processes have been checked. -/
def ParkedOk (procs : List Ptr) (s : Kernel) : Prop :=
  ∀ p ∈ procs, IsParked procs s p → BufferOk s p

/-- Handling the event `e` calls `exchange_data` at most once, and then between buffers that
have been checked. -/
def ExchangesOk (s : Kernel) (e : Event) (k : Kernel) : Prop :=
  k.exchanges = s.exchanges ∨ ∃ x, k.exchanges = x :: s.exchanges ∧
    BufferOk (s.saveContext e.regs) x.sender ∧ BufferOk (s.saveContext e.regs) x.receiver

/-- A send that waits for a supplier has a good buffer. -/
def ChecksParked (s : Kernel) (e : Event) : Prop :=
  e.call = some 3 → checkFeature e.regs.ebxReg = some 0 →
    ∀ i ∈ featureEntry e.regs.ebxReg, (s.featureTable i).supplier = null → e.regs.ediReg = 1 →
      BufferOk (s.saveContext e.regs) s.sched.curptr

instance (s : Kernel) (p : Ptr) : Decidable (BufferOk s p) := inferInstanceAs (Decidable (_ = _))

instance (s : Kernel) (e : Event) : Decidable (ChecksParked s e) :=
  inferInstanceAs (Decidable (_ → _ → _))

/-- A place where a process is blocked with a buffer. -/
inductive Parked : Place Ptr Nat → Prop where
  | receiving : Parked .receiving
  | sending (r : Ptr) : Parked (.sending r)
  | waiting (i : Nat) : Parked (.waiting i)

theorem not_parked_running : ¬ Parked .running := nofun

end

theorem IpcInv.parked (h : IpcInv procs.toFinset s q m) (hp : p ∈ procs)
    (hparked : IsParked procs s p) : Parked (m.place p) := by
  cases hparked with
  | receiving hflag =>
    rw [(h.receiving_iff (List.mem_toFinset.2 hp)).1 hflag]
    exact .receiving
  | @sending r l hr hl hmem =>
    obtain rfl := hl.unique (h.lists.senders r (List.mem_toFinset.2 hr))
    rw [m.mem_senders.1 hmem]
    exact .sending r
  | @waiting i l hi hl hmem =>
    obtain rfl := hl.unique (h.lists.waiters i hi)
    rw [m.mem_waiters.1 hmem]
    exact .waiting i

section

omit [Layout]

/-- The check of a buffer depends on three registers and the descriptors. -/
theorem BufferOk.congr (h : BufferOk s p) (hds : (k.regs p).dsReg = (s.regs p).dsReg)
    (hedx : (k.regs p).edxReg = (s.regs p).edxReg) (hecx : (k.regs p).ecxReg = (s.regs p).ecxReg)
    (hlimit : ∀ idx, k.getLimit idx = s.getLimit idx) : BufferOk k p := by
  unfold BufferOk at h ⊢
  rw [validateDataArea_congr hds hlimit, hedx, hecx]
  exact h

/-- The buffers of the processes that the rendezvous shows blocked are good. -/
def BuffersOk (s : Kernel) (m : Rendezvous Ptr Nat) : Prop :=
  ∀ p, Parked (m.place p) → BufferOk s p

theorem BuffersOk.congr (h : BuffersOk s m)
    (hregs : ∀ x, Parked (m.place x) → k.regs x = s.regs x)
    (hlimit : ∀ idx, k.getLimit idx = s.getLimit idx) : BuffersOk k m := fun x hx => by
  have hx' := hregs x hx
  exact (h x hx).congr (by rw [hx']) (by rw [hx']) (by rw [hx']) hlimit

theorem getLimit_of_gdt (h : k.gdt = s.gdt) (idx : Word) : k.getLimit idx = s.getLimit idx := by
  apply getLimit_congr <;> rw [h]

end

/-- Every effect keeps the buffers of the blocked processes good, if only good ones are
parked on a feature. -/
theorem BuffersOk.effect (h : BuffersOk s m) (heff : Effect ps s m p e k m')
    (hcur : s.sched.curptr = p) (hp : ¬ Parked (m.place p))
    (hparked : e.call = some 3 → p ∈ ps → checkFeature (s.regs p).ebxReg = some 0 →
      ∀ i, featureEntry (s.regs p).ebxReg = some i → (s.featureTable i).supplier = null →
        (s.regs p).ediReg = 1 → BufferOk s p) : BuffersOk k m' := by
  have hlimit := getLimit_of_gdt heff.gdt
  have hrecv : m.place p ≠ .receiving := fun hrecv => hp (hrecv ▸ .receiving)
  intro x hx
  by_cases hxp : x = p
  · -- the caller has called with a good buffer
    subst hxp
    cases heff.caller hrecv with
    | unmoved hplace => exact absurd (hplace ▸ hx) hp
    | sends _ _ _ _ hbuf hregs =>
      exact hbuf.congr (by rw [hregs]) (by rw [hregs]) (by rw [hregs]) hlimit
    | waits _ hcall hpp hcheck hi hsup hedi hregs =>
      exact (hparked hcall hpp hcheck _ hi hsup hedi).congr (by rw [hregs]) (by rw [hregs])
        (by rw [hregs]) hlimit
    | listens _ _ hbuf hregs =>
      exact hbuf.congr (by rw [hregs]) (by rw [hregs]) (by rw [hregs]) hlimit
    | exits _ hplace =>
      rw [hplace] at hx
      exact absurd hx nofun
  · -- who is blocked has been so before, and its registers are the same
    have hold : Parked (m.place x) → k.regs x = s.regs x → BufferOk k x := fun hx hregs =>
      (h x hx).congr (by rw [hregs]) (by rw [hregs]) (by rw [hregs]) hlimit
    cases heff.bystander hcur hxp with
    | stays hplace hregs => exact hold (hplace ▸ hx) hregs
    | woken _ hnew =>
      rw [hnew] at hx
      exact absurd hx not_parked_running
    | served hwas _ _ hregs => exact hold (hwas ▸ .waiting _) hregs
    | stranded hwas _ hregs => exact hold (hwas ▸ .sending p) hregs

/-- An effect copies at most one message, between good buffers. -/
theorem BuffersOk.exchange (h : BuffersOk s m) (heff : Effect ps s m p e k m') :
    k.exchanges = s.exchanges ∨
      ∃ x, k.exchanges = x :: s.exchanges ∧ BufferOk s x.sender ∧ BufferOk s x.receiver := by
  cases heff with
  | quiet hq => exact Or.inl hq.exchanges
  | @direct r _ hr _ _ _ _ _ hbuf _ _ halike =>
    exact Or.inr ⟨_, halike.exchanges, hbuf, h r (hr ▸ .receiving)⟩
  | queued _ _ _ _ _ _ _ _ _ _ halike => exact Or.inl halike.exchanges
  | parked _ _ _ _ _ _ _ _ halike => exact Or.inl halike.exchanges
  | @fetched w hw _ _ _ hbuf _ _ _ halike =>
    exact Or.inr ⟨_, halike.exchanges, h w (hw ▸ .sending p), hbuf⟩
  | listening _ _ _ _ _ _ _ halike => exact Or.inl halike.exchanges
  | adopted _ _ _ _ _ _ _ halike => exact Or.inl halike.exchanges
  | exited _ _ _ _ _ _ _ _ _ _ _ hex _ _ => exact Or.inl hex
  | rung _ _ _ _ _ _ halike => exact Or.inl halike.exchanges

omit [Layout] in
/-- Saving the registers of the interrupted process touches no blocked process. -/
theorem BuffersOk.saveContext (h : BuffersOk s m) (hcur : ¬ Parked (m.place s.sched.curptr))
    (regs : Regs) : BuffersOk (s.saveContext regs) m := by
  have hsaved := saved s regs
  refine h.congr (fun x hx => hsaved.regs_of_ne x ?_) (getLimit_of_gdt hsaved.gdt)
  rintro rfl
  exact hcur hx

/-- The process that an interrupt finds running is not blocked. -/
theorem IpcInv.not_parked_curptr (h : IpcInv ps s q m) (hb : Between s.sched q) :
    ¬ Parked (m.place s.sched.curptr) := by
  have hout : s.sched.curptr ∉ ps → ¬ Parked (m.place s.sched.curptr) := fun hn hp => by
    refine hn (h.place_mem _ fun hex => ?_)
    rw [hex] at hp
    exact absurd hp nofun
  rcases hb.curptr with hnull | hidle | hmem
  · exact hout fun hp => h.ne_null hp hnull
  · exact hout fun hp => h.ne_idle hp hidle
  · rw [(h.running _).1 hmem]
    exact not_parked_running

/-- The event in which a process sends the whole address space to the feature 1. -/
def sendAll : Event :=
  .syscall { eaxReg := 3, ebxReg := 1, ecxReg := 0xffffffff, ediReg := 1 } 0

end Kernel

end Mycrokernel
