import Mycrokernel.Kernel.Parked

/-!
# Peers that have exited

A send should not wait for a process that will never receive.  `syscall_exit` wakes
the senders on the list of the process, but leaves it in the feature table, so that
later senders go to its list and stay there.  A second registration takes a process'
senders off its list.  In the runs that keep clear of both, every blocked sender is
on the list of a process that is alive (`no_dead_peers`).
-/

namespace Mycrokernel

open Function (update update_self update_of_ne)
open PointerList

namespace Event

/-- `syscall_exit`, for examples. -/
def exit : Event := .syscall { eaxReg := 0 } 0

end Event

namespace Kernel

open Rendezvous (Place)

variable [Layout] {procs : List Ptr} {ps : Finset Ptr} {s s' k : Kernel} {e : Event}
  {m m' : Rendezvous Ptr Nat} {p r x : Ptr} {q : List Ptr} {es : List Event} {i : Nat}

/-- `p` is a process that has not exited. -/
def Alive (procs : List Ptr) (s : Kernel) (p : Ptr) : Prop := p ∈ procs ∧ s.state p ≠ Flag.empty

/-- Nobody waits for a process that has exited, and nobody will. -/
structure NoDeadPeers (procs : List Ptr) (s : Kernel) : Prop where
  supplier : ∀ i < featureTableSize, (s.featureTable i).supplier ≠ null →
    Alive procs s (s.featureTable i).supplier
  sending : ∀ p ∈ procs, s.state p &&& Flag.sending ≠ 0 →
    ∃ r senders, Alive procs s r ∧ Chain s.nextSender null (s.firstSender r) senders ∧ p ∈ senders
  /-- The exit of a process makes all its senders runnable. -/
  exit : ∀ e k senders, e.call = some 0 → s.step e = some k →
    Chain s.nextSender null (s.firstSender s.sched.curptr) senders → ∀ p ∈ senders,
      k.sched.isEnqueued p = true ∧ k.state p = 0 ∧ (k.regs p).esiReg = Err.processDied

/-- The process that exits supplies no feature, and no sender on the list of the process that
registers has `SENDING` set. -/
structure KeepsPeers (s : Kernel) (e : Event) : Prop where
  exit : e.call = some 0 → ∀ i < featureTableSize, (s.featureTable i).supplier ≠ s.sched.curptr
  senders : e.call = some 1 → checkFeature e.regs.ebxReg = some 0 →
    ∀ i ∈ featureEntry e.regs.ebxReg, (s.featureTable i).supplier = null →
      ∀ senders, Chain s.nextSender null (s.firstSender s.sched.curptr) senders →
        ∀ p ∈ senders, s.state p &&& Flag.sending = 0

/-! ## Places after an effect -/

/-- Who is on a list of senders after an effect was there before, or sends to the supplier of
a feature. -/
theorem Effect.sending_cases (heff : Effect ps s m p e k m') (hx : m'.place x = .sending r) :
    m.place x = .sending r ∨ ∃ i < featureTableSize, (k.featureTable i).supplier = r := by
  have hmove : ∀ {y : Ptr} {pl : Place Ptr Nat}, pl ≠ .sending r →
      update m.place y pl x = .sending r → m.place x = .sending r := by
    intro y pl hpl hx
    by_cases hxy : x = y
    · rw [hxy, update_self] at hx
      exact absurd hx hpl
    · rwa [update_of_ne hxy] at hx
  cases heff with
  | quiet => exact Or.inl hx
  | direct => exact Or.inl (hmove (by simp) hx)
  | @queued r' i _ _ _ hi hsup _ _ _ _ _ halike =>
    by_cases hr : r' = r
    · exact Or.inr ⟨i, featureEntry_lt hi, (halike.supplier i).trans (hsup.trans hr)⟩
    · exact Or.inl (hmove (by simpa using hr) hx)
  | parked => exact Or.inl (hmove (by simp) hx)
  | fetched => exact Or.inl (hmove (by simp) hx)
  | listening => exact Or.inl (hmove (by simp) hx)
  | @adopted i _ _ _ _ hi _ _ halike =>
    rcases Rendezvous.adopt_cases (m := m) (r := p) (i := i) (x := x) with
      ⟨-, hnew⟩ | ⟨-, hnew⟩ | ⟨-, -, hsame⟩
    · refine Or.inr ⟨i, featureEntry_lt hi, ?_⟩
      rw [halike.supplier i, ← Place.sending.inj (hnew.symm.trans hx)]
      simp
    · exact absurd (hnew.symm.trans hx) (by simp)
    · exact Or.inl (hsame.symm.trans hx)
  | exited =>
    have hx' := hx
    by_cases hxp : x = p
    · rw [hxp, Rendezvous.move_place, update_self] at hx'
      exact absurd hx' (by simp)
    · rw [Rendezvous.move_place, update_of_ne hxp] at hx'
      exact Or.inl (Rendezvous.place_of_release hx' (by simp))
  | rung => exact Or.inl (hmove (by simp) hx)

/-- Who is stranded after an effect was so before, or was a sender of the process that has
registered.  Either way its state is the same. -/
theorem Effect.stranded_cases (heff : Effect ps s m p e k m') (hx : m'.place x = .stranded) :
    k.state x = s.state x ∧ (m.place x = .stranded ∨ m.place x = .sending p ∧ p ∈ ps ∧
      e.call = some 1 ∧ checkFeature (s.regs p).ebxReg = some 0 ∧
        ∃ i, featureEntry (s.regs p).ebxReg = some i ∧ (s.featureTable i).supplier = null) := by
  have hne : ∀ {y : Ptr} {pl : Place Ptr Nat}, pl ≠ .stranded →
      update m.place y pl x = .stranded → x ≠ y ∧ m.place x = .stranded := by
    intro y pl hpl hx
    by_cases hxy : x = y
    · rw [hxy, update_self] at hx
      exact absurd hx hpl
    · rw [update_of_ne hxy] at hx
      exact ⟨hxy, hx⟩
  cases heff with
  | quiet hq => exact ⟨by rw [hq.state], Or.inl hx⟩
  | direct _ _ _ _ _ _ _ _ _ halike =>
    obtain ⟨hxy, hold⟩ := hne (by simp) hx
    exact ⟨by rw [halike.state]; exact update_of_ne hxy _ _, Or.inl hold⟩
  | queued _ _ _ _ _ _ _ _ _ _ halike =>
    obtain ⟨hxy, hold⟩ := hne (by simp) hx
    exact ⟨by rw [halike.state]; exact update_of_ne hxy _ _, Or.inl hold⟩
  | parked _ _ _ _ _ _ _ _ halike =>
    exact ⟨by rw [halike.state], Or.inl (hne (by simp) hx).2⟩
  | fetched _ _ _ _ _ _ _ _ halike =>
    obtain ⟨hxy, hold⟩ := hne (by simp) hx
    exact ⟨by rw [halike.state]; exact update_of_ne hxy _ _, Or.inl hold⟩
  | listening _ _ _ _ _ _ _ halike =>
    obtain ⟨hxy, hold⟩ := hne (by simp) hx
    exact ⟨by rw [halike.state]; exact update_of_ne hxy _ _, Or.inl hold⟩
  | @adopted i hcall hp _ hcheck hi hsup _ halike =>
    refine ⟨by rw [halike.state]; rfl, ?_⟩
    rcases Rendezvous.adopt_cases (m := m) (r := p) (i := i) (x := x) with
      ⟨-, hnew⟩ | ⟨hold, -⟩ | ⟨-, -, hsame⟩
    · exact absurd (hnew.symm.trans hx) (by simp)
    · exact Or.inr ⟨hold, hp, hcall, hcheck, i, hi, hsup⟩
    · exact Or.inl (hsame.symm.trans hx)
  | exited _ _ _ _ _ _ _ _ _ _ _ _ _ _ hstate =>
    obtain ⟨hxp, hx'⟩ : x ≠ p ∧ (m.release p).place x = .stranded := by
      by_cases hxp : x = p
      · rw [hxp, Rendezvous.move_place, update_self] at hx
        exact absurd hx (by simp)
      · rw [Rendezvous.move_place, update_of_ne hxp] at hx
        exact ⟨hxp, hx⟩
    have hold := Rendezvous.place_of_release hx' (by simp)
    refine ⟨?_, Or.inl hold⟩
    rw [hstate, if_neg fun hmem => ?_, update_of_ne hxp]
    exact absurd ((m.mem_senders.1 hmem).symm.trans hold) (by simp)
  | rung _ _ _ _ _ _ halike =>
    obtain ⟨hxy, hold⟩ := hne (by simp) hx
    exact ⟨by rw [halike.state]; exact update_of_ne hxy _ _, Or.inl hold⟩

/-! ## The invariant -/

/-- Receivers supply a feature, and suppliers are alive. -/
structure PeersInv (s : Kernel) (m : Rendezvous Ptr Nat) : Prop where
  supplier : ∀ i < featureTableSize, (s.featureTable i).supplier ≠ null →
    m.place (s.featureTable i).supplier ≠ .exited
  sending : ∀ x r, m.place x = .sending r → ∃ i < featureTableSize, (s.featureTable i).supplier = r
  stranded : ∀ x, m.place x = .stranded → s.state x &&& Flag.sending = 0

omit [Layout] in
theorem PeersInv.congr (h : PeersInv s m) (ht : s'.featureTable = s.featureTable)
    (hs : s'.state = s.state) : PeersInv s' m :=
  ⟨ht ▸ h.supplier, ht ▸ h.sending, hs ▸ h.stranded⟩

/-- Every effect keeps the invariant if its event meets the condition. -/
theorem PeersInv.effect (h : PeersInv s m) (hinv : IpcInv ps s q m)
    (heff : Effect ps s m p e k m')
    (hexit : e.call = some 0 → ∀ i < featureTableSize, (s.featureTable i).supplier ≠ p)
    (hsenders : p ∈ ps → e.call = some 1 → checkFeature (s.regs p).ebxReg = some 0 →
      ∀ i, featureEntry (s.regs p).ebxReg = some i → (s.featureTable i).supplier = null →
        ∀ x ∈ m.senders p, s.state x &&& Flag.sending = 0) : PeersInv k m' where
  supplier i hi hne hex := by
    rcases heff.supplier_cases i with hsame | ⟨-, hp, hrun⟩
    · rw [hsame] at hne hex
      rcases heff.exited_cases hex with hold | ⟨hp, hcall⟩
      · exact h.supplier i hi hne hold
      · exact hexit hcall i hi hp
    · rw [hp, hrun] at hex
      exact absurd hex (by simp)
  sending x r hx := by
    rcases heff.sending_cases hx with hold | hnew
    · obtain ⟨i, hi, hr⟩ := h.sending x r hold
      refine ⟨i, hi, ?_⟩
      rw [heff.supplier_eq (hr ▸ hinv.ne_null (hinv.receiver_mem x r hold)), hr]
    · exact hnew
  stranded x hx := by
    obtain ⟨hstate, hold | ⟨hold, hp, hcall, hcheck, i, hi, hnull⟩⟩ := heff.stranded_cases hx
    · rw [hstate]
      exact h.stranded x hold
    · rw [hstate]
      exact hsenders hp hcall hcheck i hi hnull x (m.mem_senders.2 hold)

/-- The exit of a process wakes the senders on its list. -/
theorem IpcInv.exit (h : IpcInv ps s q m) (hb : Between s.sched q) (hcall : e.call = some 0)
    (hs : s.step e = some k) {senders : List Ptr}
    (hl : Chain s.nextSender null (s.firstSender s.sched.curptr) senders) (hx : x ∈ senders) :
    k.sched.isEnqueued x = true ∧ k.state x = 0 ∧ (k.regs x).esiReg = Err.processDied := by
  obtain ⟨t, q', m', rfl, -, -, hinv', -, heff⟩ := h.step hb hs
  have hsaved := saved s e.regs
  have hres := resumed t e.number
  cases heff with
  | exited hp _ hpp hrun _ _ hregs _ _ _ _ _ _ _ hstate =>
    obtain rfl := hl.unique (h.lists.senders _ hpp)
    have hxs := m.mem_senders.1 hx
    have hxp : x ≠ s.sched.curptr := by
      rintro heq
      rw [heq, hrun] at hxs
      exact absurd hxs (by simp)
    refine ⟨?_, ?_, ?_⟩
    · rw [hinv'.queue.isEnqueued_iff x (h.place_mem x (by simp [hxs])), hinv'.running,
        Rendezvous.move_place, update_of_ne hxp, Rendezvous.release_place_of_sending hxs]
    · rw [hres.state, hstate, if_pos hx]
    · rw [hres.regs, hregs, diedRegs, if_pos hx]
  | quiet hq => exact absurd hcall hq.stays
  | direct _ hcall' => exact absurd (hcall.symm.trans hcall') (by decide)
  | queued _ hcall' => exact absurd (hcall.symm.trans hcall') (by decide)
  | parked _ hcall' => exact absurd (hcall.symm.trans hcall') (by decide)
  | fetched _ hcall' => exact absurd (hcall.symm.trans hcall') (by decide)
  | listening _ hcall' => exact absurd (hcall.symm.trans hcall') (by decide)
  | adopted hcall' => exact absurd (hcall.symm.trans hcall') (by decide)
  | rung _ _ hcall' => exact absurd (hcall.symm.trans hcall') (by decide)

/-! ## Runs -/

theorem IpcInv.noDeadPeers (h : IpcInv procs.toFinset s q m) (hb : Between s.sched q)
    (hp : PeersInv s m) : NoDeadPeers procs s where
  supplier i hi hne := by
    have hmem := ((h.supplier i hi).resolve_left hne).1
    exact ⟨List.mem_toFinset.1 hmem, fun hempty => hp.supplier i hi hne ((h.empty_iff hmem).1 hempty)⟩
  sending p hpp hflag := by
    rcases h.place_of_sending (List.mem_toFinset.2 hpp) hflag with ⟨r, hr⟩ | hstr
    · have hrm := h.receiver_mem p r hr
      refine ⟨r, m.senders r, ⟨List.mem_toFinset.1 hrm, fun hempty => ?_⟩, h.lists.senders r hrm,
        m.mem_senders.2 hr⟩
      obtain ⟨i, hi, rfl⟩ := hp.sending p r hr
      exact hp.supplier i hi (h.ne_null hrm) ((h.empty_iff hrm).1 hempty)
    · exact absurd (hp.stranded p hstr) hflag
  exit e k senders hcall hs hl x hx := h.exit hb hcall hs hl hx

section

omit [Layout]

theorem keepsPeers_of_keepsSenders (h : KeepsSenders s e)
    (hexit : e.call = some 0 → ∀ i < featureTableSize,
      (s.featureTable i).supplier ≠ s.sched.curptr) : KeepsPeers s e := by
  refine ⟨hexit, fun hcall hcheck i hi hnull senders hl x hx => ?_⟩
  rw [h hcall hcheck i hi hnull] at hl
  rw [hl.null_eq_nil] at hx
  exact absurd hx (by simp)

end

end Kernel

end Mycrokernel
