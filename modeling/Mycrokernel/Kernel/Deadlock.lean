import Mycrokernel.Kernel.Peers
import Mycrokernel.Kernel.Pairing

/-!
# Processes that never run again

A send blocks until its receiver asks for it, and no call of the kernel ends the
blocking of another process but a send, a receive, a registration or an exit of
somebody who runs.  So a group of processes is dead when each of its members waits
for a member, or for something that only it could bring about itself: it is in a
receive that nobody can end, or it is on no list at all.  Two servers that send to
each other are such a group.

`Hung` says this of the places of a rendezvous.  No effect touches a member
(`Hung.effect`), so that the group stays dead in every run (`deadlock_forever`).

The kernel refuses a send to the caller's own feature, and looks no further: a send to
somebody who waits for the caller through other processes blocks, and with it
everybody behind the caller is dead (`circle_forever`).
-/

namespace Mycrokernel

open Function (update update_self update_of_ne)
open PointerList

namespace Kernel

open Rendezvous (Place)

variable [Layout] {procs : List Ptr} {ps : Finset Ptr} {s s' k : Kernel} {e : Event}
  {m m' : Rendezvous Ptr Nat} {p r x : Ptr} {q q' : List Ptr} {es es' : List Event} {i : Nat}
  {dead : Set Ptr}

/-! ## Dead groups -/

/-- `p` is on the list of senders of `r`. -/
def SendsTo (s : Kernel) (p r : Ptr) : Prop :=
  ∃ senders, Chain s.nextSender null (s.firstSender r) senders ∧ p ∈ senders

/-- `p` is on the list of the feature entry `i`. -/
def WaitsAt (s : Kernel) (p : Ptr) (i : Nat) : Prop :=
  ∃ waiters, Chain s.nextSender null (s.featureTable i).waiter waiters ∧ p ∈ waiters

/-- `p` has exited, or it is blocked on a list it has been dropped from. -/
structure Unlisted (procs : List Ptr) (s : Kernel) (p : Ptr) : Prop where
  off : s.sched.isEnqueued p = false
  state : s.state p &&& Flag.receiving = 0
  senders : ∀ r ∈ procs, ¬ SendsTo s p r
  waiters : ∀ i < featureTableSize, ¬ WaitsAt s p i

/-- `p` is in a receive that no interrupt ends, and nobody outside `dead` can send to it. -/
structure Unheard (s : Kernel) (dead : Set Ptr) (p : Ptr) : Prop where
  state : s.state p &&& Flag.receiving ≠ 0
  irqs : ∀ n ≤ maxIrq, s.irqs n ≠ p
  silent : (∀ i < featureTableSize, (s.featureTable i).supplier ≠ p) ∨
    s.receivingFrom p ≠ anyproc ∧ s.receivingFrom p ∈ dead

/-- Each process of the group waits for one of the group, or for nothing that can happen. -/
def Deadlocked (procs : List Ptr) (s : Kernel) (dead : Set Ptr) : Prop :=
  ∀ p ∈ dead, p ∈ procs ∧
    (Unlisted procs s p ∨ Unheard s dead p ∨ ∃ r ∈ dead, r ∈ procs ∧ SendsTo s p r)

/-- What a process of a dead group keeps between two states. -/
structure Frozen (procs : List Ptr) (s s' : Kernel) (p : Ptr) : Prop where
  /-- It does not have the processor. -/
  off : s'.sched.curptr ≠ p ∧ s'.sched.isEnqueued p = false
  regs : s'.regs p = s.regs p
  state : s'.state p = s.state p
  sends : ∀ r ∈ procs, SendsTo s p r → SendsTo s' p r
  /-- It takes no part in the messages in between. -/
  exchanges : ∃ passed, s'.exchanges = passed ++ s.exchanges ∧
    ∀ x ∈ passed, x.sender ≠ p ∧ x.receiver ≠ p

/-! ## Places -/

theorem IpcInv.sendsTo_iff (h : IpcInv ps s q m) (hr : r ∈ ps) :
    SendsTo s p r ↔ m.place p = .sending r := by
  constructor
  · rintro ⟨senders, hl, hp⟩
    rw [hl.unique (h.lists.senders r hr)] at hp
    exact m.mem_senders.1 hp
  · intro hp
    exact ⟨m.senders r, h.lists.senders r hr, m.mem_senders.2 hp⟩

theorem IpcInv.waitsAt_iff (h : IpcInv ps s q m) (hi : i < featureTableSize) :
    WaitsAt s p i ↔ m.place p = .waiting i := by
  constructor
  · rintro ⟨waiters, hl, hp⟩
    rw [hl.unique (h.lists.waiters i hi)] at hp
    exact m.mem_waiters.1 hp
  · intro hp
    exact ⟨m.waiters i, h.lists.waiters i hi, m.mem_waiters.2 hp⟩

theorem IpcInv.unlisted_iff (h : IpcInv procs.toFinset s q m) (hp : p ∈ procs) :
    Unlisted procs s p ↔ m.place p = .exited ∨ m.place p = .stranded := by
  have hps := List.mem_toFinset.2 hp
  have hoff := h.queue.isEnqueued_iff p hps
  rw [h.running] at hoff
  have hrecv := h.receiving_iff hps
  constructor
  · intro hun
    cases hpl : m.place p with
    | running => exact absurd (hoff.2 hpl) (by simp [hun.off])
    | receiving => exact absurd hun.state (hrecv.2 hpl)
    | sending r =>
      have hr := h.receiver_mem p r hpl
      exact absurd ((h.sendsTo_iff hr).2 hpl) (hun.senders r (List.mem_toFinset.1 hr))
    | waiting i =>
      have hi := h.entry_lt p i hpl
      exact absurd ((h.waitsAt_iff hi).2 hpl) (hun.waiters i hi)
    | stranded => exact Or.inr rfl
    | exited => exact Or.inl rfl
  · intro hpl
    refine ⟨?_, ?_, fun r hr hs => ?_, fun i hi hw => ?_⟩
    · cases hen : s.sched.isEnqueued p with
      | false => rfl
      | true => rcases hpl with hpl | hpl <;> exact absurd (hoff.1 hen) (by simp [hpl])
    · by_contra hne
      rcases hpl with hpl | hpl <;> exact absurd (hrecv.1 hne) (by simp [hpl])
    · rw [h.sendsTo_iff (List.mem_toFinset.2 hr)] at hs
      rcases hpl with hpl | hpl <;> exact absurd hs (by simp [hpl])
    · rw [h.waitsAt_iff hi] at hw
      rcases hpl with hpl | hpl <;> exact absurd hw (by simp [hpl])

/-- Why a process at its place never leaves it while `dead` stays where it is. -/
inductive Hangs (s : Kernel) (m : Rendezvous Ptr Nat) (dead : Set Ptr) (p : Ptr) : Prop where
  | exited : m.place p = .exited → Hangs s m dead p
  | stranded : m.place p = .stranded → Hangs s m dead p
  | sending {r : Ptr} : m.place p = .sending r → r ∈ dead → Hangs s m dead p
  | receiving : m.place p = .receiving → Unheard s dead p → Hangs s m dead p

/-- `Deadlocked`, said of the places. -/
structure Hung (ps : Finset Ptr) (s : Kernel) (m : Rendezvous Ptr Nat) (dead : Set Ptr) : Prop where
  mem : ∀ p ∈ dead, p ∈ ps
  hangs : ∀ p ∈ dead, Hangs s m dead p

theorem IpcInv.deadlocked_iff (h : IpcInv procs.toFinset s q m) :
    Deadlocked procs s dead ↔ Hung procs.toFinset s m dead := by
  constructor
  · intro hd
    refine ⟨fun p hp => List.mem_toFinset.2 (hd p hp).1, fun p hp => ?_⟩
    obtain ⟨hpp, hun | hun | ⟨r, hr, hrp, hs⟩⟩ := hd p hp
    · rcases (h.unlisted_iff hpp).1 hun with hpl | hpl
      · exact .exited hpl
      · exact .stranded hpl
    · exact .receiving ((h.receiving_iff (List.mem_toFinset.2 hpp)).1 hun.state) hun
    · exact .sending ((h.sendsTo_iff (List.mem_toFinset.2 hrp)).1 hs) hr
  · intro hh p hp
    have hpp := List.mem_toFinset.1 (hh.mem p hp)
    refine ⟨hpp, ?_⟩
    cases hh.hangs p hp with
    | exited hpl => exact Or.inl ((h.unlisted_iff hpp).2 (Or.inl hpl))
    | stranded hpl => exact Or.inl ((h.unlisted_iff hpp).2 (Or.inr hpl))
    | @sending r hpl hr =>
      have hrm := hh.mem r hr
      exact Or.inr (Or.inr ⟨r, hr, List.mem_toFinset.1 hrm, (h.sendsTo_iff hrm).2 hpl⟩)
    | receiving _ hun => exact Or.inr (Or.inl hun)

section

omit [Layout]

theorem Hung.not_running (h : Hung ps s m dead) (hx : x ∈ dead) : m.place x ≠ .running := by
  cases h.hangs x hx with
  | exited hpl => simp [hpl]
  | stranded hpl => simp [hpl]
  | sending hpl => simp [hpl]
  | receiving hpl => simp [hpl]

theorem Hung.not_waiting (h : Hung ps s m dead) (hx : x ∈ dead) : m.place x ≠ .waiting i := by
  cases h.hangs x hx with
  | exited hpl => simp [hpl]
  | stranded hpl => simp [hpl]
  | sending hpl => simp [hpl]
  | receiving hpl => simp [hpl]

/-- Nobody who runs is waited for. -/
theorem Hung.not_sending (h : Hung ps s m dead) (hp : m.place p = .running) (hx : x ∈ dead) :
    m.place x ≠ .sending p := by
  intro hxp
  cases h.hangs x hx with
  | exited hpl => exact absurd (hpl.symm.trans hxp) (by simp)
  | stranded hpl => exact absurd (hpl.symm.trans hxp) (by simp)
  | sending hpl hr =>
    obtain rfl := Place.sending.inj (hpl.symm.trans hxp)
    exact h.not_running hr hp
  | receiving hpl => exact absurd (hpl.symm.trans hxp) (by simp)

/-- A supplier that is waiting for somebody who runs is not of the group. -/
theorem Hung.notMem_of_receiving (h : Hung ps s m dead) (hr : m.place r = .receiving)
    (hp : m.place p = .running) (hacc : Accepts (s.receivingFrom r) p)
    (hsup : ∃ i < featureTableSize, (s.featureTable i).supplier = r) : r ∉ dead := by
  intro hrd
  cases h.hangs r hrd with
  | exited hpl => exact absurd (hpl.symm.trans hr) (by simp)
  | stranded hpl => exact absurd (hpl.symm.trans hr) (by simp)
  | sending hpl => exact absurd (hpl.symm.trans hr) (by simp)
  | receiving _ hun =>
    rcases hun.silent with hsilent | ⟨hany, hmem⟩
    · obtain ⟨i, hi, rfl⟩ := hsup
      exact hsilent i hi rfl
    · rcases hacc with hacc | rfl
      · exact hany hacc
      · exact h.not_running hmem hp

/-- A receive that an interrupt ends is none of the group. -/
theorem Hung.notMem_of_irq (h : Hung ps s m dead) (hr : m.place r = .receiving) {n : Nat}
    (hn : n ≤ maxIrq) (hirq : s.irqs n = r) : r ∉ dead := by
  intro hrd
  cases h.hangs r hrd with
  | exited hpl => exact absurd (hpl.symm.trans hr) (by simp)
  | stranded hpl => exact absurd (hpl.symm.trans hr) (by simp)
  | sending hpl => exact absurd (hpl.symm.trans hr) (by simp)
  | receiving _ hun => exact hun.irqs n hn hirq

/-! ## Effects -/

/-- What an effect leaves to `x`. -/
structure Untouched (s : Kernel) (m : Rendezvous Ptr Nat) (k : Kernel) (m' : Rendezvous Ptr Nat)
    (x : Ptr) : Prop where
  place : m'.place x = m.place x
  regs : k.regs x = s.regs x
  state : k.state x = s.state x
  receivingFrom : k.receivingFrom x = s.receivingFrom x
  irqs : ∀ n ≤ maxIrq, k.irqs n = x → s.irqs n = x
  supplier : ∀ i, (k.featureTable i).supplier = x → (s.featureTable i).supplier = x
  exchanges : ∃ passed, k.exchanges = passed ++ s.exchanges ∧
    ∀ y ∈ passed, y.sender ≠ x ∧ y.receiver ≠ x

end

/-- Who has an IRQ after an effect, and has not called, has had it before. -/
theorem Effect.owned_before {n : Nat} (heff : Effect ps s m p e k m') (hcur : s.sched.curptr = p)
    (hxp : x ≠ p) (hnull : x ≠ null) (hn : k.irqs n = x) : s.irqs n = x := by
  cases heff with
  | quiet hq =>
    rcases hq.irqs.cases n with hsame | ⟨hnew, -⟩
    · exact hsame.symm.trans hn
    · exact absurd (hn.symm.trans (hnew.trans hcur)) hxp
  | direct _ _ _ _ _ _ _ _ _ halike => rwa [halike.irqs] at hn
  | queued _ _ _ _ _ _ _ _ _ _ halike => rwa [halike.irqs] at hn
  | parked _ _ _ _ _ _ _ _ halike => rwa [halike.irqs] at hn
  | fetched _ _ _ _ _ _ _ _ halike => rwa [halike.irqs] at hn
  | listening _ _ _ _ _ _ _ halike => rwa [halike.irqs] at hn
  | adopted _ _ _ _ _ _ _ halike => rwa [halike.irqs] at hn
  | exited _ _ _ _ _ _ _ _ _ _ _ _ _ hirqs =>
    rw [hirqs] at hn
    split at hn
    next => exact absurd hn.symm hnull
    next => exact hn
  | rung _ _ _ _ _ _ halike => rwa [halike.irqs] at hn

/-- No effect wakes a process of a dead group, or moves it to another list. -/
theorem Hung.place_eq (h : Hung ps s m dead) (heff : Effect ps s m p e k m') (hpd : p ∉ dead)
    (hx : x ∈ dead) : m'.place x = m.place x := by
  have hxp : x ≠ p := ne_of_mem_of_not_mem hx hpd
  cases heff with
  | quiet => rfl
  | @direct r i hr _ _ hrun hi hsup _ hacc =>
    refine update_of_ne (ne_of_mem_of_not_mem hx ?_) _ _
    exact h.notMem_of_receiving hr hrun hacc ⟨i, featureEntry_lt hi, hsup⟩
  | queued => exact update_of_ne hxp _ _
  | parked => exact update_of_ne hxp _ _
  | fetched hw _ _ hrun =>
    refine update_of_ne ?_ _ _
    rintro rfl
    exact h.not_sending hrun hx hw
  | listening => exact update_of_ne hxp _ _
  | adopted _ _ hrun =>
    exact Rendezvous.adopt_place_of_ne (h.not_waiting hx) (h.not_sending hrun hx)
  | exited _ _ _ hrun =>
    rw [Rendezvous.move_place, update_of_ne hxp,
      Rendezvous.release_place_of_ne (h.not_sending hrun hx)]
  | rung hr _ _ hirq hn =>
    exact update_of_ne (ne_of_mem_of_not_mem hx (h.notMem_of_irq hr hn hirq)) _ _

/-- No effect touches a process of a dead group. -/
theorem Hung.untouched (h : Hung ps s m dead) (hinv : IpcInv ps s q m)
    (heff : Effect ps s m p e k m') (hcur : s.sched.curptr = p) (hpd : p ∉ dead)
    (hx : x ∈ dead) : Untouched s m k m' x := by
  have hxp : x ≠ p := ne_of_mem_of_not_mem hx hpd
  have hnull : x ≠ null := hinv.ne_null (h.mem x hx)
  have hplace := h.place_eq heff hpd hx
  cases heff.bystander hcur hxp with
  | stays _ hregs hstate hfrom hexch =>
    refine ⟨hplace, hregs, hstate, hfrom, fun n _ => heff.owned_before hcur hxp hnull,
      fun i hi => ?_, hexch⟩
    rcases heff.supplier_cases i with hsame | ⟨-, hnew, -⟩
    · exact hsame.symm.trans hi
    · exact absurd (hi.symm.trans hnew) hxp
  | woken hold hnew => exact absurd (hplace.symm.trans hnew) hold
  | served hold hnew => exact absurd (hnew.symm.trans (hplace.trans hold)) (by simp)
  | stranded hold hnew => exact absurd (hnew.symm.trans (hplace.trans hold)) (by simp)

/-- The group stays dead. -/
theorem Hung.effect (h : Hung ps s m dead) (hinv : IpcInv ps s q m)
    (heff : Effect ps s m p e k m') (hcur : s.sched.curptr = p) (hpd : p ∉ dead) :
    Hung ps k m' dead := by
  refine ⟨h.mem, fun x hx => ?_⟩
  have hu := h.untouched hinv heff hcur hpd hx
  cases h.hangs x hx with
  | exited hpl => exact .exited (hu.place.trans hpl)
  | stranded hpl => exact .stranded (hu.place.trans hpl)
  | sending hpl hr => exact .sending (hu.place.trans hpl) hr
  | receiving hpl hun =>
    refine .receiving (hu.place.trans hpl) ⟨by rw [hu.state]; exact hun.state,
      fun n hn heq => hun.irqs n hn (hu.irqs n hn heq), ?_⟩
    rw [hu.receivingFrom]
    exact hun.silent.imp (fun hs i hi heq => hs i hi (hu.supplier i heq)) id

omit [Layout] in
theorem Hung.congr (h : Hung ps s m dead) (hstate : k.state = s.state) (hirqs : k.irqs = s.irqs)
    (hsup : k.featureTable = s.featureTable) (hfrom : k.receivingFrom = s.receivingFrom) :
    Hung ps k m dead := by
  refine ⟨h.mem, fun x hx => ?_⟩
  cases h.hangs x hx with
  | exited hpl => exact .exited hpl
  | stranded hpl => exact .stranded hpl
  | sending hpl hr => exact .sending hpl hr
  | receiving hpl hun =>
    exact .receiving hpl ⟨hstate ▸ hun.state, hirqs ▸ hun.irqs, hsup ▸ hfrom ▸ hun.silent⟩

/-! ## Runs -/

/-- Nobody of the group has the processor. -/
theorem Hung.curptr_notMem (h : Hung ps s m dead) (hinv : IpcInv ps s q m)
    (hb : Between s.sched q) : s.sched.curptr ∉ dead := by
  intro hcur
  have hmem := h.mem _ hcur
  rcases hb.curptr with hnull | hidle | hq
  · exact hinv.ne_null hmem hnull
  · exact hinv.ne_idle hmem hidle
  · exact h.not_running hcur ((hinv.running _).1 hq)

/-- What a run has left to the processes of a group so far. -/
structure Resting (ps : Finset Ptr) (s₀ : Kernel) (m₀ : Rendezvous Ptr Nat) (dead : Set Ptr)
    (s : Kernel) (m : Rendezvous Ptr Nat) : Prop where
  hung : Hung ps s m dead
  untouched : ∀ x ∈ dead, m.place x = m₀.place x ∧ s.regs x = s₀.regs x ∧ s.state x = s₀.state x ∧
    ∃ passed, s.exchanges = passed ++ s₀.exchanges ∧ ∀ y ∈ passed, y.sender ≠ x ∧ y.receiver ≠ x

theorem Resting.step {s₀ : Kernel} {m₀ : Rendezvous Ptr Nat} (h : Resting ps s₀ m₀ dead s m)
    (hinv : IpcInv ps s q m) (hb : Between s.sched q)
    (heff : Effect ps (s.saveContext e.regs) m s.sched.curptr e k m') :
    Resting ps s₀ m₀ dead (k.finish.schedule e.number) m' := by
  have hsaved := saved s e.regs
  have hres := resumed k e.number
  have hpd := h.hung.curptr_notMem hinv hb
  have hung : Hung ps (s.saveContext e.regs) m dead :=
    h.hung.congr hsaved.state hsaved.irqs hsaved.featureTable hsaved.receivingFrom
  have hcur : (s.saveContext e.regs).sched.curptr = s.sched.curptr := by rw [hsaved.sched]
  have hinv' := hinv.saveContext e.regs
  refine ⟨(hung.effect hinv' heff hcur hpd).congr hres.state hres.irqs hres.featureTable
    hres.receivingFrom, fun x hx => ?_⟩
  have hu := hung.untouched hinv' heff hcur hpd hx
  obtain ⟨hplace, hregs, hstate, passed, hexch, hpassed⟩ := h.untouched x hx
  obtain ⟨new, hnew, hapart⟩ := hu.exchanges
  refine ⟨hu.place.trans hplace, ?_, ?_, new ++ passed, ?_, fun y hy => ?_⟩
  · rw [hres.regs, hu.regs, hsaved.regs_of_ne x (ne_of_mem_of_not_mem hx hpd), hregs]
  · rw [hres.state, hu.state, hsaved.state, hstate]
  · rw [hres.exchanges, hnew, hsaved.exchanges, hexch, List.append_assoc]
  · exact (List.mem_append.1 hy).elim (hapart y) (hpassed y)

/-- The processes of a dead group stay where they are in every run. -/
theorem Hung.run (hung : Hung procs.toFinset s m dead) (hinv : IpcInv procs.toFinset s q m)
    (hb : Between s.sched q) (hr : Run s es s') :
    Deadlocked procs s' dead ∧ ∀ p ∈ dead, Frozen procs s s' p := by
  obtain ⟨q', m', hinv', hb', hrest⟩ := Run.tracked
    (P := fun s' _ m' => Resting procs.toFinset s m dead s' m')
    (fun hinv hb hrest _ _ _ _ heff => hrest.step hinv hb heff) hr hinv hb
    ⟨hung, fun x _ => ⟨rfl, rfl, rfl, exchanges_none rfl⟩⟩
  refine ⟨hinv'.deadlocked_iff.2 hrest.hung, fun p hp => ?_⟩
  obtain ⟨hplace, hregs, hstate, hexch⟩ := hrest.untouched p hp
  refine ⟨⟨?_, ?_⟩, hregs, hstate, fun r hrp hs => ?_, hexch⟩
  · exact fun hcur => hrest.hung.curptr_notMem hinv' hb' (hcur ▸ hp)
  · cases hen : s'.sched.isEnqueued p with
    | false => rfl
    | true =>
      rw [hinv'.queue.isEnqueued_iff p (hung.mem p hp), hinv'.running] at hen
      exact absurd hen (hrest.hung.not_running hp)
  · have hrm := List.mem_toFinset.2 hrp
    rw [hinv.sendsTo_iff hrm] at hs
    rw [hinv'.sendsTo_iff hrm, hplace, hs]

/-- `p` is blocked in a send to the process `r`. -/
def SendsWithin (procs : List Ptr) (s : Kernel) (p r : Ptr) : Prop := r ∈ procs ∧ SendsTo s p r

/-- Everybody who waits for `p`, through any number of sends. -/
def Behind (procs : List Ptr) (s : Kernel) (p : Ptr) : Set Ptr :=
  { x | Relation.ReflTransGen (SendsWithin procs s) x p }

theorem IpcInv.behind_mem (hinv : IpcInv procs.toFinset s q m) (hp : p ∈ procs.toFinset)
    (hx : x ∈ Behind procs s p) : x ∈ procs.toFinset := by
  rcases Relation.ReflTransGen.cases_head hx with rfl | ⟨y, ⟨hyp, hsends⟩, -⟩
  · exact hp
  · have hplace := (hinv.sendsTo_iff (List.mem_toFinset.2 hyp)).1 hsends
    exact hinv.place_mem x (by simp [hplace])

/-- A send that closes a circle makes everybody behind it hang. -/
theorem hung_of_circle (hinv : IpcInv procs.toFinset s q m) (hp : m.place p = .running)
    (hr : r ∈ Behind procs s p) : Hung procs.toFinset k (m.send p r (Rendezvous.off_of_running hp))
      (Behind procs s p) := by
  have hmem := hinv.place_mem p (by simp [hp])
  -- who is behind `p` is `p`, or sends to somebody behind `p`
  have hcases : ∀ x ∈ Behind procs s p, x = p ∨ x ≠ p ∧ ∃ y ∈ Behind procs s p, m.place x = .sending y := by
    intro x hx
    rcases Relation.ReflTransGen.cases_head hx with heq | ⟨y, ⟨hyp, hsends⟩, hy⟩
    · exact Or.inl heq
    · have hplace := (hinv.sendsTo_iff (List.mem_toFinset.2 hyp)).1 hsends
      refine Or.inr ⟨?_, y, hy, hplace⟩
      rintro rfl
      exact absurd (hp.symm.trans hplace) (by simp)
  refine ⟨fun x hx => hinv.behind_mem hmem hx, fun x hx => ?_⟩
  · rcases hcases x hx with rfl | ⟨hne, y, hy, hplace⟩
    · exact .sending (by rw [Rendezvous.send_place, update_self]) hr
    · exact .sending (by rw [Rendezvous.send_place, update_of_ne hne, hplace]) hy

end Kernel

end Mycrokernel
