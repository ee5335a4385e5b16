import Mycrokernel.Kernel.Create
import Mycrokernel.Kernel.Frame

/-!
# Ports

`port_accessers` holds for each port the slot of the process that has claimed it.  The
four calls that access a port check it, `syscall_claim_port` writes it, and nothing else
does: exit leaves a process's ports with its slot, where the next process finds them.

A run is a list of actions: interrupts, and calls of `create_process` and `enqueue`.
`claimsAfter` keeps account of who has claimed which port since it was created.  A run
is `Exclusive` if the kernel accesses ports for claimants only, no port has two owners,
and the ports of a process that exits are free.  It is so if and only if no process
exits that owns a port (`ports_exclusive_iff`).
-/

namespace Mycrokernel

open Function (update update_self update_of_ne)

namespace PortAccess

/-- The process the port is accessed for. -/
def process : PortAccess → Ptr
  | inb p _ => p
  | inw p _ => p
  | outb p _ _ => p
  | outw p _ _ => p

def port : PortAccess → Word
  | inb _ port => port
  | inw _ port => port
  | outb _ port _ => port
  | outw _ port _ => port

end PortAccess

namespace Kernel

variable [Layout] {s s' k l : Kernel} {e : Event} {a : ProcessArgs} {p : Ptr} {port : Word}
  {x : Action} {xs : List Action}

/-! ## Claims -/

/-- The event is a call that claims the port, and gets it. -/
def ClaimsPort (s : Kernel) (e : Event) (port : Word) : Prop :=
  e.call = some 6 ∧ e.regs.ebxReg &&& 0xffff = port ∧
    (s.portAccessers port = null ∨ s.portAccessers port = s.sched.curptr)

/-- Who has claimed which port since it was created, after an action. -/
def claimsAfter (c : Ptr → Word → Prop) (s : Kernel) : Action → Ptr → Word → Prop
  | .create a, p, port => c p port ∧ (s.createProcess a).map Prod.snd ≠ some p
  | .interrupt e, p, port => c p port ∨ ClaimsPort s e port ∧ p = s.sched.curptr
  | .enqueue _, p, port => c p port

/-- Whoever claims the port gets it. -/
def Claimable (s : Kernel) (port : Word) : Prop :=
  ∀ t : Kernel, t.portAccessers = s.portAccessers →
    (t.regs t.sched.curptr).ebxReg &&& 0xffff = port →
      t.syscallClaimPort.portAccessers port = t.sched.curptr

/-- In a state, only processes can access a port that have claimed it since they were
created, and no two processes can. -/
structure Owned (s : Kernel) (c : Ptr → Word → Prop) : Prop where
  claimed : ∀ p port, p ≠ null → s.hasPortAccess p port → c p port
  single : ∀ p r port, s.hasPortAccess p port → s.hasPortAccess r port → p = r

/-- The process that exits with an action. -/
def Exiting (s : Kernel) (x : Action) (p : Ptr) : Prop :=
  x.call = some 0 ∧ p = s.sched.curptr

/-- What the law asks of an action that leads from `s` to `s'`. -/
structure Lawful (s : Kernel) (c : Ptr → Word → Prop) (x : Action) (s' : Kernel) : Prop where
  /-- The kernel has accessed ports for processes that have claimed them. -/
  accesses : ∃ new, s'.portLog = new ++ s.portLog ∧ ∀ a ∈ new, c a.process a.port
  /-- The ports of a process that exits can be claimed. -/
  released : ∀ p port, Exiting s x p → port ≤ 0xffff → s.hasPortAccess p port → Claimable s' port
  /-- A process that is created can access no port. -/
  fresh : ∀ a p port, x = .create a → s.createProcess a = some (s', p) → p ≠ null →
    ¬ s'.hasPortAccess p port

/-- The law, over the actions of a run from `s`. -/
def Exclusive : Kernel → (Ptr → Word → Prop) → List Action → Prop
  | s, c, [] => Owned s c
  | s, c, x :: xs => Owned s c ∧ ∀ s', s.act x = some s' →
      Lawful s c x s' ∧ Exclusive s' (claimsAfter c s x) xs

/-- Only processes make system calls: the slot of the caller is not empty. -/
def LiveCaller (s : Kernel) (x : Action) : Prop :=
  x.call ≠ none → s.state s.sched.curptr &&& Flag.empty = 0

instance (s : Kernel) (x : Action) : Decidable (LiveCaller s x) :=
  inferInstanceAs (Decidable (_ → _))

/-- The process that exits owns no port. -/
def ReleasesPorts (s : Kernel) (x : Action) : Prop :=
  ∀ p port, Exiting s x p → port ≤ 0xffff → ¬ s.hasPortAccess p port

/-! ## What an action does to the ports -/

/-- Neither ports nor empty slots have changed. -/
structure PortsKept (s k : Kernel) : Prop where
  portAccessers : k.portAccessers = s.portAccessers
  portLog : k.portLog = s.portLog
  empty : ∀ p, k.state p &&& Flag.empty = s.state p &&& Flag.empty

section

omit [Layout]

theorem PortsKept.trans (h : PortsKept s k) (h' : PortsKept k l) : PortsKept s l :=
  ⟨h'.portAccessers.trans h.portAccessers, h'.portLog.trans h.portLog,
    fun p => (h'.empty p).trans (h.empty p)⟩

theorem Passed.portsKept (h : Passed s k) : PortsKept s k :=
  ⟨h.portAccessers, h.portLog, h.empty⟩

theorem portsKept_saveContext (s : Kernel) (regs : Regs) : PortsKept s (s.saveContext regs) := by
  unfold saveContext
  split
  next => exact ⟨rfl, rfl, fun _ => rfl⟩
  next => exact ⟨rfl, rfl, fun _ => rfl⟩

end

theorem portsKept_finish (s : Kernel) (n : Nat) : PortsKept s (s.finish.schedule n) := by
  unfold finish
  split
  next => exact ⟨rfl, rfl, fun _ => rfl⟩
  next => exact ⟨rfl, rfl, fun _ => rfl⟩

section

omit [Layout]

theorem portsKept_clockIsr (s : Kernel) : PortsKept s s.clockIsr := by
  unfold clockIsr
  dsimp only
  split
  next =>
    split
    next => exact ⟨rfl, rfl, fun _ => rfl⟩
    next => exact ⟨rfl, rfl, fun _ => rfl⟩
  next => exact ⟨rfl, rfl, fun _ => rfl⟩

/-- What an interrupt does to the ports and the empty slots: nothing, or an access of the
current process to a port it owns, or a claim, or an exit. -/
inductive PortEffect (s : Kernel) (e : Event) (k : Kernel) : Prop where
  | kept : ¬ e.call = some 0 → PortsKept s k → PortEffect s e k
  | accessed (a : PortAccess) : ¬ e.call = some 0 → e.call ≠ none →
      a.process = s.sched.curptr → s.hasPortAccess s.sched.curptr a.port →
      k.portAccessers = s.portAccessers → k.portLog = a :: s.portLog →
      (∀ p, k.state p &&& Flag.empty = s.state p &&& Flag.empty) → PortEffect s e k
  | claimed (port : Word) : ClaimsPort s e port → port ≤ 0xffff →
      k.portAccessers = update s.portAccessers port s.sched.curptr → k.portLog = s.portLog →
      (∀ p, k.state p &&& Flag.empty = s.state p &&& Flag.empty) → PortEffect s e k
  | exited : e.call = some 0 → k.portAccessers = s.portAccessers → k.portLog = s.portLog →
      k.state s.sched.curptr &&& Flag.empty = Flag.empty →
      (∀ p ≠ s.sched.curptr, k.state p &&& Flag.empty = s.state p &&& Flag.empty) →
      PortEffect s e k

theorem PortEffect.before (h : PortEffect k e l) (hk : PortsKept s k)
    (hcur : k.sched.curptr = s.sched.curptr) : PortEffect s e l := by
  cases h with
  | kept hcall h => exact .kept hcall (hk.trans h)
  | accessed a hexit hcall hproc hacc hports hlog hempty =>
      rw [hcur] at hproc hacc
      rw [hasPortAccess, hk.portAccessers] at hacc
      exact .accessed a hexit hcall hproc hacc (hports.trans hk.portAccessers)
        (hlog.trans (by rw [hk.portLog])) fun p => (hempty p).trans (hk.empty p)
  | claimed port hclaims hle hports hlog hempty =>
      unfold ClaimsPort at hclaims
      rw [hcur, hk.portAccessers] at hclaims hports
      exact .claimed port hclaims hle hports (hlog.trans hk.portLog)
        fun p => (hempty p).trans (hk.empty p)
  | exited hcall hports hlog hcur' hempty =>
      rw [hcur] at hcur' hempty
      exact .exited hcall (hports.trans hk.portAccessers) (hlog.trans hk.portLog) hcur'
        fun p hp => (hempty p hp).trans (hk.empty p)

theorem PortEffect.after (h : PortEffect s e k) (hl : PortsKept k l) : PortEffect s e l := by
  cases h with
  | kept hcall h => exact .kept hcall (h.trans hl)
  | accessed a hexit hcall hproc hacc hports hlog hempty =>
      exact .accessed a hexit hcall hproc hacc (hl.portAccessers.trans hports)
        (hl.portLog.trans hlog) fun p => (hl.empty p).trans (hempty p)
  | claimed port hclaims hle hports hlog hempty =>
      exact .claimed port hclaims hle (hl.portAccessers.trans hports) (hl.portLog.trans hlog)
        fun p => (hl.empty p).trans (hempty p)
  | exited hcall hports hlog hcur hempty =>
      exact .exited hcall (hl.portAccessers.trans hports) (hl.portLog.trans hlog)
        ((hl.empty _).trans hcur) fun p hp => (hl.empty p).trans (hempty p hp)

/-! ## The calls -/

theorem and_ffff_le (w : Word) : w &&& 0xffff ≤ 0xffff := by
  have h : (w &&& 0xffff).toNat ≤ 65535 := by
    rw [toNat_and_ffff]
    omega
  exact h

end

section Calls

variable {regs : Regs} {input : Word}

section

omit [Layout]

/-- A call that logs an access to a port the caller owns, and changes registers. -/
theorem portEffect_access (a : PortAccess) (hexit : e.call ≠ some 0) (hcall : e.call ≠ none)
    (hproc : a.process = s.sched.curptr) (hacc : ¬ (!s.hasPortAccess s.sched.curptr a.port) = true)
    (hk : Passed { s with portLog := a :: s.portLog } k) : PortEffect s e k :=
  .accessed a hexit hcall hproc (by simpa using hacc) hk.portAccessers hk.portLog hk.empty

theorem portEffect_syscallInb (hexit : e.call ≠ some 0) (hcall : e.call ≠ none) :
    PortEffect s e (s.syscallInb input) := by
  unfold syscallInb
  dsimp only
  split
  next => exact .kept hexit (passed_setErr ..).portsKept
  next hacc =>
    exact portEffect_access (.inb s.sched.curptr _) hexit hcall rfl hacc
      ((passed_setEax ..).trans (passed_setErr ..))

theorem portEffect_syscallInw (hexit : e.call ≠ some 0) (hcall : e.call ≠ none) :
    PortEffect s e (s.syscallInw input) := by
  unfold syscallInw
  dsimp only
  split
  next => exact .kept hexit (passed_setErr ..).portsKept
  next hacc =>
    exact portEffect_access (.inw s.sched.curptr _) hexit hcall rfl hacc
      ((passed_setEax ..).trans (passed_setErr ..))

theorem portEffect_syscallOutb (hexit : e.call ≠ some 0) (hcall : e.call ≠ none) :
    PortEffect s e s.syscallOutb := by
  unfold syscallOutb
  dsimp only
  split
  next => exact .kept hexit (passed_setErr ..).portsKept
  next hacc =>
    exact portEffect_access (.outb s.sched.curptr _ _) hexit hcall rfl hacc (passed_setErr ..)

theorem portEffect_syscallOutw (hexit : e.call ≠ some 0) (hcall : e.call ≠ none) :
    PortEffect s e s.syscallOutw := by
  unfold syscallOutw
  dsimp only
  split
  next => exact .kept hexit (passed_setErr ..).portsKept
  next hacc =>
    exact portEffect_access (.outw s.sched.curptr _ _) hexit hcall rfl hacc (passed_setErr ..)

theorem portEffect_syscallClaimPort (hcall : e.call = some 6)
    (hregs : s.regs s.sched.curptr = e.regs) : PortEffect s e s.syscallClaimPort := by
  unfold syscallClaimPort
  dsimp only
  rw [hregs]
  split
  next => exact .kept (by simp [hcall]) (passed_setErr ..).portsKept
  next hfree =>
    rw [not_and_or, not_not, not_not] at hfree
    exact .claimed _ ⟨hcall, rfl, hfree⟩ (and_ffff_le _) rfl rfl fun _ => rfl

end

theorem portEffect_syscallIsr (hregs : s.regs s.sched.curptr = regs)
    (h : s.syscallIsr input = some k) : PortEffect s (.syscall regs input) k := by
  have hcall : (Event.syscall regs input).call = some regs.eaxReg.toNat := rfl
  have hsome : (Event.syscall regs input).call ≠ none := by simp [hcall]
  rw [Kernel.syscallIsr, hregs] at h
  generalize regs.eaxReg.toNat = n at hcall h
  have hexit : ∀ {m : Nat}, n = m → m ≠ 0 → (Event.syscall regs input).call ≠ some 0 := by
    intro m hm hne
    rw [hcall, hm]
    simpa using hne
  split at h
  next =>
    have hspec := syscallExit_spec h
    exact .exited hcall hspec.portAccessers hspec.portLog hspec.empty_cur hspec.empty_of_ne
  next => exact .kept (hexit rfl (by decide)) (passed_syscallSetFeature h).portsKept
  next => exact .kept (hexit rfl (by decide)) (passed_syscallReceive h).portsKept
  next => exact .kept (hexit rfl (by decide)) (passed_syscallSendByFeature h).portsKept
  next =>
    obtain rfl := Option.some.inj h
    exact .kept (hexit rfl (by decide)) (passed_syscallRequestIrq s).portsKept
  next =>
    obtain rfl := Option.some.inj h
    exact portEffect_syscallInb (hexit rfl (by decide)) hsome
  next =>
    obtain rfl := Option.some.inj h
    exact portEffect_syscallClaimPort hcall hregs
  next =>
    obtain rfl := Option.some.inj h
    exact portEffect_syscallOutb (hexit rfl (by decide)) hsome
  next =>
    obtain rfl := Option.some.inj h
    exact portEffect_syscallInw (hexit rfl (by decide)) hsome
  next =>
    obtain rfl := Option.some.inj h
    exact portEffect_syscallOutw (hexit rfl (by decide)) hsome
  next =>
    obtain rfl := Option.some.inj h
    exact .kept (hexit rfl (by decide)) (passed_syscallVir2phys s).portsKept
  next hne _ _ _ _ _ _ _ _ _ _ =>
    obtain rfl := Option.some.inj h
    exact .kept (hexit rfl hne) (passed_setErr ..).portsKept

end Calls

/-- One interrupt. -/
theorem portEffect_step (h : s.step e = some s') : PortEffect s e s' := by
  unfold Kernel.step at h
  split at h
  next he =>
    obtain ⟨t, ht, rfl⟩ := Option.map_eq_some_iff.mp h
    obtain ⟨k, hk, rfl⟩ := Option.map_eq_some_iff.mp ht
    refine .after (.before ?_ (portsKept_saveContext s e.regs) ?_) (portsKept_finish k _)
    · cases e with
      | timer regs =>
          obtain rfl := Option.some.inj hk
          exact .kept (by simp [Event.call]) (portsKept_clockIsr _)
      | device n regs =>
          obtain ⟨h0, h2, -⟩ := he
          change (s.saveContext regs).handle n 0 = some k at hk
          rw [handle, if_neg h0, if_neg h2] at hk
          split at hk
          next =>
            obtain rfl := Option.some.inj hk
            exact .kept (by simp [Event.call]) (Passed.refl _).portsKept
          next => exact .kept (by simp [Event.call]) (passed_notifyIrq hk).portsKept
      | syscall regs input =>
          refine portEffect_syscallIsr ?_ hk
          unfold saveContext
          rw [if_neg he.1]
          exact update_self ..
    · unfold saveContext
      split
      next => rfl
      next => rfl
  next => exact absurd h (by simp)

/-! ## Actions -/

theorem Creates.portAccessers {idxs : List Word} {tss : Word} (h : Creates s a s' p idxs tss l) :
    s'.portAccessers = s.portAccessers := by
  rw [h.eq, ← h.gdtOnly]
  rfl

theorem Creates.portLog {idxs : List Word} {tss : Word} (h : Creates s a s' p idxs tss l) :
    s'.portLog = s.portLog := by
  rw [h.eq, ← h.gdtOnly]
  rfl

theorem Creates.state {idxs : List Word} {tss : Word} (h : Creates s a s' p idxs tss l) :
    s'.state = update s.state p 0 := by
  rw [h.eq, ← h.gdtOnly]
  rfl

/-- What an action does to the ports and the empty slots. -/
inductive ActionEffect (s s' : Kernel) : Action → Prop where
  | interrupt (e : Event) : (e.call ≠ none → s.sched.curptr ≠ null) → PortEffect s e s' →
      ActionEffect s s' (.interrupt e)
  | refused (a : ProcessArgs) : s.createProcess a = some (s', null) → PortsKept s s' →
      ActionEffect s s' (.create a)
  | created (a : ProcessArgs) (p : Ptr) : s.createProcess a = some (s', p) →
      s.state p = Flag.empty → s'.portAccessers = s.portAccessers → s'.portLog = s.portLog →
      s'.state = update s.state p 0 → ActionEffect s s' (.create a)
  | enqueued (p : Ptr) : PortsKept s s' → ActionEffect s s' (.enqueue p)

theorem actionEffect (h : s.act x = some s') : ActionEffect s s' x := by
  cases x with
  | interrupt e =>
      refine .interrupt e ?_ (portEffect_step h)
      intro hcall
      cases e with
      | timer => exact absurd rfl hcall
      | device => exact absurd rfl hcall
      | syscall => exact (enabled_of_step h).1
  | create a =>
      obtain ⟨⟨t, p⟩, hcreate, rfl⟩ := Option.map_eq_some_iff.mp h
      rcases createProcess_cases hcreate with ⟨rfl, hgdt⟩ | ⟨idxs, tss, l, hcreates⟩
      · refine .refused a hcreate ?_
        rw [← hgdt]
        exact ⟨rfl, rfl, fun _ => rfl⟩
      · exact .created a p hcreate hcreates.empty hcreates.portAccessers hcreates.portLog
          hcreates.state
  | enqueue p => exact .enqueued p (passed_enqueue h).portsKept

/-! ## The invariant -/

/-- The owner of a port is not in an empty slot, and has claimed the port since it was
created. -/
structure PortInv (s : Kernel) (c : Ptr → Word → Prop) : Prop where
  alive : ∀ port, s.portAccessers port ≠ null →
    s.state (s.portAccessers port) &&& Flag.empty = 0
  claimed : ∀ port, s.portAccessers port ≠ null → c (s.portAccessers port) port
  range : ∀ port, s.portAccessers port ≠ null → port ≤ 0xffff

variable {c : Ptr → Word → Prop}

omit [Layout] in
theorem PortInv.owned (h : PortInv s c) : Owned s c := by
  constructor
  · intro p port hp hacc
    have howner : s.portAccessers port = p := by simpa [hasPortAccess] using hacc
    exact howner ▸ h.claimed port (howner ▸ hp)
  · intro p r port hp hr
    have hp' : s.portAccessers port = p := by simpa [hasPortAccess] using hp
    have hr' : s.portAccessers port = r := by simpa [hasPortAccess] using hr
    exact hp'.symm.trans hr'

omit [Layout] in
/-- An action that changes neither ports nor empty slots keeps the invariant. -/
theorem PortInv.kept {c' : Ptr → Word → Prop} (h : PortInv s c) (hk : PortsKept s s')
    (hc : ∀ port, s.portAccessers port ≠ null →
      c (s.portAccessers port) port → c' (s.portAccessers port) port) : PortInv s' c' := by
  constructor
  · intro port
    rw [hk.portAccessers, hk.empty]
    exact h.alive port
  · intro port
    rw [hk.portAccessers]
    exact fun hne => hc port hne (h.claimed port hne)
  · intro port
    rw [hk.portAccessers]
    exact h.range port

/-- Every interrupt keeps the invariant if its caller is alive, and if it is no exit of a
process that owns a port. -/
theorem PortInv.interrupt (h : PortInv s c) (heff : PortEffect s e s') (hlive : LiveCaller s (.interrupt e)) (hrel : ReleasesPorts s (.interrupt e)) :
    PortInv s' (claimsAfter c s (.interrupt e)) := by
  cases heff with
  | kept _ hk => exact h.kept hk fun _ _ => Or.inl
  | accessed a _ _ _ _ hports _ hempty =>
      constructor
      · intro port
        rw [hports, hempty]
        exact h.alive port
      · intro port
        rw [hports]
        exact fun hne => .inl (h.claimed port hne)
      · intro port
        rw [hports]
        exact h.range port
  | claimed port hclaims hle hports _ hempty =>
      have hcall : e.call ≠ none := by simp [hclaims.1]
      constructor
      · intro q
        rw [hports, hempty]
        cases Decidable.em (q = port) with
        | inl hq =>
            rw [hq, update_self]
            exact fun _ => hlive hcall
        | inr hq =>
            rw [update_of_ne hq]
            exact h.alive q
      · intro q
        rw [hports]
        cases Decidable.em (q = port) with
        | inl hq =>
            rw [hq, update_self]
            exact fun _ => .inr ⟨hclaims, rfl⟩
        | inr hq =>
            rw [update_of_ne hq]
            exact fun hne => .inl (h.claimed q hne)
      · intro q
        rw [hports]
        cases Decidable.em (q = port) with
        | inl hq => exact fun _ => hq ▸ hle
        | inr hq =>
            rw [update_of_ne hq]
            exact h.range q
  | exited hcall hports _ _ hempty =>
      constructor
      · intro port
        rw [hports]
        intro hne
        have hother : s.portAccessers port ≠ s.sched.curptr := fun hown =>
          hrel s.sched.curptr port ⟨hcall, rfl⟩ (h.range port hne) (by simp [hasPortAccess, hown])
        rw [hempty _ hother]
        exact h.alive port hne
      · intro port
        rw [hports]
        exact fun hne => .inl (h.claimed port hne)
      · intro port
        rw [hports]
        exact h.range port

omit [Layout] in
/-- A process that is created owns no port: its slot was empty. -/
theorem PortInv.notMem_created (h : PortInv s c) (hempty : s.state p = Flag.empty) (hp : p ≠ null) :
    s.portAccessers port ≠ p := by
  intro hown
  have halive := h.alive port (hown ▸ hp)
  rw [hown, hempty] at halive
  exact absurd halive (by decide)

theorem PortInv.created (h : PortInv s c) (hcreate : s.createProcess a = some (s', p))
    (hempty : s.state p = Flag.empty) (hports : s'.portAccessers = s.portAccessers)
    (hstate : s'.state = update s.state p 0) : PortInv s' (claimsAfter c s (.create a)) := by
  have hother : ∀ port, s.portAccessers port ≠ null → s.portAccessers port ≠ p := by
    intro port hne hown
    exact h.notMem_created hempty (hown ▸ hne) hown
  constructor
  · intro port
    rw [hports, hstate]
    intro hne
    rw [update_of_ne (hother port hne)]
    exact h.alive port hne
  · intro port
    rw [hports]
    intro hne
    refine ⟨h.claimed port hne, ?_⟩
    rw [hcreate, Option.map_some]
    exact fun heq => hother port hne (Option.some.inj heq).symm
  · intro port
    rw [hports]
    exact h.range port

/-- Every action keeps the invariant if the caller is alive and no process exits that owns a
port. -/
theorem PortInv.action (h : PortInv s c) (hact : s.act x = some s') (hlive : LiveCaller s x)
    (hrel : ReleasesPorts s x) : PortInv s' (claimsAfter c s x) := by
  cases actionEffect hact with
  | interrupt e _ heff => exact h.interrupt heff hlive hrel
  | refused a hcreate hk =>
      refine h.kept hk fun port hne hc => ⟨hc, ?_⟩
      rw [hcreate, Option.map_some]
      exact fun heq => hne (Option.some.inj heq).symm
  | created a p hcreate hempty hports _ hstate => exact h.created hcreate hempty hports hstate
  | enqueued p hk => exact h.kept hk fun _ _ hc => hc

/-! ## The law -/

omit [Layout] in
theorem hasPortAccess_iff : s.hasPortAccess p port = true ↔ s.portAccessers port = p := by
  simp [hasPortAccess]

/-- An action that logs no access, ends no process and creates none. -/
theorem Lawful.of_quiet (hlog : s'.portLog = s.portLog) (hexit : x.call ≠ some 0)
    (hcreate : ∀ a, x ≠ .create a) : Lawful s c x s' where
  accesses := ⟨[], by rw [hlog, List.nil_append], by simp⟩
  released p _ h _ _ := absurd h.1 hexit
  fresh a _ _ h _ _ := absurd h (hcreate a)

/-- In a state of the invariant, an action is lawful if it is no exit of a process that owns a
port. -/
theorem PortInv.lawful (h : PortInv s c) (hact : s.act x = some s') (hrel : ReleasesPorts s x) :
    Lawful s c x s' := by
  cases actionEffect hact with
  | interrupt e hcur heff =>
      cases heff with
      | kept hexit hk =>
          exact .of_quiet hk.portLog hexit (by simp)
      | accessed a hexit hcall hproc hacc _ hlog _ =>
          have hown : s.portAccessers a.port = s.sched.curptr := hasPortAccess_iff.mp hacc
          refine ⟨⟨[a], hlog, ?_⟩, fun p _ hx _ _ => absurd hx.1 hexit,
            fun _ _ _ hx _ _ => absurd hx (by simp)⟩
          intro b hb
          rw [List.mem_singleton] at hb
          rw [hb, hproc, ← hown]
          exact h.claimed a.port (hown ▸ hcur hcall)
      | claimed port hclaims _ _ hlog _ =>
          exact .of_quiet hlog (by simp [Action.call, hclaims.1]) (by simp)
      | exited hcall _ hlog _ _ =>
          refine ⟨⟨[], by rw [hlog, List.nil_append], by simp⟩, fun p port hx hle hacc => ?_,
            fun _ _ _ hx _ _ => absurd hx (by simp)⟩
          exact absurd hacc (hrel p port hx hle)
  | refused a hcreate hk =>
      refine ⟨⟨[], by rw [hk.portLog, List.nil_append], by simp⟩,
        fun p _ hx _ _ => absurd hx.1 (by simp [Action.call]),
        fun a' p port hx hcreate' hp => ?_⟩
      obtain rfl : a = a' := Action.create.inj hx
      rw [hcreate] at hcreate'
      exact absurd (congrArg Prod.snd (Option.some.inj hcreate')).symm hp
  | created a p hcreate hempty hports hlog _ =>
      refine ⟨⟨[], by rw [hlog, List.nil_append], by simp⟩,
        fun p _ hx _ _ => absurd hx.1 (by simp [Action.call]),
        fun a' r port hx hcreate' hr hacc => ?_⟩
      obtain rfl : a = a' := Action.create.inj hx
      rw [hcreate] at hcreate'
      obtain rfl : p = r := congrArg Prod.snd (Option.some.inj hcreate')
      rw [hasPortAccess_iff, hports] at hacc
      exact h.notMem_created hempty hr hacc
  | enqueued p hk => exact .of_quiet hk.portLog (by simp [Action.call]) (by simp)

omit [Layout] in
/-- A port that a process owns cannot be claimed by another. -/
theorem not_claimable (hp : p ≠ null) (hle : port ≤ 0xffff) (hown : s.portAccessers port = p) :
    ¬ Claimable s port := by
  intro hclaim
  have hmask : port &&& 0xffff = port := by
    apply BitVec.eq_of_toNat_eq
    have hnat : port.toNat ≤ 65535 := hle
    rw [toNat_and_ffff]
    omega
  have hne : p ≠ p + 1 := fun heq => by
    have hnat := congrArg BitVec.toNat heq
    rw [BitVec.toNat_add] at hnat
    have hlt := p.isLt
    change p.toNat = (p.toNat + 1) % 2 ^ 32 at hnat
    omega
  let t : Kernel := { s with
    sched := { s.sched with curptr := p + 1 }
    regs := fun _ => { ebxReg := port } }
  have hget : t.syscallClaimPort.portAccessers port = p + 1 := hclaim t rfl hmask
  have hrefused : t.syscallClaimPort = t.setErr (p + 1) Err.unavailable := by
    unfold syscallClaimPort
    dsimp only
    have hport : (t.regs t.sched.curptr).ebxReg &&& 0xffff = port := hmask
    rw [hport, if_pos]
    exact ⟨fun hnull => hp (hown.symm.trans hnull), fun hcur => hne (hown.symm.trans hcur)⟩
  rw [hrefused] at hget
  exact hne (hown.symm.trans hget)

/-- A lawful exit is that of a process that owns no port. -/
theorem Lawful.releasesPorts (h : Lawful s c x s') (hact : s.act x = some s') :
    ReleasesPorts s x := by
  intro p port hx hle hacc
  have hclaim := h.released p port hx hle hacc
  obtain ⟨hcall, rfl⟩ := hx
  have hown : s.portAccessers port = s.sched.curptr := hasPortAccess_iff.mp hacc
  cases actionEffect hact with
  | interrupt e hcur heff =>
      change e.call = some 0 at hcall
      have hp := hcur (by simp [hcall])
      cases heff with
      | kept hexit _ => exact hexit hcall
      | accessed _ hexit _ _ _ _ _ _ => exact hexit hcall
      | claimed _ hclaims _ _ _ _ => exact absurd (hcall.symm.trans hclaims.1) (by simp)
      | exited _ hports _ _ _ => exact not_claimable hp hle (by rw [hports, hown]) hclaim
  | refused a _ _ => exact absurd hcall (by simp [Action.call])
  | created a _ _ _ _ _ _ => exact absurd hcall (by simp [Action.call])
  | enqueued p _ => exact absurd hcall (by simp [Action.call])

/-! ## Runs -/

theorem PortInv.exclusive (h : PortInv s c) (hr : Machine.Run act LiveCaller s xs s')
    (hrel : Machine.Run act ReleasesPorts s xs s') : Exclusive s c xs := by
  induction hr generalizing c with
  | nil => exact h.owned
  | cons hlive hact _ ih =>
      cases hrel with
      | cons hreleases hact' hrest =>
          obtain rfl := Option.some.inj (hact.symm.trans hact')
          refine ⟨h.owned, fun s' hs' => ?_⟩
          obtain rfl := Option.some.inj (hact.symm.trans hs')
          exact ⟨h.lawful hact hreleases, ih (h.action hact hlive hreleases) hrest⟩

theorem Exclusive.releasesPorts (h : Exclusive s c xs)
    (hr : Machine.Run act LiveCaller s xs s') : Machine.Run act ReleasesPorts s xs s' := by
  induction hr generalizing c with
  | nil => exact .nil _
  | cons _ hact _ ih =>
      obtain ⟨hlawful, hrest⟩ := h.2 _ hact
      exact .cons (hlawful.releasesPorts hact) hact (ih hrest)

/-- A run from a state in which no port is claimed keeps to the law if and only if no process
exits in it that owns a port. -/
theorem ports_exclusive_iff (start : Kernel) (hstart : ∀ port, start.portAccessers port = null)
    (xs : List Action) (s : Kernel) (hr : Machine.Run act LiveCaller start xs s) :
    Exclusive start (fun _ _ => False) xs ↔ Machine.Run act ReleasesPorts start xs s := by
  constructor
  · intro h
    exact h.releasesPorts hr
  · intro hrel
    have hinv : PortInv start fun _ _ => False := by
      constructor
      · exact fun port hne => absurd (hstart port) hne
      · exact fun port hne => absurd (hstart port) hne
      · exact fun port hne => absurd (hstart port) hne
    exact hinv.exclusive hr hrel

/-- Without creation, the scheduler sees to it that the caller is alive. -/
theorem Reachable.liveCaller {procs : List Ptr} (h : Reachable procs s) (he : s.Enabled e) :
    LiveCaller s (.interrupt e) := by
  obtain ⟨q, m, hinv, hb⟩ := h.inv
  intro hcall
  obtain ⟨n, hn⟩ := Option.ne_none_iff_exists'.mp hcall
  have hmem := hb.caller_mem he hn
  have hstate := hinv.state _ (hinv.mem_procs hmem)
  rw [(hinv.running _).mp hmem] at hstate
  rw [hstate]
  rfl

/-- A process claims the primary channel of the disk controller. -/
def claimant : List Action :=
  [.create plainArgs, .enqueue (proctab 0), .interrupt .tick,
    .interrupt (.syscall { eaxReg := 6, ebxReg := 0x1f0 } 0)]

/-- And reads from it. -/
def reader : List Action := claimant ++ [.interrupt (.syscall { eaxReg := 5, ebxReg := 0x1f0 } 0x50)]

section

omit [Layout]

theorem releasesPorts_of_call (hcall : x.call ≠ some 0) : ReleasesPorts s x :=
  fun _ _ hx _ _ => hcall hx.1

/-- The claimant is given the port. -/
theorem ports_exclusive_iff_main :
    letI := Layout.sample
    ∃ s, Machine.Run act LiveCaller powerOn reader s ∧ s.portLog = [.inb (proctab 0) 0x1f0] ∧
      Exclusive powerOn (fun _ _ => False) reader := by
  let _ := Layout.sample
  let cond : Kernel → Action → Prop := fun s x => LiveCaller s x ∧ x.call ≠ some 0
  have hrun : (reader.foldlM (Machine.guarded act cond) powerOn).map (·.portLog) =
      some [.inb (proctab 0) 0x1f0] := by decide +kernel
  obtain ⟨s, hs, hlog⟩ := Option.map_eq_some_iff.mp hrun
  have hr : Machine.Run act cond powerOn reader s :=
    .of_foldlM (fun _ _ _ => Machine.of_guarded) hs
  have hlive : Machine.Run act LiveCaller powerOn reader s := hr.mono fun _ _ h => h.1
  exact ⟨s, hlive, hlog, (ports_exclusive_iff powerOn (fun _ => rfl) reader s hlive).mpr
    (hr.mono fun _ _ h => releasesPorts_of_call h.2)⟩

/-- The claimant exits, and the next process in its slot can access the port it has never
claimed. -/
theorem ports_exclusive_iff_fails :
    letI := Layout.sample
    ∃ s, Machine.Run act LiveCaller powerOn
        (claimant ++ [.interrupt (.syscall { eaxReg := 0 } 0), .create plainArgs]) s ∧
      s.state (proctab 0) = 0 ∧ s.hasPortAccess (proctab 0) 0x1f0 = true ∧
      ¬ Exclusive powerOn (fun _ _ => False)
        (claimant ++ [.interrupt (.syscall { eaxReg := 0 } 0), .create plainArgs]) := by
  let _ := Layout.sample
  have hrun : ((claimant.foldlM (Machine.guarded act LiveCaller) powerOn).bind fun s =>
      ([.interrupt (.syscall { eaxReg := 0 } 0), .create plainArgs].foldlM
        (Machine.guarded act LiveCaller) s).map fun t =>
          decide (s.hasPortAccess s.sched.curptr 0x1f0 = true ∧ t.state (proctab 0) = 0 ∧
            t.hasPortAccess (proctab 0) 0x1f0 = true)) = some true := by decide +kernel
  obtain ⟨s, hs, hrun⟩ := Option.bind_eq_some_iff.mp hrun
  obtain ⟨t, ht, heq⟩ := Option.map_eq_some_iff.mp hrun
  simp only [decide_eq_true_eq] at heq
  obtain ⟨hown, hstate, hacc⟩ := heq
  have hr₁ : Machine.Run act LiveCaller powerOn claimant s :=
    .of_foldlM (fun _ _ _ => Machine.of_guarded) hs
  have hr₂ := Machine.Run.of_foldlM (fun _ _ _ => Machine.of_guarded) ht
  have hr := hr₁.append hr₂
  refine ⟨t, hr, hstate, hacc, fun h => ?_⟩
  obtain ⟨s', hrel₁, hrel₂⟩ := (h.releasesPorts hr).split
  obtain rfl := hrel₁.unique hr₁
  cases hrel₂ with
  | cons hreleases _ _ => exact hreleases _ 0x1f0 ⟨rfl, rfl⟩ (by decide) hown

end

end Kernel

end Mycrokernel
