import Mycrokernel.Kernel.Ports
import Mycrokernel.Kernel.Status
import Mycrokernel.Usr.Format
import Mycrokernel.Hd.Identify

/-!
# The ports of the disk driver

The driver claims the ports of the two controllers, and accesses no others while `identify`
does not find a device busy.  If it does, it reads two ports without their base
(`identifyLoop_busy`).

`Served` is a process in dialogue with the kernel, while the rest of the system goes on.  A
process that `claim_ports` has succeeded for owns the ports from then on, and the kernel does
not refuse it access to them.
-/

namespace Mycrokernel

open Function (update update_self update_of_ne)

/-- The port a system call accesses. -/
def Syscall.accessed : Syscall → Option Word
  | .inb port => some port
  | .inw port => some port
  | .outb port _ => some port
  | .outw port _ => some port
  | _ => none

/-- The system call accesses no port, or one that `claim_ports` claims. -/
def Syscall.Claimed (request : Syscall) : Prop :=
  ∀ port, request.accessed = some port → port ∈ claimedPorts

/-- The system call reads the alternate status of a controller. -/
def Syscall.ReadsStatus (request : Syscall) : Prop :=
  request = .inb (portbasePrimary ||| portAlternateStatus) ∨
    request = .inb (portbaseSecondary ||| portAlternateStatus)

/-- The reply is not the status of a device that is busy. -/
def Idle (request : Syscall) (reply : Reply) : Prop :=
  request.ReadsStatus → hasFailed reply.error = false → reply.value &&& bitBusy = 0

namespace Hd

variable {α β : Type} {ok : Syscall → Prop} {good : Syscall → Reply → Prop} {m : Hd α} {c : Channel}
  {channel : Ptr}

/-! ## Guarded statements -/

/-- The requests of a statement are in order while the replies are. -/
def Guarded (ok : Syscall → Prop) (good : Syscall → Reply → Prop) (m : Hd α) : Prop :=
  ∀ d, (m d).Guards ok good

theorem guarded_pure (a : α) : Guarded ok good (pure a) := fun _ => .done _

theorem guarded_modify (f : Driver → Driver) : Guarded ok good (modify f) := fun _ => .done _

theorem guarded_get : Guarded ok good get := fun _ => .done _

theorem guarded_spent : Guarded ok good (spent : Hd α) := fun _ => .stuck

theorem Guarded.bind {f : α → Hd β} (h : Guarded ok good m) (hf : ∀ a, Guarded ok good (f a)) :
    Guarded ok good (m >>= f) := by
  intro d
  refine (h d).bind ?_
  rintro ⟨_ | a, d'⟩
  · exact .done _
  · exact hf a d'

theorem Guarded.terror (h : Guarded ok good m) : Guarded ok good (terror m) :=
  fun d => (h d).bind fun _ => .done _

theorem Guarded.finish {m : Hd Unit} (h : Guarded ok good m) : Guarded ok good (finish m) :=
  fun d => (h d).bind fun _ => .done _

theorem guarded_forM {l : List β} {f : β → Hd Unit} (hf : ∀ b, Guarded ok good (f b)) :
    Guarded ok good (l.forM f) := by
  induction l with
  | nil => exact guarded_pure _
  | cons b l ih => exact (hf b).bind fun _ => ih

theorem guarded_call {request : Syscall} {result : Reply → α} (hok : ok request)
    (hgood : ∀ reply, good request reply) : Guarded ok good (call request result) :=
  fun _ => .ask hok (fun _ _ => .done _) fun _ hreply => absurd (hgood _) hreply

/-! ## The functions -/

/-- Only a status can be out of order. -/
def Lenient (good : Syscall → Reply → Prop) : Prop :=
  ∀ request reply, ¬ request.ReadsStatus → good request reply

theorem lenient_idle : Lenient Idle := fun _ _ hnot hreads => absurd hreads hnot

theorem lenient_any : Lenient fun _ _ => True := fun _ _ _ => trivial

/-- A port of a controller, whichever it is. -/
theorem portBase_claimed {offset : Word} (hprimary : portbasePrimary ||| offset ∈ claimedPorts)
    (hsecondary : portbaseSecondary ||| offset ∈ claimedPorts) :
    c.portBase ||| offset ∈ claimedPorts := by
  unfold Channel.portBase
  split
  next => exact hprimary
  next => exact hsecondary

theorem readsStatus_portBase (c : Channel) :
    (Syscall.inb (c.portBase ||| portAlternateStatus)).ReadsStatus := by
  unfold Channel.portBase
  split
  next => exact Or.inl rfl
  next => exact Or.inr rfl

section Functions

variable {port value : Word} (hlenient : Lenient good)
include hlenient

theorem guarded_outb (hport : port ∈ claimedPorts) :
    Guarded Syscall.Claimed good (callSyscallOutb port value) :=
  guarded_call (fun _ h => Option.some.inj h ▸ hport)
    fun _ => hlenient _ _ (by rintro (h | h) <;> cases h)

theorem guarded_outw (hport : port ∈ claimedPorts) :
    Guarded Syscall.Claimed good (callSyscallOutw port value) :=
  guarded_call (fun _ h => Option.some.inj h ▸ hport)
    fun _ => hlenient _ _ (by rintro (h | h) <;> cases h)

theorem guarded_inw (hport : port ∈ claimedPorts) :
    Guarded Syscall.Claimed good (callSyscallInw port) :=
  guarded_call (fun _ h => Option.some.inj h ▸ hport)
    fun _ => hlenient _ _ (by rintro (h | h) <;> cases h)

theorem guarded_outf (stack : Stack) (fmt : List Byte) :
    Guarded Syscall.Claimed good (outf stack fmt) := by
  intro d
  refine Dialogue.Guards.bind (Dialogue.Every.guards (R := fun _ => True) ?_) fun _ => .done _
  refine (outf_requests stack 1 fmt).mono ?_ fun _ _ => trivial
  rintro _ _ ⟨message, block, rfl⟩
  exact ⟨fun _ h => absurd h (by simp [Syscall.accessed]),
    fun _ => hlenient _ _ (by rintro (h | h) <;> cases h)⟩

theorem guarded_doSelectDrive (channel : Ptr) :
    Guarded Syscall.Claimed good (doSelectDrive channel) := by
  refine Guarded.finish (guarded_get.bind fun d => ?_)
  refine (guarded_outb hlenient (portBase_claimed (by decide) (by decide))).terror.bind fun _ => ?_
  exact guarded_modify _

theorem guarded_selectDrive (channel : Ptr) :
    Guarded Syscall.Claimed good (selectDrive channel) := by
  refine guarded_get.bind fun d => ?_
  split
  next => exact guarded_doSelectDrive hlenient channel
  next => exact guarded_pure _

end Functions

/-! ## Sectors -/

/-- The requests of a statement are in order, whatever the replies are. -/
abbrev Clean (m : Hd α) : Prop := Guarded Syscall.Claimed (fun _ _ => True) m

theorem clean_errSet (error : Word) : Clean (terror (errSet error)) :=
  Guarded.terror (guarded_modify _)

theorem clean_checkAta (channel : Ptr) : Clean (checkAta channel) := by
  refine guarded_get.bind fun d => ?_
  split
  next => exact clean_errSet _
  next => exact guarded_pure _

theorem clean_checkNumber (number : Word) : Clean (checkNumber c number) := by
  unfold checkNumber
  split
  next => exact clean_errSet _
  next => exact guarded_pure _

theorem clean_status (c : Channel) :
    Clean (terror (callSyscallInb (c.portBase ||| portAlternateStatus))) := by
  refine Guarded.terror (guarded_call (fun port h => ?_) fun _ => trivial)
  obtain rfl := Option.some.inj h
  exact portBase_claimed (by decide) (by decide)

theorem clean_waitForData (n : Nat) (status : Word) : Clean (waitForData c n status) := by
  induction n generalizing status with
  | zero => exact guarded_spent
  | succ n ih =>
      unfold waitForData
      split
      next => exact guarded_pure _
      next =>
        refine Guarded.bind (Guarded.terror (guarded_call
          (fun _ h => absurd h (by simp [Syscall.accessed])) fun _ => trivial)) fun _ => ?_
        refine guarded_get.bind fun d => ?_
        split
        next => exact ih status
        next => exact (clean_status c).bind fun status => ih status

theorem clean_transferSector {command number : Word} {transfer : Channel → Nat → Hd Unit}
    (fuel : Nat) (htransfer : ∀ c i, Clean (transfer c i)) :
    Clean (transferSector command transfer fuel number channel) := by
  have hout : ∀ {c : Channel} {offset value : Word},
      portbasePrimary ||| offset ∈ claimedPorts → portbaseSecondary ||| offset ∈ claimedPorts →
      Clean (terror (callSyscallOutb (c.portBase ||| offset) value)) :=
    fun hprimary hsecondary => (guarded_outb lenient_any (portBase_claimed hprimary hsecondary)).terror
  refine Guarded.finish ?_
  refine (clean_checkAta channel).terror.bind fun _ => ?_
  refine Guarded.bind (Guarded.terror (guarded_pure _)) fun _ => guarded_get.bind fun d => ?_
  refine (clean_checkNumber number).bind fun _ => ?_
  refine (guarded_selectDrive lenient_any channel).terror.bind fun _ => ?_
  refine (hout (by decide) (by decide)).bind fun _ => ?_
  refine (hout (by decide) (by decide)).bind fun _ => ?_
  refine (hout (by decide) (by decide)).bind fun _ => ?_
  refine (hout (by decide) (by decide)).bind fun _ => ?_
  refine (hout (by decide) (by decide)).bind fun _ => ?_
  refine (hout (by decide) (by decide)).bind fun _ => ?_
  refine (clean_status _).bind fun status => (clean_waitForData fuel status).bind fun _ => ?_
  exact guarded_forM fun i => htransfer _ i

theorem clean_readSector (fuel : Nat) (number buffer : Word) :
    Clean (readSector fuel number channel buffer) := by
  refine clean_transferSector fuel fun c i => ?_
  refine Guarded.terror (Guarded.bind ?_ fun value => guarded_modify _)
  exact guarded_inw lenient_any (portBase_claimed (by decide) (by decide))

theorem clean_writeSector (fuel : Nat) (number buffer : Word) :
    Clean (writeSector fuel number channel buffer) := by
  refine clean_transferSector fuel fun c i => ?_
  refine Guarded.bind (Guarded.bind guarded_get fun d => guarded_pure _) fun value => ?_
  refine (guarded_outw lenient_any ?_).terror
  unfold Channel.portBase
  split
  next => decide
  next => decide

/-! ## Identification -/

variable {frames : Nat → Stack}

theorem guarded_readBuffer (n : Nat) : Guarded Syscall.Claimed Idle (readBuffer c n) := by
  induction n with
  | zero => exact guarded_pure _
  | succ n ih =>
      refine Guarded.bind (Guarded.terror (guarded_inw lenient_idle
        (portBase_claimed (by decide) (by decide)))) fun value => ?_
      exact ih.bind fun buffer => guarded_pure _

theorem guarded_doAta : Guarded Syscall.Claimed Idle (doAta frames c channel) := by
  have hout := fun stack fmt => guarded_outf lenient_idle stack fmt
  refine Guarded.finish ((guarded_readBuffer 256).bind fun buffer => ?_)
  refine (guarded_modify _).bind fun _ => ?_
  refine (hout _ _).bind fun _ => (hout _ _).bind fun _ => (hout _ _).bind fun _ => ?_
  refine (hout _ _).bind fun _ => (hout _ _).bind fun _ => (hout _ _).bind fun _ => ?_
  exact (hout _ _).bind fun _ => hout _ _

theorem guarded_identified {suspect : Controller} {value : Word} :
    Guarded Syscall.Claimed Idle (identified frames c channel suspect value) := by
  have hout := fun stack fmt => guarded_outf lenient_idle stack fmt
  unfold identified
  split
  next =>
    refine (hout _ _).bind fun _ => (hout _ _).bind fun _ => ?_
    exact guarded_doAta.terror.bind fun _ => guarded_modify _
  next =>
    split
    next => exact (hout _ _).terror.bind fun _ => guarded_modify _
    next =>
      split
      next => exact (hout _ _).terror.bind fun _ => guarded_modify _
      next => exact guarded_pure _

/-- When a device is busy, the driver goes on with a port that it has not claimed. -/
theorem identifyLoop_busy {n : Nat} {value : Word} (hbusy : value &&& bitBusy ≠ 0) (d : Driver) :
    (identifyLoop c (n + 1) value false d).request = some (.inb portLbaMid) := by
  rw [identifyLoop, if_neg hbusy]
  rfl

/-- The first status is all that counts. -/
theorem guarded_status {f : Word → Hd β}
    (hidle : ∀ value, value &&& bitBusy = 0 → Guarded Syscall.Claimed Idle (f value))
    (hbusy : ∀ value, value &&& bitBusy ≠ 0 → ∀ d, (f value d).request = some (.inb portLbaMid)) :
    Guarded Syscall.Claimed Idle
      (terror (callSyscallInb (c.portBase ||| portAlternateStatus)) >>= f) := by
  intro d
  unfold callSyscallInb
  rw [terror_call_bind]
  refine .ask (fun port h => ?_) (fun reply hgood => ?_) fun reply hbad => ?_
  · obtain rfl := Option.some.inj h
    exact portBase_claimed (by decide) (by decide)
  · split
    next => exact .done _
    next hok => exact hidle _ (hgood (readsStatus_portBase c) (by simpa using hok)) _
  · have hbad : hasFailed reply.error = false ∧ reply.value &&& bitBusy ≠ 0 := by
      unfold Idle at hbad
      rw [not_forall] at hbad
      obtain ⟨-, hbad⟩ := hbad
      rwa [Classical.not_imp] at hbad
    rw [hbad.1]
    refine ⟨_, hbusy _ hbad.2 _, fun hclaimed => ?_⟩
    exact absurd (hclaimed portLbaMid rfl) (by decide)

theorem guarded_identify (fuel : Nat) :
    Guarded Syscall.Claimed Idle (identify frames (fuel + 1) channel) := by
  have hout : ∀ {c : Channel} {offset value : Word},
      portbasePrimary ||| offset ∈ claimedPorts → portbaseSecondary ||| offset ∈ claimedPorts →
      Guarded Syscall.Claimed Idle (terror (callSyscallOutb (c.portBase ||| offset) value)) :=
    fun hprimary hsecondary =>
      (guarded_outb lenient_idle (portBase_claimed hprimary hsecondary)).terror
  refine Guarded.bind (Guarded.finish ?_) fun _ => guarded_get.bind fun d => ?_
  · refine (guarded_selectDrive lenient_idle channel).terror.bind fun _ => ?_
    refine guarded_get.bind fun d => ?_
    refine (hout (by decide) (by decide)).bind fun _ => ?_
    refine (hout (by decide) (by decide)).bind fun _ => ?_
    refine (hout (by decide) (by decide)).bind fun _ => ?_
    refine (hout (by decide) (by decide)).bind fun _ => ?_
    refine (hout (by decide) (by decide)).bind fun _ => ?_
    refine guarded_status (fun value hidle => ?_) fun value hbusy d => ?_
    · split
      next => exact guarded_modify _
      next =>
        rw [identifyLoop, if_pos hidle]
        exact guarded_identified
    · rw [if_neg fun hzero => hbusy (by rw [hzero]; rfl)]
      exact Dialogue.request_bind (identifyLoop_busy hbusy d)
  · dsimp only
    split
    next =>
      exact guarded_call (fun _ h => absurd h (by simp [Syscall.accessed]))
        fun _ => lenient_idle _ _ (by rintro (h | h) <;> cases h)
    next => exact guarded_pure _

end Hd

/-! ## Processes and the kernel -/

/-- The registers with which a stub makes a system call. -/
def Asks (regs : Regs) : Syscall → Prop
  | .receive sender buffer length =>
    regs.eaxReg = 2 ∧ regs.ebxReg = sender ∧ regs.edxReg = buffer ∧ regs.ecxReg = length
  | .sendByFeature feature message block =>
    regs.eaxReg = 3 ∧ regs.ebxReg = feature ∧ regs.ecxReg.toNat = message.length ∧
      regs.ediReg = block
  | .requestIrq irq => regs.eaxReg = 4 ∧ regs.ebxReg = irq
  | .inb port => regs.eaxReg = 5 ∧ regs.ebxReg = port
  | .claimPort port => regs.eaxReg = 6 ∧ regs.ebxReg = port
  | .outb port value => regs.eaxReg = 7 ∧ regs.ebxReg = port ∧ regs.ecxReg = value
  | .inw port => regs.eaxReg = 8 ∧ regs.ebxReg = port
  | .outw port value => regs.eaxReg = 9 ∧ regs.ebxReg = port ∧ regs.ecxReg = value

/-- The system call is over when the kernel has handled it: it does not wait for another
process. -/
def Syscall.Immediate : Syscall → Prop
  | .receive .. => False
  | .sendByFeature .. => False
  | _ => True

namespace Kernel

variable [Layout] {s s' s'' : Kernel} {p port : Word} {x : Action} {regs : Regs} {input : Word}
  {log : List (Syscall × Reply)}

/-- The process `p` makes system calls, with these replies, while the rest of the system does
what it will.  The replies to calls that are not over at once can be anything. -/
inductive Served (p : Ptr) : Kernel → List (Syscall × Reply) → Kernel → Prop where
  | nil (s : Kernel) : Served p s [] s
  | other {s s' s'' : Kernel} {x : Action} {log : List (Syscall × Reply)} :
      (x.call ≠ none → s.sched.curptr ≠ p) → s.act x = some s' → Served p s' log s'' →
      Served p s log s''
  | call {s s' s'' : Kernel} {regs : Regs} {input : Word} {request : Syscall} {reply : Reply}
      {log : List (Syscall × Reply)} :
      s.sched.curptr = p → Asks regs request →
      s.act (.interrupt (.syscall regs input)) = some s' →
      (request.Immediate → reply = ⟨(s'.regs p).eaxReg, (s'.regs p).esiReg⟩) →
      Served p s' log s'' → Served p s ((request, reply) :: log) s''

/-! ## Owning a port -/

/-- No action takes a port from its owner. -/
theorem owned_act (hp : p ≠ null) (hown : s.portAccessers port = p) (hact : s.act x = some s') :
    s'.portAccessers port = p := by
  cases actionEffect hact with
  | interrupt e _ heff =>
      cases heff with
      | kept _ hkept => rwa [hkept.portAccessers]
      | accessed _ _ _ _ _ hports => rwa [hports]
      | exited _ hports => rwa [hports]
      | claimed taken hclaims _ hports =>
          rw [hports]
          cases Decidable.em (port = taken) with
          | inr hne => rwa [update_of_ne hne]
          | inl heq =>
              subst heq
              rw [update_self]
              rcases hclaims.2.2 with hnull | hcur
              · exact absurd (hown.symm.trans hnull) hp
              · exact hcur.symm.trans hown
  | refused _ _ hkept => rwa [hkept.portAccessers]
  | created _ _ _ _ hports => rwa [hports]
  | enqueued _ hkept => rwa [hkept.portAccessers]

theorem Served.owned (h : Served p s log s') (hp : p ≠ null) (hown : s.portAccessers port = p) :
    s'.portAccessers port = p := by
  induction h with
  | nil => exact hown
  | other _ hact _ ih => exact ih (owned_act hp hown hact)
  | call _ _ hact _ _ ih => exact ih (owned_act hp hown hact)

/-- A step that makes a system call, and what it leaves. -/
theorem act_syscall (h : s.act (.interrupt (.syscall regs input)) = some s') :
    ∃ t k : Kernel, t.sched.curptr = s.sched.curptr ∧ t.regs s.sched.curptr = regs ∧
      t.portAccessers = s.portAccessers ∧ t.syscallIsr input = some k ∧ s'.regs = k.regs ∧
      s'.portAccessers = k.portAccessers := by
  have henabled := enabled_of_step h
  have hstep : s.step (.syscall regs input) = some s' := h
  rw [Kernel.step, if_pos henabled] at hstep
  obtain ⟨t, ht, rfl⟩ := Option.map_eq_some_iff.mp hstep
  obtain ⟨k, hk, rfl⟩ := Option.map_eq_some_iff.mp ht
  have hsaved := saved s regs
  exact ⟨s.saveContext regs, k, by rw [hsaved.sched], hsaved.regs_cur henabled.1,
    (portsKept_saveContext s regs).portAccessers, hk, (resumed k _).regs,
    (portsKept_finish k _).portAccessers⟩

/-- A claim that has not failed. -/
theorem claimed_of_reply (h : s.act (.interrupt (.syscall regs input)) = some s')
    (hasks : Asks regs (.claimPort port)) (hport : port &&& 0xffff = port)
    (hok : hasFailed (s'.regs s.sched.curptr).esiReg = false) :
    s'.portAccessers port = s.sched.curptr := by
  obtain ⟨t, k, hcur, hregs, hports, hisr, hregs', hports'⟩ := act_syscall h
  obtain ⟨heax, hebx⟩ := hasks
  rw [hregs'] at hok
  rw [hports']
  rw [← hcur] at hregs hok ⊢
  rw [syscallIsr, hregs, heax] at hisr
  obtain rfl := Option.some.inj hisr
  unfold syscallClaimPort at hok ⊢
  dsimp only at hok ⊢
  rw [hregs, hebx, hport] at hok ⊢
  split at hok
  next hrefused =>
    rw [setErr_regs_self] at hok
    have hfailed : hasFailed Err.unavailable = false := hok
    exact absurd hfailed (by decide)
  next hfree =>
    rw [if_neg hfree]
    exact update_self ..

omit [Layout] in
theorem esiReg_access {t u : Kernel} {refused : Bool} (h : refused = false) :
    ((if refused then t.setErr p Err.noPerms else u.setErr p Err.ok).regs p).esiReg = Err.ok := by
  rw [h, if_neg (by decide), setErr_regs_self]

/-- The owner of a port is not refused access to it. -/
theorem accessed_of_owned {request : Syscall} (h : s.act (.interrupt (.syscall regs input)) = some s')
    (hasks : Asks regs request) (haccess : request.accessed = some port)
    (hport : port &&& 0xffff = port) (hown : s.portAccessers port = s.sched.curptr) :
    (s'.regs s.sched.curptr).esiReg = Err.ok := by
  obtain ⟨t, k, hcur, hregs, hports, hisr, hregs', -⟩ := act_syscall h
  have hacc : regs.ebxReg = port →
      (!t.hasPortAccess t.sched.curptr ((t.regs t.sched.curptr).ebxReg &&& 0xffff)) = false := by
    intro hebx
    rw [hcur, hregs, hebx, hport, Bool.not_eq_false', hasPortAccess_iff, hports]
    exact hown
  rw [hregs', ← hcur]
  rw [syscallIsr, hcur, hregs] at hisr
  cases request with
  | receive => exact absurd haccess (by simp [Syscall.accessed])
  | sendByFeature => exact absurd haccess (by simp [Syscall.accessed])
  | claimPort => exact absurd haccess (by simp [Syscall.accessed])
  | requestIrq => exact absurd haccess (by simp [Syscall.accessed])
  | inb =>
      rw [hasks.1] at hisr
      obtain rfl := Option.some.inj hisr
      exact esiReg_access (hacc (hasks.2.trans (Option.some.inj haccess)))
  | inw =>
      rw [hasks.1] at hisr
      obtain rfl := Option.some.inj hisr
      exact esiReg_access (hacc (hasks.2.trans (Option.some.inj haccess)))
  | outb =>
      rw [hasks.1] at hisr
      obtain rfl := Option.some.inj hisr
      exact esiReg_access (hacc (hasks.2.1.trans (Option.some.inj haccess)))
  | outw =>
      rw [hasks.1] at hisr
      obtain rfl := Option.some.inj hisr
      exact esiReg_access (hacc (hasks.2.1.trans (Option.some.inj haccess)))

/-! ## Conversations -/

omit [Layout] in
theorem claimed_low : ∀ port ∈ claimedPorts, port &&& 0xffff = port := by
  have hall : claimedPorts.all (fun port => port &&& 0xffff == port) = true := by decide
  exact fun port hmem => eq_of_beq (List.all_eq_true.mp hall port hmem)

/-- The caller is a process. -/
theorem caller_ne_null (h : s.act (.interrupt (.syscall regs input)) = some s') :
    s.sched.curptr ≠ null :=
  (enabled_of_step (show s.step (.syscall regs input) = some s' from h)).1

/-- A process owns the ports it has claimed in a conversation. -/
theorem Served.claimed {reply : Reply} (h : Served p s log s')
    (hmem : (Syscall.claimPort port, reply) ∈ log) (hport : port &&& 0xffff = port)
    (hok : hasFailed reply.error = false) : p ≠ null ∧ s'.portAccessers port = p := by
  induction h with
  | nil => exact absurd hmem (by simp)
  | other _ _ _ ih => exact ih hmem
  | call hcur hasks hact hreply hrest ih =>
      cases hmem with
      | tail _ hmem => exact ih hmem
      | head =>
          have hp : p ≠ null := hcur ▸ caller_ne_null hact
          rw [hreply trivial, ← hcur] at hok
          have hown := claimed_of_reply hact hasks hport hok
          exact ⟨hp, hrest.owned hp (hown.trans hcur)⟩

/-- A process that owns the ports is not refused access to them. -/
theorem Served.accesses (h : Served p s log s') (hp : p ≠ null)
    (hown : ∀ port ∈ claimedPorts, s.portAccessers port = p)
    (hlog : ∀ entry ∈ log, entry.1.Claimed) :
    ∀ entry ∈ log, entry.1.accessed ≠ none → entry.2.error = Err.ok := by
  induction h with
  | nil => exact nofun
  | other _ hact _ ih => exact ih (fun port hmem => owned_act hp (hown port hmem) hact) hlog
  | @call s _ _ regs input request reply log hcur hasks hact hreply _ ih =>
      rw [List.forall_mem_cons] at hlog ⊢
      refine ⟨fun haccess => ?_, ih (fun port hmem => owned_act hp (hown port hmem) hact) hlog.2⟩
      obtain ⟨port, haccess⟩ := Option.ne_none_iff_exists'.mp haccess
      have hmem := hlog.1 port haccess
      have himmediate : request.Immediate := by
        cases request with
        | receive => exact absurd haccess (by simp [Syscall.accessed])
        | sendByFeature => exact absurd haccess (by simp [Syscall.accessed])
        | _ => trivial
      rw [hreply himmediate, ← hcur]
      exact accessed_of_owned hact hasks haccess (claimed_low port hmem) ((hown port hmem).trans hcur.symm)

/-- `claim_ports` has succeeded for the process, at some time. -/
def HasClaimed (p : Ptr) (s : Kernel) : Prop :=
  ∃ (start claimed : Kernel) (first later : List (Syscall × Reply)) (d : Driver)
    (r : Option Unit × Driver), Served p start first claimed ∧ (Hd.claimPorts d).Run first r ∧
      hasFailed r.2.error = false ∧ Served p claimed later s

end Kernel

namespace Hd

/-- In a run of claims that ends without an error, each has succeeded. -/
theorem forM_claims {l : List Word} {d : Driver} {log : List (Syscall × Reply)}
    {r : Option Unit × Driver}
    (hrun : (l.forM (fun port => terror (callSyscallClaimPort port)) d).Run log r)
    (hok : hasFailed r.2.error = false) :
    ∀ port ∈ l, ∃ reply, (Syscall.claimPort port, reply) ∈ log ∧ hasFailed reply.error = false := by
  induction l generalizing d log with
  | nil => exact nofun
  | cons port l ih =>
      change ((terror (callSyscallClaimPort port) >>= fun _ =>
        l.forM fun port => terror (callSyscallClaimPort port)) d).Run log r at hrun
      unfold callSyscallClaimPort at hrun
      rw [terror_call_bind] at hrun
      cases hrun with
      | @ask _ _ reply log _ hrun =>
          dsimp only at hrun
          split at hrun
          next hfailed =>
            cases hrun
            exact absurd hok (by simp [hfailed])
          next hreply =>
            rw [List.forall_mem_cons]
            refine ⟨⟨reply, List.mem_cons_self, by simpa using hreply⟩, fun port' hmem => ?_⟩
            obtain ⟨reply', hmem', hok'⟩ := ih hrun port' hmem
            exact ⟨reply', List.mem_cons_of_mem _ hmem', hok'⟩

theorem claimPorts_claims {d : Driver} {log : List (Syscall × Reply)} {r : Option Unit × Driver}
    (hrun : (claimPorts d).Run log r) (hok : hasFailed r.2.error = false) :
    ∀ port ∈ claimedPorts,
      ∃ reply, (Syscall.claimPort port, reply) ∈ log ∧ hasFailed reply.error = false := by
  obtain ⟨first, r', rest, rfl, hfirst, hrest⟩ := hrun.of_bind
  cases hrest
  rw [List.append_nil]
  exact forM_claims hfirst hok

end Hd

namespace Kernel

variable [Layout] {s : Kernel} {p : Ptr}

/-- A process for which `claim_ports` has succeeded owns the ports. -/
theorem HasClaimed.owns (h : HasClaimed p s) :
    p ≠ null ∧ ∀ port ∈ claimedPorts, s.portAccessers port = p := by
  obtain ⟨start, claimed, first, later, d, r, hfirst, hrun, hok, hlater⟩ := h
  have howned : ∀ port ∈ claimedPorts, p ≠ null ∧ claimed.portAccessers port = p := by
    intro port hmem
    obtain ⟨reply, hreply, hok'⟩ := Hd.claimPorts_claims hrun hok port hmem
    exact hfirst.claimed hreply (claimed_low port hmem) hok'
  have hp := (howned portbasePrimary (by decide)).1
  exact ⟨hp, fun port hmem => hlater.owned hp (howned port hmem).2⟩

end Kernel

/-! ## The driver -/

/-- The functions of the driver that access ports. -/
inductive PortUser where
  | identify (frames : Nat → Stack) (fuel : Nat)
  | doSelectDrive
  | readSector (fuel : Nat) (number buffer : Word)
  | writeSector (fuel : Nat) (number buffer : Word)

namespace PortUser

/-- A call of the function. -/
def statement (user : PortUser) (channel : Ptr) : Hd Unit :=
  match user with
  | identify frames fuel => Hd.identify frames (fuel + 1) channel
  | doSelectDrive => Hd.doSelectDrive channel
  | readSector fuel number buffer => Hd.readSector fuel number channel buffer
  | writeSector fuel number buffer => Hd.writeSector fuel number channel buffer

/-- The status that `identify` reads is not that of a busy device. -/
def InOrder (user : PortUser) (log : List (Syscall × Reply)) : Prop :=
  match user with
  | identify .. => ∀ entry ∈ log, Idle entry.1 entry.2
  | _ => True

theorem requests_iff (user : PortUser) (channel : Ptr) (d : Driver) (replies : List Reply) :
    (∀ request ∈ (user.statement channel d).asked replies, request.Claimed) ↔
      user.InOrder ((user.statement channel d).answered replies) := by
  have hclean : ∀ {m : Hd Unit}, Hd.Clean m → ∀ request ∈ (m d).asked replies, request.Claimed :=
    fun h => ((h d).iff replies).mpr fun _ _ => trivial
  cases user with
  | identify frames fuel => exact (Hd.guarded_identify fuel d).iff replies
  | doSelectDrive =>
      exact iff_of_true (hclean (Hd.guarded_doSelectDrive Hd.lenient_any channel)) trivial
  | readSector fuel number buffer =>
      exact iff_of_true (hclean (Hd.clean_readSector fuel number buffer)) trivial
  | writeSector fuel number buffer =>
      exact iff_of_true (hclean (Hd.clean_writeSector fuel number buffer)) trivial

end PortUser

/-- The kernel does not refuse a process access to a port in a conversation, if `claim_ports` has
succeeded for the process before. -/
def NeverRefused [Layout] (log : List (Syscall × Reply)) : Prop :=
  ∀ p (s s' : Kernel), s.HasClaimed p → s.Served p log s' →
    ∀ entry ∈ log, entry.1.accessed ≠ none → entry.2.error ≠ Err.noPerms

/-- The functions of the driver access the ports only that `claim_ports` claims, and the kernel
does not refuse them access after `claim_ports` has succeeded, if and only if the status that
`identify` reads is not that of a busy device. -/
theorem driver_ports_iff [Layout] (user : PortUser) (channel : Ptr) (d : Driver)
    (replies : List Reply) :
    ((∀ request ∈ (user.statement channel d).asked replies, request.Claimed) ∧
      NeverRefused ((user.statement channel d).answered replies)) ↔
      user.InOrder ((user.statement channel d).answered replies) := by
  refine Iff.trans (and_iff_left_of_imp fun hrequests => ?_) (user.requests_iff channel d replies)
  intro p s s' hclaimed hserved entry hentry haccess
  obtain ⟨hp, howns⟩ := hclaimed.owns
  have hok := hserved.accesses hp howns (fun entry hentry =>
    hrequests entry.1 (Dialogue.fst_mem_asked hentry)) entry hentry haccess
  rw [hok]
  decide

/-- A device that is busy makes `identify` read port 4. -/
theorem driver_ports_fails : ∃ (user : PortUser) (channel : Ptr) (d : Driver) (replies : List Reply),
    ¬ ∀ request ∈ (user.statement channel d).asked replies, request.Claimed := by
  refine ⟨.identify default 0, 1, { (default : Driver) with
    channels := fun _ => { controller := .unknown, lbaSectors := 0, busInfo := 3 } },
    List.replicate 6 ⟨0, 0⟩ ++ [⟨0x80, 0⟩], fun h => ?_⟩
  have hport := h (.inb 4) (by decide) 4 rfl
  exact absurd hport (by decide)

end Mycrokernel
