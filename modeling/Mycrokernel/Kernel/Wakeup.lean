import Mycrokernel.Kernel.Beyond

/-!
# Dispatch and wake-up

Two safety results about all runs.  `do_hard_int` only ever chooses a process that
can run (`dispatch_runnable`), and a process blocked in a receive has neither an
interrupt pending nor a message it would accept (`no_missed_wakeup`).  The second one needs that
nobody sets a feature, or sends to one, that is beyond the table.
-/

namespace Mycrokernel

open Function (update update_self update_of_ne)
open PointerList

namespace Kernel

open Rendezvous (Place)

variable [Layout] {procs : List Ptr} {ps : Finset Ptr} {s s' k : Kernel} {e : Event}
  {m m' : Rendezvous Ptr Nat} {p r x : Ptr}

/-! ## The chosen process -/

/-- The choice that `do_hard_int` leaves is a process that can run, or the idle task when
the run queue is empty. -/
structure Dispatchable (procs : List Ptr) (s : Kernel) : Prop where
  ne_null : s.sched.nextptr ≠ null
  idle_iff : s.sched.nextptr = idlestate ↔ s.sched.schedqueue.head = null
  mem : s.sched.nextptr ≠ idlestate → s.sched.nextptr ∈ procs
  enqueued : s.sched.nextptr ≠ idlestate → s.sched.isEnqueued s.sched.nextptr = true
  runnable : s.sched.nextptr ≠ idlestate → s.state s.sched.nextptr = 0

theorem IpcInv.dispatchable {q : List Ptr} (h : IpcInv procs.toFinset s q m)
    (hc : Chosen s.sched q) : Dispatchable procs s := by
  have hhead := h.queue.head_eq_null_iff
  rcases hc with hmem | ⟨hnil, hidle⟩
  · have hp := h.mem_procs hmem
    have hne := h.ne_idle hp
    refine ⟨h.ne_null hp, iff_of_false hne ?_, fun _ => List.mem_toFinset.1 hp, fun _ => ?_,
      fun _ => h.state_of_mem hmem⟩
    · rw [hhead]
      exact List.ne_nil_of_mem hmem
    · exact (h.queue.isEnqueued_iff _ hp).2 hmem
  · have hnone : ¬ s.sched.nextptr ≠ idlestate := not_not.2 hidle
    refine ⟨?_, iff_of_true hidle (hhead.2 hnil), fun h => absurd h hnone,
      fun h => absurd h hnone, fun h => absurd h hnone⟩
    rw [hidle]
    exact Layout.idlestate_ne_null

section

omit [Layout]

/-- No process that is blocked in a receive misses anything. -/
def NoneMissed (s : Kernel) (m : Rendezvous Ptr Nat) : Prop :=
  ∀ r, m.place r = .receiving →
    s.interrupts r = 0 ∧ ∀ x ∈ m.senders r, ¬ Accepts (s.receivingFrom r) x

theorem NoneMissed.start {boot : Kernel} {procs : List Ptr} :
    NoneMissed boot (allRunning procs) :=
  fun _ hr => absurd hr (allRunning_ne (by simp) (by simp))

theorem NoneMissed.congr (h : NoneMissed s m) (hi : s'.interrupts = s.interrupts)
    (hr : s'.receivingFrom = s.receivingFrom) : NoneMissed s' m := by
  unfold NoneMissed
  rw [hi, hr]
  exact h

/-- A process that does not move into a receive leaves the blocked receivers as they are. -/
theorem NoneMissed.moved {v : Ptr} {pl : Place Ptr Nat} {hp : (m.place p).Off} {hpl : pl.Off}
    (h : NoneMissed s m) (hne : pl ≠ .receiving) (hi : k.interrupts = s.interrupts)
    (hfrom : k.receivingFrom = update s.receivingFrom p v) :
    NoneMissed k (m.move p pl hp hpl) := by
  intro r hr
  have hrp : r ≠ p := by
    rintro rfl
    rw [Rendezvous.move_place, update_self] at hr
    exact hne hr
  rw [Rendezvous.move_place, update_of_ne hrp] at hr
  rw [hi, hfrom, Rendezvous.move_senders, update_of_ne hrp]
  exact h r hr

end

/-- Every effect leaves the blocked receivers without anything to miss. -/
theorem NoneMissed.effect {q : List Ptr} (h : NoneMissed s m) (hinv : IpcInv ps s q m)
    (heff : Effect ps s m p e k m') : NoneMissed k m' := by
  intro r hr
  cases heff with
  | quiet hq =>
    have hrp := hinv.place_mem r (by simp [hr])
    rw [hq.pends.of_receiving ((hinv.receiving_iff hrp).2 hr), hq.receivingFrom]
    exact h r hr
  | direct _ _ _ _ _ _ _ _ _ halike =>
    exact h.moved (by simp) halike.interrupts halike.receivingFrom r hr
  | @queued r' _ hp _ _ _ _ _ _ _ hnot _ halike =>
    have hne : r ≠ p := by
      rintro rfl
      simp at hr
    rw [Rendezvous.send_place, update_of_ne hne] at hr
    rw [halike.interrupts, halike.receivingFrom, Rendezvous.send_senders]
    obtain ⟨hint, hnone⟩ := h r hr
    refine ⟨hint, fun x hx => ?_⟩
    by_cases hrr : r = r'
    · subst hrr
      rw [update_self, List.mem_append, List.mem_singleton] at hx
      rcases hx with hx | rfl
      · exact hnone x hx
      · exact fun hacc => hnot ⟨hr, hacc⟩
    · rw [update_of_ne hrr] at hx
      exact hnone x hx
  | parked hp _ _ _ _ _ _ _ halike =>
    have hne : r ≠ p := by
      rintro rfl
      simp at hr
    rw [Rendezvous.wait_place, update_of_ne hne] at hr
    rw [halike.interrupts, halike.receivingFrom, Rendezvous.wait_senders]
    exact h r hr
  | @fetched w hw _ _ _ _ _ _ _ halike =>
    have hne : r ≠ w := by
      rintro rfl
      simp at hr
    rw [Rendezvous.take_place, update_of_ne hne] at hr
    rw [halike.interrupts, halike.receivingFrom, Rendezvous.take_senders]
    obtain ⟨hint, hnone⟩ := h r hr
    refine ⟨hint, fun x hx => hnone x ?_⟩
    by_cases hrp : r = p
    · subst hrp
      rw [update_self] at hx
      exact List.mem_of_mem_erase hx
    · rwa [update_of_ne hrp] at hx
  | listening hp _ _ _ hint hnone _ halike =>
    rw [halike.interrupts, halike.receivingFrom, Rendezvous.move_senders]
    by_cases hrp : r = p
    · subst hrp
      simp only [update_self]
      exact ⟨hint, hnone⟩
    · rw [Rendezvous.move_place, update_of_ne hrp] at hr
      simp only [update_of_ne hrp]
      exact h r hr
  | @adopted i _ _ hprun _ _ _ _ halike =>
    have hold : m.place r = .receiving := Rendezvous.place_of_adopt hr (by simp) (by simp)
    have hne : r ≠ p := by
      rintro rfl
      simp [hprun] at hold
    rw [halike.interrupts, halike.receivingFrom, Rendezvous.adopt_senders, update_of_ne hne]
    exact h r hold
  | exited hp _ _ _ _ _ _ hint hfrom _ _ _ _ _ =>
    have hne : r ≠ p := by
      rintro rfl
      simp at hr
    rw [Rendezvous.move_place, update_of_ne hne] at hr
    have hold : m.place r = .receiving := Rendezvous.place_of_release hr (by simp)
    rw [hint, hfrom, Rendezvous.move_senders, Rendezvous.release_senders, update_of_ne hne]
    exact h r hold
  | rung _ _ _ _ _ _ halike =>
    exact h.moved (by simp) halike.interrupts halike.receivingFrom r hr

end Kernel

end Mycrokernel
