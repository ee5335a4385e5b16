import Mathlib.Data.List.Nodup
import Mathlib.Logic.Function.Basic

/-!
# Rendezvous

Processes that pass messages without buffers.  A process that finds no partner
blocks: in a receive, on the list of senders of a receiver, or on the list of
those that wait at an *entry*, a name no receiver stands behind yet.  When a
receiver adopts an entry, the list of the entry becomes its list of senders.

`Rendezvous` holds the place of every process together with the lists, and its
fields say that the two agree: a process is on the list its place names, once,
and on no other.  An operation on it moves processes between places and takes a
proof that the process is where it moves from.
-/

namespace Rendezvous

open Function (update update_self update_of_ne)

/-- Where a process is. -/
inductive Place (α ι : Type*) where
  /-- Not blocked. -/
  | running
  /-- Blocked in a receive. -/
  | receiving
  /-- On the list of senders of a receiver. -/
  | sending (receiver : α)
  /-- On the list of an entry. -/
  | waiting (entry : ι)
  /-- Blocked, but on no list. -/
  | stranded
  /-- No longer there. -/
  | exited

namespace Place

variable {α ι : Type*}

/-- The place is on no list. -/
def Off : Place α ι → Prop
  | sending _ | waiting _ => False
  | _ => True

@[simp] theorem off_running : (running : Place α ι).Off := trivial
@[simp] theorem off_receiving : (receiving : Place α ι).Off := trivial
@[simp] theorem off_stranded : (stranded : Place α ι).Off := trivial
@[simp] theorem off_exited : (exited : Place α ι).Off := trivial
@[simp] theorem not_off_sending (r : α) : ¬ (sending r : Place α ι).Off := id
@[simp] theorem not_off_waiting (i : ι) : ¬ (waiting i : Place α ι).Off := id

theorem Off.ne_sending {pl : Place α ι} (h : pl.Off) (r : α) : pl ≠ .sending r := by
  rintro rfl
  exact h

theorem Off.ne_waiting {pl : Place α ι} (h : pl.Off) (i : ι) : pl ≠ .waiting i := by
  rintro rfl
  exact h

end Place

end Rendezvous

/-- The places of the processes and the lists they are on. -/
structure Rendezvous (α ι : Type*) where
  place : α → Rendezvous.Place α ι
  /-- The senders blocked on a receiver, the first one first. -/
  senders : α → List α
  /-- The senders blocked at an entry, the first one first. -/
  waiters : ι → List α
  mem_senders : ∀ {r p}, p ∈ senders r ↔ place p = .sending r
  mem_waiters : ∀ {i p}, p ∈ waiters i ↔ place p = .waiting i
  senders_nodup : ∀ r, (senders r).Nodup
  waiters_nodup : ∀ i, (waiters i).Nodup

namespace Rendezvous

open Function (update update_self update_of_ne)

variable {α ι : Type*} [DecidableEq α] [DecidableEq ι] {p r x : α} {i : ι}

/-- No lists: every process is at its place alone. -/
def idle (place : α → Place α ι) (h : ∀ p, (place p).Off) : Rendezvous α ι where
  place := place
  senders _ := []
  waiters _ := []
  mem_senders {r p} := by simpa using (h p).ne_sending r
  mem_waiters {i p} := by simpa using (h p).ne_waiting i
  senders_nodup _ := List.nodup_nil
  waiters_nodup _ := List.nodup_nil

variable (m : Rendezvous α ι)

omit [DecidableEq α] [DecidableEq ι] in
theorem off_of_running {m : Rendezvous α ι} (h : m.place p = .running) : (m.place p).Off :=
  h ▸ Place.off_running

omit [DecidableEq α] [DecidableEq ι] in
theorem off_of_receiving {m : Rendezvous α ι} (h : m.place p = .receiving) : (m.place p).Off :=
  h ▸ Place.off_receiving

/-- `p` changes its place, both places being off the lists. -/
def move (p : α) (pl : Place α ι) (hp : (m.place p).Off) (hpl : pl.Off) : Rendezvous α ι where
  place := update m.place p pl
  senders := m.senders
  waiters := m.waiters
  mem_senders {r x} := by
    by_cases hx : x = p
    · subst hx
      rw [update_self, m.mem_senders]
      exact iff_of_false (hp.ne_sending r) (hpl.ne_sending r)
    · rw [update_of_ne hx, m.mem_senders]
  mem_waiters {i x} := by
    by_cases hx : x = p
    · subst hx
      rw [update_self, m.mem_waiters]
      exact iff_of_false (hp.ne_waiting i) (hpl.ne_waiting i)
    · rw [update_of_ne hx, m.mem_waiters]
  senders_nodup := m.senders_nodup
  waiters_nodup := m.waiters_nodup

/-- `p` joins the senders of `r`. -/
def send (p r : α) (hp : (m.place p).Off) : Rendezvous α ι where
  place := update m.place p (.sending r)
  senders := update m.senders r (m.senders r ++ [p])
  waiters := m.waiters
  mem_senders {r' x} := by
    by_cases hr : r' = r
    · subst hr
      rw [update_self, List.mem_append, List.mem_singleton, m.mem_senders]
      by_cases hx : x = p
      · simp [hx]
      · simp [hx]
    · rw [update_of_ne hr, m.mem_senders]
      by_cases hx : x = p
      · subst hx
        rw [update_self]
        exact iff_of_false (hp.ne_sending r') (by simpa using Ne.symm hr)
      · rw [update_of_ne hx]
  mem_waiters {i x} := by
    rw [m.mem_waiters]
    by_cases hx : x = p
    · subst hx
      rw [update_self]
      exact iff_of_false (hp.ne_waiting i) (by simp)
    · rw [update_of_ne hx]
  senders_nodup r' := by
    by_cases hr : r' = r
    · subst hr
      rw [update_self]
      refine List.nodup_append.2 ⟨m.senders_nodup r', List.nodup_singleton p, ?_⟩
      rintro x hx y hy rfl
      rw [List.mem_singleton.1 hy, m.mem_senders] at hx
      exact hp.ne_sending r' hx
    · rw [update_of_ne hr]
      exact m.senders_nodup r'
  waiters_nodup := m.waiters_nodup

/-- `p` joins those that wait at the entry `i`. -/
def wait (p : α) (i : ι) (hp : (m.place p).Off) : Rendezvous α ι where
  place := update m.place p (.waiting i)
  senders := m.senders
  waiters := update m.waiters i (m.waiters i ++ [p])
  mem_senders {r x} := by
    rw [m.mem_senders]
    by_cases hx : x = p
    · subst hx
      rw [update_self]
      exact iff_of_false (hp.ne_sending r) (by simp)
    · rw [update_of_ne hx]
  mem_waiters {j x} := by
    by_cases hj : j = i
    · subst hj
      rw [update_self, List.mem_append, List.mem_singleton, m.mem_waiters]
      by_cases hx : x = p
      · simp [hx]
      · simp [hx]
    · rw [update_of_ne hj, m.mem_waiters]
      by_cases hx : x = p
      · subst hx
        rw [update_self]
        exact iff_of_false (hp.ne_waiting j) (by simpa using Ne.symm hj)
      · rw [update_of_ne hx]
  senders_nodup := m.senders_nodup
  waiters_nodup j := by
    by_cases hj : j = i
    · subst hj
      rw [update_self]
      refine List.nodup_append.2 ⟨m.waiters_nodup j, List.nodup_singleton p, ?_⟩
      rintro x hx y hy rfl
      rw [List.mem_singleton.1 hy, m.mem_waiters] at hx
      exact hp.ne_waiting j hx
    · rw [update_of_ne hj]
      exact m.waiters_nodup j

/-- `r` takes the sender `p` off its list. -/
def take (p r : α) (hp : m.place p = .sending r) : Rendezvous α ι where
  place := update m.place p .running
  senders := update m.senders r ((m.senders r).erase p)
  waiters := m.waiters
  mem_senders {r' x} := by
    by_cases hr : r' = r
    · subst hr
      rw [update_self, (m.senders_nodup r').mem_erase_iff, m.mem_senders]
      by_cases hx : x = p
      · simp [hx]
      · simp [hx]
    · rw [update_of_ne hr, m.mem_senders]
      by_cases hx : x = p
      · subst hx
        rw [update_self, hp]
        exact iff_of_false (by simpa using Ne.symm hr) (by simp)
      · rw [update_of_ne hx]
  mem_waiters {i x} := by
    rw [m.mem_waiters]
    by_cases hx : x = p
    · subst hx
      rw [update_self, hp]
      exact iff_of_false (by simp) (by simp)
    · rw [update_of_ne hx]
  senders_nodup r' := by
    by_cases hr : r' = r
    · subst hr
      rw [update_self]
      exact (m.senders_nodup r').erase p
    · rw [update_of_ne hr]
      exact m.senders_nodup r'
  waiters_nodup := m.waiters_nodup

/-- `r` lets all its senders go. -/
def release (r : α) : Rendezvous α ι where
  place x := if x ∈ m.senders r then .running else m.place x
  senders := update m.senders r []
  waiters := m.waiters
  mem_senders {r' x} := by
    by_cases hx : x ∈ m.senders r
    · rw [if_pos hx]
      by_cases hr : r' = r
      · simp [hr]
      · rw [update_of_ne hr, m.mem_senders, m.mem_senders.1 hx]
        exact iff_of_false (by simpa using Ne.symm hr) (by simp)
    · rw [if_neg hx]
      by_cases hr : r' = r
      · subst hr
        rw [update_self]
        exact iff_of_false (by simp) fun h => hx (m.mem_senders.2 h)
      · rw [update_of_ne hr, m.mem_senders]
  mem_waiters {i x} := by
    rw [m.mem_waiters]
    by_cases hx : x ∈ m.senders r
    · rw [if_pos hx, m.mem_senders.1 hx]
      exact iff_of_false (by simp) (by simp)
    · rw [if_neg hx]
  senders_nodup r' := by
    by_cases hr : r' = r
    · simp [hr]
    · rw [update_of_ne hr]
      exact m.senders_nodup r'
  waiters_nodup := m.waiters_nodup

/-- `r` takes over the list of the entry `i`.  Whoever was on the list of `r` before is
on no list now. -/
def adopt (r : α) (i : ι) : Rendezvous α ι where
  place x :=
    if x ∈ m.waiters i then .sending r else if x ∈ m.senders r then .stranded else m.place x
  senders := update m.senders r (m.waiters i)
  waiters := update m.waiters i []
  mem_senders {r' x} := by
    by_cases hw : x ∈ m.waiters i
    · rw [if_pos hw]
      by_cases hr : r' = r
      · simp [hr, hw]
      · rw [update_of_ne hr, m.mem_senders, m.mem_waiters.1 hw]
        exact iff_of_false (by simp) (by simpa using Ne.symm hr)
    · rw [if_neg hw]
      by_cases hr : r' = r
      · subst hr
        rw [update_self]
        refine iff_of_false hw ?_
        split
        · simp
        next hs => exact fun h => hs (m.mem_senders.2 h)
      · rw [update_of_ne hr, m.mem_senders]
        split
        next hs =>
          rw [m.mem_senders.1 hs]
          exact iff_of_false (by simpa using Ne.symm hr) (by simp)
        · rfl
  mem_waiters {j x} := by
    by_cases hw : x ∈ m.waiters i
    · rw [if_pos hw]
      refine iff_of_false ?_ (by simp)
      by_cases hj : j = i
      · simp [hj]
      · rw [update_of_ne hj, m.mem_waiters, m.mem_waiters.1 hw]
        simpa using Ne.symm hj
    · rw [if_neg hw]
      by_cases hj : j = i
      · subst hj
        rw [update_self]
        refine iff_of_false (by simp) ?_
        split
        · simp
        · exact fun h => hw (m.mem_waiters.2 h)
      · rw [update_of_ne hj, m.mem_waiters]
        split
        next hs =>
          rw [m.mem_senders.1 hs]
          exact iff_of_false (by simp) (by simp)
        · rfl
  senders_nodup r' := by
    by_cases hr : r' = r
    · rw [hr, update_self]
      exact m.waiters_nodup i
    · rw [update_of_ne hr]
      exact m.senders_nodup r'
  waiters_nodup j := by
    by_cases hj : j = i
    · simp [hj]
    · rw [update_of_ne hj]
      exact m.waiters_nodup j

variable {m} {q : Place α ι}

/-! ## What the operations do to the places and the lists -/

omit [DecidableEq α] [DecidableEq ι] in
@[simp] theorem idle_place (place : α → Place α ι) (h : ∀ p, (place p).Off) :
    (idle place h).place = place := rfl

section

omit [DecidableEq ι]

@[simp] theorem move_place (hp : (m.place p).Off) (hq : q.Off) :
    (m.move p q hp hq).place = update m.place p q := rfl

@[simp] theorem move_senders (hp : (m.place p).Off) (hq : q.Off) :
    (m.move p q hp hq).senders = m.senders := rfl

@[simp] theorem move_waiters (hp : (m.place p).Off) (hq : q.Off) :
    (m.move p q hp hq).waiters = m.waiters := rfl

@[simp] theorem send_place (hp : (m.place p).Off) :
    (m.send p r hp).place = update m.place p (.sending r) := rfl

@[simp] theorem send_senders (hp : (m.place p).Off) :
    (m.send p r hp).senders = update m.senders r (m.senders r ++ [p]) := rfl

@[simp] theorem send_waiters (hp : (m.place p).Off) : (m.send p r hp).waiters = m.waiters := rfl

end

@[simp] theorem wait_place (hp : (m.place p).Off) :
    (m.wait p i hp).place = update m.place p (.waiting i) := rfl

@[simp] theorem wait_senders (hp : (m.place p).Off) : (m.wait p i hp).senders = m.senders := rfl

@[simp] theorem wait_waiters (hp : (m.place p).Off) :
    (m.wait p i hp).waiters = update m.waiters i (m.waiters i ++ [p]) := rfl

section

omit [DecidableEq ι]

@[simp] theorem take_place (hp : m.place p = .sending r) :
    (m.take p r hp).place = update m.place p .running := rfl

@[simp] theorem take_senders (hp : m.place p = .sending r) :
    (m.take p r hp).senders = update m.senders r ((m.senders r).erase p) := rfl

@[simp] theorem take_waiters (hp : m.place p = .sending r) :
    (m.take p r hp).waiters = m.waiters := rfl

@[simp] theorem release_senders : (m.release r).senders = update m.senders r [] := rfl

@[simp] theorem release_waiters : (m.release r).waiters = m.waiters := rfl

end

@[simp] theorem adopt_senders : (m.adopt r i).senders = update m.senders r (m.waiters i) := rfl

@[simp] theorem adopt_waiters : (m.adopt r i).waiters = update m.waiters i [] := rfl

omit [DecidableEq ι] in
theorem release_place_of_sending (hx : m.place x = .sending r) :
    (m.release r).place x = .running := if_pos (m.mem_senders.2 hx)

omit [DecidableEq ι] in
theorem release_place_of_ne (hx : m.place x ≠ .sending r) :
    (m.release r).place x = m.place x := if_neg fun h => hx (m.mem_senders.1 h)

theorem adopt_place_of_waiting (hx : m.place x = .waiting i) :
    (m.adopt r i).place x = .sending r := if_pos (m.mem_waiters.2 hx)

theorem adopt_place_of_sending (hx : m.place x = .sending r) :
    (m.adopt r i).place x = .stranded := by
  refine (if_neg fun h => ?_).trans (if_pos (m.mem_senders.2 hx))
  rw [m.mem_waiters, hx] at h
  exact absurd h (by simp)

theorem adopt_place_of_ne (hw : m.place x ≠ .waiting i) (hs : m.place x ≠ .sending r) :
    (m.adopt r i).place x = m.place x :=
  (if_neg fun h => hw (m.mem_waiters.1 h)).trans (if_neg fun h => hs (m.mem_senders.1 h))

omit [DecidableEq ι] in
/-- A process is released, or stays where it is. -/
theorem release_cases : (m.place x = .sending r ∧ (m.release r).place x = .running) ∨
    (m.place x ≠ .sending r ∧ (m.release r).place x = m.place x) := by
  by_cases hs : m.place x = .sending r
  · exact Or.inl ⟨hs, release_place_of_sending hs⟩
  · exact Or.inr ⟨hs, release_place_of_ne hs⟩

omit [DecidableEq ι] in
/-- Who is blocked after a release has been so before. -/
theorem place_of_release {a : Place α ι} (hx : (m.release r).place x = a) (ha : a ≠ .running) :
    m.place x = a := by
  obtain ⟨-, hnew⟩ | ⟨-, hsame⟩ := release_cases (m := m) (r := r) (x := x)
  · exact absurd (hx.symm.trans hnew) ha
  · exact hsame.symm.trans hx

/-- A process is taken over, stranded, or stays where it is. -/
theorem adopt_cases : (m.place x = .waiting i ∧ (m.adopt r i).place x = .sending r) ∨
    (m.place x = .sending r ∧ (m.adopt r i).place x = .stranded) ∨
    (m.place x ≠ .waiting i ∧ m.place x ≠ .sending r ∧ (m.adopt r i).place x = m.place x) := by
  by_cases hw : m.place x = .waiting i
  · exact Or.inl ⟨hw, adopt_place_of_waiting hw⟩
  · by_cases hs : m.place x = .sending r
    · exact Or.inr (Or.inl ⟨hs, adopt_place_of_sending hs⟩)
    · exact Or.inr (Or.inr ⟨hw, hs, adopt_place_of_ne hw hs⟩)

/-- Who is neither a sender nor stranded after it is taken over has not moved. -/
theorem place_of_adopt {a : Place α ι} (hx : (m.adopt r i).place x = a) (hs : a ≠ .sending r)
    (ha : a ≠ .stranded) : m.place x = a := by
  obtain ⟨-, hnew⟩ | ⟨-, hnew⟩ | ⟨-, -, hsame⟩ := adopt_cases (m := m) (r := r) (i := i) (x := x)
  · exact absurd (hx.symm.trans hnew) hs
  · exact absurd (hx.symm.trans hnew) ha
  · exact hsame.symm.trans hx

/-! ## Disjointness -/

section

omit [DecidableEq α] [DecidableEq ι]

/-- Lists of different receivers have no process in common. -/
theorem senders_disjoint (hr : x ∈ m.senders r) {r' : α} (hx : x ∈ m.senders r') : r' = r := by
  rw [m.mem_senders] at hr hx
  rw [hr] at hx
  exact (Place.sending.inj hx).symm

theorem waiters_disjoint (hi : x ∈ m.waiters i) {j : ι} (hx : x ∈ m.waiters j) : j = i := by
  rw [m.mem_waiters] at hi hx
  rw [hi] at hx
  exact (Place.waiting.inj hx).symm

theorem notMem_waiters (hr : x ∈ m.senders r) : x ∉ m.waiters i := by
  rw [m.mem_senders] at hr
  rw [m.mem_waiters, hr]
  simp

theorem notMem_senders_of_off (hx : (m.place x).Off) : x ∉ m.senders r := by
  rw [m.mem_senders]
  exact hx.ne_sending r

theorem notMem_waiters_of_off (hx : (m.place x).Off) : x ∉ m.waiters i := by
  rw [m.mem_waiters]
  exact hx.ne_waiting i

end

end Rendezvous
