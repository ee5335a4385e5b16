import Mycrokernel.Kernel.Create
import Mathlib.Order.Bounds.Basic

/-!
# The search for a slot

The loop of `create_process` that looks for an `EMPTY` slot has no end of its own: in each turn it
compares the entry with `pproctab[MAX_NO_PROCS]`.  The table of `table.hla` has `MAX_NO_PROCS`
entries, so this is the word behind it, and what stands there is not known.

The loop ends all the same, since it comes to that word itself in the end.  But it ends earlier when
the word happens to be the address of a slot.  `slot_search_iff` says what is left of a search of
the table.
-/

namespace Mycrokernel

/-- What the loop looks at: an entry of `pproctab`, or the state of the slot an entry points to. -/
inductive Look where
  | entry (i : Nat)
  | state (i : Nat)
deriving DecidableEq

namespace Kernel

variable [Layout] {s : Kernel} {n m idx i j : Nat} {slot slot' : Option Ptr}
  {looked looked' : List Look}

/-- The loop as it runs, with what it looks at: the slot that it breaks with, or no slot if it goes
to `finish`.  It has no result when there are no turns left. -/
def searchSlot (s : Kernel) : Nat → Nat → Option (Option Ptr × List Look)
  | 0, _ => none
  | n + 1, idx =>
    let process := proctab idx
    if process = proctab maxNoProcs then some (none, [.entry idx, .entry maxNoProcs])
    else if s.state process = Flag.empty then
      some (some process, [.entry idx, .entry maxNoProcs, .state idx])
    else
      (s.searchSlot n (idx + 1)).map fun (slot, looked) =>
        (slot, .entry idx :: .entry maxNoProcs :: .state idx :: looked)

/-- The loop ends with this slot, and this is what it has looked at. -/
def Ends (s : Kernel) (slot : Option Ptr) (looked : List Look) : Prop :=
  ∃ n, s.searchSlot n 0 = some (slot, looked)

/-- The indices of the slots that are `EMPTY`. -/
def emptySlots (s : Kernel) : Set Nat := { i | i < maxNoProcs ∧ s.state (proctab i) = Flag.empty }

/-- The loop ends. -/
def Terminates (s : Kernel) : Prop := ∃ slot looked, s.Ends slot looked

/-- The loop looks at entries of the table only. -/
def LooksInside (s : Kernel) : Prop :=
  ∀ slot looked, s.Ends slot looked → ∀ i, .entry i ∈ looked → i < maxNoProcs

/-- The loop looks into slots of the table only. -/
def LooksIntoSlots (s : Kernel) : Prop :=
  ∀ slot looked, s.Ends slot looked → ∀ i, .state i ∈ looked → i < maxNoProcs

/-- The loop selects the `EMPTY` slot with the lowest index. -/
def SelectsLowest (s : Kernel) : Prop :=
  ∀ i, IsLeast s.emptySlots i → ∃ looked, s.Ends (some (proctab i)) looked

/-- Without an `EMPTY` slot `create_process` returns `NULL`, and nothing has changed. -/
def RefusesFull (s : Kernel) : Prop :=
  s.emptySlots = ∅ → ∀ a, s.createProcess a = some (s, null)

/-- The search is one of the table. -/
structure SearchesTable (s : Kernel) : Prop where
  terminates : s.Terminates
  inside : s.LooksInside
  lowest : s.SelectsLowest
  full : s.RefusesFull

/-! ## The loop as it runs -/

theorem searchSlot_succ (h : s.searchSlot n idx = some (slot, looked)) :
    s.searchSlot (n + 1) idx = some (slot, looked) := by
  induction n generalizing idx slot looked with
  | zero => cases h
  | succ n ih =>
    rw [searchSlot] at h ⊢
    dsimp only at h ⊢
    split
    next hend => rwa [if_pos hend] at h
    next hend =>
      rw [if_neg hend] at h
      split
      next hempty => rwa [if_pos hempty] at h
      next hempty =>
        rw [if_neg hempty] at h
        obtain ⟨⟨slot₁, looked₁⟩, hrest, heq⟩ := Option.map_eq_some_iff.1 h
        rw [ih hrest, Option.map_some, heq]

theorem searchSlot_mono (h : s.searchSlot n idx = some (slot, looked)) (hle : n ≤ m) :
    s.searchSlot m idx = some (slot, looked) := by
  induction hle with
  | refl => exact h
  | step _ ih => exact searchSlot_succ ih

/-- The loop ends in one way. -/
theorem Ends.unique (h : s.Ends slot looked) (h' : s.Ends slot' looked') :
    slot = slot' ∧ looked = looked' := by
  obtain ⟨n, hn⟩ := h
  obtain ⟨m, hm⟩ := h'
  have heq := (searchSlot_mono hn (Nat.le_max_left n m)).symm.trans
    (searchSlot_mono hm (Nat.le_max_right n m))
  exact Prod.mk.inj (Option.some.inj heq)

/-- The loop ends at the word behind the table at the latest.  In its first turn it looks there. -/
theorem exists_searchSlot (hn : n + idx = maxNoProcs) :
    ∃ looked, s.searchSlot (n + 1) idx = some (s.emptySlot (n + 1) idx, looked) ∧
      .entry maxNoProcs ∈ looked ∧ ∀ i, .state i ∈ looked → i < maxNoProcs := by
  induction n generalizing idx with
  | zero =>
    obtain rfl : idx = maxNoProcs := by omega
    refine ⟨[.entry maxNoProcs, .entry maxNoProcs], ?_, List.mem_cons_self, by simp⟩
    rw [searchSlot, emptySlot]
    dsimp only
    rw [if_pos rfl, if_pos rfl]
  | succ n ih =>
    have hlt : idx < maxNoProcs := by omega
    rw [searchSlot, emptySlot]
    dsimp only
    split
    next => exact ⟨_, rfl, by simp, by simp⟩
    next =>
      split
      next => exact ⟨_, rfl, by simp, by simp [hlt]⟩
      next =>
        obtain ⟨looked, hrest, -, hinto⟩ := @ih (idx + 1) (by omega)
        rw [hrest]
        exact ⟨_, rfl, by simp, by simpa [hlt] using hinto⟩

/-- The loop of `create_process` comes to what `createProcess` goes on with. -/
theorem exists_ends (s : Kernel) :
    ∃ looked, s.Ends (s.emptySlot (maxNoProcs + 1) 0) looked ∧ .entry maxNoProcs ∈ looked ∧
      ∀ i, .state i ∈ looked → i < maxNoProcs := by
  obtain ⟨looked, hrun, hmem, hinto⟩ := exists_searchSlot (s := s) (Nat.add_zero maxNoProcs)
  exact ⟨looked, ⟨_, hrun⟩, hmem, hinto⟩

theorem ends_iff : (∃ looked, s.Ends slot looked) ↔ s.emptySlot (maxNoProcs + 1) 0 = slot := by
  obtain ⟨looked, hends, -⟩ := s.exists_ends
  constructor
  · rintro ⟨_, hends'⟩
    exact (hends.unique hends').1
  · rintro rfl
    exact ⟨looked, hends⟩

/-! ## What it selects -/

/-- The slots from `idx` on and below `i` are in use. -/
def UsedFrom (s : Kernel) (idx i : Nat) : Prop :=
  ∀ j, idx ≤ j → j < i → s.state (proctab j) ≠ Flag.empty

/-- The loop passes the slots that are in use, if none of them is what stands behind the table. -/
theorem emptySlot_pass (hused : s.UsedFrom idx i) (hle : idx ≤ i) (hi : i ≤ n + idx)
    (hne : ∀ j, idx ≤ j → j < i → proctab j ≠ proctab maxNoProcs) :
    s.emptySlot (n + 1) idx = s.emptySlot (n + idx - i + 1) i := by
  induction hd : i - idx generalizing idx n with
  | zero =>
    obtain rfl : idx = i := by omega
    rw [Nat.add_sub_cancel]
  | succ d ih =>
    obtain ⟨n, rfl⟩ : ∃ m, n = m + 1 := ⟨n - 1, by omega⟩
    rw [emptySlot, if_neg (hne idx (Nat.le_refl idx) (by omega)),
      if_neg (hused idx (Nat.le_refl idx) (by omega)),
      ih (fun j hj => hused j (by omega)) (by omega) (by omega) (fun j hj => hne j (by omega))
        (by omega)]
    congr 1
    omega

theorem emptySlot_stop (hend : proctab i = proctab maxNoProcs) : s.emptySlot (n + 1) i = none := by
  rw [emptySlot]
  exact if_pos hend

theorem emptySlot_take (hne : proctab i ≠ proctab maxNoProcs)
    (hempty : s.state (proctab i) = Flag.empty) : s.emptySlot (n + 1) i = some (proctab i) := by
  rw [emptySlot, if_neg hne, if_pos hempty]

/-- With the slots below `i` in use, the loop comes to `i` if it does not end before. -/
theorem emptySlot_lowest (hi : IsLeast s.emptySlots i) :
    s.emptySlot (maxNoProcs + 1) 0 = some (proctab i) ↔
      ∀ j ≤ i, proctab j ≠ proctab maxNoProcs := by
  have hlt : i < maxNoProcs := hi.1.1
  have hused : s.UsedFrom 0 i := fun j _ hj hempty =>
    absurd (hi.2 ⟨hj.trans hlt, hempty⟩) (Nat.not_le.2 hj)
  constructor
  · intro hfound
    by_contra hsome
    simp only [not_forall, not_not] at hsome
    -- the first entry that is what stands behind the table
    have hfirst : ∃ j, proctab j = proctab maxNoProcs := hsome.imp fun _ h => h.2
    have hbound : Nat.find hfirst ≤ i := by
      obtain ⟨j, hj, heq⟩ := hsome
      exact (Nat.find_min' hfirst heq).trans hj
    rw [emptySlot_pass (fun j h hj => hused j h (hj.trans_le hbound)) (Nat.zero_le _)
      (by omega) (fun j _ hj => Nat.find_min hfirst hj), emptySlot_stop (Nat.find_spec hfirst)]
      at hfound
    cases hfound
  · intro hne
    rw [emptySlot_pass hused (Nat.zero_le i) (by omega) (fun j _ hj => hne j hj.le),
      emptySlot_take (hne i (Nat.le_refl i)) hi.1.2]

/-! ## What the loop looks at and selects -/

theorem terminates (s : Kernel) : s.Terminates := by
  obtain ⟨looked, hends, -⟩ := s.exists_ends
  exact ⟨_, looked, hends⟩

/-- The loop looks behind the table. -/
theorem not_looksInside (s : Kernel) : ¬ s.LooksInside := by
  intro hinside
  obtain ⟨looked, hends, hmem, -⟩ := s.exists_ends
  exact absurd (hinside _ looked hends maxNoProcs hmem) (Nat.lt_irrefl _)

theorem looksIntoSlots (s : Kernel) : s.LooksIntoSlots := by
  intro slot looked hends
  obtain ⟨looked', hends', -, hinto⟩ := s.exists_ends
  obtain ⟨-, rfl⟩ := hends.unique hends'
  exact hinto

theorem selectsLowest_iff (s : Kernel) : s.SelectsLowest ↔
    ∀ i, IsLeast s.emptySlots i → ∀ j ≤ i, proctab j ≠ proctab maxNoProcs := by
  unfold SelectsLowest
  simp only [ends_iff]
  exact forall₂_congr fun i hi => emptySlot_lowest hi

theorem refusesFull (s : Kernel) : s.RefusesFull := by
  intro hfull a
  have hnone : s.emptySlot (maxNoProcs + 1) 0 = none := by
    rw [Option.eq_none_iff_forall_ne_some]
    intro p hp
    obtain ⟨hempty, i, hi, rfl⟩ := emptySlot_spec hp (Nat.le_refl _)
    have hmem : i ∈ s.emptySlots := ⟨hi, hempty⟩
    rw [hfull] at hmem
    exact hmem
  rw [createProcess, hnone]

/-- The loop looks at the word behind the table, which is not an entry, in every case.  Apart from
that it ends, looks into slots only, and leaves a full table alone; and it selects the lowest slot
unless that word is the address of this slot or of one before it. -/
theorem slot_search_iff (s : Kernel) :
    ¬ s.SearchesTable ∧ s.Terminates ∧ s.LooksIntoSlots ∧ s.RefusesFull ∧
      (s.SelectsLowest ↔
        ∀ i, IsLeast s.emptySlots i → ∀ j ≤ i, proctab j ≠ proctab maxNoProcs) :=
  ⟨fun h => s.not_looksInside h.inside, s.terminates, s.looksIntoSlots, s.refusesFull,
    s.selectsLowest_iff⟩

omit [Layout] in
/-- With all slots free the loop takes the first one, and has looked behind the table. -/
theorem slot_search_fails :
    letI := Layout.sample
    ∃ looked, powerOn.Ends (some (proctab 0)) looked ∧ .entry maxNoProcs ∈ looked ∧
      ¬ SearchesTable powerOn := by
  let _ := Layout.sample
  have hends : powerOn.Ends (some (proctab 0)) [.entry 0, .entry maxNoProcs, .state 0] :=
    ⟨1, by decide⟩
  refine ⟨_, hends, by decide, fun h => ?_⟩
  exact absurd (h.inside _ _ hends maxNoProcs (by decide)) (by decide)

end Kernel

end Mycrokernel
