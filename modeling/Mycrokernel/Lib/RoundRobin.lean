import Mathlib.Algebra.Order.BigOperators.Group.List
import Mathlib.Algebra.Order.Ring.Nat
import Mathlib.Logic.Function.Iterate
import Mathlib.Data.List.Basic

/-!
# Round robin in sweeps

Schedulers that go through a list again and again from its head.  A *sweep* visits a
prefix of the list and returns to the head, and the members differ in how often they
are visited by how far the sweeps go.

*Visits.*  `Sweeps` says what a step may do: it goes on to the next member or back to the
head, a sweep that starts with the head at its full allowance goes to the end, and
the allowance of the head goes down with every visit.  Then everybody is visited
within a bound in the allowance of the head (`Sweeps.visits`).

*Shares.*  `Turn` is a moment in a cycle in which every member is visited as often as
its share says.  Its fields say that the visits fit the shares and that what is left of
them does not grow along the list.  The operations move to the next moment.  A step that
follows them visits everybody according to the shares in each cycle (`Counted.block`).
-/

namespace RoundRobin

/-! ## Visits -/

section Visits

variable {σ α : Type*} {step : σ → σ} {cur : σ → α} {left : σ → Nat} {full Inv : σ → Prop}
  {head x y : α} {tail l₁ l₂ : List α} {s : σ}

/-- The machine goes through `head :: tail` in sweeps.  `left` is what is left of the
allowance of the head, and `full` says that nothing is used of that of the current member. -/
structure Sweeps (step : σ → σ) (cur : σ → α) (left : σ → Nat) (full Inv : σ → Prop)
    (head : α) (tail : List α) : Prop where
  inv : ∀ s, Inv s → Inv (step s)
  mem : ∀ s, Inv s → cur s ∈ head :: tail
  last : ∀ s l, Inv s → head :: tail = l ++ [cur s] → cur (step s) = head
  next : ∀ s l₁ y l₂, Inv s → head :: tail = l₁ ++ cur s :: y :: l₂ →
    cur (step s) = y ∨ cur (step s) = head
  full_next : ∀ s l₁ y l₂, Inv s → full s → head :: tail = l₁ ++ cur s :: y :: l₂ →
    cur (step s) = y ∧ full (step s)
  pos : ∀ s, Inv s → cur s = head → 0 < left s
  left_head : ∀ s, Inv s → cur s = head →
    (cur (step s) = head ∧ full (step s)) ∨ left (step s) + 1 = left s
  left_tail : ∀ s, Inv s → cur s ≠ head →
    (cur (step s) = head ∧ full (step s)) ∨ left (step s) = left s

theorem Sweeps.inv_iterate (h : Sweeps step cur left full Inv head tail) (n : Nat) :
    ∀ s, Inv s → Inv (step^[n] s) := by
  induction n with
  | zero => exact fun s hs => hs
  | succ n ih =>
    intro s hs
    rw [Function.iterate_succ_apply]
    exact ih _ (h.inv s hs)

/-- From a member behind the head a sweep returns to the head. -/
theorem Sweeps.returns (h : Sweeps step cur left full Inv head tail) (l₂ : List α) :
    ∀ s l₁, Inv s → cur s ≠ head → head :: tail = l₁ ++ cur s :: l₂ →
      ∃ t ≤ l₂.length + 1, cur (step^[t] s) = head ∧
        (full (step^[t] s) ∨ left (step^[t] s) = left s) := by
  induction l₂ with
  | nil =>
    intro s l₁ hs hne hq
    refine ⟨1, by simp, h.last s l₁ hs hq, ?_⟩
    exact (h.left_tail s hs hne).imp_left And.right
  | cons y l₂ ih =>
    intro s l₁ hs hne hq
    rcases h.left_tail s hs hne with ⟨hhead, hfull⟩ | hleft
    · exact ⟨1, by simp, hhead, Or.inl hfull⟩
    by_cases hhead : cur (step s) = head
    · exact ⟨1, by simp, hhead, Or.inr hleft⟩
    · have hy := (h.next s l₁ y l₂ hs hq).resolve_right hhead
      obtain ⟨t, ht, hcur, hrest⟩ := ih (step s) (l₁ ++ [cur s]) (h.inv s hs) hhead
        (by rw [hy, hq, List.append_assoc, List.singleton_append])
      refine ⟨t + 1, by rw [List.length_cons]; omega, hcur, hrest.imp_right ?_⟩
      intro heq
      rw [Function.iterate_succ_apply, heq, hleft]

/-- A sweep that does not use up the allowance of the head takes one off it. -/
theorem Sweeps.sweep (h : Sweeps step cur left full Inv head tail) (hs : Inv s)
    (hcur : cur s = head) : ∃ t ≤ tail.length + 1, 0 < t ∧ cur (step^[t] s) = head ∧
      (full (step^[t] s) ∨ left (step^[t] s) + 1 = left s) := by
  rcases h.left_head s hs hcur with ⟨hhead, hfull⟩ | hleft
  · exact ⟨1, by omega, Nat.one_pos, hhead, Or.inl hfull⟩
  by_cases hhead : cur (step s) = head
  · exact ⟨1, by omega, Nat.one_pos, hhead, Or.inr hleft⟩
  cases tail with
  | nil => exact absurd (h.last s [] hs (by rw [hcur, List.nil_append])) hhead
  | cons y tail =>
    have hy := (h.next s [] y tail hs (by rw [hcur, List.nil_append])).resolve_right hhead
    obtain ⟨t, ht, hcur', hrest⟩ := h.returns tail (step s) [head] (h.inv s hs) hhead
      (by rw [hy, List.singleton_append])
    refine ⟨t + 1, by rw [List.length_cons]; omega, Nat.succ_pos t, hcur', hrest.imp_right ?_⟩
    intro heq
    rw [Function.iterate_succ_apply, heq, hleft]

/-- The allowance of the head is renewed.  The induction is on what is left of it. -/
theorem Sweeps.renews (h : Sweeps step cur left full Inv head tail) (n : Nat) :
    ∀ s, Inv s → cur s = head → left s ≤ n →
      ∃ t ≤ (tail.length + 1) * n, cur (step^[t] s) = head ∧ full (step^[t] s) := by
  induction n with
  | zero =>
    intro s hs hcur hn
    have hpos := h.pos s hs hcur
    omega
  | succ n ih =>
    intro s hs hcur hn
    obtain ⟨t, ht, -, hhead, hfull | hleft⟩ := h.sweep hs hcur
    · refine ⟨t, ?_, hhead, hfull⟩
      rw [Nat.mul_succ]
      omega
    · obtain ⟨u, hu, hhead', hfull'⟩ := ih _ (h.inv_iterate t s hs) hhead (by omega)
      refine ⟨u + t, ?_, ?_, ?_⟩
      · rw [Nat.mul_succ]
        omega
      · rw [Function.iterate_add_apply]
        exact hhead'
      · rw [Function.iterate_add_apply]
        exact hfull'

/-- A full member passes on to all that come behind it. -/
theorem Sweeps.passes (h : Sweeps step cur left full Inv head tail) (l₂ : List α) :
    ∀ s l₁, Inv s → full s → head :: tail = l₁ ++ cur s :: l₂ → ∀ x ∈ cur s :: l₂,
      ∃ t ≤ l₂.length, cur (step^[t] s) = x := by
  induction l₂ with
  | nil =>
    intro s l₁ _ _ _ x hx
    exact ⟨0, le_refl 0, (List.mem_singleton.1 hx).symm⟩
  | cons y l₂ ih =>
    intro s l₁ hs hfull hq x hx
    rcases List.mem_cons.1 hx with rfl | hx
    · exact ⟨0, Nat.zero_le _, rfl⟩
    · obtain ⟨hy, hfull'⟩ := h.full_next s l₁ y l₂ hs hfull hq
      obtain ⟨t, ht, hcur⟩ := ih (step s) (l₁ ++ [cur s]) (h.inv s hs) hfull'
        (by rw [hy, hq, List.append_assoc, List.singleton_append]) x (hy.symm ▸ hx)
      exact ⟨t + 1, by rw [List.length_cons]; omega, hcur⟩

/-- Everybody is visited, and for the first time after a start that is not counted. -/
theorem Sweeps.visits (h : Sweeps step cur left full Inv head tail) (hs : Inv s)
    (hx : x ∈ head :: tail) :
    ∃ t ≤ (tail.length + 1) * (left s + 3), 0 < t ∧ cur (step^[t] s) = x := by
  have hs₁ := h.inv s hs
  -- some time after the first step the head is full
  have hfull : ∃ t ≤ (tail.length + 1) * (left s + 1) + 1, 0 < t ∧ cur (step^[t] s) = head ∧
      full (step^[t] s) := by
    have hleft : (cur (step s) = head ∧ full (step s)) ∨ left (step s) ≤ left s := by
      by_cases hcur : cur s = head
      · exact (h.left_head s hs hcur).imp_right fun heq => by omega
      · exact (h.left_tail s hs hcur).imp_right fun heq => by omega
    rcases hleft with ⟨hhead, hfull⟩ | hleft
    · exact ⟨1, Nat.le_add_left 1 _, Nat.one_pos, hhead, hfull⟩
    have hreach : ∃ t ≤ tail.length + 1, cur (step^[t] (step s)) = head ∧
        (full (step^[t] (step s)) ∨ left (step^[t] (step s)) ≤ left s) := by
      by_cases hhead : cur (step s) = head
      · exact ⟨0, Nat.zero_le _, hhead, Or.inr hleft⟩
      · obtain ⟨l₁, l₂, hq⟩ := List.append_of_mem (h.mem _ hs₁)
        obtain ⟨t, ht, hcur, hrest⟩ := h.returns l₂ (step s) l₁ hs₁ hhead hq
        have hlen := congrArg List.length hq
        simp only [List.length_append, List.length_cons] at hlen
        exact ⟨t, by omega, hcur, hrest.imp_right fun heq => heq.le.trans hleft⟩
    obtain ⟨t, ht, hhead, hfull | hleft'⟩ := hreach
    · refine ⟨t + 1, ?_, Nat.succ_pos t, hhead, hfull⟩
      rw [Nat.mul_succ]
      omega
    · obtain ⟨u, hu, hhead', hfull'⟩ :=
        h.renews (left s) _ (h.inv_iterate t _ hs₁) hhead hleft'
      refine ⟨u + (t + 1), ?_, by omega, ?_, ?_⟩
      · rw [Nat.mul_succ]
        omega
      · rw [Function.iterate_add_apply]
        exact hhead'
      · rw [Function.iterate_add_apply]
        exact hfull'
  obtain ⟨t, ht, hpos, hhead, hfull⟩ := hfull
  obtain ⟨u, hu, hcur⟩ := h.passes tail _ [] (h.inv_iterate t s hs) hfull
    (by rw [hhead, List.nil_append]) x (hhead.symm ▸ hx)
  refine ⟨u + t, ?_, by omega, ?_⟩
  · rw [Nat.mul_add] at ht ⊢
    omega
  · rw [Function.iterate_add_apply]
    exact hcur

end Visits

/-! ## Shares -/

section Shares

variable {α : Type*} [DecidableEq α] {q done rest l : List α} {share : α → Nat} {head x y : α}

/-- A moment in a cycle.  The sweep that is under way has visited `done`. -/
structure Turn (q : List α) (share : α → Nat) where
  /-- The visits in this cycle. -/
  visits : α → Nat
  done : List α
  cur : α
  rest : List α
  split : done ++ cur :: rest = q
  nodup : q.Nodup
  le : ∀ x ∈ q, visits x ≤ share x
  lt : visits cur < share cur
  done_pos : ∀ x ∈ done, 0 < visits x
  /-- In the first sweep nobody behind the current member has been visited. -/
  first : visits cur = 0 → ∀ x ∈ rest, visits x = 0
  later : 0 < visits cur → ∀ x ∈ rest, 0 < visits x
  sorted_done : done.Pairwise fun x y => share y - visits y ≤ share x - visits x
  sorted_across : ∀ x ∈ done, ∀ y ∈ cur :: rest, share y - visits y ≤ share x - visits x + 1
  sorted_rest : (cur :: rest).Pairwise fun x y => share y - visits y ≤ share x - visits x

namespace Turn

variable (t : Turn q share)

/-- The visits after the current member has been visited. -/
def bump : α → Nat := Function.update t.visits t.cur (t.visits t.cur + 1)

theorem bump_cur : t.bump t.cur = t.visits t.cur + 1 := Function.update_self ..

theorem bump_of_ne (hx : x ≠ t.cur) : t.bump x = t.visits x := Function.update_of_ne hx _ _

section

omit [DecidableEq α]

theorem mem_iff : x ∈ q ↔ x ∈ t.done ∨ x = t.cur ∨ x ∈ t.rest := by
  have h : x ∈ t.done ++ t.cur :: t.rest ↔ x ∈ t.done ∨ x = t.cur ∨ x ∈ t.rest := by
    rw [List.mem_append, List.mem_cons]
  rwa [t.split] at h

theorem cur_mem : t.cur ∈ q := t.mem_iff.2 (Or.inr (Or.inl rfl))

theorem nodup_split : (t.done ++ t.cur :: t.rest).Nodup := by
  rw [t.split]
  exact t.nodup

theorem done_ne (hx : x ∈ t.done) : x ≠ t.cur :=
  (List.nodup_append.1 t.nodup_split).2.2 x hx t.cur List.mem_cons_self

theorem rest_ne (hx : x ∈ t.rest) : x ≠ t.cur :=
  ne_of_mem_of_not_mem hx (List.nodup_cons.1 (List.nodup_append.1 t.nodup_split).2.1).1

end

theorem bump_le (hx : x ∈ q) : t.bump x ≤ share x := by
  by_cases hc : x = t.cur
  · rw [hc, t.bump_cur]
    exact t.lt
  · rw [t.bump_of_ne hc]
    exact t.le x hx

/-- The visits in this cycle so far. -/
def total : Nat := (q.map t.visits).sum

end Turn

/-- The visits there are in a cycle. -/
def cycle (q : List α) (share : α → Nat) : Nat := (q.map share).sum

omit [DecidableEq α] in
theorem pairwise_of_eq {R : α → α → Prop} {q' : List α} (hq : q = q') (h : q.Pairwise R) :
    q'.Pairwise R := hq ▸ h

/-- One more visit. -/
theorem sum_map_update (hnd : q.Nodup) (hx : x ∈ q) (f : α → Nat) :
    (q.map (Function.update f x (f x + 1))).sum = (q.map f).sum + 1 := by
  obtain ⟨l₁, l₂, rfl⟩ := List.append_of_mem hx
  have hnd' := List.perm_middle.nodup_iff.1 hnd
  have hx' := (List.nodup_cons.1 hnd').1
  rw [List.mem_append, not_or] at hx'
  have hsame : ∀ l : List α, x ∉ l → l.map (Function.update f x (f x + 1)) = l.map f := fun l hl =>
    List.map_congr_left fun y hy => Function.update_of_ne (ne_of_mem_of_not_mem hy hl) _ _
  rw [List.map_append, List.map_cons, hsame l₁ hx'.1, hsame l₂ hx'.2, Function.update_self]
  simp only [List.map_append, List.map_cons, List.sum_append, List.sum_cons]
  omega

namespace Turn

variable (t : Turn q share)

theorem sum_bump : (q.map t.bump).sum = t.total + 1 := sum_map_update t.nodup t.cur_mem t.visits

/-- A cycle is not over while somebody has its turn. -/
theorem total_lt : t.total < cycle q share := by
  have hle := List.sum_le_sum fun x hx => t.bump_le (x := x) hx
  rw [t.sum_bump] at hle
  exact hle

/-- The sweep goes on to the next member. -/
def advance (hrest : t.rest = y :: l) (hlt : t.visits y < share y) : Turn q share where
  visits := t.bump
  done := t.done ++ [t.cur]
  cur := y
  rest := l
  split := by
    rw [List.append_assoc, List.singleton_append, ← hrest]
    exact t.split
  nodup := t.nodup
  le x hx := t.bump_le hx
  lt := by
    rw [t.bump_of_ne (t.rest_ne (hrest ▸ List.mem_cons_self))]
    exact hlt
  done_pos x hx := by
    rcases List.mem_append.1 hx with hx | hx
    · rw [t.bump_of_ne (t.done_ne hx)]
      exact t.done_pos x hx
    · rw [List.mem_singleton.1 hx, t.bump_cur]
      exact Nat.succ_pos _
  first hy x hx := by
    have hmem : ∀ x ∈ y :: l, x ∈ t.rest := fun x hx => hrest ▸ hx
    rw [t.bump_of_ne (t.rest_ne (hmem y List.mem_cons_self))] at hy
    have hx' := hmem x (List.mem_cons_of_mem _ hx)
    rw [t.bump_of_ne (t.rest_ne hx')]
    refine t.first ?_ x hx'
    by_contra hcur
    have hpos := t.later (Nat.pos_of_ne_zero hcur) y (hmem y List.mem_cons_self)
    omega
  later hy x hx := by
    have hmem : ∀ x ∈ y :: l, x ∈ t.rest := fun x hx => hrest ▸ hx
    rw [t.bump_of_ne (t.rest_ne (hmem y List.mem_cons_self))] at hy
    have hx' := hmem x (List.mem_cons_of_mem _ hx)
    rw [t.bump_of_ne (t.rest_ne hx')]
    refine t.later (Nat.pos_of_ne_zero fun hcur => ?_) x hx'
    have hzero := t.first hcur y (hmem y List.mem_cons_self)
    omega
  sorted_done := by
    refine List.pairwise_append.2 ⟨?_, List.pairwise_singleton _ _, ?_⟩
    · refine t.sorted_done.imp_of_mem fun ha hb h => ?_
      rwa [t.bump_of_ne (t.done_ne ha), t.bump_of_ne (t.done_ne hb)]
    · intro x hx z hz
      rw [List.mem_singleton.1 hz, t.bump_cur, t.bump_of_ne (t.done_ne hx)]
      have hacross := t.sorted_across x hx t.cur List.mem_cons_self
      omega
  sorted_across x hx z hz := by
    have hz' : z ∈ t.rest := hrest ▸ hz
    rw [t.bump_of_ne (t.rest_ne hz')]
    rcases List.mem_append.1 hx with hx | hx
    · rw [t.bump_of_ne (t.done_ne hx)]
      exact t.sorted_across x hx z (List.mem_cons_of_mem _ hz')
    · rw [List.mem_singleton.1 hx, t.bump_cur]
      have hsorted := (List.pairwise_cons.1 t.sorted_rest).1 z hz'
      have hlt := t.lt
      omega
  sorted_rest := by
    have hsorted := (List.pairwise_cons.1 t.sorted_rest).2
    rw [hrest] at hsorted
    refine hsorted.imp_of_mem fun ha hb h => ?_
    rwa [t.bump_of_ne (t.rest_ne (hrest ▸ hb)), t.bump_of_ne (t.rest_ne (hrest ▸ ha))]

/-- The sweep may end here: at the end of the list, or where more is left of the current
member than of the next one.  The first sweep goes to the end. -/
def MayStop : Prop :=
  ∀ y l, t.rest = y :: l → 0 < t.visits t.cur ∧ share y - t.visits y ≤ share t.cur - t.bump t.cur

/-- Where a sweep ends, what is left does not grow along the list. -/
theorem MayStop.sorted (hstop : t.MayStop) :
    q.Pairwise fun x y => share y - t.bump y ≤ share x - t.bump x := by
  have hcons := List.pairwise_cons.1 t.sorted_rest
  have hcur : ∀ z ∈ t.rest, share z - t.bump z ≤ share t.cur - t.bump t.cur := by
    intro z hz
    rw [t.bump_of_ne (t.rest_ne hz)]
    cases hrest : t.rest with
    | nil =>
      rw [hrest] at hz
      exact absurd hz List.not_mem_nil
    | cons y l =>
      have hy := (hstop y l hrest).2
      rw [hrest] at hz hcons
      rcases List.mem_cons.1 hz with rfl | hz
      · exact hy
      · exact ((List.pairwise_cons.1 hcons.2).1 z hz).trans hy
  have hdone : ∀ x ∈ t.done, share t.cur - t.bump t.cur ≤ share x - t.bump x := by
    intro x hx
    rw [t.bump_cur, t.bump_of_ne (t.done_ne hx)]
    have hacross := t.sorted_across x hx t.cur List.mem_cons_self
    omega
  have hsorted : (t.done ++ t.cur :: t.rest).Pairwise
      fun x y => share y - t.bump y ≤ share x - t.bump x := by
    refine List.pairwise_append.2 ⟨?_, List.pairwise_cons.2 ⟨hcur, ?_⟩, ?_⟩
    · refine t.sorted_done.imp_of_mem fun ha hb h => ?_
      rwa [t.bump_of_ne (t.done_ne hb), t.bump_of_ne (t.done_ne ha)]
    · refine hcons.2.imp_of_mem fun ha hb h => ?_
      rwa [t.bump_of_ne (t.rest_ne hb), t.bump_of_ne (t.rest_ne ha)]
    · intro x hx z hz
      rcases List.mem_cons.1 hz with rfl | hz
      · exact hdone x hx
      · exact (hcur z hz).trans (hdone x hx)
  rwa [t.split] at hsorted

/-- Where a sweep ends, everybody has been visited. -/
theorem MayStop.pos (hstop : t.MayStop) (hx : x ∈ q) : 0 < t.bump x := by
  rcases t.mem_iff.1 hx with hx | rfl | hx
  · rw [t.bump_of_ne (t.done_ne hx)]
    exact t.done_pos x hx
  · rw [t.bump_cur]
    exact Nat.succ_pos _
  · rw [t.bump_of_ne (t.rest_ne hx)]
    cases hrest : t.rest with
    | nil =>
      rw [hrest] at hx
      exact absurd hx List.not_mem_nil
    | cons y l => exact t.later (hstop y l hrest).1 x hx

/-- The next sweep begins. -/
def back (hstop : t.MayStop) (hq : q = head :: l) (hlt : t.bump head < share head) :
    Turn q share where
  visits := t.bump
  done := []
  cur := head
  rest := l
  split := hq.symm
  nodup := t.nodup
  le x hx := t.bump_le hx
  lt := hlt
  done_pos x hx := absurd hx List.not_mem_nil
  first hzero := by
    have hpos := hstop.pos t (hq ▸ List.mem_cons_self)
    omega
  later _ x hx := hstop.pos t (hq ▸ List.mem_cons_of_mem _ hx)
  sorted_done := .nil
  sorted_across x hx := absurd hx List.not_mem_nil
  sorted_rest := pairwise_of_eq hq (hstop.sorted t)

/-- If nothing is left of the head where a sweep ends, the cycle is over. -/
theorem MayStop.exhausted (hstop : t.MayStop) (hq : q = head :: l)
    (heq : t.bump head = share head) (hx : x ∈ q) : t.bump x = share x := by
  have hb := t.bump_le hx
  have hx' : x ∈ head :: l := hq ▸ hx
  rcases List.mem_cons.1 hx' with rfl | hxl
  · exact heq
  · have hle := (List.pairwise_cons.1 (pairwise_of_eq hq (hstop.sorted t))).1 x hxl
    omega

end Turn

/-- A cycle begins. -/
def Turn.start (hq : q = head :: l) (hnd : q.Nodup) (hpos : 0 < share head)
    (hsorted : q.Pairwise fun x y => share y ≤ share x) : Turn q share where
  visits _ := 0
  done := []
  cur := head
  rest := l
  split := hq.symm
  nodup := hnd
  le _ _ := Nat.zero_le _
  lt := hpos
  done_pos _ hx := absurd hx List.not_mem_nil
  first _ _ _ := rfl
  later h := absurd h (lt_irrefl 0)
  sorted_done := .nil
  sorted_across _ hx := absurd hx List.not_mem_nil
  sorted_rest := pairwise_of_eq hq hsorted

/-- After `n` visits from the start of a cycle, `count` says how often everybody was
visited. -/
structure Counted (t : Turn q share) (n : Nat) (count : α → Nat) (cycles : Nat) : Prop where
  time : n = cycles * cycle q share + t.total
  count : ∀ x ∈ q, count x = cycles * share x + t.visits x

/-- One more visit in the same cycle. -/
theorem Counted.visit {t t' : Turn q share} {n cycles : Nat} {count count' : α → Nat}
    (h : Counted t n count cycles) (hvisits : t'.visits = t.bump)
    (hcount : count' = Function.update count t.cur (count t.cur + 1)) :
    Counted t' (n + 1) count' cycles where
  time := by
    have htotal : t'.total = t.total + 1 := by
      rw [Turn.total, hvisits]
      exact t.sum_bump
    rw [h.time, htotal, Nat.add_assoc]
  count x hx := by
    rw [hcount, hvisits]
    by_cases hc : x = t.cur
    · rw [hc, Function.update_self, t.bump_cur, h.count _ t.cur_mem, Nat.add_assoc]
    · rw [Function.update_of_ne hc, t.bump_of_ne hc, h.count x hx]

/-- The last visit of a cycle. -/
theorem Counted.renew {t t' : Turn q share} {n cycles : Nat} {count count' : α → Nat}
    (h : Counted t n count cycles) (hend : ∀ x ∈ q, t.bump x = share x)
    (hvisits : ∀ x, t'.visits x = 0)
    (hcount : count' = Function.update count t.cur (count t.cur + 1)) :
    Counted t' (n + 1) count' (cycles + 1) where
  time := by
    have htotal : t.total + 1 = cycle q share := by
      rw [← t.sum_bump, cycle, List.map_congr_left hend]
    have hzero : t'.total = 0 := by
      rw [Turn.total, List.sum_eq_zero_iff_forall_eq_nat]
      intro n hn
      obtain ⟨x, -, rfl⟩ := List.mem_map.1 hn
      exact hvisits x
    rw [h.time, hzero, Nat.succ_mul, ← htotal]
    omega
  count x hx := by
    have hx' := hend x hx
    rw [hcount, hvisits, Nat.succ_mul]
    by_cases hc : x = t.cur
    · rw [hc] at hx' ⊢
      rw [t.bump_cur] at hx'
      rw [Function.update_self, h.count _ t.cur_mem]
      omega
    · rw [t.bump_of_ne hc] at hx'
      rw [Function.update_of_ne hc, h.count x hx]
      omega

/-- At the end of a cycle everybody has been visited according to its share. -/
theorem Counted.block {t : Turn q share} {n k cycles : Nat} {count : α → Nat}
    (h : Counted t n count cycles) (hn : n = k * cycle q share) (hx : x ∈ q) :
    count x = k * share x := by
  have hlt := t.total_lt
  have htime := h.time
  have hk : cycles = k := by
    have hdiv : n / cycle q share = cycles := by
      rw [htime, Nat.mul_comm, Nat.mul_add_div (Nat.zero_lt_of_lt hlt), Nat.div_eq_of_lt hlt,
        Nat.add_zero]
    rw [← hdiv, hn, Nat.mul_div_cancel _ (Nat.zero_lt_of_lt hlt)]
  have hzero : t.total = 0 := by
    rw [hk] at htime
    omega
  have hvisits : t.visits x = 0 := List.sum_eq_zero_iff_forall_eq_nat.1 hzero _ (List.mem_map_of_mem hx)
  rw [h.count x hx, hk, hvisits, Nat.add_zero]

end Shares

end RoundRobin
