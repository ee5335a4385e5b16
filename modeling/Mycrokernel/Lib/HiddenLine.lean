import Mathlib.Data.List.DropRight

/-!
# Lines with hidden characters

A line that is being typed is a list of characters, each with the mark whether it is shown.
It grows and shrinks at its end: `insert` appends a character unless the line is full, and
`erase` takes back the last one if it is shown, and otherwise all hidden ones behind the last
that is shown.
-/

namespace HiddenLine

variable {α : Type*} {l : List (α × Bool)} {c : α}

/-- The characters that are shown. -/
def shown (l : List (α × Bool)) : List α := (l.filter Prod.snd).map Prod.fst

def insert (limit : Nat) (l : List (α × Bool)) (c : α) (mark : Bool) : List (α × Bool) :=
  if l.length < limit then l ++ [(c, mark)] else l

/-- The line ends with a character that is shown. -/
def EndsShown (l : List (α × Bool)) : Prop := l.getLast?.any Prod.snd = true

instance (l : List (α × Bool)) : Decidable (EndsShown l) := inferInstanceAs (Decidable (_ = true))

/-- The line without the hidden characters at its end. -/
def unhide (l : List (α × Bool)) : List (α × Bool) := l.rdropWhile fun p => !p.2

def erase (l : List (α × Bool)) : List (α × Bool) :=
  if EndsShown l then l.dropLast else unhide l

theorem insert_of_lt {limit : Nat} (h : l.length < limit) (c : α) (mark : Bool) :
    HiddenLine.insert limit l c mark = l ++ [(c, mark)] := if_pos h

theorem insert_of_not_lt {limit : Nat} (h : ¬ l.length < limit) (c : α) (mark : Bool) :
    HiddenLine.insert limit l c mark = l := if_neg h

@[simp] theorem shown_append (l l' : List (α × Bool)) : shown (l ++ l') = shown l ++ shown l' := by
  rw [shown, List.filter_append, List.map_append]
  rfl

@[simp] theorem shown_true : shown [(c, true)] = [c] := rfl

@[simp] theorem shown_false : shown [(c, false)] = [] := rfl

theorem length_shown_le (l : List (α × Bool)) : (shown l).length ≤ l.length := by
  rw [shown, List.length_map]
  exact List.length_filter_le ..

@[simp] theorem endsShown_concat {p : α × Bool} : EndsShown (l ++ [p]) ↔ p.2 = true := by
  simp [EndsShown]

@[simp] theorem not_endsShown_nil : ¬ EndsShown ([] : List (α × Bool)) := by simp [EndsShown]

/-! ## Erasing -/

theorem erase_shown (l : List (α × Bool)) (c : α) : erase (l ++ [(c, true)]) = l := by
  simp [erase]

theorem erase_hidden (l : List (α × Bool)) (c : α) : erase (l ++ [(c, false)]) = unhide l := by
  simp [erase, unhide]

theorem unhide_shown (l : List (α × Bool)) (c : α) :
    unhide (l ++ [(c, true)]) = l ++ [(c, true)] :=
  List.rdropWhile_concat_neg _ _ _ (by simp)

theorem unhide_hidden (l : List (α × Bool)) (c : α) : unhide (l ++ [(c, false)]) = unhide l :=
  List.rdropWhile_concat_pos _ _ _ rfl

/-- Hidden characters go unseen. -/
theorem shown_unhide (l : List (α × Bool)) : shown (unhide l) = shown l := by
  induction l using List.reverseRecOn with
  | nil => rfl
  | append_singleton l p ih =>
      obtain ⟨c, mark⟩ := p
      cases mark with
      | true => rw [unhide_shown]
      | false => rw [unhide_hidden, ih, shown_append, shown_false, List.append_nil]

theorem shown_erase (h : EndsShown l) : shown (erase l) = (shown l).dropLast := by
  induction l using List.reverseRecOn with
  | nil => exact absurd h not_endsShown_nil
  | append_singleton l p =>
      obtain ⟨c, mark⟩ := p
      obtain rfl : mark = true := endsShown_concat.mp h
      rw [erase_shown, shown_append, shown_true, List.dropLast_concat]

theorem shown_erase_hidden (h : ¬ EndsShown l) : shown (erase l) = shown l := by
  induction l using List.reverseRecOn with
  | nil => rfl
  | append_singleton l p =>
      obtain ⟨c, mark⟩ := p
      obtain rfl : mark = false := by simpa using h
      rw [erase_hidden, shown_unhide, shown_append, shown_false, List.append_nil]

theorem shown_ne_nil (h : EndsShown l) : shown l ≠ [] := by
  induction l using List.reverseRecOn with
  | nil => exact absurd h not_endsShown_nil
  | append_singleton l p =>
      obtain ⟨c, mark⟩ := p
      obtain rfl : mark = true := endsShown_concat.mp h
      simp

end HiddenLine
