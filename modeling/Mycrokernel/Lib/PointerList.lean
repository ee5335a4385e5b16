import Mathlib.Logic.Function.Basic
import Mathlib.Data.List.Nodup
import Mathlib.Data.Fintype.Card

/-!
# Lists threaded through pointers

A *field* is a map from addresses to addresses.  A list of nodes is *threaded*
through the field `next` when following `next` visits its nodes in order.
`Seg next p l q` says so for a segment from `p` to `q`, and `Chain` for a whole
list, which ends at the null address.  `Back` is the same for the field that
leads from each node to the one before it.

Following a field is a function, so a chain determines its list
(`Chain.unique`) and never meets a node twice (`Chain.nodup`).  The editing
lemmas say what a list becomes when one or two cells of the field are written.

`walk` is the loop all the list code is made of: a pair of a trailing and a
current pointer that moves on until a test holds.  Its fuel is the number of
addresses, which every chain stays below (`Chain.length_lt`).
-/

namespace PointerList

open Function (update update_self update_of_ne)

variable {α : Type*} {next next' prev prev' : α → α} {null b h p q m : α} {l l₁ l₂ : List α}

/-! ## Segments -/

/-- Following `next` from `p` visits the nodes of `l` in order and arrives at `q`. -/
def Seg (next : α → α) : α → List α → α → Prop
  | p, [], q => p = q
  | p, x :: l, q => p = x ∧ Seg next (next x) l q

@[simp] theorem seg_nil : Seg next p [] q ↔ p = q := Iff.rfl

@[simp] theorem seg_cons {x : α} : Seg next p (x :: l) q ↔ p = x ∧ Seg next (next x) l q :=
  Iff.rfl

theorem seg_append : Seg next p (l₁ ++ l₂) q ↔ ∃ m, Seg next p l₁ m ∧ Seg next m l₂ q := by
  induction l₁ generalizing p with
  | nil => simp
  | cons x l₁ ih => simp [ih, and_assoc]

/-- A segment is read off the fields of its own nodes. -/
theorem Seg.congr (hs : Seg next p l q) (heq : ∀ x ∈ l, next' x = next x) :
    Seg next' p l q := by
  induction l generalizing p with
  | nil => exact hs
  | cons x l ih =>
    obtain ⟨rfl, hs⟩ := hs
    refine ⟨rfl, ?_⟩
    rw [heq p (by simp)]
    exact ih hs fun y hy => heq y (by simp [hy])

theorem Seg.update [DecidableEq α] {x v : α} (hs : Seg next p l q) (hx : x ∉ l) :
    Seg (update next x v) p l q :=
  hs.congr fun _ hy => update_of_ne (ne_of_mem_of_not_mem hy hx) _ _

/-! ## Chains -/

/-- Following `next` from `p` visits the nodes of `l` and ends at `null`. -/
structure Chain (next : α → α) (null p : α) (l : List α) : Prop where
  /-- The nodes in order, up to `null`. -/
  seg : Seg next p l null
  /-- `null` is no node. -/
  null_notMem : null ∉ l

theorem Chain.nil : Chain next null null [] := ⟨rfl, by simp⟩

theorem chain_cons {x : α} :
    Chain next null p (x :: l) ↔ p = x ∧ x ≠ null ∧ Chain next null (next x) l := by
  constructor
  · rintro ⟨⟨rfl, hs⟩, hn⟩
    rw [List.mem_cons, not_or] at hn
    exact ⟨rfl, Ne.symm hn.1, hs, hn.2⟩
  · rintro ⟨rfl, hne, hs, hn⟩
    exact ⟨⟨rfl, hs⟩, by simp [hn, Ne.symm hne]⟩

/-- The null address has the empty chain only. -/
theorem Chain.null_eq_nil (hc : Chain next null null l) : l = [] := by
  cases l with
  | nil => rfl
  | cons x l =>
    obtain ⟨rfl, hne, -⟩ := chain_cons.1 hc
    exact absurd rfl hne

theorem Chain.eq_nil_iff (hc : Chain next null p l) : l = [] ↔ p = null := by
  constructor
  · rintro rfl
    exact hc.seg
  · rintro rfl
    exact hc.null_eq_nil

/-- A chain starts at its first node, or at `null`. -/
theorem Chain.headD_eq (hc : Chain next null p l) : l.headD null = p := by
  cases l with
  | nil => exact hc.seg.symm
  | cons x l => exact (chain_cons.1 hc).1.symm

/-- The first node of a non-empty chain. -/
theorem Chain.head_mem (hc : Chain next null p l) (hp : p ≠ null) : p ∈ l := by
  cases l with
  | nil => exact absurd hc.seg hp
  | cons x l => simp [(chain_cons.1 hc).1]

/-- A chain from `p` starts with `p`. -/
theorem Chain.exists_cons (hc : Chain next null p l) (hp : p ≠ null) :
    ∃ l', l = p :: l' ∧ Chain next null (next p) l' := by
  cases l with
  | nil => exact absurd hc.seg hp
  | cons x l =>
    obtain ⟨rfl, -, hc⟩ := chain_cons.1 hc
    exact ⟨l, rfl, hc⟩

theorem Chain.unique (hc : Chain next null p l₁) (hc' : Chain next null p l₂) : l₁ = l₂ := by
  induction l₁ generalizing p l₂ with
  | nil =>
    obtain rfl : p = null := hc.seg
    exact hc'.null_eq_nil.symm
  | cons x l₁ ih =>
    obtain ⟨rfl, hne, hc⟩ := chain_cons.1 hc
    obtain ⟨l', rfl, hc''⟩ := hc'.exists_cons hne
    rw [ih hc hc'']

/-- The chain from a node inside a chain is the rest of it. -/
theorem Chain.suffix (hc : Chain next null p (l₁ ++ q :: l₂)) :
    Chain next null q (q :: l₂) := by
  obtain ⟨m, -, rfl, hs⟩ := seg_append.1 hc.seg
  exact ⟨⟨rfl, hs⟩, fun hn => hc.null_notMem (by simp [hn])⟩

/-- The chain after a node inside a chain. -/
theorem Chain.tail (hc : Chain next null p (l₁ ++ q :: l₂)) : Chain next null (next q) l₂ :=
  (chain_cons.1 hc.suffix).2.2

/-- A chain never meets a node twice: both visits would have the same rest. -/
theorem Chain.nodup (hc : Chain next null p l) : l.Nodup := by
  induction l generalizing p with
  | nil => exact List.nodup_nil
  | cons x l ih =>
    obtain ⟨rfl, hne, hc'⟩ := chain_cons.1 hc
    refine List.nodup_cons.2 ⟨fun hmem => ?_, ih hc'⟩
    obtain ⟨l₁, l₂, rfl⟩ := List.append_of_mem hmem
    have hlen := congrArg List.length (hc.unique hc'.suffix)
    simp at hlen
    omega

theorem Chain.congr (hc : Chain next null p l) (heq : ∀ x ∈ l, next' x = next x) :
    Chain next' null p l :=
  ⟨hc.seg.congr heq, hc.null_notMem⟩

theorem Chain.update [DecidableEq α] {x v : α} (hc : Chain next null p l) (hx : x ∉ l) :
    Chain (update next x v) null p l :=
  ⟨hc.seg.update hx, hc.null_notMem⟩

/-- The field of a node of a chain leads to a node of it or to `null`. -/
theorem Chain.next_mem (hc : Chain next null p l) (hq : q ∈ l) : next q = null ∨ next q ∈ l := by
  obtain ⟨l₁, l₂, rfl⟩ := List.append_of_mem hq
  by_cases hn : next q = null
  · exact Or.inl hn
  · exact Or.inr (by simp [hc.tail.head_mem hn])

/-- A node is the only one of a chain if the chain starts at it and ends after it. -/
theorem Chain.forall_eq_iff (hc : Chain next null p l) (hq : q ∈ l) :
    (∀ x ∈ l, x = q) ↔ p = q ∧ next q = null := by
  cases l with
  | nil => exact absurd hq List.not_mem_nil
  | cons x l =>
    have hnd := List.nodup_cons.1 hc.nodup
    obtain ⟨rfl, -, hc'⟩ := chain_cons.1 hc
    constructor
    · intro hall
      obtain rfl := hall p List.mem_cons_self
      have hl : l = [] := List.eq_nil_iff_forall_not_mem.2 fun y hy =>
        hnd.1 (hall y (List.mem_cons_of_mem _ hy) ▸ hy)
      exact ⟨rfl, hc'.eq_nil_iff.1 hl⟩
    · rintro ⟨rfl, hnull⟩
      rw [hc'.eq_nil_iff.2 hnull]
      exact fun x hx => List.mem_singleton.1 hx

/-- A chain is shorter than the number of addresses, since `null` is not on it. -/
theorem Chain.length_lt {n : Nat} (hc : Chain next null p l) (f : α → Fin n)
    (hf : Function.Injective f) : l.length < n := by
  have hnd := (List.nodup_cons.2 ⟨hc.null_notMem, hc.nodup⟩).map hf
  have hle := hnd.length_le_card
  rw [Fintype.card_fin, List.length_map] at hle
  exact hle

/-! ## Editing a chain -/

section Edit

variable [DecidableEq α]

/-- A new node behind the node `b`. -/
theorem Chain.insert_after (hc : Chain next null h (l₁ ++ b :: l₂)) (hp : p ≠ null)
    (hpl : p ∉ l₁ ++ b :: l₂) :
    Chain (Function.update (Function.update next p (next b)) b p) null h
      (l₁ ++ b :: p :: l₂) := by
  simp only [List.mem_append, List.mem_cons, not_or] at hpl
  obtain ⟨hp₁, hpb, hp₂⟩ := hpl
  have hnd := hc.nodup
  simp only [List.nodup_append, List.nodup_cons, List.mem_cons] at hnd
  obtain ⟨-, ⟨hb₂, -⟩, hb₁⟩ := hnd
  have hb₁ : b ∉ l₁ := fun hb => hb₁ b hb b (Or.inl rfl) rfl
  obtain ⟨m, hs₁, rfl, hs₂⟩ := seg_append.1 hc.seg
  refine ⟨seg_append.2 ⟨m, (hs₁.update hp₁).update hb₁, rfl, ?_⟩, ?_⟩
  · rw [update_self]
    refine ⟨rfl, ?_⟩
    rw [update_of_ne hpb, update_self]
    exact (hs₂.update hp₂).update hb₂
  · have hn := hc.null_notMem
    simp only [List.mem_append, List.mem_cons, not_or] at hn ⊢
    exact ⟨hn.1, hn.2.1, Ne.symm hp, hn.2.2⟩

/-- The node behind `b` taken out. -/
theorem Chain.remove_after (hc : Chain next null h (l₁ ++ b :: p :: l₂)) :
    Chain (Function.update next b (next p)) null h (l₁ ++ b :: l₂) := by
  have hnd := hc.nodup
  simp only [List.nodup_append, List.nodup_cons, List.mem_cons, not_or] at hnd
  obtain ⟨-, ⟨⟨-, hb₂⟩, -⟩, hb₁⟩ := hnd
  have hb₁ : b ∉ l₁ := fun hb => hb₁ b hb b (Or.inl rfl) rfl
  obtain ⟨m, hs₁, rfl, hs₂⟩ := seg_append.1 hc.seg
  obtain ⟨-, hs₂⟩ := hs₂
  refine ⟨seg_append.2 ⟨m, hs₁.update hb₁, rfl, ?_⟩, ?_⟩
  · rw [update_self]
    exact hs₂.update hb₂
  · have hn := hc.null_notMem
    simp only [List.mem_append, List.mem_cons, not_or] at hn ⊢
    exact ⟨hn.1, hn.2.1, hn.2.2.2⟩

/-- A new last node behind the node `b`. -/
theorem Chain.append_after (hc : Chain next null h (l₁ ++ [b])) (hp : p ≠ null)
    (hpl : p ∉ l₁ ++ [b]) :
    Chain (Function.update (Function.update next b p) p null) null h (l₁ ++ [b, p]) := by
  have hbp : b ≠ p := by rintro rfl; simp at hpl
  have hnb : next b = null := hc.tail.seg
  have hins := hc.insert_after hp hpl
  rwa [hnb, Function.update_comm (Ne.symm hbp)] at hins

/-- A new last node: the field of the last node leads to it, or the pointer to the list
when there is none. -/
theorem Chain.append (hc : Chain next null h l) (hp : p ≠ null) (hpl : p ∉ l) :
    Chain (Function.update (if l.getLastD null = null then next
        else Function.update next (l.getLastD null) p) p null) null
      (if l.getLastD null = null then p else h) (l ++ [p]) := by
  rcases List.eq_nil_or_concat l with rfl | ⟨l, b, rfl⟩
  · rw [List.getLastD_nil, if_pos rfl, if_pos rfl]
    exact chain_cons.2 ⟨rfl, hp, by rw [update_self]; exact .nil⟩
  · have hb : b ≠ null := by
      rintro rfl
      exact hc.null_notMem (by simp)
    rw [List.concat_eq_append] at hc hpl ⊢
    rw [List.getLastD_concat, if_neg hb, if_neg hb, List.append_assoc]
    exact hc.append_after hp hpl

/-- A node taken out: the field of the node before it skips it, or the pointer to the list
when it is the first. -/
theorem Chain.remove (hc : Chain next null h (l₁ ++ p :: l₂)) :
    Chain (Function.update (if l₁.getLastD null = null then next
        else Function.update next (l₁.getLastD null) (next p)) p null) null
      (if l₁.getLastD null = null then next p else h) (l₁ ++ l₂) := by
  have hpl : p ∉ l₁ ++ l₂ := (List.nodup_cons.1 (List.perm_middle.nodup_iff.1 hc.nodup)).1
  rcases List.eq_nil_or_concat l₁ with rfl | ⟨l, b, rfl⟩
  · rw [List.getLastD_nil, if_pos rfl, if_pos rfl]
    exact hc.tail.update hpl
  · have hb : b ≠ null := by
      rintro rfl
      exact hc.null_notMem (by simp)
    rw [List.concat_eq_append] at hc hpl ⊢
    rw [List.getLastD_concat, if_neg hb, if_neg hb]
    rw [List.append_assoc] at hc hpl ⊢
    exact hc.remove_after.update hpl

end Edit

/-! ## The way back -/

/-- The field `prev` leads from each node of `l` to the one before it, and from the
first to `b`. -/
def Back (prev : α → α) : α → List α → Prop
  | _, [] => True
  | b, x :: l => prev x = b ∧ Back prev x l

@[simp] theorem back_nil : Back prev b [] := trivial

@[simp] theorem back_cons {x : α} : Back prev b (x :: l) ↔ prev x = b ∧ Back prev x l := Iff.rfl

theorem back_append : Back prev b (l₁ ++ l₂) ↔ Back prev b l₁ ∧ Back prev (l₁.getLastD b) l₂ := by
  induction l₁ generalizing b with
  | nil => simp
  | cons x l₁ ih => rw [List.cons_append, back_cons, back_cons, ih, and_assoc, List.getLastD_cons]

theorem Back.congr (hb : Back prev b l) (heq : ∀ x ∈ l, prev' x = prev x) : Back prev' b l := by
  induction l generalizing b with
  | nil => trivial
  | cons x l ih =>
    exact ⟨(heq x (by simp)).trans hb.1, ih hb.2 fun y hy => heq y (by simp [hy])⟩

theorem Back.update [DecidableEq α] {x v : α} (hb : Back prev b l) (hx : x ∉ l) :
    Back (Function.update prev x v) b l :=
  hb.congr fun _ hy => update_of_ne (ne_of_mem_of_not_mem hy hx) _ _

/-- A node is reached from the one before it. -/
theorem Back.prev_eq (hb : Back prev b (l₁ ++ q :: l₂)) : prev q = l₁.getLastD b :=
  (back_append.1 hb).2.1

/-- A new node in front of the node `m`, or at the end. -/
theorem Back.insert_before [DecidableEq α] (hb : Back prev b (l₁ ++ m :: l₂)) (hp : p ∉ l₁ ++ m :: l₂)
    (hpp : prev p = l₁.getLastD b) (hm₁ : m ∉ l₁) (hm₂ : m ∉ l₂) :
    Back (Function.update prev m p) b (l₁ ++ p :: m :: l₂) := by
  obtain ⟨hb₁, -, hb₂⟩ := back_append.1 hb
  have hpm : p ≠ m := fun hpm => hp (by simp [hpm])
  refine back_append.2 ⟨hb₁.update hm₁, ?_, update_self .., hb₂.update hm₂⟩
  rw [update_of_ne hpm, hpp]

/-- The node in front of `m` taken out. -/
theorem Back.remove_before [DecidableEq α] (hb : Back prev b (l₁ ++ p :: m :: l₂)) (hm₁ : m ∉ l₁)
    (hm₂ : m ∉ l₂) : Back (Function.update prev m (prev p)) b (l₁ ++ m :: l₂) := by
  obtain ⟨hb₁, hpp, -, hb₂⟩ := back_append.1 hb
  exact back_append.2 ⟨hb₁.update hm₁, (update_self ..).trans hpp, hb₂.update hm₂⟩

/-! ## Walking -/

/-- Move a trailing and a current pointer along `next` until `stop` holds of the current
one.  `none` when the fuel runs out first. -/
def walk (next : α → α) (stop : α → Bool) : Nat → α → α → Option (α × α)
  | 0, _, _ => none
  | n + 1, previous, cur =>
    if stop cur then some (previous, cur) else walk next stop n cur (next cur)

/-- A walk passes a segment it does not stop in and stops behind it. -/
theorem walk_eq {stop : α → Bool} {n : Nat} (hs : Seg next p l q) (hl : ∀ x ∈ l, stop x = false)
    (hq : stop q = true) (hn : l.length < n) :
    walk next stop n b p = some (l.getLastD b, q) := by
  induction l generalizing n b p with
  | nil =>
    obtain rfl : p = q := hs
    cases n with
    | zero => simp at hn
    | succ n => simp [walk, hq]
  | cons x l ih =>
    obtain ⟨rfl, hs⟩ := hs
    cases n with
    | zero => simp at hn
    | succ n =>
      rw [walk, hl p (by simp)]
      simp only [Bool.false_eq_true, if_false]
      rw [ih hs (fun y hy => hl y (by simp [hy])) (by simpa using hn), List.getLastD_cons]

/-- A chain splits at the first node a test stops at. -/
theorem exists_split (stop : α → Bool) (l : List α) :
    ∃ l₁ l₂, l = l₁ ++ l₂ ∧ (∀ x ∈ l₁, stop x = false) ∧ ∀ x, l₂.head? = some x → stop x = true := by
  refine ⟨l.takeWhile fun x => !stop x, l.dropWhile fun x => !stop x, ?_, ?_, ?_⟩
  · exact (List.takeWhile_append_dropWhile).symm
  · intro x hx
    simpa using List.all_eq_true.1 List.all_takeWhile x hx
  · intro x hx
    have h := List.head?_dropWhile_not (fun x => !stop x) l
    rw [hx] at h
    simpa using h

end PointerList
