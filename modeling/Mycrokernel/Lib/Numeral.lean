import Mathlib.Data.Nat.Digits.Defs
import Mathlib.Data.Nat.Digits.Lemmas

/-!
# Numerals

The digits of a number, most significant first, without zeros in front of it.

A program writes a numeral by dividing by the powers of the base, the highest one first,
and leaving out the digits before the first that is not zero.  `padded` are all the
digits it computes, and `strip` is what it leaves of them: `strip_padded` says that this is
the numeral.
-/

namespace Numeral

variable {b k n : Nat}

/-- The digits of `n` at `k` places. -/
def padded (b : Nat) : Nat → Nat → List Nat
  | 0, _ => []
  | k + 1, n => n / b ^ k :: padded b k (n % b ^ k)

/-- The digits without the zeros in front, but for the last digit. -/
def strip : List Nat → List Nat
  | [] => []
  | [d] => [d]
  | d :: e :: ds => if d = 0 then strip (e :: ds) else d :: e :: ds

/-- The numeral of `n`. -/
def numeral (b n : Nat) : List Nat := if n = 0 then [0] else (Nat.digits b n).reverse

@[simp] theorem padded_length (b k n : Nat) : (padded b k n).length = k := by
  induction k generalizing n with
  | zero => rfl
  | succ k ih => rw [padded, List.length_cons, ih]

theorem lt_of_mem_padded (hn : n < b ^ k) : ∀ d ∈ padded b k n, d < b := by
  induction k generalizing n with
  | zero => simp [padded]
  | succ k ih =>
      intro d hd
      have hpos : 0 < b ^ k := by
        refine Nat.pos_of_ne_zero fun hzero => ?_
        rw [Nat.pow_succ, hzero, Nat.zero_mul] at hn
        exact absurd hn (Nat.not_lt_zero n)
      cases hd with
      | head =>
          rw [Nat.pow_succ] at hn
          exact Nat.div_lt_of_lt_mul hn
      | tail _ hd => exact ih (Nat.mod_lt n hpos) d hd

theorem ofDigits_padded (hn : n < b ^ k) : Nat.ofDigits b (padded b k n).reverse = n := by
  induction k generalizing n with
  | zero =>
      rw [Nat.pow_zero, Nat.lt_one_iff] at hn
      rw [hn]
      rfl
  | succ k ih =>
      have hpos : 0 < b ^ k := by
        refine Nat.pos_of_ne_zero fun hzero => ?_
        rw [Nat.pow_succ, hzero, Nat.zero_mul] at hn
        exact absurd hn (Nat.not_lt_zero n)
      rw [padded, List.reverse_cons, Nat.ofDigits_append, ih (Nat.mod_lt n hpos),
        Nat.ofDigits_singleton, List.length_reverse, padded_length]
      exact Nat.mod_add_div n (b ^ k)

/-- Digits that do not begin with a zero are a numeral. -/
theorem numeral_eq {d : Nat} {ds : List Nat} (hb : 1 < b) (hd : d ≠ 0) (hlt : ∀ e ∈ d :: ds, e < b)
    (hn : Nat.ofDigits b (d :: ds).reverse = n) : numeral b n = d :: ds := by
  have hdigits : Nat.digits b n = (d :: ds).reverse := by
    rw [← hn]
    refine Nat.digits_ofDigits b hb _ (fun e he => hlt e (List.mem_reverse.mp he)) fun hne => ?_
    rwa [List.getLast_reverse, List.head_cons]
  have hpos : n ≠ 0 := by
    rintro rfl
    rw [Nat.digits_zero] at hdigits
    exact absurd hdigits.symm (by simp)
  rw [numeral, if_neg hpos, hdigits, List.reverse_reverse]

/-- A program that divides by the powers of the base, and leaves out the zeros in front, writes
the numeral. -/
theorem strip_padded (hb : 1 < b) (hn : n < b ^ (k + 1)) :
    strip (padded b (k + 1) n) = numeral b n := by
  induction k with
  | zero =>
      cases Decidable.em (n = 0) with
      | inl hzero => rw [hzero]; simp [padded, strip, numeral]
      | inr hpos =>
          have hlt := lt_of_mem_padded hn
          have hvalue := ofDigits_padded hn
          rw [numeral_eq hb (by simpa using hpos) hlt hvalue]
          rfl
  | succ k ih =>
      have hlt := lt_of_mem_padded hn
      have hvalue := ofDigits_padded hn
      cases Decidable.em (n < b ^ (k + 1)) with
      | inl hsmall =>
          rw [padded, Nat.div_eq_of_lt hsmall, Nat.mod_eq_of_lt hsmall, padded, strip, if_pos rfl]
          exact ih hsmall
      | inr hlarge =>
          have hlead : n / b ^ (k + 1) ≠ 0 :=
            (Nat.div_pos (Nat.not_lt.mp hlarge) (Nat.pow_pos (by omega))).ne'
          rw [numeral_eq hb hlead hlt hvalue, padded, padded, strip, if_neg hlead]

/-- A numeral has no more digits than there are places. -/
theorem numeral_length_le (hb : 1 < b) (hn : n < b ^ (k + 1)) :
    (numeral b n).length ≤ k + 1 := by
  have hlen : ∀ l : List Nat, (strip l).length ≤ l.length := by
    intro l
    induction l using strip.induct with
    | case1 => exact le_rfl
    | case2 => exact le_rfl
    | case3 e ds ih =>
        rw [strip, if_pos rfl]
        exact ih.trans (Nat.le_succ _)
    | case4 d e ds hd => rw [strip, if_neg hd]
  rw [← strip_padded hb hn]
  exact (hlen _).trans (padded_length ..).le

theorem numeral_ne_nil (b n : Nat) : numeral b n ≠ [] := by
  unfold numeral
  split
  next => simp
  next hpos => simpa using Nat.digits_ne_nil_iff_ne_zero.mpr hpos

/-- A numeral stands for its number. -/
theorem ofDigits_numeral (b n : Nat) : Nat.ofDigits b (numeral b n).reverse = n := by
  unfold numeral
  split
  next hzero => rw [hzero, List.reverse_singleton, Nat.ofDigits_singleton]
  next => rw [List.reverse_reverse, Nat.ofDigits_digits]

/-- Only the numeral of zero begins with a zero. -/
theorem head_numeral (h : (numeral b n).head? = some 0) : n = 0 := by
  unfold numeral at h
  split at h
  next hzero => exact hzero
  next hpos =>
    rw [List.head?_reverse, List.getLast?_eq_getLast_of_ne_nil
      (Nat.digits_ne_nil_iff_ne_zero.mpr hpos)] at h
    exact absurd (Option.some.inj h) (Nat.getLast_digit_ne_zero b hpos)

theorem numeral_of_lt (h : n < b) : numeral b n = [n] := by
  unfold numeral
  split
  next hzero => rw [hzero]
  next hpos => rw [Nat.digits_of_lt b n hpos h, List.reverse_singleton]

theorem lt_of_mem_numeral (hb : 1 < b) : ∀ d ∈ numeral b n, d < b := by
  intro d hd
  unfold numeral at hd
  split at hd
  next =>
    rw [List.mem_singleton.mp hd]
    omega
  next => exact Nat.digits_lt_base hb (List.mem_reverse.mp hd)

end Numeral
