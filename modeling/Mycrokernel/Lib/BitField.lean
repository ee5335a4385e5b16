import Mathlib.Data.Nat.Bits

/-!
# Bit fields

A word that is stored in pieces is the disjunction of the pieces, each shifted to its
place.

`or_low` and `or_middle` join a piece to what is above it, and `top` says that the
piece at the top has all of the rest.
-/

namespace BitField

variable {w : Nat}

/-- The lowest piece. -/
theorem or_low (x : BitVec w) (n : Nat) : x >>> n <<< n ||| (x.setWidth n).setWidth w = x := by
  apply BitVec.eq_of_getLsbD_eq
  intro i hi
  simp only [BitVec.getLsbD_or, BitVec.getLsbD_shiftLeft, BitVec.getLsbD_ushiftRight,
    BitVec.getLsbD_setWidth, hi]
  by_cases hlow : i < n
  · simp [hlow]
  · simp [hlow, Nat.add_sub_cancel' (Nat.le_of_not_lt hlow)]

/-- A piece of `m` bits, from bit `n` on. -/
theorem or_middle (x : BitVec w) (n m : Nat) :
    x >>> (n + m) <<< (n + m) ||| ((x >>> n).setWidth m).setWidth w <<< n = x >>> n <<< n := by
  rw [BitVec.shiftRight_add, Nat.add_comm n m, BitVec.shiftLeft_add, ← BitVec.shiftLeft_or_distrib,
    or_low]

/-- The piece at the top. -/
theorem top (x : BitVec w) {n m : Nat} (h : w ≤ n + m) :
    ((x >>> n).setWidth m).setWidth w = x >>> n := by
  apply BitVec.eq_of_getLsbD_eq
  intro i hi
  simp only [BitVec.getLsbD_setWidth, BitVec.getLsbD_ushiftRight, hi, decide_true, Bool.true_and]
  by_cases hpiece : i < m
  · simp [hpiece]
  · rw [BitVec.getLsbD_of_ge x _ (by omega), Bool.and_false]

/-- A piece, with the one below it. -/
theorem append_low (x : BitVec w) (m n : Nat) :
    (x >>> n).setWidth m ++ x.setWidth n = x.setWidth (m + n) := by
  apply BitVec.eq_of_getLsbD_eq
  intro i hi
  simp only [BitVec.getLsbD_append, BitVec.getLsbD_setWidth, BitVec.getLsbD_ushiftRight, hi]
  by_cases hlow : i < n
  · simp [hlow]
  · have hpiece : i - n < m := by omega
    simp [hlow, hpiece, Nat.add_sub_cancel' (Nat.le_of_not_lt hlow)]

/-- The upper one of two pieces. -/
theorem high_append {m n : Nat} (x : BitVec m) (y : BitVec n) :
    ((x ++ y) >>> n).setWidth m = x := by
  apply BitVec.eq_of_getLsbD_eq
  intro i hi
  simp [BitVec.getLsbD_append, BitVec.getLsbD_ushiftRight, hi]

end BitField
