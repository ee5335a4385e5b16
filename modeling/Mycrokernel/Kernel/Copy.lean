import Mycrokernel.Kernel.State

/-!
# Copying a message

`_exchange_data` copies double words, then a word, then a byte.  If the two ranges have no byte in
common this is one move of all bytes: a move that goes on where another one has ended makes a
longer one.
-/

namespace Mycrokernel

namespace Kernel

variable {mem : Word → BitVec 8} {src dst : Word} {n m : Nat}

/-- The ranges of `n` bytes from `src` and from `dst` on have no byte in common. -/
def Apart (src dst : Word) (n : Nat) : Prop :=
  ∀ i < n, ∀ j < n, src + BitVec.ofNat 32 i ≠ dst + BitVec.ofNat 32 j

/-- Ranges that do not wrap, one behind the other. -/
theorem apart_of_disjoint (h : src.toNat + n ≤ dst.toNat ∨ dst.toNat + n ≤ src.toNat)
    (hsrc : src.toNat + n ≤ 2 ^ 32) (hdst : dst.toNat + n ≤ 2 ^ 32) : Apart src dst n := by
  intro i hi j hj heq
  have hnat := congrArg BitVec.toNat heq
  rw [BitVec.toNat_add, BitVec.toNat_add, BitVec.toNat_ofNat, BitVec.toNat_ofNat,
    Nat.mod_eq_of_lt (show i < 2 ^ 32 by omega), Nat.mod_eq_of_lt (show j < 2 ^ 32 by omega),
    Nat.mod_eq_of_lt (by omega), Nat.mod_eq_of_lt (by omega)] at hnat
  omega

theorem Apart.mono (h : Apart src dst n) (hm : m ≤ n) : Apart src dst m :=
  fun i hi j hj => h i (hi.trans_le hm) j (hj.trans_le hm)

theorem Apart.drop (h : Apart src dst (n + m)) :
    Apart (src + BitVec.ofNat 32 n) (dst + BitVec.ofNat 32 n) m := by
  intro i hi j hj
  rw [BitVec.add_assoc, BitVec.add_assoc, ← BitVec.ofNat_add, ← BitVec.ofNat_add]
  exact h (n + i) (by omega) (n + j) (by omega)

theorem moveBytes_zero : moveBytes mem src dst 0 = mem :=
  funext fun _ => if_neg (Nat.not_lt_zero _)

/-- A move, at a byte counted from the start of the destination. -/
theorem moveBytes_at (mem : Word → BitVec 8) (src dst : Word) (n : Nat) (d : Word) :
    moveBytes mem src dst n (dst + d) = if d.toNat < n then mem (src + d) else mem (dst + d) := by
  rw [moveBytes, BitVec.add_comm dst d, BitVec.add_sub_cancel]

/-- A source that the move has not written to. -/
theorem moveBytes_source (h : Apart src dst (n + m)) (d : Word) (hd : d.toNat < n + m) :
    moveBytes mem src dst n (src + d) = mem (src + d) := by
  refine if_neg fun hin => ?_
  have hsame : dst + (src + d - dst) = src + d := by
    rw [BitVec.add_comm, BitVec.sub_add_cancel]
  have hne := h d.toNat hd (src + d - dst).toNat (by omega)
  rw [BitVec.ofNat_toNat, BitVec.ofNat_toNat, BitVec.setWidth_eq, BitVec.setWidth_eq] at hne
  exact hne hsame.symm

/-- Two moves, one behind the other. -/
theorem moveBytes_add (mem : Word → BitVec 8) (h : Apart src dst (n + m)) (hlt : n + m < 2 ^ 32) :
    moveBytes (moveBytes mem src dst n) (src + BitVec.ofNat 32 n) (dst + BitVec.ofNat 32 n) m =
      moveBytes mem src dst (n + m) := by
  funext a
  obtain ⟨d, rfl⟩ : ∃ d, a = dst + d := ⟨a - dst, by rw [BitVec.add_comm, BitVec.sub_add_cancel]⟩
  have hsplit : BitVec.ofNat 32 n + (d - BitVec.ofNat 32 n) = d := by
    rw [BitVec.add_comm, BitVec.sub_add_cancel]
  have hsub : (d - BitVec.ofNat 32 n).toNat = (2 ^ 32 - n + d.toNat) % 2 ^ 32 := by
    rw [BitVec.toNat_sub, BitVec.toNat_ofNat]
    omega
  have hsecond := moveBytes_at (moveBytes mem src dst n) (src + BitVec.ofNat 32 n)
    (dst + BitVec.ofNat 32 n) m (d - BitVec.ofNat 32 n)
  rw [BitVec.add_assoc, BitVec.add_assoc, hsplit] at hsecond
  rw [hsecond, hsub, moveBytes_at mem src dst (n + m)]
  have hd := d.isLt
  by_cases hfirst : d.toNat < n
  · rw [if_neg (by omega), if_pos (by omega), moveBytes_at, if_pos hfirst]
  · by_cases hin : d.toNat < n + m
    · rw [if_pos (by omega), if_pos hin, moveBytes_source h d hin]
    · rw [if_neg (by omega), if_neg hin, moveBytes_at, if_neg hfirst]

/-! ## The copy -/

theorem moveDwords_eq (h : Apart src dst (4 * n)) (hlt : 4 * n < 2 ^ 32) :
    moveDwords n mem src dst =
      (moveBytes mem src dst (4 * n), src + BitVec.ofNat 32 (4 * n),
        dst + BitVec.ofNat 32 (4 * n)) := by
  induction n generalizing mem src dst with
  | zero =>
      rw [moveDwords, Nat.mul_zero, moveBytes_zero]
      simp
  | succ n ih =>
      have hcount : 4 * (n + 1) = 4 + 4 * n := by omega
      rw [hcount] at h hlt ⊢
      rw [moveDwords, BitVec.ofNat_add, ← BitVec.add_assoc, ← BitVec.add_assoc, ← moveBytes_add mem h hlt]
      exact ih h.drop (by omega)

/-- Without an overlap, all bytes are copied as they were. -/
theorem copy_eq {bytes : Word} (h : Apart src dst bytes.toNat) :
    copy mem src dst bytes = moveBytes mem src dst bytes.toNat := by
  obtain ⟨q, r, hr, hbytes⟩ : ∃ q r, r < 4 ∧ bytes.toNat = 4 * q + r :=
    ⟨_, _, Nat.mod_lt _ (by decide), (Nat.div_add_mod _ 4).symm⟩
  have hlt := bytes.isLt
  have hquot : bytes.toNat / 4 = q := by omega
  have hrest : bytes.toNat % 4 = r := by omega
  rw [hbytes] at h hlt ⊢
  unfold copy
  rw [hquot, hrest, moveDwords_eq (h.mono (by omega)) (by omega)]
  dsimp only
  match r, hr with
  | 0, _ => rfl
  | 1, _ => exact moveBytes_add _ h (by omega)
  | 2, _ => exact moveBytes_add _ h (by omega)
  | 3, _ =>
      have hword := moveBytes_add mem (h.mono (show 4 * q + 2 ≤ 4 * q + 3 by omega)) (by omega)
      have hbyte := moveBytes_add mem (show Apart src dst (4 * q + 2 + 1) from h) (by omega)
      rw [← hword, BitVec.ofNat_add, ← BitVec.add_assoc, ← BitVec.add_assoc] at hbyte
      exact hbyte

end Kernel

end Mycrokernel
