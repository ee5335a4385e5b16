import Mathlib.Tactic.Ring
import Mathlib.Data.BitVec

/-!
# Numbers in memory

A memory gives each address a byte, and addresses wrap around.  A number takes some bytes from an
address on, the lowest byte first.

What `store` writes is what `load` reads (`load_store`), and a store does not reach beyond its
range (`store_outside`).
-/

namespace Bytes

variable {w : Nat} {mem mem' : BitVec w → BitVec 8} {a b x : BitVec w} {i j m n v : Nat}

/-- The address is one of the `n` from `a` on. -/
def Within (a : BitVec w) (n : Nat) (x : BitVec w) : Prop := (x - a).toNat < n

instance (a : BitVec w) (n : Nat) (x : BitVec w) : Decidable (Within a n x) :=
  inferInstanceAs (Decidable (_ < _))

/-- The number in the `n` bytes from `a` on. -/
def load (mem : BitVec w → BitVec 8) (a : BitVec w) : Nat → Nat
  | 0 => 0
  | n + 1 => (mem a).toNat + 256 * load mem (a + 1) n

/-- Write a number to the `n` bytes from `a` on. -/
def store (mem : BitVec w → BitVec 8) (a : BitVec w) (n v : Nat) : BitVec w → BitVec 8 := fun x =>
  if (x - a).toNat < n then BitVec.ofNat 8 (v / 256 ^ (x - a).toNat) else mem x

/-! ## Ranges -/

theorem add_ofNat_sub (a : BitVec w) (h : i < 2 ^ w) : (a + BitVec.ofNat w i - a).toNat = i := by
  rw [BitVec.add_comm, BitVec.add_sub_cancel, BitVec.toNat_ofNat, Nat.mod_eq_of_lt h]

theorem add_ofNat_inj (hi : i < 2 ^ w) (hj : j < 2 ^ w) :
    a + BitVec.ofNat w i = a + BitVec.ofNat w j ↔ i = j := by
  constructor
  · intro heq
    have hsub := congrArg (fun x => (x - a).toNat) heq
    rwa [add_ofNat_sub a hi, add_ofNat_sub a hj] at hsub
  · rintro rfl
    rfl

theorem within_add (hi : i < n) (hn : n ≤ 2 ^ w) : Within a n (a + BitVec.ofNat w i) := by
  rw [Within, add_ofNat_sub a (hi.trans_le hn)]
  exact hi

theorem Within.exists_add (h : Within a n x) : ∃ i < n, x = a + BitVec.ofNat w i := by
  refine ⟨(x - a).toNat, h, ?_⟩
  rw [BitVec.ofNat_toNat, BitVec.setWidth_eq, BitVec.add_comm, BitVec.sub_add_cancel]

/-! ## Loads and stores -/

theorem load_congr (h : ∀ i < n, mem (a + BitVec.ofNat w i) = mem' (a + BitVec.ofNat w i)) :
    load mem a n = load mem' a n := by
  induction n generalizing a with
  | zero => rfl
  | succ n ih =>
    have hfirst := h 0 (Nat.succ_pos n)
    rw [BitVec.add_zero] at hfirst
    have hrest : load mem (a + 1) n = load mem' (a + 1) n := by
      refine ih fun i hi => ?_
      have hnext := h (i + 1) (Nat.succ_lt_succ hi)
      rwa [Nat.add_comm i 1, BitVec.ofNat_add, ← BitVec.add_assoc] at hnext
    rw [load, load, hfirst, hrest]

/-- The bytes of a number, read one after the other. -/
theorem load_of_bytes
    (h : ∀ i < n, mem (a + BitVec.ofNat w i) = BitVec.ofNat 8 (v / 256 ^ i)) :
    load mem a n = v % 256 ^ n := by
  induction n generalizing a v with
  | zero => rw [load, Nat.pow_zero, Nat.mod_one]
  | succ n ih =>
    have hfirst := h 0 (Nat.succ_pos n)
    rw [BitVec.add_zero, Nat.pow_zero, Nat.div_one] at hfirst
    have hrest : load mem (a + 1) n = v / 256 % 256 ^ n := by
      refine ih fun i hi => ?_
      have hnext := h (i + 1) (Nat.succ_lt_succ hi)
      rwa [Nat.add_comm i 1, BitVec.ofNat_add, ← BitVec.add_assoc, Nat.add_comm 1 i, Nat.pow_succ',
        ← Nat.div_div_eq_div_mul] at hnext
    have hpow : 256 ^ (n + 1) = 256 * 256 ^ n := Nat.pow_succ'
    rw [load, hfirst, hrest, BitVec.toNat_ofNat, hpow]
    exact Nat.mod_mul.symm

theorem store_at (mem : BitVec w → BitVec 8) (a : BitVec w) (v : Nat) (hi : i < n)
    (hn : n ≤ 2 ^ w) :
    store mem a n v (a + BitVec.ofNat w i) = BitVec.ofNat 8 (v / 256 ^ i) := by
  rw [store, add_ofNat_sub a (hi.trans_le hn), if_pos hi]

/-- A store leaves the other bytes alone. -/
theorem store_outside (h : ¬ Within a n x) : store mem a n v x = mem x := if_neg h

theorem load_store (mem : BitVec w → BitVec 8) (a : BitVec w) (v : Nat) (hn : n ≤ 2 ^ w) :
    load (store mem a n v) a n = v % 256 ^ n :=
  load_of_bytes fun _ hi => store_at mem a v hi hn

/-- A load elsewhere does not see a store. -/
theorem load_store_outside (h : ∀ x, Within b m x → ¬ Within a n x) (hm : m ≤ 2 ^ w) :
    load (store mem a n v) b m = load mem b m :=
  load_congr fun _ hi => store_outside (h _ (within_add hi hm))

end Bytes
