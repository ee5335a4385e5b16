import Mycrokernel.Kernel.Syscall
import Mathlib.Data.Nat.SuccPred
import Mathlib.Order.Interval.Finset.Nat
import Mathlib.Order.Interval.Finset.SuccPred

/-!
# Features

A feature is a word with one bit.  `check_feature` counts the bits, and the loops of
`get_process_by_feature`, `set_feature` and `add_waiting_for_feature` look for the bit; its
number is the index of the entry.  The table has as many entries as a word has bytes, not
as many as it has bits, so what `check_feature` accepts may be beyond its end
(`feature_index_iff`).
-/

namespace Mycrokernel

open Function (update)

namespace Kernel

variable {feature : Word} {i k n : Nat}

/-! ## Counting the bits -/

/-- The bits of the feature from bit `k` on. -/
def bitsFrom (feature : Word) (k : Nat) : Finset Nat :=
  (Finset.Ico k 32).filter fun i => feature.getLsbD i

theorem bitsFrom_of_set (hk : k < 32) (hset : feature.getLsbD k = true) :
    (bitsFrom feature k).card = (bitsFrom feature (k + 1)).card + 1 := by
  unfold bitsFrom
  rw [← Finset.insert_Ico_succ_left_eq_Ico hk, Finset.filter_insert, if_pos hset]
  exact Finset.card_insert_of_notMem (by simp)

theorem bitsFrom_of_clear (hk : k < 32) (hclear : feature.getLsbD k = false) :
    bitsFrom feature k = bitsFrom feature (k + 1) := by
  unfold bitsFrom
  rw [← Finset.insert_Ico_succ_left_eq_Ico hk, Finset.filter_insert, if_neg (by simp [hclear])]
  rfl

/-- One bit is set. -/
theorem card_bitsFrom_eq_one :
    (bitsFrom feature 0).card = 1 ↔ ∃ k < 32, feature = 1#32 <<< k := by
  rw [Finset.card_eq_one]
  constructor
  · rintro ⟨k, hsingle⟩
    have hmem : ∀ i, (i < 32 ∧ feature.getLsbD i = true) ↔ i = k := by
      intro i
      have hiff := congrArg (i ∈ ·) hsingle
      simpa [bitsFrom] using hiff
    have hk := ((hmem k).mpr rfl).1
    refine ⟨k, hk, BitVec.eq_of_getLsbD_eq fun i hi => ?_⟩
    rw [← BitVec.twoPow_eq, BitVec.getLsbD_twoPow]
    cases hbit : feature.getLsbD i with
    | true => simp [hk, (hmem i).mp ⟨hi, hbit⟩]
    | false =>
        have hne : i ≠ k := fun heq => by
          rw [((hmem i).mpr heq).2] at hbit
          exact absurd hbit (by decide)
        simp [Ne.symm hne]
  · rintro ⟨k, hk, rfl⟩
    refine ⟨k, Finset.ext fun i => ?_⟩
    rw [bitsFrom, ← BitVec.twoPow_eq, Finset.mem_filter, BitVec.getLsbD_twoPow]
    constructor
    · rintro ⟨-, hbit⟩
      simp only [Bool.and_eq_true, decide_eq_true_eq] at hbit
      exact Finset.mem_singleton.mpr hbit.2.symm
    · intro hi
      rw [Finset.mem_singleton.mp hi]
      simp [hk]

/-- A mask that has not left the word. -/
theorem mask_ne_zero (hk : k < 32) : (1#32 <<< k : Word) ≠ 0 := by
  intro hzero
  have hnat := congrArg BitVec.toNat hzero
  rw [← BitVec.twoPow_eq, BitVec.toNat_twoPow_of_lt hk] at hnat
  exact absurd hnat (Nat.two_pow_pos k).ne'

theorem and_mask_ne_zero (hk : k < 32) :
    feature &&& 1#32 <<< k ≠ 0 ↔ feature.getLsbD k = true := by
  rw [← BitVec.twoPow_eq, BitVec.and_twoPow]
  split
  next hset =>
    rw [BitVec.twoPow_eq]
    exact iff_of_true (mask_ne_zero hk) hset
  next hclear => exact iff_of_false (fun h => h rfl) hclear

/-- The loop of `check_feature` finds one bit exactly if there is one from the mask on, or
one below it and none from it on. -/
theorem countFeatures_spec (feature : Word) (n k : Nat) (found : BitVec 8) (hk : n + k = 32)
    (hfound : found.toNat ≤ 1) :
    ∃ c, countFeatures feature (n + 1) (1#32 <<< k) found = some c ∧
      (c.toNat = 1 ↔ found.toNat + (bitsFrom feature k).card = 1) := by
  induction n generalizing k found with
  | zero =>
      obtain rfl : k = 32 := by omega
      exact ⟨found, rfl, by simp [bitsFrom]⟩
  | succ n ih =>
      have hk32 : k < 32 := by omega
      have hpos : (0 : Word) < 1#32 <<< k := (BitVec.pos_iff_ne_zero _).mpr (mask_ne_zero hk32)
      rw [countFeatures, if_pos hpos, ← BitVec.shiftLeft_add]
      cases hbit : feature.getLsbD k with
      | false =>
          have hnot : ¬ (1 : BitVec 8) < found := fun hlt => by
            have hlt : 1 < found.toNat := hlt
            omega
          have hclear : ¬ feature &&& 1#32 <<< k ≠ 0 := fun hset => by
            rw [(and_mask_ne_zero hk32).mp hset] at hbit
            exact absurd hbit (by decide)
          rw [if_neg hclear, bitsFrom_of_clear hk32 hbit]
          dsimp only
          rw [if_neg hnot]
          exact ih (k + 1) found (by omega) hfound
      | true =>
          have hnext : (found + 1).toNat = found.toNat + 1 := by
            rw [BitVec.toNat_add]
            exact Nat.mod_eq_of_lt (show found.toNat + 1 < 256 by omega)
          rw [if_pos ((and_mask_ne_zero hk32).mpr hbit), bitsFrom_of_set hk32 hbit]
          dsimp only
          split
          next htwo =>
            have htwo : 1 < (found + 1).toNat := htwo
            exact ⟨_, rfl, by omega⟩
          next hle =>
            have hle : ¬ 1 < (found + 1).toNat := hle
            obtain ⟨c, hc, hcount⟩ := ih (k + 1) (found + 1) (by omega) (by omega)
            exact ⟨c, hc, by omega⟩

/-- `check_feature` accepts the words with one bit. -/
theorem checkFeature_eq_zero :
    checkFeature feature = some 0 ↔ ∃ k < 32, feature = 1#32 <<< k := by
  obtain ⟨c, hc, hcount⟩ := countFeatures_spec feature 32 0 0 rfl (by decide)
  have hstart : countFeatures feature 33 1 0 = some c := hc
  have hone : c = 1 ↔ c.toNat = 1 := BitVec.toNat_inj.symm
  have hzero : (0#8).toNat + (bitsFrom feature 0).card = (bitsFrom feature 0).card :=
    Nat.zero_add _
  rw [checkFeature, hstart, ← card_bitsFrom_eq_one, Option.map_some, Option.some_inj, ← hzero]
  split
  next h => exact iff_of_true rfl (hcount.mp (hone.mp h))
  next h => exact iff_of_false (by decide) fun hcard => h (hone.mpr (hcount.mpr hcard))

/-! ## Looking for the bit -/

theorem findFeature_spec (hk : k < 32) (hi : i ≤ k) (hn : k < n + i) :
    findFeature (1#32 <<< k) n (1#32 <<< i) i = some k := by
  induction n generalizing i with
  | zero => omega
  | succ n ih =>
      rw [findFeature]
      cases Decidable.em (i = k) with
      | inl heq =>
          rw [heq, BitVec.and_self, if_neg (fun h => h rfl)]
      | inr hne =>
          have hmask : 1#32 <<< i &&& 1#32 <<< k ≠ 1#32 <<< i := by
            rw [← BitVec.twoPow_eq, ← BitVec.twoPow_eq, BitVec.and_twoPow, BitVec.getLsbD_twoPow,
              decide_eq_false hne, Bool.and_false, if_neg (by decide), BitVec.twoPow_eq]
            exact (mask_ne_zero (by omega)).symm
          rw [if_pos hmask, ← BitVec.shiftLeft_add]
          exact ih (by omega) (by omega)

/-- The index the loops compute, whether the table has it or not. -/
def featureIndex (feature : Word) : Option Nat := findFeature feature 33 1 0

theorem featureIndex_eq (hk : k < 32) : featureIndex (1#32 <<< k) = some k :=
  findFeature_spec hk (Nat.zero_le k) (by omega)

theorem featureEntry_eq (hk : k < 32) (hlt : k < featureTableSize) :
    featureEntry (1#32 <<< k) = some k := by
  have hindex := featureIndex_eq hk
  unfold featureIndex at hindex
  rw [featureEntry, hindex, Option.bind_some, if_pos hlt]

/-! ## The entry of a feature -/

/-- The three functions work on one entry of the table: the supplier comes from it, a process
becomes its supplier if it has none, and the first process that waits is put in it. -/
structure UsesEntry (feature : Word) (idx : Nat) : Prop where
  get : ∀ s : Kernel, s.getProcessByFeature feature = some (s.featureTable idx).supplier
  set : ∀ (s : Kernel) (p : Ptr), (s.featureTable idx).supplier = null →
    ∃ k, s.setFeature p feature = some (k, 0) ∧
      k.featureTable = update s.featureTable idx { supplier := p, waiter := null }
  busy : ∀ (s : Kernel) (p : Ptr), (s.featureTable idx).supplier ≠ null →
    s.setFeature p feature = some (s, 1)
  add : ∀ (s : Kernel) (p : Ptr), (s.featureTable idx).waiter = null →
    ∃ k, s.addWaitingForFeature p feature = some k ∧
      k.featureTable = update s.featureTable idx { s.featureTable idx with waiter := p }

theorem usesEntry_of_featureEntry (h : featureEntry feature = some i) : UsesEntry feature i where
  get s := by rw [getProcessByFeature, h, Option.map_some]
  set s p hnone := by
    rw [setFeature, h, Option.map_some, if_neg (not_not.mpr hnone)]
    exact ⟨_, rfl, rfl⟩
  busy s p hsome := by rw [setFeature, h, Option.map_some, if_pos hsome]
  add s p hnone := by
    have hwalk : PointerList.walk s.nextSender (fun cur => cur = null) walkFuel null null =
        some (null, null) := by
      have hfuel : walkFuel = (2 ^ 32 - 1) + 1 := rfl
      rw [hfuel, PointerList.walk]
      simp
    rw [addWaitingForFeature, h, Option.bind_some, hnone, hwalk, Option.map_some]
    exact ⟨_, rfl, rfl⟩

/-- Different features have different entries. -/
theorem featureIndex_inj {feature' : Word} (h : checkFeature feature = some 0)
    (h' : checkFeature feature' = some 0) (hindex : featureIndex feature = featureIndex feature') :
    feature = feature' := by
  obtain ⟨k, hk, rfl⟩ := checkFeature_eq_zero.mp h
  obtain ⟨k', hk', rfl⟩ := checkFeature_eq_zero.mp h'
  rw [featureIndex_eq hk, featureIndex_eq hk'] at hindex
  rw [Option.some.inj hindex]

/-- `check_feature` accepts the words with one bit; and for what it accepts, the three
functions use one entry of the table, which no other accepted feature has, if and only if
the bit is one of the lowest four. -/
theorem feature_index_iff (feature : Word) :
    (checkFeature feature = some 0 ↔ ∃ k < 32, feature = 1#32 <<< k) ∧
    ((checkFeature feature = some 0 →
      ∃ idx < featureTableSize, featureIndex feature = some idx ∧ UsesEntry feature idx ∧
        ∀ feature', checkFeature feature' = some 0 → feature' ≠ feature →
          featureIndex feature' ≠ some idx) ↔
      (checkFeature feature = some 0 → feature.toNat < 2 ^ featureTableSize)) := by
  refine ⟨checkFeature_eq_zero, forall_congr' fun h => ?_⟩
  obtain ⟨k, hk, rfl⟩ := checkFeature_eq_zero.mp h
  have hnat : (1#32 <<< k).toNat = 2 ^ k := by
    rw [← BitVec.twoPow_eq, BitVec.toNat_twoPow_of_lt hk]
  rw [hnat, Nat.pow_lt_pow_iff_right (by decide)]
  constructor
  · rintro ⟨idx, hlt, hindex, -⟩
    rw [featureIndex_eq hk] at hindex
    rwa [Option.some.inj hindex]
  · intro hlt
    refine ⟨k, hlt, featureIndex_eq hk, usesEntry_of_featureEntry (featureEntry_eq hk hlt), ?_⟩
    intro feature' h' hne hindex
    exact hne (featureIndex_inj h' h (hindex.trans (featureIndex_eq hk).symm))

/-- The fifth feature has no entry. -/
theorem feature_index_fails :
    checkFeature 0x10 = some 0 ∧ featureIndex 0x10 = some 4 ∧
      ¬ ∃ idx < featureTableSize, featureIndex 0x10 = some idx := by
  have hindex : featureIndex 0x10 = some 4 := by decide
  refine ⟨by decide, hindex, ?_⟩
  rintro ⟨idx, hlt, hidx⟩
  obtain rfl := Option.some.inj (hindex.symm.trans hidx)
  exact absurd hlt (by decide)

end Kernel

end Mycrokernel
