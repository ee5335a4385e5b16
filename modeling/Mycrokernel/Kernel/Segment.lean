import Mycrokernel.Kernel.Create

/-!
# Segments

What a descriptor means to the processor, and what the kernel reads from it.

`_get_limit` returns the limit of a segment, or the offset of its last page if the
limit counts pages (`toNat_getLimit`).  `validate_data_area` adds up address and size in
32 bits and compares the sum with it, so it takes a range that goes beyond the last
address for a small one (`validate_sound_iff`).
-/

namespace Mycrokernel

namespace SegDesc

/-- The 20 bits of the limit. -/
def rawLimit (d : SegDesc) : Nat := 0x10000 * (d.props2.toNat % 0x10) + d.limit.toNat

/-- The limit counts pages. -/
def pageGranular (d : SegDesc) : Bool := d.props2.getLsbD 7

/-- The offset the limit stands for. -/
def lastOffset (d : SegDesc) : Nat :=
  if d.pageGranular then 0x1000 * d.rawLimit + 0xfff else d.rawLimit

/-- The bit that distinguishes `STACK` from `DATA`: the segment is above its limit. -/
def growsDown (d : SegDesc) : Bool := d.props1.getLsbD 2

/-- The largest offset in a segment that grows down. -/
def upperBound (d : SegDesc) : Nat := if d.props2.getLsbD 6 then 0xffffffff else 0xffff

/-- The processor lets an access to the data segment through. -/
def Contains (d : SegDesc) (offset : Nat) : Prop :=
  if d.growsDown then d.lastOffset < offset ∧ offset ≤ d.upperBound else offset ≤ d.lastOffset

instance (d : SegDesc) (offset : Nat) : Decidable (d.Contains offset) :=
  inferInstanceAs (Decidable
    (if d.growsDown then d.lastOffset < offset ∧ offset ≤ d.upperBound else offset ≤ d.lastOffset))

variable {d : SegDesc} {a b offset : Nat}

theorem rawLimit_lt (d : SegDesc) : d.rawLimit < 0x100000 := by
  have hlow := d.limit.isLt
  unfold rawLimit
  omega

theorem lastOffset_lt (d : SegDesc) : d.lastOffset < 2 ^ 32 := by
  have hraw := d.rawLimit_lt
  unfold lastOffset
  split
  next => omega
  next => omega

theorem upperBound_lt (d : SegDesc) : d.upperBound < 2 ^ 32 := by
  unfold upperBound
  split
  next => decide
  next => decide

theorem Contains.lt (h : d.Contains offset) : offset < 2 ^ 32 := by
  have hlast := d.lastOffset_lt
  have hupper := d.upperBound_lt
  unfold Contains at h
  split at h
  next => omega
  next => omega

theorem contains_of_up (hup : d.growsDown = false) :
    d.Contains offset ↔ offset ≤ d.lastOffset := by
  unfold Contains
  simp [hup]

theorem contains_of_down (hdown : d.growsDown = true) :
    d.Contains offset ↔ d.lastOffset < offset ∧ offset ≤ d.upperBound := by
  unfold Contains
  simp [hdown]

/-- What lies between two offsets of a segment is in the segment. -/
theorem Contains.between (ha : d.Contains a) (hb : d.Contains b) (hle : a ≤ offset)
    (hle' : offset ≤ b) : d.Contains offset := by
  cases hgrows : d.growsDown with
  | false =>
      rw [contains_of_up hgrows] at hb ⊢
      exact hle'.trans hb
  | true =>
      rw [contains_of_down hgrows] at ha hb ⊢
      exact ⟨ha.1.trans_le hle, hle'.trans hb.2⟩

end SegDesc

namespace Kernel

open SegDesc

variable {s : Kernel} {process : Ptr} {idx mem size : Word}

/-! ## Limits -/

/-- The limit as `_get_limit` puts it together. -/
theorem limit_bits (d : SegDesc) :
    ((d.limit.setWidth 32 ||| d.props2.setWidth 32 <<< 16) &&& 0xfffff).toNat = d.rawLimit := by
  have hhigh := d.props2.isLt
  have hlow := d.limit.isLt
  have hshift : (d.props2.setWidth 32 <<< 16).toNat = 2 ^ 16 * d.props2.toNat := by
    rw [BitVec.toNat_shiftLeft, BitVec.toNat_setWidth, Nat.shiftLeft_eq]
    omega
  have hsum : (d.limit.setWidth 32 ||| d.props2.setWidth 32 <<< 16).toNat =
      2 ^ 16 * d.props2.toNat + d.limit.toNat := by
    rw [BitVec.toNat_or, hshift, BitVec.toNat_setWidth, Nat.mod_eq_of_lt (by omega), Nat.or_comm]
    exact (Nat.two_pow_add_eq_or_of_lt hlow d.props2.toNat).symm
  change ((d.limit.setWidth 32 ||| d.props2.setWidth 32 <<< 16) &&& 0xfffff#32).toNat = _
  rw [BitVec.toNat_and, hsum]
  refine (Nat.and_two_pow_sub_one_eq_mod _ 20).trans ?_
  unfold rawLimit
  omega

/-- The bit `_get_limit` tests is that of the granularity. -/
theorem granularity_bit (d : SegDesc) :
    d.props2.setWidth 32 <<< 16 &&& 0x800000 = 0 ↔ d.pageGranular = false := by
  have hbit : ∀ b : BitVec 8, b.setWidth 32 <<< 16 &&& 0x800000 = 0 ↔ b.getLsbD 7 = false := by
    decide +kernel
  exact hbit d.props2

theorem toNat_getLimit (s : Kernel) (idx : Word) :
    (s.getLimit idx).toNat =
      if (s.gdt idx).pageGranular then 0x1000 * (s.gdt idx).rawLimit
      else (s.gdt idx).rawLimit := by
  have hlt := (s.gdt idx).rawLimit_lt
  unfold getLimit
  dsimp only
  cases hgran : (s.gdt idx).pageGranular with
  | false =>
      rw [if_pos ((granularity_bit _).mpr hgran)]
      exact limit_bits _
  | true =>
      have hset : ¬ (s.gdt idx).props2.setWidth 32 <<< 16 &&& 0x800000 = 0 := fun hclear =>
        absurd ((granularity_bit _).mp hclear) (by simp [hgran])
      rw [if_neg hset, BitVec.toNat_shiftLeft, limit_bits, Nat.shiftLeft_eq]
      simp only [if_true]
      omega

/-- `_get_limit` never returns more than the last offset. -/
theorem getLimit_le (s : Kernel) (idx : Word) :
    (s.getLimit idx).toNat ≤ (s.gdt idx).lastOffset := by
  rw [toNat_getLimit]
  unfold lastOffset
  split
  next => exact Nat.le_add_right ..
  next => exact le_rfl

/-! ## The check of a range -/

theorem validateDataArea_eq_zero :
    s.validateDataArea process mem size = 0 ↔
      mem + size ≤ s.getLimit (s.dataIndex process) := by
  unfold validateDataArea
  split
  next hlt => exact iff_of_false (by decide) (BitVec.not_le.mpr hlt)
  next hle => exact iff_of_true rfl (BitVec.not_lt.mp hle)

/-- `validate_data_area` accepts only ranges inside the data segment, if and only if the range
is empty or refused, or it ends before the last address in a segment that grows up, or
it ends with the last address, and both its ends are in the segment. -/
theorem validate_sound_iff (s : Kernel) (process : Ptr) (mem size : Word) :
    (s.validateDataArea process mem size = 0 →
      ∀ i < size.toNat, (s.gdt (s.dataIndex process)).Contains (mem.toNat + i)) ↔
    size = 0 ∨ s.getLimit (s.dataIndex process) < mem + size ∨
      (s.gdt (s.dataIndex process)).growsDown = false ∧ mem.toNat + size.toNat < 2 ^ 32 ∨
      mem.toNat + size.toNat = 2 ^ 32 ∧ (s.gdt (s.dataIndex process)).Contains mem.toNat ∧
        (s.gdt (s.dataIndex process)).Contains (2 ^ 32 - 1) := by
  have hmem := mem.isLt
  have hsize := size.isLt
  have hsum : (mem + size).toNat = (mem.toNat + size.toNat) % 2 ^ 32 := BitVec.toNat_add ..
  have hlimit := s.getLimit_le (s.dataIndex process)
  rw [validateDataArea_eq_zero]
  constructor
  · intro hsound
    cases Decidable.em (size = 0) with
    | inl hzero => exact .inl hzero
    | inr hpos =>
        have hpos : 0 < size.toNat := (BitVec.pos_iff_ne_zero _).mpr hpos
        cases Decidable.em (s.getLimit (s.dataIndex process) < mem + size) with
        | inl hrefused => exact .inr (.inl hrefused)
        | inr haccepted =>
            have hle : mem + size ≤ s.getLimit (s.dataIndex process) :=
              BitVec.not_lt.mp haccepted
            have hnat : (mem + size).toNat ≤ (s.getLimit (s.dataIndex process)).toNat := hle
            have hfirst := hsound hle 0 hpos
            have hlast := hsound hle (size.toNat - 1) (by omega)
            have hend := hlast.lt
            rw [Nat.add_zero] at hfirst
            cases Decidable.em (mem.toNat + size.toNat = 2 ^ 32) with
            | inl heq =>
                have htop : mem.toNat + (size.toNat - 1) = 2 ^ 32 - 1 := by omega
                rw [htop] at hlast
                exact .inr (.inr (.inr ⟨heq, hfirst, hlast⟩))
            | inr hne =>
                have hlt : mem.toNat + size.toNat < 2 ^ 32 := by omega
                refine .inr (.inr (.inl ⟨?_, hlt⟩))
                -- a segment that grows down has nothing below its limit
                cases hgrows : (s.gdt (s.dataIndex process)).growsDown with
                | false => rfl
                | true =>
                    rw [contains_of_down hgrows] at hfirst
                    rw [Nat.mod_eq_of_lt hlt] at hsum
                    omega
  · rintro (hzero | hrefused | ⟨hup, hlt⟩ | ⟨heq, hfirst, hlast⟩) hle i hi
    · rw [hzero] at hi
      exact absurd hi (Nat.not_lt_zero i)
    · exact absurd hle (BitVec.not_le.mpr hrefused)
    · have hnat : (mem + size).toNat ≤ (s.getLimit (s.dataIndex process)).toNat := hle
      rw [Nat.mod_eq_of_lt hlt] at hsum
      rw [contains_of_up hup]
      omega
    · exact hfirst.between hlast (Nat.le_add_right ..) (by omega)

/-- A process with 4 KiB of data passes the last 16 bytes of the address space. -/
theorem validate_sound_fails :
    letI := Layout.sample
    ∃ s p, powerOn.createProcess plainArgs = some (s, p) ∧
      s.validateDataArea p 0xfffffff0 0x10 = 0 ∧
      ¬ (s.gdt (s.dataIndex p)).Contains 0xfffffff0 := by
  let _ := Layout.sample
  have hrun : ((powerOn.createProcess plainArgs).map fun c =>
      decide (c.1.validateDataArea c.2 0xfffffff0 0x10 = 0 ∧
        ¬ (c.1.gdt (c.1.dataIndex c.2)).Contains 0xfffffff0)) = some true := by decide +kernel
  obtain ⟨⟨s, p⟩, hcreate, hrun⟩ := Option.map_eq_some_iff.mp hrun
  exact ⟨s, p, hcreate, decide_eq_true_eq.mp hrun⟩

end Kernel

end Mycrokernel
