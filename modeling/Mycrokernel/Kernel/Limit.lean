import Mycrokernel.Kernel.Descriptor

/-!
# Bases and limits

What `create_process` makes of the base and the limit of a segment.

`memAreaValid` is to keep segments out of the hole below 1 MiB.  It adds base and limit
in 32 bits, and it lets the last byte of a segment be the first of the hole
(`memAreaValid_sound_iff`).

A limit above `0xfffff` is counted in pages.  The mask that decides about the last page
is two bits short, so a limit of a whole number of KiB is rounded down, and the last page of
the address space has no number (`createSegment_roundsUp_iff`).
-/

namespace Mycrokernel

/-! ## The hole -/

/-- The first byte a segment must not have. -/
def lowerBound (video : Bool) : Nat := if video then 0xc0000 else 0xa0000

/-- A segment is in the address space and has no byte of the hole. -/
structure OutsideHole (base limit : Word) (video : Bool) : Prop where
  fits : base.toNat + limit.toNat ≤ 2 ^ 32 - 1
  apart : ∀ byte, base.toNat ≤ byte → byte ≤ base.toNat + limit.toNat →
    ¬ (lowerBound video ≤ byte ∧ byte ≤ 0xfffff)

variable {base limit : Word} {video : Bool}

theorem lowerBound_le (video : Bool) : lowerBound video ≤ 0xc0000 := by
  cases video with
  | false => decide
  | true => decide

theorem memAreaValid_iff : memAreaValid base limit video = true ↔
    ¬ (lowerBound video < base.toNat ∧ base.toNat < 0x100000) ∧
      ¬ (base.toNat ≤ lowerBound video ∧
        lowerBound video < (base.toNat + limit.toNat) % 2 ^ 32) := by
  have hsum : (base + limit).toNat = (base.toNat + limit.toNat) % 2 ^ 32 := BitVec.toNat_add ..
  cases video with
  | false => simp [memAreaValid, lowerBound, BitVec.lt_def, BitVec.le_def, hsum, imp_iff_not_or]
  | true => simp [memAreaValid, lowerBound, BitVec.lt_def, BitVec.le_def, hsum, imp_iff_not_or]

/-- `memAreaValid` accepts only segments outside of the hole, if and only if the segment does
not end with the first byte of the hole, and it does not wrap around or it begins inside. -/
theorem memAreaValid_sound_iff (base limit : Word) (video : Bool) :
    (memAreaValid base limit video = true → OutsideHole base limit video) ↔
      base.toNat + limit.toNat ≠ lowerBound video ∧
        (base.toNat + limit.toNat < 2 ^ 32 ∨
          lowerBound video < base.toNat ∧ base.toNat < 0x100000) := by
  have hbase := base.isLt
  have hlimit := limit.isLt
  have hlower := lowerBound_le video
  rw [memAreaValid_iff]
  constructor
  · intro hsound
    constructor
    · intro heq
      have hout := hsound ⟨by omega, by omega⟩
      exact hout.apart _ (Nat.le_add_right ..) le_rfl ⟨heq.ge, by omega⟩
    · cases Decidable.em (lowerBound video < base.toNat ∧ base.toNat < 0x100000) with
      | inl hinside => exact .inr hinside
      | inr hinside =>
          refine .inl (Nat.lt_of_not_le fun hwrap => ?_)
          -- a sum that wraps around is below its first term
          have hout := hsound ⟨hinside, by omega⟩
          have hfits := hout.fits
          omega
  · rintro ⟨hne, hfits | hinside⟩ ⟨hbelow, hends⟩
    · rw [Nat.mod_eq_of_lt hfits] at hends
      exact ⟨by omega, fun byte hfirst hlast hhole => by omega⟩
    · exact absurd hinside hbelow

/-- A segment from 636 KiB on, with limit 4 KiB, and one that wraps around. -/
theorem memAreaValid_unsound :
    (memAreaValid 0x9f000 0x1000 false = true ∧ ¬ OutsideHole 0x9f000 0x1000 false) ∧
      memAreaValid 0xfffff000 0x2000 false = true ∧ ¬ OutsideHole 0xfffff000 0x2000 false :=
  ⟨⟨by decide, fun h => h.apart 0xa0000 (by decide) (by decide) (by decide)⟩, by decide,
    fun h => absurd h.fits (by decide)⟩

namespace Kernel

variable [Layout] {s s' : Kernel} {idx privilege : Word} {a : Segment}

/-! ## Pages -/

/-- What `create_process` has `write_segment_desc` store as the limit. -/
def limitField (limit : Word) : Word := if 0xfffff < limit then pageLimit limit else limit

/-- What `create_process` passes as the granularity. -/
def granularityField (limit : Word) : Word := if 0xfffff < limit then 1 else 0

/-- The limit of a segment is rounded up to the next page. -/
structure RoundsUp (s : Kernel) (idx limit : Word) : Prop where
  fits : (limitField limit).toNat < 2 ^ 20
  le : limit.toNat ≤ (s.getLimit idx).toNat
  lt : (s.getLimit idx).toNat < limit.toNat + 4096
  exact : limit.toNat ≤ 0xfffff → s.getLimit idx = limit

omit [Layout] in
theorem mask_eq_zero (limit : Word) : limit &&& 0x3ff = 0 ↔ limit.toNat % 1024 = 0 := by
  have hmask : (limit &&& 0x3ff).toNat = limit.toNat % 1024 := by
    rw [BitVec.toNat_and]
    exact Nat.and_two_pow_sub_one_eq_mod _ 10
  rw [← hmask]
  exact (BitVec.toNat_inj (y := 0)).symm

omit [Layout] in
theorem toNat_pageLimit (limit : Word) : (pageLimit limit).toNat =
    if limit.toNat % 1024 = 0 then limit.toNat / 4096 else limit.toNat / 4096 + 1 := by
  have hlimit := limit.isLt
  have hshift : (limit >>> 12).toNat = limit.toNat / 4096 := by
    rw [BitVec.toNat_ushiftRight, Nat.shiftRight_eq_div_pow]
  unfold pageLimit
  simp only [mask_eq_zero]
  split
  next => exact hshift
  next =>
    rw [BitVec.toNat_add, hshift]
    exact Nat.mod_eq_of_lt (by change limit.toNat / 4096 + 1 < 2 ^ 32; omega)

/-- A block that does not go to `finish` has written the descriptor of its segment. -/
theorem createSegment_written (h : s.createSegment privilege a = some (s', some idx))
    (hbase : a.base ≠ noBase) :
    s' = s.writeSegmentDesc idx (limitField a.limit) a.base 1 privilege a.type
      (granularityField a.limit) := by
  unfold createSegment at h
  rw [if_neg hbase] at h
  split at h
  next => exact absurd h (by simp)
  next =>
    obtain ⟨w, -, h⟩ := Option.map_eq_some_iff.mp h
    unfold limitField granularityField
    split at h
    next => exact absurd h (by simp)
    next =>
      split at h
      next hpages =>
        obtain ⟨rfl, rfl⟩ : s.writeSegmentDesc w (pageLimit a.limit) a.base 1 privilege a.type 1 =
            s' ∧ w = idx := by simpa using h
        rw [if_pos hpages, if_pos hpages]
      next hbytes =>
        obtain ⟨rfl, rfl⟩ : s.writeSegmentDesc w a.limit a.base 1 privilege a.type 0 = s' ∧
            w = idx := by simpa using h
        rw [if_neg hbytes, if_neg hbytes]

/-- The limit of a segment that has been created, as the kernel reads it. -/
theorem createSegment_getLimit (h : s.createSegment privilege a = some (s', some idx))
    (hbase : a.base ≠ noBase) :
    (s'.getLimit idx).toNat =
      if a.limit.toNat ≤ 0xfffff then a.limit.toNat
      else 0x1000 * ((pageLimit a.limit).toNat % 0x100000) := by
  rw [createSegment_written h hbase, getLimit_writeSegmentDesc]
  unfold limitField granularityField
  have hpages : 0xfffff < a.limit ↔ ¬ a.limit.toNat ≤ 0xfffff := Nat.not_le.symm
  simp only [hpages]
  cases Decidable.em (a.limit.toNat ≤ 0xfffff) with
  | inl hsmall =>
      have hhigh : a.limit[23] = false :=
        Nat.testBit_lt_two_pow (show a.limit.toNat < 2 ^ 23 by omega)
      simp [hsmall, hhigh]
      omega
  | inr hlarge => simp [hlarge]

/-- `create_process` rounds a limit up to the next page, if and only if it is counted in bytes, or
it is a whole number of pages, or it is no whole number of KiB and before the last
page. -/
theorem createSegment_roundsUp_iff (s : Kernel) (privilege : Word) (a : Segment) (s' : Kernel)
    (idx : Word) (hcreate : s.createSegment privilege a = some (s', some idx))
    (hbase : a.base ≠ noBase) :
    RoundsUp s' idx a.limit ↔
      a.limit.toNat ≤ 0xfffff ∨ a.limit.toNat % 4096 = 0 ∨
        a.limit.toNat % 1024 ≠ 0 ∧ a.limit.toNat < 0xfffff000 := by
  have hlt := a.limit.isLt
  have hget := createSegment_getLimit hcreate hbase
  have hpage := toNat_pageLimit a.limit
  have hfield : (limitField a.limit).toNat =
      if a.limit.toNat ≤ 0xfffff then a.limit.toNat else (pageLimit a.limit).toNat := by
    have hpages : 0xfffff < a.limit ↔ ¬ a.limit.toNat ≤ 0xfffff := Nat.not_le.symm
    unfold limitField
    simp only [hpages, ite_not]
    split
    · rfl
    · rfl
  cases Decidable.em (a.limit.toNat ≤ 0xfffff) with
  | inl hsmall =>
      rw [if_pos hsmall] at hget hfield
      refine iff_of_true ⟨?_, hget.ge, ?_, fun _ => BitVec.eq_of_toNat_eq hget⟩ (.inl hsmall)
      · rw [hfield]
        omega
      · rw [hget]
        omega
  | inr hlarge =>
      rw [if_neg hlarge] at hget hfield
      constructor
      · rintro ⟨hfits, hle, hless, -⟩
        have hfits : (pageLimit a.limit).toNat < 0x100000 := hfield.symm.trans_lt hfits
        rw [hget, Nat.mod_eq_of_lt hfits] at hle
        split at hpage
        next => omega
        next => omega
      · intro hcond
        have hfits : (pageLimit a.limit).toNat < 0x100000 := by
          split at hpage
          next => omega
          next => omega
        rw [Nat.mod_eq_of_lt hfits] at hget
        refine ⟨by rwa [hfield], ?_, ?_, fun hsmall => absurd hsmall hlarge⟩
        · split at hpage
          next => omega
          next => omega
        · split at hpage
          next => omega
          next => omega

/-- A data segment at 1 MiB. -/
def flatSegment (limit : Word) : Segment := ⟨.data, false, 0x100000, limit⟩

omit [Layout] in
/-- A segment of 1 MiB and 1 byte. -/
theorem createSegment_roundsUp :
    letI := Layout.sample
    ∃ s' idx, powerOn.createSegment 3 (flatSegment 0x100001) = some (s', some idx) ∧
      RoundsUp s' idx 0x100001 := by
  let _ := Layout.sample
  have hrun : ((powerOn.createSegment 3 (flatSegment 0x100001)).map fun c => c.2.isSome) =
      some true := by decide +kernel
  obtain ⟨⟨s', w⟩, hcreate, hsome⟩ := Option.map_eq_some_iff.mp hrun
  obtain ⟨idx, rfl⟩ := Option.isSome_iff_exists.mp hsome
  exact ⟨s', idx, hcreate, (createSegment_roundsUp_iff powerOn 3 _ s' idx hcreate
    (by decide)).mpr (.inr (.inr (by decide)))⟩

omit [Layout] in
/-- The last KiB of a segment of 1 MiB and 1 KiB is outside of it, and of a segment that ends in the
last page the first byte is left. -/
theorem createSegment_roundsDown :
    letI := Layout.sample
    (∃ s' idx, powerOn.createSegment 3 (flatSegment 0x100400) = some (s', some idx) ∧
      s'.getLimit idx = 0x100000 ∧ ¬ RoundsUp s' idx 0x100400) ∧
    ∃ s' idx, powerOn.createSegment 3 (flatSegment 0xfffff001) = some (s', some idx) ∧
      s'.getLimit idx = 0 ∧ ¬ RoundsUp s' idx 0xfffff001 := by
  let _ := Layout.sample
  have hread : ∀ limit read : Word, read < limit →
      ((powerOn.createSegment 3 (flatSegment limit)).map fun c => c.2.map c.1.getLimit) =
        some (some read) →
      ∃ s' idx, powerOn.createSegment 3 (flatSegment limit) = some (s', some idx) ∧
        s'.getLimit idx = read ∧ ¬ RoundsUp s' idx limit := by
    intro limit read hlt hrun
    obtain ⟨⟨s', w⟩, hcreate, hrun⟩ := Option.map_eq_some_iff.mp hrun
    obtain ⟨idx, rfl, hlimit⟩ := Option.map_eq_some_iff.mp hrun
    refine ⟨s', idx, hcreate, hlimit, fun hrounds => ?_⟩
    have hle := hrounds.le
    rw [hlimit] at hle
    exact absurd hlt (Nat.not_lt.mpr hle)
  exact ⟨hread 0x100400 0x100000 (by decide) (by decide +kernel),
    hread 0xfffff001 0 (by decide) (by decide +kernel)⟩

end Kernel

end Mycrokernel
