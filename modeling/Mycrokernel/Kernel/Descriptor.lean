import Mycrokernel.Lib.BitField
import Mycrokernel.Kernel.Segment

/-!
# Descriptors

`_write_segment_desc` and `_write_tss_desc` scatter base, limit and rights over the eight
bytes of a descriptor.  `_get_base`, `_get_limit` and `_exchange_data` put them together
again, each in its own way, and find what was written (`writeSegmentDesc_decodes`).

`write_tss_desc` stands between the C code and `_write_tss_desc`.  The C code does not know
of its parameter `privilege`, so that `busy` is what was meant for the granularity, and the
granularity is a word that nobody has pushed (`createProcess_tss_iff`).
-/

namespace Mycrokernel

namespace SegDesc

/-- The segment is present. -/
def present (d : SegDesc) : Bool := d.props1.getLsbD 7

/-- The privilege level of the segment. -/
def privilege (d : SegDesc) : BitVec 2 := d.props1.extractLsb' 5 2

/-- The bits that say what kind of segment it is. -/
def typeBits (d : SegDesc) : BitVec 5 := d.props1.setWidth 5

end SegDesc

/-- The bits of a type: code that may be read, data that may be written, and data that may be
written and grows down. -/
def SegType.bits : SegType → BitVec 5
  | code => 0b11010
  | data => 0b10010
  | stack => 0b10110

namespace Kernel

open Function (update)
open SegDesc

/-- The descriptor `writeDesc` stores. -/
def encode (limit base attr access : Word) : SegDesc where
  limit := limit.setWidth 16
  props2 := (limit >>> 16 ||| attr).setWidth 8
  base1 := base.setWidth 16
  base2 := (base >>> 16).setWidth 8
  base3 := (base >>> 24).setWidth 8
  props1 := access.setWidth 8

variable {s : Kernel} {index limit base attr access : Word}

/-! ## The base -/

/-- The base as `_get_base` puts it together. -/
theorem base_bits (base : Word) :
    ((base >>> 24).setWidth 8).setWidth 32 <<< 24 |||
      ((base >>> 16).setWidth 8).setWidth 32 <<< 16 ||| (base.setWidth 16).setWidth 32 = base := by
  rw [BitField.top base (by decide), BitField.or_middle base 16 8, BitField.or_low]

theorem getBase_of_encode (h : s.gdt index = encode limit base attr access) :
    s.getBase index = base := by
  unfold getBase
  rw [h]
  exact base_bits base

/-- `_exchange_data` finds the same base as `_get_base`. -/
theorem dataBase_eq_getBase (s : Kernel) (process : Ptr) :
    s.dataBase process = s.getBase (s.dataIndex process) := by
  unfold dataBase getBase
  dsimp only
  rw [BitVec.shiftLeft_or_distrib, ← BitVec.shiftLeft_add]
  exact congrArg (· ||| _) (BitVec.or_comm ..)

/-! ## The limit -/

/-- Attributes that leave room for the high part of the limit. -/
theorem encode_rawLimit (hattr : attr.toNat % 0x10 = 0) :
    (encode limit base attr access).rawLimit = limit.toNat % 0x100000 := by
  have hprops : (limit >>> 16 ||| attr).toNat % 2 ^ 4 = limit.toNat / 0x10000 % 2 ^ 4 := by
    rw [BitVec.toNat_or, Nat.or_mod_two_pow, show attr.toNat % 2 ^ 4 = 0 from hattr, Nat.or_zero,
      BitVec.toNat_ushiftRight, Nat.shiftRight_eq_div_pow]
  unfold rawLimit encode
  dsimp only
  rw [BitVec.toNat_setWidth, BitVec.toNat_setWidth]
  omega

theorem encode_pageGranular :
    (encode limit base attr access).pageGranular = (limit.getLsbD 23 || attr.getLsbD 7) := by
  simp [encode, pageGranular]

/-- The attributes of `_write_segment_desc`. -/
theorem segmentAttr_low (granularity : Word) :
    (granularity <<< 7 ||| 0b1000000).toNat % 0x10 = 0 := by
  have hshift : (granularity <<< 7).toNat % 2 ^ 4 = 0 := by
    rw [BitVec.toNat_shiftLeft, Nat.shiftLeft_eq]
    omega
  rw [BitVec.toNat_or, show (0x10 : Nat) = 2 ^ 4 from rfl, Nat.or_mod_two_pow, hshift]
  rfl

theorem segmentAttr_granular (granularity : Word) :
    (granularity <<< 7 ||| 0b1000000).getLsbD 7 = granularity.getLsbD 0 := by
  simp

/-! ## The rights -/

/-- The rights of `_write_segment_desc`. -/
def segmentAccess (present privilege : Word) (type : SegType) : Word :=
  (privilege <<< 5 ||| present <<< 7) ||| type.bits.setWidth 32

variable {present privilege : Word} {type : SegType}

theorem segmentAccess_present (hprivilege : privilege.toNat < 4) :
    (encode limit base attr (segmentAccess present privilege type)).present =
      present.getLsbD 0 := by
  have hbit : privilege[2] = false := Nat.testBit_lt_two_pow hprivilege
  simp [encode, segmentAccess, SegDesc.present, hbit]

theorem segmentAccess_privilege :
    (encode limit base attr (segmentAccess present privilege type)).privilege =
      privilege.setWidth 2 := by
  apply BitVec.eq_of_getLsbD_eq
  intro i hi
  have hpiece : 5 + i < 8 := by omega
  simp [encode, segmentAccess, SegDesc.privilege, hi, hpiece]
  omega

theorem segmentAccess_typeBits :
    (encode limit base attr (segmentAccess present privilege type)).typeBits = type.bits := by
  apply BitVec.eq_of_getLsbD_eq
  intro i hi
  simp [encode, segmentAccess, SegDesc.typeBits, hi]

/-! ## Writing -/

variable [Layout] {k : Kernel} {idx : Word} {idxs : List Word}

theorem writeDesc_gdt (s : Kernel) (index limit base attr access : Word) :
    (s.writeDesc index limit base attr access).gdt =
      update s.gdt index (encode limit base attr access) := by
  unfold writeDesc
  dsimp only
  split
  · rfl
  · rfl

@[simp] theorem writeDesc_gdt_self (s : Kernel) (index limit base attr access : Word) :
    (s.writeDesc index limit base attr access).gdt index = encode limit base attr access := by
  rw [writeDesc_gdt, Function.update_self]

theorem writeDesc_gdt_of_ne (s : Kernel) {index limit base attr access : Word}
    (h : idx ≠ index) : (s.writeDesc index limit base attr access).gdt idx = s.gdt idx := by
  rw [writeDesc_gdt, Function.update_of_ne h]

/-- The bytes of the descriptor at `idx` are inside the table. -/
def Covered (s : Kernel) (idx : Word) : Prop := idx.toNat + 7 ≤ s.gdtLimit.toNat

/-- Descriptors are written at the offsets `idxs`, the last one first, and things are done that
leave the limit of the table alone. -/
inductive Written (boot : Kernel) : List Word → Kernel → Prop where
  | boot : Written boot [] boot
  | segment {s : Kernel} {idxs : List Word} {index : Word} (limit base present privilege : Word)
      (type : SegType) (granularity : Word) :
      Written boot idxs s → index.toNat % 8 = 0 → index.toNat < 2 ^ 16 →
        Written boot (index :: idxs)
          (s.writeSegmentDesc index limit base present privilege type granularity)
  | tss {s : Kernel} {idxs : List Word} {index : Word}
      (limit base present busy granularity : Word) :
      Written boot idxs s → index.toNat % 8 = 0 → index.toNat < 2 ^ 16 →
        Written boot (index :: idxs) (s.writeTssDesc index limit base present busy granularity)
  | other {s k : Kernel} {idxs : List Word} :
      Written boot idxs s → k.gdtLimit = s.gdtLimit → Written boot idxs k

/-- What the descriptors written keep: the table ends with the last byte of a descriptor, and has
those at `idxs`. -/
structure Table (s : Kernel) (idxs : List Word) : Prop where
  ends : s.gdtLimit.toNat % 8 = 7
  covered : ∀ idx ∈ idxs, s.Covered idx

theorem writeDesc_gdtLimit (s : Kernel) (index limit base attr access : Word) :
    (s.writeDesc index limit base attr access).gdtLimit =
      if s.gdtLimit < index.setWidth 16 then (index + 8 - 1).setWidth 16 else s.gdtLimit := by
  unfold writeDesc
  dsimp only
  split
  · rfl
  · rfl

/-- One descriptor more. -/
theorem Table.writeDesc (h : Table s idxs) (hindex : index.toNat % 8 = 0)
    (hlt : index.toNat < 2 ^ 16) (limit base attr access : Word) :
    Table (s.writeDesc index limit base attr access) (index :: idxs) := by
  have hends := h.ends
  have hlimit := writeDesc_gdtLimit s index limit base attr access
  have hlast : ((index + 8 - 1).setWidth 16).toNat = index.toNat + 7 := by
    bv_omega
  have hgrow : s.gdtLimit < index.setWidth 16 ↔ s.gdtLimit.toNat < index.toNat := by
    rw [BitVec.lt_def, BitVec.toNat_setWidth, Nat.mod_eq_of_lt hlt]
  simp only [hgrow] at hlimit
  split at hlimit
  next hbeyond =>
    constructor
    · rw [hlimit, hlast]
      omega
    · intro idx hmem
      rcases List.mem_cons.mp hmem with rfl | hmem
      · exact (hlast.symm.trans (congrArg BitVec.toNat hlimit).symm).le
      · have hcovered : idx.toNat + 7 ≤ s.gdtLimit.toNat := h.covered idx hmem
        rw [Covered, hlimit, hlast]
        omega
  next hwithin =>
    constructor
    · rw [hlimit]
      exact hends
    · intro idx hmem
      rcases List.mem_cons.mp hmem with rfl | hmem
      · rw [Covered, hlimit]
        omega
      · rw [Covered, hlimit]
        exact h.covered idx hmem

theorem Written.table (hwritten : Written s idxs k) (hends : s.gdtLimit.toNat % 8 = 7) :
    Table k idxs := by
  induction hwritten with
  | boot => exact ⟨hends, fun idx hmem => absurd hmem List.not_mem_nil⟩
  | segment limit base present privilege type granularity _ hindex hlt ih =>
      exact ih.writeDesc hindex hlt ..
  | tss limit base present busy granularity _ hindex hlt ih =>
      exact ih.writeDesc hindex hlt ..
  | other _ hsame ih =>
      refine ⟨hsame ▸ ih.ends, fun idx hmem => ?_⟩
      rw [Covered, hsame]
      exact ih.covered idx hmem

/-! ## What is read back -/

theorem writeSegmentDesc_eq (s : Kernel) (index limit base present privilege : Word)
    (type : SegType) (granularity : Word) :
    s.writeSegmentDesc index limit base present privilege type granularity =
      s.writeDesc index limit base (granularity <<< 7 ||| 0b1000000)
        (segmentAccess present privilege type) := by
  cases type with
  | code => rfl
  | data => rfl
  | stack => rfl

theorem getLimit_writeSegmentDesc (s : Kernel) (index limit base present privilege : Word)
    (type : SegType) (granularity : Word) :
    ((s.writeSegmentDesc index limit base present privilege type granularity).getLimit
        index).toNat =
      if (limit.getLsbD 23 || granularity.getLsbD 0) = true then
        0x1000 * (limit.toNat % 0x100000)
      else limit.toNat % 0x100000 := by
  rw [toNat_getLimit, writeSegmentDesc_eq, writeDesc_gdt_self,
    encode_rawLimit (segmentAttr_low granularity), encode_pageGranular, segmentAttr_granular]

/-- The descriptor at `index` reads back as what `_write_segment_desc` was to store, the other
ones are as they were, and the table has all of them. -/
structure Decodes (s s' : Kernel) (idxs : List Word) (index limit base present privilege : Word)
    (type : SegType) (granularity : Word) : Prop where
  getBase : s'.getBase index = base
  dataBase : ∀ process, s'.dataIndex process = index → s'.dataBase process = base
  getLimit : s'.getLimit index = if granularity.getLsbD 0 then limit <<< 12 else limit
  isPresent : (s'.gdt index).present = present.getLsbD 0
  level : (s'.gdt index).privilege.toNat = privilege.toNat
  typeBits : (s'.gdt index).typeBits = type.bits
  others : ∀ idx ≠ index, s'.gdt idx = s.gdt idx
  covered : ∀ idx ∈ index :: idxs, s'.Covered idx

/-- What `_write_segment_desc` stores is what `_get_base`, `_get_limit` and `_exchange_data`
read, whatever descriptors have been written since the loader has passed a table of
`noSegments` descriptors.  Of a granularity only bit 0 counts, and of `present`. -/
theorem writeSegmentDesc_decodes (boot s : Kernel) (idxs : List Word) (noSegments : BitVec 16)
    (hboot : boot.gdtLimit = 8 * noSegments - 1) (hwritten : Written boot idxs s)
    (index limit base present privilege : Word) (type : SegType) (granularity : Word)
    (hindex : index.toNat % 8 = 0) (hlt : index.toNat < 2 ^ 16) (hlimit : limit.toNat < 2 ^ 20)
    (hprivilege : privilege.toNat < 4) :
    Decodes s (s.writeSegmentDesc index limit base present privilege type granularity) idxs index
      limit base present privilege type granularity := by
  have hends : boot.gdtLimit.toNat % 8 = 7 := by
    rw [hboot]
    bv_omega
  have hbase : (s.writeSegmentDesc index limit base present privilege type granularity).getBase
      index = base := by
    rw [writeSegmentDesc_eq]
    exact getBase_of_encode (writeDesc_gdt_self ..)
  constructor
  case getBase => exact hbase
  case dataBase =>
    intro process hprocess
    rw [dataBase_eq_getBase, hprocess, hbase]
  case getLimit =>
    apply BitVec.eq_of_toNat_eq
    have hhigh : limit.getLsbD 23 = false := Nat.testBit_lt_two_pow (by omega)
    rw [getLimit_writeSegmentDesc, hhigh, Bool.false_or,
      Nat.mod_eq_of_lt (show limit.toNat < 0x100000 from hlimit)]
    split
    · rw [BitVec.toNat_shiftLeft, Nat.shiftLeft_eq]
      omega
    · rfl
  case isPresent =>
    rw [writeSegmentDesc_eq, writeDesc_gdt_self, segmentAccess_present hprivilege]
  case level =>
    rw [writeSegmentDesc_eq, writeDesc_gdt_self, segmentAccess_privilege, BitVec.toNat_setWidth,
      Nat.mod_eq_of_lt hprivilege]
  case typeBits => rw [writeSegmentDesc_eq, writeDesc_gdt_self, segmentAccess_typeBits]
  case others =>
    intro idx hne
    rw [writeSegmentDesc_eq, writeDesc_gdt_of_ne s hne]
  case covered =>
    exact (Written.segment limit base present privilege type granularity hwritten hindex
      hlt).table hends |>.covered

omit [Layout] in
/-- A user data segment of 4 GiB, in the entry after a table of three. -/
theorem writeSegmentDesc_decodes_flat :
    letI := Layout.sample
    Decodes { powerOn with gdtLimit := 23 }
      ({ powerOn with gdtLimit := 23 }.writeSegmentDesc 24 0xfffff 0 1 3 .data 1) [] 24 0xfffff 0 1
      3 .data 1 :=
  letI := Layout.sample
  writeSegmentDesc_decodes _ _ [] 3 (by decide) .boot 24 0xfffff 0 1 3 .data 1 (by decide)
    (by decide) (by decide) (by decide)

/-! ## The task state of a process -/

variable {a : ProcessArgs} {s' : Kernel} {p : Ptr} {tss : Word}

/-- The offset in the GDT of the descriptor of the task state of `process`. -/
def tssIndex (s : Kernel) (process : Ptr) : Word := (s.idxTss process).setWidth 32

/-- The descriptor of the task state is what `create_process` asks for. -/
structure TaskState (s : Kernel) (p : Ptr) : Prop where
  base : s.getBase (s.tssIndex p) = kernelBase + p
  limit : s.getLimit (s.tssIndex p) = sizeofTss
  byteGranular : (s.gdt (s.tssIndex p)).pageGranular = false
  present : (s.gdt (s.tssIndex p)).present = true

/-- The slot of a process that has been created refers to the entry allocated last. -/
theorem Creates.tssIndex (h : Creates s a s' p idxs tss k) : s'.tssIndex p = tss := by
  have hlt := h.available.lt
  have hmultiple := h.available.multiple
  have hidx : s'.idxTss p = tss.setWidth 16 := by
    rw [h.eq]
    exact Function.update_self ..
  have hsmall : tss.toNat < 2 ^ 16 := by
    have hdiv : tss.toNat / 8 < 8192 := hlt
    omega
  rw [Kernel.tssIndex, hidx]
  apply BitVec.eq_of_toNat_eq
  rw [BitVec.toNat_setWidth, BitVec.toNat_setWidth, Nat.mod_eq_of_lt hsmall]
  exact Nat.mod_eq_of_lt tss.isLt

/-- The descriptor that the call leaves for the task state. -/
theorem Creates.tss_desc (h : Creates s a s' p idxs tss k) :
    s'.gdt tss = encode sizeofTss (kernelBase + p) (a.above 0 <<< 7) 0b10001001 := by
  rw [h.eq]
  exact writeDesc_gdt_self ..

/-- `create_process` makes the descriptor it asks for, if and only if bit 0 of the word above those
it pushes is clear. -/
theorem createProcess_tss_iff (s : Kernel) (a : ProcessArgs) (s' : Kernel) (p : Ptr)
    (hcreate : s.createProcess a = some (s', p)) (hp : p ≠ null) :
    TaskState s' p ↔ (a.above 0).getLsbD 0 = false := by
  obtain ⟨hnull, -⟩ | ⟨idxs, tss, k, h⟩ := createProcess_cases hcreate
  · exact absurd hnull hp
  have hdesc := h.tss_desc
  have hgranular : (s'.gdt tss).pageGranular = (a.above 0).getLsbD 0 := by
    rw [hdesc, encode_pageGranular]
    simp [sizeofTss]
  have hraw : (s'.gdt tss).rawLimit = 148 := by
    have hshift : (a.above 0 <<< 7).toNat % 0x10 = 0 := by
      rw [BitVec.toNat_shiftLeft, Nat.shiftLeft_eq]
      omega
    rw [hdesc, encode_rawLimit hshift]
    rfl
  constructor
  · intro htask
    rw [← hgranular, ← h.tssIndex]
    exact htask.byteGranular
  · intro hclear
    rw [hclear] at hgranular
    constructor
    case base =>
      rw [h.tssIndex]
      exact getBase_of_encode hdesc
    case limit =>
      rw [h.tssIndex]
      apply BitVec.eq_of_toNat_eq
      rw [toNat_getLimit, hgranular, hraw]
      rfl
    case byteGranular => rw [h.tssIndex, hgranular]
    case present =>
      rw [h.tssIndex, hdesc]
      simp [encode, SegDesc.present]

omit [Layout] in
/-- A call with a clear word above its arguments. -/
theorem createProcess_tss_plain :
    letI := Layout.sample
    ∃ s' p, powerOn.createProcess plainArgs = some (s', p) ∧ TaskState s' p := by
  let _ := Layout.sample
  have hrun : ((powerOn.createProcess plainArgs).map fun c => decide (c.2 ≠ null)) = some true := by
    decide +kernel
  obtain ⟨⟨s', p⟩, hcreate, hne⟩ := Option.map_eq_some_iff.mp hrun
  exact ⟨s', p, hcreate, (createProcess_tss_iff powerOn plainArgs s' p hcreate
    (of_decide_eq_true hne)).mpr rfl⟩

omit [Layout] in
/-- A call that finds a 1 above its arguments makes a task state of 148 pages. -/
theorem createProcess_tss_pages :
    letI := Layout.sample
    ∃ s' p, powerOn.createProcess { plainArgs with above := fun _ => 1 } = some (s', p) ∧
      p ≠ null ∧ s'.getLimit (s'.tssIndex p) = sizeofTss <<< 12 ∧ ¬ TaskState s' p := by
  let _ := Layout.sample
  have hrun : ((powerOn.createProcess { plainArgs with above := fun _ => 1 }).map fun c =>
      decide (c.2 ≠ null ∧ c.1.getLimit (c.1.tssIndex c.2) = sizeofTss <<< 12)) = some true := by
    decide +kernel
  obtain ⟨⟨s', p⟩, hcreate, hrun⟩ := Option.map_eq_some_iff.mp hrun
  obtain ⟨hne, hlimit⟩ := of_decide_eq_true hrun
  exact ⟨s', p, hcreate, hne, hlimit, fun htask =>
    absurd (hlimit.symm.trans htask.limit) (by decide)⟩

end Kernel

end Mycrokernel
