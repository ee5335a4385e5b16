import Mycrokernel.Kernel.Const
import Mycrokernel.Lib.Numeral

/-!
# Numbers as text

The functions of `usrlib/utilities.c` that write a number into a buffer.  A buffer is the
list of its bytes, and `none` stands for an access outside it, whose effect the C code
does not define.

`uint2String` and `int2String` write decimal numerals and `hex2String` a hexadecimal one,
and leave the rest of the buffer zero.  The loops go through all the places of a number, and
leave out the zeros in front: `uintLoop_spec` and `hexLoop_spec` say so for the places that
are left, wherever in the buffer the loop stands.
-/

namespace Mycrokernel

open Numeral

/-- A `char`. -/
abbrev Byte := BitVec 8

instance : LawfulBEq Byte := inferInstance

/-- The byte of an ASCII character. -/
def byte (c : Char) : Byte := BitVec.ofNat 8 c.toNat

/-- `buf[i] = c`. -/
def store (buf : List Byte) (i : Nat) (c : Byte) : Option (List Byte) :=
  if i < buf.length then some (buf.set i c) else none

/-- The loop that sets `n` bytes to `NUL`, from the byte `i` on. -/
def clear (i : Nat) : Nat → List Byte → Option (List Byte)
  | 0, buf => some buf
  | n + 1, buf => (store buf i 0).bind (clear (i + 1) n)

/-- `strlen`. -/
def strlen : List Byte → Option Nat
  | [] => none
  | c :: cs => if c = 0 then some 0 else (strlen cs).map (· + 1)

/-- The loop of `hex2String`. -/
def hexLoop (what : Word) : Nat → Word → BitVec 8 → Nat → Bool → List Byte → Option (List Byte)
  | 0, _, _, _, _, _ => none
  | n + 1, mask, shift, idx, first, buf =>
    if 0 < mask then
      let val := mask &&& what
      if val = 0 ∧ mask ≠ 0xf ∧ !first then
        hexLoop what n (mask >>> 4) (shift - 1) idx first buf
      else
        let val := val >>> (shift.toNat * 4)
        let c : Byte :=
          if val ≤ 9 then byte '0' + val.setWidth 8 else byte 'A' + val.setWidth 8 - 10
        (store buf idx c).bind (hexLoop what n (mask >>> 4) (shift - 1) (idx + 1) true)
    else some buf

/-- `hex2String`. -/
def hex2String (what : Word) (buf : List Byte) (buflen : Nat) : Option (List Byte) :=
  (store buf 0 (byte '0')).bind fun buf =>
    (store buf 1 (byte 'x')).bind fun buf =>
      (clear 2 (buflen - 2) buf).bind fun buf => hexLoop what 9 0xf0000000 7 2 false buf

/-- The loop of `uint2String`. -/
def uintLoop : Nat → Word → Word → Nat → Bool → List Byte → Option (List Byte)
  | 0, _, _, _, _, _ => none
  | n + 1, what, divider, idx, first, buf =>
    if 0 < divider then
      let val := what / divider
      if val = 0 ∧ divider ≠ 1 ∧ !first then
        uintLoop n (what - val * divider) (divider / 10) idx first buf
      else
        (store buf idx (byte '0' + val.setWidth 8)).bind
          (uintLoop n (what - val * divider) (divider / 10) (idx + 1) true)
    else some buf

/-- `uint2String`, into the buffer that begins at the byte `start` of another. -/
def uint2String (what : Word) (buf : List Byte) (start buflen : Nat) : Option (List Byte) :=
  (clear start buflen buf).bind (uintLoop 11 what 1000000000 start false)

/-- `int2String`. -/
def int2String (what : Word) (buf : List Byte) (buflen : Nat) : Option (List Byte) :=
  (clear 0 buflen buf).bind fun buf =>
    if what.slt 0 then
      (store buf 0 (byte '-')).bind fun buf => uint2String (-what) buf 1 (buflen - 1)
    else uint2String what buf 0 (buflen - 1)

/-! ## Texts -/

/-- The character of a digit. -/
def digit (d : Nat) : Byte :=
  if d < 10 then byte '0' + BitVec.ofNat 8 d else byte 'A' + BitVec.ofNat 8 (d - 10)

/-- The text of `%u`. -/
def uintText (what : Word) : List Byte := (numeral 10 what.toNat).map digit

/-- The text of `%d`. -/
def intText (what : Word) : List Byte :=
  if what.toInt < 0 then byte '-' :: (numeral 10 what.toInt.natAbs).map digit
  else (numeral 10 what.toInt.natAbs).map digit

/-- The text of `%x`. -/
def hexText (what : Word) : List Byte :=
  byte '0' :: byte 'x' :: (numeral 16 what.toNat).map digit

variable {buf front back old : List Byte} {c : Byte} {what divider : Word} {k n r : Nat}
  {first : Bool}

/-! ## Buffers -/

theorem store_append (front back : List Byte) (old c : Byte) :
    store (front ++ old :: back) front.length c = some (front ++ c :: back) := by
  rw [store, if_pos (by simp), List.set_append_right _ _ le_rfl, Nat.sub_self, List.set_cons_zero]

theorem clear_append (front old back : List Byte) :
    clear front.length old.length (front ++ old ++ back) =
      some (front ++ List.replicate old.length 0 ++ back) := by
  induction old generalizing front with
  | nil => rfl
  | cons d old ih =>
      have hnext := ih (front ++ [0])
      simp only [List.length_append, List.length_singleton, List.append_assoc, List.cons_append,
        List.nil_append] at hnext
      rw [List.length_cons, clear, List.append_assoc, List.cons_append, store_append,
        Option.bind_some, hnext, List.replicate_succ, List.append_assoc, List.cons_append]

/-- `strlen` of a text that is padded with `NUL`s. -/
theorem strlen_append {text : List Byte} (h : 0 ∉ text) (rest : List Byte) :
    strlen (text ++ 0 :: rest) = some text.length := by
  induction text with
  | nil => rw [List.nil_append, strlen, if_pos rfl, List.length_nil]
  | cons c text ih =>
      rw [List.mem_cons, not_or] at h
      rw [List.cons_append, strlen, if_neg (Ne.symm h.1), ih h.2, Option.map_some, List.length_cons]

/-! ## Digits -/

/-- What the loops write of the digits that are left: all once they have begun, and before
that all but the zeros in front. -/
def emitted (first : Bool) (ds : List Nat) : List Nat := if first then ds else strip ds

theorem emitted_skip {ds : List Nat} (hne : ds ≠ []) :
    emitted false (0 :: ds) = emitted false ds := by
  cases ds with
  | nil => exact absurd rfl hne
  | cons d ds => rfl

theorem emitted_cons {d : Nat} {ds : List Nat} (first : Bool) (h : ¬ (d = 0 ∧ ds ≠ [] ∧ first = false)) :
    emitted first (d :: ds) = d :: ds := by
  cases first with
  | true => rfl
  | false =>
      cases ds with
      | nil => rfl
      | cons e ds =>
          have hd : d ≠ 0 := fun hd => h ⟨hd, by simp, rfl⟩
          exact if_neg hd

theorem digit_of_lt {d : Nat} (h : d < 10) : digit d = byte '0' + BitVec.ofNat 8 d := if_pos h

/-- The next digit goes to where the loop stands. -/
theorem store_digit (hr : 0 < r) :
    store (front ++ List.replicate r 0 ++ back) front.length c =
      some (front ++ [c] ++ List.replicate (r - 1) 0 ++ back) := by
  obtain ⟨r, rfl⟩ : ∃ m, r = m + 1 := ⟨r - 1, by omega⟩
  rw [List.replicate_succ, List.append_assoc, List.cons_append, store_append, Nat.add_sub_cancel]
  simp

/-- The buffer with digits written behind `front`, where there were `r` zeros. -/
def written (front back : List Byte) (r : Nat) (ds : List Nat) : List Byte :=
  front ++ ds.map digit ++ List.replicate (r - ds.length) 0 ++ back

theorem written_nil : written front back r [] = front ++ List.replicate r 0 ++ back := by
  simp [written]

theorem written_cons (d : Nat) (ds : List Nat) :
    written (front ++ [digit d]) back (r - 1) ds = written front back r (d :: ds) := by
  simp only [written, List.map_cons, List.append_assoc, List.cons_append, List.nil_append,
    List.length_cons]
  rw [Nat.sub_sub, Nat.add_comm 1]

/-! ## Decimal numerals -/

/-- What a division by a power of ten finds: the digit at the place, and the number that the
places behind it stand for. -/
structure Place (what divider : Word) (k : Nat) : Prop where
  pos : 0 < divider
  val : (what / divider).toNat = what.toNat / 10 ^ k
  lt : what.toNat / 10 ^ k < 10
  next : (divider / 10).toNat = 10 ^ k / 10
  small : (what - what / divider * divider).toNat < 10 ^ k
  digits : padded 10 (k + 1) what.toNat =
    what.toNat / 10 ^ k :: padded 10 k (what - what / divider * divider).toNat
  zero : what / divider = 0 ↔ what.toNat / 10 ^ k = 0
  last : divider ≠ 1 ↔ padded 10 k (what - what / divider * divider).toNat ≠ []

theorem place (hdivider : divider.toNat = 10 ^ (k + 1) / 10) (hwhat : what.toNat < 10 ^ (k + 1)) :
    Place what divider k := by
  have hten : 10 ^ (k + 1) / 10 = 10 ^ k := by
    rw [Nat.pow_succ, Nat.mul_div_cancel _ (by decide)]
  have hpow : 0 < 10 ^ k := Nat.pow_pos (by decide)
  rw [hten] at hdivider
  have hval : (what / divider).toNat = what.toNat / 10 ^ k := by
    rw [BitVec.toNat_udiv, hdivider]
  have hmul : (what / divider * divider).toNat = what.toNat / 10 ^ k * 10 ^ k := by
    rw [BitVec.toNat_mul, hval, hdivider]
    exact Nat.mod_eq_of_lt ((Nat.div_mul_le_self ..).trans_lt what.isLt)
  have hrest : (what - what / divider * divider).toNat = what.toNat % 10 ^ k := by
    have hle : what.toNat / 10 ^ k * 10 ^ k ≤ what.toNat := Nat.div_mul_le_self ..
    have hmod := Nat.mod_add_div' what.toNat (10 ^ k)
    rw [BitVec.toNat_sub_of_le (by rw [BitVec.le_def, hmul]; exact hle), hmul]
    omega
  constructor
  case pos =>
    rw [BitVec.lt_def, hdivider]
    exact hpow
  case val => exact hval
  case lt =>
    rw [Nat.pow_succ] at hwhat
    exact Nat.div_lt_of_lt_mul hwhat
  case next =>
    rw [BitVec.toNat_udiv, hdivider]
    rfl
  case small =>
    rw [hrest]
    exact Nat.mod_lt _ hpow
  case digits => rw [padded, hrest]
  case zero =>
    rw [← hval]
    exact BitVec.toNat_inj.symm
  case last =>
    rw [ne_eq, ne_eq, not_iff_not, ← BitVec.toNat_inj, hdivider, ← List.length_eq_zero_iff,
      padded_length]
    exact Nat.pow_eq_one.trans (or_iff_right (by decide))

theorem uintLoop_spec (front back : List Byte) (first : Bool) (hk : k ≤ 10) (hn : k < n)
    (hdivider : divider.toNat = 10 ^ k / 10) (hwhat : what.toNat < 10 ^ k)
    (hr : (emitted first (padded 10 k what.toNat)).length ≤ r) :
    uintLoop n what divider front.length first (front ++ List.replicate r 0 ++ back) =
      some (written front back r (emitted first (padded 10 k what.toNat))) := by
  induction k generalizing n what divider front first r with
  | zero =>
      obtain ⟨n, rfl⟩ : ∃ m, n = m + 1 := ⟨n - 1, by omega⟩
      have hzero : divider = 0 := BitVec.eq_of_toNat_eq hdivider
      rw [uintLoop, hzero, if_neg (by decide), ← written_nil]
      cases first with
      | true => rfl
      | false => rfl
  | succ k ih =>
      obtain ⟨n, rfl⟩ : ∃ m, n = m + 1 := ⟨n - 1, by omega⟩
      have hplace := place hdivider hwhat
      rw [uintLoop, if_pos hplace.pos]
      rw [hplace.digits] at hr ⊢
      dsimp only
      split
      next hskip =>
        obtain ⟨hnull, hne, hfirst⟩ := hskip
        have hfirst : first = false := by simpa using hfirst
        subst hfirst
        rw [hplace.zero.mp hnull, emitted_skip (hplace.last.mp hne)] at hr ⊢
        exact ih front false (by omega) (by omega) hplace.next hplace.small hr
      next hwrite =>
        have hkept := emitted_cons first fun h =>
          hwrite ⟨hplace.zero.mpr h.1, hplace.last.mpr h.2.1, by simp [h.2.2]⟩
        rw [hkept] at hr ⊢
        rw [List.length_cons] at hr
        have hdigit : byte '0' + (what / divider).setWidth 8 = digit (what.toNat / 10 ^ k) := by
          rw [digit_of_lt hplace.lt, ← hplace.val]
          rfl
        have hrest := ih (front ++ [digit (what.toNat / 10 ^ k)]) true (by omega)
          (Nat.lt_of_succ_lt_succ hn) hplace.next hplace.small (Nat.le_sub_of_add_le hr)
        rw [List.length_append, List.length_singleton] at hrest
        rw [hdigit, store_digit (by omega), Option.bind_some, hrest, written_cons]
        rfl

theorem uint2String_spec (what : Word) (front old back : List Byte) (h : 10 ≤ old.length) :
    uint2String what (front ++ old ++ back) front.length old.length =
      some (front ++ uintText what ++
        List.replicate (old.length - (uintText what).length) 0 ++ back) := by
  have hwhat : what.toNat < 10 ^ 10 := what.isLt.trans (by decide)
  have htext : emitted false (padded 10 10 what.toNat) = numeral 10 what.toNat :=
    strip_padded (by decide) hwhat
  have hlen : (numeral 10 what.toNat).length ≤ 10 := numeral_length_le (by decide) hwhat
  rw [uint2String, clear_append, Option.bind_some,
    uintLoop_spec front back false le_rfl (by decide) rfl hwhat (by rw [htext]; omega), htext,
    written, uintText, List.length_map]

theorem toNat_neg_of_slt (h : what.toInt < 0) : (-what).toNat = what.toInt.natAbs := by
  have hwhat := what.isLt
  rw [BitVec.toInt_eq_toNat_cond] at h ⊢
  rw [BitVec.toNat_neg]
  omega

theorem toNat_eq_of_not_slt (h : ¬ what.toInt < 0) : what.toNat = what.toInt.natAbs := by
  rw [BitVec.toInt_eq_toNat_cond] at h ⊢
  omega

theorem int2String_spec (h : 12 ≤ buf.length) :
    int2String what buf buf.length =
      some (intText what ++ List.replicate (buf.length - (intText what).length) 0) := by
  have hclear := clear_append [] buf []
  simp only [List.nil_append, List.append_nil, List.length_nil] at hclear
  rw [int2String, hclear, Option.bind_some]
  obtain ⟨m, hm⟩ : ∃ m, buf.length = m + 1 := ⟨buf.length - 1, by omega⟩
  have hslt : what.slt 0 = decide (what.toInt < 0) := rfl
  rw [hm, Nat.add_sub_cancel, hslt]
  split
  next hneg =>
    have hneg : what.toInt < 0 := by simpa using hneg
    have hstore := store_append [] (List.replicate m 0) 0 (byte '-')
    have hwrite := uint2String_spec (-what) [byte '-'] (List.replicate m 0) []
      (by rw [List.length_replicate]; omega)
    rw [List.length_replicate, List.append_nil, List.append_nil] at hwrite
    rw [List.replicate_succ, show (0 : Nat) = ([] : List Byte).length from rfl,
      ← List.nil_append (_ :: _), hstore, Option.bind_some]
    refine hwrite.trans (congrArg some ?_)
    rw [uintText, intText, if_pos hneg, toNat_neg_of_slt hneg, List.length_cons]
    simp
  next hneg =>
    have hneg : ¬ what.toInt < 0 := by simpa using hneg
    have hwrite := uint2String_spec what [] (List.replicate m 0) [0]
      (by rw [List.length_replicate]; omega)
    have hlen : (uintText what).length ≤ 10 := by
      rw [uintText, List.length_map]
      exact numeral_length_le (by decide) (what.isLt.trans (by decide))
    rw [List.length_replicate, List.nil_append, List.nil_append] at hwrite
    rw [List.replicate_succ']
    refine hwrite.trans (congrArg some ?_)
    rw [List.append_assoc, ← List.replicate_succ', ← Nat.sub_add_comm (by omega)]
    rw [uintText, intText, if_neg hneg, toNat_eq_of_not_slt hneg]

/-! ## Hexadecimal numerals -/

/-- A mask of four bits picks out a digit. -/
theorem toNat_mask {mask : Word} {m : Nat} (hmask : mask.toNat = 15 * 16 ^ m) :
    (mask &&& what).toNat = what.toNat / 16 ^ m % 16 * 16 ^ m := by
  have hpow : (16 : Nat) ^ m = 2 ^ (4 * m) := by rw [Nat.pow_mul]
  have hdiv : (mask &&& what).toNat / 16 ^ m = what.toNat / 16 ^ m % 16 := by
    rw [BitVec.toNat_and, hpow, Nat.and_div_two_pow, hmask, hpow,
      Nat.mul_div_cancel _ (Nat.pow_pos (by decide)), Nat.and_comm]
    exact Nat.and_two_pow_sub_one_eq_mod _ 4
  have hmod : (mask &&& what).toNat % 16 ^ m = 0 := by
    rw [BitVec.toNat_and, hpow, Nat.and_mod_two_pow, hmask, hpow, Nat.mul_mod_left, Nat.zero_and]
  rw [← hdiv, Nat.div_mul_cancel (Nat.dvd_of_mod_eq_zero hmod)]

/-- The character that `hex2String` writes for a digit. -/
theorem hex_digit (val : Word) (h : val.toNat < 16) :
    (if val ≤ 9 then byte '0' + val.setWidth 8 else byte 'A' + val.setWidth 8 - 10) =
      digit val.toNat := by
  obtain ⟨v, rfl⟩ : ∃ v : Fin 16, val = BitVec.ofNat 32 v :=
    ⟨⟨val.toNat, h⟩, BitVec.eq_of_toNat_eq (by simp)⟩
  revert v
  decide

/-- What a mask of four bits finds: the digit at the place. -/
structure HexPlace (what mask : Word) (shift : BitVec 8) (k : Nat) : Prop where
  pos : 0 < mask
  val : ((mask &&& what) >>> (shift.toNat * 4)).toNat = what.toNat / 16 ^ k % 16
  next : (mask >>> 4).toNat = 15 * 16 ^ k / 16
  less : k ≠ 0 → (shift - 1).toNat = k - 1
  digits : padded 16 (k + 1) (what.toNat % 16 ^ (k + 1)) =
    what.toNat / 16 ^ k % 16 :: padded 16 k (what.toNat % 16 ^ k)
  zero : mask &&& what = 0 ↔ what.toNat / 16 ^ k % 16 = 0
  last : mask ≠ 0xf ↔ padded 16 k (what.toNat % 16 ^ k) ≠ []

theorem hexPlace {mask : Word} {shift : BitVec 8} (hmask : mask.toNat = 15 * 16 ^ (k + 1) / 16)
    (hshift : shift.toNat = k) : HexPlace what mask shift k := by
  have hpow : 0 < 16 ^ k := Nat.pow_pos (by decide)
  have hmask : mask.toNat = 15 * 16 ^ k := by
    rw [hmask, Nat.pow_succ, ← Nat.mul_assoc, Nat.mul_div_cancel _ (by decide)]
  have hval : (mask &&& what).toNat = what.toNat / 16 ^ k % 16 * 16 ^ k := toNat_mask hmask
  constructor
  case pos =>
    rw [BitVec.lt_def, hmask]
    exact Nat.mul_pos (by decide) hpow
  case val =>
    rw [BitVec.toNat_ushiftRight, hval, Nat.shiftRight_eq_div_pow, hshift, Nat.mul_comm k,
      Nat.pow_mul]
    exact Nat.mul_div_cancel _ hpow
  case next => rw [BitVec.toNat_ushiftRight, hmask, Nat.shiftRight_eq_div_pow]
  case less =>
    intro hk
    rw [BitVec.toNat_sub_of_le (by rw [BitVec.le_def, hshift]; exact Nat.pos_of_ne_zero hk), hshift]
    rfl
  case digits => rw [padded, Nat.pow_succ, Nat.mod_mul_right_div_self, Nat.mod_mul_right_mod]
  case zero =>
    rw [← BitVec.toNat_inj, hval]
    exact Nat.mul_eq_zero.trans (or_iff_left hpow.ne')
  case last =>
    rw [ne_eq, ne_eq, not_iff_not, ← BitVec.toNat_inj, hmask, ← List.length_eq_zero_iff,
      padded_length]
    refine (Nat.mul_eq_left (by decide)).trans ?_
    exact Nat.pow_eq_one.trans (or_iff_right (by decide))

theorem HexPlace.digit {mask : Word} {shift : BitVec 8} (h : HexPlace what mask shift k) :
    (if (mask &&& what) >>> (shift.toNat * 4) ≤ 9
      then byte '0' + ((mask &&& what) >>> (shift.toNat * 4)).setWidth 8
      else byte 'A' + ((mask &&& what) >>> (shift.toNat * 4)).setWidth 8 - 10) =
      Mycrokernel.digit (what.toNat / 16 ^ k % 16) := by
  rw [← h.val]
  exact hex_digit _ (by rw [h.val]; exact Nat.mod_lt _ (by decide))

theorem hexLoop_spec {mask : Word} {shift : BitVec 8} (front back : List Byte) (first : Bool)
    (hn : k < n) (hk : k ≤ 8) (hmask : mask.toNat = 15 * 16 ^ k / 16)
    (hshift : k ≠ 0 → shift.toNat = k - 1)
    (hr : (emitted first (padded 16 k (what.toNat % 16 ^ k))).length ≤ r) :
    hexLoop what n mask shift front.length first (front ++ List.replicate r 0 ++ back) =
      some (written front back r (emitted first (padded 16 k (what.toNat % 16 ^ k)))) := by
  induction k generalizing n mask shift front first r with
  | zero =>
      obtain ⟨n, rfl⟩ : ∃ m, n = m + 1 := ⟨n - 1, by omega⟩
      have hzero : mask = 0 := BitVec.eq_of_toNat_eq hmask
      rw [hexLoop, hzero, if_neg (by decide), ← written_nil]
      cases first with
      | true => rfl
      | false => rfl
  | succ k ih =>
      obtain ⟨n, rfl⟩ : ∃ m, n = m + 1 := ⟨n - 1, by omega⟩
      have hplace : HexPlace what mask shift k := hexPlace hmask (hshift (by omega))
      rw [hexLoop, if_pos hplace.pos]
      rw [hplace.digits] at hr ⊢
      dsimp only
      split
      next hskip =>
        obtain ⟨hnull, hne, hfirst⟩ := hskip
        have hfirst : first = false := by simpa using hfirst
        subst hfirst
        rw [hplace.zero.mp hnull, emitted_skip (hplace.last.mp hne)] at hr ⊢
        exact ih front false (by omega) (by omega) hplace.next hplace.less hr
      next hwrite =>
        have hkept := emitted_cons first fun h =>
          hwrite ⟨hplace.zero.mpr h.1, hplace.last.mpr h.2.1, by simp [h.2.2]⟩
        rw [hkept] at hr ⊢
        rw [List.length_cons] at hr
        have hrest := ih (front ++ [digit (what.toNat / 16 ^ k % 16)]) true
          (Nat.lt_of_succ_lt_succ hn) (by omega) hplace.next hplace.less (Nat.le_sub_of_add_le hr)
        rw [List.length_append, List.length_singleton] at hrest
        rw [hplace.digit, store_digit (by omega), Option.bind_some, hrest, written_cons]
        rfl

theorem hex2String_spec (h : 10 ≤ buf.length) :
    hex2String what buf buf.length =
      some (hexText what ++ List.replicate (buf.length - (hexText what).length) 0) := by
  obtain ⟨c, d, old, rfl⟩ : ∃ c d old, buf = c :: d :: old := by
    match buf, h with
    | c :: d :: old, _ => exact ⟨c, d, old, rfl⟩
  have hzero := store_append [] (d :: old) c (byte '0')
  have hx := store_append [byte '0'] old d (byte 'x')
  have hclear := clear_append [byte '0', byte 'x'] old []
  have hwhat : what.toNat < 16 ^ 8 := what.isLt
  have htext : emitted false (padded 16 8 (what.toNat % 16 ^ 8)) = numeral 16 what.toNat := by
    rw [Nat.mod_eq_of_lt hwhat]
    exact strip_padded (by decide) hwhat
  have hlen : (numeral 16 what.toNat).length ≤ 8 := numeral_length_le (by decide) hwhat
  have hroom : (numeral 16 what.toNat).length ≤ old.length := by
    rw [List.length_cons, List.length_cons] at h
    omega
  have hdigits : hexLoop what 9 0xf0000000 7 2 false
      ([byte '0', byte 'x'] ++ List.replicate old.length 0 ++ []) =
        some (written [byte '0', byte 'x'] [] old.length (numeral 16 what.toNat)) := by
    rw [← htext] at hroom ⊢
    exact hexLoop_spec [byte '0', byte 'x'] [] false (by decide) le_rfl rfl (fun _ => rfl) hroom
  simp only [List.append_nil] at hclear hdigits
  rw [hex2String]
  refine (congrArg (Option.bind · _) hzero).trans ?_
  rw [Option.bind_some]
  refine (congrArg (Option.bind · _) hx).trans ?_
  rw [Option.bind_some]
  refine (congrArg (Option.bind · _) hclear).trans ?_
  rw [Option.bind_some]
  refine hdigits.trans (congrArg some ?_)
  rw [hexText, written]
  simp

/-! ## What numbers look like -/

/-- What is common to the texts of numbers: they can be told from the conversions of a format
and from the end of a string, and they fit into the buffer of `outf`. -/
structure NumberText (text : List Byte) : Prop where
  noNul : 0 ∉ text
  noPercent : byte '%' ∉ text
  ne_nil : text ≠ []
  length_le : text.length ≤ 11

theorem digit_plain {d : Nat} (h : d < 16) : digit d ≠ 0 ∧ digit d ≠ byte '%' := by
  interval_cases d <;> decide

theorem mem_numeral_plain {b : Nat} (hb : 1 < b) (hb16 : b ≤ 16) :
    ∀ c ∈ (numeral b n).map digit, c ≠ 0 ∧ c ≠ byte '%' := by
  intro c hc
  obtain ⟨d, hd, rfl⟩ := List.mem_map.mp hc
  exact digit_plain ((lt_of_mem_numeral hb d hd).trans_le hb16)

theorem numberText_numeral {b : Nat} (hb : 1 < b) (hb16 : b ≤ 16) (hn : n < b ^ 10) :
    NumberText ((numeral b n).map digit) where
  noNul hmem := (mem_numeral_plain hb hb16 _ hmem).1 rfl
  noPercent hmem := (mem_numeral_plain hb hb16 _ hmem).2 rfl
  ne_nil h := numeral_ne_nil b n (List.map_eq_nil_iff.mp h)
  length_le := by
    rw [List.length_map]
    exact (numeral_length_le hb hn).trans (by decide)

theorem numberText_uintText (what : Word) : NumberText (uintText what) :=
  numberText_numeral (by decide) (by decide) (what.isLt.trans (by decide))

theorem numberText_intText (what : Word) : NumberText (intText what) := by
  have hlt : what.toInt.natAbs < 10 ^ 10 := by
    have hle := BitVec.le_toInt what
    have hge := BitVec.toInt_lt (x := what)
    norm_num at hle hge
    omega
  have hplain := numberText_numeral (b := 10) (by decide) (by decide) hlt
  have hlen : ((numeral 10 what.toInt.natAbs).map digit).length ≤ 10 := by
    rw [List.length_map]
    exact numeral_length_le (by decide) hlt
  unfold intText
  split
  next =>
    refine ⟨?_, ?_, List.cons_ne_nil _ _, ?_⟩
    · exact List.not_mem_cons_of_ne_of_not_mem (by decide) hplain.noNul
    · exact List.not_mem_cons_of_ne_of_not_mem (by decide) hplain.noPercent
    · rw [List.length_cons]
      omega
  next => exact hplain

theorem numberText_hexText (what : Word) : NumberText (hexText what) := by
  have hlen : ((numeral 16 what.toNat).map digit).length ≤ 8 := by
    rw [List.length_map]
    exact numeral_length_le (by decide) what.isLt
  have hplain := mem_numeral_plain (n := what.toNat) (b := 16) (by decide) (by decide)
  have hdigits : ∀ c ∈ hexText what, c ≠ 0 ∧ c ≠ byte '%' := by
    intro c hc
    rw [hexText, List.mem_cons, List.mem_cons] at hc
    obtain rfl | rfl | hc := hc
    · decide
    · decide
    · exact hplain c hc
  refine ⟨fun hmem => (hdigits _ hmem).1 rfl, fun hmem => (hdigits _ hmem).2 rfl,
    List.cons_ne_nil _ _, ?_⟩
  rw [hexText, List.length_cons, List.length_cons]
  omega

end Mycrokernel
