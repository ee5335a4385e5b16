import Mycrokernel.Usr.Number
import Mycrokernel.Tty.Terminal

/-!
# Numbers in a buffer and on the screen

`usrlib/utilities.c` writes numbers into buffers and `tty/main.c` puts them on the screen, each
with loops of its own.  `numbers_exact` says that the texts are the numerals of the numbers, and
that the two agree.
-/

namespace Mycrokernel

open Numeral

/-! ## Numerals as texts -/

/-- The value of a character, if it is a digit of the base. -/
def digitValue (b : Nat) (c : Byte) : Option Nat :=
  let value :=
    if byte '0' ≤ c ∧ c ≤ byte '9' then some (c - byte '0').toNat
    else if byte 'A' ≤ c ∧ c ≤ byte 'F' then some ((c - byte 'A').toNat + 10)
    else none
  value.filter (· < b)

/-- The number that a text of digits stands for. -/
def parse (b : Nat) (text : List Byte) : Option Nat :=
  text.foldlM (fun n c => (digitValue b c).map (n * b + ·)) 0

/-- The number that a text of decimal digits stands for, which may have a sign. -/
def parseInt (text : List Byte) : Option Int :=
  if text.head? = some (byte '-') then (parse 10 text.tail).map fun n : Nat => -(n : Int)
  else (parse 10 text).map Int.ofNat

/-- The text is the numeral of `n`: it has digits that stand for `n`, and no zero in front. -/
structure IsNumeral (b : Nat) (text : List Byte) (n : Nat) : Prop where
  ne_nil : text ≠ []
  noZero : text.head? = some (byte '0') → text = [byte '0']
  parses : parse b text = some n

/-- The function has filled the buffer with the text and its `NUL`, and more. -/
def Fills (buf : List Byte) (result : Option (List Byte)) (text : List Byte) : Prop :=
  ∃ rest, result = some (text ++ 0 :: rest) ∧ (text ++ 0 :: rest).length = buf.length ∧ 0 ∉ text

theorem digitValue_digit {b d : Nat} (hb : b ≤ 16) (hd : d < b) :
    digitValue b (digit d) = some d := by
  have hall : ∀ b ≤ 16, ∀ d < b, digitValue b (digit d) = some d := by decide
  exact hall b hb d hd

theorem digit_zero : ∀ d < 16, digit d = byte '0' → d = 0 := by decide

/-- Digits stand for their sum. -/
theorem foldlM_digits {b : Nat} {ds : List Nat} (hb : b ≤ 16) (hds : ∀ d ∈ ds, d < b) (n : Nat) :
    (ds.map digit).foldlM (fun n c => (digitValue b c).map (n * b + ·)) n =
      some (ds.foldl (fun n d => n * b + d) n) := by
  induction ds generalizing n with
  | nil => rfl
  | cons d ds ih =>
      rw [List.map_cons, List.foldlM_cons, digitValue_digit hb (hds d List.mem_cons_self)]
      exact ih (fun e he => hds e (List.mem_cons_of_mem _ he)) _

theorem foldl_eq_ofDigits (b : Nat) (ds : List Nat) :
    ds.foldl (fun n d => n * b + d) 0 = Nat.ofDigits b ds.reverse := by
  induction ds using List.reverseRecOn with
  | nil => rfl
  | append_singleton ds d ih =>
      rw [List.foldl_append, ih, List.reverse_append, List.reverse_singleton, List.singleton_append,
        Nat.ofDigits_cons, Nat.mul_comm, Nat.add_comm]
      rfl

/-- What `numeral` gives is the numeral. -/
theorem isNumeral_numeral {b : Nat} (hb : 1 < b) (hb16 : b ≤ 16) (n : Nat) :
    IsNumeral b ((numeral b n).map digit) n where
  ne_nil h := numeral_ne_nil b n (List.map_eq_nil_iff.mp h)
  noZero := by
    intro hhead
    rw [List.head?_map] at hhead
    obtain ⟨d, hd, hzero⟩ := Option.map_eq_some_iff.mp hhead
    have hlt : d < 16 := (lt_of_mem_numeral hb d (List.mem_of_head? hd)).trans_le hb16
    obtain rfl : d = 0 := digit_zero d hlt hzero
    rw [head_numeral hd, numeral_of_lt (Nat.zero_lt_of_lt hb)]
    rfl
  parses := by
    rw [parse, foldlM_digits hb16 (lt_of_mem_numeral hb), foldl_eq_ofDigits, ofDigits_numeral]

/-! ## On the screen -/

namespace Tty

variable {what divider mask : Word} {tty : Bool} {k n : Nat} {shift : BitVec 8}

/-- The digits, as actions. -/
def puts (tty : Bool) (ds : List Nat) : List Action := ds.map fun d => .putcharacter (digit d) tty

theorem puthexLoop_spec (first : Bool) (hn : k < n) (hmask : mask.toNat = 15 * 16 ^ k / 16)
    (hshift : k ≠ 0 → shift.toNat = k - 1) :
    puthexLoop what tty n mask shift first =
      puts tty (emitted first (padded 16 k (what.toNat % 16 ^ k))) := by
  induction k generalizing n mask shift first with
  | zero =>
      obtain ⟨n, rfl⟩ : ∃ m, n = m + 1 := ⟨n - 1, by omega⟩
      have hzero : mask = 0 := BitVec.eq_of_toNat_eq hmask
      rw [puthexLoop, hzero, if_neg (by decide)]
      cases first with
      | true => rfl
      | false => rfl
  | succ k ih =>
      obtain ⟨n, rfl⟩ : ∃ m, n = m + 1 := ⟨n - 1, by omega⟩
      have hplace : HexPlace what mask shift k := hexPlace hmask (hshift (by omega))
      rw [puthexLoop, if_pos hplace.pos, hplace.digits]
      dsimp only
      split
      next hskip =>
        obtain ⟨hnull, hne, hfirst⟩ := hskip
        have hfirst : first = false := by simpa using hfirst
        subst hfirst
        rw [hplace.zero.mp hnull, emitted_skip (hplace.last.mp hne)]
        exact ih false (by omega) hplace.next hplace.less
      next hwrite =>
        rw [emitted_cons first fun h =>
          hwrite ⟨hplace.zero.mpr h.1, hplace.last.mpr h.2.1, by simp [h.2.2]⟩, hplace.digit,
          ih true (by omega) hplace.next hplace.less]
        rfl

/-- `puthex` puts the digits of the numeral. -/
theorem puthex_eq (what : Word) (tty : Bool) :
    puthex what tty = puts tty (numeral 16 what.toNat) := by
  have hwhat : what.toNat < 16 ^ 8 := what.isLt
  rw [puthex, puthexLoop_spec (k := 8) false (by decide) rfl fun _ => rfl, Nat.mod_eq_of_lt hwhat]
  exact congrArg (puts tty) (strip_padded (by decide) hwhat)

theorem putunsintLoop_spec (first : Bool) (hk : k ≤ 10) (hn : k < n)
    (hdivider : divider.toNat = 10 ^ k / 10) (hwhat : what.toNat < 10 ^ k) :
    putunsintLoop tty n what divider first =
      puts tty (emitted first (padded 10 k what.toNat)) := by
  induction k generalizing n what divider first with
  | zero =>
      obtain ⟨n, rfl⟩ : ∃ m, n = m + 1 := ⟨n - 1, by omega⟩
      have hzero : divider = 0 := BitVec.eq_of_toNat_eq hdivider
      rw [putunsintLoop, hzero, if_neg (by decide)]
      cases first with
      | true => rfl
      | false => rfl
  | succ k ih =>
      obtain ⟨n, rfl⟩ : ∃ m, n = m + 1 := ⟨n - 1, by omega⟩
      have hplace := place hdivider hwhat
      rw [putunsintLoop, if_pos hplace.pos, hplace.digits]
      dsimp only
      split
      next hskip =>
        obtain ⟨hnull, hne, hfirst⟩ := hskip
        have hfirst : first = false := by simpa using hfirst
        subst hfirst
        rw [hplace.zero.mp hnull, emitted_skip (hplace.last.mp hne)]
        exact ih false (by omega) (by omega) hplace.next hplace.small
      next hwrite =>
        -- a decimal digit is put by `puthex`, as the only digit of its numeral
        have hdigit : numeral 16 (what / divider).toNat = [what.toNat / 10 ^ k] := by
          rw [hplace.val, numeral_of_lt (hplace.lt.trans (by decide))]
        rw [emitted_cons first fun h =>
          hwrite ⟨hplace.zero.mpr h.1, hplace.last.mpr h.2.1, by simp [h.2.2]⟩, puthex_eq, hdigit,
          ih true (by omega) (by omega) hplace.next hplace.small]
        rfl

/-- `putunsint` puts the digits of the numeral. -/
theorem putunsint_eq (what : Word) (tty : Bool) :
    putunsint what tty = puts tty (numeral 10 what.toNat) := by
  have hwhat : what.toNat < 10 ^ 10 := what.isLt.trans (by decide)
  rw [putunsint, putunsintLoop_spec (k := 10) false le_rfl (by decide) rfl hwhat]
  exact congrArg (puts tty) (strip_padded (by decide) hwhat)

end Tty

/-! ## In a buffer -/

variable {what : Word} {buf text : List Byte} {result : Option (List Byte)}

/-- A text with zeros behind it, for which there is room, ends in the buffer. -/
theorem fills_of_eq (htext : NumberText text) (hlength : text.length < buf.length)
    (h : result = some (text ++ List.replicate (buf.length - text.length) 0)) :
    Fills buf result text := by
  obtain ⟨n, hn⟩ : ∃ n, buf.length - text.length = n + 1 := ⟨_, (Nat.sub_add_cancel (by omega)).symm⟩
  rw [hn, List.replicate_succ] at h
  refine ⟨_, h, ?_, htext.noNul⟩
  rw [List.length_append, List.length_cons, List.length_replicate]
  omega

theorem fills_uint2String (h : 12 ≤ buf.length) :
    Fills buf (uint2String what buf 0 buf.length) (uintText what) := by
  have hlength := (numberText_uintText what).length_le
  refine fills_of_eq (numberText_uintText what) (by omega) ?_
  simpa using uint2String_spec what [] buf [] (by omega)

theorem fills_int2String (h : 12 ≤ buf.length) :
    Fills buf (int2String what buf buf.length) (intText what) :=
  fills_of_eq (numberText_intText what)
    (Nat.lt_of_lt_of_le (Nat.lt_succ_of_le (numberText_intText what).length_le) h)
    (int2String_spec h)

theorem fills_hex2String (h : 12 ≤ buf.length) :
    Fills buf (hex2String what buf buf.length) (hexText what) :=
  fills_of_eq (numberText_hexText what)
    (Nat.lt_of_lt_of_le (Nat.lt_succ_of_le (numberText_hexText what).length_le) h)
    (hex2String_spec (Nat.le_trans (by decide) h))

/-! ## All of them -/

/-- The sign of a negative number. -/
def sign (what : Word) : List Byte := if what.toInt < 0 then [byte '-'] else []

theorem intText_eq (what : Word) :
    intText what = sign what ++ (numeral 10 what.toInt.natAbs).map digit := by
  rw [intText, sign]
  split
  next => rfl
  next => rfl

theorem digit_ne_minus : ∀ d < 10, digit d ≠ byte '-' := by decide

/-- A decimal numeral with the sign of the number stands for the number. -/
theorem parseInt_sign {digits : List Byte} (hdigits : IsNumeral 10 digits what.toInt.natAbs)
    (hminus : digits.head? ≠ some (byte '-')) :
    parseInt (sign what ++ digits) = some what.toInt := by
  rw [sign]
  split
  next hneg =>
    rw [List.singleton_append, parseInt, List.head?_cons, if_pos rfl, List.tail_cons,
      hdigits.parses, Option.map_some]
    exact congrArg some (Int.eq_neg_natAbs_of_nonpos (Int.le_of_lt hneg)).symm
  next hpos =>
    rw [List.nil_append, parseInt, if_neg hminus, hdigits.parses, Option.map_some]
    exact congrArg some (Int.natAbs_of_nonneg (Int.not_lt.mp hpos))

theorem head_ne_minus (n : Nat) : ((numeral 10 n).map digit).head? ≠ some (byte '-') := by
  rw [List.head?_map]
  intro hhead
  obtain ⟨d, hd, hminus⟩ := Option.map_eq_some_iff.mp hhead
  exact digit_ne_minus d (lt_of_mem_numeral (by decide) d (List.mem_of_head? hd)) hminus

/-- Every function writes the numeral of the number into a buffer of 12 bytes or more, and the
functions of the terminal put the same digits on the screen. -/
theorem numbers_exact (what : Word) (buf : List Byte) (h : 12 ≤ buf.length) (tty : Bool) :
    ∃ udigits idigits hdigits : List Byte,
      (IsNumeral 10 udigits what.toNat ∧ Fills buf (uint2String what buf 0 buf.length) udigits) ∧
      (IsNumeral 10 idigits what.toInt.natAbs ∧
        Fills buf (int2String what buf buf.length) (sign what ++ idigits) ∧
        parseInt (sign what ++ idigits) = some what.toInt) ∧
      (IsNumeral 16 hdigits what.toNat ∧
        Fills buf (hex2String what buf buf.length) (byte '0' :: byte 'x' :: hdigits)) ∧
      Tty.putunsint what tty = udigits.map (Action.putcharacter · tty) ∧
      Tty.puthex what tty = hdigits.map (Action.putcharacter · tty) := by
  have hint := isNumeral_numeral (b := 10) (by decide) (by decide) what.toInt.natAbs
  have hfills : Fills buf (int2String what buf buf.length) (intText what) := fills_int2String h
  rw [intText_eq] at hfills
  refine ⟨_, _, _,
    ⟨isNumeral_numeral (by decide) (by decide) _, fills_uint2String h⟩,
    ⟨hint, hfills, parseInt_sign hint (head_ne_minus _)⟩,
    ⟨isNumeral_numeral (by decide) (by decide) _, fills_hex2String h⟩, ?_, ?_⟩
  · rw [Tty.putunsint_eq, Tty.puts, List.map_map]
    rfl
  · rw [Tty.puthex_eq, Tty.puts, List.map_map]
    rfl

/-- The least number. -/
theorem numbers_exact_least : ∃ digits : List Byte,
    Fills (List.replicate 12 1) (int2String 0x80000000 (List.replicate 12 1) 12)
      (byte '-' :: digits) ∧ parseInt (byte '-' :: digits) = some (-2147483648) := by
  obtain ⟨-, digits, -, -, ⟨-, hfills, hparses⟩, -⟩ :=
    numbers_exact 0x80000000 (List.replicate 12 1) (by decide) false
  exact ⟨digits, hfills, hparses⟩

end Mycrokernel
