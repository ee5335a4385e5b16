import Mycrokernel.Kernel.Copy
import Mycrokernel.Lib.Bytes

/-!
# Copying memory

`memcpy` of `usrlib/utilities.c` copies double words, then words and then a byte.  Between the double
words and the words it hands over the wrong pointer: `dst_word` is `NULL` when the loop over the words
begins.  And the byte at the end is copied whether there is one left or not.

So what is left behind the double words goes to the addresses from 0 on.  `memcpy_copies_iff` says
when the copy is right all the same.
-/

namespace Mycrokernel

open Bytes
open Kernel (Apart moveBytes moveBytes_zero moveBytes_at moveBytes_add moveBytes_source)

/-- The loop over the double words, and what is pending after it. -/
def memcpyDwords : Nat → (Word → BitVec 8) → Word → Word → (Word → BitVec 8) × Word × Word × Nat
  | pending + 4, mem, dst, src =>
    memcpyDwords pending (moveBytes mem src dst 4) (dst + 4) (src + 4)
  | pending, mem, dst, src => (mem, dst, src, pending)

/-- The loop over the words. -/
def memcpyWords : Nat → (Word → BitVec 8) → Word → Word → (Word → BitVec 8) × Word × Word × Nat
  | pending + 2, mem, dst, src =>
    memcpyWords pending (moveBytes mem src dst 2) (dst + 2) (src + 2)
  | pending, mem, dst, src => (mem, dst, src, pending)

/-- `memcpy`. -/
def memcpy (mem : Word → BitVec 8) (dst src num : Word) : Word → BitVec 8 :=
  let dstWord : Word := 0
  let (mem, _, srcDword, pending) := memcpyDwords num.toNat mem dst src
  -- `dst_word = (uint16_t *) dst_word`
  let (mem, dstByte, srcByte, _) := memcpyWords pending mem dstWord srcDword
  moveBytes mem srcByte dstByte 1

/-- The bytes that go with the double words. -/
def whole (num : Nat) : Nat := 4 * (num / 4)

/-- The bytes that go with the words. -/
def halves (num : Nat) : Nat := 2 * (num % 4 / 2)

/-- The memory after a copy has the bytes of the source at the destination, and no other byte has
changed. -/
structure Copies (mem mem' : Word → BitVec 8) (dst src : Word) (num : Nat) : Prop where
  bytes : ∀ i < num, mem' (dst + BitVec.ofNat 32 i) = mem (src + BitVec.ofNat 32 i)
  frame : ∀ x, ¬ Within dst num x → mem' x = mem x

variable {mem mem' : Word → BitVec 8} {dst src num : Word} {n : Nat}

theorem copies_iff (hn : n ≤ 2 ^ 32) :
    Copies mem mem' dst src n ↔ ∀ x, mem' x = moveBytes mem src dst n x := by
  constructor
  · intro h x
    cases Decidable.em (Within dst n x) with
    | inl hin =>
        obtain ⟨i, hi, rfl⟩ := hin.exists_add
        rw [h.bytes i hi, moveBytes_at, BitVec.toNat_ofNat, Nat.mod_eq_of_lt (hi.trans_le hn),
          if_pos hi]
    | inr hout => exact (h.frame x hout).trans (if_neg hout).symm
  · intro h
    refine ⟨fun i hi => ?_, fun x hout => (h x).trans (if_neg hout)⟩
    rw [h, moveBytes_at, BitVec.toNat_ofNat, Nat.mod_eq_of_lt (hi.trans_le hn), if_pos hi]

/-! ## The loops -/

theorem memcpyDwords_eq (h : Apart src dst n) (hn : n < 2 ^ 32) :
    memcpyDwords n mem dst src =
      (moveBytes mem src dst (whole n), dst + BitVec.ofNat 32 (whole n),
        src + BitVec.ofNat 32 (whole n), n % 4) := by
  induction n, mem, dst, src using memcpyDwords.induct with
  | case1 pending mem dst src ih =>
      have hwhole : whole (pending + 4) = 4 + whole pending := by
        unfold whole
        omega
      have hle : whole pending ≤ pending := Nat.mul_div_le ..
      have hfour : Apart src dst (4 + pending) := Nat.add_comm pending 4 ▸ h
      change _ = (moveBytes mem src dst (whole (pending + 4)), dst + BitVec.ofNat 32
        (whole (pending + 4)), src + BitVec.ofNat 32 (whole (pending + 4)), (pending + 4) % 4)
      rw [memcpyDwords, hwhole, ih hfour.drop (by omega),
        ← moveBytes_add mem (hfour.mono (by omega)) (by omega), BitVec.ofNat_add, ← BitVec.add_assoc,
        ← BitVec.add_assoc, Nat.add_mod_right]
      rfl
  | case2 pending mem dst src hsmall =>
      have hlt : pending < 4 := by
        refine Nat.lt_of_not_le fun hle => hsmall (pending - 4) ?_
        exact (Nat.sub_add_cancel hle).symm
      have hwhole : whole pending = 0 := by
        unfold whole
        omega
      rw [memcpyDwords, hwhole, moveBytes_zero, Nat.mod_eq_of_lt hlt, BitVec.add_zero, BitVec.add_zero]
      exact hsmall

theorem memcpyWords_eq (hn : n < 4) : memcpyWords n mem dst src =
    (moveBytes mem src dst (2 * (n / 2)), dst + BitVec.ofNat 32 (2 * (n / 2)),
      src + BitVec.ofNat 32 (2 * (n / 2)), n % 2) := by
  match n, hn with
  | 0, _ | 1, _ =>
      rw [memcpyWords, Nat.mul_zero, moveBytes_zero, BitVec.add_zero, BitVec.add_zero]
      exact fun pending heq => absurd heq (by omega)
  | 2, _ | 3, _ => rfl

/-- The first address behind the bytes that go with the double words. -/
def behind (a : Word) (num : Nat) : Word := a + BitVec.ofNat 32 (whole num)

/-- The address that the last byte goes to. -/
def lastPlace (num : Nat) : Word := BitVec.ofNat 32 (halves num)

/-- The bytes behind the double words go to the addresses from 0 on. -/
theorem memcpy_eq (h : Apart src dst num.toNat) :
    memcpy mem dst src num =
      moveBytes
        (moveBytes (moveBytes mem src dst (whole num.toNat)) (behind src num.toNat) 0
          (halves num.toNat))
        (behind src num.toNat + lastPlace num.toNat) (lastPlace num.toNat) 1 := by
  have hzero : ∀ x : Word, 0 + x = x := fun x => BitVec.zero_add x
  unfold memcpy
  dsimp only
  rw [memcpyDwords_eq h num.isLt, memcpyWords_eq (Nat.mod_lt _ (by decide)), hzero]
  rfl

/-! ## When it does no harm -/

/-- What goes astray does no harm: the bytes behind the double words that stay as they are have
their values already, and what is written from address 0 on is what belongs there. -/
structure Harmless (mem : Word → BitVec 8) (dst src : Word) (n : Nat) : Prop where
  rest : ∀ i, whole n ≤ i → i < n →
    halves n < (dst + BitVec.ofNat 32 i).toNat ∨
      (dst + BitVec.ofNat 32 i).toNat = halves n ∧ behind src n = 0 →
    mem (dst + BitVec.ofNat 32 i) = mem (src + BitVec.ofNat 32 i)
  words : ∀ i < halves n,
    moveBytes mem src dst n (BitVec.ofNat 32 i) = mem (behind src n + BitVec.ofNat 32 i)
  byte : moveBytes mem src dst n (lastPlace n) =
    moveBytes mem src dst n (behind src n + lastPlace n)

theorem whole_add_halves (n : Nat) : whole n + halves n ≤ n ∧ halves n < 4 := by
  unfold whole halves
  omega

/-- With the double words in place, a byte is right unless it is one of the rest. -/
theorem right_iff (hn : n < 2 ^ 32) (x : Word) :
    moveBytes mem src dst (whole n) x = moveBytes mem src dst n x ↔
      ∀ i, whole n ≤ i → i < n → x = dst + BitVec.ofNat 32 i → mem x = mem (src + BitVec.ofNat 32 i) := by
  have hle : whole n ≤ n := Nat.mul_div_le ..
  constructor
  · rintro heq i hlow hhigh rfl
    rw [moveBytes_at, moveBytes_at, BitVec.toNat_ofNat, Nat.mod_eq_of_lt (hhigh.trans hn),
      if_neg (Nat.not_lt.2 hlow), if_pos hhigh] at heq
    exact heq
  · intro hrest
    obtain ⟨d, rfl⟩ : ∃ d, x = dst + d := ⟨x - dst, by rw [BitVec.add_comm, BitVec.sub_add_cancel]⟩
    have hd : dst + d = dst + BitVec.ofNat 32 d.toNat := by
      rw [BitVec.ofNat_toNat, BitVec.setWidth_eq]
    rw [moveBytes_at, moveBytes_at]
    split
    next hfirst => rw [if_pos (by omega)]
    next hbehind =>
      split
      next hin =>
        have hbyte := hrest d.toNat (Nat.not_lt.1 hbehind) hin hd
        rwa [BitVec.ofNat_toNat, BitVec.setWidth_eq] at hbyte
      next => rfl

/-- What the words leave. -/
theorem words_at (h : Apart src dst n) (x : Word) :
    moveBytes (moveBytes mem src dst (whole n)) (behind src n) 0 (halves n) x =
      if x.toNat < halves n then mem (behind src n + x) else moveBytes mem src dst (whole n) x := by
  have hsum := whole_add_halves n
  have hzero : x - 0 = x := BitVec.sub_zero x
  rw [moveBytes, hzero]
  split
  next hin =>
    have hsource : (BitVec.ofNat 32 (whole n) + x).toNat < whole n + halves n →
        moveBytes mem src dst (whole n) (src + (BitVec.ofNat 32 (whole n) + x)) =
          mem (src + (BitVec.ofNat 32 (whole n) + x)) := moveBytes_source (h.mono hsum.1) _
    rw [← BitVec.add_assoc] at hsource
    refine hsource ?_
    have hlt := (BitVec.ofNat 32 (whole n)).isLt
    have hle : (BitVec.ofNat 32 (whole n)).toNat ≤ whole n := by
      rw [BitVec.toNat_ofNat]
      exact Nat.mod_le ..
    rw [BitVec.toNat_add]
    exact (Nat.mod_le ..).trans_lt (by omega)
  next => rfl

theorem toNat_lastPlace (n : Nat) : (lastPlace n).toNat = halves n := by
  have hsum := whole_add_halves n
  rw [lastPlace, BitVec.toNat_ofNat]
  omega

theorem memcpy_at (h : Apart src dst num.toNat) (x : Word) :
    memcpy mem dst src num x =
      moveBytes (moveBytes mem src dst (whole num.toNat)) (behind src num.toNat) 0
        (halves num.toNat)
        (if x = lastPlace num.toNat then behind src num.toNat + lastPlace num.toNat else x) := by
  have hat : (x - lastPlace num.toNat).toNat < 1 ↔ x = lastPlace num.toNat := by
    rw [Nat.lt_one_iff, ← BitVec.toNat_zero (w := 32), BitVec.toNat_inj, BitVec.sub_eq_iff_eq_add,
      BitVec.zero_add]
  rw [memcpy_eq h, moveBytes]
  split
  next hlast => rw [if_pos (hat.1 hlast), hat.1 hlast, BitVec.sub_self, BitVec.add_zero]
  next hother => rw [if_neg fun heq => hother (hat.2 heq)]

/-- The bytes below the last place are words that went astray, and the others are as the double words
have left them. -/
theorem memcpy_other (h : Apart src dst num.toNat) {x : Word} (hx : x ≠ lastPlace num.toNat) :
    memcpy mem dst src num x =
      if x.toNat < halves num.toNat then mem (behind src num.toNat + x)
      else moveBytes mem src dst (whole num.toNat) x := by
  rw [memcpy_at h, if_neg hx, words_at h]

/-- The byte in the last place is that from where it was read. -/
theorem memcpy_last (h : Apart src dst num.toNat)
    (hne : behind src num.toNat + lastPlace num.toNat ≠ lastPlace num.toNat) :
    memcpy mem dst src num (lastPlace num.toNat) =
      memcpy mem dst src num (behind src num.toNat + lastPlace num.toNat) := by
  rw [memcpy_at h, memcpy_at h, if_pos rfl, if_neg hne]

theorem memcpy_last_kept (h : Apart src dst num.toNat) (hstart : behind src num.toNat = 0) :
    memcpy mem dst src num (lastPlace num.toNat) =
      moveBytes mem src dst (whole num.toNat) (lastPlace num.toNat) := by
  have hsame : behind src num.toNat + lastPlace num.toNat = lastPlace num.toNat := by
    rw [hstart]
    exact BitVec.zero_add _
  rw [memcpy_at h, if_pos rfl, hsame, words_at h, toNat_lastPlace, if_neg (Nat.lt_irrefl _)]

theorem eq_zero_of_behind (h : behind src n + lastPlace n = lastPlace n) : behind src n = 0 := by
  have hzero := BitVec.eq_sub_iff_add_eq.2 h
  rwa [BitVec.sub_self] at hzero

theorem harmless_of_copies (h : Apart src dst num.toNat)
    (hcopies : Copies mem (memcpy mem dst src num) dst src num.toNat) :
    Harmless mem dst src num.toNat := by
  have hcopy := (copies_iff num.isLt.le).1 hcopies
  have hsum := whole_add_halves num.toNat
  have hlast := toNat_lastPlace num.toNat
  constructor
  case rest =>
    intro i hlow hhigh hkept
    refine (right_iff num.isLt _).1 ?_ i hlow hhigh rfl
    rw [← hcopy]
    obtain hgreater | ⟨hsame, hstart⟩ := hkept
    · have hne : dst + BitVec.ofNat 32 i ≠ lastPlace num.toNat := fun heq => by
        rw [heq] at hgreater
        omega
      rw [memcpy_other h hne, if_neg (by omega)]
    · have hthere : dst + BitVec.ofNat 32 i = lastPlace num.toNat :=
        BitVec.eq_of_toNat_eq (by omega)
      rw [hthere, memcpy_last_kept h hstart]
  case words =>
    intro i hi
    have hcount : (BitVec.ofNat 32 i).toNat = i := by
      rw [BitVec.toNat_ofNat]
      omega
    have hne : BitVec.ofNat 32 i ≠ lastPlace num.toNat := fun heq => by
      rw [heq] at hcount
      omega
    rw [← hcopy, memcpy_other h hne, if_pos (by omega)]
  case byte =>
    rw [← hcopy, ← hcopy]
    cases Decidable.em (behind src num.toNat + lastPlace num.toNat = lastPlace num.toNat) with
    | inl hsame => rw [hsame]
    | inr hne => exact memcpy_last h hne

theorem copies_of_harmless (h : Apart src dst num.toNat) (hharmless : Harmless mem dst src num.toNat) :
    Copies mem (memcpy mem dst src num) dst src num.toNat := by
  have hlast := toNat_lastPlace num.toNat
  have hother : ∀ x, x ≠ lastPlace num.toNat →
      memcpy mem dst src num x = moveBytes mem src dst num.toNat x := by
    intro x hx
    rw [memcpy_other h hx]
    split
    next hlow =>
      have hword := hharmless.words x.toNat hlow
      rw [BitVec.ofNat_toNat, BitVec.setWidth_eq] at hword
      exact hword.symm
    next hhigh =>
      have hne : x.toNat ≠ (lastPlace num.toNat).toNat := fun heq => hx (BitVec.eq_of_toNat_eq heq)
      refine (right_iff num.isLt x).2 ?_
      rintro i hfirst hi rfl
      exact hharmless.rest i hfirst hi (.inl (by omega))
  refine (copies_iff num.isLt.le).2 fun x => ?_
  cases Decidable.em (x = lastPlace num.toNat) with
  | inr hx => exact hother x hx
  | inl hx =>
      rw [hx]
      cases Decidable.em (behind src num.toNat + lastPlace num.toNat = lastPlace num.toNat) with
      | inr hne => rw [memcpy_last h hne, hother _ hne, hharmless.byte]
      | inl hsame =>
          have hstart := eq_zero_of_behind hsame
          rw [memcpy_last_kept h hstart]
          refine (right_iff num.isLt _).2 fun i hlow hhigh hi => ?_
          rw [hi]
          exact hharmless.rest i hlow hhigh (.inr ⟨by rw [← hi]; exact hlast, hstart⟩)

/-- `memcpy` copies the bytes and changes no others if and only if what goes astray does no harm. -/
theorem memcpy_copies_iff (h : Apart src dst num.toNat) :
    Copies mem (memcpy mem dst src num) dst src num.toNat ↔ Harmless mem dst src num.toNat :=
  ⟨harmless_of_copies h, copies_of_harmless h⟩

/-- Bytes with the lower part of their address, but for four that are zero. -/
def numbered : Word → BitVec 8 := fun x => if 0x20fc ≤ x ∧ x < 0x2100 then 0 else x.setWidth 8

/-- Of six bytes the first four are copied, and the two behind them are there already and at
address 0 as well. -/
theorem memcpy_copies_numbered :
    memcpy numbered 0x20fc 0x10fc 6 0x20fe = 0xfe ∧
      Copies numbered (memcpy numbered 0x20fc 0x10fc 6) 0x20fc 0x10fc 6 := by
  have hapart : Apart 0x10fc 0x20fc (6 : Word).toNat :=
    Kernel.apart_of_disjoint (.inl (by decide)) (by decide) (by decide)
  refine ⟨by decide, (memcpy_copies_iff hapart).2 ⟨fun i hlow hhigh _ => ?_, fun i hi => ?_, ?_⟩⟩
  · have hi : i = 4 ∨ i = 5 := by
      rw [show whole (6 : Word).toNat = 4 from rfl] at hlow
      rw [show (6 : Word).toNat = 6 from rfl] at hhigh
      omega
    obtain rfl | rfl := hi <;> rfl
  · have hi : i = 0 ∨ i = 1 := by
      rw [show halves (6 : Word).toNat = 2 from rfl] at hi
      omega
    obtain rfl | rfl := hi <;> rfl
  · rfl

/-- Ones in a buffer of 16 bytes. -/
def ones : Word → BitVec 8 := fun x => if 0x1000 ≤ x ∧ x < 0x1010 then 1 else 0

/-- Of six bytes the last two are missing, and of four the one behind them goes to address 0. -/
theorem memcpy_copies_fails :
    (Apart 0x1000 0x2000 6 ∧ ¬ Copies ones (memcpy ones 0x2000 0x1000 6) 0x2000 0x1000 6) ∧
      Apart 0x1000 0x2000 4 ∧ ¬ Copies ones (memcpy ones 0x2000 0x1000 4) 0x2000 0x1000 4 := by
  have hapart : ∀ n ≤ 6, Apart 0x1000 0x2000 n := fun n hn =>
    (Kernel.apart_of_disjoint (.inl (by decide)) (by decide) (by decide) : Apart _ _ 6).mono hn
  refine ⟨⟨hapart 6 le_rfl, fun h => ?_⟩, hapart 4 (by decide), fun h => ?_⟩
  · exact absurd (h.bytes 4 (by decide)) (by decide)
  · exact absurd (h.frame 0 (by decide)) (by decide)

end Mycrokernel
