import Mycrokernel.Lib.Bytes
import Mathlib.Logic.Function.Basic

/-!
# A stack of words in memory

A stack grows downwards from an offset in a segment, which `place` maps to addresses.  Its words have
two bytes, the lower one first.

`Holds` says which words are on the stack.  It is kept by what leaves their bytes alone
(`Holds.congr`), a push puts a word in front (`Holds.push`), and a word can be dropped from the front
(`Holds.tail`).
-/

namespace WordStack

open Function (Injective update update_self update_of_ne)

variable {v w : Nat} {place : BitVec v → BitVec w} {mem mem' : BitVec w → BitVec 8}
  {sp : BitVec v} {x : BitVec 16} {xs : List (BitVec 16)} {i j : Nat}

/-- The word at an offset. -/
def word (place : BitVec v → BitVec w) (mem : BitVec w → BitVec 8) (sp : BitVec v) : BitVec 16 :=
  mem (place (sp + 1)) ++ mem (place sp)

/-- Write a word. -/
def setWord (place : BitVec v → BitVec w) (mem : BitVec w → BitVec 8) (sp : BitVec v)
    (x : BitVec 16) : BitVec w → BitVec 8 :=
  update (update mem (place sp) (x.setWidth 8)) (place (sp + 1)) (x.extractLsb' 8 8)

/-- The words from an offset on are these. -/
def Holds (place : BitVec v → BitVec w) (mem : BitVec w → BitVec 8) :
    BitVec v → List (BitVec 16) → Prop
  | _, [] => True
  | sp, x :: xs => word place mem sp = x ∧ Holds place mem (sp + 2) xs

namespace Holds

theorem head (h : Holds place mem sp (x :: xs)) : word place mem sp = x := h.1

theorem tail (h : Holds place mem sp (x :: xs)) : Holds place mem (sp + 2) xs := h.2

/-- What is behind the first word. -/
theorem behind (h : Holds place mem (sp - 2) (x :: xs)) : Holds place mem sp xs := by
  have hback : sp - 2 + 2 = sp := BitVec.sub_add_cancel sp 2
  have htail := h.tail
  rwa [hback] at htail

/-- The words are still there if their bytes are. -/
theorem congr (h : Holds place mem sp xs)
    (hsame : ∀ i < 2 * xs.length,
      mem' (place (sp + BitVec.ofNat v i)) = mem (place (sp + BitVec.ofNat v i))) :
    Holds place mem' sp xs := by
  induction xs generalizing sp with
  | nil => trivial
  | cons x xs ih =>
    rw [List.length_cons] at hsame
    have hlow := hsame 0 (by omega)
    have hhigh := hsame 1 (by omega)
    rw [BitVec.add_zero] at hlow
    refine ⟨?_, ih h.tail fun i hi => ?_⟩
    · rw [← h.head, word, word, hlow]
      exact congrArg (· ++ mem (place sp)) hhigh
    · have hrest := hsame (i + 2) (by omega)
      rwa [Nat.add_comm i 2, BitVec.ofNat_add, ← BitVec.add_assoc] at hrest

end Holds

/-- The bytes at two offsets are apart. -/
theorem place_ne (hplace : Injective place) (hi : i < 2 ^ v) (hj : j < 2 ^ v) (hne : i ≠ j) :
    place (sp + BitVec.ofNat v i) ≠ place (sp + BitVec.ofNat v j) := fun heq =>
  hne ((Bytes.add_ofNat_inj hi hj).1 (hplace heq))

/-- A word is put together from its bytes. -/
theorem append_bytes (x : BitVec 16) : x.extractLsb' 8 8 ++ x.setWidth 8 = x := by
  have hlow : x.setWidth 8 = x.extractLsb' 0 8 := BitVec.setWidth_eq_extractLsb' (by decide)
  rw [hlow]
  exact BitVec.extractLsb'_append_extractLsb' (w := 8)

/-- What is written is what is there. -/
theorem word_setWord (hplace : Injective place) (hv : 0 < v) :
    word place (setWord place mem sp x) sp = x := by
  have hone : 1 < 2 ^ v := Nat.one_lt_two_pow hv.ne'
  have hne : place (sp + BitVec.ofNat v 0) ≠ place (sp + 1) :=
    place_ne hplace (Nat.two_pow_pos v) hone Nat.zero_ne_one
  rw [BitVec.add_zero] at hne
  rw [word, setWord, update_self, update_of_ne hne, update_self]
  exact append_bytes x

/-- A write of a word leaves the other bytes alone. -/
theorem setWord_of_ne {a : BitVec w} (hlow : a ≠ place sp) (hhigh : a ≠ place (sp + 1)) :
    setWord place mem sp x a = mem a := by
  rw [setWord, update_of_ne hhigh, update_of_ne hlow]

/-- A push puts a word in front of those that are there. -/
theorem Holds.push (h : Holds place mem sp xs) (hplace : Injective place)
    (hroom : 2 * xs.length + 2 ≤ 2 ^ v) :
    Holds place (setWord place mem (sp - 2) x) (sp - 2) (x :: xs) := by
  have hv : 0 < v := by
    refine Nat.pos_of_ne_zero fun hzero => ?_
    subst hzero
    omega
  have hback : sp - 2 + 2 = sp := BitVec.sub_add_cancel sp 2
  refine ⟨word_setWord hplace hv, ?_⟩
  rw [hback]
  refine h.congr fun i hi => ?_
  -- the byte `i` of the old words is the byte `i + 2` of the new ones
  have hshift : sp + BitVec.ofNat v i = sp - 2 + BitVec.ofNat v (i + 2) := by
    rw [Nat.add_comm i 2, BitVec.ofNat_add, ← BitVec.add_assoc]
    exact congrArg (· + _) hback.symm
  have hlow : place (sp - 2 + BitVec.ofNat v (i + 2)) ≠ place (sp - 2 + BitVec.ofNat v 0) :=
    place_ne hplace (by omega) (by omega) (by omega)
  have hhigh : place (sp - 2 + BitVec.ofNat v (i + 2)) ≠ place (sp - 2 + BitVec.ofNat v 1) :=
    place_ne hplace (by omega) (by omega) (by omega)
  rw [BitVec.add_zero] at hlow
  rw [hshift]
  exact setWord_of_ne hlow hhigh

end WordStack
