import Mycrokernel.Usr.Format

/-!
# Texts handed over as formats

A caller of `outf` that has a text, and no arguments, hands the text over as the format.  It is
sent as it is if it has no conversion in it and a `NUL` behind it (`outf_plain`).  There is no
other way to get it sent: the first message says where the text ends (`plain_of_message`).

Without a `NUL` the call does not come to an end (`outf_not_ends`).
-/

namespace Mycrokernel

variable {stack : Stack} {block : Word} {o o' : Outf} {cs part text tail rest fmt : List Byte}
  {log : List (Syscall × Reply)}

/-- The text has no conversion in it. -/
def plain : List Byte → Bool
  | [] => true
  | c :: cs => (conversionOf (c :: cs)).isNone && plain cs

namespace Outf

theorem loop_plain (htext : 0 ∉ text) (hplain : plain text = true) (hold : o.Holds part)
    (hsize : part.length + text.length < maxMsgSize - 1) :
    ∃ o' : Outf, o'.message = part ++ text ++ [0] ∧
      loop stack block (text ++ 0 :: rest) o = o'.send block .done := by
  induction text generalizing o part with
  | nil =>
      refine ⟨o.put 0, ?_, loop_end⟩
      rw [message_put hold, List.append_nil]
  | cons c cs ih =>
      rw [plain, Bool.and_eq_true, Option.isNone_iff_eq_none] at hplain
      rw [List.length_cons] at hsize
      have htail : 0 ∉ cs := fun h => htext (List.mem_cons_of_mem _ h)
      obtain ⟨o', hmessage, hloop⟩ := ih htail hplain.2 (hold.append c)
        (by rw [List.length_append, List.length_singleton]; omega)
      refine ⟨o', ?_, ?_⟩
      · rw [hmessage, List.append_assoc part, List.singleton_append]
      · rw [loop_literal hplain.1 htext hold, if_neg (by omega)]
        exact hloop

/-! ## The first message -/

theorem run_send {next : Outf → Dialogue Syscall Reply Outf}
    (hrun : (o.send block next).Run log o') :
    ∃ messages, ttyMessages log = o.message :: messages := by
  cases hrun with
  | ask hrun => exact ⟨_, rfl⟩

/-- What is in the buffer goes into the first message that is sent. -/
theorem first_message (n : Nat) (hold : o.Holds part)
    (hrun : (loop stack block fmt o).Run log o') :
    ∃ first messages, ttyMessages log = first :: messages ∧ part <+: first := by
  induction n, fmt using format_induction generalizing o part with
  | nil => cases hrun
  | char n c cs hchar ih =>
      cases loop_of_conversionOf hchar with
      | inl hstuck =>
          rw [hstuck] at hrun
          cases hrun
      | inr hliteral =>
          have hnext : (loop stack block cs (o.append c)).Run log o' →
              ∃ first messages, ttyMessages log = first :: messages ∧ part <+: first := by
            intro hrun
            obtain ⟨first, messages, hlog, hstart⟩ := ih (hold.append c) hrun
            exact ⟨first, messages, hlog, (List.prefix_append ..).trans hstart⟩
          rw [hliteral, literal.eq_def] at hrun
          split at hrun
          next =>
            obtain ⟨messages, hlog⟩ := run_send hrun
            exact ⟨_, messages, hlog, by rw [message_put hold]; exact List.prefix_append ..⟩
          next =>
            split at hrun
            next =>
              split at hrun
              next => cases hrun
              next =>
                split at hrun
                next => exact hnext hrun
                next =>
                  obtain ⟨messages, hlog⟩ := run_send hrun
                  refine ⟨_, messages, hlog, ?_⟩
                  rw [message_put (hold.append c), List.append_assoc]
                  exact List.prefix_append ..
            next => exact hnext hrun
  | number n d cs conversion hconversion ih =>
      have htaken := hold.taken stack conversion
      rw [loop_number hconversion, number_eq hold] at hrun
      split at hrun
      next =>
        obtain ⟨messages, hlog⟩ := run_send hrun
        exact ⟨_, messages, hlog, by rw [message_put htaken]; exact List.prefix_append ..⟩
      next =>
        obtain ⟨first, messages, hlog, hstart⟩ := ih (htaken.foldl_append _) hrun
        exact ⟨first, messages, hlog, (List.prefix_append ..).trans hstart⟩

/-- While there is room in the buffer, what comes first in the format goes into it: a character,
or the text of a number. -/
theorem first_message_of_cons {c : Byte} (hc : c ≠ 0) (hsize : part.length ≤ 255)
    (hold : o.Holds part) (hrun : (loop stack block (c :: cs) o).Run log o') :
    (conversionOf (c :: cs) = none ∧ (loop stack block cs (o.append c)).Run log o') ∨
      ∃ text first messages, c = byte '%' ∧ NumberText text ∧
        ttyMessages log = first :: messages ∧ part ++ text <+: first := by
  have hmax : maxMsgSize = 1921 := rfl
  cases hconversion : conversionOf (c :: cs) with
  | none =>
      refine Or.inl ⟨rfl, ?_⟩
      cases loop_of_conversionOf hconversion with
      | inl hstuck =>
          rw [hstuck] at hrun
          cases hrun
      | inr hliteral =>
          have hroom : ¬ maxMsgSize - 1 ≤ (o.append c).idx := by
            rw [(hold.append c).idx, List.length_append, List.length_singleton]
            omega
          rwa [hliteral, literal.eq_def, if_neg hc, if_neg hroom] at hrun
  | some conversion =>
      cases cs with
      | nil => exact absurd hconversion (by simp [conversionOf])
      | cons d cs =>
          rw [conversionOf] at hconversion
          split at hconversion
          next hpercent =>
            have hnumber := conversion.numberText (stack.args o.vl)
            have hlen := hnumber.length_le
            rw [hpercent, loop_number hconversion, number_eq hold, if_neg (by omega)] at hrun
            obtain ⟨first, messages, hlog, hstart⟩ := first_message 0 ((hold.taken stack conversion).foldl_append _) hrun
            exact Or.inr ⟨_, first, messages, hpercent, hnumber, hlog, hstart⟩
          next => exact absurd hconversion (by simp)

/-- If the first message is a text and its `NUL`, the text had no conversion in it, and a `NUL`
behind it. -/
theorem plain_of_message (htext : 0 ∉ text) (hsize : part.length + text.length ≤ 255)
    (hold : o.Holds part) (hrun : (loop stack block (text ++ tail) o).Run log o')
    (hfirst : (ttyMessages log).head? = some (part ++ text ++ [0])) :
    plain text = true ∧ tail.head? = some 0 := by
  induction text generalizing o part with
  | nil =>
      rw [List.append_nil] at hfirst
      refine ⟨rfl, ?_⟩
      cases tail with
      | nil => cases hrun
      | cons c cs =>
          by_contra hne
          have hc : c ≠ 0 := fun hc => hne (congrArg some hc)
          rw [List.length_nil] at hsize
          cases first_message_of_cons hc hsize hold hrun with
          | inl hchar =>
              obtain ⟨first, messages, hlog, hstart⟩ := first_message 0 (hold.append c) hchar.2
              rw [hlog, List.head?_cons, Option.some_inj] at hfirst
              rw [hfirst, List.prefix_append_right_inj, List.cons_prefix_cons] at hstart
              exact hc hstart.1
          | inr hnumber =>
              obtain ⟨number, first, messages, -, hnumber, hlog, hstart⟩ := hnumber
              rw [hlog, List.head?_cons, Option.some_inj] at hfirst
              rw [hfirst, List.prefix_append_right_inj] at hstart
              cases number with
              | nil => exact hnumber.ne_nil rfl
              | cons e number =>
                  rw [List.cons_prefix_cons] at hstart
                  exact hnumber.noNul (by rw [hstart.1]; exact List.mem_cons_self)
  | cons c cs ih =>
      have htail : 0 ∉ cs := fun h => htext (List.mem_cons_of_mem _ h)
      have hc : c ≠ 0 := fun hc => htext (by rw [hc]; exact List.mem_cons_self)
      rw [List.length_cons] at hsize
      cases first_message_of_cons hc (by omega) hold hrun with
      | inl hchar =>
          obtain ⟨hnone, hrun⟩ := hchar
          have hrest := ih htail (by rw [List.length_append, List.length_singleton]; omega)
            (hold.append c) hrun (by rw [hfirst, List.append_cons part])
          refine ⟨?_, hrest.2⟩
          rw [plain, hrest.1, Bool.and_true, Option.isNone_iff_eq_none]
          cases cs with
          | nil => rfl
          | cons d cs => exact hnone
      | inr hnumber =>
          obtain ⟨number, first, messages, rfl, hnumber, hlog, hstart⟩ := hnumber
          rw [hlog, List.head?_cons, Option.some_inj] at hfirst
          rw [hfirst, List.append_assoc, List.prefix_append_right_inj, List.cons_append] at hstart
          -- a number does not begin with a `%`
          cases number with
          | nil => exact absurd rfl hnumber.ne_nil
          | cons e number =>
              rw [List.cons_prefix_cons] at hstart
              exact absurd (by rw [hstart.1]; exact List.mem_cons_self) hnumber.noPercent

/-! ## No end -/

theorem not_ends_flush {next : Outf → Dialogue Syscall Reply Outf}
    (h : ∀ error, ¬ (next { o.put 0 with error, idx := 0 }).Ends) : ¬ (o.flush next).Ends := by
  intro hends
  cases hends with
  | ask hends => exact h 0 (hends ⟨0, 0⟩)

/-- A format without a `NUL` is read to behind its end. -/
theorem loop_not_ends (n : Nat) (hnul : 0 ∉ fmt) (hold : o.Holds part) :
    ¬ (loop stack block fmt o).Ends := by
  induction n, fmt using format_induction generalizing o part with
  | nil => exact nofun
  | char n c cs hchar ih =>
      have htail : 0 ∉ cs := fun h => hnul (List.mem_cons_of_mem _ h)
      have hc : c ≠ 0 := fun hc => hnul (by rw [hc]; exact List.mem_cons_self)
      cases loop_of_conversionOf hchar with
      | inl hstuck =>
          rw [hstuck]
          exact nofun
      | inr hliteral =>
          rw [hliteral, literal.eq_def, if_neg hc]
          split
          next =>
            split
            next => exact nofun
            next =>
              split
              next => exact ih htail (hold.append c)
              next => exact not_ends_flush fun error => ih htail ((hold.append c).restart error)
          next => exact ih htail (hold.append c)
  | number n d cs conversion hconversion ih =>
      have htail : 0 ∉ cs := fun h => hnul (List.mem_cons_of_mem _ (List.mem_cons_of_mem _ h))
      have htaken := hold.taken stack conversion
      rw [loop_number hconversion, number_eq hold]
      split
      next => exact not_ends_flush fun error => ih htail ((htaken.restart error).foldl_append _)
      next => exact ih htail (htaken.foldl_append _)

end Outf

/-- `outf` comes to its end if and only if there is a `NUL` behind what it was given. -/
theorem outf_ends_iff : (outf stack block fmt).Ends ↔ 0 ∈ fmt := by
  constructor
  · intro hends
    by_contra hnul
    exact Outf.loop_not_ends 0 hnul Outf.holds_start hends
  · intro hnul
    obtain ⟨text, rest, rfl, htext⟩ := List.eq_append_cons_of_mem hnul
    exact Outf.loop_ends htext Outf.holds_start 0

/-- A text without conversions is sent in one message. -/
theorem outf_plain (htext : 0 ∉ text) (hplain : plain text = true) (hsize : text.length ≤ 255) :
    ∃ o : Outf, o.message = text ++ [0] ∧
      outf stack block (text ++ 0 :: rest) = o.send block .done :=
  Outf.loop_plain htext hplain Outf.holds_start (by
    rw [List.length_nil, Nat.zero_add]
    exact hsize.trans_lt (by decide))

end Mycrokernel
