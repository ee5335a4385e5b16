import Mycrokernel.Usr.Outf

/-!
# What `outf` delivers

The loop is followed item by item.  `Holds` says what the message is so far, and the level at
which `packs` reads the items is its length.

If the items pack, nothing is written behind the end of the buffer, and the messages are the
formatted text (`loop_sends`).  If they do not, a character takes the last place of the buffer,
and the `NUL` goes behind its end (`loop_overruns`).
-/

namespace Mycrokernel

variable {stack : Stack} {block : Word} {o o' : Outf} {c : Byte} {cs part text rest fmt : List Byte}
  {next : Outf → Dialogue Syscall Reply Outf} {log : List (Syscall × Reply)} {n level : Nat}
  {l : List Item}

/-! ## The buffer -/

namespace Outf

/-- The message so far is `part`. -/
structure Holds (o : Outf) (part : List Byte) : Prop where
  msg : (List.range o.idx).map o.msg = part
  buf : o.buf.length = 15

theorem Holds.idx (h : o.Holds part) : o.idx = part.length := by
  rw [← h.msg, List.length_map, List.length_range]

theorem map_put (o : Outf) (c : Byte) :
    (List.range o.idx).map (o.put c).msg = (List.range o.idx).map o.msg := by
  refine List.map_congr_left fun i hi => ?_
  exact Function.update_of_ne (List.mem_range.mp hi).ne _ _

theorem message_put (h : o.Holds part) (c : Byte) : (o.put c).message = part ++ [c] := by
  have hlast : (o.put c).msg o.idx = c := Function.update_self ..
  rw [message]
  change (List.range (o.idx + 1)).map (o.put c).msg = _
  rw [List.range_succ, List.map_append, map_put, h.msg, List.map_singleton, hlast]

theorem Holds.append (h : o.Holds part) (c : Byte) : (o.append c).Holds (part ++ [c]) where
  msg := message_put h c
  buf := h.buf

theorem Holds.foldl_append (h : o.Holds part) (text : List Byte) :
    (text.foldl Outf.append o).Holds (part ++ text) := by
  induction text generalizing o part with
  | nil => rwa [List.append_nil]
  | cons c text ih =>
      have hnext := ih (h.append c)
      rwa [List.append_assoc] at hnext

theorem Holds.restart (h : o.Holds part) (error : Word) :
    Holds { o.put 0 with error, idx := 0 } [] where
  msg := rfl
  buf := h.buf

theorem overrun_put (o : Outf) (c : Byte) :
    (o.put c).overrun = (o.overrun || decide (maxMsgSize ≤ o.idx)) := rfl

/-- A text that fits is written inside `msg`. -/
theorem overrun_foldl_append (text : List Byte) (h : o.idx + text.length ≤ maxMsgSize) :
    (text.foldl append o).overrun = o.overrun := by
  induction text generalizing o with
  | nil => rfl
  | cons c text ih =>
      rw [List.length_cons] at h
      have hnext : (o.append c).overrun = o.overrun := by
        change (o.overrun || decide (maxMsgSize ≤ o.idx)) = o.overrun
        rw [decide_eq_false (by omega), Bool.or_false]
      rw [List.foldl_cons, ih (by change o.idx + 1 + _ ≤ _; omega), hnext]

end Outf

/-! ## The items of a format -/

/-- The conversion a format begins with. -/
def conversionOf : List Byte → Option Conversion
  | c :: next :: _ => if c = byte '%' then Conversion.ofByte next else none
  | _ => none

/-- Induction on a format, item by item. -/
theorem format_induction {motive : Nat → List Byte → Prop} (nil : ∀ n, motive n [])
    (char : ∀ n c cs, conversionOf (c :: cs) = none → motive n cs → motive n (c :: cs))
    (number : ∀ n d cs conversion, Conversion.ofByte d = some conversion → motive (n + 1) cs →
      motive n (byte '%' :: d :: cs)) (n : Nat) (fmt : List Byte) : motive n fmt := by
  induction n, fmt using items.induct with
  | case1 n => exact nil n
  | case2 n => exact char n _ _ rfl (nil n)
  | case3 n d cs conversion hconversion ih => exact number n d cs conversion hconversion ih
  | case4 n d cs hnone ih => exact char n _ _ (by rw [conversionOf, if_pos rfl, hnone]) ih
  | case5 n c cs hne ih =>
      refine char n c cs ?_ ih
      cases cs with
      | nil => rfl
      | cons d cs => exact if_neg hne

theorem items_char {args : Nat → Word} (h : conversionOf (c :: cs) = none) :
    items args n (c :: cs) = .char c :: items args n cs := by
  rw [items.eq_def]
  dsimp only
  split
  next hpercent =>
    cases cs with
    | nil => rw [items]
    | cons d cs =>
        rw [conversionOf, if_pos hpercent] at h
        dsimp only
        rw [h]
  next => rfl

theorem items_number {args : Nat → Word} {d : Byte} {conversion : Conversion}
    (h : Conversion.ofByte d = some conversion) :
    items args n (byte '%' :: d :: cs) =
      .number (conversion.text (args n)) :: items args (n + 1) cs := by
  rw [items, if_pos rfl]
  simp only [h]

theorem items_eq_nil {args : Nat → Word} : items args n text = [] ↔ text = [] := by
  induction n, text using format_induction with
  | nil n => simp [items]
  | char n c cs hchar _ => simp [items_char hchar]
  | number n d cs conversion hconversion _ => simp [items_number hconversion]

/-- What comes behind the end of a string does not make a conversion. -/
theorem conversionOf_append (rest : List Byte) (h : conversionOf (c :: cs) = none) :
    conversionOf (c :: (cs ++ 0 :: rest)) = none := by
  cases cs with
  | nil =>
      rw [List.nil_append, conversionOf]
      split
      next => rfl
      next => rfl
  | cons d cs => exact h

namespace Outf

theorem loop_char {d : Byte} (h : conversionOf (c :: d :: cs) = none) :
    loop stack block (c :: d :: cs) o =
      literal block c (d :: cs) o (loop stack block (d :: cs)) := by
  rw [conversionOf] at h
  rw [loop.eq_def]
  dsimp only
  split
  next hpercent =>
    rw [if_pos hpercent] at h
    simp only [h]
  next => rfl

theorem loop_of_conversionOf (h : conversionOf (c :: cs) = none) :
    loop stack block (c :: cs) o = .stuck ∨
      loop stack block (c :: cs) o = literal block c cs o (loop stack block cs) := by
  cases cs with
  | nil =>
      rw [loop.eq_def]
      dsimp only
      split
      next => exact Or.inl rfl
      next => exact Or.inr rfl
  | cons d cs => exact Or.inr (loop_char h)

theorem loop_number {d : Byte} {conversion : Conversion}
    (h : Conversion.ofByte d = some conversion) :
    loop stack block (byte '%' :: d :: cs) o =
      number stack conversion o (loop stack block cs) := by
  rw [loop.eq_def]
  dsimp only
  rw [if_pos rfl, h]

theorem loop_end : loop stack block (0 :: rest) o = (o.put 0).send block .done := by
  rw [loop.eq_def]
  dsimp only
  rw [if_neg (by decide), literal.eq_def, if_pos rfl]

theorem literal_eq {d : Byte} (hc : c ≠ 0) : literal block c (d :: cs) o next =
    if maxMsgSize - 1 ≤ o.idx + 1 ∧ d ≠ 0 then (o.append c).flush next
    else next (o.append c) := by
  rw [literal, if_neg hc]
  change (if maxMsgSize - 1 ≤ o.idx + 1 then _ else _) = _
  split
  next hfull =>
    split
    next hd => rw [if_neg fun h => h.2 hd]
    next hd => rw [if_pos ⟨hfull, hd⟩]
  next hfull => rw [if_neg fun h => hfull h.1]

/-- What the loop does with a character of a string. -/
theorem loop_literal (hchar : conversionOf (c :: cs) = none) (hnul : 0 ∉ c :: cs)
    (hold : o.Holds part) : loop stack block (c :: cs ++ 0 :: rest) o =
      if maxMsgSize - 1 ≤ part.length + 1 ∧ cs ≠ [] then
        (o.append c).flush (loop stack block (cs ++ 0 :: rest))
      else loop stack block (cs ++ 0 :: rest) (o.append c) := by
  rw [List.mem_cons, not_or] at hnul
  have hchar' := conversionOf_append rest hchar
  rw [List.cons_append]
  cases cs with
  | nil =>
      rw [List.nil_append, loop_char hchar', literal_eq (Ne.symm hnul.1), if_neg (by simp),
        if_neg (by simp)]
  | cons d cs =>
      have hd : d ≠ 0 := fun hd => hnul.2 (by simp [hd])
      rw [List.cons_append] at hchar' ⊢
      rw [loop_char hchar', literal_eq (Ne.symm hnul.1), hold.idx]
      simp only [hd, ne_eq, not_false_eq_true, and_true, reduceCtorEq]

/-- The variables after an argument is written to `buf`. -/
def taken (stack : Stack) (conversion : Conversion) (o : Outf) : Outf :=
  { o with
    buf := conversion.text (stack.args o.vl) ++
      List.replicate (15 - (conversion.text (stack.args o.vl)).length) 0
    vl := o.vl + 1 }

theorem Holds.taken (stack : Stack) (conversion : Conversion) (h : o.Holds part) :
    (taken stack conversion o).Holds part where
  msg := h.msg
  buf := by
    have hlen := (conversion.numberText (stack.args o.vl)).length_le
    rw [Outf.taken, List.length_append, List.length_replicate]
    omega

theorem number_eq {conversion : Conversion} (h : o.Holds part) :
    number stack conversion o next =
      if maxMsgSize - part.length ≤ (conversion.text (stack.args o.vl)).length then
        (taken stack conversion o).flush fun o' =>
          next ((conversion.text (stack.args o.vl)).foldl append o')
      else next ((conversion.text (stack.args o.vl)).foldl append (taken stack conversion o)) := by
  have htext := conversion.numberText (stack.args o.vl)
  have hlen := htext.length_le
  obtain ⟨m, hm⟩ : ∃ m, 15 - (conversion.text (stack.args o.vl)).length = m + 1 :=
    ⟨14 - (conversion.text (stack.args o.vl)).length, by omega⟩
  rw [number, conversion.write_eq _ h.buf]
  dsimp only
  rw [hm, List.replicate_succ, strlen_append htext.noNul]
  dsimp only
  rw [List.take_left, Outf.taken, hm, List.replicate_succ, h.idx]

/-! ## Sends that do not fail -/

/-- What holds of the messages and of the result, if all sends succeed. -/
def Sends (p : Dialogue Syscall Reply Outf) (post : List (List Byte) → Outf → Prop) : Prop :=
  ∀ log o, p.Run log o → (∀ entry ∈ log, hasFailed entry.2.error = false) →
    post (ttyMessages log) o

variable {post : List (List Byte) → Outf → Prop} {p : Dialogue Syscall Reply Outf}

theorem sends_done (h : post [] o) : Sends (.done o) post := by
  intro log o' hrun _
  cases hrun
  exact h

theorem sends_send (h : ∀ error,
    Sends (next { o with error }) fun messages => post (o.message :: messages)) :
    Sends (o.send block next) post := by
  intro log o' hrun hok
  cases hrun with
  | @ask _ _ reply log _ hrun =>
      have hfirst : hasFailed reply.error = false := hok _ List.mem_cons_self
      dsimp only at hrun
      rw [hfirst] at hrun
      exact h reply.error log o' hrun fun entry hentry => hok entry (List.mem_cons_of_mem _ hentry)

theorem sends_flush (h : ∀ error,
    Sends (next { o.put 0 with error, idx := 0 }) fun messages =>
      post ((o.put 0).message :: messages)) : Sends (o.flush next) post :=
  sends_send h

/-! ## What the loop keeps -/

/-- A property of the variables that no assignment of the loop ends. -/
structure Keeps (I : Outf → Prop) : Prop where
  put : ∀ {o} (c : Byte), I o → I (o.put c)
  idx : ∀ {o : Outf} (idx : Nat), I o → I { o with idx }
  error : ∀ {o : Outf} (error : Word), I o → I { o with error }
  take : ∀ {o : Outf} (buf : List Byte), I o → I { o with buf, vl := o.vl + 1 }

section Keeps

variable {I : Outf → Prop}

/-- All requests are messages to the terminal, and the property holds in the end. -/
def Keeping (I : Outf → Prop) (p : Dialogue Syscall Reply Outf) : Prop :=
  p.Every (fun request _ => ∃ message block, request = .sendByFeature featureTty message block) I

theorem Keeps.foldl_append (hkeeps : Keeps I) (text : List Byte) (h : I o) :
    I (text.foldl Outf.append o) := by
  induction text generalizing o with
  | nil => exact h
  | cons c text ih => exact ih (o := o.append c) (hkeeps.idx _ (hkeeps.put c h))

theorem keeping_send (hkeeps : Keeps I) (ho : I o) (h : ∀ o, I o → Keeping I (next o)) :
    Keeping I (o.send block next) := by
  refine .ask ⟨_, _, rfl⟩ fun reply => ?_
  split
  next => exact .done (hkeeps.error _ ho)
  next => exact h _ (hkeeps.error _ ho)

theorem keeping_flush (hkeeps : Keeps I) (ho : I o) (h : ∀ o, I o → Keeping I (next o)) :
    Keeping I (o.flush next) :=
  keeping_send hkeeps (hkeeps.put 0 ho) fun _ ho => h _ (hkeeps.idx 0 ho)

theorem keeping_literal {c : Byte} (hkeeps : Keeps I) (ho : I o)
    (h : ∀ o, I o → Keeping I (next o)) : Keeping I (literal block c cs o next) := by
  have happend : I (o.append c) := hkeeps.idx _ (hkeeps.put c ho)
  unfold literal
  split
  next => exact keeping_send hkeeps (hkeeps.put c ho) fun _ ho => .done ho
  next =>
    split
    next =>
      cases cs with
      | nil => exact .stuck
      | cons d cs =>
          dsimp only
          split
          next => exact h _ happend
          next => exact keeping_flush hkeeps happend h
    next => exact h _ happend

theorem keeping_number {conversion : Conversion} (hkeeps : Keeps I) (ho : I o)
    (h : ∀ o, I o → Keeping I (next o)) : Keeping I (number stack conversion o next) := by
  unfold number
  split
  next => exact .stuck
  next buf _ =>
    split
    next => exact .stuck
    next =>
      dsimp only
      split
      next =>
        exact keeping_flush hkeeps (hkeeps.take buf ho) fun _ ho => h _ (hkeeps.foldl_append _ ho)
      next => exact h _ (hkeeps.foldl_append _ (hkeeps.take buf ho))

theorem keeping_loop (n : Nat) (hkeeps : Keeps I) (ho : I o) :
    Keeping I (loop stack block fmt o) := by
  induction n, fmt using format_induction generalizing o with
  | nil => exact .stuck
  | number n d cs conversion hconversion ih =>
      rw [loop_number hconversion]
      exact keeping_number hkeeps ho fun _ ho => ih ho
  | char n c cs hchar ih =>
      cases loop_of_conversionOf hchar with
      | inl hstuck =>
          rw [hstuck]
          exact .stuck
      | inr hliteral =>
          rw [hliteral]
          exact keeping_literal hkeeps ho fun _ ho => ih ho

end Keeps

/-- What was written behind the end of the buffer is not forgotten. -/
theorem keeps_overrun : Keeps fun o => o.overrun = true where
  put c h := by rw [overrun_put, h, Bool.true_or]
  idx _ h := h
  error _ h := h
  take _ h := h

/-! ## The messages -/

theorem vl_foldl_append (text : List Byte) : (text.foldl append o).vl = o.vl := by
  induction text generalizing o with
  | nil => rfl
  | cons c text ih => exact ih (o := o.append c)

/-- The message that is sent first, and the text of those behind it. -/
theorem delivers_cons {messages : List (List Byte)} (hpart : 0 ∉ part)
    (hlevel : part.length < maxMsgSize) (h : Delivers messages text) :
    Delivers ((part ++ [0]) :: messages) (part ++ text) where
  strings := List.forall_mem_cons.mpr ⟨⟨part, hpart, rfl⟩, h.strings⟩
  size := List.forall_mem_cons.mpr ⟨by rw [List.length_append, List.length_singleton]; exact hlevel,
    h.size⟩
  text := by rw [List.flatMap_cons, List.dropLast_concat, h.text]

theorem delivers_nil : Delivers [] [] := ⟨by simp, by simp, rfl⟩

theorem clean_put (c : Byte) (hold : o.Holds part) (hlevel : part.length < maxMsgSize)
    (hclean : o.overrun = false) : (o.put c).overrun = false := by
  rw [overrun_put, hclean, hold.idx, decide_eq_false (by omega), Bool.or_false]

/-- A format whose items pack is delivered, from wherever the loop stands. -/
theorem loop_sends (htext : 0 ∉ text) (hpart : 0 ∉ part) (hlevel : part.length < maxMsgSize)
    (hold : o.Holds part) (hvl : o.vl = n) (hclean : o.overrun = false)
    (hpacks : packs part.length (items stack.args n text) = true) :
    Sends (loop stack block (text ++ 0 :: rest) o) fun messages o' =>
      o'.overrun = false ∧
        Delivers messages (part ++ (items stack.args n text).flatMap Item.text) := by
  induction n, text using format_induction generalizing o part with
  | nil n =>
      rw [List.nil_append, loop_end]
      refine sends_send fun error => sends_done ⟨clean_put 0 hold hlevel hclean, ?_⟩
      rw [message_put hold, items, List.flatMap_nil]
      exact delivers_cons hpart hlevel delivers_nil
  | char n c cs hchar ih =>
      rw [List.mem_cons, not_or] at htext
      rw [items_char hchar, packs, Bool.and_eq_true, decide_eq_true_iff] at hpacks
      obtain ⟨hfits, hpacks⟩ := hpacks
      have hlen : (part ++ [c]).length = part.length + 1 := by simp
      have hnul : 0 ∉ part ++ [c] := by
        rw [List.mem_append, List.mem_singleton]
        exact not_or.mpr ⟨hpart, htext.1⟩
      have happend : (o.append c).overrun = false := clean_put c hold hlevel hclean
      have hitems : items stack.args n cs ≠ [] ↔ cs ≠ [] := not_congr items_eq_nil
      rw [loop_literal hchar (List.not_mem_cons_of_ne_of_not_mem htext.1 htext.2) hold,
        items_char hchar, List.flatMap_cons]
      simp only [Item.text]
      rw [← List.append_assoc]
      split
      next hfull =>
        rw [if_pos ⟨by omega, hitems.mpr hfull.2⟩] at hpacks
        refine sends_flush fun error => ?_
        rw [message_put (hold.append c)]
        have hrest := ih htext.2 (List.not_mem_nil) (by decide)
          ((hold.append c).restart error) hvl
          (clean_put (o := o.append c) 0 (hold.append c) (by omega) happend) hpacks
        intro log o' hrun hok
        obtain ⟨hclean', hdelivers⟩ := hrest log o' hrun hok
        exact ⟨hclean', delivers_cons hnul (by omega) hdelivers⟩
      next hfull =>
        rw [if_neg fun h => hfull ⟨by omega, hitems.mp h.2⟩, ← hlen] at hpacks
        exact ih htext.2 hnul (by omega) (hold.append c) hvl happend hpacks
  | number n d cs conversion hconversion ih =>
      have htail : 0 ∉ cs := fun h => htext (List.mem_cons_of_mem _ (List.mem_cons_of_mem _ h))
      have hnumber := conversion.numberText (stack.args n)
      have hlen := hnumber.length_le
      have hmax : maxMsgSize = 1921 := rfl
      rw [items_number hconversion, packs] at hpacks
      rw [items_number hconversion, List.flatMap_cons, List.cons_append, List.cons_append,
        loop_number hconversion, number_eq hold, hvl]
      simp only [Item.text]
      split
      next hfull =>
        rw [if_pos (by omega)] at hpacks
        refine sends_flush fun error => ?_
        have htaken := hold.taken stack conversion
        have hcopied := (htaken.restart error).foldl_append (conversion.text (stack.args n))
        rw [List.nil_append] at hcopied
        rw [message_put htaken]
        have hrest := ih htail hnumber.noNul (by omega) hcopied
          ((vl_foldl_append _).trans (congrArg (· + 1) hvl))
          ((overrun_foldl_append _ (by change 0 + _ ≤ _; omega)).trans (clean_put 0 htaken hlevel hclean))
          hpacks
        intro log o' hrun hok
        obtain ⟨hclean', hdelivers⟩ := hrest log o' hrun hok
        exact ⟨hclean', delivers_cons hpart hlevel hdelivers⟩
      next hroom =>
        rw [if_neg (by omega), ← List.length_append] at hpacks
        rw [← List.append_assoc]
        have htaken := (hold.taken stack conversion).foldl_append
          (conversion.text (stack.args n))
        refine ih htail ?_ (by rw [List.length_append]; omega) htaken
          ((vl_foldl_append _).trans (congrArg (· + 1) hvl))
          ((overrun_foldl_append _ ?_).trans hclean) hpacks
        · rw [List.mem_append]
          exact not_or.mpr ⟨hpart, hnumber.noNul⟩
        · change o.idx + _ ≤ _
          rw [hold.idx]
          omega

/-- A format whose items do not pack makes the loop write behind the end of the buffer. -/
theorem loop_overruns (htext : 0 ∉ text) (hlevel : part.length < maxMsgSize)
    (hold : o.Holds part) (hvl : o.vl = n)
    (hpacks : packs part.length (items stack.args n text) = false) :
    Sends (loop stack block (text ++ 0 :: rest) o) fun _ o' => o'.overrun = true := by
  have hspoilt : ∀ {o : Outf} {block : Word} {next : Outf → Dialogue Syscall Reply Outf},
      o.overrun = true → (∀ o, o.overrun = true → Keeping (fun o => o.overrun = true) (next o)) →
      Sends (o.send block next) fun _ o' => o'.overrun = true := by
    intro o block next ho h log o' hrun _
    exact (keeping_send keeps_overrun ho h).of_run hrun
  induction n, text using format_induction generalizing o part with
  | nil n => exact absurd hpacks (by simp [items, packs])
  | char n c cs hchar ih =>
      have hlen : (part ++ [c]).length = part.length + 1 := by simp
      have hmax : maxMsgSize = 1921 := rfl
      have hitems : items stack.args n cs ≠ [] ↔ cs ≠ [] := not_congr items_eq_nil
      have htail : 0 ∉ cs := fun h => htext (List.mem_cons_of_mem _ h)
      rw [items_char hchar, packs, Bool.and_eq_false_iff, decide_eq_false_iff_not] at hpacks
      rw [loop_literal hchar htext hold]
      cases Decidable.em (part.length + 1 < maxMsgSize) with
      | inl hfits =>
          have hpacks := hpacks.resolve_left (not_not_intro hfits)
          split
          next hfull =>
            rw [if_pos ⟨by omega, hitems.mpr hfull.2⟩] at hpacks
            refine sends_flush fun error => ?_
            exact ih htail (by decide) ((hold.append c).restart error) hvl hpacks
          next hfull =>
            rw [if_neg fun h => hfull ⟨by omega, hitems.mp h.2⟩, ← hlen] at hpacks
            exact ih htail (by omega) (hold.append c) hvl hpacks
      | inr hfull =>
          -- the character takes the place of the `NUL`
          have hput : ((o.append c).put 0).overrun = true := by
            rw [overrun_put, (hold.append c).idx, hlen, decide_eq_true (by omega), Bool.or_true]
          split
          next => exact hspoilt hput fun o ho => keeping_loop 0 keeps_overrun ho
          next hend =>
            have hcs : cs = [] := by
              by_contra hcs
              exact hend ⟨by omega, hcs⟩
            rw [hcs, List.nil_append, loop_end]
            exact hspoilt hput fun o ho => .done ho
  | number n d cs conversion hconversion ih =>
      have htail : 0 ∉ cs := fun h => htext (List.mem_cons_of_mem _ (List.mem_cons_of_mem _ h))
      have hlen := (conversion.numberText (stack.args n)).length_le
      have hmax : maxMsgSize = 1921 := rfl
      have htaken := hold.taken stack conversion
      rw [items_number hconversion, packs] at hpacks
      rw [List.cons_append, List.cons_append, loop_number hconversion, number_eq hold, hvl]
      split
      next hfull =>
        rw [if_pos (by omega)] at hpacks
        refine sends_flush fun error => ?_
        have hcopied := (htaken.restart error).foldl_append (conversion.text (stack.args n))
        rw [List.nil_append] at hcopied
        exact ih htail (by omega) hcopied
          ((vl_foldl_append _).trans (congrArg (· + 1) hvl)) hpacks
      next hroom =>
        rw [if_neg (by omega), ← List.length_append] at hpacks
        exact ih htail (by rw [List.length_append]; omega) (htaken.foldl_append _)
          ((vl_foldl_append _).trans (congrArg (· + 1) hvl)) hpacks

theorem ends_send (h : ∀ error, (next { o with error }).Ends) : (o.send block next).Ends := by
  refine .ask fun reply => ?_
  split
  next => exact .done _
  next => exact h _

/-- The loop comes to the end of a string, and reads nothing behind it. -/
theorem loop_ends (htext : 0 ∉ text) (hold : o.Holds part) (n : Nat) :
    (loop stack block (text ++ 0 :: rest) o).Ends := by
  induction n, text using format_induction generalizing o part with
  | nil n =>
      rw [List.nil_append, loop_end]
      exact ends_send fun _ => .done _
  | char n c cs hchar ih =>
      have htail : 0 ∉ cs := fun h => htext (List.mem_cons_of_mem _ h)
      rw [loop_literal hchar htext hold]
      split
      next => exact ends_send fun error => ih htail ((hold.append c).restart error)
      next => exact ih htail (hold.append c)
  | number n d cs conversion hconversion ih =>
      have htail : 0 ∉ cs := fun h => htext (List.mem_cons_of_mem _ (List.mem_cons_of_mem _ h))
      have htaken := hold.taken stack conversion
      rw [List.cons_append, List.cons_append, loop_number hconversion, number_eq hold]
      split
      next => exact ends_send fun error => ih htail ((htaken.restart error).foldl_append _)
      next => exact ih htail (htaken.foldl_append _)

theorem holds_start : (start stack).Holds [] where
  msg := rfl
  buf := stack.buf_length

end Outf

/-! ## A call -/

/-- `outf` does nothing but send messages to the terminal. -/
theorem outf_requests (stack : Stack) (block : Word) (fmt : List Byte) :
    (outf stack block fmt).Every
      (fun request _ => ∃ message block, request = .sendByFeature featureTty message block)
      fun _ => True :=
  Outf.keeping_loop 0 ⟨fun _ h => h, fun _ h => h, fun _ h => h, fun _ h => h⟩ trivial

/-- A text that can be handed over as a string. -/
structure CString where
  bytes : List Byte
  noNul : 0 ∉ bytes

/-- What the memory holds from the first byte of the string on. -/
def CString.memory (text : CString) (rest : List Byte) : List Byte := text.bytes ++ 0 :: rest

/-- A call of `outf` comes to its end, and if all sends succeed it has written inside `msg`
only, and has delivered the formatted text. -/
def OutfDelivers (stack : Stack) (block : Word) (fmt : CString) (rest : List Byte) : Prop :=
  (outf stack block (fmt.memory rest)).Ends ∧
    Outf.Sends (outf stack block (fmt.memory rest)) fun messages o =>
      o.overrun = false ∧ Delivers messages (formatted stack.args fmt.bytes)

theorem items_replicate {args : Nat → Word} (hc : c ≠ byte '%') (k : Nat) (cs : List Byte) :
    items args n (List.replicate k c ++ cs) =
      List.replicate k (.char c) ++ items args n cs := by
  induction k with
  | zero => rfl
  | succ k ih =>
      rw [List.replicate_succ, List.replicate_succ, List.cons_append, List.cons_append, ← ih]
      refine items_char ?_
      cases List.replicate k c ++ cs with
      | nil => rfl
      | cons d cs => exact if_neg hc

/-- Characters that do not fill the message. -/
theorem packs_replicate {k : Nat} (h : level + k < maxMsgSize - 1) :
    packs level (List.replicate k (.char c) ++ l) = packs (level + k) l := by
  induction k generalizing level with
  | zero => rfl
  | succ k ih =>
      rw [List.replicate_succ, List.cons_append, packs, decide_eq_true (by omega), Bool.true_and,
        if_neg (by omega), ih (by omega), Nat.add_assoc, Nat.add_comm 1]

theorem not_outfDelivers {fmt : CString}
    (h : packs 0 (items stack.args 0 fmt.bytes) = false) : ¬ OutfDelivers stack block fmt rest := by
  rintro ⟨hends, hdelivers⟩
  obtain ⟨log, o, hrun, hreply⟩ := hends.exists_run ⟨0, 0⟩
  have hok : ∀ entry ∈ log, hasFailed entry.2.error = false := by
    intro entry hentry
    rw [hreply entry hentry]
    decide
  have hover : o.overrun = true :=
    Outf.loop_overruns fmt.noNul (by decide) Outf.holds_start rfl h log o hrun hok
  rw [(hdelivers log o hrun hok).1] at hover
  exact absurd hover (by decide)

/-- `outf` delivers a format if and only if its items pack: no character comes when a number has
just filled the message. -/
theorem outf_delivers_iff (stack : Stack) (block : Word) (fmt : CString) (rest : List Byte) :
    OutfDelivers stack block fmt rest ↔ packs 0 (items stack.args 0 fmt.bytes) = true := by
  constructor
  · intro h
    rw [← Bool.not_eq_false]
    exact fun hpacks => not_outfDelivers hpacks h
  · intro hpacks
    exact ⟨Outf.loop_ends fmt.noNul Outf.holds_start 0,
      Outf.loop_sends fmt.noNul List.not_mem_nil (by decide) Outf.holds_start rfl rfl hpacks⟩

/-- The number 7 takes the last place before the `NUL`, and the `b` comes behind it. -/
theorem outf_delivers_fails : ∃ (stack : Stack) (block : Word) (fmt : CString) (rest : List Byte),
    ¬ OutfDelivers stack block fmt rest := by
  let stack : Stack := ⟨fun _ => 7, List.replicate 15 0, fun _ => 0, rfl⟩
  let text := List.replicate 1919 (byte 'a') ++ [byte '%', byte 'u', byte 'b']
  have hnul : 0 ∉ text := by
    rw [List.mem_append, List.mem_replicate]
    decide
  refine ⟨stack, 1, ⟨text, hnul⟩, [], not_outfDelivers ?_⟩
  have hitems : items stack.args 0 [byte '%', byte 'u', byte 'b'] =
      [.number (uintText 7), .char (byte 'b')] := rfl
  have hseven : (uintText 7).length = 1 := by
    rw [uintText, List.length_map, ← Numeral.strip_padded (b := 10) (k := 0) (by decide) (by decide)]
    rfl
  rw [items_replicate (by decide), packs_replicate (by decide), hitems, packs, hseven]
  decide

end Mycrokernel
