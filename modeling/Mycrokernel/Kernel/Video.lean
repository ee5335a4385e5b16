import Mycrokernel.Tty.Screen

/-!
# The console of the kernel

`_kputchar` of `kernel/video.hla` puts a character on the same screen as `putcharacter` of the
terminal.  It scrolls when it finds the cursor behind the main area, and not when it puts it there:
`settle` carries out the scroll that is pending.  Up to that the two do the same
(`consoles_agree`).

The loops have fuel, and `none` stands for a loop that has used it up.
-/

namespace Mycrokernel

open Function (update update_self update_of_ne)

open Screen (isPrintable lf tab lineStop tabStop)

/-- The video memory and the variables of `_kputchar`. -/
structure Console where
  /-- The bytes at `gs`. -/
  video : Nat → Byte
  cursor : BitVec 16
  attrib : Byte
  /-- Where has been written to. -/
  touched : List Nat
  /-- How many lines have been scrolled off. -/
  scrolled : Nat

namespace Console

/-- `_kscrollscreen`. -/
def kscrollscreen (k : Console) : Console :=
  { k with
    video := fun a =>
      if a < 3680 then k.video (a + 160)
      else if a < 3840 then (if a % 2 = 0 then 0 else 0xf)
      else k.video a
    cursor := 3680
    touched := List.range 3840 ++ k.touched
    scrolled := k.scrolled + 1 }

/-- A character with its attribute at the cursor, which goes on. -/
def cell (k : Console) (c : Byte) : Console :=
  let eax := k.cursor.toNat
  { k with
    video := update (update k.video eax c) (eax + 1) k.attrib
    cursor := k.cursor + 2
    touched := (eax + 1) :: eax :: k.touched }

/-- `_kputchar` from `putchar_back` on. -/
def putcharBack (c : Byte) : Nat → Console → Option Console
  | 0, _ => none
  | n + 1, k =>
    if k.cursor.toNat < 3840 then some (k.cell c) else putcharBack c n k.kscrollscreen

/-- What `_kputchar` does with a printable character. -/
def kputPrintable (k : Console) (c : Byte) : Option Console := putcharBack c 2 k

/-- The loops of `_kputchar`: put spaces until the cursor is at a stop. -/
def kputSpaces (stop : Nat → Bool) : Nat → Console → Option Console
  | 0, _ => none
  | n + 1, k =>
    if stop k.cursor.toNat then some k
    else (k.kputPrintable (byte ' ')).bind (kputSpaces stop n)

/-- `_kputchar`. -/
def kputchar (k : Console) (c : Byte) : Option Console :=
  if isPrintable c then k.kputPrintable c
  else if c = lf then (k.kputPrintable (byte ' ')).bind (kputSpaces lineStop 81)
  else if c = tab then (k.kputPrintable (byte ' ')).bind (kputSpaces tabStop 81)
  else some k

/-- The scroll that is pending is carried out. -/
def settle (k : Console) : Console := if k.cursor.toNat < 3840 then k else k.kscrollscreen

/-- The place of the cursor, counted from the first line of all. -/
def position (k : Console) : Nat := k.cursor.toNat + 160 * k.scrolled

end Console

namespace Screen

/-- The loops of `putcharacter` come to their stops. -/
def Terminates (s : Screen) (c : Byte) : Prop :=
  (c = lf → lineStop (putSpaces lineStop 80 (s.putPrintable (byte ' '))).cursor.toNat = true) ∧
    (c = tab → tabStop (putSpaces tabStop 80 (s.putPrintable (byte ' '))).cursor.toNat = true)

end Screen

/-- The two have the same text in the main area and the same cursor, and no byte behind the main
area has been written. -/
structure Agrees (k : Console) (s : Screen) : Prop where
  cursor : k.settle.cursor = s.cursor
  text : ∀ a < 3840, a % 2 = 0 → k.settle.video a = s.video a
  ktouched : ∀ a ∈ k.touched, a < 3840
  touched : ∀ a ∈ s.touched, a < 3840

namespace Screen

/-- The screen, with the status line as it is at the start: `putcharacter` does not use it. -/
def main (s : Screen) : Screen := { s with ttyCursor := 3840 }

end Screen

/-- The two agree, and the cursor is at a character or, in the kernel, behind the last one. -/
structure Together (k : Console) (s : Screen) : Prop where
  cursor : k.settle.cursor = s.cursor
  text : ∀ a < 3840, a % 2 = 0 → k.settle.video a = s.video a
  ktouched : ∀ a ∈ k.touched, a < 3840
  kinside : k.cursor.toNat ≤ 3840
  onScreen : s.main.OnScreen

variable {k k' : Console} {s s' : Screen} {c : Byte}

namespace Console

theorem settle_of_lt (h : k.cursor.toNat < 3840) : k.settle = k := if_pos h

theorem settle_cursor_lt (k : Console) : k.settle.cursor.toNat < 3840 := by
  rw [settle]
  split
  next h => exact h
  next => exact show (3680 : Nat) < 3840 by decide

/-- A printable character is put where the cursor is after the scroll. -/
theorem kputPrintable_eq (k : Console) (c : Byte) :
    k.kputPrintable c = some (k.settle.cell c) := by
  rw [kputPrintable, putcharBack, settle]
  split
  next => rfl
  next => rfl

theorem cell_cursor (h : k.cursor.toNat < 3840) : (k.cell c).cursor.toNat = k.cursor.toNat + 2 := by
  change (k.cursor + 2).toNat = _
  rw [BitVec.toNat_add]
  change (k.cursor.toNat + 2) % 65536 = _
  omega

theorem settle_position (h : k.cursor.toNat ≤ 3840) : k.settle.position = k.position := by
  rw [settle]
  split
  next => rfl
  next hlt =>
    change 3680 + 160 * (k.scrolled + 1) = k.cursor.toNat + 160 * k.scrolled
    omega

theorem settle_touched (h : ∀ a ∈ k.touched, a < 3840) : ∀ a ∈ k.settle.touched, a < 3840 := by
  rw [settle]
  split
  next => exact h
  next => exact List.forall_mem_append.mpr ⟨fun _ ha => List.mem_range.mp ha, h⟩

theorem cell_video {a : Nat} (heven : k.cursor.toNat % 2 = 0) (ha : a % 2 = 0) :
    (k.cell c).video a = update k.video k.cursor.toNat c a :=
  update_of_ne (by omega) _ _

end Console

namespace Screen

theorem main_putPrintable (s : Screen) (c : Byte) :
    (s.putPrintable c).main = s.main.putPrintable c := by
  rw [putPrintable, putPrintable]
  dsimp only
  split
  next hend =>
    rw [if_pos (show 3840 ≤ s.main.cursor.toNat + 2 from hend)]
    rfl
  next hroom =>
    rw [if_neg (show ¬ 3840 ≤ s.main.cursor.toNat + 2 from hroom)]
    rfl

/-- What a printable character makes of the characters. -/
theorem putPrintable_video {a : Nat} (heven : s.cursor.toNat % 2 = 0)
    (hinside : s.cursor.toNat < 3840) (ha : a % 2 = 0) :
    (s.putPrintable c).video a =
      if s.cursor.toNat + 2 < 3840 then update s.video s.cursor.toNat c a
      else if a < 3680 then update s.video s.cursor.toNat c (a + 160)
      else if a < 3840 then 0
      else update s.video s.cursor.toNat c a := by
  have hcell : ∀ a, a % 2 = 0 → ((s.poke s.cursor.toNat c).poke (s.cursor.toNat + 1) attrib).video a =
      update s.video s.cursor.toNat c a := fun a ha => update_of_ne (by omega) _ _
  have hmove : ∀ s : Screen, s.cursor.toNat % 2 = 0 → s.moveCursor.video a = s.video a :=
    fun s heven => update_of_ne (by omega) _ _
  unfold putPrintable
  dsimp only
  split
  next hend =>
    have hback : (BitVec.ofNat 16 (s.cursor.toNat + 2 - 160)).toNat = s.cursor.toNat + 2 - 160 := by
      rw [BitVec.toNat_ofNat]
      omega
    rw [if_neg (by omega), hmove _ (by dsimp only; omega)]
    change (if a < 3680 then _ else _) = _
    rw [hcell (a + 160) (by omega), hcell a ha, if_pos ha]
  next hroom =>
    have hnext : (BitVec.ofNat 16 (s.cursor.toNat + 2)).toNat = s.cursor.toNat + 2 := by
      rw [BitVec.toNat_ofNat]
      omega
    rw [if_pos (by omega), hmove _ (by dsimp only; omega)]
    exact hcell a ha

end Screen

theorem together_kputPrintable (h : Together k s) (c : Byte) :
    ∃ k', k.kputPrintable c = some k' ∧ Together k' (s.putPrintable c) ∧
      k'.position = k.position + 2 ∧ (s.putPrintable c).position = s.position + 2 := by
  have hputs := Screen.puts_putPrintable h.onScreen c
  have hcursor := Screen.putPrintable_cursor h.onScreen c
  have heven : s.cursor.toNat % 2 = 0 := h.onScreen.even
  have hinside : s.cursor.toNat < 3840 := h.onScreen.inside
  have hthere : k.settle.cursor.toNat = s.cursor.toNat := congrArg BitVec.toNat h.cursor
  have hcell : (k.settle.cell c).cursor.toNat = s.cursor.toNat + 2 := by
    rw [Console.cell_cursor k.settle_cursor_lt, hthere]
  have hvideo : ∀ a < 3840, a % 2 = 0 →
      (k.settle.cell c).video a = update s.video s.cursor.toNat c a := by
    intro a hlt ha
    rw [Console.cell_video (by omega) ha, hthere, Function.update_apply, Function.update_apply]
    split
    next => rfl
    next => exact h.text a hlt ha
  have hktouched : ∀ a ∈ (k.settle.cell c).touched, a < 3840 :=
    List.forall_mem_cons.mpr ⟨by omega, List.forall_mem_cons.mpr
      ⟨by omega, Console.settle_touched h.ktouched⟩⟩
  have hkposition : (k.settle.cell c).position = k.position + 2 := by
    rw [← Console.settle_position h.kinside, Console.position, Console.position, hcell, hthere]
    exact Nat.add_right_comm ..
  rw [← Screen.main_putPrintable] at hputs hcursor
  have hcursor : (s.putPrintable c).cursor.toNat =
      if s.cursor.toNat + 2 < 3840 then s.cursor.toNat + 2 else 3680 := hcursor
  refine ⟨_, k.kputPrintable_eq c, ⟨?_, ?_, hktouched, by omega, hputs.onScreen⟩, hkposition,
    hputs.position⟩
  · rw [Console.settle]
    split
    next hroom =>
      refine BitVec.eq_of_toNat_eq ?_
      rw [hcursor, hcell, if_pos (by omega)]
    next hend =>
      refine BitVec.eq_of_toNat_eq ?_
      rw [hcursor, if_neg (by omega)]
      rfl
  · intro a hlt ha
    rw [Console.settle, Screen.putPrintable_video heven hinside ha]
    split
    next hroom =>
      rw [if_pos (by omega)]
      exact hvideo a hlt ha
    next hend =>
      rw [if_neg (by omega), Console.kscrollscreen]
      dsimp only
      split
      next hup => exact hvideo (a + 160) (by omega) (by omega)
      next => rfl

/-! ## Spaces -/

/-- The cursors are in the same column. -/
theorem Together.column (h : Together k s) : k.cursor.toNat % 160 = s.cursor.toNat % 160 := by
  have hcursor := congrArg BitVec.toNat h.cursor
  have hinside := h.kinside
  rw [Console.settle] at hcursor
  split at hcursor
  next => rw [hcursor]
  next hend =>
    have hrow : k.kscrollscreen.cursor.toNat = 3680 := rfl
    omega

/-- Both loops come to a stop in the column `r`, before they have gone through a whole line. -/
theorem together_putSpaces (h : Together k s) {stop : Nat → Bool} {r n : Nat} (hr : r % 2 = 0)
    (hlt : r < 160) (hstop : ∀ eax, eax % 160 = r → stop eax = true)
    (hcolumn : ∀ eax eax', eax % 160 = eax' % 160 → stop eax = stop eax')
    (hn : (r + 160 - s.cursor.toNat % 160) % 160 ≤ 2 * n) :
    ∃ k' m, k.kputSpaces stop (n + 1) = some k' ∧ Together k' (s.putSpaces stop n) ∧
      stop (s.putSpaces stop n).cursor.toNat = true ∧
      2 * m ≤ (r + 160 - s.cursor.toNat % 160) % 160 ∧
      k'.position = k.position + 2 * m ∧ (s.putSpaces stop n).position = s.position + 2 * m := by
  have hsame := hcolumn _ _ h.column
  induction n generalizing k s with
  | zero =>
      have hdone := hstop s.cursor.toNat (by have := h.onScreen.even; change _ % 2 = 0 at this; omega)
      refine ⟨k, 0, ?_, h, hdone, Nat.zero_le _, rfl, rfl⟩
      rw [Console.kputSpaces, if_pos (hsame.trans hdone)]
  | succ n ih =>
      rw [Console.kputSpaces, Screen.putSpaces, hsame]
      split
      next hdone => exact ⟨k, 0, rfl, h, hdone, Nat.zero_le _, rfl, rfl⟩
      next hgoing =>
        have heven : s.cursor.toNat % 2 = 0 := h.onScreen.even
        have hne : s.cursor.toNat % 160 ≠ r := fun heq => hgoing (hstop _ heq)
        obtain ⟨k', hk', hnext, hkplace, hplace⟩ := together_kputPrintable h (byte ' ')
        have hmod := Screen.position_mod s
        have hmod' := Screen.position_mod (s.putPrintable (byte ' '))
        obtain ⟨k'', m, hk'', htogether, hend, hm, hkmove, hmove⟩ :=
          ih hnext (by omega) (hcolumn _ _ hnext.column)
        refine ⟨k'', m + 1, ?_, htogether, hend, by omega, by omega, by omega⟩
        rw [hk', Option.bind_some, hk'']

/-! ## Characters -/

theorem together_moveCursor (h : Together k s) : Together k s.moveCursor where
  cursor := h.cursor
  text := by
    intro a hlt ha
    have heven : s.cursor.toNat % 2 = 0 := h.onScreen.even
    refine (h.text a hlt ha).trans (Eq.symm ?_)
    exact update_of_ne (by omega) _ _
  ktouched := h.ktouched
  kinside := h.kinside
  onScreen := h.onScreen.moveCursor

/-- A space, and then spaces up to a stop in the column `r`. -/
theorem together_upTo (h : Together k s) (stop : Nat → Bool) {r : Nat} (hr : r % 2 = 0)
    (hlt : r < 160) (hstop : ∀ eax, eax % 160 = r → stop eax = true)
    (hcolumn : ∀ eax eax', eax % 160 = eax' % 160 → stop eax = stop eax') :
    ∃ k' m, (k.kputPrintable (byte ' ')).bind (Console.kputSpaces stop 81) = some k' ∧
      Together k' ((s.putPrintable (byte ' ')).putSpaces stop 80).moveCursor ∧
      stop ((s.putPrintable (byte ' ')).putSpaces stop 80).cursor.toNat = true ∧
      2 * m ≤ (r + 160 - (s.position + 2) % 160) % 160 ∧ k'.position = k.position + 2 + 2 * m ∧
      ((s.putPrintable (byte ' ')).putSpaces stop 80).moveCursor.position =
        s.position + 2 + 2 * m := by
  obtain ⟨k₁, hk₁, hspace, hkplace, hplace⟩ := together_kputPrintable h (byte ' ')
  obtain ⟨k₂, m, hk₂, hspaces, hend, hm, hkmove, hmove⟩ :=
    together_putSpaces (n := 80) hspace hr hlt hstop hcolumn (by omega)
  have hmod := Screen.position_mod (s.putPrintable (byte ' '))
  refine ⟨k₂, m, ?_, together_moveCursor hspaces, hend, by omega, by omega, ?_⟩
  · rw [hk₁, Option.bind_some, hk₂]
  · rw [← hplace]
    exact hmove

/-- The cursor has gone to the start of the next row. -/
def NewRow (p p' : Nat) : Prop := p' = 160 * (p / 160 + 1)

theorem together_kputchar (h : Together k s) (c : Byte) :
    ∃ k', k.kputchar c = some k' ∧ Together k' (s.putcharacter c) ∧ s.Terminates c ∧
      (c = lf → NewRow k.position k'.position ∧ NewRow s.position (s.putcharacter c).position) := by
  have heven : s.cursor.toNat % 2 = 0 := h.onScreen.even
  obtain ⟨kline, m, hkline, hline, hlineStop, hm, hkplace, hplace⟩ :=
    together_upTo h lineStop (r := 0) rfl (by decide) (fun _ heq => decide_eq_true heq)
      (fun eax eax' heq => by rw [lineStop, lineStop, heq])
  obtain ⟨ktab, -, hktab, htab, htabStop, -⟩ :=
    together_upTo h tabStop (r := 158) rfl (by decide)
      (fun _ heq => decide_eq_true (by omega))
      (fun eax eax' heq => by rw [tabStop, tabStop, show (eax + 2) % 160 = (eax' + 2) % 160 by omega])
  have hterminates : s.Terminates c := ⟨fun _ => hlineStop, fun _ => htabStop⟩
  rw [Console.kputchar, Screen.putcharacter]
  split
  next hprintable =>
    obtain ⟨k', hk', htogether, -⟩ := together_kputPrintable h c
    refine ⟨k', hk', htogether, hterminates, ?_⟩
    rintro rfl
    exact absurd hprintable (by decide)
  next =>
    split
    next =>
      refine ⟨kline, hkline, hline, hterminates, fun _ => ?_⟩
      have hcolumn := h.column
      have hmod := Screen.position_mod s
      have hmod' := Screen.position_mod ((s.putPrintable (byte ' ')).putSpaces lineStop 80).moveCursor
      have hkmod : k.position % 160 = k.cursor.toNat % 160 := Nat.add_mul_mod_self_left ..
      have hrow : ((s.putPrintable (byte ' ')).putSpaces lineStop 80).moveCursor.cursor.toNat % 160 =
          0 := of_decide_eq_true hlineStop
      constructor
      · rw [NewRow]
        omega
      · rw [NewRow]
        omega
    next hlf =>
      split
      next => exact ⟨ktab, hktab, htab, hterminates, fun heq => absurd heq hlf⟩
      next => exact ⟨k, rfl, together_moveCursor h, hterminates, fun heq => absurd heq hlf⟩

theorem together_text (h : Together k s) (text : List Byte) :
    ∃ k', text.foldlM Console.kputchar k = some k' ∧ Together k' (text.foldl Screen.putcharacter s) := by
  induction text generalizing k s with
  | nil => exact ⟨k, rfl, h⟩
  | cons c text ih =>
      obtain ⟨k₁, hk₁, hnext, -⟩ := together_kputchar h c
      obtain ⟨k', hk', htogether⟩ := ih hnext
      refine ⟨k', ?_, htogether⟩
      rw [List.foldlM_cons, hk₁]
      exact hk'

theorem Together.agrees (h : Together k s) : Agrees k s :=
  ⟨h.cursor, h.text, h.ktouched, h.onScreen.touched⟩

/-- The two put every text in the same way, from the same characters and the same cursor; and in the
state after it every loop ends, and a line feed leads to the start of a new row. -/
theorem consoles_agree {video video' : Nat → Byte} {cursor : BitVec 16} (attrib : Byte)
    (ttyCursor crtc : BitVec 16) (hvideo : ∀ a < 3840, a % 2 = 0 → video a = video' a)
    (heven : cursor.toNat % 2 = 0) (hinside : cursor.toNat < 3840) (text : List Byte) :
    ∃ k', text.foldlM Console.kputchar ⟨video, cursor, attrib, [], 0⟩ = some k' ∧
      let s' := text.foldl Screen.putcharacter ⟨video', cursor, ttyCursor, crtc, [], 0⟩
      Agrees k' s' ∧ (∀ c, s'.Terminates c) ∧
        ∃ k'', k'.kputchar lf = some k'' ∧ NewRow k'.position k''.position ∧
          NewRow s'.position (s'.putcharacter lf).position := by
  have hnone : ∀ a ∈ ([] : List Nat), a < 3840 := fun a ha => absurd ha List.not_mem_nil
  have hstart : Together ⟨video, cursor, attrib, [], 0⟩ ⟨video', cursor, ttyCursor, crtc, [], 0⟩ := by
    have hsettled : (⟨video, cursor, attrib, [], 0⟩ : Console).settle =
        ⟨video, cursor, attrib, [], 0⟩ := Console.settle_of_lt hinside
    refine ⟨?_, ?_, hnone, hinside.le, heven, hinside, hnone, le_rfl⟩
    · rw [hsettled]
    · rw [hsettled]
      exact hvideo
  obtain ⟨k', hk', htogether⟩ := together_text hstart text
  obtain ⟨k'', hk'', -, -, hrow⟩ := together_kputchar htogether lf
  refine ⟨k', hk', htogether.agrees, fun c => ?_, k'', hk'', hrow rfl⟩
  obtain ⟨-, -, -, hterminates, -⟩ := together_kputchar htogether c
  exact hterminates

/-- A letter at the end of the last row, and a line feed. -/
theorem consoles_agree_edge : ∃ k', [65, 10].foldlM Console.kputchar
    ⟨fun _ => 0, 3838, 15, [], 0⟩ = some k' ∧
      Agrees k' ([65, 10].foldl Screen.putcharacter ⟨fun _ => 0, 3838, 3840, 0, [], 0⟩) := by
  obtain ⟨k', hk', hagrees, -⟩ := @consoles_agree (fun _ => 0) (fun _ => 0) 3838 15 3840
    0 (fun _ _ _ => rfl) (by decide) (by decide) [65, 10]
  exact ⟨k', hk', hagrees⟩

end Mycrokernel
