import Mycrokernel.Hd.Driver
import Mycrokernel.Usr.Plain
import Mathlib.Logic.Relation

/-!
# Directories

`do_direct_directory` of `hd/main.c` goes through the records of a directory in a block it was
given.  `Visited` are the places it comes to, which the block alone decides.

It comes to its end, and reads inside the block, if and only if each record it visits has a
length that is not zero, and a name with a `NUL` behind it (`directory_safe_iff`).

`Directory` are the blocks that a file system would write.  Their names are not strings, so that
the listing is right only if each name happens to be followed by a `NUL`, and has no conversion
of `outf` in it (`directory_names_iff`).
-/

namespace Mycrokernel

open Relation (ReflTransGen)

/-- The buffer of a block. -/
structure Block where
  bytes : List Byte
  length_eq : bytes.length = 1024

namespace Hd

/-- `block[i]`, which is undefined outside the block. -/
def byteAt (block : Block) (i : Nat) : Hd Byte := fun d =>
  match block.bytes[i]? with
  | some b => .done (some b, d)
  | none => .stuck

/-- The `uint16_t` at a place in the block. -/
def halfAt (block : Block) (i : Nat) : Hd (BitVec 16) := do
  let low ← byteAt block i
  let high ← byteAt block (i + 1)
  return high ++ low

/-- The `uint32_t` at a place in the block. -/
def wordAt (block : Block) (i : Nat) : Hd Word := do
  let low ← halfAt block i
  let high ← halfAt block (i + 2)
  return high ++ low

/-- The loop of `do_direct_directory`, with `cur` at a place in the block.  `frames` is what the
calls of `outf` find on the stack. -/
def directoryLoop (frames : Nat → Stack) (block : Block) : Nat → Nat → Hd Unit
  | 0, _ => spent
  | n + 1, cur =>
    if cur < 1024 then
      if 1023 < cur + 4 then pure ()
      else do
        outf (frames (2 * n + 1)) (stringLiteral "Found entry:")
        outf (frames (2 * n)) (block.bytes.drop (cur + 8))
        let _inodeNr ← wordAt block cur
        let size ← halfAt block (cur + 4)
        directoryLoop frames block n (cur + size.toNat)
    else pure ()

/-- `do_direct_directory`. -/
def doDirectDirectory (frames : Nat → Stack) (fuel : Nat) (_channel : Ptr) (_partitionNr : Byte)
    (block : Block) : Hd Unit :=
  finish (directoryLoop frames block fuel 0)

end Hd

namespace Block

variable {block : Block} {cur pos : Nat}

/-- The length field of the record at a place. -/
def recordLength (block : Block) (cur : Nat) : Nat :=
  (block.bytes.getD (cur + 5) 0 ++ block.bytes.getD (cur + 4) 0).toNat

/-- From a record that begins below the last four bytes the driver goes on to the next. -/
def Next (block : Block) (cur next : Nat) : Prop :=
  cur < 1020 ∧ next = cur + block.recordLength cur

/-- The places the driver comes to. -/
def Visited (block : Block) (cur : Nat) : Prop := ReflTransGen block.Next 0 cur

/-- A record the driver can get past. -/
structure Passable (block : Block) (cur : Nat) : Prop where
  length : block.recordLength cur ≠ 0
  name : 0 ∈ block.bytes.drop (cur + 8)

/-- The driver gets to the end of the block. -/
inductive Safe (block : Block) : Nat → Prop where
  | finish {cur : Nat} : 1020 ≤ cur → Safe block cur
  | record {cur : Nat} : cur < 1020 → 0 ∈ block.bytes.drop (cur + 8) →
      Safe block (cur + block.recordLength cur) → Safe block cur

theorem Safe.passable (h : block.Safe cur) (hpos : ReflTransGen block.Next cur pos)
    (hlt : pos < 1020) : block.Passable pos := by
  induction h generalizing pos with
  | finish hend =>
      cases hpos.cases_head with
      | inl heq => omega
      | inr hnext =>
          obtain ⟨_, ⟨hcur, -⟩, -⟩ := hnext
          omega
  | @record cur hcur hname _ ih =>
      cases hpos.cases_head with
      | inl heq =>
          subst heq
          refine ⟨fun hzero => ?_, hname⟩
          -- a record without a length is behind itself
          rw [hzero, Nat.add_zero] at ih
          exact (ih .refl hlt).length hzero
      | inr hnext =>
          obtain ⟨_, ⟨-, rfl⟩, hrest⟩ := hnext
          exact ih hrest hlt

theorem safe_of_passable
    (h : ∀ pos, ReflTransGen block.Next cur pos → pos < 1020 → block.Passable pos) :
    block.Safe cur := by
  generalize hleft : 1020 - cur = left
  induction left using Nat.strong_induction_on generalizing cur with
  | _ left ih =>
      cases Decidable.em (cur < 1020) with
      | inr hend => exact .finish (Nat.not_lt.mp hend)
      | inl hcur =>
          have hpass := h cur .refl hcur
          have hlength := hpass.length
          refine .record hcur hpass.name (ih (1020 - (cur + block.recordLength cur)) (by omega) ?_ rfl)
          intro pos hpos
          exact h pos (.head ⟨hcur, rfl⟩ hpos)

theorem safe_iff : block.Safe cur ↔
    ∀ pos, ReflTransGen block.Next cur pos → pos < 1020 → block.Passable pos :=
  ⟨fun h _ hpos hlt => h.passable hpos hlt, safe_of_passable⟩

end Block

namespace Hd

variable {block : Block} {frames : Nat → Stack} {cur i n : Nat} {d : Driver}

/-! ## Reads -/

theorem byteAt_eq (h : i < 1024) : byteAt block i d = .done (some (block.bytes.getD i 0), d) := by
  rw [byteAt, List.getD_eq_getElem?_getD]
  have hlt : i < block.bytes.length := by
    rw [block.length_eq]
    exact h
  rw [List.getElem?_eq_getElem hlt]
  rfl

theorem halfAt_eq (h : i + 1 < 1024) : halfAt block i d =
    .done (some (block.bytes.getD (i + 1) 0 ++ block.bytes.getD i 0), d) := by
  change (byteAt block i d).bind _ = _
  rw [byteAt_eq (by omega)]
  change (byteAt block (i + 1) d).bind _ = _
  rw [byteAt_eq h]
  rfl

theorem wordAt_eq (h : i + 3 < 1024) : wordAt block i d =
    .done (some ((block.bytes.getD (i + 3) 0 ++ block.bytes.getD (i + 2) 0) ++
      (block.bytes.getD (i + 1) 0 ++ block.bytes.getD i 0)), d) := by
  change (halfAt block i d).bind _ = _
  rw [halfAt_eq (by omega)]
  change (halfAt block (i + 2) d).bind _ = _
  rw [halfAt_eq (by omega)]
  rfl

/-! ## The loop -/

/-- The driver after a call of `outf`. -/
def afterOutf (d : Driver) (o : Outf) : Driver := { d with mem := storeWord d.mem null o.error }

theorem directoryLoop_end (h : 1020 ≤ cur) :
    directoryLoop frames block (n + 1) cur d = .done (some (), d) := by
  rw [directoryLoop]
  split
  next =>
    rw [if_pos (by omega)]
    rfl
  next => rfl

/-- The two calls for a record, and the rest of the loop. -/
theorem directoryLoop_record (frames : Nat → Stack) (n : Nat) (d : Driver) (h : cur < 1020) :
    directoryLoop frames block (n + 1) cur d =
      (Mycrokernel.outf (frames (2 * n + 1)) 1 (stringLiteral "Found entry:")).bind fun o =>
        (Mycrokernel.outf (frames (2 * n)) 1 (block.bytes.drop (cur + 8))).bind fun o' =>
          (do
            let _inodeNr ← wordAt block cur
            let size ← halfAt block (cur + 4)
            directoryLoop frames block n (cur + size.toNat)) (afterOutf (afterOutf d o) o') := by
  rw [directoryLoop, if_pos (by omega), if_neg (by omega)]
  refine (Dialogue.bind_assoc ..).trans (congrArg (Dialogue.bind _) (funext fun o => ?_))
  refine (Dialogue.bind_assoc ..).trans (congrArg (Dialogue.bind _) (funext fun o' => ?_))
  rfl

theorem directoryLoop_next (block : Block) (h : cur + 8 ≤ 1024) :
    (do
      let _inodeNr ← wordAt block cur
      let size ← halfAt block (cur + 4)
      directoryLoop frames block n (cur + size.toNat)) d =
      directoryLoop frames block n (cur + block.recordLength cur) d := by
  change (wordAt block cur d).bind _ = _
  rw [wordAt_eq (by omega)]
  change (halfAt block (cur + 4) d).bind _ = _
  rw [halfAt_eq (by omega)]
  rfl

/-- The place of a name that is a string is inside the block. -/
theorem lt_of_name (h : 0 ∈ block.bytes.drop (cur + 8)) : cur + 8 < 1024 := by
  by_contra hge
  rw [List.drop_of_length_le (by rw [block.length_eq]; omega)] at h
  exact absurd h (by simp)

theorem found_ends (stack : Stack) :
    (Mycrokernel.outf stack 1 (stringLiteral "Found entry:")).Ends :=
  outf_ends_iff.mpr (by decide)

theorem ends_of_safe (h : block.Safe cur) :
    ∃ fuel, ∀ frames d, (directoryLoop frames block fuel cur d).Ends := by
  induction h with
  | finish hend =>
      refine ⟨1, fun frames d => ?_⟩
      rw [directoryLoop_end hend]
      exact .done _
  | @record cur hcur hname _ ih =>
      obtain ⟨fuel, ih⟩ := ih
      refine ⟨fuel + 1, fun frames d => ?_⟩
      have hplace := lt_of_name hname
      rw [directoryLoop_record _ _ _ hcur]
      refine (found_ends _).bind fun o => (outf_ends_iff.mpr hname).bind fun o' => ?_
      rw [directoryLoop_next _ (by omega)]
      exact ih _ _

theorem safe_of_ends (h : (directoryLoop frames block n cur d).Ends) : block.Safe cur := by
  induction n generalizing cur d with
  | zero => cases h
  | succ n ih =>
      cases Decidable.em (cur < 1020) with
      | inr hend => exact .finish (Nat.not_lt.mp hend)
      | inl hcur =>
          rw [directoryLoop_record _ _ _ hcur] at h
          obtain ⟨log, o, hrun, -⟩ := (found_ends (frames (2 * n + 1))).exists_run ⟨0, 0⟩
          have hsecond := h.after_run hrun
          have hname := outf_ends_iff.mp hsecond.of_bind
          obtain ⟨log', o', hrun', -⟩ := hsecond.of_bind.exists_run ⟨0, 0⟩
          have hrest := hsecond.after_run hrun'
          have hplace := lt_of_name hname
          rw [directoryLoop_next _ (by omega)] at hrest
          exact .record hcur hname (ih hrest)

theorem ends_finish {m : Hd Unit} : (finish m d).Ends ↔ (m d).Ends :=
  ⟨fun h => h.of_bind, fun h => h.bind fun _ => .done _⟩

/-- `do_direct_directory` comes to its end, and reads inside the block only, if and only if each
record that it visits has a length that is not zero, and a `NUL` from its name on. -/
theorem directory_safe_iff (channel : Ptr) (partitionNr : Byte) (block : Block) :
    (∃ fuel, ∀ frames d, (doDirectDirectory frames fuel channel partitionNr block d).Ends) ↔
      ∀ pos, block.Visited pos → pos < 1020 → block.Passable pos := by
  refine Iff.trans ?_ Block.safe_iff
  constructor
  · rintro ⟨fuel, h⟩
    exact safe_of_ends (ends_finish.mp (h (fun _ => default) default))
  · intro hsafe
    obtain ⟨fuel, h⟩ := ends_of_safe hsafe
    exact ⟨fuel, fun frames d => ends_finish.mpr (h frames d)⟩


/-- A block of zeros has a record without a length, which is found again and again. -/
theorem directory_safe_fails : ∃ block : Block,
    ¬ ∃ fuel, ∀ frames d, (doDirectDirectory frames fuel 0 0 block d).Ends := by
  refine ⟨⟨List.replicate 1024 0, List.length_replicate⟩, ?_⟩
  rintro ⟨fuel, h⟩
  have hends := h (fun _ => default) default
  have hsafe := safe_of_ends (ends_finish.mp hends)
  exact (hsafe.passable .refl (by decide)).length rfl

end Hd

/-! ## Directories of a file system -/

/-- A record of a directory. -/
structure DirEntry where
  inode : Word
  fileType : Byte
  name : List Byte
  padding : List Byte
  noNul : 0 ∉ name
  nameLength : name.length ≤ 255
  aligned : (8 + name.length + padding.length) % 4 = 0

namespace DirEntry

/-- The length of a record. -/
def length (e : DirEntry) : Nat := 8 + e.name.length + e.padding.length

/-- The first eight bytes of a record. -/
def header (e : DirEntry) : List Byte :=
  [e.inode.setWidth 8, (e.inode >>> 8).setWidth 8, (e.inode >>> 16).setWidth 8,
    (e.inode >>> 24).setWidth 8, BitVec.ofNat 8 e.length, BitVec.ofNat 8 (e.length / 256),
    BitVec.ofNat 8 e.name.length, e.fileType]

/-- A record in a block. -/
def bytes (e : DirEntry) : List Byte := e.header ++ (e.name ++ e.padding)

theorem length_bytes (e : DirEntry) : e.bytes.length = e.length := by
  simp only [bytes, header, length, List.length_append, List.length_cons, List.length_nil]
  omega

end DirEntry

/-- A directory in a block: records that make up the block. -/
structure Directory where
  entries : List DirEntry
  length_eq : (entries.flatMap DirEntry.bytes).length = 1024

/-- The block of a directory. -/
def Directory.block (directory : Directory) : Block :=
  ⟨directory.entries.flatMap DirEntry.bytes, directory.length_eq⟩

/-- Each name has no conversion in it, and a `NUL` behind it in the block. -/
def Printable : List DirEntry → Prop
  | [] => True
  | e :: entries =>
    plain e.name = true ∧ (e.padding ++ entries.flatMap DirEntry.bytes).head? = some 0 ∧
      Printable entries

/-- The messages that list the records by their names. -/
def listing (entries : List DirEntry) : List (List Byte) :=
  entries.flatMap fun e => [stringLiteral "Found entry:", e.name ++ [0]]

/-- The records from a place on. -/
structure Block.At (block : Block) (cur : Nat) (e : DirEntry) (rest : List Byte) : Prop where
  le : cur + 8 ≤ 1024
  length : block.recordLength cur = e.length
  name : block.bytes.drop (cur + 8) = e.name ++ (e.padding ++ rest)
  next : block.bytes.drop (cur + e.length) = rest

theorem Block.at_of_drop {block : Block} {cur : Nat} {e : DirEntry} {rest : List Byte}
    (h : block.bytes.drop cur = e.bytes ++ rest) : block.At cur e rest := by
  have hlength := congrArg List.length h
  rw [List.length_drop, block.length_eq, List.length_append, e.length_bytes] at hlength
  have hge : 8 ≤ e.length := by
    rw [DirEntry.length]
    omega
  have hget : ∀ i, block.bytes.getD (cur + i) 0 = (e.bytes ++ rest).getD i 0 := by
    intro i
    rw [← h, List.getD_eq_getElem?_getD, List.getD_eq_getElem?_getD, List.getElem?_drop]
  refine ⟨by omega, ?_, ?_, ?_⟩
  · have hlow : block.bytes.getD (cur + 4) 0 = BitVec.ofNat 8 e.length := hget 4
    have hhigh : block.bytes.getD (cur + 5) 0 = BitVec.ofNat 8 (e.length / 256) := hget 5
    rw [Block.recordLength, hlow, hhigh, BitVec.toNat_append, BitVec.toNat_ofNat,
      BitVec.toNat_ofNat, ← Nat.shiftLeft_add_eq_or_of_lt (Nat.mod_lt _ (by decide)),
      Nat.shiftLeft_eq]
    omega
  · rw [← List.drop_drop, h, DirEntry.bytes, List.append_assoc, List.append_assoc]
    rfl
  · rw [← List.drop_drop, h, ← e.length_bytes, List.drop_left]

namespace Hd

/-! ## The listing -/

theorem ttyMessages_append (log log' : List (Syscall × Reply)) :
    ttyMessages (log ++ log') = ttyMessages log ++ ttyMessages log' := List.filterMap_append

/-- A call of `outf` with a text without conversions sends it. -/
theorem messages_plain {stack : Stack} {log : List (Syscall × Reply)} {o : Outf}
    (text rest : List Byte) (htext : 0 ∉ text) (hplain : plain text = true) (hsize : text.length ≤ 255)
    (hrun : (Mycrokernel.outf stack 1 (text ++ 0 :: rest)).Run log o) :
    ttyMessages log = [text ++ [0]] := by
  obtain ⟨o', hmessage, hsend⟩ := outf_plain htext hplain hsize
  rw [hsend] at hrun
  cases hrun with
  | @ask _ _ reply _ _ hrun =>
      dsimp only at hrun
      split at hrun
      next =>
        cases hrun
        exact congrArg (· :: []) hmessage
      next =>
        cases hrun
        exact congrArg (· :: []) hmessage

theorem messages_found {stack : Stack} {log : List (Syscall × Reply)} {o : Outf}
    (hrun : (Mycrokernel.outf stack 1 (stringLiteral "Found entry:")).Run log o) :
    ttyMessages log = [stringLiteral "Found entry:"] :=
  messages_plain ("Found entry:".toList.map byte) [] (by decide) (by decide) (by decide) hrun

/-- The loop comes to its end, and sends the messages. -/
def Tells (p : Dialogue Syscall Reply (Option Unit × Driver)) (messages : List (List Byte)) : Prop :=
  p.Ends ∧ ∀ log r, p.Run log r → ttyMessages log = messages

variable {entries : List DirEntry}

theorem tells_of_printable (hdrop : block.bytes.drop cur = entries.flatMap DirEntry.bytes)
    (h : Printable entries) :
    ∃ fuel, ∀ frames d, Tells (directoryLoop frames block fuel cur d) (listing entries) := by
  induction entries generalizing cur with
  | nil =>
      refine ⟨1, fun frames d => ?_⟩
      have hlength := congrArg List.length hdrop
      rw [List.length_drop, block.length_eq, List.flatMap_nil, List.length_nil] at hlength
      rw [directoryLoop_end (by omega)]
      refine ⟨.done _, fun log r hrun => ?_⟩
      cases hrun
      rfl
  | cons e entries ih =>
      obtain ⟨hplain, hnul, hrest⟩ := h
      rw [List.flatMap_cons] at hdrop
      have hat := Block.at_of_drop hdrop
      obtain ⟨fuel, ih⟩ := ih hat.next hrest
      refine ⟨fuel + 1, fun frames d => ?_⟩
      obtain ⟨behind, hbehind⟩ : ∃ behind,
          e.padding ++ entries.flatMap DirEntry.bytes = 0 :: behind :=
        List.head?_eq_some_iff.mp hnul
      have hname : block.bytes.drop (cur + 8) = e.name ++ 0 :: behind := by rw [hat.name, hbehind]
      have hmem : 0 ∈ block.bytes.drop (cur + 8) := by
        rw [hname]
        exact List.mem_append_right _ List.mem_cons_self
      have hplace := lt_of_name hmem
      have hcur : cur < 1020 := by omega
      have hloop : directoryLoop frames block (fuel + 1) cur d = _ :=
        directoryLoop_record frames fuel d hcur
      simp only [directoryLoop_next block hat.le, hat.length] at hloop
      rw [hloop]
      constructor
      · refine (found_ends _).bind fun o => (outf_ends_iff.mpr hmem).bind fun o' => ?_
        exact (ih _ _).1
      · intro log r hrun
        obtain ⟨first, o, log, rfl, hfound, hrun⟩ := hrun.of_bind
        obtain ⟨second, o', rest, rfl, hnamed, hrun⟩ := hrun.of_bind
        rw [hname] at hnamed
        rw [ttyMessages_append, ttyMessages_append, messages_found hfound,
          messages_plain e.name behind e.noNul hplain e.nameLength hnamed, (ih _ _).2 _ _ hrun]
        rfl

theorem printable_of_tells {frames : Nat → Stack}
    (hdrop : block.bytes.drop cur = entries.flatMap DirEntry.bytes)
    (h : Tells (directoryLoop frames block n cur d) (listing entries)) : Printable entries := by
  induction entries generalizing cur n d with
  | nil => trivial
  | cons e entries ih =>
      obtain ⟨hends, hmessages⟩ := h
      rw [List.flatMap_cons] at hdrop
      have hat := Block.at_of_drop hdrop
      cases n with
      | zero => cases hends
      | succ n =>
          have hcur : cur < 1020 := by
            have hle := hat.le
            omega
          have hloop : directoryLoop frames block (n + 1) cur d = _ :=
            directoryLoop_record frames n d hcur
          simp only [directoryLoop_next block hat.le, hat.length] at hloop
          rw [hloop] at hends hmessages
          obtain ⟨first, o, hfound, -⟩ := (found_ends (frames (2 * n + 1))).exists_run ⟨0, 0⟩
          have hsecond := hends.after_run hfound
          obtain ⟨second, o', hnamed, -⟩ := hsecond.of_bind.exists_run ⟨0, 0⟩
          have hthird := hsecond.after_run hnamed
          -- every run of the rest is the end of a run of the whole
          have hwhole : ∀ log r, (directoryLoop frames block n (cur + e.length)
              (afterOutf (afterOutf d o) o')).Run log r →
              ttyMessages first ++ (ttyMessages second ++ ttyMessages log) =
                listing (e :: entries) := by
            intro log r hrun
            rw [← ttyMessages_append, ← ttyMessages_append]
            exact hmessages _ r (hfound.bind (hnamed.bind hrun))
          have hlisting : listing (e :: entries) =
              [stringLiteral "Found entry:"] ++ ((e.name ++ [0]) :: listing entries) := rfl
          rw [messages_found hfound, hlisting] at hwhole
          simp only [List.append_cancel_left_eq] at hwhole
          rw [hat.name] at hnamed
          obtain ⟨message, messages, hsecond', -⟩ :=
            Outf.first_message 0 Outf.holds_start hnamed
          obtain ⟨third, r, hrun, -⟩ := hthird.exists_run ⟨0, 0⟩
          have hfirst : (ttyMessages second).head? = some ([] ++ e.name ++ [0]) := by
            have hsame := hwhole third r hrun
            rw [hsecond', List.cons_append, List.cons_eq_cons] at hsame
            rw [hsecond', List.head?_cons, hsame.1, List.nil_append]
          obtain ⟨hplain, hnul⟩ := Outf.plain_of_message e.noNul
            (by rw [List.length_nil, Nat.zero_add]; exact e.nameLength) Outf.holds_start hnamed hfirst
          refine ⟨hplain, hnul, ih hat.next (n := n) (d := afterOutf (afterOutf d o) o') ⟨hthird, ?_⟩⟩
          obtain ⟨behind, hbehind⟩ := List.head?_eq_some_iff.mp hnul
          rw [hbehind] at hnamed
          intro log r hrun
          have hsame := hwhole log r hrun
          rw [messages_plain e.name behind e.noNul hplain e.nameLength hnamed] at hsame
          exact (List.cons_eq_cons.mp hsame).2

theorem tells_finish {m : Hd Unit} {messages : List (List Byte)} :
    Tells (finish m d) messages ↔ Tells (m d) messages := by
  constructor
  · rintro ⟨hends, hmessages⟩
    refine ⟨ends_finish.mp hends, fun log r hrun => ?_⟩
    have hwhole : (finish m d).Run (log ++ []) (some (), r.2) := hrun.bind (.done _)
    rw [List.append_nil] at hwhole
    exact hmessages log _ hwhole
  · rintro ⟨hends, hmessages⟩
    refine ⟨ends_finish.mpr hends, fun log r hrun => ?_⟩
    obtain ⟨first, r', rest, rfl, hfirst, hrest⟩ := hrun.of_bind
    cases hrest
    rw [List.append_nil]
    exact hmessages first r' hfirst

/-- `do_direct_directory` lists a directory by its names, if and only if each name has no
conversion in it, and is followed by a `NUL` in the block. -/
theorem directory_names_iff (channel : Ptr) (partitionNr : Byte) (directory : Directory) :
    (∃ fuel, ∀ frames d, Tells (doDirectDirectory frames fuel channel partitionNr directory.block d)
      (listing directory.entries)) ↔ Printable directory.entries := by
  constructor
  · rintro ⟨fuel, h⟩
    have hdrop : directory.block.bytes.drop 0 = directory.entries.flatMap DirEntry.bytes := rfl
    exact printable_of_tells hdrop (tells_finish.mp (h (fun _ => default) default))
  · intro hprintable
    have hdrop : directory.block.bytes.drop 0 = directory.entries.flatMap DirEntry.bytes := rfl
    obtain ⟨fuel, h⟩ := tells_of_printable hdrop hprintable
    exact ⟨fuel, fun frames d => tells_finish.mpr (h frames d)⟩

/-- A name that fills its record is run together with the record behind it. -/
theorem directory_names_fails : ∃ directory : Directory,
    ¬ ∃ fuel, ∀ frames d, Tells (doDirectDirectory frames fuel 0 0 directory.block d)
      (listing directory.entries) := by
  let first : DirEntry :=
    { inode := 2, fileType := 1, name := "abcd".toList.map byte, padding := []
      noNul := by decide, nameLength := by decide, aligned := by decide }
  let second : DirEntry :=
    { inode := 3, fileType := 1, name := "b".toList.map byte, padding := List.replicate 1003 0
      noNul := by decide, nameLength := by decide
      aligned := by rw [List.length_replicate]; decide }
  have hlength : ([first, second].flatMap DirEntry.bytes).length = 1024 := by
    rw [List.flatMap_cons, List.flatMap_singleton, List.length_append, DirEntry.length_bytes,
      DirEntry.length_bytes, DirEntry.length, DirEntry.length, List.length_replicate]
    decide
  refine ⟨⟨[first, second], hlength⟩, ?_⟩
  rintro ⟨fuel, h⟩
  have htells := tells_finish.mp (h (fun _ => default) default)
  have hprintable : Printable [first, second] := printable_of_tells rfl htells
  have hbehind : some ((3 : Word).setWidth 8) = some (0 : Byte) := hprintable.2.1
  exact absurd hbehind (by decide)

end Hd

end Mycrokernel
