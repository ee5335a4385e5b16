import Mycrokernel.Hd.Claim
import Mycrokernel.Hd.PartitionTable

/-!
# The disk driver as a whole

`main` claims the ports, looks for drives on the four channels and reads the partition tables of
those it has found.  It reports how it has come to its end, and exits.

All that is below `main` keeps to the ports it claims, whatever the disk and the kernel reply
(`Clean`), but for `identify`, which does so as long as no device is busy.  So no port is accessed
before all of them have been granted, and the kernel refuses no access (`accesses_granted`).
-/

namespace Mycrokernel

/-! ## Error texts -/

/-- The array of the error texts, `error_strings`. -/
def errorStrings : List String :=
  ["OK", "unknown system call", "invalid buffer", "attempt to send to yourself", "would block",
    "no such feature", "no such irq", "irq already in use", "peer died",
    "no permissions for this operation", "requested resource unavailable", "feature busy",
    "attempt to read beyond end of device", "not an ATA device"]

/-- `err2String`.  The size of the array is unsigned, and so is the comparison with it. -/
def err2String (errnum : Word) : String :=
  if (0 : Word).slt errnum ∨ BitVec.ofNat 32 errorStrings.length ≤ -errnum then "impossible error"
  else errorStrings.getD (-errnum).toNat ""

/-- Each error has its own text, but for `Err.invalidAddress`, which the array ends before. -/
theorem err2String_inj : ∀ i < errorStrings.length, ∀ j < errorStrings.length,
    err2String (-BitVec.ofNat 32 i) = err2String (-BitVec.ofNat 32 j) → i = j := by
  decide

namespace Hd

/-! ## `main` -/

/-- What the calls of `main` find on the stack. -/
structure Frames where
  /-- The calls of `outf` in `main` itself. -/
  own : Nat → Stack
  /-- The calls in each of the calls of `identify`. -/
  identify : Nat → Nat → Stack
  /-- The calls in each of the calls of `read_partition_table`. -/
  table : Nat → Nat → List Nat → Nat → Stack
deriving Inhabited

section Main

variable (frames : Frames) (fuel : Nat) (channels : Nat → Nat → Ptr) (buffers : Buffers)
  (buffer : Word)

/-- The part of `main` that looks for drives, with `channels[i][j]` at the address
`channels i j`. -/
def identifyAll : Hd Unit := do
  terror (identify (frames.identify 0) fuel (channels 0 0))
  terror (identify (frames.identify 1) fuel (channels 0 1))
  terror (identify (frames.identify 2) fuel (channels 1 0))
  terror (identify (frames.identify 3) fuel (channels 1 1))

/-- The part of `main` before the loops. -/
def findDrives : Hd Unit := do
  modify fun d => { d with error := Err.ok }
  terror claimPorts
  identifyAll frames fuel channels

/-- The body of the loops of `main`. -/
def readTable (i j : Nat) : Hd Unit := do
  let d ← get
  if (d.channels (channels i j)).controller = .ata then
    outf (((frames.own (2 * i + j)).push (BitVec.ofNat 32 j)).push (BitVec.ofNat 32 i))
      (stringLiteral "Reading partition table of channel[%d][%d] ...")
    terror (readPartitionTable (frames.table (2 * i + j)) buffers fuel buffer (channels i j))

/-- The loops of `main`. -/
def readTables : Hd Unit :=
  (List.range 2).forM fun i => (List.range 2).forM fun j =>
    readTable frames fuel channels buffers buffer i j

/-- What `main` does at the label. -/
def report : Hd Unit := do
  let d ← get
  if hasFailed d.error then outf (frames.own 4) (stringLiteral (err2String d.error))
  else outf (frames.own 5) (stringLiteral "IDE driver exiting without errors!")

/-- `main`, up to its exit. -/
def main : Hd Unit := do
  finish do
    findDrives frames fuel channels
    readTables frames fuel channels buffers buffer
  report frames

end Main

/-! ## What keeps to the claimed ports -/

section Clean

variable {α : Type} {m : Hd α} {frame : Stack} {calls : Nat → Stack}
  {places : List Nat → Nat → Stack} {fuel : Nat} {channel : Ptr} {partitionNr : Byte}
  {buffers : Buffers} {buffer : Word} {block : Block}

theorem clean_outf {fmt : List Byte} : Clean (outf frame fmt) := guarded_outf lenient_any frame fmt

theorem guarded_get_bind {ok : Syscall → Prop} {good : Syscall → Reply → Prop} {f : Driver → Hd α}
    (h : ∀ d, Guarded ok good (f d)) : Guarded ok good (get >>= f) := fun d => h d d

theorem clean_leave : Clean (leave : Hd α) := fun _ => .done _

theorem clean_todoError : Clean (todoError frame : Hd α) := clean_outf.bind fun _ => clean_leave

theorem clean_byteAt {i : Nat} : Clean (byteAt block i) := by
  intro d
  rw [byteAt]
  split
  next => exact .done _
  next => exact .stuck

theorem clean_halfAt {i : Nat} : Clean (halfAt block i) :=
  clean_byteAt.bind fun _ => clean_byteAt.bind fun _ => guarded_pure _

theorem clean_wordAt {i : Nat} : Clean (wordAt block i) :=
  clean_halfAt.bind fun _ => clean_halfAt.bind fun _ => guarded_pure _

theorem clean_directoryLoop (n cur : Nat) : Clean (directoryLoop calls block n cur) := by
  induction n generalizing cur with
  | zero => exact guarded_spent
  | succ n ih =>
    rw [directoryLoop]
    split
    next =>
      split
      next => exact guarded_pure _
      next =>
        refine clean_outf.bind fun _ => clean_outf.bind fun _ => ?_
        exact clean_wordAt.bind fun _ => clean_halfAt.bind fun size => ih (cur + size.toNat)
    next => exact guarded_pure _

theorem clean_doDirectDirectory :
    Clean (doDirectDirectory calls fuel channel partitionNr block) :=
  (clean_directoryLoop fuel 0).finish

theorem clean_partitionAt : Clean (partitionAt channel partitionNr) := by
  intro d
  rw [partitionAt]
  split
  next => exact .done _
  next => exact .stuck

theorem clean_readInode {behind : Nat → BlockGroup} {inodeNr inode : Word} :
    Clean (readInode frame fuel behind buffer channel partitionNr inodeNr inode) := by
  refine (clean_partitionAt.bind fun p => ?_).finish
  dsimp only
  cases placeComputed behind p inodeNr with
  | none =>
    split
    next => exact clean_todoError.bind fun _ => guarded_spent
    next => exact guarded_spent
  | some place =>
    have hread : Clean (do
        terror (readSector fuel place.1 channel buffer)
        memcpy inode (buffer + place.2) (BitVec.ofNat 32 sizeofInode)) :=
      (clean_readSector fuel place.1 buffer).terror.bind fun _ => guarded_modify _
    split
    next => exact clean_todoError.bind fun _ => hread
    next => exact hread

theorem clean_fetchBlock {blockNr address : Word} :
    Clean (fetchBlock frame fuel channel partitionNr blockNr address) := by
  refine clean_partitionAt.bind fun p => ?_
  have hread : Clean (do
      terror (readSector fuel (blockNr * p.blockSize / 512 + p.firstSector) channel address)
      terror (readSector fuel (blockNr * p.blockSize / 512 + p.firstSector) channel
        (address + 512))) :=
    (clean_readSector fuel _ address).terror.bind fun _ => (clean_readSector fuel _ _).terror
  dsimp only
  split
  next => exact clean_todoError.bind fun _ => hread
  next => exact hread

theorem clean_doIndirectDirectory (addresses : Nat → Word) (level : Nat) (way : List Nat)
    (blockNr : Word) : Clean
      (doIndirectDirectory places fuel addresses channel partitionNr level way blockNr) := by
  induction level generalizing way blockNr with
  | zero =>
    refine (clean_fetchBlock.bind fun _ => guarded_get_bind fun d => ?_).finish
    exact clean_doDirectDirectory.terror
  | succ level ih =>
    refine (clean_fetchBlock.bind fun _ => guarded_forM fun i => ?_).finish
    refine guarded_get_bind fun d => ?_
    dsimp only
    split
    next => exact clean_leave.bind fun _ => (ih _ _).terror
    next => exact (ih _ _).terror

theorem clean_readPointer (level i : Nat) :
    Clean (readPointer places buffers fuel channel partitionNr level i) := by
  refine Guarded.bind (guarded_get_bind fun d => guarded_pure _) fun blockNr => ?_
  have hread : Clean (terror (doIndirectDirectory places fuel buffers.block channel
      partitionNr level [i] blockNr)) :=
    (clean_doIndirectDirectory buffers.block level [i] blockNr).terror
  dsimp only
  split
  next => exact clean_leave.bind fun _ => hread
  next => exact hread

theorem clean_readDirectory :
    Clean (readDirectory places buffers fuel channel partitionNr) := by
  refine ((guarded_forM fun i => clean_readPointer 0 i).bind fun _ => ?_).finish
  refine (clean_readPointer 1 12).bind fun _ => ?_
  exact (clean_readPointer 2 13).bind fun _ => clean_readPointer 3 14

theorem clean_showInode : Clean (showInode places buffers fuel channel partitionNr) := by
  refine (Guarded.bind (guarded_get_bind fun d => guarded_pure _) fun typeAndPerms => ?_).finish
  split
  next => exact clean_outf.bind fun _ => clean_readDirectory.terror
  next => exact clean_outf

theorem clean_readRootInode :
    Clean (readRootInode places buffers fuel channel partitionNr) := by
  refine (clean_outf.bind fun _ => ?_).finish
  exact clean_readInode.terror.bind fun _ => clean_showInode.terror

theorem clean_updatePartition {f : Partition → Option Partition} :
    Clean (updatePartition channel partitionNr f) := by
  refine clean_partitionAt.bind fun p => Guarded.bind ?_ fun p' => ?_
  · cases f p with
    | none => exact fun _ => .stuck
    | some p' => exact guarded_pure p'
  · exact (guarded_modify _).bind fun _ => guarded_pure p'

theorem clean_readGroupDescriptorTable :
    Clean (readGroupDescriptorTable buffers fuel channel partitionNr) := by
  refine (clean_partitionAt.bind fun p => ?_).finish
  refine (clean_readSector fuel _ _).terror.bind fun _ => ?_
  refine (clean_readSector fuel _ _).terror.bind fun _ => guarded_get_bind fun d => ?_
  exact clean_updatePartition.bind fun _ => guarded_pure ()

theorem clean_loadPartition :
    Clean (loadPartition places buffers fuel channel partitionNr) := by
  refine clean_partitionAt.bind fun p => (clean_readSector fuel _ _).terror.bind fun _ => ?_
  refine (clean_readSector fuel _ _).terror.bind fun _ => guarded_get_bind fun d => ?_
  refine clean_outf.bind fun _ => guarded_get_bind fun d => clean_updatePartition.bind fun p => ?_
  dsimp only
  split
  next => exact clean_todoError.bind fun _ => clean_readGroupDescriptorTable.terror
  next => exact clean_readGroupDescriptorTable.terror

theorem clean_readSuperblock :
    Clean (readSuperblock places buffers fuel channel partitionNr) :=
  (clean_loadPartition.bind fun _ => clean_readRootInode.terror).finish

theorem clean_readEntry {entryStart : Entry} :
    Clean (readEntry places buffers fuel channel entryStart partitionNr) := by
  unfold readEntry
  split
  next => exact clean_updatePartition.bind fun _ => guarded_pure ()
  next =>
    refine clean_outf.bind fun _ => guarded_get_bind fun d => clean_updatePartition.bind fun _ => ?_
    dsimp only
    split
    next =>
      refine clean_readSuperblock.terror.bind fun _ => ?_
      exact clean_updatePartition.bind fun _ => guarded_pure ()
    next => exact clean_updatePartition.bind fun _ => guarded_pure ()

theorem clean_readPartitionTable {tables : Nat → List Nat → Nat → Stack} :
    Clean (readPartitionTable tables buffers fuel buffer channel) := by
  have hsector : Clean (sectorAt buffer) := guarded_get_bind fun d => guarded_pure _
  refine ((clean_readSector fuel 0 buffer).terror.bind fun _ => hsector.bind fun sector => ?_).finish
  have hentries : Clean ((List.range 4).forM fun k => readEntry (tables k) buffers fuel channel
      (entryOf sector k) (BitVec.ofNat 8 k)) := guarded_forM fun k => clean_readEntry
  exact hentries.bind fun _ => clean_outf

end Clean

variable {frames : Frames} {fuel : Nat} {channels : Nat → Nat → Ptr} {buffers : Buffers}
  {buffer : Word}

theorem clean_readTable (i j : Nat) : Clean (readTable frames fuel channels buffers buffer i j) := by
  refine guarded_get_bind fun d => ?_
  split
  next => exact clean_outf.bind fun _ => clean_readPartitionTable.terror
  next => exact guarded_pure ()

theorem clean_report : Clean (report frames) := by
  refine guarded_get_bind fun d => ?_
  split
  next => exact clean_outf
  next => exact clean_outf

theorem guarded_identifyAll :
    Guarded Syscall.Claimed Idle (identifyAll frames (fuel + 1) channels) := by
  refine (guarded_identify fuel).terror.bind fun _ => (guarded_identify fuel).terror.bind fun _ => ?_
  exact (guarded_identify fuel).terror.bind fun _ => (guarded_identify fuel).terror

/-! ## The parts of a run -/

/-- No port is accessed. -/
abbrev Silent {α : Type} (m : Hd α) : Prop :=
  Guarded (fun request => request.accessed = none) (fun _ _ => True) m

theorem silent_claimPorts : Silent claimPorts :=
  Guarded.finish (guarded_forM fun _ => Guarded.terror (guarded_call rfl fun _ => trivial))

theorem silent_outf {stack : Stack} {fmt : List Byte} : Silent (outf stack fmt) := by
  intro d
  refine Dialogue.Guards.bind (Dialogue.Every.guards (R := fun _ => True) ?_) fun _ => .done _
  refine (outf_requests stack 1 fmt).mono ?_ fun _ _ => trivial
  rintro _ _ ⟨message, block, rfl⟩
  exact ⟨rfl, fun _ => trivial⟩

theorem silent_report : Silent (report frames) := by
  refine guarded_get_bind fun d => ?_
  split
  next => exact silent_outf
  next => exact silent_outf

theorem clean_readTables : Clean (readTables frames fuel channels buffers buffer) :=
  guarded_forM fun i => guarded_forM fun j => clean_readTable i j

/-- What is left of `main` when the drives have been found, or not. -/
def afterDrives (frames : Frames) (fuel : Nat) (channels : Nat → Nat → Ptr) (buffers : Buffers)
    (buffer : Word) (r : Option Unit × Driver) : Dialogue Syscall Reply (Option Unit × Driver) :=
  (finish (fun _ => goOn (fun _ => readTables frames fuel channels buffers buffer) r) >>=
    fun _ => report frames) r.2

theorem findDrives_eq (d : Driver) : findDrives frames fuel channels d =
    (claimPorts { d with error := Err.ok }).bind fun r =>
      if hasFailed r.2.error = true ∨ r.1 = none then .done (none, r.2)
      else identifyAll frames fuel channels r.2 := by
  change ((claimPorts { d with error := Err.ok }).bind _).bind
    (goOn fun _ => identifyAll frames fuel channels) = _
  rw [Dialogue.bind_assoc]
  refine congrArg _ (funext fun ⟨a, d'⟩ => ?_)
  change goOn _ (if hasFailed d'.error = true then none else a, d') = _
  cases hfailed : hasFailed d'.error with
  | true => rfl
  | false =>
      cases a with
      | none => rfl
      | some => rfl

theorem main_eq (d : Driver) : main frames fuel channels buffers buffer d =
    (findDrives frames fuel channels d).bind (afterDrives frames fuel channels buffers buffer) := by
  change (((findDrives frames fuel channels d).bind _).bind _).bind _ = _
  rw [Dialogue.bind_assoc, Dialogue.bind_assoc]
  refine congrArg _ (funext fun r => ?_)
  exact (Dialogue.bind_assoc _ _ _).symm

theorem clean_afterDrives (r : Option Unit × Driver) :
    (afterDrives frames fuel channels buffers buffer r).Guards Syscall.Claimed fun _ _ => True := by
  have hrest : Clean fun _ => goOn (fun _ => readTables frames fuel channels buffers buffer) r := by
    obtain ⟨_ | a, d⟩ := r
    · exact fun _ => .done _
    · exact fun _ => clean_readTables d
  exact (hrest.finish.bind fun _ => clean_report) r.2

/-- If no drives could be looked for, `main` reports. -/
theorem silent_afterDrives (d : Driver) :
    (afterDrives frames fuel channels buffers buffer (none, d)).Guards
      (fun request => request.accessed = none) fun _ _ => True :=
  silent_report d

end Hd

/-! ## Runs -/

/-- The ports have been granted in the conversation. -/
def Granted (log : List (Syscall × Reply)) : Prop :=
  ∀ port ∈ claimedPorts, ∃ reply, (Syscall.claimPort port, reply) ∈ log ∧ hasFailed reply.error = false

/-- A conversation in which the ports are granted first, if any are accessed. -/
inductive Ordered (log : List (Syscall × Reply)) : Prop where
  | silent : (∀ entry ∈ log, entry.1.accessed = none) → Ordered log
  | granted {first rest : List (Syscall × Reply)} : log = first ++ rest →
      (∀ entry ∈ first, entry.1.accessed = none) → Granted first →
      (∀ entry ∈ rest, entry.1.Claimed) → Ordered log

open Dialogue (answered asked)

variable {frames : Hd.Frames} {fuel : Nat} {channels : Nat → Nat → Ptr} {buffers : Buffers}
  {buffer : Word} {d : Driver} {replies : List Reply} {log : List (Syscall × Reply)}

/-- The requests of a conversation in which all replies are good. -/
theorem Hd.ok_of_guards {ok : Syscall → Prop} {good : Syscall → Reply → Prop} {α : Type}
    {p : Dialogue Syscall Reply α} (h : p.Guards ok good)
    (hgood : ∀ entry ∈ answered replies p, good entry.1 entry.2) :
    ∀ entry ∈ answered replies p, ok entry.1 := fun _ hentry =>
  (h.iff replies).2 hgood _ (Dialogue.fst_mem_asked hentry)

theorem Hd.ordered_main (hidle : ∀ entry ∈ answered replies (Hd.findDrives frames (fuel + 1) channels d),
      Idle entry.1 entry.2) :
    Ordered (answered replies (Hd.main frames (fuel + 1) channels buffers buffer d)) := by
  rw [Hd.findDrives_eq] at hidle
  rw [Hd.main_eq, Hd.findDrives_eq, Dialogue.bind_assoc]
  generalize { d with error := Err.ok } = d at hidle ⊢
  have hclaims : ∀ entry ∈ answered replies (Hd.claimPorts d), entry.1.accessed = none :=
    ok_of_guards (silent_claimPorts d) fun _ _ => trivial
  obtain hsame | ⟨r, later, hrun, hlater⟩ := Dialogue.answered_bind (Hd.claimPorts d) replies
  · rw [hsame]
    exact .silent hclaims
  · rw [hlater] at hidle ⊢
    split at hidle
    next hfailed =>
      rw [if_pos hfailed]
      refine .silent fun entry hentry => ?_
      obtain hfirst | hrest := List.mem_append.1 hentry
      · exact hclaims entry hfirst
      · exact ok_of_guards (silent_afterDrives r.2) (fun _ _ => trivial) entry hrest
    next hok =>
      rw [if_neg hok]
      have hgranted : Granted (answered replies (Hd.claimPorts d)) := fun port hport =>
        Hd.claimPorts_claims hrun (by simpa using fun h => hok (Or.inl h)) port hport
      refine .granted rfl hclaims hgranted ?_
      have hidle' : ∀ entry ∈ answered later (Hd.identifyAll frames (fuel + 1) channels r.2),
          Idle entry.1 entry.2 := fun entry hentry => hidle entry (List.mem_append_right _ hentry)
      have hdrives := ok_of_guards (guarded_identifyAll r.2) hidle'
      obtain hsame | ⟨r', later', -, hlater'⟩ :=
        Dialogue.answered_bind (Hd.identifyAll frames (fuel + 1) channels r.2) later
      · rw [hsame]
        exact hdrives
      · rw [hlater']
        intro entry hentry
        obtain hfirst | hrest := List.mem_append.1 hentry
        · exact hdrives entry hfirst
        · exact ok_of_guards (clean_afterDrives r') (fun _ _ => trivial) entry hrest

/-- What is accessed is behind what is granted. -/
theorem exists_append_of_append {α : Type} {l l' front back : List α} {x : α}
    (h : l ++ l' = front ++ x :: back) (hx : x ∉ l) : ∃ between, front = l ++ between := by
  obtain ⟨between, hfront, -⟩ | ⟨between, hl, hback⟩ := List.append_eq_append_iff.1 h
  · exact ⟨between, hfront⟩
  · cases between with
    | nil => exact ⟨[], by rw [hl, List.append_nil, List.append_nil]⟩
    | cons y between =>
        obtain rfl := (List.cons.inj hback).1
        exact absurd (by rw [hl]; simp) hx

namespace Kernel

variable [Layout] {s s' : Kernel} {p : Ptr}

/-- A conversation splits where its log splits. -/
theorem Served.split {first rest : List (Syscall × Reply)} (h : Served p s (first ++ rest) s') :
    ∃ t, Served p s first t ∧ Served p t rest s' := by
  generalize hlog : first ++ rest = log at h
  induction h generalizing first with
  | nil s =>
      obtain ⟨rfl, rfl⟩ := List.append_eq_nil_iff.1 hlog
      exact ⟨s, .nil s, .nil s⟩
  | other hne hact _ ih =>
      obtain ⟨t, hfirst, hrest⟩ := ih hlog
      exact ⟨t, .other hne hact hfirst, hrest⟩
  | @call s _ _ _ _ _ _ _ hcur hasks hact hreply hserved ih =>
      cases first with
      | nil =>
          obtain rfl := hlog
          exact ⟨s, .nil s, .call hcur hasks hact hreply hserved⟩
      | cons entry first =>
          have htail := (List.cons.inj hlog).2
          obtain rfl := (List.cons.inj hlog).1
          obtain ⟨t, hfirst, hrest⟩ := ih htail
          exact ⟨t, .call hcur hasks hact hreply hfirst, hrest⟩

/-- The kernel refuses no access in a conversation that is in order. -/
theorem Served.ordered (h : Served p s log s') (hlog : Ordered log) :
    ∀ entry ∈ log, entry.1.accessed ≠ none → entry.2.error = Err.ok := by
  cases hlog with
  | silent hsilent => exact fun entry hentry haccess => absurd (hsilent entry hentry) haccess
  | granted heq hsilent hgranted hclaimed =>
      subst heq
      obtain ⟨t, hfirst, hrest⟩ := h.split
      have howns : ∀ port ∈ claimedPorts, p ≠ null ∧ t.portAccessers port = p := by
        intro port hport
        obtain ⟨reply, hmem, hok⟩ := hgranted port hport
        exact hfirst.claimed hmem (claimed_low port hport) hok
      have hp := (howns portbasePrimary (by decide)).1
      intro entry hentry haccess
      obtain hfront | hback := List.mem_append.1 hentry
      · exact absurd (hsilent entry hfront) haccess
      · exact hrest.accesses hp (fun port hport => (howns port hport).2) hclaimed entry hback haccess

end Kernel

/-- The registers with which a system call is made that is over at once, if `esi` is 0 before. -/
def Syscall.regs : Syscall → Option Regs
  | .receive .. => none
  | .sendByFeature .. => none
  | .requestIrq irq => some { eaxReg := 4, ebxReg := irq }
  | .inb port => some { eaxReg := 5, ebxReg := port }
  | .claimPort port => some { eaxReg := 6, ebxReg := port }
  | .outb port value => some { eaxReg := 7, ebxReg := port, ecxReg := value }
  | .inw port => some { eaxReg := 8, ebxReg := port }
  | .outw port value => some { eaxReg := 9, ebxReg := port, ecxReg := value }

theorem Syscall.asks {request : Syscall} {regs : Regs} (h : request.regs = some regs) :
    Asks regs request := by
  cases request with
  | receive => exact absurd h (by simp [Syscall.regs])
  | sendByFeature => exact absurd h (by simp [Syscall.regs])
  | requestIrq => exact Option.some.inj h ▸ ⟨rfl, rfl⟩
  | inb => exact Option.some.inj h ▸ ⟨rfl, rfl⟩
  | claimPort => exact Option.some.inj h ▸ ⟨rfl, rfl⟩
  | outb => exact Option.some.inj h ▸ ⟨rfl, rfl, rfl⟩
  | inw => exact Option.some.inj h ▸ ⟨rfl, rfl⟩
  | outw => exact Option.some.inj h ▸ ⟨rfl, rfl, rfl⟩

namespace Kernel

variable [Layout] {p : Ptr} {s s' : Kernel} {log : List (Syscall × Reply)} {n : Nat}

/-- The process `p` makes these system calls as soon as it is current, and the kernel replies as it
is said; in between there are timer interrupts. -/
def serve (p : Ptr) : Nat → Kernel → List (Syscall × Reply) → Option Kernel
  | _, s, [] => some s
  | 0, _, _ :: _ => none
  | n + 1, s, (request, reply) :: log =>
    if s.sched.curptr = p then
      request.regs.bind fun regs => (s.act (.interrupt (.syscall regs 0))).bind fun s' =>
        if reply = ⟨(s'.regs p).eaxReg, (s'.regs p).esiReg⟩ then serve p n s' log else none
    else (s.act (.interrupt .tick)).bind fun s' => serve p n s' ((request, reply) :: log)

theorem served_of_serve (h : serve p n s log = some s') : s.Served p log s' := by
  induction n generalizing s log with
  | zero =>
    cases log with
    | nil => exact Option.some.inj h ▸ .nil s
    | cons => exact absurd h (by simp [serve])
  | succ n ih =>
    cases log with
    | nil => exact Option.some.inj h ▸ .nil s
    | cons entry log =>
      rw [serve] at h
      split at h
      next hcur =>
        obtain ⟨regs, hregs, h⟩ := Option.bind_eq_some_iff.1 h
        obtain ⟨t, hact, h⟩ := Option.bind_eq_some_iff.1 h
        split at h
        next hreply => exact .call hcur (Syscall.asks hregs) hact (fun _ => hreply) (ih h)
        next => exact absurd h (by simp)
      next =>
        obtain ⟨t, hact, h⟩ := Option.bind_eq_some_iff.1 h
        exact .other (fun hcall => absurd rfl hcall) hact (ih h)

end Kernel

/-- What the kernel replies up to the first status that is read: `claim_port` and `outb` leave
`eax` as it is, and the status is 0. -/
def firstReplies : List Reply :=
  List.replicate 18 ⟨6, 0⟩ ++ List.replicate 5 ⟨7, 0⟩ ++ [⟨0, 0⟩]

theorem idle_firstReplies : ∀ reply ∈ firstReplies, ∀ request, Idle request reply := by
  have hall : ∀ reply ∈ firstReplies, reply.value &&& bitBusy = 0 := by decide
  exact fun reply hmem _ _ _ => hall reply hmem

end Mycrokernel
