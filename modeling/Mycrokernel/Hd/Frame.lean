import Mycrokernel.Hd.Block

/-!
# What a statement leaves alone

`Keeps` says that a statement does not change what is seen of the variables of the driver, whatever
the replies to its system calls are.

What is seen is a parameter.  A statement that makes no system call but those of `outf` leaves all
but the memory alone (`MemFree`), and reading sectors and directories does not change the channels.
-/

namespace Mycrokernel

namespace Hd

variable {α β γ : Type} {m : Hd α} {f : α → Hd γ} {view : Driver → β} {frame : Stack}
  {frames : Nat → Stack} {fuel : Nat} {number buffer : Word} {channel : Ptr} {partitionNr : Byte}
  {block : Block}

/-- The statement ends with the same view of the variables. -/
def Keeps (view : Driver → β) (m : Hd α) : Prop :=
  ∀ d, (m d).Every (fun _ _ => True) fun result => view result.2 = view d

/-- The memory is not in the view. -/
def MemFree (view : Driver → β) : Prop := ∀ (d : Driver) mem, view { d with mem } = view d

/-! ## Rules -/

theorem keeps_pure {a : α} : Keeps view (pure a : Hd α) := fun _ => .done rfl

theorem keeps_leave : Keeps view (leave : Hd α) := fun _ => .done rfl

theorem keeps_spent : Keeps view (spent : Hd α) := fun _ => .stuck

theorem keeps_modify {g : Driver → Driver} (h : ∀ d, view (g d) = view d) :
    Keeps view (modify g) := fun d => .done (h d)

theorem keeps_call {request : Syscall} {result : Reply → α}
    (h : ∀ (d : Driver) error, view { d with error } = view d) : Keeps view (call request result) :=
  fun d => .ask trivial fun reply => .done (h d reply.error)

theorem Keeps.bind (h : Keeps view m) (hf : ∀ a, Keeps view (f a)) : Keeps view (m >>= f) := by
  intro d
  refine (h d).bind (fun _ _ _ => trivial) ?_
  rintro ⟨_ | a, d'⟩ heq
  · exact .done heq
  · exact (hf a d').mono (fun _ _ h => h) fun _ hnext => hnext.trans heq

theorem keeps_get_bind {f : Driver → Hd γ} (h : ∀ d, Keeps view (f d)) : Keeps view (get >>= f) :=
  fun d => h d d

theorem Keeps.terror (h : Keeps view m) : Keeps view (Hd.terror m) :=
  fun d => (h d).bind (fun _ _ _ => trivial) fun _ heq => .done heq

theorem Keeps.finish {m : Hd Unit} (h : Keeps view m) : Keeps view (Hd.finish m) :=
  fun d => (h d).bind (fun _ _ _ => trivial) fun _ heq => .done heq

theorem keeps_forM {l : List γ} {g : γ → Hd Unit} (h : ∀ c ∈ l, Keeps view (g c)) :
    Keeps view (l.forM g) := by
  induction l with
  | nil => exact keeps_pure
  | cons c l ih =>
    refine (h c List.mem_cons_self).bind fun _ => ih fun c' hc' => ?_
    exact h c' (List.mem_cons_of_mem c hc')

/-- What is computed from what is kept is kept. -/
theorem Keeps.comp (g : β → γ) (h : Keeps view m) : Keeps (fun d => g (view d)) m :=
  fun d => (h d).mono (fun _ _ h => h) fun _ heq => congrArg g heq

/-- The rule for a run. -/
theorem Keeps.of_runIn {σ : Type} {answers : σ → Syscall → Reply → σ → Prop} {e e' : σ}
    {d : Driver} {result : Option α × Driver} (h : Keeps view m)
    (hrun : Dialogue.RunIn answers e (m d) e' result) : view result.2 = view d :=
  (h d).of_runIn hrun

/-! ## Output -/

theorem keeps_outf {fmt : List Byte} (hmem : MemFree view) : Keeps view (outf frame fmt) :=
  fun d => Dialogue.Every.bind (R := fun _ => True) (Dialogue.every_trivial _)
    (fun _ _ _ => trivial) fun _ _ => .done (hmem d _)

theorem keeps_todoError (hmem : MemFree view) : Keeps view (todoError frame : Hd α) :=
  (keeps_outf hmem).bind fun _ => keeps_leave

/-! ## Directories -/

theorem keeps_byteAt {i : Nat} : Keeps view (byteAt block i) := by
  intro d
  rw [byteAt]
  split
  next => exact .done rfl
  next => exact .stuck

theorem keeps_halfAt {i : Nat} : Keeps view (halfAt block i) :=
  keeps_byteAt.bind fun _ => keeps_byteAt.bind fun _ => keeps_pure

theorem keeps_wordAt {i : Nat} : Keeps view (wordAt block i) :=
  keeps_halfAt.bind fun _ => keeps_halfAt.bind fun _ => keeps_pure

theorem keeps_directoryLoop (hmem : MemFree view) (n cur : Nat) :
    Keeps view (directoryLoop frames block n cur) := by
  induction n generalizing cur with
  | zero => exact keeps_spent
  | succ n ih =>
    rw [directoryLoop]
    split
    next =>
      split
      next => exact keeps_pure
      next =>
        refine (keeps_outf hmem).bind fun _ => (keeps_outf hmem).bind fun _ => ?_
        exact keeps_wordAt.bind fun _ => keeps_halfAt.bind fun size => ih (cur + size.toNat)
    next => exact keeps_pure

theorem keeps_doDirectDirectory (hmem : MemFree view) :
    Keeps view (doDirectDirectory frames fuel channel partitionNr block) :=
  (keeps_directoryLoop hmem fuel 0).finish

/-! ## The channels -/

theorem keeps_channels_call {request : Syscall} {result : Reply → α} :
    Keeps Driver.channels (call request result) := keeps_call fun _ _ => rfl

theorem memFree_channels : MemFree Driver.channels := fun _ _ => rfl

theorem keeps_channels_check {p : Prop} [Decidable p] {error : Word} :
    Keeps Driver.channels (if p then terror (errSet error) else pure ()) := by
  have herror : Keeps Driver.channels (errSet error) := keeps_modify fun _ => rfl
  split
  next => exact herror.terror
  next => exact keeps_pure

theorem keeps_channels_selectDrive : Keeps Driver.channels (selectDrive channel) := by
  refine keeps_get_bind fun d => ?_
  split
  next =>
    refine (keeps_get_bind fun d => ?_).finish
    exact keeps_channels_call.terror.bind fun _ => keeps_modify fun _ => rfl
  next => exact keeps_pure

theorem keeps_channels_waitForData (c : Channel) (n : Nat) (status : Word) :
    Keeps Driver.channels (waitForData c n status) := by
  induction n generalizing status with
  | zero => exact keeps_spent
  | succ n ih =>
    rw [waitForData]
    split
    next => exact keeps_pure
    next =>
      refine keeps_channels_call.terror.bind fun _ => keeps_get_bind fun d => ?_
      split
      next => exact ih status
      next => exact keeps_channels_call.terror.bind fun status => ih status

theorem keeps_channels_readSector :
    Keeps Driver.channels (readSector fuel number channel buffer) := by
  refine Keeps.finish ?_
  refine (keeps_get_bind fun d => keeps_channels_check).terror.bind fun _ => ?_
  refine keeps_pure.terror.bind fun _ => keeps_get_bind fun d => ?_
  refine keeps_channels_check.bind fun _ => keeps_channels_selectDrive.terror.bind fun _ => ?_
  dsimp only
  have houtb : ∀ port value, Keeps Driver.channels (terror (callSyscallOutb port value)) :=
    fun _ _ => keeps_channels_call.terror
  refine (houtb _ _).bind fun _ => (houtb _ _).bind fun _ => (houtb _ _).bind fun _ => ?_
  refine (houtb _ _).bind fun _ => (houtb _ _).bind fun _ => (houtb _ _).bind fun _ => ?_
  refine keeps_channels_call.terror.bind fun status => ?_
  refine (keeps_channels_waitForData _ _ _).bind fun _ => keeps_forM fun i _ => Keeps.terror ?_
  exact keeps_channels_call.bind fun _ => keeps_modify fun _ => rfl

theorem keeps_partitionAt : Keeps view (partitionAt channel partitionNr) := by
  intro d
  rw [partitionAt]
  split
  next => exact .done rfl
  next => exact .stuck

theorem keeps_channels_readInode {behind : Nat → BlockGroup} {inodeNr inode : Word} :
    Keeps Driver.channels (readInode frame fuel behind buffer channel partitionNr inodeNr inode) := by
  refine (keeps_partitionAt.bind fun p => ?_).finish
  have htodo : Keeps Driver.channels (todoError frame : Hd Unit) := keeps_todoError memFree_channels
  dsimp only
  cases placeComputed behind p inodeNr with
  | none =>
    split
    next => exact htodo.bind fun _ => keeps_spent
    next => exact keeps_spent
  | some place =>
    have hread : Keeps Driver.channels (do
        terror (readSector fuel place.1 channel buffer)
        memcpy inode (buffer + place.2) (BitVec.ofNat 32 sizeofInode)) :=
      keeps_channels_readSector.terror.bind fun _ => keeps_modify fun _ => rfl
    split
    next => exact htodo.bind fun _ => hread
    next => exact hread

theorem keeps_channels_fetchBlock {blockNr address : Word} :
    Keeps Driver.channels (fetchBlock frame fuel channel partitionNr blockNr address) := by
  refine keeps_partitionAt.bind fun p => ?_
  have hread : Keeps Driver.channels (do
      terror (readSector fuel (blockNr * p.blockSize / 512 + p.firstSector) channel address)
      terror (readSector fuel (blockNr * p.blockSize / 512 + p.firstSector) channel
        (address + 512))) :=
    keeps_channels_readSector.terror.bind fun _ => keeps_channels_readSector.terror
  dsimp only
  split
  next => exact (keeps_todoError memFree_channels).bind fun _ => hread
  next => exact hread

theorem keeps_channels_doIndirectDirectory (frames : List Nat → Nat → Stack) (buffers : Nat → Word)
    (level : Nat) (way : List Nat) (blockNr : Word) : Keeps Driver.channels
      (doIndirectDirectory frames fuel buffers channel partitionNr level way blockNr) := by
  induction level generalizing way blockNr with
  | zero =>
    refine (keeps_channels_fetchBlock.bind fun _ => keeps_get_bind fun d => ?_).finish
    exact (keeps_doDirectDirectory memFree_channels).terror
  | succ level ih =>
    refine (keeps_channels_fetchBlock.bind fun _ => keeps_forM fun i _ => ?_).finish
    refine keeps_get_bind fun d => ?_
    dsimp only
    split
    next => exact keeps_leave.bind fun _ => (ih _ _).terror
    next => exact (ih _ _).terror

end Hd

end Mycrokernel
