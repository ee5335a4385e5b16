import Mycrokernel.Kernel.Create
import Mycrokernel.Kernel.Frame

/-!
# What exit releases

`create_process` marks the GDT entries of the segments and of the task state as used;
`syscall_exit` works out from the segment registers which entries to free.  The entry
of the task state, `idx_tss`, is not among them, and a segment that the process does
not have leaves the privilege level in its register, which exit takes for entry 0.
Creation allocates no pid, but exit frees one.  So exit never releases what creation
acquired (`exit_never_releases`).
-/

namespace Mycrokernel

namespace Kernel

variable [Layout] {s s' t k : Kernel} {a : ProcessArgs} {p : Ptr} {idxs : List Word} {tss : Word}

/-- The registers hold the same selectors. -/
structure SameSelectors (r r' : Regs) : Prop where
  cs : r'.csReg = r.csReg
  ds : r'.dsReg = r.dsReg
  es : r'.esReg = r.esReg
  fs : r'.fsReg = r.fsReg
  gs : r'.gsReg = r.gsReg
  ss : r'.ssReg = r.ssReg

/-- The exit from `t` to `k` frees the GDT entries that the creation from `s` to `s'` has
marked as used, each once and no other. -/
def ReleasesEntries (s s' t k : Kernel) : Prop :=
  ∃ used freed, s'.usedGdt = used ++ s.usedGdt ∧ k.freedGdt = freed ++ t.freedGdt ∧
    freed.Nodup ∧ freed.Perm used

/-- The pid that the exit frees is one that the creation has allocated to `p`, and no other
live process has it. -/
def ReleasesPid (s s' t k : Kernel) (p : Ptr) : Prop :=
  ∃ used pid, s'.usedPids = used ++ s.usedPids ∧ k.freedPids = pid :: t.freedPids ∧
    pid ∈ used ∧ ∀ i < maxNoProcs, t.state (proctab i) ≠ Flag.empty → proctab i ≠ p →
      (t.pid (proctab i)).setWidth 32 ≠ pid

/-- The exit of `p` releases exactly what its creation has acquired. -/
structure ExitReleases (s s' t k : Kernel) (p : Ptr) : Prop where
  entries : ReleasesEntries s s' t k
  pid : ReleasesPid s s' t k p

/-! ## What creation marks -/

theorem Creates.usedGdt {l : Kernel} (h : Creates s a s' p idxs tss l) :
    s'.usedGdt = tss :: ((idxs.filter (· ≠ invalidGdtIdx)).reverse ++ s.usedGdt) := by
  rw [h.eq, ← h.blocks.allocated.usedGdt]
  exact writeDesc_usedGdt ..

theorem Creates.usedPids {l : Kernel} (h : Creates s a s' p idxs tss l) :
    s'.usedPids = s.usedPids := by
  rw [h.eq, ← h.gdtOnly]
  rfl

theorem Creates.selectors {l : Kernel} (h : Creates s a s' p idxs tss l) :
    ∃ c d e f g st, idxs = [c, d, e, f, g, st] ∧
      (s'.regs p).csReg = (c + a.privilege).setWidth 16 ∧
      (s'.regs p).dsReg = (d + a.privilege).setWidth 16 ∧
      (s'.regs p).esReg = (e + a.privilege).setWidth 16 ∧
      (s'.regs p).fsReg = (f + a.privilege).setWidth 16 ∧
      (s'.regs p).gsReg = (g + a.privilege).setWidth 16 ∧
      (s'.regs p).ssReg = (st + a.privilege).setWidth 16 := by
  have hlength : idxs.length = 6 := by
    have hmap := congrArg List.length (h.blocks.present rfl)
    simpa [ProcessArgs.segments] using hmap
  obtain ⟨c, d, e, f, g, st, rfl⟩ : ∃ c d e f g st, idxs = [c, d, e, f, g, st] := by
    match idxs, hlength with
    | [c, d, e, f, g, st], _ => exact ⟨c, d, e, f, g, st, rfl⟩
  refine ⟨c, d, e, f, g, st, rfl, ?_⟩
  rw [h.eq]
  simp [fillSlot]

/-! ## What exit frees -/

omit [Layout] in
/-- The mask of `syscall_exit` clears the two low bits of a selector. -/
theorem and_fffc (x : Word) : (x &&& 0xfffc).toNat = x.toNat % 0x10000 / 4 * 4 := by
  change (x &&& 0xfffc#32).toNat = _
  have hmask : ∀ i < 32, (0xfffc#32).getLsbD i = (decide (2 ≤ i) && (0xffff#32).getLsbD i) := by
    decide
  have hshift : x &&& 0xfffc#32 = ((x &&& 0xffff#32) >>> 2) <<< 2 := by
    apply BitVec.eq_of_getLsbD_eq
    intro i hi
    rw [BitVec.getLsbD_and, BitVec.getLsbD_shiftLeft, BitVec.getLsbD_ushiftRight,
      BitVec.getLsbD_and, hmask i hi]
    cases Decidable.em (i < 2) with
    | inl h => simp [h]
    | inr h =>
        rw [show 2 + (i - 2) = i by omega, decide_eq_true (by omega : 2 ≤ i), decide_eq_true hi,
          decide_eq_false h, Bool.true_and, Bool.true_and]
        rfl
  have hlow : (x &&& 0xffff#32).toNat = x.toNat % 0x10000 := toNat_and_ffff x
  rw [hshift, BitVec.toNat_shiftLeft, BitVec.toNat_ushiftRight, hlow, Nat.shiftLeft_eq,
    Nat.shiftRight_eq_div_pow]
  omega

omit [Layout] in
/-- Exit frees the entry of a segment that is there, and entry 0 for one that is not. -/
theorem mem_freedBy {idx privilege w : Word} (hp : privilege < 4)
    (hidx : idx ≠ invalidGdtIdx → idx / 8 * 8 = idx ∧ idx / 8 < noAvlDscrpts)
    (hw : w ∈ freedBy ((idx + privilege).setWidth 16)) :
    idx ≠ invalidGdtIdx ∧ w = idx ∨ idx = invalidGdtIdx ∧ w = 0 := by
  have hpriv : privilege.toNat < 4 := hp
  unfold freedBy at hw
  split at hw
  next =>
    rw [List.mem_singleton] at hw
    have hnat := congrArg BitVec.toNat hw
    rw [and_fffc] at hnat
    simp only [BitVec.toNat_setWidth, BitVec.toNat_add] at hnat
    cases Decidable.em (idx = invalidGdtIdx) with
    | inl hinv =>
        refine .inr ⟨hinv, BitVec.eq_of_toNat_eq ?_⟩
        have hi : idx.toNat = 65536 := by rw [hinv]; rfl
        rw [hnat, hi]
        change _ = 0
        omega
    | inr hinv =>
        refine .inl ⟨hinv, BitVec.eq_of_toNat_eq ?_⟩
        obtain ⟨hmul, hlt⟩ := hidx hinv
        have hmul' := congrArg BitVec.toNat hmul
        have hlt' : (idx / 8).toNat < 8192 := hlt
        rw [BitVec.toNat_mul, BitVec.toNat_udiv] at hmul'
        rw [BitVec.toNat_udiv] at hlt'
        change idx.toNat / 8 * 8 % 2 ^ 32 = idx.toNat at hmul'
        change idx.toNat / 8 < 8192 at hlt'
        rw [hnat]
        omega
  next => exact absurd hw (by simp)

/-- What exit frees for the selectors that creation has left. -/
theorem Creates.mem_freedByExit {l : Kernel} {r : Regs} {w : Word}
    (h : Creates s a s' p idxs tss l) (hp : a.privilege < 4) (hr : SameSelectors (s'.regs p) r)
    (hw : w ∈ freedByExit r) :
    w ∈ idxs.filter (· ≠ invalidGdtIdx) ∨ w = 0 := by
  have hvalid : ∀ idx ∈ idxs, idx ≠ invalidGdtIdx →
      idx / 8 * 8 = idx ∧ idx / 8 < noAvlDscrpts := fun idx hmem hne => by
    have hfilter : idx ∈ idxs.filter (· ≠ invalidGdtIdx) := by simp [hmem, hne]
    exact ⟨h.blocks.allocated.multiple _ hfilter, h.blocks.allocated.lt _ hfilter⟩
  have hone : ∀ idx ∈ idxs, w ∈ freedBy ((idx + a.privilege).setWidth 16) →
      w ∈ idxs.filter (· ≠ invalidGdtIdx) ∨ w = 0 := fun idx hmem hw => by
    rcases mem_freedBy hp (hvalid idx hmem) hw with ⟨hne, rfl⟩ | ⟨-, hzero⟩
    · exact .inl (by simp [hmem, hne])
    · exact .inr hzero
  obtain ⟨c, d, e, f, g, st, rfl, hc, hd, he, hf, hg, hs⟩ := h.selectors
  rw [freedByExit, hr.cs, hr.ds, hr.es, hr.fs, hr.gs, hr.ss, hc, hd, he, hf, hg, hs] at hw
  simp only [List.flatMap_cons, List.flatMap_nil, List.append_nil, List.mem_append] at hw
  rcases hw with hw | hw | hw | hw | hw | hw
  · exact hone st (by simp) hw
  · exact hone g (by simp) hw
  · exact hone f (by simp) hw
  · exact hone e (by simp) hw
  · exact hone d (by simp) hw
  · exact hone c (by simp) hw

/-- The entry of the task state is not freed. -/
theorem Creates.tss_notMem {l : Kernel} {r : Regs} (h : Creates s a s' p idxs tss l)
    (hp : a.privilege < 4) (hr : SameSelectors (s'.regs p) r)
    (hne : idxs.filter (· ≠ invalidGdtIdx) ≠ []) : tss ∉ freedByExit r := by
  intro hw
  have hclear := h.available.clear
  have hmarked : l.gdtBit (tss / 8) = true := by
    rcases h.mem_freedByExit hp hr hw with hmem | hzero
    · rw [h.blocks.allocated.gdtBit_iff]
      exact .inr (List.mem_map_of_mem hmem)
    · rw [hzero]
      exact h.blocks.allocated.zero_marked hne
  exact Bool.noConfusion (hclear.symm.trans hmarked)

/-- A process without segments has only the entry of the task state, and exit frees none or
one six times. -/
theorem Creates.length_freedByExit {l : Kernel} {r : Regs} (h : Creates s a s' p idxs tss l)
    (hr : SameSelectors (s'.regs p) r) (hnil : idxs.filter (· ≠ invalidGdtIdx) = []) :
    (freedByExit r).length ≠ 1 := by
  have hinv : ∀ idx ∈ idxs, idx = invalidGdtIdx := by simpa using hnil
  obtain ⟨c, d, e, f, g, st, rfl, hc, hd, he, hf, hg, hs⟩ := h.selectors
  have hlen : ∀ idx ∈ [c, d, e, f, g, st], (freedBy ((idx + a.privilege).setWidth 16)).length =
      (freedBy ((invalidGdtIdx + a.privilege).setWidth 16)).length := fun idx hmem => by
    rw [hinv idx hmem]
  rw [freedByExit, hr.cs, hr.ds, hr.es, hr.fs, hr.gs, hr.ss, hc, hd, he, hf, hg, hs]
  simp only [List.flatMap_cons, List.flatMap_nil, List.append_nil, List.length_append]
  rw [hlen c (by simp), hlen d (by simp), hlen e (by simp), hlen f (by simp), hlen g (by simp),
    hlen st (by simp)]
  omega

theorem Creates.not_releasesEntries {l : Kernel} (h : Creates s a s' p idxs tss l)
    (hp : a.privilege < 4) (hcur : t.sched.curptr = p)
    (hr : SameSelectors (s'.regs p) (t.regs p)) (hexit : t.syscallExit = some k) :
    ¬ ReleasesEntries s s' t k := by
  rintro ⟨used, freed, hused, hfreed, -, hperm⟩
  have hexits := (syscallExit_spec hexit).freedGdt
  rw [hcur, hfreed] at hexits
  obtain rfl := List.append_cancel_right hexits
  rw [h.usedGdt, ← List.cons_append] at hused
  obtain rfl := List.append_cancel_right hused
  cases Decidable.em (idxs.filter (· ≠ invalidGdtIdx) = []) with
  | inl hnil =>
      have hlen := hperm.length_eq
      rw [hnil] at hlen
      exact h.length_freedByExit hr hnil hlen
  | inr hne =>
      refine h.tss_notMem hp hr hne (hperm.mem_iff.mpr ?_)
      exact List.mem_cons_self

/-! ## Every creation and every exit -/

/-- After whatever a process does that leaves its selectors alone, its exit does not release
what its creation has acquired: the pid it frees was never allocated, and of the entries,
at the privilege levels there are, that of the task state stays marked. -/
theorem exit_never_releases (s : Kernel) (a : ProcessArgs) (s' : Kernel) (p : Ptr)
    (hcreate : s.createProcess a = some (s', p)) (hp : p ≠ null) (t k : Kernel)
    (hcur : t.sched.curptr = p) (hr : SameSelectors (s'.regs p) (t.regs p))
    (hexit : t.syscallExit = some k) :
    ¬ ExitReleases s s' t k p ∧ ¬ ReleasesPid s s' t k p ∧
      (a.privilege < 4 → ¬ ReleasesEntries s s' t k) := by
  rcases createProcess_cases hcreate with ⟨hnull, -⟩ | ⟨idxs, tss, l, h⟩
  · exact absurd hnull hp
  · have hpid : ¬ ReleasesPid s s' t k p := by
      rintro ⟨used, pid, hused, -, hmem, -⟩
      rw [h.usedPids] at hused
      obtain rfl := List.self_eq_append_left.mp hused
      exact absurd hmem (by simp)
    exact ⟨fun hrel => hpid hrel.pid, hpid, fun hpriv => h.not_releasesEntries hpriv hcur hr hexit⟩

section

omit [Layout]

/-- A process with six segments is created in slot 0, runs and exits. -/
theorem plainArgs_exits :
    letI := Layout.sample
    ∃ s' t k : Kernel, powerOn.createProcess plainArgs = some (s', proctab 0) ∧
      t.sched.curptr = proctab 0 ∧ SameSelectors (s'.regs (proctab 0)) (t.regs (proctab 0)) ∧
      t.syscallExit = some k ∧ s'.usedPids = [] ∧
      s'.usedGdt = [0x1b0, 0x1a8, 0x1a0, 0x198, 0x190, 0x188, 0x180] ∧
      k.freedGdt = [0x1a8, 0x1a0, 0x198, 0x190, 0x188, 0x180] ∧ k.freedPids = [0] := by
  let _ := Layout.sample
  have hrun : ((powerOn.createProcess plainArgs).bind fun c => (c.1.enqueue c.2).bind fun b =>
      (b.step .tick).bind fun t => t.syscallExit.map fun k =>
        (c.2, t.sched.curptr, decide (c.1.regs c.2 = t.regs c.2 ∧ c.1.usedPids = [] ∧
          c.1.usedGdt = [0x1b0, 0x1a8, 0x1a0, 0x198, 0x190, 0x188, 0x180] ∧
          k.freedGdt = [0x1a8, 0x1a0, 0x198, 0x190, 0x188, 0x180] ∧ k.freedPids = [0]))) =
      some (proctab 0, proctab 0, true) := by decide +kernel
  obtain ⟨⟨s', p⟩, hcreate, hrun⟩ := Option.bind_eq_some_iff.mp hrun
  obtain ⟨b, -, hrun⟩ := Option.bind_eq_some_iff.mp hrun
  obtain ⟨t, -, hrun⟩ := Option.bind_eq_some_iff.mp hrun
  obtain ⟨k, hexit, heq⟩ := Option.map_eq_some_iff.mp hrun
  simp only [Prod.mk.injEq, decide_eq_true_eq] at heq
  obtain ⟨rfl, hcur, hregs, hnopids, hused, hfreed, hpids⟩ := heq
  have hr : SameSelectors (s'.regs (proctab 0)) (t.regs (proctab 0)) := by
    rw [← hregs]
    exact ⟨rfl, rfl, rfl, rfl, rfl, rfl⟩
  exact ⟨s', t, k, hcreate, hcur, hr, hexit, hnopids, hused, hfreed, hpids⟩

/-- A process with six segments is created, runs and exits. -/
theorem exit_never_releases_main :
    letI := Layout.sample
    ∃ s' p t k, powerOn.createProcess plainArgs = some (s', p) ∧ p ≠ null ∧
      t.sched.curptr = p ∧ SameSelectors (s'.regs p) (t.regs p) ∧ t.syscallExit = some k ∧
      ¬ ExitReleases powerOn s' t k p ∧ ¬ ReleasesEntries powerOn s' t k := by
  let _ := Layout.sample
  obtain ⟨s', t, k, hcreate, hcur, hr, hexit, -⟩ := plainArgs_exits
  have hp : (proctab 0 : Ptr) ≠ null := by decide
  have hnever := exit_never_releases powerOn plainArgs s' _ hcreate hp t k hcur hr hexit
  exact ⟨s', _, t, k, hcreate, hp, hcur, hr, hexit, hnever.1, hnever.2.2 (by decide)⟩

/-- The exit of that process frees the entries of its segments and the pid 0, but not the
entry 0x1b0 of its task state. -/
theorem exit_never_releases_fails :
    letI := Layout.sample
    ∃ s' p t k, powerOn.createProcess plainArgs = some (s', p) ∧ p ≠ null ∧
      t.sched.curptr = p ∧ SameSelectors (s'.regs p) (t.regs p) ∧ t.syscallExit = some k ∧
      s'.usedGdt = [0x1b0, 0x1a8, 0x1a0, 0x198, 0x190, 0x188, 0x180] ∧
      k.freedGdt = [0x1a8, 0x1a0, 0x198, 0x190, 0x188, 0x180] ∧ k.freedPids = [0] ∧
      ¬ ExitReleases powerOn s' t k p := by
  let _ := Layout.sample
  obtain ⟨s', t, k, hcreate, hcur, hr, hexit, hnopids, hused, hfreed, hpids⟩ := plainArgs_exits
  refine ⟨s', _, t, k, hcreate, by decide, hcur, hr, hexit, hused, hfreed, hpids, fun hrel => ?_⟩
  obtain ⟨used, pid, huse, -, hmem, -⟩ := hrel.pid
  rw [hnopids] at huse
  obtain rfl := (List.append_eq_nil_iff.mp huse.symm).1
  exact absurd hmem (by simp)

end

end Kernel

end Mycrokernel
