import Mycrokernel.Boot.Cpu

/-!
# Loading the image

`loop_load` of `boot/512.asm` reads sectors one after the other: `do_chs` makes a cylinder, a head
and a sector of the number in `di`, and `do_load_sector` has the BIOS read that sector to `es:bx`.
The divisions are loops that subtract.

What is loaded must not come to lie on the program, nor on the words that the routine has on the
stack.  Then it loads the sectors one behind the other (`loop_load_contiguous`).  The calls of the
loader keep to that (`clear_of_above`).
-/

namespace Mycrokernel

namespace Boot

open WordStack
open Bytes (Within)

/-- `SECTORS_PER_CYLINDER`. -/
def sectorsPerCylinder : BitVec 16 := 36

/-- `SECTORS_PER_HEAD`. -/
def sectorsPerHead : BitVec 16 := 18

/-- `SECTOR_SIZE`. -/
def sectorSize : BitVec 16 := 512

/-- The two loops of `do_chs`: take away from `ax` what a cylinder or a head has, and count.  `ax`
becomes smaller in each turn, so that there are enough turns. -/
def subtractLoop (d : BitVec 16) (inc : Cpu → Cpu) : Nat → Cpu → Except Stop Cpu
  | 0, _ => .error .endless
  | n + 1, m =>
    -- `cmp`, `js`
    if (m.ax - d).msb then .ok m
    else
      let m := inc m
      subtractLoop d inc n (m.setAx (m.ax - d))

/-- `inc ch`. -/
def incCh (m : Cpu) : Cpu := m.setCh (m.ch + 1)

/-- `inc dh`. -/
def incDh (m : Cpu) : Cpu := m.setDh (m.dh + 1)

/-- `do_c`. -/
def doC (m : Cpu) : Except Stop Cpu := subtractLoop sectorsPerCylinder incCh (2 ^ 16) m

/-- `do_h`. -/
def doH (m : Cpu) : Except Stop Cpu := subtractLoop sectorsPerHead incDh (2 ^ 16) m

/-- `do_chs`. -/
def doChs (m : Cpu) : Except Stop Cpu := do
  let m := m.push m.ax
  let m := m.setAx m.di
  let m := m.setCh 0
  let m := m.setDh 0
  let m ← doC m
  let m ← doH m
  -- `do_done`
  let m := m.setCl m.al
  let m := m.setCl (m.cl + 1)
  let (ax, m) := m.pop
  return m.setAx ax

/-- `do_load_sector`. -/
def doLoadSector (l : Loader) (m : Cpu) : Except Stop Cpu := do
  let m := m.push m.ax
  let m := m.setAh 2
  let m := m.setAl 1
  let m ← l.interrupt m
  if m.carry then throw .lderr
  let (ax, m) := m.pop
  return m.setAx ax

/-- A turn of the loop at `loop_load_again`. -/
def loadNext (l : Loader) (m : Cpu) : Except Stop Cpu := do
  let m ← m.call l.behindChs doChs
  let m ← m.call l.behindLoadSector (doLoadSector l)
  let m := { m with di := m.di + 1 }
  let m := { m with si := m.si - 1 }
  let m := m.setAx m.es
  let m := m.setAx (m.ax + sectorSize / 16)
  return { m with es := m.ax }

/-- `loop_load_again`. -/
def loopLoadAgain (l : Loader) : Nat → Cpu → Except Stop Cpu
  | 0, _ => .error .endless
  | n + 1, m =>
    if m.si = 0 then .ok m
    else do
      let m ← loadNext l m
      loopLoadAgain l n m

/-- `loop_load`, up to its loop. -/
def saveRegisters (m : Cpu) : Cpu :=
  let m := m.push m.ax
  let m := m.push m.cx
  let m := m.push m.dx
  let m := m.push m.di
  let m := m.push m.si
  { m with di := m.cx }

/-- `end_loop_load`. -/
def endLoopLoad (m : Cpu) : Cpu :=
  let (si, m) := m.pop
  let m := { m with si }
  let (di, m) := m.pop
  let m := { m with di }
  let (dx, m) := m.pop
  let m := { m with dx }
  let (cx, m) := m.pop
  let m := { m with cx }
  let (ax, m) := m.pop
  m.setAx ax

/-- `loop_load`.  `si` becomes smaller in each turn of the loop. -/
def loopLoad (l : Loader) (m : Cpu) : Except Stop Cpu := do
  let m ← loopLoadAgain l (2 ^ 16) (saveRegisters m)
  return endLoopLoad m

/-! ## What is claimed -/

/-- A request for sector `n` of drive `drive`, to an address. -/
structure Request.Reads (r : Request) (n : Nat) (drive : Byte) (address : Nat) : Prop where
  function : r.ah = 2
  count : r.al = 1
  number : (2 * r.cylinder + r.head) * 18 + (r.sector - 1) = n
  head : r.head < 2
  first : 1 ≤ r.sector
  last : r.sector ≤ 18
  drive : r.dl = drive
  address : r.address = address

/-- What has been requested since `m`: the sectors from `cx` on, one behind the other. -/
def Requested (m m' : Cpu) (count : Nat) : Prop :=
  ∃ rs : List Request, m'.requests = rs.reverse ++ m.requests ∧ rs.length = count ∧
    ∀ k (hk : k < rs.length),
      rs[k].Reads (m.cx.toNat + k) (low m.dx) (m.request.address + 512 * k)

/-- The routine has loaded what it was called for, and the registers that it saves are unchanged, the
drive in `dl` among them. -/
structure Loads (m m' : Cpu) : Prop where
  requested : Requested m m' m.si.toNat
  ax : m'.ax = m.ax
  cx : m'.cx = m.cx
  dx : m'.dx = m.dx
  di : m'.di = m.di
  si : m'.si = m.si

/-- What is loaded does not lie on the program, nor on the eight words that the call puts on the
stack. -/
structure Clear (m : Cpu) : Prop where
  program : ∀ i < programSize, ¬ Within m.buffer (512 * m.si.toNat) (base512 + BitVec.ofNat 32 i)
  stack : ∀ i < 16, ¬ Within m.buffer (512 * m.si.toNat) (physical m.ss (m.sp - 16 + BitVec.ofNat 16 i))

variable {l : Loader} {m m' m₀ : Cpu} {d : BitVec 16} {inc : Cpu → Cpu} {xs : List (BitVec 16)}
  {n q k : Nat} {behind : BitVec 16}

/-! ## The divisions -/

theorem iterate_setAx (hinc : ∀ m x, inc (m.setAx x) = (inc m).setAx x) (m : Cpu) (x : BitVec 16) :
    inc^[q] (m.setAx x) = (inc^[q] m).setAx x := by
  induction q generalizing m with
  | zero => rfl
  | succ q ih => rw [Function.iterate_succ_apply, Function.iterate_succ_apply, hinc, ih]

/-- The loop counts how often `d` goes into `ax`, and leaves the rest. -/
theorem subtractLoop_eq (hinc : ∀ m x, inc (m.setAx x) = (inc m).setAx x) (hd : 0 < d.toNat)
    (hax : m.ax.toNat + d.toNat ≤ 2 ^ 15) (hn : m.ax.toNat / d.toNat < n) :
    subtractLoop d inc n m =
      .ok ((inc^[m.ax.toNat / d.toNat] m).setAx (BitVec.ofNat 16 (m.ax.toNat % d.toNat))) := by
  induction n generalizing m with
  | zero => exact absurd hn (Nat.not_lt_zero _)
  | succ n ih =>
    have hsub := BitVec.toNat_sub m.ax d
    have hlt := m.ax.isLt
    rw [subtractLoop, BitVec.msb_eq_decide, hsub]
    cases Nat.lt_or_ge m.ax.toNat d.toNat with
    | inl hsmall =>
      rw [if_pos (by rw [decide_eq_true_iff]; omega), Nat.div_eq_of_lt hsmall,
        Nat.mod_eq_of_lt hsmall, BitVec.ofNat_toNat, BitVec.setWidth_eq]
      rfl
    | inr hlarge =>
      have hnext : (m.ax - d).toNat = m.ax.toNat - d.toNat := by omega
      have hdiv : m.ax.toNat / d.toNat = (m.ax.toNat - d.toNat) / d.toNat + 1 :=
        Nat.div_eq_sub_div hd hlarge
      have hmod : m.ax.toNat % d.toNat = (m.ax.toNat - d.toNat) % d.toNat :=
        Nat.mod_eq_sub_mod hlarge
      have hinc_ax := congrArg Cpu.ax (hinc m m.ax)
      rw [Cpu.setAx_self, Cpu.setAx_ax] at hinc_ax
      have hrest := @ih ((inc m).setAx (m.ax - d)) (by rw [Cpu.setAx_ax, hnext]; omega)
        (by rw [Cpu.setAx_ax, hnext]; omega)
      rw [Cpu.setAx_ax, hnext, iterate_setAx hinc, Cpu.setAx_setAx] at hrest
      rw [if_neg (by rw [decide_eq_true_iff]; omega)]
      dsimp only
      rw [hinc_ax, hrest, hdiv, hmod, Function.iterate_succ_apply]

theorem iterate_incCh (q : Nat) (m : Cpu) :
    incCh^[q] m = m.setCh (m.ch + BitVec.ofNat 8 q) := by
  induction q generalizing m with
  | zero => rw [Function.iterate_zero_apply, BitVec.add_zero, Cpu.setCh_ch]
  | succ q ih =>
    rw [Function.iterate_succ_apply, ih, incCh, Cpu.setCh_setCh, Cpu.ch_setCh, Nat.add_comm q 1,
      BitVec.ofNat_add, ← BitVec.add_assoc]
    rfl

theorem iterate_incDh (q : Nat) (m : Cpu) :
    incDh^[q] m = m.setDh (m.dh + BitVec.ofNat 8 q) := by
  induction q generalizing m with
  | zero => rw [Function.iterate_zero_apply, BitVec.add_zero, Cpu.setDh_dh]
  | succ q ih =>
    rw [Function.iterate_succ_apply, ih, incDh, Cpu.setDh_setDh, Cpu.dh_setDh, Nat.add_comm q 1,
      BitVec.ofNat_add, ← BitVec.add_assoc]
    rfl

theorem doC_eq (hax : m.ax = BitVec.ofNat 16 n) (hn : n < 2880) (hch : m.ch = 0#8) :
    doC m = .ok ((m.setCh (BitVec.ofNat 8 (n / 36))).setAx (BitVec.ofNat 16 (n % 36))) := by
  have hd : sectorsPerCylinder.toNat = 36 := rfl
  have hnumber : m.ax.toNat = n := by rw [hax, BitVec.toNat_ofNat]; omega
  rw [doC, subtractLoop_eq (fun _ _ => rfl) (by decide) (by omega) (by rw [hd]; omega), hd, hnumber,
    iterate_incCh, hch, BitVec.zero_add]

theorem doH_eq (hax : m.ax = BitVec.ofNat 16 n) (hn : n < 36) (hdh : m.dh = 0#8) :
    doH m = .ok ((m.setDh (BitVec.ofNat 8 (n / 18))).setAx (BitVec.ofNat 16 (n % 18))) := by
  have hd : sectorsPerHead.toNat = 18 := rfl
  have hnumber : m.ax.toNat = n := by rw [hax, BitVec.toNat_ofNat]; omega
  rw [doH, subtractLoop_eq (fun _ _ => rfl) (by decide) (by omega) (by rw [hd]; omega), hd, hnumber,
    iterate_incDh, hdh, BitVec.zero_add]

/-- The registers after the two loops: the cylinder in `ch`, the head in `dh`, and what is left. -/
def divided (m : Cpu) (n : Nat) : Cpu :=
  let m := (m.setCh (BitVec.ofNat 8 (n / 36))).setAx (BitVec.ofNat 16 (n % 36))
  (m.setDh (BitVec.ofNat 8 (n % 36 / 18))).setAx (BitVec.ofNat 16 (n % 36 % 18))

theorem exists_divided (hax : m.ax = BitVec.ofNat 16 n) (hn : n < 2880) (hch : m.ch = 0#8)
    (hdh : m.dh = 0#8) : ∃ m', doC m = .ok m' ∧ doH m' = .ok (divided m n) :=
  ⟨_, doC_eq hax hn hch, doH_eq (Cpu.setAx_ax _ _) (Nat.mod_lt n (by decide)) hdh⟩

/-- The sector, counted from 1. -/
theorem al_divided (m : Cpu) (n : Nat) : (divided m n).al + 1 = BitVec.ofNat 8 (n % 18 + 1) := by
  have hlow : (BitVec.ofNat 16 (n % 36 % 18)).setWidth 8 = BitVec.ofNat 8 (n % 36 % 18) :=
    BitVec.setWidth_ofNat_of_le (by decide) _
  have hmod : n % 36 % 18 = n % 18 := by omega
  rw [BitVec.ofNat_add, ← hmod]
  exact congrArg (· + 1#8) hlow

/-- The registers with cylinder, head and sector of a number. -/
def chs (m : Cpu) (n : Nat) : Cpu :=
  { m with
    cx := BitVec.ofNat 8 (n / 36) ++ BitVec.ofNat 8 (n % 18 + 1)
    dx := BitVec.ofNat 8 (n % 36 / 18) ++ low m.dx }

/-- `do_chs` puts the numbers into the registers.  It leaves a word behind below the stack. -/
theorem doChs_eq (hdi : m.di = BitVec.ofNat 16 n) (hn : n < 2880) :
    doChs m = .ok { chs m n with mem := (m.push m.ax).mem } := by
  have htop : (m.push m.ax).Stacked [m.ax] :=
    ⟨word_setWord (physical_injective m.ss) (by decide), trivial⟩
  obtain ⟨m₁, hm₁⟩ : ∃ m₁, m₁ = (((m.push m.ax).setAx (m.push m.ax).di).setCh 0).setDh 0 := ⟨_, rfl⟩
  obtain ⟨m₂, hcylinder, hhead⟩ : ∃ m₂, doC m₁ = .ok m₂ ∧ doH m₂ = .ok (divided m₁ n) := by
    rw [hm₁]
    exact exists_divided hdi hn (Cpu.ch_setCh _ 0) (Cpu.dh_setDh _ 0)
  have hstacked : ((divided m₁ n).setCl (BitVec.ofNat 8 (n % 18 + 1))).Stacked [m.ax] := by
    rw [hm₁]
    exact htop
  rw [doChs]
  dsimp only
  rw [← hm₁, hcylinder, ok_bind, hhead, ok_bind, Cpu.setCl_setCl, Cpu.cl_setCl, al_divided,
    hstacked.pop, hm₁]
  refine congrArg Except.ok ?_
  simp [divided, chs, Cpu.setAx, Cpu.setCh, Cpu.setCl, Cpu.setDh, Cpu.push, withHigh, withLow]

/-! ## The calls -/

theorem call_doChs (hdi : m.di = BitVec.ofNat 16 n) (hn : n < 2880) (hstack : m.Stacked xs)
    (hroom : 2 * xs.length + 4 ≤ 2 ^ 16) :
    ∃ mem, m.call behind doChs = .ok { chs m n with mem } ∧ Holds (physical m.ss) mem m.sp xs := by
  have hpushed : (m.push behind).Stacked (behind :: xs) := hstack.push (by omega)
  have hkept := hpushed.keep (x := m.ax) (by rw [List.length_cons]; omega)
  exact ⟨((m.push behind).push m.ax).mem, Cpu.call_eq (doChs_eq hdi hn) rfl hkept,
    Holds.behind hkept⟩

/-- The request for the sector that the registers name. -/
def reading (m : Cpu) : Request := { m.request with ah := 2, al := 1 }

theorem request_reading (m : Cpu) (x : BitVec 16) :
    (((m.push x).setAh 2).setAl 1).request = reading m := by
  have hax : (((m.push x).setAh 2).setAl 1).ax = 0x201 := by
    simp [Cpu.setAh, Cpu.setAl, withHigh, withLow]
  have heq : (((m.push x).setAh 2).setAl 1).request =
    { m.request with
      ah := high (((m.push x).setAh 2).setAl 1).ax
      al := low (((m.push x).setAh 2).setAl 1).ax } := rfl
  rw [heq, hax]
  rfl

/-- `do_load_sector` makes the request, and leaves the stack as it is. -/
theorem exists_doLoadSector (hl : l.Serves) (hvalid : (reading m).Valid) (hstack : m.Stacked xs)
    (hroom : (m.sp - 2).toNat + 2 * (xs.length + 1) ≤ 2 ^ 16)
    (hclear : Cpu.BufferClear { m with sp := m.sp - 2 } (xs.length + 1)) :
    ∃ mem, doLoadSector l m =
        .ok { m with mem, carry := false, requests := reading m :: m.requests } ∧
      Holds (physical m.ss) mem m.sp xs := by
  obtain ⟨m₁, hm₁⟩ : ∃ m₁, m₁ = ((m.push m.ax).setAh 2).setAl 1 := ⟨_, rfl⟩
  have hrequest : m₁.request = reading m := by rw [hm₁, request_reading]
  have hpushed : m₁.Stacked (m.ax :: xs) := by
    rw [hm₁]
    exact hstack.push (by omega)
  have hclear₁ : m₁.BufferClear (m.ax :: xs).length := by
    rw [hm₁]
    exact ⟨hclear.program, hclear.stack⟩
  obtain ⟨ax, mem, hrun, hholds⟩ :=
    hl.interrupt (by rwa [hrequest]) hpushed (by rw [hm₁]; exact hroom) hclear₁
  have hstacked : Cpu.Stacked
      { m₁ with ax, mem, carry := false, requests := m₁.request :: m₁.requests }
      (m.ax :: xs) := hholds
  have hback : m₁.sp + 2 = m.sp := by
    rw [hm₁]
    exact BitVec.sub_add_cancel m.sp 2
  have hfine : ¬ (false = true) := by decide
  refine ⟨mem, ?_, ?_⟩
  · rw [doLoadSector]
    dsimp only
    rw [← hm₁, hrun, ok_bind, if_neg hfine, hstacked.pop, hback, hrequest, hm₁]
    rfl
  · rw [hm₁] at hholds
    exact hholds.behind

theorem call_doLoadSector (hl : l.Serves) (hvalid : (reading m).Valid) (hstack : m.Stacked xs)
    (hroom : (m.sp - 2 - 2).toNat + 2 * (xs.length + 2) ≤ 2 ^ 16)
    (hclear : Cpu.BufferClear { m with sp := m.sp - 2 - 2 } (xs.length + 2)) :
    ∃ mem, m.call behind (doLoadSector l) =
        .ok { m with mem, carry := false, requests := reading m :: m.requests } ∧
      Holds (physical m.ss) mem m.sp xs := by
  have hpushed : (m.push behind).Stacked (behind :: xs) := hstack.push (by omega)
  have hvalid₁ : (reading (m.push behind)).Valid := hvalid
  have hclear₁ : Cpu.BufferClear { m.push behind with sp := (m.push behind).sp - 2 }
    ((behind :: xs).length + 1) := ⟨hclear.program, hclear.stack⟩
  obtain ⟨mem, hrun, hholds⟩ := exists_doLoadSector hl hvalid₁ hpushed hroom hclear₁
  exact ⟨mem, Cpu.call_eq hrun rfl hholds, Holds.behind hholds⟩

/-! ## What is requested -/

theorem Request.Reads.valid {r : Request} {drive : Byte} {address : Nat}
    (h : r.Reads n drive address) (hn : n < 2880) : r.Valid := by
  have hnumber := h.number
  exact ⟨h.function, h.count, by omega, h.head, h.first, h.last⟩

/-- After `do_chs` the registers name the sector. -/
theorem reads_chs (m : Cpu) (hn : n < 2880) :
    (reading (chs m n)).Reads n (low m.dx) m.request.address := by
  have hch : (reading (chs m n)).ch = BitVec.ofNat 8 (n / 36) := high_append _ _
  have hcl : (reading (chs m n)).cl = BitVec.ofNat 8 (n % 18 + 1) := low_append _ _
  have hdh : (reading (chs m n)).dh = BitVec.ofNat 8 (n % 36 / 18) := high_append _ _
  have hcylinder : (reading (chs m n)).cylinder = n / 36 := by
    rw [Request.cylinder, hch, hcl, BitVec.toNat_ofNat, BitVec.toNat_ofNat]
    omega
  have hhead : (reading (chs m n)).head = n % 36 / 18 := by
    rw [Request.head, hdh, BitVec.toNat_ofNat]
    omega
  have hsector : (reading (chs m n)).sector = n % 18 + 1 := by
    rw [Request.sector, hcl, BitVec.toNat_ofNat]
    omega
  refine ⟨rfl, rfl, ?_, ?_, ?_, ?_, low_append _ _, rfl⟩
  · rw [hcylinder, hhead, hsector]
    omega
  · rw [hhead]
    omega
  · rw [hsector]
    omega
  · rw [hsector]
    omega

theorem Requested.zero (m : Cpu) (h : m'.requests = m.requests) : Requested m m' 0 :=
  ⟨[], h, rfl, fun _ hk => absurd hk (Nat.not_lt_zero _)⟩

theorem Requested.succ {r : Request} (h : Requested m₀ m k)
    (hr : r.Reads (m₀.cx.toNat + k) (low m₀.dx) (m₀.request.address + 512 * k))
    (hrequests : m'.requests = r :: m.requests) : Requested m₀ m' (k + 1) := by
  obtain ⟨rs, hrs, rfl, hreads⟩ := h
  refine ⟨rs ++ [r], ?_, List.length_append, fun j hj => ?_⟩
  · rw [hrequests, hrs, List.reverse_append]
    rfl
  · rw [List.getElem_append]
    split
    next hlt => exact hreads j hlt
    next hge =>
      obtain rfl : j = rs.length := by
        rw [List.length_append, List.length_singleton] at hj
        omega
      simpa using hr

/-! ## The loop -/

/-- The buffer of a turn is a part of what is loaded. -/
theorem within_of_turn {b a : Word} {count : Nat} (hk : k < count) (hcount : count ≤ 2880)
    (h : Within (b + BitVec.ofNat 32 (512 * k)) 512 a) : Within b (512 * count) a := by
  obtain ⟨j, hj, rfl⟩ := h.exists_add
  rw [BitVec.add_assoc, ← BitVec.ofNat_add]
  exact Bytes.within_add (by omega) (by omega)

/-- The state at `loop_load_again` when `k` sectors have been loaded. -/
structure Progress (m₀ : Cpu) (saved : List (BitVec 16)) (k : Nat) (m : Cpu) : Prop where
  left : m.si.toNat + k = m₀.si.toNat
  next : m.di = BitVec.ofNat 16 (m₀.cx.toNat + k)
  es : m.es = m₀.es + BitVec.ofNat 16 (32 * k)
  bx : m.bx = m₀.bx
  drive : low m.dx = low m₀.dx
  ss : m.ss = m₀.ss
  sp : m.sp = m₀.sp - 12
  stacked : m.Stacked saved
  requested : Requested m₀ m k

/-- A call that `loop_load` is made for: the sectors exist, there are segments for them, and the stack
has room for eight words. -/
structure Loadable (m : Cpu) : Prop where
  sectors : m.cx.toNat + m.si.toNat ≤ 2880
  segment : m.es.toNat + 32 * m.si.toNat ≤ 65536
  room : (m.sp - 16).toNat + 16 ≤ 2 ^ 16

theorem Progress.address (h : Progress m₀ xs k m) (hl : Loadable m₀) (hk : k < m₀.si.toNat) :
    m.request.address = m₀.request.address + 512 * k := by
  have hsegment := hl.segment
  have hes : m.es.toNat = m₀.es.toNat + 32 * k := by
    rw [h.es, BitVec.toNat_add, BitVec.toNat_ofNat]
    omega
  change 16 * m.es.toNat + m.bx.toNat = 16 * m₀.es.toNat + m₀.bx.toNat + 512 * k
  rw [hes, h.bx]
  omega

theorem toNat_buffer (m : Cpu) : m.buffer.toNat = m.request.address := toNat_physical _ _

theorem Progress.buffer (h : Progress m₀ xs k m) (hl : Loadable m₀) (hk : k < m₀.si.toNat) :
    m.buffer = m₀.buffer + BitVec.ofNat 32 (512 * k) := by
  have haddress := h.address hl hk
  have hes := m₀.es.isLt
  have hbx := m₀.bx.isLt
  have hlow : m₀.request.address = 16 * m₀.es.toNat + m₀.bx.toNat := rfl
  have hsectors := hl.sectors
  apply BitVec.eq_of_toNat_eq
  rw [toNat_buffer, haddress, BitVec.toNat_add, toNat_buffer, BitVec.toNat_ofNat]
  omega

/-- Where the stack ends in the calls. -/
theorem Progress.bottom (h : Progress m₀ xs k m) : m.sp - 2 - 2 = m₀.sp - 16 := by
  rw [h.sp, BitVec.sub_sub, BitVec.sub_sub]
  rfl

/-- The buffer of a turn is apart from the program and the stack. -/
theorem Progress.bufferClear (h : Progress m₀ xs k m) (hl : Loadable m₀) (hclear : Clear m₀)
    (hk : k < m₀.si.toNat) : Cpu.BufferClear { m with sp := m.sp - 2 - 2 } 8 := by
  have hcount : m₀.si.toNat ≤ 2880 := Nat.le_of_add_left_le hl.sectors
  have hbuffer := h.buffer hl hk
  constructor
  · intro i hi hin
    change Within m.buffer 512 _ at hin
    rw [hbuffer] at hin
    exact hclear.program i hi (within_of_turn hk hcount hin)
  · intro i hi hin
    change Within m.buffer 512 (physical m.ss (m.sp - 2 - 2 + _)) at hin
    rw [hbuffer, h.ss, h.bottom] at hin
    exact hclear.stack i hi (within_of_turn hk hcount hin)

/-- The state after a turn for sector `n`. -/
def turned (m : Cpu) (n : Nat) (mem : Word → Byte) : Cpu :=
  { chs m n with
    mem
    carry := false
    requests := reading (chs m n) :: m.requests
    di := m.di + 1
    si := m.si - 1
    ax := m.es + sectorSize / 16
    es := m.es + sectorSize / 16 }

/-- A turn requests the sector in `di`. -/
theorem exists_loadNext (hl : l.Serves) (hdi : m.di = BitVec.ofNat 16 n) (hn : n < 2880)
    (hstack : m.Stacked xs) (hroom : (m.sp - 2 - 2).toNat + 2 * (xs.length + 2) ≤ 2 ^ 16)
    (hclear : Cpu.BufferClear { m with sp := m.sp - 2 - 2 } (xs.length + 2)) :
    ∃ mem, loadNext l m = .ok (turned m n mem) ∧ Holds (physical m.ss) mem m.sp xs := by
  obtain ⟨mem₁, hchs, hkept₁⟩ : ∃ mem, m.call l.behindChs doChs = .ok { chs m n with mem } ∧
      Holds (physical m.ss) mem m.sp xs := call_doChs hdi hn hstack (by omega)
  obtain ⟨m₁, hm₁⟩ : ∃ m₁ : Cpu, m₁ = { chs m n with mem := mem₁ } := ⟨_, rfl⟩
  have hreading : reading m₁ = reading (chs m n) := by
    rw [hm₁]
    rfl
  have hvalid : (reading m₁).Valid := by
    rw [hreading]
    exact (reads_chs m hn).valid hn
  have hstacked₁ : m₁.Stacked xs := by
    rw [hm₁]
    exact hkept₁
  have hroom₁ : (m₁.sp - 2 - 2).toNat + 2 * (xs.length + 2) ≤ 2 ^ 16 := by
    rw [hm₁]
    exact hroom
  have hclear₁ : Cpu.BufferClear { m₁ with sp := m₁.sp - 2 - 2 } (xs.length + 2) := by
    rw [hm₁]
    exact ⟨hclear.program, hclear.stack⟩
  obtain ⟨mem, hload, hkept⟩ := call_doLoadSector hl hvalid hstacked₁ hroom₁ hclear₁
  refine ⟨mem, ?_, ?_⟩
  · rw [loadNext, hchs, ok_bind, ← hm₁, hload, ok_bind, hreading, hm₁]
    rfl
  · rw [hm₁] at hkept
    exact hkept

/-- A turn loads one more sector. -/
theorem Progress.loadNext (h : Progress m₀ xs k m) (hserves : l.Serves) (hl : Loadable m₀)
    (hclear : Clear m₀) (hxs : xs.length = 6) (hk : k < m₀.si.toNat) :
    ∃ m', loadNext l m = .ok m' ∧ Progress m₀ xs (k + 1) m' := by
  have hsectors := hl.sectors
  have hleft := h.left
  have hn : m₀.cx.toNat + k < 2880 := by omega
  have hroom : (m.sp - 2 - 2).toNat + 2 * (xs.length + 2) ≤ 2 ^ 16 := by
    rw [hxs, h.bottom]
    exact hl.room
  obtain ⟨mem, hrun, hkept⟩ :=
    exists_loadNext hserves h.next hn h.stacked hroom (by rw [hxs]; exact h.bufferClear hl hclear hk)
  have hreads := reads_chs m hn
  rw [h.drive, h.address hl hk] at hreads
  have hsize : sectorSize / 16 = BitVec.ofNat 16 32 := by decide
  refine ⟨_, hrun,
    { left := ?_
      next := ?_
      es := ?_
      bx := h.bx
      drive := hreads.drive
      ss := h.ss
      sp := h.sp
      stacked := hkept
      requested := h.requested.succ hreads rfl }⟩
  · change (m.si - 1).toNat + (k + 1) = m₀.si.toNat
    have hone : (1 : BitVec 16).toNat = 1 := rfl
    rw [BitVec.toNat_sub, hone]
    omega
  · change m.di + 1 = _
    rw [h.next]
    exact (BitVec.ofNat_add _ 1).symm
  · change m.es + sectorSize / 16 = _
    rw [h.es, hsize, Nat.mul_succ, BitVec.ofNat_add, BitVec.add_assoc]

/-- The loop loads what is left. -/
theorem Progress.loopLoadAgain (h : Progress m₀ xs k m) (hserves : l.Serves) (hl : Loadable m₀)
    (hclear : Clear m₀) (hxs : xs.length = 6) (hn : m.si.toNat < n) :
    ∃ m', loopLoadAgain l n m = .ok m' ∧ Progress m₀ xs m₀.si.toNat m' := by
  induction n generalizing k m with
  | zero => exact absurd hn (Nat.not_lt_zero _)
  | succ n ih =>
    have hleft := h.left
    cases Decidable.em (m.si = 0) with
    | inl hdone =>
      have hzero : m.si.toNat = 0 := congrArg BitVec.toNat hdone
      have hk : k = m₀.si.toNat := by omega
      exact ⟨m, if_pos hdone, hk ▸ h⟩
    | inr hmore =>
      have hne : m.si.toNat ≠ 0 := fun heq => hmore (BitVec.eq_of_toNat_eq heq)
      obtain ⟨m₁, hturn, hnext⟩ := h.loadNext hserves hl hclear hxs (by omega)
      have hleft₁ := hnext.left
      obtain ⟨m', hrun, hend⟩ := ih hnext (by omega)
      refine ⟨m', ?_, hend⟩
      rw [Boot.loopLoadAgain, if_neg hmore, hturn, ok_bind, hrun]

/-- What is on the stack in the loop. -/
def saved (m : Cpu) (behind : BitVec 16) : List (BitVec 16) :=
  [m.si, m.di, m.dx, m.cx, m.ax, behind]

theorem saveRegisters_eq (m : Cpu) : saveRegisters m =
    { ((((m.push m.ax).push m.cx).push m.dx).push m.di).push m.si with di := m.cx } := by
  simp [saveRegisters]

/-- The registers are on the stack. -/
theorem stacked_saveRegisters (h : m.Stacked [behind]) :
    (saveRegisters m).Stacked (saved m behind) := by
  have hax := h.push (x := m.ax) (by simp)
  have hcx := hax.push (x := m.cx) (by simp)
  have hdx := hcx.push (x := m.dx) (by simp)
  have hdi := hdx.push (x := m.di) (by simp)
  have hsi := hdi.push (x := m.si) (by simp)
  rw [saveRegisters_eq]
  exact hsi

/-- The loop begins with nothing loaded. -/
theorem progress_saveRegisters (m : Cpu) (behind : BitVec 16) :
    Progress m (saved m behind) 0 (saveRegisters (m.push behind)) := by
  have hstacked : m.Stacked [] := trivial
  have hbehind : (m.push behind).Stacked [behind] := hstacked.push (by decide)
  have hsaved := stacked_saveRegisters hbehind
  rw [saveRegisters_eq] at hsaved ⊢
  exact
    { left := by simp
      next := by simp
      es := by simp
      bx := by simp
      drive := by simp
      ss := by simp
      sp := by simp [BitVec.sub_sub]
      stacked := hsaved
      requested := .zero m (by simp) }

/-- The end of `loop_load` takes back the registers that have been saved. -/
theorem endLoopLoad_eq (h : m'.Stacked (saved m behind)) :
    endLoopLoad m' = { m' with
      si := m.si, di := m.di, dx := m.dx, cx := m.cx, ax := m.ax, sp := m'.sp + 2 + 2 + 2 + 2 + 2 } ∧
    (endLoopLoad m').Stacked [behind] := by
  have hdi : Cpu.Stacked { m' with sp := m'.sp + 2, si := m.si }
      [m.di, m.dx, m.cx, m.ax, behind] := h.tail
  have hdx : Cpu.Stacked { m' with sp := m'.sp + 2 + 2, si := m.si, di := m.di }
      [m.dx, m.cx, m.ax, behind] := hdi.tail
  have hcx : Cpu.Stacked { m' with sp := m'.sp + 2 + 2 + 2, si := m.si, di := m.di, dx := m.dx }
      [m.cx, m.ax, behind] := hdx.tail
  have hax : Cpu.Stacked
      { m' with sp := m'.sp + 2 + 2 + 2 + 2, si := m.si, di := m.di, dx := m.dx, cx := m.cx }
      [m.ax, behind] := hcx.tail
  have heq : endLoopLoad m' = { m' with
      si := m.si, di := m.di, dx := m.dx, cx := m.cx, ax := m.ax,
      sp := m'.sp + 2 + 2 + 2 + 2 + 2 } := by
    rw [endLoopLoad, h.pop]
    dsimp only
    rw [hdi.pop]
    dsimp only
    rw [hdx.pop]
    dsimp only
    rw [hcx.pop]
    dsimp only
    rw [hax.pop]
    rfl
  refine ⟨heq, ?_⟩
  rw [heq]
  exact hax.tail

/-- `loop_load`, called with an offset behind the call, loads the sectors. -/
theorem loop_load_contiguous (hserves : l.Serves) (hl : Loadable m) (hclear : Clear m)
    (behind : BitVec 16) : ∃ m', m.call behind (loopLoad l) = .ok m' ∧ Loads m m' := by
  have hstart := progress_saveRegisters m behind
  obtain ⟨m₁, hrun, hend⟩ := hstart.loopLoadAgain (n := 2 ^ 16) hserves hl hclear rfl (BitVec.isLt _)
  obtain ⟨heq, htop⟩ := endLoopLoad_eq hend.stacked
  have hroutine : loopLoad l (m.push behind) = .ok (endLoopLoad m₁) := by
    rw [loopLoad, hrun]
    rfl
  have hsp : (endLoopLoad m₁).sp = m.sp - 2 := by
    rw [heq]
    change m₁.sp + 2 + 2 + 2 + 2 + 2 = m.sp - 2
    rw [hend.sp]
    bv_omega
  refine ⟨_, Cpu.call_eq hroutine hsp htop, ?_⟩
  rw [heq]
  exact ⟨hend.requested, rfl, rfl, rfl, rfl, rfl⟩

/-! ## The calls of the loader -/

/-- What the loader does before it calls `loop_load`. -/
def callSite (m : Cpu) (segment count first : BitVec 16) : Cpu :=
  let m := m.setAx segment
  let m := { m with es := m.ax }
  let m := { m with bx := 0 }
  let m := { m with si := count }
  let m := { m with cx := first }
  m.setDh 0

/-- What is loaded above `10700h` does not lie on the program, nor on a stack with `ss` at `0700h`. -/
theorem clear_of_above (hss : m.ss = 0x70) (hbase : 0x1070 ≤ m.es.toNat) (hl : Loadable m) :
    Clear m := by
  have hbuffer : m.buffer.toNat = 16 * m.es.toNat + m.bx.toNat := toNat_physical _ _
  have hes := m.es.isLt
  have hbx := m.bx.isLt
  have hsectors := hl.sectors
  have hbelow : ∀ a : Word, a.toNat < 0x10700 → ¬ Within m.buffer (512 * m.si.toNat) a := by
    intro a ha hin
    rw [Within, BitVec.toNat_sub, hbuffer] at hin
    omega
  constructor
  · intro i hi
    refine hbelow _ ?_
    have hsize : programSize = 512 := rfl
    have hbase512 : base512.toNat = 0x500 := rfl
    rw [BitVec.toNat_add, BitVec.toNat_ofNat, hbase512]
    omega
  · intro i hi
    refine hbelow _ ?_
    have hoffset := (m.sp - 16 + BitVec.ofNat 16 i).isLt
    rw [toNat_physical, hss]
    change 16 * 0x70 + _ < _
    omega

/-- A BIOS that reads the sectors of a disk. -/
def readSectors (disk : Nat → Nat → Byte) (m : Cpu) : Cpu :=
  let sector := (2 * m.request.cylinder + m.request.head) * 18 + (m.request.sector - 1)
  { m with
    ax := 1
    carry := false
    mem := fun a => if Within m.buffer 512 a then disk sector (a - m.buffer).toNat else m.mem a }

/-- A loader with such a BIOS, for examples. -/
def sample (disk : Nat → Nat → Byte) : Loader where
  int13 := readSectors disk
  behindChs := 0x90
  behindLoadSector := 0x93

theorem serves_sample (disk : Nat → Nat → Byte) : (sample disk).Serves where
  succeeds _ _ := rfl
  preserves _ _ := rfl
  memory _ _ _ _ hout := if_neg hout

/-- The machine when the loader has set up its stack, for examples. -/
def stackSet : Cpu where
  ax := 0
  bx := 0
  cx := 0
  dx := 0x80
  si := 0
  di := 0
  es := 0
  ss := 0x70
  sp := 0x5400
  carry := false
  mem := fun _ => 0
  requests := []

/-- The first call of the loader, for a GDT of four sectors. -/
theorem loop_load_contiguous_gdt :
    ∃ m', (callSite stackSet 0x1070 4 1).call 0x60 (loopLoad (sample fun _ _ => 0)) = .ok m' ∧
      Loads (callSite stackSet 0x1070 4 1) m' :=
  have hl : Loadable (callSite stackSet 0x1070 4 1) := ⟨by decide, by decide, by decide⟩
  loop_load_contiguous (serves_sample _) hl (clear_of_above rfl (by decide) hl) 0x60

/-- A sector that is loaded to the end of the stack overwrites where `do_load_sector` goes back to. -/
theorem loop_load_contiguous_fails :
    (sample fun _ _ => 0).Serves ∧ Loadable (callSite stackSet 0x5af 1 1) ∧
      ¬ ∃ m', (callSite stackSet 0x5af 1 1).call 0x60 (loopLoad (sample fun _ _ => 0)) = .ok m' ∧
        Loads (callSite stackSet 0x5af 1 1) m' := by
  refine ⟨serves_sample _, ⟨by decide, by decide, by decide⟩, ?_⟩
  rintro ⟨m', hrun, -⟩
  have hastray : ((callSite stackSet 0x5af 1 1).call 0x60
      (loopLoad (sample fun _ _ => 0))).isOk = false := by decide +kernel
  rw [hrun] at hastray
  cases hastray

end Boot

end Mycrokernel
