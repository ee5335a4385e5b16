import Mycrokernel.Hd.Watch

/-!
# The address of a sector

`read_sector` and `write_sector` split the number of a sector over four registers.  The top part is
put beside the bits that select the drive without being cut to four bits, and the only check of the
number is that the device has the sector.  `sector_address_iff` says which numbers come out right.
-/

namespace Mycrokernel

open Dialogue (RunIn Reaches)

/-- The registers of a transfer select the drive of the channel in LBA mode, and one sector with
this number by the rule for 28 bits. -/
structure Addresses (c : Channel) (number command : Word) (t : Transfer) : Prop where
  drive : t.registers.select.getLsbD 4 = !c.isMaster
  lbaMode : t.registers.select.getLsbD 6 = true
  count : t.registers.count = 1
  lba : t.registers.lba = number.toNat
  command : t.command = command.setWidth 8

/-- The transfers have the same address. -/
def SameAddress (t t' : Transfer) : Prop :=
  t.registers.select = t'.registers.select ∧ t.registers.count = t'.registers.count ∧
    t.registers.low = t'.registers.low ∧ t.registers.mid = t'.registers.mid ∧
      t.registers.high = t'.registers.high

namespace Hd

/-- The transfers have been commanded in the first part of a run, with the registers and the device
as they may be. -/
def Commands (c : Channel) (m : Hd Unit) (d : Driver) (transfers : List Transfer) : Prop :=
  ∃ ata w, Reaches (Watches c fun _ => True) ⟨ata, []⟩ (m d) w ∧ w.transfers = transfers

variable {c : Channel} {channel : Ptr} {d : Driver} {number buffer command : Word} {fuel : Nat}
  {t t' : Transfer} {transfers : List Transfer} {statuses : Word → Prop} {status : Word}

/-! ## One transfer -/

/-- A number of 28 bits comes out right, and no other. -/
theorem addresses_iff (h : Issued c number command t) :
    Addresses c number command t ↔ number.toNat < 2 ^ 28 := by
  constructor
  · intro haddress
    rw [← haddress.lba]
    exact (t.registers.select.setWidth 4 ++ t.registers.high ++ t.registers.mid ++
      t.registers.low).isLt
  · intro hnumber
    have hnames : t.registers.Names c ⟨2 ^ 28, le_rfl, fun _ _ => 0⟩ := h.named.names hnumber
    exact ⟨hnames.2.2.1, hnames.2.1, hnames.1, h.named.lba hnumber, h.command⟩

theorem sameAddress_of_issued {command' : Word} (h : Issued c number command t)
    (h' : Issued c number command' t') : SameAddress t t' :=
  ⟨h.named.select.trans h'.named.select.symm, h.named.count.trans h'.named.count.symm,
    h.named.low.trans h'.named.low.symm, h.named.mid.trans h'.named.mid.symm,
    h.named.high.trans h'.named.high.symm⟩

/-! ## Runs -/

theorem issued_of_atMost {w : Watch} (h : AtMost c number command [] w) :
    ∀ t ∈ w.transfers, Issued c number command t := by
  obtain hnone | ⟨t, ht, hissued⟩ := h
  · rw [hnone]
    exact fun t ht => absurd ht List.not_mem_nil
  · rw [ht]
    exact List.forall_mem_singleton.mpr hissued

theorem issued_readSector (hc : d.channels channel = c)
    (h : Commands c (readSector fuel number channel buffer) d transfers) :
    ∀ t ∈ transfers, Issued c number commandReadsectors t := by
  obtain ⟨ata, w, hreaches, rfl⟩ := h
  exact issued_of_atMost ((steady_readSector hc).holds d _ w ⟨rfl, rfl, rfl⟩ hreaches)

theorem issued_writeSector (hc : d.channels channel = c)
    (h : Commands c (writeSector fuel number channel buffer) d transfers) :
    ∀ t ∈ transfers, Issued c number commandWritesectors t := by
  obtain ⟨ata, w, hreaches, rfl⟩ := h
  exact issued_of_atMost ((steady_writeSector hc).holds d _ w ⟨rfl, rfl, rfl⟩ hreaches)

/-- Without an ATA device nothing is commanded. -/
theorem commands_not_ata {transfer : Channel → Nat → Hd Unit} (hc : d.channels channel = c)
    (hata : c.controller ≠ .ata)
    (h : Commands c (transferSector command transfer fuel number channel) d transfers) :
    transfers = [] := by
  obtain ⟨ata, w, hreaches, rfl⟩ := h
  rw [transferSector_not_ata hc hata] at hreaches
  rw [hreaches.of_done]

/-- The device may serve a request at once, and show the status. -/
theorem willing_watches (hstatus : statuses status) : Willing (Watches c statuses) status :=
  fun _ _ => ⟨⟨status, 0⟩, _, .inr ⟨rfl, rfl, fun _ => hstatus⟩, rfl, fun _ _ => rfl⟩

/-- There is a run in which the transfer is commanded. -/
theorem exists_commands (hc : d.channels channel = c) (hata : c.controller = .ata)
    (hnumber : number < c.lbaSectors) (hok : hasFailed d.error = false) (buffer : Word) :
    ∃ t, Commands c (readSector 1 number channel buffer) d [t] ∧
      Issued c number commandReadsectors t := by
  have hwilling : Willing (Watches c fun _ => True) bitDrq := willing_watches trivial
  have hpasses : Passes (Watches c fun _ => True) (Unfailed d.channels)
      (readSector 1 number channel buffer) fun _ => Unfailed d.channels :=
    passes_readSector hwilling (by decide) hc hata hnumber
  obtain ⟨w, ⟨_, d'⟩, hrun, _, rfl, hunfailed⟩ :=
    hpasses d ⟨⟨0, 0, 0, 0, 0, false, []⟩, []⟩ ⟨hok, rfl⟩
  obtain ⟨t, hreads⟩ := (steady_readSector hc).triple d _ ⟨rfl, rfl, rfl⟩ _ _ hrun hunfailed.1
  exact ⟨t, ⟨_, w, hrun.reaches, hreads.transfers⟩, hreads.issued⟩

theorem lt_of_addresses (hc : d.channels channel = c) (hata : c.controller = .ata)
    (hnumber : number < c.lbaSectors) (hok : hasFailed d.error = false)
    (h : ∀ fuel buffer transfers, Commands c (readSector fuel number channel buffer) d transfers →
      ∀ t ∈ transfers, Addresses c number commandReadsectors t) : number.toNat < 2 ^ 28 := by
  obtain ⟨t, hcommands, hissued⟩ := exists_commands hc hata hnumber hok 0
  exact (addresses_iff hissued).1 (h _ _ _ hcommands t (List.mem_singleton.mpr rfl))

/-- For a sector that the device has, all transfers that the two functions command address it, and
in the same way, if and only if its number has 28 bits, or the device takes no commands. -/
theorem sector_address_iff (hc : d.channels channel = c)
    (hnumber : number < c.lbaSectors) (hok : hasFailed d.error = false) :
    (∀ fuel buffer transfers, Commands c (readSector fuel number channel buffer) d transfers →
        ∀ t ∈ transfers, Addresses c number commandReadsectors t) ∧
      (∀ fuel buffer transfers, Commands c (writeSector fuel number channel buffer) d transfers →
        ∀ t ∈ transfers, Addresses c number commandWritesectors t) ∧
      (∀ fuel fuel' buffer buffer' transfers transfers',
        Commands c (readSector fuel number channel buffer) d transfers →
        Commands c (writeSector fuel' number channel buffer') d transfers' →
        ∀ t ∈ transfers, ∀ t' ∈ transfers', SameAddress t t') ↔
    (c.controller = .ata → number.toNat < 2 ^ 28) := by
  constructor
  · exact fun h hata => lt_of_addresses hc hata hnumber hok h.1
  · intro hcondition
    have hlt : ∀ {command : Word} {transfer : Channel → Nat → Hd Unit} {fuel : Nat}
        {transfers : List Transfer} {t : Transfer},
        Commands c (transferSector command transfer fuel number channel) d transfers →
        t ∈ transfers → number.toNat < 2 ^ 28 := by
      intro command transfer fuel transfers t h ht
      refine hcondition (by_contra fun hata => ?_)
      rw [commands_not_ata hc hata h] at ht
      exact List.not_mem_nil ht
    refine ⟨fun _ _ _ h t ht => ?_, fun _ _ _ h t ht => ?_, fun _ _ _ _ _ _ h h' t ht t' ht' => ?_⟩
    · exact (addresses_iff (issued_readSector hc h t ht)).2 (hlt h ht)
    · exact (addresses_iff (issued_writeSector hc h t ht)).2 (hlt h ht)
    · exact sameAddress_of_issued (issued_readSector hc h t ht) (issued_writeSector hc h' t' ht')

/-- A driver for a master with this number of sectors. -/
def withSectors (lbaSectors : Word) : Driver :=
  { (default : Driver) with channels := fun _ => { controller := .ata, lbaSectors, busInfo := 3 } }

/-- The last sector of a disk of 128 GiB. -/
theorem sector_address_last : ∃ t,
    Commands ((withSectors 0x10000000).channels 0) (readSector 1 0xfffffff 0 0x1000)
      (withSectors 0x10000000) [t] ∧
    Addresses ((withSectors 0x10000000).channels 0) 0xfffffff commandReadsectors t := by
  have hc : (withSectors 0x10000000).channels 0 = (withSectors 0x10000000).channels 0 := rfl
  have hnumber : (0xfffffff : Word) < ((withSectors 0x10000000).channels 0).lbaSectors := by decide
  obtain ⟨t, hcommands, -⟩ := exists_commands hc rfl hnumber rfl 0x1000
  have haddresses := ((sector_address_iff hc hnumber rfl).2 fun _ => by decide).1
  exact ⟨t, hcommands, haddresses _ _ _ hcommands t (List.mem_singleton.mpr rfl)⟩

/-- The sector behind it, on a larger disk, is not addressed: the registers select the slave. -/
theorem sector_address_fails : ¬ ∀ fuel buffer transfers,
    Commands ((withSectors 0x10000001).channels 0) (readSector fuel 0x10000000 0 buffer)
      (withSectors 0x10000001) transfers →
    ∀ t ∈ transfers,
      Addresses ((withSectors 0x10000001).channels 0) 0x10000000 commandReadsectors t :=
  fun h => absurd (lt_of_addresses (show (withSectors 0x10000001).channels 0 = _ from rfl) rfl
    (by decide) rfl h) (by decide)

end Hd

end Mycrokernel
