import Arm64OS.Kernel.UserSpace

/-!
# Turning the MMU on

`cpu_init`, `enable_mmu` and `paging_init` of `arch/arm64/mach-rpi/mmu.c`, and what the
registers that they write make the MMU do with an address.  The tables, `TCR_EL1` and
`MAIR_EL1` have to fit together: the registers say how many levels there are, how long a
physical address may be and what kind of memory an `AttrIndx` stands for.

`memoryMap` says what the kernel wants of all this: text that can be read and executed, memory
and devices that can be read and written, each address at itself, and nothing else.  The MMU
does just that after `paging_init`, and goes on doing it whatever the kernel does next.
-/

namespace Arm64OS

/-! ### The registers -/

/-- The registers that `cpu_init` and `enable_mmu` write, and `TTBR1_EL1`, which they do not. -/
structure MmuRegs where
  cpacr : U64
  mdscr : U64
  mair : U64
  tcr : U64
  ttbr0 : U64
  ttbr1 : U64
  sctlr : U64

/-- `MAIR`. -/
def mairAttr (attr mt : U64) : U64 := attr <<< (mt * 8#64)

def mtDeviceNGnRE : U64 := 1#64

def mtDeviceGRE : U64 := 2#64

def mtNormalNc : U64 := 3#64

def mtNormalWt : U64 := 5#64

/-- `TCR_TxSZ`. -/
def tcrTxsz (x : U64) : U64 := ((64#64 - x) <<< 0) ||| ((64#64 - x) <<< 16)

/-- `TCR_TG_FLAGS`: `TCR_TG0_4K` and `TCR_TG1_4K`. -/
def tcrTgFlags : U64 := (0#64 <<< 14) ||| (2#64 <<< 30)

def tcrIpsShift : Nat := 32

/-- `ID_AA64MMFR0_PARANGE_48`. -/
def idAa64mmfr0Parange48 : U64 := 5#64

/-- `ID_AA64MMFR0_TGRAN4_SHIFT`. -/
def idAa64mmfr0Tgran4Shift : Nat := 28

/-- `ID_AA64MMFR0_TGRAN4_SUPPORTED`. -/
def idAa64mmfr0Tgran4Supported : U64 := 0#64

/-- `SCTLR_ELx_M`. -/
def sctlrElxM : U64 := 1#64 <<< 0

/-- `parang` of `cpu_init`: the range that the CPU has, up to 48 bits. -/
def parang (mmfr0 : U64) : U64 :=
  let parang := mmfr0 &&& 0xf#64
  if idAa64mmfr0Parange48 < parang then idAa64mmfr0Parange48 else parang

/-- `cpu_init`, where `ID_AA64MMFR0_EL1` reads as `mmfr0`. -/
def cpuInit (mmfr0 : U64) (r : MmuRegs) : MmuRegs :=
  { r with
    cpacr := 3#64 <<< 20
    mdscr := 1#64 <<< 12
    mair := mairAttr 0x00#64 mtDeviceNGnRnE ||| mairAttr 0x04#64 mtDeviceNGnRE |||
      mairAttr 0x0c#64 mtDeviceGRE ||| mairAttr 0x44#64 mtNormalNc |||
      mairAttr 0xff#64 mtNormal ||| mairAttr 0xbb#64 mtNormalWt
    tcr := tcrTxsz (BitVec.ofNat 64 vaBits) ||| tcrTgFlags ||| parang mmfr0 <<< tcrIpsShift }

/-- `tgran4 == ID_AA64MMFR0_TGRAN4_SUPPORTED`. -/
def HasPages (mmfr0 : U64) : Prop :=
  (mmfr0 >>> idAa64mmfr0Tgran4Shift) &&& 0xf#64 = idAa64mmfr0Tgran4Supported

instance (mmfr0 : U64) : Decidable (HasPages mmfr0) := by
  unfold HasPages
  infer_instance

def enableMmu (mmfr0 idmapPgdDir : U64) (r : MmuRegs) : Int × MmuRegs :=
  if ¬ HasPages mmfr0 then (-1, r)
  else (0, { r with ttbr0 := idmapPgdDir, sctlr := sctlrElxM })

/-- `memset(idmap_pgd_dir, 0, PAGE_SIZE)`, in a memory where nothing has happened yet. -/
def PgState.cleared (mem : U64 → U64) (pgdir : U64) : PgState :=
  ⟨fun a => if a - pgdir < pageSize then 0#64 else mem a, 0, []⟩

/-- `paging_init`; it does not look at what `enable_mmu` returns. -/
def pagingInit (memMap : PageMap) (fuel : Nat) (img : Layout) (board : Board) (mmfr0 : U64)
    (mem : U64 → U64) (r : MmuRegs) : Option (PgState × MmuRegs) :=
  (createIdentityMapping memMap fuel img (PgState.cleared mem img.idmapPgdDir)).bind fun s =>
    (createMmioMapping memMap fuel img board s).map fun s =>
      (s, (enableMmu mmfr0 img.idmapPgdDir (cpuInit mmfr0 r)).2)

/-! ### The MMU -/

inductive AccessKind
  | fetch
  | load
  | store
  deriving DecidableEq

/-- What a leaf allows: `AP[1]` opens it to EL0, `AP[2]` closes it to stores.  What EL0 may
write, EL1 does not execute. -/
def Leaf.allows (l : Leaf) (el1 : Bool) : AccessKind → Bool
  | .fetch => if el1 then l.execEl1 && !(l.el0 && l.writable) else l.execEl0
  | .load => el1 || l.el0
  | .store => (el1 || l.el0) && l.writable

namespace MmuRegs

variable (r : MmuRegs)

def on : Bool := r.sctlr &&& sctlrElxM ≠ 0#64

/-- The width of a physical address, from `IPS`. -/
def paBits : Nat := [32, 36, 40, 42, 44].getD ((r.tcr >>> 32) &&& 7#64).toNat 48

/-- The attribute of `MAIR_EL1` that a leaf names. -/
def attr (l : Leaf) : BitVec 8 := (r.mair >>> ((l.attrIndx >>> 2) * 8#64)).setWidth 8

/-- The table that serves `va`, if four levels of 4 KiB tables do: `T0SZ` or `T1SZ` asks for
48 bits, `TG0` or `TG1` for 4 KiB, the walk is not disabled and no tag is ignored. -/
def table (va : U64) : Option U64 :=
  if r.tcr &&& 0x3f#64 = 16#64 ∧ (r.tcr >>> 14) &&& 3#64 = 0#64 ∧ r.tcr &&& (1#64 <<< 7) = 0#64 ∧
      r.tcr &&& (1#64 <<< 37) = 0#64 ∧ va >>> 48 = 0#64 then
    some (r.ttbr0 &&& pteAddrMask)
  else if (r.tcr >>> 16) &&& 0x3f#64 = 16#64 ∧ (r.tcr >>> 30) &&& 3#64 = 2#64 ∧
      r.tcr &&& (1#64 <<< 23) = 0#64 ∧ r.tcr &&& (1#64 <<< 38) = 0#64 ∧
      va >>> 48 = 0xffff#64 then
    some (r.ttbr1 &&& pteAddrMask)
  else none

/-- The physical address and the memory attribute for an access, `none` where it faults.  The
access flag is not managed by the hardware, so it has to be set. -/
def walk (s : PgState) (el1 : Bool) (kind : AccessKind) (va : U64) : Option (U64 × BitVec 8) :=
  (r.table va).bind fun pgd =>
    (lookup s pgd va).bind fun l =>
      if l.entry &&& pteAf ≠ 0#64 ∧ (l.translate va).toNat < 2 ^ r.paBits ∧ l.allows el1 kind then
        some (l.translate va, r.attr l)
      else none

end MmuRegs

/-! ### The memory map of the kernel -/

inductive Region
  | text
  | memory
  | devices
  deriving DecidableEq

namespace Region

def allows : Region → AccessKind → Bool
  | .text, kind => kind ≠ .store
  | .memory, kind => kind ≠ .fetch
  | .devices, kind => kind ≠ .fetch

/-- Device-nGnRnE, or normal memory that is cached. -/
def attr : Region → BitVec 8
  | .text => 0xff#8
  | .memory => 0xff#8
  | .devices => 0x00#8

end Region

def Layout.region (img : Layout) (board : Board) (va : U64) : Option Region :=
  if img.textBootStart ≤ va ∧ va < img.textEnd then some .text
  else if img.textEnd ≤ va ∧ va < totalMemory then some .memory
  else if pbase board ≤ va ∧ va < pbase board + deviceSize then some .devices
  else none

/-- The width of the physical addresses that `PARange` stands for, up to 48 bits. -/
def paRangeBits (mmfr0 : U64) : Nat := [32, 36, 40, 42, 44].getD (mmfr0 &&& 0xf#64).toNat 48

/-- What the kernel may do at EL1: each address of the three regions leads to itself. -/
def memoryMap (img : Layout) (board : Board) (bits : Nat) (kind : AccessKind) (va : U64) :
    Option (U64 × BitVec 8) :=
  (img.region board va).bind fun region =>
    if va.toNat < 2 ^ bits ∧ region.allows kind then some (va, region.attr) else none

/-- The MMU serves EL1 as the map says, and EL0 not at all, with all but the upper addresses,
which are left to `TTBR1_EL1`. -/
def ServesMap (img : Layout) (board : Board) (mmfr0 : U64) (r : MmuRegs) (s : PgState) : Prop :=
  ∀ (va : U64) (kind : AccessKind), va >>> 48 ≠ 0xffff#64 →
    r.walk s true kind va = memoryMap img board (paRangeBits mmfr0) kind va ∧
      r.walk s false kind va = none

/-! ### What the registers say -/

/-- Six values of `PARange` are left. -/
theorem parang_cases (mmfr0 : U64) :
    ∃ i < 6, parang mmfr0 = BitVec.ofNat 64 i ∧
      paRangeBits mmfr0 = [32, 36, 40, 42, 44].getD i 48 := by
  by_cases hbig : idAa64mmfr0Parange48 < mmfr0 &&& 0xf#64
  · have hlt : 5 < (mmfr0 &&& 0xf#64).toNat := hbig
    refine ⟨5, by decide, by rw [parang, if_pos hbig]; rfl, ?_⟩
    rw [paRangeBits, List.getD_eq_getElem?_getD, List.getElem?_eq_none (by simpa using hlt.le)]
    rfl
  · have hle : (mmfr0 &&& 0xf#64).toNat ≤ 5 := Nat.le_of_not_lt hbig
    refine ⟨(mmfr0 &&& 0xf#64).toNat, by omega, ?_, rfl⟩
    rw [parang, if_neg hbig, BitVec.ofNat_toNat, BitVec.setWidth_eq]

section Registers

variable {mmfr0 idmapPgdDir : U64} {r : MmuRegs}

/-- `cpu_init` writes other registers than `enable_mmu`. -/
theorem enableMmu_cpuInit (h : HasPages mmfr0) :
    (enableMmu mmfr0 idmapPgdDir (cpuInit mmfr0 r)).2 =
      cpuInit mmfr0 { r with ttbr0 := idmapPgdDir, sctlr := sctlrElxM } := by
  rw [enableMmu, if_neg (not_not.mpr h)]
  rfl

theorem tcr_cpuInit (mmfr0 : U64) (r : MmuRegs) :
    (cpuInit mmfr0 r).tcr = 0x80100010#64 ||| parang mmfr0 <<< tcrIpsShift := rfl

theorem paBits_cpuInit (mmfr0 : U64) (r : MmuRegs) :
    (cpuInit mmfr0 r).paBits = paRangeBits mmfr0 := by
  obtain ⟨i, hi, hparang, hbits⟩ := parang_cases mmfr0
  rw [MmuRegs.paBits, tcr_cpuInit, hparang, hbits]
  interval_cases i <;> decide

/-- The lower addresses are served by `TTBR0_EL1`, those in between by no table. -/
theorem table_cpuInit (mmfr0 : U64) (r : MmuRegs) {va : U64} (hva : va >>> 48 ≠ 0xffff#64) :
    (cpuInit mmfr0 r).table va =
      if va >>> 48 = 0#64 then some (r.ttbr0 &&& pteAddrMask) else none := by
  obtain ⟨i, hi, hparang, -⟩ := parang_cases mmfr0
  have hfields : (cpuInit mmfr0 r).tcr &&& 0x3f#64 = 16#64 ∧
      ((cpuInit mmfr0 r).tcr >>> 14) &&& 3#64 = 0#64 ∧
      (cpuInit mmfr0 r).tcr &&& (1#64 <<< 7) = 0#64 ∧
      (cpuInit mmfr0 r).tcr &&& (1#64 <<< 37) = 0#64 := by
    rw [tcr_cpuInit, hparang]
    interval_cases i <;> decide
  obtain ⟨hsize, hgranule, hwalk, htag⟩ := hfields
  simp only [MmuRegs.table, hsize, hgranule, hwalk, htag, hva, true_and, and_false, if_false]
  rfl

theorem mair_cpuInit (mmfr0 : U64) (r : MmuRegs) :
    (cpuInit mmfr0 r).mair = 0xbbff440c0400#64 := rfl

end Registers

/-! ### Regions and mappings -/

namespace Region

variable {img : Layout} {board : Board} {region : Region} {va : U64}

/-- The call of `__create_pgd_mapping` for a region. -/
def mapping (img : Layout) (board : Board) : Region → Mapping
  | .text => img.textMapping
  | .memory => img.memoryMapping
  | .devices => mmioMapping board

theorem mapping_mem (region : Region) : region.mapping img board ∈ kernelMappings img board := by
  cases region <;> simp [mapping, kernelMappings]

/-- The protection of a region. -/
def prot : Region → U64
  | .text => pageKernelRox
  | .memory => pageKernel
  | .devices => protDeviceNGnRnE

theorem mapping_prot (region : Region) : (region.mapping img board).prot = region.prot := by
  cases region <;> rfl

/-- A leaf with the protection of a region allows EL1 what the region allows, and EL0 nothing. -/
theorem allows_of_attrs {l : Leaf} (h : attrs l.entry = attrs region.prot) (kind : AccessKind) :
    l.allows true kind = region.allows kind ∧ l.allows false kind = false := by
  obtain ⟨hw, hx, -⟩ := Leaf.perms_of_attrs h
  obtain ⟨hel0, hexec⟩ := Leaf.el0_of_attrs h
  cases kind <;> cases region <;>
    simp only [Leaf.allows, hw, hx, hel0, hexec] <;> decide

theorem attr_of_attrs {l : Leaf} (h : attrs l.entry = attrs region.prot) (mmfr0 : U64)
    (r : MmuRegs) : (cpuInit mmfr0 r).attr l = region.attr := by
  obtain ⟨-, -, hindx⟩ := Leaf.perms_of_attrs h
  rw [MmuRegs.attr, mair_cpuInit, hindx]
  cases region <;> decide

theorem af_of_attrs {l : Leaf} (h : attrs l.entry = attrs region.prot) :
    l.entry &&& pteAf ≠ 0#64 := by
  rw [and_attrs (by decide), h, ← and_attrs (by decide)]
  cases region <;> decide

end Region

theorem Layout.region_eq_some_iff (img : Layout) (board : Board) (va : U64) (region : Region) :
    img.region board va = some region ↔ (region.mapping img board).Covers va.toNat := by
  obtain ⟨htext, htext'⟩ := textMapping_range img
  obtain ⟨hmemory, hmemory'⟩ := memoryMapping_range img
  obtain ⟨hmmio, hmmio'⟩ := mmioMapping_range board
  have htotal : totalMemory.toNat ≤ (pbase board).toNat := by cases board <;> decide
  have hstart := img.start_lt
  have hend : img.textEnd.toNat ≤ totalMemory.toNat := img.end_le.trans (by decide)
  cases region
  all_goals
    simp only [Layout.region, Region.mapping, Mapping.Covers, BitVec.le_def, BitVec.lt_def, *]
    grind

/-! ### The tables and the registers together -/

theorem toNat_of_shiftRight {va : U64} (h : va >>> 48 = 0#64) : va.toNat < 2 ^ 48 := by
  have hnat := congrArg BitVec.toNat h
  rw [BitVec.toNat_ushiftRight, Nat.shiftRight_eq_div_pow] at hnat
  exact Nat.lt_of_div_eq_zero (by decide) hnat

theorem shiftRight_of_toNat {va : U64} (h : va.toNat < 2 ^ 48) : va >>> 48 = 0#64 := by
  apply BitVec.eq_of_toNat_eq
  rw [BitVec.toNat_ushiftRight, Nat.shiftRight_eq_div_pow, Nat.div_eq_of_lt h]
  rfl

theorem start_cleared (mem : U64 → U64) (img : Layout) :
    Start img.idmapPgdDir (PgState.cleared mem img.idmapPgdDir) :=
  ⟨img.pgd_aligned, fun _ ha => if_pos ha, rfl, rfl⟩

section Walk

variable {img : Layout} {board : Board} {mmfr0 va : U64} {r : MmuRegs} {root : TablePage}
  {alloc : Nat → U64} {s : PgState}

/-- An address of a region leads to itself, with the bits of the protection. -/
theorem Mapped.region {region : Region} (h : Mapped alloc root (kernelMappings img board) s)
    (hva : (region.mapping img board).Covers va.toNat) :
    ∃ l, lookup s root.base va = some l ∧ l.translate va = va ∧
      attrs l.entry = attrs region.prot := by
  have hmem : region.mapping img board ∈ kernelMappings img board := Region.mapping_mem region
  have hproper := kernelMappings_proper img board _ hmem
  have hlow := lowBits_of_lt (Nat.lt_of_lt_of_le hva.2 hproper.inRange.2)
  have hview := h.lookup_in va hmem hproper (hlow.symm ▸ hva)
  obtain ⟨l, hl, hsays⟩ := Option.map_eq_some_iff.mp hview
  obtain ⟨himage, hattrs⟩ := Prod.mk.inj hsays
  have hidentity :
      (region.mapping img board).phys &&& pageMask = (region.mapping img board).addr := by
    cases region <;> rfl
  refine ⟨l, hl, ?_, hattrs.trans (by rw [Region.mapping_prot])⟩
  rw [himage, hlow, hidentity, BitVec.add_comm, BitVec.sub_add_cancel]

theorem Mapped.no_region (h : Mapped alloc root (kernelMappings img board) s)
    (hva : va.toNat < 2 ^ 48) (hnone : img.region board va = none) :
    lookup s root.base va = none := by
  have hoff : ∀ region : Region, ¬ (region.mapping img board).Covers va.toNat := by
    intro region hcovers
    rw [(img.region_eq_some_iff board va region).mpr hcovers] at hnone
    cases hnone
  refine h.lookup_off va ?_
  rw [lowBits_of_lt hva]
  exact forall_kernelMappings (hoff .text) (hoff .memory) (hoff .devices)

/-- The address field of `TTBR0_EL1` holds the page as it is. -/
theorem Layout.ttbr_base (img : Layout) (hr : r.ttbr0 = img.idmapPgdDir) :
    r.ttbr0 &&& pteAddrMask = img.idmapPgdDir := by
  have hle := img.pgd_le
  rw [lowMemory_toNat] at hle
  rw [hr, and_pteAddrMask_of_aligned img.pgd_aligned (by omega)]

/-- The tables and the registers make the MMU serve the map. -/
theorem Mapped.servesMap (h : Mapped alloc ⟨img.idmapPgdDir, img.pgd_aligned⟩
      (kernelMappings img board) s) (mmfr0 : U64) (hr : r.ttbr0 = img.idmapPgdDir) :
    ServesMap img board mmfr0 (cpuInit mmfr0 r) s := by
  intro va kind hva
  have hbase := img.ttbr_base hr
  cases hregion : img.region board va with
  | none =>
      have hmap : memoryMap img board (paRangeBits mmfr0) kind va = none := by
        rw [memoryMap, hregion, Option.bind_none]
      have hfault : ∀ el1, (cpuInit mmfr0 r).walk s el1 kind va = none := by
        intro el1
        rw [MmuRegs.walk, table_cpuInit mmfr0 r hva]
        by_cases hzero : va >>> 48 = 0#64
        · rw [if_pos hzero, Option.bind_some, hbase,
            h.no_region (toNat_of_shiftRight hzero) hregion,
            Option.bind_none]
        · rw [if_neg hzero, Option.bind_none]
      exact ⟨(hfault true).trans hmap.symm, hfault false⟩
  | some region =>
      have hcovers := (img.region_eq_some_iff board va region).mp hregion
      have hbelow := (kernelMappings_proper img board _ (Region.mapping_mem region)).inRange.2
      have hzero : va >>> 48 = 0#64 := shiftRight_of_toNat (Nat.lt_of_lt_of_le hcovers.2 hbelow)
      obtain ⟨l, hl, himage, hattrs⟩ := h.region hcovers
      have hwalk : ∀ el1, (cpuInit mmfr0 r).walk s el1 kind va =
          if va.toNat < 2 ^ paRangeBits mmfr0 ∧ l.allows el1 kind then some (va, region.attr)
          else none := by
        intro el1
        have haf := Region.af_of_attrs hattrs
        rw [MmuRegs.walk, table_cpuInit mmfr0 r hva, if_pos hzero, Option.bind_some, hbase, hl,
          Option.bind_some, himage, paBits_cpuInit, Region.attr_of_attrs hattrs]
        simp only [haf, ne_eq, not_false_eq_true, true_and]
      obtain ⟨hel1, hel0⟩ := Region.allows_of_attrs hattrs kind
      constructor
      · rw [hwalk, hel1, memoryMap, hregion, Option.bind_some]
      · rw [hwalk, hel0]
        simp

/-- The map is served for as long as the tables are the same. -/
theorem ServesMap.congr {s' : PgState} (h : ServesMap img board mmfr0 (cpuInit mmfr0 r) s)
    (hr : r.ttbr0 = img.idmapPgdDir)
    (hsame : ∀ va, lookup s' img.idmapPgdDir va = lookup s img.idmapPgdDir va) :
    ServesMap img board mmfr0 (cpuInit mmfr0 r) s' := by
  intro va kind hva
  have hwalk : ∀ el1,
      (cpuInit mmfr0 r).walk s' el1 kind va = (cpuInit mmfr0 r).walk s el1 kind va := by
    intro el1
    rw [MmuRegs.walk, MmuRegs.walk, table_cpuInit mmfr0 r hva, img.ttbr_base hr]
    by_cases hzero : va >>> 48 = 0#64
    · rw [if_pos hzero, Option.bind_some, Option.bind_some, hsame]
    · rw [if_neg hzero, Option.bind_none, Option.bind_none]
  rw [hwalk, hwalk]
  exact h va kind hva

end Walk

/-! ### Runs -/

/-- The three ranges are mapped when `get_free_page` has enough pages. -/
theorem kernelMapped_of_calls {layout : Layout} {board : Board} {memMap : PageMap} {fuel : Nat}
    {s pg : PgState} (hfuel : 512 ≤ fuel) (hstart : Start layout.idmapPgdDir s)
    (hfree : enoughTables ≤ (freePages memMap).card)
    (hcalls : (createIdentityMapping memMap fuel layout s).bind
      (createMmioMapping memMap fuel layout board) = some pg) :
    Mapped (tablePage memMap) ⟨layout.idmapPgdDir, layout.pgd_aligned⟩
      (kernelMappings layout board) pg := by
  obtain ⟨pg', hcalls', hall⟩ := exists_kernelMapped memMap layout board hfuel hstart
  obtain rfl : pg' = pg := Option.some.inj (hcalls'.symm.trans hcalls)
  have hcount := kernelMappings_takes layout board hcalls
  rw [hstart.allocs] at hcount
  exact hall fun i hi => tablePage_ne_zero (by omega)

/-- What `paging_init` leaves on a CPU with pages of 4 KiB. -/
theorem exists_pagingInit (layout : Layout) (board : Board) {memMap : PageMap} {fuel : Nat}
    (hfuel : 512 ≤ fuel) (hfree : enoughTables ≤ (freePages memMap).card) {mmfr0 : U64}
    (hpages : HasPages mmfr0) (mem : U64 → U64) (r : MmuRegs) :
    ∃ pg, pagingInit memMap fuel layout board mmfr0 mem r =
        some (pg, cpuInit mmfr0 { r with ttbr0 := layout.idmapPgdDir, sctlr := sctlrElxM }) ∧
      Mapped (tablePage memMap) ⟨layout.idmapPgdDir, layout.pgd_aligned⟩
        (kernelMappings layout board) pg ∧
      ∀ i < pg.allocs, tablePage memMap i ≠ 0#64 := by
  have hstart := start_cleared mem layout
  obtain ⟨pg, hcalls, -⟩ := exists_kernelMapped memMap layout board hfuel hstart
  have hcount := kernelMappings_takes layout board hcalls
  rw [hstart.allocs] at hcount
  refine ⟨pg, ?_, kernelMapped_of_calls hfuel hstart hfree hcalls,
    fun i hi => tablePage_ne_zero (by omega)⟩
  obtain ⟨s, hidentity, hmmio⟩ := Option.bind_eq_some_iff.mp hcalls
  rw [pagingInit, hidentity, Option.bind_some, hmmio, Option.map_some, enableMmu_cpuInit hpages]

/-- **`paging_init`, and everything after it.**  It returns, whatever the memory and the registers
hold.  Where the CPU has pages of 4 KiB, the MMU is on and serves the map, and it still does after
any run of calls of the kernel; where it has none, the registers that turn the MMU on are left
alone. -/
theorem pagingInit_run (img : Image) (layout : Layout) (board : Board) {memMap : PageMap}
    {fuel : Nat} (hfuel : 512 ≤ fuel) (hfree : enoughTables ≤ (freePages memMap).card)
    (mmfr0 : U64) (mem : U64 → U64) (r : MmuRegs) :
    ∃ pg r', pagingInit memMap fuel layout board mmfr0 mem r = some (pg, r') ∧
      (HasPages mmfr0 → r'.on = true ∧
        ∀ (k : Kernel) (ops : List UserOp) (t : UserState),
          Run.exec (userStep img (tablePage memMap) layout.idmapPgdDir) ops
              (UserState.start memMap pg k) = some t →
            ServesMap layout board mmfr0 r' t.pg) ∧
      (¬ HasPages mmfr0 → r'.sctlr = r.sctlr ∧ r'.ttbr0 = r.ttbr0) := by
  have hstart := start_cleared mem layout
  obtain ⟨pg, hcalls, hinv, -, hstay⟩ := exists_tables layout board hfuel hstart hfree
  have hinit : pagingInit memMap fuel layout board mmfr0 mem r =
      some (pg, (enableMmu mmfr0 layout.idmapPgdDir (cpuInit mmfr0 r)).2) := by
    obtain ⟨s, hidentity, hmmio⟩ := Option.bind_eq_some_iff.mp hcalls
    rw [pagingInit, hidentity, Option.bind_some, hmmio, Option.map_some]
  refine ⟨pg, _, hinit, fun hpages => ?_, fun hpages => ?_⟩
  · have hmapped := kernelMapped_of_calls hfuel hstart hfree hcalls
    rw [enableMmu_cpuInit hpages]
    have hon : decide (sctlrElxM &&& sctlrElxM ≠ 0#64) = true := by decide
    refine ⟨hon, fun k ops t hrun => ?_⟩
    -- the tables stay as they are, step by step
    have hkept : TablesStay (tablePage memMap) layout.idmapPgdDir pg t :=
      Run.Reachable.invariant (fun op t t' h hstep => h.step layout.pgd_le hstep) ⟨ops, hrun⟩
        (hstay k)
    exact (hmapped.servesMap mmfr0 rfl).congr rfl (lookup_congr hinv hkept.same)
  · rw [enableMmu, if_pos hpages]
    exact ⟨rfl, rfl⟩

theorem pagingInit_run_small :
    ∃ pg r', pagingInit (fun _ => 0#8) 512 smallLayout .bcm2711 0x10305#64 (fun _ => 0#64)
        ⟨0, 0, 0, 0, 0, 0, 0⟩ = some (pg, r') ∧
      r'.walk pg true .fetch 0x80004#64 = some (0x80004#64, 0xff#8) ∧
      r'.walk pg true .store 0x80004#64 = none ∧
      r'.walk pg false .fetch 0x80004#64 = none ∧
      r'.walk pg true .store 0xFE201000#64 = some (0xFE201000#64, 0x00#8) := by
  have hfree : enoughTables ≤ (freePages fun _ => 0#8).card := enoughTables_of_free fun _ => rfl
  obtain ⟨pg, r', hinit, hon, -⟩ := pagingInit_run Image.sample smallLayout .bcm2711 le_rfl hfree
    0x10305#64 (fun _ => 0#64) ⟨0, 0, 0, 0, 0, 0, 0⟩
  obtain ⟨-, hserves⟩ := hon (by decide)
  have hmap := hserves Kernel.blank [] _ rfl
  obtain ⟨hfetch, hfetch'⟩ := hmap 0x80004#64 .fetch (by decide)
  obtain ⟨hstore, -⟩ := hmap 0x80004#64 .store (by decide)
  obtain ⟨hdevice, -⟩ := hmap 0xFE201000#64 .store (by decide)
  exact ⟨pg, r', hinit, hfetch.trans (by decide), hstore.trans (by decide), hfetch',
    hdevice.trans (by decide)⟩

end Arm64OS
