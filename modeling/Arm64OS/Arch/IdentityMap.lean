import Arm64OS.Mm.PageAlloc
import Arm64OS.Arch.MmuBlocks

/-!
# The mappings of the kernel

`create_identity_mapping` and `create_mmio_mapping` of `arch/arm64/mach-rpi/mmu.c`, with the
protections of `asm/pgtable_prot.h` and tables from `get_free_page`.  The text, the rest of
the memory and the devices are three ranges that are apart, whatever the image looks like; so
what the MMU finds in each of them is what the call for it asked for.
-/

namespace Arm64OS

/-! ### Protections -/

/-- `PTE_USER`: `AP[1]`. -/
def pteUser : U64 := 1#64 <<< 6

/-- `PTE_RDONLY`: `AP[2]`. -/
def pteRdonly : U64 := 1#64 <<< 7

def pteShared : U64 := 3#64 <<< 8

def pteAf : U64 := 1#64 <<< 10

/-- `PTE_DBM`, which is also `PTE_WRITE`. -/
def pteDbm : U64 := 1#64 <<< 51

def ptePxn : U64 := 1#64 <<< 53

def pteUxn : U64 := 1#64 <<< 54

def pteDirty : U64 := 1#64 <<< 55

def pteAttrindx (t : U64) : U64 := t <<< 2

def pteAttrindxMask : U64 := 7#64 <<< 2

/-- `MT_DEVICE_nGnRnE`. -/
def mtDeviceNGnRnE : U64 := 0#64

def mtNormal : U64 := 4#64

def protDefault : U64 := pteTypePage ||| pteAf ||| pteShared

/-- `PROT_DEVICE_nGnRnE`. -/
def protDeviceNGnRnE : U64 :=
  protDefault ||| ptePxn ||| pteUxn ||| pteDirty ||| pteDbm ||| pteAttrindx mtDeviceNGnRnE

def protNormal : U64 :=
  protDefault ||| ptePxn ||| pteUxn ||| pteDirty ||| pteDbm ||| pteAttrindx mtNormal

/-- `PAGE_KERNEL_ROX`. -/
def pageKernelRox : U64 := (protNormal &&& ~~~(pteDbm ||| ptePxn)) ||| pteRdonly

def pageKernel : U64 := protNormal

/-! ### The calls -/

/-- The board: `RPI5_BCM2712` is not defined, or it is. -/
inductive Board
  | bcm2711
  | bcm2712

def pbase : Board → U64
  | .bcm2711 => 0xFE000000#64
  | .bcm2712 => 0x107C000000#64

def deviceSize : U64 := 0x2000000#64

/-- The symbols of the linker script.  The text is a range of whole pages, and the image, of
which the page `idmap_pgd_dir` is a part, lies below `LOW_MEMORY`. -/
structure Layout where
  textBootStart : U64
  textEnd : U64
  idmapPgdDir : U64
  start_aligned : textBootStart.toNat % 4096 = 0
  end_aligned : textEnd.toNat % 4096 = 0
  pgd_aligned : idmapPgdDir.toNat % 4096 = 0
  start_lt : textBootStart.toNat < textEnd.toNat
  end_le : textEnd.toNat ≤ lowMemory.toNat
  pgd_le : idmapPgdDir.toNat + 4096 ≤ lowMemory.toNat

/-- The page that the call number `n` of `early_pgtable_alloc` gets from `get_free_page`,
`mem_map` being `memMap` before the first one. -/
def tablePage (memMap : PageMap) : Nat → U64
  | 0 => (getFreePage memMap).1
  | n + 1 => tablePage (getFreePage memMap).2 n

section Calls

variable (memMap : PageMap) (fuel : Nat) (img : Layout)

def createIdentityMapping (s : PgState) : Option PgState :=
  let start := img.textBootStart
  let end_ := img.textEnd
  (createPgdMapping (tablePage memMap) fuel img.idmapPgdDir start start (end_ - start)
      pageKernelRox 0#64 s).bind fun s =>
    let start := pageAlign img.textEnd
    let end_ := totalMemory
    createPgdMapping (tablePage memMap) fuel img.idmapPgdDir start start (end_ - start)
      pageKernel 0#64 s

def createMmioMapping (board : Board) (s : PgState) : Option PgState :=
  createPgdMapping (tablePage memMap) fuel img.idmapPgdDir (pbase board) (pbase board) deviceSize
    protDeviceNGnRnE 0#64 s

end Calls

/-! ### The pages of the tables -/

variable {memMap : PageMap} {n i j : Nat}

/-- A page that is handed out for a table was free. -/
theorem tablePage_free (h : tablePage memMap n ≠ 0#64) :
    ∃ j, j < nrPages ∧ memMap j = 0#8 ∧ tablePage memMap n = pageAddr j := by
  induction n generalizing memMap with
  | zero =>
      rcases getFreePage_cases memMap with ⟨j, hj, hfree, -, heq⟩ | ⟨-, heq⟩
      · exact ⟨j, hj, hfree, by rw [tablePage, heq]⟩
      · exact absurd (by rw [tablePage, heq]) h
  | succ n ih =>
      obtain ⟨k, hk, hfree, hpage⟩ := ih h
      refine ⟨k, hk, ?_, hpage⟩
      rcases getFreePage_cases memMap with ⟨j, -, -, -, heq⟩ | ⟨-, heq⟩
      · rw [heq] at hfree
        have hmarked : Function.update memMap j 1#8 k = 0#8 := hfree
        by_cases hkj : k = j
        · simp [hkj] at hmarked
        · rwa [Function.update_of_ne hkj] at hmarked
      · rwa [heq] at hfree

/-- The first page is marked before the next one is asked for. -/
theorem tablePage_zero_ne (h0 : tablePage memMap 0 ≠ 0#64)
    (hn : tablePage memMap (n + 1) ≠ 0#64) : tablePage memMap 0 ≠ tablePage memMap (n + 1) := by
  rcases getFreePage_cases memMap with ⟨j, hj, -, -, heq⟩ | ⟨-, heq⟩
  · have hnext : tablePage (getFreePage memMap).2 n ≠ 0#64 := hn
    obtain ⟨k, hk, hfree, hpage⟩ := tablePage_free hnext
    intro hsame
    rw [tablePage, tablePage, hpage, heq] at hsame
    obtain rfl := pageAddr_inj hj hk hsame
    rw [heq] at hfree
    simp at hfree
  · exact absurd (by rw [tablePage, heq]) h0

theorem tablePage_inj (hfree : ∀ i < n, tablePage memMap i ≠ 0#64) (hi : i < n) (hj : j < n)
    (h : tablePage memMap i = tablePage memMap j) : i = j := by
  induction n generalizing memMap i j with
  | zero => exact absurd hi (Nat.not_lt_zero i)
  | succ n ih =>
      have hfree' : ∀ i < n, tablePage (getFreePage memMap).2 i ≠ 0#64 := fun i hi =>
        hfree (i + 1) (Nat.succ_lt_succ hi)
      cases i with
      | zero =>
          cases j with
          | zero => rfl
          | succ j => exact absurd h (tablePage_zero_ne (hfree 0 hi) (hfree (j + 1) hj))
      | succ i =>
          cases j with
          | zero => exact absurd h.symm (tablePage_zero_ne (hfree 0 hj) (hfree (i + 1) hi))
          | succ j =>
              exact congrArg Nat.succ
                (ih hfree' (Nat.lt_of_succ_lt_succ hi) (Nat.lt_of_succ_lt_succ hj) h)

/-- The pages of the allocator are as `alloc_pgtable` promises. -/
theorem freshPages_tablePage {pgdir : U64} (hout : ∀ j < nrPages, pageAddr j ≠ pgdir)
    (hfree : ∀ i < n, tablePage memMap i ≠ 0#64) : FreshPages (tablePage memMap) pgdir n := by
  have hpage : ∀ i < n, ∃ j, j < nrPages ∧ (tablePage memMap i).toNat = 0x400000 + j * 4096 := by
    intro i hi
    obtain ⟨j, hj, -, heq⟩ := tablePage_free (hfree i hi)
    exact ⟨j, hj, by rw [heq, pageAddr_toNat hj]⟩
  refine ⟨fun i hi => ?_, fun i hi => ?_, fun i hi heq => ?_, fun i hi j hj => ?_⟩
  · obtain ⟨j, -, hnat⟩ := hpage i hi
    omega
  · obtain ⟨j, hj, hnat⟩ := hpage i hi
    rw [nrPages_eq] at hj
    omega
  · obtain ⟨j, hj, -, hpage'⟩ := tablePage_free (hfree i hi)
    exact hout j hj (hpage'.symm.trans heq)
  · exact tablePage_inj hfree hi hj

/-- It has no page of the image. -/
theorem Layout.pgd_outside (img : Layout) {j : Nat} (hj : j < nrPages) :
    pageAddr j ≠ img.idmapPgdDir := by
  intro heq
  have hbelow := img.pgd_le
  rw [lowMemory_toNat, ← heq, pageAddr_toNat hj] at hbelow
  omega

/-! ### The three ranges -/

namespace Layout

variable (img : Layout)

/-- The arguments of the three calls. -/
def textMapping : Mapping :=
  ⟨img.textBootStart, img.textBootStart, img.textEnd - img.textBootStart, pageKernelRox, 0#64⟩

def memoryMapping : Mapping :=
  ⟨pageAlign img.textEnd, pageAlign img.textEnd, totalMemory - pageAlign img.textEnd, pageKernel,
    0#64⟩

end Layout

def mmioMapping (board : Board) : Mapping :=
  ⟨pbase board, pbase board, deviceSize, protDeviceNGnRnE, 0#64⟩

def kernelMappings (img : Layout) (board : Board) : List Mapping :=
  [img.textMapping, img.memoryMapping, mmioMapping board]

theorem forall_kernelMappings {P : Mapping → Prop} {img : Layout} {board : Board}
    (htext : P img.textMapping) (hmemory : P img.memoryMapping) (hmmio : P (mmioMapping board)) :
    ∀ m ∈ kernelMappings img board, P m := by
  intro m hm
  simp only [kernelMappings, List.mem_cons, List.not_mem_nil, or_false] at hm
  obtain rfl | rfl | rfl := hm
  · exact htext
  · exact hmemory
  · exact hmmio

theorem createMappings_eq (memMap : PageMap) (fuel : Nat) (img : Layout) (board : Board)
    (s : PgState) :
    (createIdentityMapping memMap fuel img s).bind (createMmioMapping memMap fuel img board) =
      Run.exec (mapStep (tablePage memMap) fuel img.idmapPgdDir) (kernelMappings img board) s := by
  simp only [kernelMappings, Run.exec_cons, createIdentityMapping, Option.bind_assoc]
  refine congrArg _ (funext fun s => congrArg _ (funext fun s => ?_))
  exact (Option.bind_fun_some _).symm

variable {img : Layout} {board : Board}

theorem pageAlign_of_aligned {x : U64} (hx : x.toNat % 4096 = 0) : pageAlign x = x := by
  apply BitVec.eq_of_toNat_eq
  have hlt := x.isLt
  have hone : (1 : U64).toNat = 1 := rfl
  rw [pageAlign, toNat_and_pageMask, BitVec.toNat_sub, BitVec.toNat_add, pageSize_toNat, hone]
  omega

/-- Where a range of whole pages starts and ends. -/
theorem Mapping.range_of_aligned {m : Mapping} (haddr : m.virt.toNat % 4096 = 0)
    (hend : (m.virt + m.size).toNat % 4096 = 0) : m.addr = m.virt ∧ m.end_ = m.virt + m.size :=
  ⟨and_pageMask_of_aligned _ haddr, pageAlign_of_aligned hend⟩

theorem textMapping_range (img : Layout) :
    img.textMapping.addr = img.textBootStart ∧ img.textMapping.end_ = img.textEnd := by
  have hsum : img.textBootStart + (img.textEnd - img.textBootStart) = img.textEnd := by
    rw [BitVec.add_comm, BitVec.sub_add_cancel]
  have hrange := Mapping.range_of_aligned (m := img.textMapping) img.start_aligned
    (hsum ▸ img.end_aligned)
  exact ⟨hrange.1, hrange.2.trans hsum⟩

theorem memoryMapping_range (img : Layout) :
    img.memoryMapping.addr = img.textEnd ∧ img.memoryMapping.end_ = totalMemory := by
  have halign := pageAlign_of_aligned img.end_aligned
  have hsum : pageAlign img.textEnd + (totalMemory - pageAlign img.textEnd) = totalMemory := by
    rw [BitVec.add_comm, BitVec.sub_add_cancel]
  have hrange := Mapping.range_of_aligned (m := img.memoryMapping)
    (and_pageMask_mod _) (hsum ▸ rfl)
  exact ⟨hrange.1.trans halign, hrange.2.trans hsum⟩

theorem mmioMapping_range (board : Board) :
    (mmioMapping board).addr = pbase board ∧
      (mmioMapping board).end_ = pbase board + deviceSize := by
  cases board <;> exact Mapping.range_of_aligned rfl rfl

/-- The protections of the kernel are those of pages, with nothing in the address field. -/
theorem identity_proper {virt size prot flags : U64}
    (hrange : (Mapping.mk virt virt size prot flags).InRange)
    (htype : prot &&& typeMask = pteTypePage) (haddr : prot &&& pteAddrMask = 0#64) :
    (Mapping.mk virt virt size prot flags).Proper := by
  refine ⟨hrange, ?_, htype, haddr⟩
  have hend := hrange.2
  have hlt := hrange.1
  show (Mapping.mk virt virt size prot flags).addr.toNat + _ ≤ _
  omega

theorem kernelMappings_proper (img : Layout) (board : Board) :
    ∀ m ∈ kernelMappings img board, m.Proper := by
  have hstart := img.start_lt
  have hend := img.end_le
  have htotal : totalMemory.toNat = 0x20000000 := rfl
  rw [lowMemory_toNat] at hend
  apply forall_kernelMappings
  · refine identity_proper ?_ (by decide) (by decide)
    have hrange := textMapping_range img
    unfold Layout.textMapping at hrange
    rw [Mapping.InRange, hrange.1, hrange.2]
    omega
  · refine identity_proper ?_ (by decide) (by decide)
    have hrange := memoryMapping_range img
    unfold Layout.memoryMapping at hrange
    rw [Mapping.InRange, hrange.1, hrange.2]
    omega
  · refine identity_proper ?_ (by decide) (by decide)
    have hrange := mmioMapping_range board
    unfold mmioMapping at hrange
    rw [Mapping.InRange, hrange.1, hrange.2]
    cases board <;> decide

theorem kernelMappings_disjoint (img : Layout) (board : Board) :
    (kernelMappings img board).Pairwise Mapping.Disjoint := by
  have hend := img.end_le
  have htotal : totalMemory.toNat = 0x20000000 := rfl
  have hdevice : 0x20000000 ≤ (pbase board).toNat := by cases board <;> decide
  rw [lowMemory_toNat] at hend
  obtain ⟨-, htext⟩ := textMapping_range img
  obtain ⟨hmemory, hmemory'⟩ := memoryMapping_range img
  obtain ⟨hmmio, -⟩ := mmioMapping_range board
  have htextMemory : img.textMapping.Disjoint img.memoryMapping := by
    rintro y ⟨⟨-, hlt⟩, ⟨hge, -⟩⟩
    rw [htext] at hlt
    rw [hmemory] at hge
    omega
  have htextMmio : img.textMapping.Disjoint (mmioMapping board) := by
    rintro y ⟨⟨-, hlt⟩, ⟨hge, -⟩⟩
    rw [htext] at hlt
    rw [hmmio] at hge
    omega
  have hmemoryMmio : img.memoryMapping.Disjoint (mmioMapping board) := by
    rintro y ⟨⟨-, hlt⟩, ⟨hge, -⟩⟩
    rw [hmemory'] at hlt
    rw [hmmio] at hge
    omega
  simp [kernelMappings, htextMemory, htextMmio, hmemoryMmio]

/-! ### What the MMU finds -/

/-- Stores are allowed. -/
def Leaf.writable (l : Leaf) : Bool := l.entry &&& pteRdonly = 0#64

def Leaf.execEl1 (l : Leaf) : Bool := l.entry &&& ptePxn = 0#64

def Leaf.attrIndx (l : Leaf) : U64 := l.entry &&& pteAttrindxMask

/-- A bit outside the address field, other than the type bit, is one of the attributes. -/
theorem and_attrs {bits : U64} (hbits : ~~~pteAddrMask &&& (~~~pteTableBit &&& bits) = bits)
    (e : U64) : e &&& bits = attrs e &&& bits := by
  rw [attrs, BitVec.and_assoc, BitVec.and_assoc, hbits]

/-- What the protection of a mapping says about each of its leaves. -/
theorem Leaf.perms_of_attrs {l : Leaf} {prot : U64} (h : attrs l.entry = attrs prot) :
    l.writable = decide (prot &&& pteRdonly = 0#64) ∧
      l.execEl1 = decide (prot &&& ptePxn = 0#64) ∧
      l.attrIndx = prot &&& pteAttrindxMask := by
  refine ⟨?_, ?_, ?_⟩
  · rw [Leaf.writable, and_attrs (by decide), h, ← and_attrs (by decide)]
  · rw [Leaf.execEl1, and_attrs (by decide), h, ← and_attrs (by decide)]
  · rw [Leaf.attrIndx, and_attrs (by decide), h, ← and_attrs (by decide)]

/-- No protection of the kernel allows both stores and execution at EL1. -/
theorem kernelMappings_wx (img : Layout) (board : Board) :
    ∀ m ∈ kernelMappings img board, ¬ (m.prot &&& pteRdonly = 0#64 ∧ m.prot &&& ptePxn = 0#64) := by
  apply forall_kernelMappings
  · show ¬ (pageKernelRox &&& pteRdonly = 0#64 ∧ pageKernelRox &&& ptePxn = 0#64)
    decide
  · show ¬ (pageKernel &&& pteRdonly = 0#64 ∧ pageKernel &&& ptePxn = 0#64)
    decide
  · show ¬ (protDeviceNGnRnE &&& pteRdonly = 0#64 ∧ protDeviceNGnRnE &&& ptePxn = 0#64)
    decide

section Lookup

variable {ms : List Mapping} {alloc : Nat → U64} {root : TablePage} {s : PgState} {va : U64}

theorem lowBits_of_lt (hva : va.toNat < 2 ^ 48) : lowBits va = va := by
  rw [lowBits, Nat.mod_eq_of_lt hva, BitVec.ofNat_toNat, BitVec.setWidth_eq]

/-- An address of an identity mapping leads to itself, with the bits of the protection. -/
theorem Mapped.identity {virt size prot flags : U64} (h : Mapped alloc root ms s)
    (hm : Mapping.mk virt virt size prot flags ∈ ms)
    (hproper : (Mapping.mk virt virt size prot flags).Proper)
    (hva : (Mapping.mk virt virt size prot flags).Covers va.toNat) :
    ∃ l, lookup s root.base va = some l ∧ l.translate va = va ∧
      l.writable = decide (prot &&& pteRdonly = 0#64) ∧
      l.execEl1 = decide (prot &&& ptePxn = 0#64) ∧ l.attrIndx = prot &&& pteAttrindxMask := by
  have hlow := lowBits_of_lt (Nat.lt_of_lt_of_le hva.2 hproper.inRange.2)
  have hview := h.lookup_in va hm hproper (hlow.symm ▸ hva)
  obtain ⟨l, hl, hsays⟩ := Option.map_eq_some_iff.mp hview
  obtain ⟨himage, hattrs⟩ := Prod.mk.inj hsays
  refine ⟨l, hl, ?_, Leaf.perms_of_attrs hattrs⟩
  rw [himage, hlow, Mapping.addr, BitVec.add_comm, BitVec.sub_add_cancel]

/-- A leaf is one of a mapping, and has the bits of its protection. -/
theorem Mapped.of_lookup (h : Mapped alloc root ms s) (hproper : ∀ m ∈ ms, m.Proper) {l : Leaf}
    (hl : lookup s root.base va = some l) : ∃ m ∈ ms, attrs l.entry = attrs m.prot := by
  by_cases hcovers : ∃ m ∈ ms, m.Covers (lowBits va).toNat
  · obtain ⟨m, hm, hcov⟩ := hcovers
    have hview := h.lookup_in va hm (hproper m hm) hcov
    obtain ⟨l', hl', hsays⟩ := Option.map_eq_some_iff.mp hview
    obtain rfl : l = l' := Option.some.inj (hl.symm.trans hl')
    exact ⟨m, hm, (Prod.mk.inj hsays).2⟩
  · have hnone := h.lookup_off va fun m hm hcov => hcovers ⟨m, hm, hcov⟩
    exact absurd (hl.symm.trans hnone) (Option.some_ne_none l)

end Lookup

/-- Both functions return, and leave the three ranges mapped if `get_free_page` has a page for
every table. -/
theorem exists_kernelMapped (memMap : PageMap) (img : Layout) (board : Board) {fuel : Nat}
    {s : PgState} (hfuel : 512 ≤ fuel) (hstart : Start img.idmapPgdDir s) :
    ∃ s', (createIdentityMapping memMap fuel img s).bind
          (createMmioMapping memMap fuel img board) = some s' ∧
      ((∀ i < s'.allocs, tablePage memMap i ≠ 0#64) →
        Mapped (tablePage memMap) ⟨img.idmapPgdDir, hstart.aligned⟩ (kernelMappings img board)
          s') := by
  have hrange : ∀ m ∈ kernelMappings img board, m.InRange :=
    fun m hm => (kernelMappings_proper img board m hm).inRange
  obtain ⟨s', hs', -⟩ := exec_mapStep (tablePage memMap) hfuel hstart.aligned
    (kernelMappings img board) hrange s
  rw [createMappings_eq]
  refine ⟨s', hs', fun hfree => ?_⟩
  exact hstart.mapped.exec hfuel
    (freshPages_tablePage (fun _ hj => img.pgd_outside hj) hfree) [] _ hrange
    (kernelMappings_disjoint img board) hs' le_rfl

/-- Both functions return; and if `get_free_page` has a page for every table, the text is
mapped to itself read-only and executable at EL1, the memory behind it and the devices are
mapped to themselves writable and not executable at EL1, nothing else is mapped, and no leaf
is both writable and executable. -/
theorem kernelMappings_spec (memMap : PageMap) (img : Layout) (board : Board) {fuel : Nat}
    {s : PgState} (hfuel : 512 ≤ fuel) (hstart : Start img.idmapPgdDir s) :
    ∃ s', (createIdentityMapping memMap fuel img s).bind
          (createMmioMapping memMap fuel img board) = some s' ∧
      ((∀ i < s'.allocs, tablePage memMap i ≠ 0#64) →
        (∀ va : U64, img.textBootStart ≤ va → va < img.textEnd →
          ∃ l, lookup s' img.idmapPgdDir va = some l ∧ l.translate va = va ∧
            l.writable = false ∧ l.execEl1 = true) ∧
        (∀ va : U64, img.textEnd ≤ va → va < totalMemory →
          ∃ l, lookup s' img.idmapPgdDir va = some l ∧ l.translate va = va ∧
            l.writable = true ∧ l.execEl1 = false) ∧
        (∀ va : U64, pbase board ≤ va → va < pbase board + deviceSize →
          ∃ l, lookup s' img.idmapPgdDir va = some l ∧ l.translate va = va ∧
            l.writable = true ∧ l.execEl1 = false ∧ l.attrIndx = pteAttrindx mtDeviceNGnRnE) ∧
        (∀ va : U64, va.toNat < 2 ^ 48 → ¬ (img.textBootStart ≤ va ∧ va < totalMemory) →
          ¬ (pbase board ≤ va ∧ va < pbase board + deviceSize) →
          lookup s' img.idmapPgdDir va = none) ∧
        ∀ (va : U64) (l : Leaf), lookup s' img.idmapPgdDir va = some l →
          ¬ (l.writable = true ∧ l.execEl1 = true)) := by
  have hproper := kernelMappings_proper img board
  obtain ⟨s', hs', hall⟩ := exists_kernelMapped memMap img board hfuel hstart
  refine ⟨s', hs', fun hfree => ?_⟩
  have hmapped := hall hfree
  have htextMem : img.textMapping ∈ kernelMappings img board := by simp [kernelMappings]
  have hmemoryMem : img.memoryMapping ∈ kernelMappings img board := by simp [kernelMappings]
  have hmmioMem : mmioMapping board ∈ kernelMappings img board := by simp [kernelMappings]
  obtain ⟨htext, htext'⟩ := textMapping_range img
  obtain ⟨hmemory, hmemory'⟩ := memoryMapping_range img
  obtain ⟨hmmio, hmmio'⟩ := mmioMapping_range board
  refine ⟨fun va hlo hhi => ?_, fun va hlo hhi => ?_, fun va hlo hhi => ?_,
    fun va hva hoff hoff' => ?_, fun va l hl hwx => ?_⟩
  · have hcovers : img.textMapping.Covers va.toNat := by
      rw [Mapping.Covers, htext, htext']
      exact ⟨hlo, hhi⟩
    obtain ⟨l, hl, himage, hw, hx, -⟩ := hmapped.identity htextMem (hproper _ htextMem) hcovers
    exact ⟨l, hl, himage, hw.trans (by decide), hx.trans (by decide)⟩
  · have hcovers : img.memoryMapping.Covers va.toNat := by
      rw [Mapping.Covers, hmemory, hmemory']
      exact ⟨hlo, hhi⟩
    obtain ⟨l, hl, himage, hw, hx, -⟩ := hmapped.identity hmemoryMem (hproper _ hmemoryMem) hcovers
    exact ⟨l, hl, himage, hw.trans (by decide), hx.trans (by decide)⟩
  · have hcovers : (mmioMapping board).Covers va.toNat := by
      rw [Mapping.Covers, hmmio, hmmio']
      exact ⟨hlo, hhi⟩
    obtain ⟨l, hl, himage, hw, hx, hindx⟩ :=
      hmapped.identity hmmioMem (hproper _ hmmioMem) hcovers
    exact ⟨l, hl, himage, hw.trans (by decide), hx.trans (by decide), hindx.trans (by decide)⟩
  · refine hmapped.lookup_off va ?_
    rw [lowBits_of_lt hva]
    apply forall_kernelMappings
    · intro hcovers
      rw [Mapping.Covers, htext, htext'] at hcovers
      exact hoff ⟨hcovers.1, hcovers.2.trans (img.end_le.trans_lt (by decide))⟩
    · intro hcovers
      rw [Mapping.Covers, hmemory, hmemory'] at hcovers
      exact hoff ⟨img.start_lt.le.trans hcovers.1, hcovers.2⟩
    · intro hcovers
      rw [Mapping.Covers, hmmio, hmmio'] at hcovers
      exact hoff' hcovers
  · -- no protection allows both
    obtain ⟨m, hm, hattrs⟩ := hmapped.of_lookup hproper hl
    obtain ⟨hw, hx, -⟩ := Leaf.perms_of_attrs hattrs
    rw [hw, hx, decide_eq_true_eq, decide_eq_true_eq] at hwx
    exact kernelMappings_wx img board m hm hwx

/-- An image of 64 KiB of text, with `idmap_pgd_dir` behind it. -/
def smallLayout : Layout where
  textBootStart := 0x80000#64
  textEnd := 0x90000#64
  idmapPgdDir := 0xA0000#64
  start_aligned := rfl
  end_aligned := rfl
  pgd_aligned := rfl
  start_lt := by decide
  end_le := by decide
  pgd_le := by decide

theorem start_smallLayout : Start smallLayout.idmapPgdDir PgState.zero :=
  ⟨rfl, fun _ _ => rfl, rfl, rfl⟩

/-- With an empty map the pages come one after the other. -/
theorem tablePage_afterGets {a : U64} {k : Nat} (h : k + n < nrPages) :
    tablePage (PageHistory.afterGets a k).alloc.memMap n = pageAddr (k + n) := by
  induction n generalizing k with
  | zero =>
      rw [Nat.add_zero] at h ⊢
      rw [tablePage, getFreePage_afterGets h]
  | succ n ih =>
      rw [tablePage, getFreePage_afterGets (by omega), ih (by omega)]
      congr 1
      omega

set_option maxRecDepth 100000 in
theorem kernelMappings_spec_small :
    ∃ s', (createIdentityMapping (fun _ => 0#8) 512 smallLayout PgState.zero).bind
          (createMmioMapping (fun _ => 0#8) 512 smallLayout .bcm2711) = some s' ∧
      s'.allocs = 4 ∧
      (∃ l, lookup s' smallLayout.idmapPgdDir 0x8FFF8#64 = some l ∧
        l.translate 0x8FFF8#64 = 0x8FFF8#64 ∧ l.writable = false ∧ l.execEl1 = true) ∧
      ∃ l, lookup s' smallLayout.idmapPgdDir 0x90000#64 = some l ∧
        l.translate 0x90000#64 = 0x90000#64 ∧ l.writable = true ∧ l.execEl1 = false := by
  obtain ⟨s', hs', hspec⟩ := kernelMappings_spec (fun _ => 0#8) smallLayout .bcm2711 le_rfl
    start_smallLayout
  have hallocs : ((createIdentityMapping (fun _ => 0#8) 512 smallLayout PgState.zero).bind
      (createMmioMapping (fun _ => 0#8) 512 smallLayout .bcm2711)).map PgState.allocs = some 4 := rfl
  rw [hs'] at hallocs
  obtain hallocs : s'.allocs = 4 := Option.some.inj hallocs
  have hfree : ∀ i < s'.allocs, tablePage (fun _ => 0#8) i ≠ 0#64 := by
    intro i hi
    have hlt : 0 + i < nrPages := by
      rw [nrPages_eq]
      omega
    have hmap : (PageHistory.afterGets 0#64 0).alloc.memMap = fun _ => 0#8 := by
      simp [PageHistory.afterGets]
    rw [← hmap, tablePage_afterGets hlt]
    exact pageAddr_ne_zero hlt
  obtain ⟨htext, hmemory, -⟩ := hspec hfree
  exact ⟨s', hs', hallocs, htext _ (by decide) (by decide), hmemory _ (by decide) (by decide)⟩

end Arm64OS
