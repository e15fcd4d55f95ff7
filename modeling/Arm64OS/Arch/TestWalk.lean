import Arm64OS.Arch.DumpProt
import Arm64OS.Memset

/-!
# A page opened for stores

`test_walk_pgtable` of `arch/arm64/mach-rpi/dump_pgtable.c`, and `pte_mkyoung` and `pte_mkwrite`
of `asm/pgtable.h`: the test looks up the entry of `readonly_page`, the last page of the text, and
stores it again with the right to write; then it shows the page and fills the start of it.  The
entry is a page or a section, so the test opens as much as the entry maps, and
`testWalkPgtable_run` says that it changes nothing else.

The MMU looks the tables up; what a TLB may still hold of the old entry is not considered.  The
bytes of the page are apart from the entries of `PgState`: no table lies in it.
-/

namespace Arm64OS

def setPteBit (pte bit : U64) : U64 := pte ||| bit

/-- `clear_pte_bit`; `bit` is an `int`. -/
def clearPteBit (pte : U64) (bit : BitVec 32) : U64 := pte &&& (~~~bit).signExtend 64

def pteMkyoung (pte : U64) : U64 := setPteBit pte pteAf

/-- `PTE_WRITE` is `PTE_DBM`. -/
def pteMkwrite (pte : U64) : U64 := clearPteBit (setPteBit pte pteDbm) (pteRdonly.setWidth 32)

/-- `readonly_page`, in front of `_text_end`. -/
def Layout.readonlyPage (img : Layout) : U64 := img.textEnd - pageSize

/-- What the test prints: by a `printk` of its own, or as a line of `walk_pgd` with its flags. -/
inductive TestLine
  | printk (fmt : String) (args : List U64)
  | range (line : PrintCall × Option (String × List String))

def testPageFmt : String := "Test Page:0x%lx, pte value: 0x%lx\n"

def writeDoneFmt : String := "write readonly page done\n"

/-- `test_walk_pgtable`: the tables, the memory `m` and what is printed.  `none` is also where
`walk_pgtable` returns `NULL`, which the test reads through. -/
def testWalkPgtable (fuel : Nat) (img : Layout) (levels : List PgLevel) (s : PgState)
    (m : ByteMem.Mem) : Option (PgState × ByteMem.Mem × List TestLine) := do
  let addr := img.readonlyPage
  let ptep ← walkPgtable s img.idmapPgdDir addr
  let pte := s.mem ptep
  let pteNew := pteMkyoung pte
  let pteNew := pteMkwrite pteNew
  let s := s.setEntry ptep pteNew
  let calls ← walkPgd fuel s img.idmapPgdDir addr pageSize
  let m ← memset img.readonlyPage 0x55 100 m
  some (s, m, .printk testPageFmt [addr, pte] ::
    (calls.map fun c => .range (c, c.flags levels)) ++ [.printk writeDoneFmt []])

/-! ### The entry of a leaf -/

/-- The level of the entry that a leaf is. -/
def Leaf.level : Leaf → Nat
  | .sect _ => 2
  | .page _ => 3

def Leaf.withEntry (e : U64) : Leaf → Leaf
  | .sect _ => .sect e
  | .page _ => .page e

variable {alloc : Nat → U64} {root : TablePage} {s : PgState} {l : Leaf} {p va : U64} {k y : Nat}

theorem SlotAt.ne_zero (hne : ∀ k x b, (s.tree root).walk k x = some b → b.base ≠ 0#64)
    (h : SlotAt root k p y s) : p ≠ 0#64 := by
  obtain ⟨b, hb, rfl⟩ := h
  intro hzero
  have hcell := b.toNat_cell (tableIndex k y)
  rw [hzero] at hcell
  have hbase : 0 < b.base.toNat := by
    refine Nat.pos_of_ne_zero fun h => hne k y b hb (BitVec.eq_of_toNat_eq h)
  simp at hcell
  omega

/-- The entries on the path of a leaf. -/
theorem entries_of_leaf (h : s.leaf root y = some l) :
    ∃ e, (s.tree root).entry 2 y = some e ∧
      (e &&& typeMask = pmdTypeSect ∧ l = .sect e ∨
        e &&& typeMask = typeTable ∧
          ∃ e', (s.tree root).entry 3 y = some e' ∧ e' ≠ 0#64 ∧ l = .page e') := by
  unfold PgState.leaf at h
  cases he : (s.tree root).entry 2 y with
  | none =>
      rw [he] at h
      cases h
  | some e =>
      rw [he, leafOf] at h
      refine ⟨e, rfl, ?_⟩
      by_cases hsect : e &&& typeMask = pmdTypeSect
      · rw [if_pos hsect] at h
        exact Or.inl ⟨hsect, (Option.some.inj h).symm⟩
      · rw [if_neg hsect] at h
        obtain ⟨e', he', hleaf⟩ := Option.bind_eq_some_iff.mp h
        obtain ⟨e'', habove, htable⟩ := entry_above he'
        obtain rfl : e = e'' := Option.some.inj (he.symm.trans habove)
        unfold pageLeaf at hleaf
        split_ifs at hleaf with hzero
        exact Or.inr ⟨htable, e', he', hzero, (Option.some.inj hleaf).symm⟩

/-- `walk_pgtable` finds the entry of a leaf, if no table lies at the address 0. -/
theorem walkPgtable_eq_some (hne : ∀ k x b, (s.tree root).walk k x = some b → b.base ≠ 0#64)
    (hleaf : s.leaf root va.toNat = some l) :
    ∃ p, walkPgtable s root.base va = some p ∧ SlotAt root l.level p va.toNat s ∧
      s.mem p = l.entry := by
  obtain ⟨e2, h2, hkind⟩ := entries_of_leaf hleaf
  obtain ⟨e1, h1, ht1⟩ := entry_above h2
  obtain ⟨e0, h0, ht0⟩ := entry_above h1
  have htable : ∀ {e : U64}, e &&& typeMask = typeTable → e ≠ 0#64 := by
    rintro e htype rfl
    exact absurd htype (by decide)
  -- each pointer is a slot, and what it points to is the entry of the path
  have hslot0 : SlotAt root 0 (pgdOffsetRaw root.base va) va.toNat s := slotAt_root va
  obtain rfl := Option.some.inj (hslot0.entry.symm.trans h0)
  have hslot1 := hslot0.descend (by decide) ht0 toNat_pudIndex
  obtain rfl := Option.some.inj (hslot1.entry.symm.trans h1)
  have hslot2 := hslot1.descend (by decide) ht1 toNat_pmdIndex
  obtain rfl := Option.some.inj (hslot2.entry.symm.trans h2)
  have hpgd : ¬ (pgdOffsetRaw root.base va = 0#64 ∨ s.mem (pgdOffsetRaw root.base va) = 0#64) :=
    not_or.mpr ⟨hslot0.ne_zero hne, htable ht0⟩
  have hpud := not_or.mpr ⟨hslot1.ne_zero hne, htable ht1⟩
  unfold walkPgtable
  dsimp only
  unfold pudOffsetPhys pmdOffsetPhys pteOffsetPhys
  rw [if_neg hpgd, if_neg hpud]
  rcases hkind with ⟨hsect, rfl⟩ | ⟨ht2, e3, h3, hne3, rfl⟩
  · have hzero : s.mem _ ≠ 0#64 := fun hzero => absurd (hzero ▸ hsect) (by decide)
    rw [if_neg (not_or.mpr ⟨hslot2.ne_zero hne, hzero⟩), if_pos hsect]
    exact ⟨_, rfl, hslot2, rfl⟩
  · have hslot3 := hslot2.descend le_rfl ht2 toNat_pteIndex
    obtain rfl := Option.some.inj (hslot3.entry.symm.trans h3)
    have hnosect : s.mem _ &&& typeMask ≠ pmdTypeSect := fun hsect =>
      absurd (ht2.symm.trans hsect) (by decide)
    rw [if_neg (not_or.mpr ⟨hslot2.ne_zero hne, htable ht2⟩), if_neg hnosect,
      if_neg (not_or.mpr ⟨hslot3.ne_zero hne, hne3⟩)]
    exact ⟨_, rfl, hslot3, rfl⟩

theorem Leaf.level_bounds (l : Leaf) : 2 ≤ l.level ∧ l.level ≤ 3 := by
  cases l <;> simp [Leaf.level]

/-- Addresses that share the entry of a leaf have the leaf. -/
theorem leaf_of_span {x : Nat} (h : s.leaf root y = some l) (hy : y < 2 ^ 48) (hx : x < 2 ^ 48)
    (hspan : x / span (l.level + 1) = y / span (l.level + 1)) : s.leaf root x = some l := by
  obtain ⟨hge, hle⟩ := l.level_bounds
  have hpath : (s.tree root).SamePath (l.level + 1) x y :=
    (samePath_iff (by omega) hx hy).mpr hspan
  obtain ⟨e, he, hkind⟩ := entries_of_leaf h
  have he' : (s.tree root).entry 2 x = some e := by
    exact (RadixTree.Tree.entry_congr (hpath.mono (by omega))).trans he
  rcases hkind with ⟨hsect, rfl⟩ | ⟨htable, e3, h3, hne, rfl⟩
  · rw [PgState.leaf, he', leafOf, if_pos hsect]
  · have h3' : (s.tree root).entry 3 x = some e3 :=
      (RadixTree.Tree.entry_congr (k := 3) hpath).trans h3
    rw [← h, PgState.leaf, PgState.leaf, he', he, h3', h3]

/-- A store over the entry of a leaf: its addresses get the new leaf, and nothing else changes. -/
theorem Inv.effect_leaf (h : Inv alloc root s) (hy : y < 2 ^ 48) (hslot : SlotAt root l.level p y s)
    {v : U64} (hvalid : (l.withEntry v).valid)
    (htype : l.level = 2 → v &&& typeMask = pmdTypeSect) :
    Effect alloc root (fun _ => some (l.withEntry v)) l.level
      (y / span (l.level + 1) * span (l.level + 1))
      (y / span (l.level + 1) * span (l.level + 1) + span (l.level + 1)) s (s.setEntry p v) := by
  obtain ⟨b, hb, rfl⟩ := hslot
  obtain ⟨a, ha⟩ : ∃ a, a = y / span (l.level + 1) * span (l.level + 1) := ⟨_, rfl⟩
  have hle : a ≤ y := ha ▸ Nat.div_mul_le_self ..
  have halign : a % span (l.level + 1) = 0 := ha ▸ Nat.mul_mod_left ..
  have hspan : a / span (l.level + 1) = y / span (l.level + 1) := by
    rw [ha, Nat.mul_div_cancel _ (span_pos _)]
  obtain ⟨hge, hlevel⟩ := l.level_bounds
  have hpath : (s.tree root).SamePath (l.level + 1) a y :=
    (samePath_iff (by omega) (by omega) hy).mpr hspan
  have hb' : (s.tree root).walk l.level a = some b :=
    (RadixTree.Tree.walk_congr (hpath.mono (Nat.le_succ _))).trans hb
  have hindex : tableIndex l.level y = tableIndex l.level a := (hpath _ (Nat.lt_succ_self _)).symm
  rw [hindex, ← ha]
  cases l with
  | sect e =>
      exact h.effect_section hb' (by omega) halign (htype rfl) fun _ _ => rfl
  | page e =>
      have hne : v ≠ 0#64 := by
        rintro rfl
        simp [Leaf.withEntry, Leaf.valid, pteTypePage] at hvalid
      refine h.effect_page hb' (by omega) halign fun _ _ => ?_
      rw [pageLeaf, if_neg hne]
      rfl

/-- What lookups find after such a store. -/
theorem Effect.lookup_leaf {s' : PgState} {v : U64} {va' : U64} (hvalid : (l.withEntry v).valid)
    (hva' : va'.toNat < 2 ^ 48)
    (h : Effect alloc root (fun _ => some (l.withEntry v)) l.level
      (y / span (l.level + 1) * span (l.level + 1))
      (y / span (l.level + 1) * span (l.level + 1) + span (l.level + 1)) s s') :
    lookup s' root.base va' =
      if va'.toNat / span (l.level + 1) = y / span (l.level + 1) then some (l.withEntry v)
      else lookup s root.base va' := by
  have hpos : 0 < span (l.level + 1) := span_pos _
  have hin : va'.toNat / span (l.level + 1) = y / span (l.level + 1) ↔
      y / span (l.level + 1) * span (l.level + 1) ≤ va'.toNat ∧
        va'.toNat < y / span (l.level + 1) * span (l.level + 1) + span (l.level + 1) := by
    rw [Nat.div_eq_iff hpos]
    omega
  rw [lookup_eq]
  by_cases hspan : va'.toNat / span (l.level + 1) = y / span (l.level + 1)
  · rw [if_pos hspan, h.leaf_in _ (hin.mp hspan).1 (hin.mp hspan).2]
    simp [Option.filter, hvalid]
  · rw [if_neg hspan, h.leaf_off _ hva' (fun hcov => hspan (hin.mpr hcov)), lookup_eq]

/-! ### The bits -/

/-- Bits other than the three that the test touches stay. -/
theorem and_mkwrite {bits : U64} (haf : pteAf &&& bits = 0#64) (hdbm : pteDbm &&& bits = 0#64)
    (hrdonly : ~~~pteRdonly &&& bits = bits) (e : U64) :
    pteMkwrite (pteMkyoung e) &&& bits = e &&& bits := by
  have hclear : (~~~(pteRdonly.setWidth 32)).signExtend 64 = ~~~pteRdonly := by decide
  rw [pteMkwrite, clearPteBit, hclear, BitVec.and_assoc, hrdonly, setPteBit, pteMkyoung, setPteBit,
    BitVec.and_or_distrib_right, BitVec.and_or_distrib_right, haf, hdbm, BitVec.or_zero,
    BitVec.or_zero]

theorem mkwrite_writable (e : U64) : pteMkwrite (pteMkyoung e) &&& pteRdonly = 0#64 := by
  have hclear : (~~~(pteRdonly.setWidth 32)).signExtend 64 &&& pteRdonly = 0#64 := by decide
  rw [pteMkwrite, clearPteBit, BitVec.and_assoc, hclear, BitVec.and_zero]

theorem mkwrite_accessed (e : U64) : pteMkwrite (pteMkyoung e) &&& pteAf ≠ 0#64 := by
  have hkeep : (~~~(pteRdonly.setWidth 32)).signExtend 64 &&& pteAf = pteAf := by decide
  have hdbm : pteDbm &&& pteAf = 0#64 := by decide
  rw [pteMkwrite, clearPteBit, BitVec.and_assoc, hkeep, setPteBit, pteMkyoung, setPteBit,
    BitVec.and_or_distrib_right, BitVec.and_or_distrib_right, hdbm, BitVec.or_zero, BitVec.and_self]
  intro hzero
  rw [BitVec.or_eq_zero_iff] at hzero
  exact absurd hzero.2 (by decide)

theorem translate_mkwrite (l : Leaf) (va : U64) :
    (l.withEntry (pteMkwrite (pteMkyoung l.entry))).translate va = l.translate va := by
  have haddr : pteMkwrite (pteMkyoung l.entry) &&& pteAddrMask = l.entry &&& pteAddrMask :=
    and_mkwrite (by decide) (by decide) (by decide) l.entry
  cases l <;> simp only [Leaf.withEntry, Leaf.translate, Leaf.entry] at haddr ⊢ <;> rw [haddr]

theorem type_mkwrite (e : U64) :
    pteMkwrite (pteMkyoung e) &&& typeMask = e &&& typeMask :=
  and_mkwrite (by decide) (by decide) (by decide) e

theorem attrIndx_mkwrite (l : Leaf) :
    (l.withEntry (pteMkwrite (pteMkyoung l.entry))).attrIndx = l.attrIndx := by
  have hindex : pteMkwrite (pteMkyoung l.entry) &&& pteAttrindxMask = l.entry &&& pteAttrindxMask :=
    and_mkwrite (by decide) (by decide) (by decide) l.entry
  cases l <;> exact hindex

/-- A leaf of the text lets stores of EL1 through, and apart from that what it let through. -/
theorem lets_mkwrite (h : attrs l.entry = attrs Region.text.prot) (mmfr0 : U64) (r : MmuRegs)
    (el1 : Bool) (kind : AccessKind) :
    (l.withEntry (pteMkwrite (pteMkyoung l.entry))).lets mmfr0 r el1 kind =
      if el1 = true ∧ kind = .store then some 0xff#8 else l.lets mmfr0 r el1 kind := by
  obtain ⟨l', hl'⟩ : ∃ l', l' = l.withEntry (pteMkwrite (pteMkyoung l.entry)) := ⟨_, rfl⟩
  have hentry : l'.entry = pteMkwrite (pteMkyoung l.entry) := by
    rw [hl']
    cases l <;> rfl
  have hindex : l'.attrIndx = l.attrIndx := hl' ▸ attrIndx_mkwrite l
  obtain ⟨hold, holdx, -⟩ := Leaf.perms_of_attrs h
  obtain ⟨holdEl0, holdx0⟩ := Leaf.el0_of_attrs h
  have hw : l.writable = false := hold.trans (by decide)
  have hw' : l'.writable = true := by
    rw [Leaf.writable, hentry, mkwrite_writable]
    rfl
  have hx : l.execEl1 = true := holdx.trans (by decide)
  have hx' : l'.execEl1 = true := by
    rw [← hx, Leaf.execEl1, Leaf.execEl1, hentry,
      and_mkwrite (by decide) (by decide) (by decide)]
  have hel0 : l.el0 = false := holdEl0.trans (by decide)
  have hel0' : l'.el0 = false := by
    rw [← hel0, Leaf.el0, Leaf.el0, hentry, and_mkwrite (by decide) (by decide) (by decide)]
  have hx0 : l.execEl0 = false := holdx0.trans (by decide)
  have hx0' : l'.execEl0 = false := by
    rw [← hx0, Leaf.execEl0, Leaf.execEl0, hentry,
      and_mkwrite (by decide) (by decide) (by decide)]
  have hattr : (cpuInit mmfr0 r).attr l = 0xff#8 := Region.attr_of_attrs h mmfr0 r
  have hattr' : (cpuInit mmfr0 r).attr l' = 0xff#8 := by
    rw [← hattr, MmuRegs.attr, MmuRegs.attr, hindex]
  have haf := Region.af_of_attrs h
  have haf' := mkwrite_accessed l.entry
  rw [← hl', Leaf.lets, Leaf.lets, hentry, hattr, hattr']
  cases el1 <;> cases kind <;>
    simp [Leaf.allows, haf, haf', hw, hw', hx, hx', hel0, hel0', hx0, hx0']

/-- Of the text nothing lets a store through. -/
theorem lets_store_text (h : attrs l.entry = attrs Region.text.prot) (mmfr0 : U64) (r : MmuRegs)
    (el1 : Bool) : l.lets mmfr0 r el1 .store = none := by
  have hw : l.writable = false := (Leaf.perms_of_attrs h).1.trans (by decide)
  exact if_neg fun hlets => by simp [Leaf.allows, hw] at hlets

/-- The walk to an address that its leaf leads to itself and the CPU has. -/
theorem walk_identity {mmfr0 : U64} {r : MmuRegs} {pgdir : U64}
    (hbase : r.ttbr0 &&& pteAddrMask = pgdir) (hl : lookup s pgdir va = some l)
    (hbelow : va.toNat < 2 ^ 48) (himage : l.translate va = va)
    (hfits : va.toNat < 2 ^ paRangeBits mmfr0) (el1 : Bool) (kind : AccessKind) :
    (cpuInit mmfr0 r).walk s el1 kind va =
      (l.lets mmfr0 r el1 kind).map fun attr => (va, attr) := by
  rw [walk_cpuInit hbase (shiftRight_of_toNat hbelow), hl, Option.bind_some, himage,
    Option.map_eq_bind]
  simp only [hfits, if_true]
  rfl

section Kernel

variable {layout : Layout} {board : Board} {fuel : Nat}

/-- The size of what maps `readonly_page`: a section, where the last 2 MiB of the text are a whole
block, or a page. -/
def Layout.testedSize (img : Layout) : U64 :=
  if img.textEnd.toNat % 0x200000 = 0 ∧ img.textBootStart.toNat + 0x200000 ≤ img.textEnd.toNat then
    sectionSize
  else pageSize

theorem Layout.toNat_readonlyPage (layout : Layout) :
    layout.readonlyPage.toNat = layout.textEnd.toNat - 4096 ∧ 4096 ≤ layout.textEnd.toNat := by
  have hstart := layout.start_aligned
  have hend := layout.end_aligned
  have hlt := layout.start_lt
  have hsize : pageSize.toNat = 4096 := rfl
  have hbound := layout.textEnd.isLt
  rw [Layout.readonlyPage, BitVec.toNat_sub]
  omega

/-- The `memset` of the test: the page starts at a 16 byte boundary. -/
theorem memset_readonlyPage (layout : Layout) (m : ByteMem.Mem) :
    memset layout.readonlyPage 0x55 100 m =
      some (ByteMem.fillBytes layout.readonlyPage 100 0x55 m) := by
  obtain ⟨hpage, hge⟩ := layout.toNat_readonlyPage
  have halign := layout.end_aligned
  have hhead : layout.readonlyPage.toNat % 16 = 0 := by omega
  rw [memset_eq layout.readonlyPage 0x55 100 100 m (by rw [hhead]; rfl), hhead]
  rfl

theorem fillBytes_readonlyPage (layout : Layout) (m : ByteMem.Mem) (b : U64) :
    ByteMem.fillBytes layout.readonlyPage 100 0x55 m b =
      if layout.readonlyPage ≤ b ∧ b < layout.readonlyPage + 100#64 then 0x55#8 else m b := by
  obtain ⟨hpage, hge⟩ := layout.toNat_readonlyPage
  have hbound := layout.textEnd.isLt
  have hend : (layout.readonlyPage + 100#64).toNat = layout.readonlyPage.toNat + 100 :=
    ByteMem.toNat_add_ofNat (i := 100) (by omega)
  have hiff : (b - layout.readonlyPage).toNat < 100 ↔
      layout.readonlyPage ≤ b ∧ b < layout.readonlyPage + 100#64 := by
    rw [ByteMem.toNat_sub_lt_iff (by omega), BitVec.le_def, BitVec.lt_def, hend]
  rw [ByteMem.fillBytes]
  exact if_congr hiff rfl rfl

theorem Layout.usesSection_readonlyPage (layout : Layout) :
    layout.textMapping.usesSection layout.readonlyPage.toNat ↔
      layout.textEnd.toNat % 0x200000 = 0 ∧
        layout.textBootStart.toNat + 0x200000 ≤ layout.textEnd.toNat := by
  obtain ⟨haddr, hend⟩ := textMapping_range layout
  obtain ⟨hpage, hge⟩ := layout.toNat_readonlyPage
  have hoffset : layout.textMapping.offset = 0#64 := by
    rw [Mapping.offset]
    exact BitVec.sub_self _
  have hflags : layout.textMapping.flags &&& noBlockMappings = 0#64 := by
    show 0#64 &&& noBlockMappings = 0#64
    decide
  rw [Mapping.usesSection, haddr, hend, hoffset, hpage, span_three]
  simp only [hflags, and_true]
  have halign := layout.end_aligned
  have hzero : (0#64 : U64).toNat % 2097152 = 0 := rfl
  simp only [hzero, and_true]
  omega

/-- The addresses that share the entry of `readonly_page`. -/
theorem Mapped.block_iff {alloc : Nat → U64} {root : TablePage}
    (h : Mapped alloc root (kernelMappings layout board) s)
    (hleaf : s.leaf root layout.readonlyPage.toNat = some l) (y : Nat) :
    y / span (l.level + 1) = layout.readonlyPage.toNat / span (l.level + 1) ↔
      (layout.textEnd - layout.testedSize).toNat ≤ y ∧ y < layout.textEnd.toNat := by
  obtain ⟨hpage, hge⟩ := layout.toNat_readonlyPage
  obtain ⟨haddr, hend⟩ := textMapping_range layout
  have hlt := layout.start_lt
  have hle := layout.end_le
  have hbound := layout.textEnd.isLt
  have halign := layout.end_aligned
  have hstart := layout.start_aligned
  rw [lowMemory_toNat] at hle
  have hcovers : layout.textMapping.Covers layout.readonlyPage.toNat := by
    rw [Mapping.Covers, haddr, hend, hpage]
    omega
  have hwant := h.leaf_in _ (Region.mapping_mem .text) _ (by omega) hcovers
  have huses := layout.usesSection_readonlyPage
  rw [hleaf] at hwant
  change some l = Mapping.want layout.textMapping _ at hwant
  rw [Mapping.want] at hwant
  rw [Layout.testedSize, BitVec.toNat_sub]
  by_cases hsect : layout.textMapping.usesSection layout.readonlyPage.toNat
  · rw [if_pos hsect] at hwant
    obtain rfl := Option.some.inj hwant
    obtain ⟨hmod, hfits⟩ := huses.mp hsect
    rw [if_pos ⟨hmod, hfits⟩, hpage]
    have hsize : sectionSize.toNat = 0x200000 := rfl
    simp only [Leaf.level, Nat.reduceAdd, span_three]
    omega
  · rw [if_neg hsect, pageLeaf] at hwant
    split_ifs at hwant
    obtain rfl := Option.some.inj hwant
    rw [if_neg (fun hc => hsect (huses.mpr hc)), hpage]
    have hsize : pageSize.toNat = 4096 := rfl
    simp only [Leaf.level, Nat.reduceAdd, span_four]
    omega

variable {alloc : Nat → U64} {levels : List PgLevel}

/-- What the entry of `readonly_page` maps. -/
def Layout.Tested (img : Layout) (va : U64) : Prop :=
  img.textEnd - img.testedSize ≤ va ∧ va < img.textEnd

instance (img : Layout) (va : U64) : Decidable (img.Tested va) := by
  unfold Layout.Tested
  infer_instance

theorem Layout.tested_of_readonlyPage (layout : Layout) (hlow : layout.readonlyPage ≤ va)
    (hhigh : va < layout.textEnd) : layout.Tested va := by
  obtain ⟨hpage, hge⟩ := layout.toNat_readonlyPage
  have hbound := layout.textEnd.isLt
  have hle : layout.readonlyPage.toNat ≤ va.toNat := hlow
  have hsection : sectionSize.toNat = 0x200000 := rfl
  have hsize : pageSize.toNat = 4096 := rfl
  refine ⟨?_, hhigh⟩
  rw [BitVec.le_def, Layout.testedSize, BitVec.toNat_sub]
  split_ifs with hsect <;> omega

/-- The test stores over the leaf of `readonly_page`, and shows the page as it is then.  Each table
is one that was there. -/
theorem Mapped.testWalkPgtable
    (h : Mapped alloc ⟨layout.idmapPgdDir, layout.pgd_aligned⟩ (kernelMappings layout board) s)
    (hne : layout.idmapPgdDir ≠ 0#64) (halloc : ∀ i < s.allocs, alloc i ≠ 0#64)
    (hfuel : 512 ≤ fuel) (m : ByteMem.Mem) :
    ∃ (l : Leaf) (s' : PgState) (calls : List PrintCall),
      Arm64OS.testWalkPgtable fuel layout levels s m =
        some (s', ByteMem.fillBytes layout.readonlyPage 100 0x55 m,
          .printk testPageFmt [layout.readonlyPage, l.entry] ::
            (calls.map fun c => TestLine.range (c, c.flags levels)) ++ [.printk writeDoneFmt []]) ∧
      (∀ k x b, (s'.tree ⟨layout.idmapPgdDir, layout.pgd_aligned⟩).walk k x = some b →
        b.base = layout.idmapPgdDir ∨ ∃ i < s.allocs, b.base = alloc i) ∧
      attrs l.entry = attrs Region.text.prot ∧
      (∀ va, layout.Tested va → lookup s layout.idmapPgdDir va = some l ∧
        lookup s' layout.idmapPgdDir va =
          some (l.withEntry (pteMkwrite (pteMkyoung l.entry)))) ∧
      (∀ va : U64, va.toNat < 2 ^ 48 → ¬ layout.Tested va →
        lookup s' layout.idmapPgdDir va = lookup s layout.idmapPgdDir va) ∧
      Dumps s' layout.idmapPgdDir layout.readonlyPage.toNat layout.textEnd.toNat calls := by
  obtain ⟨hpage, hge⟩ := layout.toNat_readonlyPage
  obtain ⟨haddr, hend⟩ := textMapping_range layout
  have hlt := layout.start_lt
  have hle := layout.end_le
  have halign := layout.end_aligned
  have hstart := layout.start_aligned
  rw [lowMemory_toNat] at hle
  have hcovers : (Region.text.mapping layout board).Covers layout.readonlyPage.toNat := by
    show layout.textMapping.Covers _
    rw [Mapping.Covers, haddr, hend, hpage]
    omega
  obtain ⟨l, hl, -, hattrs⟩ := h.region hcovers
  rw [lookup_eq] at hl
  obtain ⟨hleaf, hvalid⟩ := Option.filter_eq_some_iff.mp hl
  -- every table is `idmap_pgd_dir` or a page from the allocator
  have hbases : ∀ k x b, (s.tree ⟨layout.idmapPgdDir, layout.pgd_aligned⟩).walk k x = some b →
      b.base ≠ 0#64 := by
    intro k x b hb
    rcases h.inv.owned k x b hb with rfl | ⟨i, hi, hbase⟩
    · exact hne
    · exact hbase ▸ halloc i hi
  obtain ⟨p, hwalk, hslot, hentry⟩ := walkPgtable_eq_some hbases hleaf
  have htype := type_mkwrite l.entry
  have hvalid' : (l.withEntry (pteMkwrite (pteMkyoung l.entry))).valid := by
    cases l with
    | sect e => rfl
    | page e =>
        rw [Leaf.valid, decide_eq_true_eq] at hvalid
        exact decide_eq_true (htype.trans hvalid)
  have hsect : l.level = 2 → pteMkwrite (pteMkyoung l.entry) &&& typeMask = pmdTypeSect := by
    intro hlevel
    obtain ⟨e, -, ⟨hsect, rfl⟩ | ⟨-, e', -, -, rfl⟩⟩ := entries_of_leaf hleaf
    · exact htype.trans hsect
    · cases hlevel
  have heffect := h.inv.effect_leaf (by omega) hslot hvalid' hsect
  obtain ⟨calls, hcalls, hdumps⟩ := heffect.inv.walkPgd_block hfuel layout.readonlyPage pageSize
    (by omega) rfl (by decide) (by rw [hpage, pageSize_toNat]; omega)
    (by rw [hpage, pageSize_toNat, span_two]; omega)
  have hsum : layout.readonlyPage.toNat + pageSize.toNat = layout.textEnd.toNat := by
    rw [hpage, pageSize_toNat]
    omega
  rw [hsum] at hdumps
  refine ⟨l, _, calls, ?_, fun k x b hb => ?_, hattrs, fun va hva => ⟨?_, ?_⟩,
    fun va hva hoff => ?_, hdumps⟩
  · rw [Arm64OS.testWalkPgtable]
    simp only [hwalk, hentry, hcalls, memset_readonlyPage, Option.bind_eq_bind, Option.bind_some]
  · rcases heffect.inv.owned k x b hb with rfl | ⟨i, hi, hbase⟩
    · exact Or.inl rfl
    · exact Or.inr ⟨i, hi, hbase.symm⟩
  · have hbelow : va.toNat < layout.textEnd.toNat := hva.2
    have hva' := leaf_of_span hleaf (by omega) (by omega) ((h.block_iff hleaf va.toNat).mpr hva)
    have hlookup := lookup_eq s ⟨layout.idmapPgdDir, layout.pgd_aligned⟩ va
    rw [hva'] at hlookup
    exact hlookup.trans (by simp [Option.filter, hvalid])
  · have hbelow : va.toNat < layout.textEnd.toNat := hva.2
    rw [heffect.lookup_leaf hvalid' (by omega), if_pos ((h.block_iff hleaf _).mpr hva)]
  · rw [heffect.lookup_leaf hvalid' hva,
      if_neg (fun hspan => hoff ((h.block_iff hleaf _).mp hspan))]

theorem paRangeBits_ge (mmfr0 : U64) : 32 ≤ paRangeBits mmfr0 := by
  obtain ⟨i, hi, -, hbits⟩ := parang_cases mmfr0
  rw [hbits]
  interval_cases i <;> decide

/-- **A page opened for stores.**  The test behind `paging_init` returns.  Afterwards EL1 may store
to what the entry of `readonly_page` maps, which it could not before, and every other access to
every address is let through, or not, as before; what the test shows of the page is what the MMU
does, between the old entry and the last line.  Each of the 100 bytes that it fills is let through,
and none of them is of a table, if `readonly_page` is not the root. -/
theorem testWalkPgtable_run (layout : Layout) (board : Board)
    (hpgd : layout.idmapPgdDir ≠ 0#64) {memMap : PageMap} (hfuel : 512 ≤ fuel)
    (hfree : enoughTables ≤ (freePages memMap).card) {mmfr0 : U64} (hpages : HasPages mmfr0)
    (mem : U64 → U64) (r : MmuRegs) (m : ByteMem.Mem) :
    ∃ pg r' l pg' m' lines, pagingInit memMap fuel layout board mmfr0 mem r = some (pg, r') ∧
      lookup pg layout.idmapPgdDir layout.readonlyPage = some l ∧
      testWalkPgtable fuel layout (pgLevelInit pgLevel) pg m =
        some (pg', m', .printk testPageFmt [layout.readonlyPage, l.entry] ::
          lines.map TestLine.range ++ [.printk writeDoneFmt []]) ∧
      (∀ va : U64, layout.Tested va → r'.walk pg true .store va = none) ∧
      (∀ (el1 : Bool) (kind : AccessKind) (va : U64), va >>> 48 ≠ 0xffff#64 →
        r'.walk pg' el1 kind va =
          if el1 = true ∧ kind = .store ∧ layout.Tested va then some (va, 0xff#8)
          else r'.walk pg el1 kind va) ∧
      (∀ (el1 : Bool) (kind : AccessKind) (va : U64), layout.readonlyPage ≤ va →
        va < layout.textEnd →
          r'.walk pg' el1 kind va = (readDump lines el1 kind va).map fun attr => (va, attr)) ∧
      (∀ b : U64, if layout.readonlyPage ≤ b ∧ b < layout.readonlyPage + 100#64 then
          m' b = 0x55#8 ∧ r'.walk pg' true .store b = some (b, 0xff#8)
        else m' b = m b) ∧
      (layout.readonlyPage ≠ layout.idmapPgdDir → ∀ k x b,
        (pg'.tree ⟨layout.idmapPgdDir, layout.pgd_aligned⟩).walk k x = some b →
          b.base ≠ layout.readonlyPage) := by
  obtain ⟨pg, hinit, hmapped, htables⟩ := exists_pagingInit layout board hfuel hfree hpages mem r
  obtain ⟨l, pg', calls, htest, howned, hattrs, hon, hoff, hdumps⟩ :=
    hmapped.testWalkPgtable hpgd htables hfuel m
  obtain ⟨hpage, hge⟩ := layout.toNat_readonlyPage
  have hend := layout.end_le
  rw [lowMemory_toNat] at hend
  -- an address of the block leads to itself, before and after, and the CPU has it
  have hblock : ∀ va, layout.Tested va → va.toNat < 2 ^ 48 ∧ l.translate va = va ∧
      va.toNat < 2 ^ paRangeBits mmfr0 := by
    intro va hva
    have hlt : va.toNat < layout.textEnd.toNat := hva.2
    have hpow : 2 ^ 32 ≤ 2 ^ paRangeBits mmfr0 :=
      Nat.pow_le_pow_right (by decide) (paRangeBits_ge mmfr0)
    exact ⟨by omega, hmapped.translate_eq (by omega) (hon va hva).1, by omega⟩
  have hwalk : ∀ (el1 : Bool) (kind : AccessKind) (va : U64), layout.Tested va →
      (cpuInit mmfr0 { r with ttbr0 := layout.idmapPgdDir, sctlr := sctlrElxM }).walk pg el1 kind
          va =
        (l.lets mmfr0 { r with ttbr0 := layout.idmapPgdDir, sctlr := sctlrElxM } el1 kind).map
          fun attr => (va, attr) := by
    intro el1 kind va hva
    obtain ⟨hbelow, himage, hfits⟩ := hblock va hva
    exact walk_identity (layout.ttbr_base rfl) (hon va hva).1 hbelow himage hfits el1 kind
  have hwalk' : ∀ (el1 : Bool) (kind : AccessKind) (va : U64), layout.Tested va →
      (cpuInit mmfr0 { r with ttbr0 := layout.idmapPgdDir, sctlr := sctlrElxM }).walk pg' el1 kind
          va =
        ((l.withEntry (pteMkwrite (pteMkyoung l.entry))).lets mmfr0
          { r with ttbr0 := layout.idmapPgdDir, sctlr := sctlrElxM } el1 kind).map
            fun attr => (va, attr) := by
    intro el1 kind va hva
    obtain ⟨hbelow, himage, hfits⟩ := hblock va hva
    exact walk_identity (layout.ttbr_base rfl) (hon va hva).2 hbelow
      ((translate_mkwrite l va).trans himage) hfits el1 kind
  have hopen : ∀ (el1 : Bool) (kind : AccessKind) (va : U64), layout.Tested va →
      (cpuInit mmfr0 { r with ttbr0 := layout.idmapPgdDir, sctlr := sctlrElxM }).walk pg' el1 kind
          va =
        if el1 = true ∧ kind = .store then some (va, 0xff#8)
        else (cpuInit mmfr0 { r with ttbr0 := layout.idmapPgdDir, sctlr := sctlrElxM }).walk pg
          el1 kind va := by
    intro el1 kind va hva
    rw [hwalk' el1 kind va hva, hwalk el1 kind va hva, lets_mkwrite hattrs]
    split_ifs <;> rfl
  have hin : ∀ va : U64, layout.readonlyPage ≤ va → va < layout.textEnd → layout.Tested va :=
    fun va hlow hhigh => layout.tested_of_readonlyPage hlow hhigh
  have hpageEnd : layout.readonlyPage < layout.textEnd := by
    rw [BitVec.lt_def]
    omega
  refine ⟨pg, _, l, pg', ByteMem.fillBytes layout.readonlyPage 100 0x55 m,
    calls.map fun c => (c, c.flags (pgLevelInit pgLevel)), hinit,
    (hon _ (hin _ (BitVec.le_refl _) hpageEnd)).1, ?_, fun va hva => ?_,
    fun el1 kind va hva => ?_, fun el1 kind va hlow hhigh => ?_, fun b => ?_,
    fun hroot k x b hb hbase => ?_⟩
  · rw [htest, List.map_map]
    rfl
  · rw [hwalk true .store va hva, lets_store_text hattrs, Option.map_none]
  · by_cases htested : layout.Tested va
    · rw [hopen el1 kind va htested]
      simp only [htested, and_true]
    · rw [if_neg fun h => htested h.2.2, MmuRegs.walk, MmuRegs.walk, table_cpuInit mmfr0 _ hva]
      by_cases hzero : va >>> 48 = 0#64
      · rw [if_pos hzero, Option.bind_some, Option.bind_some, layout.ttbr_base rfl,
          hoff va (toNat_of_shiftRight hzero) htested]
      · rw [if_neg hzero, Option.bind_none, Option.bind_none]
  · have htested := hin va hlow hhigh
    have hshown : ∀ l', lookup pg' layout.idmapPgdDir va = some l' → l'.TypeShown := by
      intro l' hl'
      obtain rfl := Option.some.inj ((hon va htested).2.symm.trans hl')
      obtain ⟨i, hi, hindex⟩ := Region.type_shown .text hattrs
      exact ⟨i, hi, (attrIndx_mkwrite l).trans hindex⟩
    have hcovers := (hdumps.tiles.covers_iff va.toNat).mpr ⟨hlow, hhigh⟩
    rw [hwalk' el1 kind va htested, readDump_on hdumps.reads hshown hcovers el1 kind mmfr0
      { r with ttbr0 := layout.idmapPgdDir, sctlr := sctlrElxM }, (hon va htested).2,
      Option.bind_some]
  · rw [fillBytes_readonlyPage]
    split_ifs with hfilled
    · refine ⟨rfl, (hopen true .store b (hin b hfilled.1 ?_)).trans (if_pos ⟨rfl, rfl⟩)⟩
      have hbelow : b.toNat < (layout.readonlyPage + 100#64).toNat := hfilled.2
      rw [ByteMem.toNat_add_ofNat (i := 100) (by omega)] at hbelow
      rw [BitVec.lt_def]
      omega
    · rfl
  · -- a table is the root or a page of the allocator, which has none below 4 MiB
    rcases howned k x b hb with hpgdir | ⟨i, hi, halloc⟩
    · exact hroot (hbase.symm.trans hpgdir)
    · obtain ⟨j, hj, -, haddr⟩ := tablePage_free (htables i hi)
      have hnat := pageAddr_toNat hj
      rw [← haddr, ← halloc, hbase] at hnat
      omega

end Kernel

theorem testWalkPgtable_run_small :
    ∃ pg r' l pg' m' lines, pagingInit (fun _ => 0#8) 512 smallLayout .bcm2711 0x10305#64
        (fun _ => 0#64) ⟨0, 0, 0, 0, 0, 0, 0⟩ = some (pg, r') ∧
      testWalkPgtable 512 smallLayout (pgLevelInit pgLevel) pg (fun _ => 0#8) =
        some (pg', m', .printk testPageFmt [0x8F000#64, Leaf.entry l] ::
          List.map TestLine.range lines ++ [.printk writeDoneFmt []]) ∧
      r'.walk pg true .store 0x8F010#64 = none ∧
      r'.walk pg' true .store 0x8F010#64 = some (0x8F010#64, 0xff#8) ∧
      r'.walk pg' true .store 0x8E010#64 = r'.walk pg true .store 0x8E010#64 ∧
      m' 0x8F063#64 = 0x55#8 ∧ m' 0x8F064#64 = 0#8 := by
  obtain ⟨pg, r', l, pg', m', lines, hinit, -, htest, hclosed, hwalk, -, hbytes, -⟩ :=
    testWalkPgtable_run smallLayout .bcm2711 (by decide) le_rfl (enoughTables_of_free fun _ => rfl)
      (show HasPages 0x10305#64 by decide) (fun _ => 0#64) ⟨0, 0, 0, 0, 0, 0, 0⟩ (fun _ => 0#8)
  have hlast := hbytes 0x8F063#64
  have hbehind := hbytes 0x8F064#64
  rw [if_pos (by decide)] at hlast
  rw [if_neg (by decide)] at hbehind
  refine ⟨pg, r', l, pg', m', lines, hinit, htest, hclosed _ (by decide), ?_, ?_, hlast.1, hbehind⟩
  · exact (hwalk true .store 0x8F010#64 (by decide)).trans (if_pos (by decide))
  · exact (hwalk true .store 0x8E010#64 (by decide)).trans (if_neg (by decide))

end Arm64OS
