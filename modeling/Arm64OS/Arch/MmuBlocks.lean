import Arm64OS.Arch.MmuRun

/-!
# Sections and pages say the same

The translation and the attributes that the MMU finds do not depend on whether a block was
mapped by a section or by pages, so a call of `__create_pgd_mapping` on empty tables may be
made with `NO_BLOCK_MAPPINGS` or without.
-/

namespace Arm64OS

/-- The address that the MMU looks at: the low 48 bits. -/
def lowBits (va : U64) : U64 := BitVec.ofNat 64 (va.toNat % 2 ^ 48)

/-- What a leaf says about an address: where it leads, and the attribute bits without the one
that tells a page from a section. -/
def Leaf.view (va : U64) (l : Leaf) : U64 × U64 := (l.translate va, attrs l.entry)

variable {alloc : Nat → U64} {root : TablePage} {s : PgState} {m : Mapping} {ms : List Mapping}

theorem toNat_lowBits (va : U64) : (lowBits va).toNat = va.toNat % 2 ^ 48 := by
  rw [lowBits, BitVec.toNat_ofNat]
  omega

/-- An offset in a block lies in the low bits. -/
theorem and_not_lowBits (mask va : U64) {k : Nat} (hk : k ≤ 48)
    (hmask : mask = ~~~((1#64 <<< k) - 1#64)) : va &&& ~~~mask = lowBits va &&& ~~~mask := by
  have hdvd : 2 ^ k ∣ 2 ^ 48 := Nat.pow_dvd_pow 2 hk
  apply BitVec.eq_of_toNat_eq
  rw [hmask, BitVec.not_not, BitField.toNat_and_lowMask va (by omega),
    BitField.toNat_and_lowMask (lowBits va) (by omega), toNat_lowBits,
    Nat.mod_mod_of_dvd _ hdvd]

theorem translate_lowBits (l : Leaf) (va : U64) : l.translate va = l.translate (lowBits va) := by
  cases l with
  | sect e => rw [Leaf.translate, Leaf.translate, and_not_lowBits (entryMask pmdShift) va (by decide : 21 ≤ 48) rfl]
  | page e => rw [Leaf.translate, Leaf.translate, and_not_lowBits pageMask va (by decide : 12 ≤ 48) rfl]

/-- Where the tables hold disjoint mappings, the MMU finds what the mapping of the address
asks for. -/
theorem Mapped.lookup_in (h : Mapped alloc root ms s) (va : U64) (hm : m ∈ ms) (hproper : m.Proper)
    (hva : m.Covers (lowBits va).toNat) :
    (lookup s root.base va).map (Leaf.view va) =
      some ((m.phys &&& pageMask) + (lowBits va - m.addr), attrs m.prot) := by
  obtain ⟨l, hwant, hvalid, himage, hattrs⟩ := want_mapsAs hproper hva
  have hlt : (lowBits va).toNat < 2 ^ 48 := by
    rw [toNat_lowBits]
    exact Nat.mod_lt _ (by decide)
  have hleaf : s.leaf root va.toNat = some l := by
    rw [← leaf_mod, ← toNat_lowBits, h.leaf_in m hm _ hlt hva, hwant]
  have hlookup : lookup s root.base va = some l := by
    rw [lookup_eq, hleaf]
    exact Option.filter_some_pos hvalid
  rw [hlookup, Option.map_some, Leaf.view, translate_lowBits, himage, hattrs]

/-- An address of no mapping has no leaf. -/
theorem Mapped.lookup_off (h : Mapped alloc root ms s) (va : U64)
    (hva : ∀ m ∈ ms, ¬ m.Covers (lowBits va).toNat) : lookup s root.base va = none := by
  rw [toNat_lowBits] at hva
  rw [lookup_eq, ← leaf_mod, h.leaf_off _ (Nat.mod_lt _ (by decide)) hva]
  rfl

/-- A mapping with other flags. -/
def Mapping.withFlags (m : Mapping) (flags : U64) : Mapping := { m with flags := flags }

theorem Mapping.Proper.withFlags (h : m.Proper) (flags : U64) : (m.withFlags flags).Proper :=
  ⟨h.inRange, h.phys_below, h.prot_type, h.prot_addr⟩

section Flags

variable {fuel : Nat} {pgdir : U64}

/-- One call on empty tables, with any flags: the addresses of the range lead to their
images, with the attributes of `prot`, and the others nowhere. -/
theorem createPgdMapping_view (alloc : Nat → U64) (hfuel : 512 ≤ fuel) (hstart : Start pgdir s) (hm : m.Proper) :
    ∃ s', mapStep alloc fuel pgdir m s = some s' ∧
      (FreshPages alloc pgdir s'.allocs → ∀ va : U64,
        (lookup s' pgdir va).map (Leaf.view va) =
          if m.addr.toNat ≤ (lowBits va).toNat ∧ (lowBits va).toNat < m.end_.toNat then
            some ((m.phys &&& pageMask) + (lowBits va - m.addr), attrs m.prot)
          else none) := by
  have hrange : ∀ m' ∈ [m], m'.InRange := by simpa using hm.inRange
  obtain ⟨s', hs', -⟩ := exec_mapStep alloc hfuel hstart.aligned [m] hrange s
  have hstep : mapStep alloc fuel pgdir m s = some s' := by
    obtain ⟨t, ht, hrest⟩ := Option.bind_eq_some_iff.mp hs'
    obtain rfl : t = s' := Option.some.inj hrest
    exact ht
  refine ⟨s', hstep, fun hfresh va => ?_⟩
  have hmapped : Mapped alloc ⟨pgdir, hstart.aligned⟩ [m] s' :=
    hstart.mapped.exec hfuel hfresh [] [m] hrange (List.pairwise_singleton _ _) hs' le_rfl
  by_cases hva : m.Covers (lowBits va).toNat
  · exact (hmapped.lookup_in va (List.mem_singleton_self m) hm hva).trans (if_pos hva).symm
  · have hnone := hmapped.lookup_off va (by simpa using hva)
    exact (congrArg (Option.map (Leaf.view va)) hnone).trans (if_neg hva).symm

/-- On empty tables the call without flags and the call with `NO_BLOCK_MAPPINGS` both return,
and the MMU finds the same output address and attributes for every address, or nothing after
both of them. -/
theorem blocks_eq_pages (alloc : Nat → U64) (hfuel : 512 ≤ fuel) (hstart : Start pgdir s)
    (hm : m.Proper) :
    ∃ blocks pages,
      mapStep alloc fuel pgdir (m.withFlags 0#64) s = some blocks ∧
      mapStep alloc fuel pgdir (m.withFlags noBlockMappings) s = some pages ∧
      (FreshPages alloc pgdir blocks.allocs → FreshPages alloc pgdir pages.allocs → ∀ va : U64,
        (lookup blocks pgdir va).map (Leaf.view va) =
            (lookup pages pgdir va).map (Leaf.view va) ∧
          (lookup blocks pgdir va = none ↔ lookup pages pgdir va = none)) := by
  obtain ⟨blocks, hblocks, hview⟩ :=
    createPgdMapping_view alloc hfuel hstart (hm.withFlags 0#64)
  obtain ⟨pages, hpages, hview'⟩ :=
    createPgdMapping_view alloc hfuel hstart (hm.withFlags noBlockMappings)
  refine ⟨blocks, pages, hblocks, hpages, fun hfresh hfresh' va => ?_⟩
  have heq : (lookup blocks pgdir va).map (Leaf.view va) =
      (lookup pages pgdir va).map (Leaf.view va) :=
    (hview hfresh va).trans (hview' hfresh' va).symm
  have hnone : ((lookup blocks pgdir va).map (Leaf.view va) = none ↔
      (lookup pages pgdir va).map (Leaf.view va) = none) := by rw [heq]
  rw [Option.map_eq_none_iff, Option.map_eq_none_iff] at hnone
  exact ⟨heq, hnone⟩

/-- A block of 2 MiB and a page behind it. -/
def raggedCall : Mapping := ⟨0x200000#64, 0#64, 0x201000#64, 0x703#64, 0#64⟩

theorem raggedCall_proper : raggedCall.Proper := by
  refine ⟨?_, by decide, rfl, rfl⟩
  unfold Mapping.InRange
  decide

set_option maxRecDepth 20000 in
theorem blocks_eq_pages_ragged :
    ∃ blocks pages,
      mapStep pagesAbove 512 0x1000#64 (raggedCall.withFlags 0#64) PgState.zero = some blocks ∧
      mapStep pagesAbove 512 0x1000#64 (raggedCall.withFlags noBlockMappings) PgState.zero =
        some pages ∧
      blocks.allocs = 3 ∧ pages.allocs = 4 ∧
      ∀ va : U64, (lookup blocks 0x1000#64 va).map (Leaf.view va) =
        (lookup pages 0x1000#64 va).map (Leaf.view va) := by
  obtain ⟨blocks, pages, hblocks, hpages, hview⟩ :=
    blocks_eq_pages pagesAbove le_rfl start_zero raggedCall_proper
  have hallocs : (mapStep pagesAbove 512 0x1000#64 (raggedCall.withFlags 0#64)
      PgState.zero).map PgState.allocs = some 3 := rfl
  have hallocs' : (mapStep pagesAbove 512 0x1000#64 (raggedCall.withFlags noBlockMappings)
      PgState.zero).map PgState.allocs = some 4 := rfl
  rw [hblocks] at hallocs
  rw [hpages] at hallocs'
  obtain hallocs : blocks.allocs = 3 := Option.some.inj hallocs
  obtain hallocs' : pages.allocs = 4 := Option.some.inj hallocs'
  exact ⟨blocks, pages, hblocks, hpages, hallocs, hallocs', fun va =>
    (hview (hallocs ▸ freshPages_pagesAbove (by decide))
      (hallocs' ▸ freshPages_pagesAbove (by decide)) va).1⟩

end Flags

end Arm64OS
