import Arm64OS.Lib.Run
import Arm64OS.Arch.MmuLeaf

/-!
# Sequences of mappings

What holds after any sequence of calls of `__create_pgd_mapping` on one `pgdir`: where
every address leads, and where the stores of the calls went.  Both rest on the effect
of one call.  Calls on disjoint ranges never meet a section where they need a table;
calls on overlapping ranges can, and then the section's output address is taken for
one.
-/

namespace Arm64OS

/-- A run of calls on the table `pgdir`. -/
def mapStep (alloc : Nat → U64) (fuel : Nat) (pgdir : U64) (m : Mapping) (s : PgState) :
    Option PgState :=
  createPgdMapping alloc fuel pgdir m.phys m.virt m.size m.prot m.flags s

/-- `pgdir` is a page of zeros and nothing has happened yet. -/
structure Start (pgdir : U64) (s : PgState) : Prop where
  aligned : pgdir.toNat % 4096 = 0
  zero : ∀ a, a - pgdir < pageSize → s.mem a = 0#64
  allocs : s.allocs = 0
  stores : s.stores = []

variable {alloc : Nat → U64} {root : TablePage} {s : PgState} {m : Mapping}

/-! ### The lookups on the tree -/

theorem entry_pgd (s : PgState) (root : TablePage) (va : U64) :
    (s.tree root).entry 0 va.toNat = some (s.mem (pgdOffsetRaw root.base va)) := by
  rw [RadixTree.Tree.entry_of_walk (walk_tree_zero _), tree_cells, tree_idx, pgdOffsetRaw,
    root.cell_of_index (toNat_pgdIndex va)]

/-- Below a table entry the next entry lies where the macros say. -/
theorem entry_next {k : Nat} (hk : k ≤ 2) {va e : U64} {index : U64 → U64}
    (hindex : ∀ a, (index a).toNat = tableIndex (k + 1) a.toNat)
    (he : (s.tree root).entry k va.toNat = some e) (htype : e &&& typeMask = typeTable) :
    (s.tree root).entry (k + 1) va.toNat = some (s.mem (pagePaddr e + index va * 8#64)) := by
  have hwalk : (s.tree root).walk (k + 1) va.toNat = some (pageOf e) := by
    rw [RadixTree.Tree.walk_succ, he, Option.bind_some, tree_child, tableChild,
      if_pos ⟨hk, htype⟩]
  rw [RadixTree.Tree.entry_of_walk hwalk, tree_cells, tree_idx,
    ← (pageOf e).cell_of_index (hindex va)]
  rfl

/-- Below any other entry there is none. -/
theorem entry_stop {k j y : Nat} {e : U64} (he : (s.tree root).entry k y = some e)
    (htype : e &&& typeMask ≠ typeTable) (hkj : k < j) : (s.tree root).entry j y = none := by
  refine RadixTree.Tree.entry_eq_none_of_le (k := k + 1) ?_ hkj
  rw [RadixTree.Tree.walk_succ, he, Option.bind_some, tree_child,
    tableChild_eq_none fun _ => htype]

/-- The MMU finds the leaf of the tree, if its type bits are right. -/
theorem lookup_eq (s : PgState) (root : TablePage) (va : U64) :
    lookup s root.base va = (s.leaf root va.toNat).filter Leaf.valid := by
  have h0 := entry_pgd s root va
  unfold lookup PgState.leaf
  dsimp only
  rw [pgdOffsetRaw] at h0
  generalize s.mem (root.base + pgdIndex va * 8#64) = pgd at *
  -- One level after the other: an entry that is no table ends both lookups.
  by_cases t0 : pgd &&& typeMask = typeTable
  swap
  · simp [t0, entry_stop h0 t0 (by decide : 0 < 2), leafOf]
  have h1 := entry_next (by decide) toNat_pudIndex h0 t0
  generalize s.mem (pagePaddr pgd + pudIndex va * 8#64) = pud at *
  by_cases t1 : pud &&& typeMask = typeTable
  swap
  · simp [t1, entry_stop h1 t1 (by decide : 1 < 2), leafOf]
  have h2 := entry_next (by decide) toNat_pmdIndex h1 t1
  generalize s.mem (pagePaddr pud + pmdIndex va * 8#64) = pmd at *
  rw [if_pos t0, if_pos t1, h2, leafOf]
  -- Only level 2 may hold a section.
  by_cases tsect : pmd &&& typeMask = pmdTypeSect
  · rw [if_pos tsect, if_pos tsect]
    rfl
  rw [if_neg tsect, if_neg tsect]
  by_cases t2 : pmd &&& typeMask = typeTable
  swap
  · simp [t2, entry_stop h2 t2 (by decide : 2 < 3)]
  have h3 := entry_next (by decide) toNat_pteIndex h2 t2
  generalize s.mem (pagePaddr pmd + pteIndex va * 8#64) = pte at *
  rw [if_pos t2, h3, Option.bind_some, pageLeaf]
  by_cases hzero : pte = 0#64
  · subst hzero
    rfl
  · rw [if_neg hzero]
    by_cases t3 : pte &&& typeMask = pteTypePage
    · simp [t3, Option.filter, Leaf.valid]
    · simp [t3, Option.filter, Leaf.valid]

/-- Where the tree has no leaf, `walk_pgtable` returns `NULL`. -/
theorem walkPgtable_eq_none (h : Inv alloc root s) {va : U64}
    (hleaf : s.leaf root va.toNat = none) : walkPgtable s root.base va = none := by
  -- The walk goes on at entries that are not zero; by `h` those are tables.
  have h0 := entry_pgd s root va
  unfold walkPgtable
  dsimp only
  by_cases z0 : pgdOffsetRaw root.base va = 0#64 ∨ s.mem (pgdOffsetRaw root.base va) = 0#64
  · rw [if_pos z0]
  rw [if_neg z0]
  have t0 := h.table_of_entry (by decide) h0 (not_or.mp z0).2 (absurd · (by decide))
  have h1 := entry_next (by decide) toNat_pudIndex h0 t0
  change (s.tree root).entry 1 _ = some (s.mem (pudOffsetPhys s _ va)) at h1
  generalize pudOffsetPhys s (pgdOffsetRaw root.base va) va = pud at *
  by_cases z1 : pud = 0#64 ∨ s.mem pud = 0#64
  · rw [if_pos z1]
  rw [if_neg z1]
  have t1 := h.table_of_entry (by decide) h1 (not_or.mp z1).2 (absurd · (by decide))
  have h2 := entry_next (by decide) toNat_pmdIndex h1 t1
  change (s.tree root).entry 2 _ = some (s.mem (pmdOffsetPhys s pud va)) at h2
  generalize pmdOffsetPhys s pud va = pmd at *
  by_cases z2 : pmd = 0#64 ∨ s.mem pmd = 0#64
  · rw [if_pos z2]
  rw [if_neg z2]
  rw [PgState.leaf, h2, leafOf] at hleaf
  by_cases tsect : s.mem pmd &&& typeMask = pmdTypeSect
  · rw [if_pos tsect] at hleaf
    cases hleaf
  rw [if_neg tsect] at hleaf ⊢
  have t2 := h.table_of_entry le_rfl h2 (not_or.mp z2).2 fun _ => tsect
  have h3 := entry_next (by decide) toNat_pteIndex h2 t2
  change (s.tree root).entry 3 _ = some (s.mem (pteOffsetPhys s pmd va)) at h3
  by_cases z3 : s.mem (pteOffsetPhys s pmd va) = 0#64
  · rw [if_pos (Or.inr z3)]
  · rw [h3, Option.bind_some, pageLeaf, if_neg z3] at hleaf
    cases hleaf

/-! ### Stores -/

/-- No address that the call maps by a page is mapped by a section now. -/
def Mapping.NoSectionInWay (m : Mapping) (pgdir : U64) (s : PgState) : Prop :=
  ∀ va : U64, m.Covers va.toNat → ¬ m.usesSection va.toNat →
    ∀ e, lookup s pgdir va ≠ some (.sect e)

theorem Mapping.NoSectionInWay.pagesFree (root : TablePage) (h : m.NoSectionInWay root.base s)
    (hm : m.InRange) :
    m.PagesFree root m.addr.toNat m.end_.toNat s := by
  intro y hlo hhi hpages e hleaf
  have hy : (BitVec.ofNat 64 y).toNat = y := by
    rw [BitVec.toNat_ofNat]
    have := hm.2
    omega
  refine h (BitVec.ofNat 64 y) (hy.symm ▸ ⟨hlo, hhi⟩) (hy.symm ▸ hpages) e ?_
  rw [lookup_eq, hy, hleaf]
  rfl

/-- Every store so far went into `pgdir` or into a page obtained before the store. -/
def StoresInTables (alloc : Nat → U64) (pgdir : U64) (s : PgState) : Prop :=
  ∀ st ∈ s.stores, InTables alloc pgdir st.2 st.1

variable {fuel : Nat} {pgdir : U64}

/-- Calls on proper ranges return, whatever the tables hold. -/
theorem exec_mapStep (alloc : Nat → U64) (hfuel : 512 ≤ fuel) (hp : pgdir.toNat % 4096 = 0) (ms : List Mapping)
    (hms : ∀ m ∈ ms, m.InRange) (s : PgState) :
    ∃ s', Run.exec (mapStep alloc fuel pgdir) ms s = some s' ∧ s.allocs ≤ s'.allocs := by
  induction ms generalizing s with
  | nil => exact ⟨s, rfl, le_rfl⟩
  | cons m ms ih =>
      obtain ⟨s₁, hs₁, hmono, -⟩ := createPgdMapping_spec alloc ⟨pgdir, hp⟩
        (hms m (List.mem_cons_self ..)) hfuel s
      obtain ⟨s₂, hs₂, hmono'⟩ := ih (fun m' hm' => hms m' (List.mem_cons_of_mem _ hm')) s₁
      refine ⟨s₂, ?_, hmono.trans hmono'⟩
      rw [Run.exec_cons, mapStep, hs₁, Option.bind_some, hs₂]

theorem Start.inv (h : Start pgdir s) : Inv alloc ⟨pgdir, h.aligned⟩ s :=
  inv_zero (fun i => h.zero _ ((TablePage.cell_sub_lt_iff _ ⟨pgdir, h.aligned⟩ i).mpr rfl)) h.stores

theorem Start.leaf (h : Start pgdir s) (y : Nat) : s.leaf ⟨pgdir, h.aligned⟩ y = none :=
  leaf_zero (fun i => h.zero _ ((TablePage.cell_sub_lt_iff _ ⟨pgdir, h.aligned⟩ i).mpr rfl)) y

/-- A run of calls none of which meets a section where it needs a table keeps the tables a
tree, as long as `alloc_pgtable` returns new pages. -/
theorem inv_run (hfuel : 512 ≤ fuel) (hstart : Start pgdir s) {ms : List Mapping}
    (hms : ∀ m ∈ ms, m.InRange)
    (hfree : Run.Along (mapStep alloc fuel pgdir) (fun m s => m.NoSectionInWay pgdir s) ms s)
    {s' : PgState} (hs' : Run.exec (mapStep alloc fuel pgdir) ms s = some s')
    (hfresh : FreshPages alloc pgdir s'.allocs) : Inv alloc ⟨pgdir, hstart.aligned⟩ s' := by
  have hinv : s'.allocs ≤ s'.allocs → Inv alloc ⟨pgdir, hstart.aligned⟩ s' := by
    refine Run.exec_invariant (I := fun t => t.allocs ≤ s'.allocs → Inv alloc _ t) ?_
      (fun _ => hstart.inv) (hfree.and_forall hms) hs'
    -- the pages of a step are new ones because those of the whole run are
    rintro m t t' hinv ⟨hm, hfree⟩ hstep hle
    obtain ⟨t₁, ht₁, hmono, heffect⟩ := createPgdMapping_spec alloc
      ⟨pgdir, hstart.aligned⟩ hm hfuel t
    obtain rfl : t₁ = t' := Option.some.inj (ht₁.symm.trans hstep)
    have hpages := Mapping.NoSectionInWay.pagesFree ⟨pgdir, hstart.aligned⟩ hfree hm
    exact (heffect _ hfresh hle (hinv (hmono.trans hle)) hpages).inv
  exact hinv le_rfl

/-- In every run of calls none of which meets a section where it needs a table, every
store goes into `pgdir` or into a page obtained from `alloc_pgtable`. -/
theorem storesInTables_run (alloc : Nat → U64) (hfuel : 512 ≤ fuel) (hstart : Start pgdir s) (ms : List Mapping)
    (hms : ∀ m ∈ ms, m.InRange)
    (hfree : Run.Along (mapStep alloc fuel pgdir)
      (fun m s => m.NoSectionInWay pgdir s) ms s) :
    ∃ s', Run.exec (mapStep alloc fuel pgdir) ms s = some s' ∧
      (FreshPages alloc pgdir s'.allocs → StoresInTables alloc pgdir s') := by
  obtain ⟨s', hs', -⟩ := exec_mapStep alloc hfuel hstart.aligned ms hms s
  exact ⟨s', hs', fun hfresh => (inv_run hfuel hstart hms hfree hs' hfresh).stores⟩

/-! A run that needs no table below a section, and one that does. -/

def PgState.zero : PgState := ⟨fun _ => 0#64, 0, []⟩

/-- Pages above `0x1000`, one after the other. -/
def pagesAbove (n : Nat) : U64 := BitVec.ofNat 64 ((n + 2) * 4096)

/-- The first 2 MiB, mapped to the second 2 MiB by a section. -/
def sectionCall : Mapping := ⟨0x200000#64, 0#64, 0x200000#64, 0x703#64, 0#64⟩

/-- The page at `0x3000`, mapped to `0x5000` by a page. -/
def pageCall : Mapping := ⟨0x5000#64, 0x3000#64, 0x1000#64, 0x703#64, noBlockMappings⟩

theorem start_zero : Start 0x1000#64 PgState.zero := ⟨rfl, fun _ _ => rfl, rfl, rfl⟩

theorem freshPages_pagesAbove {n : Nat} (hn : n ≤ 1024) : FreshPages pagesAbove 0x1000#64 n := by
  have htoNat : ∀ i < n, (pagesAbove i).toNat = (i + 2) * 4096 := by
    intro i hi
    rw [pagesAbove, BitVec.toNat_ofNat]
    omega
  refine ⟨fun i hi => ?_, fun i hi => ?_, fun i hi heq => ?_, fun i hi j hj heq => ?_⟩
  · rw [htoNat i hi]
    omega
  · rw [htoNat i hi]
    omega
  · have hnat := congrArg BitVec.toNat heq
    rw [htoNat i hi, BitVec.toNat_ofNat] at hnat
    omega
  · have hnat := congrArg BitVec.toNat heq
    rw [htoNat i hi, htoNat j hj] at hnat
    omega

theorem sectionCall_inRange : sectionCall.InRange := by
  unfold Mapping.InRange
  decide

theorem pageCall_inRange : pageCall.InRange := by
  unfold Mapping.InRange
  decide

theorem sectionCall_free (s : PgState) : sectionCall.NoSectionInWay 0x1000#64 s := by
  intro va hva hpages
  refine absurd ?_ hpages
  have haddr : sectionCall.addr.toNat = 0 := rfl
  have hend : sectionCall.end_.toNat = 0x200000 := rfl
  obtain ⟨-, hlt⟩ := hva
  refine ⟨?_, ?_, rfl, rfl⟩
  · rw [haddr]
    exact Nat.zero_le _
  · rw [hend, span_three] at *
    omega

theorem storesInTables_run_twice :
    ∃ s, Run.exec (mapStep pagesAbove 512 0x1000#64) [sectionCall, sectionCall] PgState.zero =
        some s ∧ StoresInTables pagesAbove 0x1000#64 s := by
  obtain ⟨s, hs, hstores⟩ := storesInTables_run pagesAbove le_rfl start_zero
    [sectionCall, sectionCall] (by simp [sectionCall_inRange])
    ⟨sectionCall_free _, fun _ _ => ⟨sectionCall_free _, fun _ _ => trivial⟩⟩
  refine ⟨s, hs, hstores ?_⟩
  have hallocs : (Run.exec (mapStep pagesAbove 512 0x1000#64) [sectionCall, sectionCall]
      PgState.zero).map PgState.allocs = some 2 := rfl
  rw [hs] at hallocs
  obtain hallocs : s.allocs = 2 := Option.some.inj hallocs
  rw [hallocs]
  exact freshPages_pagesAbove (by decide)

/-- A page request below a section writes its entry to the section's output address. -/
theorem section_taken_for_table :
    Start 0x1000#64 PgState.zero ∧ (∀ m ∈ [sectionCall, pageCall], m.InRange) ∧
      ∃ s, Run.exec (mapStep pagesAbove 512 0x1000#64) [sectionCall, pageCall] PgState.zero =
          some s ∧
        FreshPages pagesAbove 0x1000#64 s.allocs ∧ (0x200018#64, 2) ∈ s.stores ∧
        ¬ StoresInTables pagesAbove 0x1000#64 s := by
  have hrun : (Run.exec (mapStep pagesAbove 512 0x1000#64) [sectionCall, pageCall]
      PgState.zero).map (fun s => (s.allocs, s.stores)) =
        some (2, [(0x200018#64, 2), (0x3000#64, 2), (0x2000#64, 2), (0x1000#64, 1)]) := rfl
  obtain ⟨s, hs, heq⟩ := Option.map_eq_some_iff.mp hrun
  obtain ⟨hallocs, hstores⟩ := Prod.mk.inj heq
  have hmem : (0x200018#64, 2) ∈ s.stores := hstores ▸ List.mem_cons_self ..
  refine ⟨start_zero, by simp [sectionCall_inRange, pageCall_inRange], s, hs, ?_, hmem, ?_⟩
  · exact hallocs ▸ freshPages_pagesAbove (by decide)
  · intro h
    have haddr : ((0x200018#64, 2) : U64 × Nat).1.toNat = 0x200018 := rfl
    rcases h _ hmem with hroot | ⟨i, hi, hpage⟩
    · exact absurd hroot.2 (by decide)
    · have htop : (pagesAbove i).toNat = (i + 2) * 4096 := by
        rw [pagesAbove, BitVec.toNat_ofNat]
        omega
      have hle := hpage.2
      rw [htop, haddr] at hle
      omega

/-! ### Disjoint ranges -/

/-- No address lies in both ranges. -/
def Mapping.Disjoint (m m' : Mapping) : Prop := ∀ y, ¬ (m.Covers y ∧ m'.Covers y)

/-- The tables after calls on disjoint ranges: the addresses of each call have the leaves
it gave them, the others have none. -/
structure Mapped (alloc : Nat → U64) (root : TablePage) (ms : List Mapping) (s : PgState) :
    Prop where
  inv : Inv alloc root s
  leaf_in : ∀ m ∈ ms, ∀ y < 2 ^ 48, m.Covers y → s.leaf root y = m.want y
  leaf_off : ∀ y < 2 ^ 48, (∀ m ∈ ms, ¬ m.Covers y) → s.leaf root y = none

theorem Start.mapped (h : Start pgdir s) : Mapped alloc ⟨pgdir, h.aligned⟩ [] s :=
  ⟨h.inv, fun _ hm => absurd hm List.not_mem_nil, fun y _ _ => h.leaf y⟩

/-- A range that no earlier call covers holds no leaf at all, so no section either. -/
theorem Mapped.pagesFree {ms : List Mapping} (h : Mapped alloc root ms s) (hm : m.InRange)
    (hdisj : ∀ m' ∈ ms, m'.Disjoint m) : m.PagesFree root m.addr.toNat m.end_.toNat s := by
  intro y hlo hhi _ e hleaf
  have hnone : s.leaf root y = none :=
    h.leaf_off y (Nat.lt_of_lt_of_le hhi hm.2) fun m' hm' hy => hdisj m' hm' y ⟨hy, hlo, hhi⟩
  rw [hnone] at hleaf
  cases hleaf

/-- One more call on a range that no earlier call covers. -/
theorem Mapped.snoc {ms : List Mapping} {s' : PgState} (h : Mapped alloc root ms s)
    (hdisj : ∀ m' ∈ ms, m'.Disjoint m)
    (heffect : Effect alloc root m.want 0 m.addr.toNat m.end_.toNat s s') :
    Mapped alloc root (ms ++ [m]) s' := by
  refine ⟨heffect.inv, ?_, ?_⟩
  · intro m' hm' y hy hcov
    rcases List.mem_append.mp hm' with hold | hnew
    · rw [heffect.leaf_off y hy fun hcov' => hdisj m' hold y ⟨hcov, hcov'⟩]
      exact h.leaf_in m' hold y hy hcov
    · obtain rfl := List.mem_singleton.mp hnew
      exact heffect.leaf_in y hcov.1 hcov.2
  · intro y hy hnone
    rw [heffect.leaf_off y hy (hnone m (by simp))]
    exact h.leaf_off y hy fun m' hm' => hnone m' (List.mem_append_left _ hm')

theorem Mapped.exec {n : Nat} {s' : PgState} (hfuel : 512 ≤ fuel)
    (hfresh : FreshPages alloc root.base n) (done ms : List Mapping)
    (hms : ∀ m ∈ ms, m.InRange) (hdisj : (done ++ ms).Pairwise Mapping.Disjoint)
    (h : Mapped alloc root done s)
    (hrun : Run.exec (mapStep alloc fuel root.base) ms s = some s') (hn : s'.allocs ≤ n) :
    Mapped alloc root (done ++ ms) s' := by
  induction ms generalizing done s with
  | nil =>
      obtain rfl : s = s' := by simpa using hrun
      simpa using h
  | cons m ms ih =>
      have hm := hms m (List.mem_cons_self ..)
      have hms' : ∀ m' ∈ ms, m'.InRange := fun m' hm' => hms m' (List.mem_cons_of_mem _ hm')
      have hbefore : ∀ m' ∈ done, m'.Disjoint m := fun m' hm' =>
        (List.pairwise_append.mp hdisj).2.2 m' hm' m (List.mem_cons_self ..)
      obtain ⟨s₁, hs₁, hmono, heffect⟩ := createPgdMapping_spec alloc root hm hfuel s
      -- the rest of the run only adds allocations, so those of this call are below `n`
      have hrest : Run.exec (mapStep alloc fuel root.base) ms s₁ = some s' := by
        rw [Run.exec_cons, mapStep, hs₁] at hrun
        exact hrun
      obtain ⟨s₂, hs₂, hmono'⟩ := exec_mapStep alloc hfuel root.aligned ms hms' s₁
      obtain rfl : s₂ = s' := Option.some.inj (hs₂.symm.trans hrest)
      have hsnoc := h.snoc hbefore
        (heffect n hfresh (hmono'.trans hn) h.inv (h.pagesFree hm hbefore))
      rw [List.append_cons] at hdisj ⊢
      exact ih (done ++ [m]) hms' hdisj hsnoc hrest

/-- The walkers look at the low 48 bits of an address only. -/
theorem leaf_mod (y : Nat) : s.leaf root (y % 2 ^ 48) = s.leaf root y := by
  have hpath : (s.tree root).SamePath 4 (y % 2 ^ 48) y := fun j hj =>
    tableIndex_mod (by omega) y
  simp only [PgState.leaf, RadixTree.Tree.entry_congr hpath,
    RadixTree.Tree.entry_congr (hpath.mono (by decide : 3 ≤ 4))]

/-- After any sequence of proper calls on disjoint ranges, every address of a range leads
to the image that its call asked for, and an address whose low 48 bits lie in no range
leads nowhere. -/
theorem mappings_run (alloc : Nat → U64) (hfuel : 512 ≤ fuel) (hstart : Start pgdir s) (ms : List Mapping)
    (hms : ∀ m ∈ ms, m.Proper) (hdisj : ms.Pairwise Mapping.Disjoint) :
    ∃ s', Run.exec (mapStep alloc fuel pgdir) ms s = some s' ∧
      (FreshPages alloc pgdir s'.allocs →
        (∀ m ∈ ms, ∀ va : U64, m.Covers va.toNat →
          ∃ l, lookup s' pgdir va = some l ∧
            l.translate va = (m.phys &&& pageMask) + (va - (m.virt &&& pageMask)) ∧
            attrs l.entry = attrs m.prot) ∧
        ∀ va : U64, (∀ m ∈ ms, ¬ m.Covers (va.toNat % 2 ^ 48)) →
          walkPgtable s' pgdir va = none) := by
  have hrange : ∀ m ∈ ms, m.InRange := fun m hm => (hms m hm).inRange
  obtain ⟨s', hs', -⟩ := exec_mapStep alloc hfuel hstart.aligned ms hrange s
  refine ⟨s', hs', fun hfresh => ?_⟩
  have hmapped : Mapped alloc ⟨pgdir, hstart.aligned⟩ ms s' :=
    hstart.mapped.exec hfuel hfresh [] ms hrange hdisj hs' le_rfl
  constructor
  · intro m hm va hva
    obtain ⟨l, hl, hvalid, himage, hattrs⟩ := want_mapsAs (hms m hm) hva
    refine ⟨l, ?_, himage, hattrs⟩
    have hbelow : va.toNat < 2 ^ 48 := Nat.lt_of_lt_of_le hva.2 (hrange m hm).2
    have hlookup := lookup_eq s' ⟨pgdir, hstart.aligned⟩ va
    rw [hmapped.leaf_in m hm _ hbelow hva, hl] at hlookup
    simpa [Option.filter, hvalid] using hlookup
  · intro va hva
    have hleaf := hmapped.leaf_off _ (Nat.mod_lt _ (by decide)) hva
    rw [leaf_mod] at hleaf
    have hnull := walkPgtable_eq_none hmapped.inv hleaf
    exact hnull

/-- The page at `0x200000`, behind the section of `sectionCall`. -/
def nextCall : Mapping := ⟨0x5000#64, 0x200000#64, 0x1000#64, 0x703#64, 0#64⟩

theorem sectionCall_proper : sectionCall.Proper :=
  ⟨sectionCall_inRange, by decide, rfl, rfl⟩

theorem nextCall_proper : nextCall.Proper :=
  ⟨by unfold Mapping.InRange; decide, by decide, rfl, rfl⟩

theorem pageCall_proper : pageCall.Proper :=
  ⟨pageCall_inRange, by decide, rfl, rfl⟩

theorem sectionCall_disjoint_nextCall : sectionCall.Disjoint nextCall := by
  rintro y ⟨⟨-, hlt⟩, ⟨hge, -⟩⟩
  have hend : sectionCall.end_.toNat = 0x200000 := rfl
  have haddr : nextCall.addr.toNat = 0x200000 := rfl
  omega

theorem mappings_run_two :
    ∃ s, Run.exec (mapStep pagesAbove 512 0x1000#64) [sectionCall, nextCall] PgState.zero =
        some s ∧
      (∀ m ∈ [sectionCall, nextCall], ∀ va : U64, m.Covers va.toNat →
        ∃ l, lookup s 0x1000#64 va = some l ∧
          l.translate va = (m.phys &&& pageMask) + (va - (m.virt &&& pageMask)) ∧
          attrs l.entry = attrs m.prot) ∧
      walkPgtable s 0x1000#64 0x400000#64 = none := by
  obtain ⟨s, hs, hmaps⟩ := mappings_run pagesAbove le_rfl start_zero
    [sectionCall, nextCall] (by simp [sectionCall_proper, nextCall_proper])
    (by simp [sectionCall_disjoint_nextCall])
  have hallocs : (Run.exec (mapStep pagesAbove 512 0x1000#64) [sectionCall, nextCall]
      PgState.zero).map PgState.allocs = some 3 := rfl
  rw [hs] at hallocs
  obtain hallocs : s.allocs = 3 := Option.some.inj hallocs
  obtain ⟨hin, hoff⟩ := hmaps (hallocs ▸ freshPages_pagesAbove (by decide))
  refine ⟨s, hs, hin, hoff _ fun m hm hva => ?_⟩
  rcases List.mem_pair.mp hm with rfl | rfl
  · exact absurd hva.2 (by decide)
  · exact absurd hva.2 (by decide)

/-- An address above `2 ^ 48` lies in no range, yet `walk_pgtable` finds the leaf of its
low 48 bits. -/
theorem walkPgtable_above_ranges :
    Start 0x1000#64 PgState.zero ∧ pageCall.Proper ∧
      ¬ pageCall.Covers (0x1000000003000#64 : U64).toNat ∧
      ∃ s, Run.exec (mapStep pagesAbove 512 0x1000#64) [pageCall] PgState.zero = some s ∧
        FreshPages pagesAbove 0x1000#64 s.allocs ∧
        walkPgtable s 0x1000#64 0x1000000003000#64 = some 0x4018#64 := by
  have hrun : (Run.exec (mapStep pagesAbove 512 0x1000#64) [pageCall] PgState.zero).map
      (fun s => (s.allocs, walkPgtable s 0x1000#64 0x1000000003000#64)) =
        some (3, some 0x4018#64) := rfl
  obtain ⟨s, hs, heq⟩ := Option.map_eq_some_iff.mp hrun
  obtain ⟨hallocs, hwalk⟩ := Prod.mk.inj heq
  refine ⟨start_zero, pageCall_proper, fun hcov => absurd hcov.2 (by decide), s, hs, ?_, hwalk⟩
  exact hallocs ▸ freshPages_pagesAbove (by decide)

end Arm64OS
