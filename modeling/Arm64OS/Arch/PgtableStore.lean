import Arm64OS.Arch.PgtableTree

/-!
# Stores into the tables

The effect of a stretch of the mapping code on the tree of tables: which addresses get
which leaf, that every other leaf stays, and down to which level the tables on every
path stay where they are.  Effects of neighbouring ranges compose.  The three kinds of
store are a page entry, a section entry, and the entry that names a new table.
-/

namespace Arm64OS

/-- From `s` to `s'` the addresses in `[lo, hi)` get the leaf `want`, and nothing else
changes for a lookup; no table of a level up to `k` is replaced on any path. -/
structure Effect (alloc : Nat → U64) (root : TablePage) (want : Nat → Option Leaf)
    (k lo hi : Nat) (s s' : PgState) : Prop where
  inv : Inv alloc root s'
  walk_eq : ∀ j ≤ k, ∀ x, (s'.tree root).walk j x = (s.tree root).walk j x
  leaf_in : ∀ y, lo ≤ y → y < hi → s'.leaf root y = want y
  leaf_off : ∀ y < 2 ^ 48, ¬ (lo ≤ y ∧ y < hi) → s'.leaf root y = s.leaf root y

variable {alloc : Nat → U64} {root : TablePage} {want : Nat → Option Leaf} {s s' : PgState}
  {k a : Nat} {b : TablePage} {v : U64}

theorem Effect.refl (h : Inv alloc root s) : Effect alloc root want k a a s s where
  inv := h
  walk_eq := fun _ _ _ => rfl
  leaf_in := fun y hlo hhi => absurd hlo (by omega)
  leaf_off := fun _ _ _ => rfl

/-- Neighbouring ranges compose; the first effect may reach further up. -/
theorem Effect.trans {k' m e : Nat} {s'' : PgState} (h : Effect alloc root want k a m s s')
    (h' : Effect alloc root want k' m e s' s'') (hk : k ≤ k') (ham : a ≤ m) (hme : m ≤ e)
    (he : e ≤ 2 ^ 48) : Effect alloc root want k a e s s'' := by
  refine ⟨h'.inv, fun j hj x => ?_, fun y hlo hhi => ?_, fun y hy hoff => ?_⟩
  · rw [h'.walk_eq j (hj.trans hk), h.walk_eq j hj]
  · by_cases hym : m ≤ y
    · exact h'.leaf_in y hym hhi
    · rw [h'.leaf_off y (by omega) (by omega)]
      exact h.leaf_in y hlo (by omega)
  · rw [h'.leaf_off y hy (by omega), h.leaf_off y hy (by omega)]

/-! ### Entries that name no table -/

/-- Addresses of another span keep their entries. -/
theorem entry_setEntry_of_off (h : Inv alloc root s) (hk : k ≤ 3)
    (hb : (s.tree root).walk k a = some b) {y : Nat} (ha : a < 2 ^ 48) (hy : y < 2 ^ 48)
    (hoff : y / span (k + 1) ≠ a / span (k + 1)) (j : Nat) :
    ((s.setEntry (b.cell (tableIndex k a)) v).tree root).entry j y =
      (s.tree root).entry j y := by
  rw [tree_setEntry]
  refine RadixTree.Tree.entry_set_of_off h.separated hb fun hpath => hoff ?_
  exact ((samePath_iff (by omega) ha hy).mp hpath.2).symm

theorem Inv.setEntry (h : Inv alloc root s) (hb : (s.tree root).walk k a = some b)
    (hv : tableChild k v = none) (hform : k ≤ 2 → k = 2 ∧ v &&& typeMask = pmdTypeSect) :
    Inv alloc root (s.setEntry (b.cell (tableIndex k a)) v) := by
  constructor
  case separated =>
    rw [tree_setEntry]
    exact h.separated.set hb hv
  case owned =>
    intro j x c hc
    rw [tree_setEntry] at hc
    exact h.owned j x c (RadixTree.Tree.walk_of_walk_set h.separated hb hv hc)
  case form =>
    intro j hj x e he
    rw [tree_setEntry] at he
    rcases RadixTree.Tree.entry_set_cases h.separated hb hv he with hold | ⟨rfl, rfl⟩
    · exact h.form j hj x e hold
    · exact Or.inr (Or.inr (hform hj))
  case stores =>
    intro st hst
    rcases List.mem_cons.mp hst with rfl | hst
    · exact h.inTables hb _
    · exact h.stores st hst

/-- A store of an entry that names no table: the span of the entry gets its leaf from
the new entry. -/
theorem Inv.effect_setEntry (h : Inv alloc root s) (hk : k ≤ 3)
    (hb : (s.tree root).walk k a = some b) (ha : a < 2 ^ 48) (halign : a % span (k + 1) = 0)
    (hv : tableChild k v = none) (hform : k ≤ 2 → k = 2 ∧ v &&& typeMask = pmdTypeSect)
    (hleaf : ∀ y < 2 ^ 48, y / span (k + 1) = a / span (k + 1) →
      (s.setEntry (b.cell (tableIndex k a)) v).leaf root y = want y) :
    Effect alloc root want k a (a + span (k + 1)) s
      (s.setEntry (b.cell (tableIndex k a)) v) := by
  -- The addresses of the entry are the ones of its span.
  have hspan : ∀ y, a ≤ y ∧ y < a + span (k + 1) ↔ y / span (k + 1) = a / span (k + 1) := by
    intro y
    obtain rfl | rfl | rfl | rfl : k = 0 ∨ k = 1 ∨ k = 2 ∨ k = 3 := by omega
    all_goals
      simp only [Nat.reduceAdd, span_one, span_two, span_three, span_four] at *
      omega
  have hlt : a + span (k + 1) ≤ 2 ^ 48 := by
    obtain rfl | rfl | rfl | rfl : k = 0 ∨ k = 1 ∨ k = 2 ∨ k = 3 := by omega
    all_goals
      simp only [Nat.reduceAdd, span_one, span_two, span_three, span_four] at *
      omega
  refine ⟨h.setEntry hb hv hform, fun j hj x => ?_, fun y hlo hhi => ?_, fun y hy hoff => ?_⟩
  · rw [tree_setEntry]
    exact RadixTree.Tree.walk_set_of_off h.separated hb fun hpath => absurd hpath.1 (by omega)
  · exact hleaf y (by omega) ((hspan y).mp ⟨hlo, hhi⟩)
  · have hne : y / span (k + 1) ≠ a / span (k + 1) := fun heq => hoff ((hspan y).mpr heq)
    simp only [PgState.leaf, entry_setEntry_of_off h hk hb ha hy hne]

/-- A section entry maps its 2 MiB. -/
theorem Inv.effect_section (h : Inv alloc root s) (hb : (s.tree root).walk 2 a = some b)
    (ha : a < 2 ^ 48) (halign : a % span 3 = 0) (hv : v &&& typeMask = pmdTypeSect)
    (hwant : ∀ y, y / span 3 = a / span 3 → want y = some (.sect v)) :
    Effect alloc root want 2 a (a + span 3) s (s.setEntry (b.cell (tableIndex 2 a)) v) := by
  have hchild : tableChild 2 v = none :=
    tableChild_eq_none fun _ => by rw [hv]; decide
  refine h.effect_setEntry (by decide) hb ha halign hchild (fun _ => ⟨rfl, hv⟩) ?_
  intro y hy hspan
  have hpath : (s.tree root).SamePath 3 a y := (samePath_iff (by decide) ha hy).mpr hspan.symm
  have hentry : ((s.setEntry (b.cell (tableIndex 2 a)) v).tree root).entry 2 y = some v := by
    rw [tree_setEntry]
    exact RadixTree.Tree.entry_set_self h.separated hb hpath
  rw [hwant y hspan, PgState.leaf, hentry, leafOf, if_pos hv]

/-- A page entry maps its 4 KiB. -/
theorem Inv.effect_page (h : Inv alloc root s) (hb : (s.tree root).walk 3 a = some b)
    (ha : a < 2 ^ 48) (halign : a % span 4 = 0)
    (hwant : ∀ y, y / span 4 = a / span 4 → want y = pageLeaf v) :
    Effect alloc root want 3 a (a + span 4) s (s.setEntry (b.cell (tableIndex 3 a)) v) := by
  have hchild : tableChild 3 v = none := tableChild_eq_none fun hk => absurd hk (by decide)
  refine h.effect_setEntry le_rfl hb ha halign hchild (fun hk => absurd hk (by decide)) ?_
  intro y hy hspan
  have hpath : (s.tree root).SamePath 4 a y := (samePath_iff le_rfl ha hy).mpr hspan.symm
  have hentry : ((s.setEntry (b.cell (tableIndex 3 a)) v).tree root).entry 3 y = some v := by
    rw [tree_setEntry]
    exact RadixTree.Tree.entry_set_self h.separated hb hpath
  -- The table at level 3 is named by the entry above it, which is no section.
  have habove : ((s.setEntry (b.cell (tableIndex 3 a)) v).tree root).entry 2 y =
      (s.tree root).entry 2 a := by
    rw [tree_setEntry]
    exact (RadixTree.Tree.entry_set_of_off h.separated hb
      fun hle => absurd hle.1 (by decide)).trans
      (RadixTree.Tree.entry_congr (hpath.mono (by decide))).symm
  have hwalk : ((s.tree root).entry 2 a).bind (tableChild 2) = some b := by
    rw [← hb, RadixTree.Tree.walk_succ, tree_child]
  obtain ⟨e, he, hchild_e⟩ := Option.bind_eq_some_iff.mp hwalk
  have htype : e &&& typeMask ≠ pmdTypeSect := by
    rw [(typeTable_of_tableChild hchild_e).1]
    decide
  rw [hwant y hspan, PgState.leaf, hentry, habove, he, leafOf, if_neg htype, Option.bind_some]

/-! ### A new table -/

/-- The page that `alloc_pgtable` returns next is on no path. -/
theorem Inv.notReached (h : Inv alloc root s) {n : Nat} (hfresh : FreshPages alloc root.base n)
    (hn : s.allocs < n) {p : TablePage} (hp : alloc s.allocs = p.base) (i y : Nat) :
    (s.tree root).walk i y ≠ some p := by
  intro hwalk
  rcases h.owned i y p hwalk with rfl | ⟨j, hj, hpage⟩
  · exact hfresh.ne_pgdir _ hn hp
  · have heq := hfresh.inj j (by omega) s.allocs hn (hpage.trans hp.symm)
    omega

theorem leaf_eq_none {y : Nat}
    (h2 : ∀ e, (s.tree root).entry 2 y = some e → e &&& typeMask ≠ pmdTypeSect)
    (h3 : ∀ e, (s.tree root).entry 3 y = some e → e = 0#64) : s.leaf root y = none := by
  unfold PgState.leaf
  cases he : (s.tree root).entry 2 y with
  | none => rfl
  | some e =>
      rw [leafOf, if_neg (h2 e he)]
      cases he' : (s.tree root).entry 3 y with
      | none => rfl
      | some e' => simp [pageLeaf, h3 e' he']

section NewTable

variable {p : TablePage}

theorem tree_newTable (i : Fin 512) :
    ((s.allocPage p.base).setEntry (b.cell i) v).tree root =
      (s.tree root).install b i v p 0#64 := by
  rw [tree_setEntry, tree_allocPage]
  rfl

variable (h : Inv alloc root s) (hb : (s.tree root).walk k a = some b)
  (hp : ∀ i y, (s.tree root).walk i y ≠ some p) (hv : tableChild k v = some p)

include h hb hp hv

theorem Inv.newTable (hpage : alloc s.allocs = p.base) :
    Inv alloc root ((s.allocPage p.base).setEntry (b.cell (tableIndex k a)) v) := by
  constructor
  case separated =>
    rw [tree_newTable]
    exact h.separated.install hb hp hv tableChild_zero
  case owned =>
    intro j x c hc
    rw [tree_newTable] at hc
    rcases RadixTree.Tree.walk_of_walk_install h.separated hb hp hv tableChild_zero hc with
      hold | ⟨rfl, _, _⟩
    · rcases h.owned j x c hold with hroot | ⟨i, hi, hc⟩
      · exact Or.inl hroot
      · exact Or.inr ⟨i, Nat.lt_succ_of_lt hi, hc⟩
    · -- the new table is the page of the allocation just made
      exact Or.inr ⟨s.allocs, Nat.lt_succ_self _, hpage⟩
  case form =>
    intro j hj x e he
    rw [tree_newTable] at he
    rcases RadixTree.Tree.entry_install_cases h.separated hb hp hv tableChild_zero he with
      ⟨hold, _⟩ | ⟨rfl, rfl⟩ | ⟨rfl, rfl⟩
    · exact h.form j hj x e hold
    · exact Or.inr (Or.inl (typeTable_of_tableChild hv).1)
    · exact Or.inl rfl
  case stores =>
    intro st hst
    rcases List.mem_cons.mp hst with rfl | hst
    · rcases h.inTables hb (tableIndex k a) with hroot | ⟨i, hi, hpage⟩
      · exact Or.inl hroot
      · exact Or.inr ⟨i, Nat.lt_succ_of_lt hi, hpage⟩
    · exact h.stores st hst

/-- An empty entry and an entry that names an empty table give no leaf. -/
theorem Inv.leaf_newTable (hk : k ≤ 2) (hempty : (s.tree root).entry k a = some 0#64) (y : Nat) :
    ((s.allocPage p.base).setEntry (b.cell (tableIndex k a)) v).leaf root y =
      s.leaf root y := by
  by_cases hpath : (s.tree root).SamePath (k + 1) a y
  · -- Below the entry there was nothing before, and there are zeros only after it.
    have hbefore : ∀ j, k ≤ j → ∀ e, (s.tree root).entry j y = some e → e = 0#64 := by
      intro j hj e he
      rcases Nat.eq_or_lt_of_le hj with rfl | hlt
      · rw [← RadixTree.Tree.entry_congr hpath, hempty] at he
        exact (Option.some.inj he).symm
      · have hnone : (s.tree root).walk (k + 1) y = none := by
          rw [RadixTree.Tree.walk_succ, ← RadixTree.Tree.entry_congr hpath, hempty,
            Option.bind_some, tree_child, tableChild_zero]
        rw [RadixTree.Tree.entry_eq_none_of_le hnone hlt] at he
        cases he
    have hafter : ∀ j, k ≤ j → ∀ e,
        (((s.allocPage p.base).setEntry (b.cell (tableIndex k a)) v).tree root).entry j y =
          some e → e = 0#64 ∨ j = k ∧ e = v := by
      intro j hj e he
      rw [tree_newTable] at he
      rcases RadixTree.Tree.entry_install_cases h.separated hb hp hv tableChild_zero he with
        ⟨_, hoff⟩ | hstored | ⟨_, hzero⟩
      · exact absurd ⟨hj, hpath⟩ hoff
      · exact Or.inr hstored
      · exact Or.inl hzero
    have hzero : (0#64 : U64) &&& typeMask ≠ pmdTypeSect := by decide
    have htable : v &&& typeMask ≠ pmdTypeSect := by
      rw [(typeTable_of_tableChild hv).1]
      decide
    rw [leaf_eq_none (s := s) (fun e he => hbefore 2 hk e he ▸ hzero)
      (fun e he => hbefore 3 (by omega) e he)]
    refine leaf_eq_none (fun e he => ?_) (fun e he => ?_)
    · rcases hafter 2 hk e he with rfl | ⟨_, rfl⟩
      · exact hzero
      · exact htable
    · rcases hafter 3 (by omega) e he with rfl | ⟨h3, _⟩
      · rfl
      · omega
  · have hoff : ∀ j,
        (((s.allocPage p.base).setEntry (b.cell (tableIndex k a)) v).tree root).entry j y =
          (s.tree root).entry j y := by
      intro j
      rw [tree_newTable]
      exact RadixTree.Tree.entry_install_of_off h.separated hb hp fun hon => hpath hon.2
    simp only [PgState.leaf, hoff]

theorem Inv.effect_newTable (hk : k ≤ 2) (hempty : (s.tree root).entry k a = some 0#64)
    (hpage : alloc s.allocs = p.base) :
    Effect alloc root want k a a s
      ((s.allocPage p.base).setEntry (b.cell (tableIndex k a)) v) := by
  refine ⟨h.newTable hb hp hv hpage, fun j hj x => ?_, fun y hlo hhi => ?_, fun y _ _ => ?_⟩
  · rw [tree_newTable]
    exact RadixTree.Tree.walk_install_of_off h.separated hb hp
      fun hlt => absurd hlt.1 (by omega)
  · exact absurd hlo (by omega)
  · exact h.leaf_newTable hb hp hv hk hempty y

end NewTable

end Arm64OS
