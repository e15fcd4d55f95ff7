import Arm64OS.Arch.MmuAlias

/-!
# A mapping made twice

A second call of `__create_pgd_mapping` with the same arguments finds a table, a section or a
page wherever the first one made it, and stores what is there already.  For the tables of the
last level this does not follow from the leaves, since a page entry may be zero; so the run keeps
besides that every block mapped by pages has its table (`PageTables`).
-/

namespace Arm64OS

variable {alloc : Nat → U64} {root : TablePage} {m : Mapping} {C : Nat → Prop} {k fuel : Nat}
  {f : U64 → U64 → U64 → U64 → PgState → Option PgState} {next : U64 → U64 → U64}

/-! ### The tables that a call leaves -/

/-- The addresses of `[lo, hi)` that the call maps by pages have a table of the last level. -/
def Mapping.PageTables (m : Mapping) (root : TablePage) (lo hi : Nat) (s : PgState) : Prop :=
  ∀ y, lo ≤ y → y < hi → ¬ m.usesSection y → ((s.tree root).walk 3 y).isSome

/-- From `s` to `s'` these tables are made, and only sections of the call cut off others. -/
structure Grows (m : Mapping) (root : TablePage) (lo hi : Nat) (s s' : PgState) : Prop where
  tables : m.PageTables root lo hi s'
  keeps : ∀ x < 2 ^ 48, ¬ (lo ≤ x ∧ x < hi ∧ m.usesSection x) →
    ((s.tree root).walk 3 x).isSome → ((s'.tree root).walk 3 x).isSome

/-- The contract of the functions that make the tables below one entry of level `k`. -/
def Builds (alloc : Nat → U64) (root : TablePage) (m : Mapping) (C : Nat → Prop) (k : Nat)
    (f : U64 → U64 → U64 → U64 → PgState → Option PgState) : Prop :=
  ∀ p a e s s', C a.toNat → Piece m.addr.toNat m.end_.toNat (k + 1) a.toNat e.toNat →
    f p a e (a + m.offset) s = some s' → ∀ n, FreshPages alloc root.base n → s'.allocs ≤ n →
      Inv alloc root s → SlotAt root k p a.toNat s → m.PagesFree root a.toNat e.toNat s →
      Grows m root a.toNat e.toNat s s'

theorem Grows.trans {lo mid hi : Nat} {s s' s'' : PgState} (h : Grows m root lo mid s s')
    (h' : Grows m root mid hi s' s'') (hlo : lo ≤ mid) (hmid : mid ≤ hi) (hhi : hi ≤ 2 ^ 48) :
    Grows m root lo hi s s'' := by
  constructor
  · intro y hy hyhi hpages
    by_cases hsecond : mid ≤ y
    · exact h'.tables y hsecond hyhi hpages
    · exact h'.keeps y (by omega) (fun hin => hsecond hin.1) (h.tables y hy (by omega) hpages)
  · intro x hx hout hsome
    refine h'.keeps x hx (fun hin => hout ⟨by omega, hin.2⟩) (h.keeps x hx ?_ hsome)
    exact fun hin => hout ⟨hin.1, by omega, hin.2.2⟩

/-- The loop over the entries of one table. -/
theorem mapLoop_builds (hm : m.InRange) (hk : k ≤ 3) (hf : Maps alloc root m C k f)
    (hb : Builds alloc root m C k f) (hC : ∀ x y, x / span k = y / span k → C x → C y)
    (hnext : CutsAt k next) {p a e : U64} {s s' : PgState} (hCa : C a.toNat)
    (hrest : Rest m.addr.toNat m.end_.toNat k a.toNat e.toNat)
    (hfuel : (e.toNat - 1) / span (k + 1) - a.toNat / span (k + 1) < fuel)
    (hrun : mapLoop next f e fuel p a (a + m.offset) s = some s') {n : Nat}
    (hfresh : FreshPages alloc root.base n) (hn : s'.allocs ≤ n) (hinv : Inv alloc root s)
    (hat : SlotAt root k p a.toNat s) (hfree : m.PagesFree root a.toNat e.toNat s) :
    Grows m root a.toNat e.toNat s s' := by
  induction fuel generalizing p a s with
  | zero => cases hrun
  | succ fuel ih =>
      have hend : e.toNat ≤ 2 ^ 48 := hrest.le_hi.trans hm.2
      obtain ⟨hpiece, hmore⟩ := hrest.cut m.addr_aligned m.end_aligned hm.2 hk hnext
      obtain ⟨s₁, hs₁, hmono₁, heffect₁⟩ := hf p a (next a e) s hCa hpiece
      unfold mapLoop at hrun
      rw [hs₁, Option.bind_some] at hrun
      by_cases hlast : next a e = e
      · rw [if_pos hlast] at hrun
        obtain rfl := Option.some.inj hrun
        rw [hlast] at hs₁ hpiece
        exact hb p a e s s₁ hCa hpiece hs₁ n hfresh hn hinv hat hfree
      · have hturn := hmore hlast
        rw [if_neg hlast, offset_add] at hrun
        have hle : a.toNat ≤ (next a e).toNat := hturn.lt.le
        have hle' : (next a e).toNat ≤ e.toNat := hturn.rest.lt.le
        have hC' := hC _ _ hturn.span_eq hCa
        have hturns := Nat.lt_of_lt_of_le hturn.turns (Nat.le_of_lt_succ hfuel)
        -- the rest of the loop only adds allocations
        obtain ⟨s₂, hs₂, hmono₂, -⟩ := mapLoop_spec hm hk hf hC hnext (p := p + 8#64)
          (a := next a e) (s := s₁) hC' hturn.rest hturns
        obtain rfl : s₂ = s' := Option.some.inj (hs₂.symm.trans hrun)
        have hpages := hfree.mono le_rfl hle'
        have h₁ := heffect₁ n hfresh (hmono₂.trans hn) hinv hat hpages
        have hat' := hturn.slot (hat.of_walk_eq (h₁.walk_eq k le_rfl)) hk hm.2
        have hgrows := hb p a (next a e) s s₁ hCa hpiece hs₁ n hfresh (hmono₂.trans hn) hinv hat
          hpages
        exact hgrows.trans (ih hC' hturn.rest hturns hrun h₁.inv hat'
          (hfree.of_effect h₁ hle hend)) hle hle' hend

/-- An entry is given a table only where there was nothing below it. -/
theorem populate_keeps (hk : k ≤ 2) {p : U64} {a : Nat} {s : PgState} {n : Nat}
    (hfresh : FreshPages alloc root.base n) (hn : (populate alloc p s).allocs ≤ n)
    (hinv : Inv alloc root s) (hat : SlotAt root k p a s) {x : Nat}
    (hsome : ((s.tree root).walk 3 x).isSome) :
    (((populate alloc p s).tree root).walk 3 x).isSome := by
  unfold populate at hn ⊢
  split at hn
  · rename_i hempty
    rw [if_pos hempty]
    obtain ⟨b, hb, rfl⟩ := hat
    have hlt : s.allocs < n := hn
    obtain ⟨q, hq⟩ : ∃ q : TablePage, alloc s.allocs = q.base :=
      ⟨⟨alloc s.allocs, hfresh.aligned _ hlt⟩, rfl⟩
    have hnot := hinv.notReached hfresh hlt hq
    have hoff : ¬ (k < 3 ∧ (s.tree root).SamePath (k + 1) a x) := by
      rintro ⟨-, hpath⟩
      have hnone : (s.tree root).walk (k + 1) x = none := by
        rw [← RadixTree.Tree.walk_congr hpath, RadixTree.Tree.walk_succ,
          RadixTree.Tree.entry_of_walk hb, tree_cells, tree_idx, hempty, Option.bind_some,
          tree_child, tableChild_zero]
      rw [RadixTree.Tree.walk_eq_none_of_le hnone (by omega)] at hsome
      cases hsome
    rw [hq, tree_newTable]
    have hsame := RadixTree.Tree.walk_install_of_off (v := q.base ||| typeTable) (z := 0#64)
      hinv.separated hb hnot hoff
    rw [tree_idx] at hsame
    rwa [hsame]
  · rename_i hempty
    rwa [if_neg hempty]

theorem allocInit_builds (hm : m.InRange) (hk : k ≤ 2) (hf : Maps alloc root m C (k + 1) f)
    (hb : Builds alloc root m C (k + 1) f)
    (hC : ∀ x y, x / span (k + 1) = y / span (k + 1) → C x → C y)
    (hsect : k = 2 → ∀ x, C x → ¬ m.usesSection x) (hnext : CutsAt (k + 1) next)
    {index : U64 → U64} (hindex : ∀ a, (index a).toNat = tableIndex (k + 1) a.toNat)
    (hfuel : 512 ≤ fuel) :
    Builds alloc root m C k (allocInit alloc (offsetPhys index) next f fuel) := by
  intro p a e s s' hCa hpiece hrun n hfresh hn hinv hat hfree
  have hrest := hpiece.rest
  have hturns := Nat.lt_of_lt_of_le (hrest.turns (by omega)) hfuel
  obtain ⟨s₁, hs₁, hmono, -⟩ := mapLoop_spec hm (by omega) hf hC hnext
    (p := offsetPhys index (populate alloc p s) p a) (s := populate alloc p s) hCa hrest hturns
  obtain rfl : s₁ = s' := Option.some.inj (hs₁.symm.trans hrun)
  obtain ⟨hpop, hat', hfree'⟩ := populate_enter hm hk hsect hindex hCa hpiece hfresh
    (hmono.trans hn) hinv hat hfree
  have hgrows := mapLoop_builds hm (by omega) hf hb hC hnext hCa hrest hturns hrun hfresh hn
    hpop.inv hat' hfree'
  exact ⟨hgrows.tables, fun x hx hout hsome =>
    hgrows.keeps x hx hout (populate_keeps hk hfresh (hmono.trans hn) hinv hat hsome)⟩

/-- One page lies below the table that its slot is in. -/
theorem setPage_builds (hm : m.InRange) :
    Builds alloc root m (fun y => ¬ m.usesSection y) 3 (setPage m.prot) := by
  intro p a e s s' hpages hpiece hrun n hfresh hn hinv hat hfree
  obtain ⟨s₁, hs₁, -, heffect⟩ := setPage_maps hm p a e s hpages hpiece
  obtain rfl : s₁ = s' := Option.some.inj (hs₁.symm.trans hrun)
  have hwalk := (heffect n hfresh hn hinv hat hfree).walk_eq 3 le_rfl
  obtain ⟨b, hb, -⟩ := hat
  have hspan : ∀ y, a.toNat ≤ y → y < e.toNat → a.toNat / span 3 = y / span 3 := by
    have hlo := m.addr_aligned
    have hhi := m.end_aligned
    rw [piece_iff] at hpiece
    simp only [Nat.reduceAdd, span_three, span_four] at *
    omega
  have hend := hpiece.le_hi.trans hm.2
  constructor
  · intro y hlo hhi _
    have hpath : (s.tree root).SamePath 3 a.toNat y :=
      (samePath_iff (by decide) (by omega) (by omega)).mpr (hspan y hlo hhi)
    rw [hwalk, ← RadixTree.Tree.walk_congr hpath, hb]
    rfl
  · intro x _ _ hsome
    rwa [hwalk]

/-- A section cuts off the table of its own block only. -/
theorem setPmd_builds (hm : m.InRange)
    (hpte : Builds alloc root m (fun y => ¬ m.usesSection y) 2 (allocInitPte alloc m.prot fuel)) :
    Builds alloc root m (fun _ => True) 2 (setPmd alloc m.prot m.flags fuel) := by
  intro p a e s s' _ hpiece hrun n hfresh hn hinv hat hfree
  have htest := section_test a e hpiece
  unfold setPmd at hrun
  by_cases huses : m.usesSection a.toNat
  · rw [if_pos (htest.mpr huses)] at hrun
    obtain rfl := Option.some.inj hrun
    obtain ⟨b, hb, rfl⟩ := hat
    have hend := hpiece.le_hi.trans hm.2
    have ha : a.toNat < 2 ^ 48 := Nat.lt_of_lt_of_le hpiece.lt hend
    -- the piece is the block
    have hblock : ∀ y, y / span 3 = a.toNat / span 3 ↔ a.toNat ≤ y ∧ y < e.toNat := by
      obtain ⟨hlo, hhi, -, -⟩ := huses
      rw [piece_iff] at hpiece
      simp only [Nat.reduceAdd, span_three] at *
      omega
    constructor
    · intro y hlo hhi hpages
      exact absurd ((m.usesSection_congr ((hblock y).mpr ⟨hlo, hhi⟩)).mpr huses) hpages
    · intro x hx hout hsome
      have hoff : ¬ (2 < 3 ∧ (s.tree root).SamePath (2 + 1) a.toNat x) := by
        rintro ⟨-, hpath⟩
        have hspan := (samePath_iff (by decide) ha hx).mp hpath
        have hin := (hblock x).mp hspan.symm
        exact hout ⟨hin.1, hin.2, (m.usesSection_congr hspan.symm).mpr huses⟩
      have hsame := RadixTree.Tree.walk_set_of_off
        (v := pfnPmd ((a + m.offset) >>> pmdShift) (pmdTypeSect ||| mkSectProt m.prot))
        hinv.separated hb hoff
      rw [tree_idx] at hsame
      rwa [pmdSetSection, tree_setEntry, hsame]
  · rw [if_neg fun h => huses (htest.mp h)] at hrun
    exact hpte p a e s s' huses hpiece hrun n hfresh hn hinv hat hfree

/-- A whole call. -/
theorem mapStep_builds (hm : m.InRange) (hfuel : 512 ≤ fuel) {s s' : PgState}
    (hrun : mapStep alloc fuel root.base m s = some s') {n : Nat}
    (hfresh : FreshPages alloc root.base n) (hn : s'.allocs ≤ n) (hinv : Inv alloc root s)
    (hfree : m.PagesFree root m.addr.toNat m.end_.toNat s) :
    Grows m root m.addr.toNat m.end_.toNat s s' := by
  have hpte : Builds alloc root m (fun y => ¬ m.usesSection y) 2
      (allocInitPte alloc m.prot fuel) :=
    allocInit_builds hm le_rfl (setPage_maps hm) (setPage_builds hm)
      (fun _ _ h hpages => (m.usesSection_congr h).not.mp hpages) (fun _ _ hpages => hpages)
      cutsAt_add_pageSize toNat_pteIndex hfuel
  have hpmd : Builds alloc root m (fun _ => True) 1 (allocInitPmd alloc m.prot m.flags fuel) :=
    allocInit_builds hm (by decide) (setPmd_maps hm (allocInitPte_maps alloc root hm hfuel))
      (setPmd_builds hm hpte) (fun _ _ _ _ => trivial) (fun h => absurd h (by decide))
      cutsAt_pmdAddrEnd toNat_pmdIndex hfuel
  have hpud : Builds alloc root m (fun _ => True) 0 (allocInitPud alloc m.prot m.flags fuel) :=
    allocInit_builds hm (by decide) (allocInitPmd_maps alloc root hm hfuel) hpmd
      (fun _ _ _ _ => trivial) (fun h => absurd h (by decide)) cutsAt_pudAddrEnd toNat_pudIndex
      hfuel
  have hrest := (piece_zero hm.1 hm.2).rest
  rw [mapStep, createPgdMapping_eq] at hrun
  exact mapLoop_builds hm (by decide) (allocInitPud_maps alloc root hm hfuel) hpud
    (fun _ _ _ _ => trivial) cutsAt_pgdAddrEnd trivial hrest
    (Nat.lt_of_lt_of_le (hrest.turns (by decide)) hfuel) hrun hfresh hn hinv
    (slotAt_pgd root m s) hfree

/-! ### A call that changes nothing -/

/-- Every address of `[lo, hi)` has the entry that the call stores for it. -/
def Mapping.Settled (m : Mapping) (root : TablePage) (lo hi : Nat) (s : PgState) : Prop :=
  ∀ y, lo ≤ y → y < hi →
    if m.usesSection y then (s.tree root).entry 2 y = some (m.sectEntry y)
    else (s.tree root).entry 3 y = some (m.pageEntry y)

/-- Nothing but the list of stores is different. -/
def Same (s s' : PgState) : Prop := s'.mem = s.mem ∧ s'.allocs = s.allocs

/-- The contract of the functions on a piece that is settled. -/
def Idles (root : TablePage) (m : Mapping) (C : Nat → Prop) (k : Nat)
    (f : U64 → U64 → U64 → U64 → PgState → Option PgState) : Prop :=
  ∀ p a e s, C a.toNat → Piece m.addr.toNat m.end_.toNat (k + 1) a.toNat e.toNat →
    SlotAt root k p a.toNat s → m.Settled root a.toNat e.toNat s →
    ∃ s', f p a e (a + m.offset) s = some s' ∧ Same s s'

theorem Same.tree_eq {s s' : PgState} (h : Same s s') : s'.tree root = s.tree root := by
  rw [PgState.tree, PgState.tree, h.1]

theorem Same.settled {lo hi : Nat} {s s' : PgState} (h : Same s s')
    (hs : m.Settled root lo hi s) : m.Settled root lo hi s' := by
  unfold Mapping.Settled
  rw [h.tree_eq]
  exact hs

theorem Mapping.Settled.mono {lo hi lo' hi' : Nat} {s : PgState} (h : m.Settled root lo hi s)
    (hlo : lo ≤ lo') (hhi : hi' ≤ hi) : m.Settled root lo' hi' s :=
  fun y hy hy' => h y (hlo.trans hy) (Nat.lt_of_lt_of_le hy' hhi)

/-- The value that an entry has is stored in it. -/
theorem same_setEntry {s : PgState} {p v : U64} (h : s.mem p = v) : Same s (s.setEntry p v) := by
  refine ⟨funext fun a => ?_, rfl⟩
  show (if a = p then v else s.mem a) = s.mem a
  by_cases ha : a = p
  · rw [if_pos ha, ha, h]
  · rw [if_neg ha]

theorem mapLoop_idles (hm : m.InRange) (hk : k ≤ 3) (hf : Idles root m C k f)
    (hC : ∀ x y, x / span k = y / span k → C x → C y) (hnext : CutsAt k next) {p a e : U64}
    {s : PgState} (hCa : C a.toNat) (hrest : Rest m.addr.toNat m.end_.toNat k a.toNat e.toNat)
    (hfuel : (e.toNat - 1) / span (k + 1) - a.toNat / span (k + 1) < fuel)
    (hat : SlotAt root k p a.toNat s) (hset : m.Settled root a.toNat e.toNat s) :
    ∃ s', mapLoop next f e fuel p a (a + m.offset) s = some s' ∧ Same s s' := by
  induction fuel generalizing p a s with
  | zero => exact absurd hfuel (Nat.not_lt_zero _)
  | succ fuel ih =>
      obtain ⟨hpiece, hmore⟩ := hrest.cut m.addr_aligned m.end_aligned hm.2 hk hnext
      by_cases hlast : next a e = e
      · rw [hlast] at hpiece
        obtain ⟨s₁, hs₁, hsame⟩ := hf p a e s hCa hpiece hat hset
        refine ⟨s₁, ?_, hsame⟩
        rw [mapLoop, hlast, hs₁, Option.bind_some, if_pos rfl]
      · have hturn := hmore hlast
        obtain ⟨s₁, hs₁, hsame⟩ := hf p a (next a e) s hCa hpiece hat
          (hset.mono le_rfl hturn.rest.lt.le)
        have hat' := hturn.slot (hat.of_walk_eq fun x => by rw [hsame.tree_eq]) hk hm.2
        obtain ⟨s₂, hs₂, hsame'⟩ := ih (hC _ _ hturn.span_eq hCa) hturn.rest
          (Nat.lt_of_lt_of_le hturn.turns (Nat.le_of_lt_succ hfuel)) hat'
          (hsame.settled (hset.mono hturn.lt.le le_rfl))
        refine ⟨s₂, ?_, hsame'.1.trans hsame.1, hsame'.2.trans hsame.2⟩
        rw [mapLoop, hs₁, Option.bind_some, if_neg hlast, offset_add, hs₂]

/-- An entry above a settled address names a table, so `populate` leaves it. -/
theorem populate_settled (alloc : Nat → U64) {p a : U64} {s : PgState}
    (hat : SlotAt root k p a.toNat s)
    (hentry : ∃ j, k < j ∧ ((s.tree root).entry j a.toNat).isSome) :
    populate alloc p s = s ∧
      ∃ b, (s.tree root).walk (k + 1) a.toNat = some b ∧ pagePaddr (s.mem p) = b.base := by
  obtain ⟨j, hj, hsome⟩ := hentry
  obtain ⟨b, hb⟩ : ∃ b, (s.tree root).walk (k + 1) a.toNat = some b := by
    cases hwalk : (s.tree root).walk (k + 1) a.toNat with
    | some b => exact ⟨b, rfl⟩
    | none =>
        rw [RadixTree.Tree.entry_eq_none_of_le hwalk hj] at hsome
        cases hsome
  obtain ⟨b', hb', rfl⟩ := hat
  have hchild : tableChild k (s.mem (b'.cell (tableIndex k a.toNat))) = some b := by
    rwa [RadixTree.Tree.walk_succ, RadixTree.Tree.entry_of_walk hb', Option.bind_some] at hb
  have hne : s.mem (b'.cell (tableIndex k a.toNat)) ≠ 0#64 := by
    intro hzero
    rw [hzero, tableChild_zero] at hchild
    cases hchild
  exact ⟨if_neg hne, b, hb, congrArg TablePage.base (typeTable_of_tableChild hchild).2⟩

theorem allocInit_idles (alloc : Nat → U64) (hm : m.InRange) (hk : k ≤ 2)
    (hf : Idles root m C (k + 1) f) (hC : ∀ x y, x / span (k + 1) = y / span (k + 1) → C x → C y)
    (hsect : k = 2 → ∀ x, C x → ¬ m.usesSection x) (hnext : CutsAt (k + 1) next)
    {index : U64 → U64} (hindex : ∀ a, (index a).toNat = tableIndex (k + 1) a.toNat)
    (hfuel : 512 ≤ fuel) :
    Idles root m C k (allocInit alloc (offsetPhys index) next f fuel) := by
  intro p a e s hCa hpiece hat hset
  have hrest := hpiece.rest
  have hentry : ∃ j, k < j ∧ ((s.tree root).entry j a.toNat).isSome := by
    have ha := hset a.toNat le_rfl hpiece.lt
    split at ha
    · rename_i huses
      have hne : k ≠ 2 := fun h => hsect h _ hCa huses
      exact ⟨2, by omega, by rw [ha]; rfl⟩
    · exact ⟨3, by omega, by rw [ha]; rfl⟩
  obtain ⟨hpop, b, hb, haddr⟩ := populate_settled alloc hat hentry
  have hat' : SlotAt root (k + 1) (offsetPhys index s p a) a.toNat s := by
    refine ⟨b, hb, ?_⟩
    rw [offsetPhys, haddr]
    exact b.cell_of_index (hindex a)
  rw [allocInit, hpop]
  exact mapLoop_idles hm (by omega) hf hC hnext hCa hrest
    (Nat.lt_of_lt_of_le (hrest.turns (by omega)) hfuel) hat' hset

theorem SlotAt.mem_eq {p v : U64} {a : Nat} {s : PgState} (h : SlotAt root k p a s)
    (hentry : (s.tree root).entry k a = some v) : s.mem p = v := by
  obtain ⟨b, hb, rfl⟩ := h
  rw [RadixTree.Tree.entry_of_walk hb] at hentry
  exact Option.some.inj hentry

theorem setPage_idles : Idles root m (fun y => ¬ m.usesSection y) 3 (setPage m.prot) := by
  intro p a e s hpages hpiece hat hset
  refine ⟨_, rfl, same_setEntry ?_⟩
  have hentry := hset a.toNat le_rfl hpiece.lt
  rw [if_neg hpages] at hentry
  have ha : a.toNat % span 4 = 0 := by
    rcases hpiece.starts with hstart | hstart
    · rw [hstart]
      exact m.addr_aligned
    · exact hstart
  rw [hat.mem_eq hentry, Mapping.pageEntry, Nat.div_mul_cancel (Nat.dvd_of_mod_eq_zero ha),
    BitVec.ofNat_toNat, BitVec.setWidth_eq]

theorem setPmd_idles
    (hpte : Idles root m (fun y => ¬ m.usesSection y) 2 (allocInitPte alloc m.prot fuel)) :
    Idles root m (fun _ => True) 2 (setPmd alloc m.prot m.flags fuel) := by
  intro p a e s _ hpiece hat hset
  have htest := section_test a e hpiece
  unfold setPmd
  by_cases huses : m.usesSection a.toNat
  · rw [if_pos (htest.mpr huses)]
    refine ⟨_, rfl, same_setEntry ?_⟩
    have hentry := hset a.toNat le_rfl hpiece.lt
    rw [if_pos huses] at hentry
    have ha : a.toNat % span 3 = 0 := by
      obtain ⟨hlo, hhi, -, -⟩ := huses
      rw [piece_iff] at hpiece
      simp only [Nat.reduceAdd, span_three] at *
      omega
    rw [hat.mem_eq hentry, Mapping.sectEntry, Nat.div_mul_cancel (Nat.dvd_of_mod_eq_zero ha),
      BitVec.ofNat_toNat, BitVec.setWidth_eq]
  · rw [if_neg fun h => huses (htest.mp h)]
    exact hpte p a e s huses hpiece hat hset

theorem mapStep_idles (alloc : Nat → U64) (hm : m.InRange) (hfuel : 512 ≤ fuel) {s : PgState}
    (hset : m.Settled root m.addr.toNat m.end_.toNat s) :
    ∃ s', mapStep alloc fuel root.base m s = some s' ∧ Same s s' := by
  have hpte : Idles root m (fun y => ¬ m.usesSection y) 2 (allocInitPte alloc m.prot fuel) :=
    allocInit_idles alloc hm le_rfl setPage_idles
      (fun _ _ h hpages => (m.usesSection_congr h).not.mp hpages) (fun _ _ hpages => hpages)
      cutsAt_add_pageSize toNat_pteIndex hfuel
  have hpmd : Idles root m (fun _ => True) 1 (allocInitPmd alloc m.prot m.flags fuel) :=
    allocInit_idles alloc hm (by decide) (setPmd_idles hpte)
      (fun _ _ _ _ => trivial) (fun h => absurd h (by decide)) cutsAt_pmdAddrEnd toNat_pmdIndex
      hfuel
  have hpud : Idles root m (fun _ => True) 0 (allocInitPud alloc m.prot m.flags fuel) :=
    allocInit_idles alloc hm (by decide) hpmd
      (fun _ _ _ _ => trivial) (fun h => absurd h (by decide)) cutsAt_pudAddrEnd toNat_pudIndex
      hfuel
  have hrest := (piece_zero hm.1 hm.2).rest
  rw [mapStep, createPgdMapping_eq]
  exact mapLoop_idles hm (by decide) hpud (fun _ _ _ _ => trivial) cutsAt_pgdAddrEnd trivial hrest
    (Nat.lt_of_lt_of_le (hrest.turns (by decide)) hfuel) (slotAt_pgd root m s) hset

/-! ### Runs -/

/-- The tables after calls on disjoint ranges, with the tables of the last level that the calls
on them made. -/
structure Built (alloc : Nat → U64) (root : TablePage) (ms : List Mapping) (s : PgState) :
    Prop where
  mapped : Mapped alloc root ms s
  tables : ∀ m ∈ ms, m.PageTables root m.addr.toNat m.end_.toNat s

theorem Built.snoc {ms : List Mapping} {s s' : PgState} (h : Built alloc root ms s)
    (hms : ∀ m' ∈ ms, m'.InRange) (hm : m.InRange) (hdisj : ∀ m' ∈ ms, m'.Disjoint m)
    (hfuel : 512 ≤ fuel) (hrun : mapStep alloc fuel root.base m s = some s') {n : Nat}
    (hfresh : FreshPages alloc root.base n) (hn : s'.allocs ≤ n) :
    Built alloc root (ms ++ [m]) s' := by
  have hfree := h.mapped.pagesFree hm hdisj
  obtain ⟨s₁, hs₁, -, heffect⟩ := createPgdMapping_spec alloc root hm hfuel s
  obtain rfl : s₁ = s' := Option.some.inj (hs₁.symm.trans hrun)
  have hgrows := mapStep_builds hm hfuel hrun hfresh hn h.mapped.inv hfree
  refine ⟨h.mapped.snoc hdisj (heffect n hfresh hn h.mapped.inv hfree), fun m' hm' => ?_⟩
  rcases List.mem_append.mp hm' with hold | hnew
  · -- no section of the call lies in a range of the earlier ones
    intro y hlo hhi hpages
    have hy : y < 2 ^ 48 := Nat.lt_of_lt_of_le hhi (hms m' hold).2
    exact hgrows.keeps y hy (fun hin => hdisj m' hold y ⟨⟨hlo, hhi⟩, hin.1, hin.2.1⟩)
      (h.tables m' hold y hlo hhi hpages)
  · obtain rfl := List.mem_singleton.mp hnew
    exact hgrows.tables

theorem Built.exec {n : Nat} {s s' : PgState} (hfuel : 512 ≤ fuel)
    (hfresh : FreshPages alloc root.base n) (done ms : List Mapping)
    (hms : ∀ m ∈ done ++ ms, m.InRange) (hdisj : (done ++ ms).Pairwise Mapping.Disjoint)
    (h : Built alloc root done s)
    (hrun : Run.exec (mapStep alloc fuel root.base) ms s = some s') (hn : s'.allocs ≤ n) :
    Built alloc root (done ++ ms) s' := by
  induction ms generalizing done s with
  | nil =>
      obtain rfl : s = s' := by simpa using hrun
      simpa using h
  | cons m ms ih =>
      have hbefore : ∀ m' ∈ done, m'.Disjoint m := fun m' hm' =>
        (List.pairwise_append.mp hdisj).2.2 m' hm' m List.mem_cons_self
      rw [Run.exec_cons] at hrun
      obtain ⟨s₁, hs₁, hrest⟩ := Option.bind_eq_some_iff.mp hrun
      -- the rest of the run only adds allocations
      obtain ⟨s₂, hs₂, hmono⟩ := exec_mapStep alloc hfuel root.aligned ms
        (fun m' hm' => hms m' (by simp [hm'])) s₁
      obtain rfl : s₂ = s' := Option.some.inj (hs₂.symm.trans hrest)
      have hsnoc := h.snoc (fun m' hm' => hms m' (by simp [hm'])) (hms m (by simp)) hbefore hfuel
        hs₁ hfresh (hmono.trans hn)
      rw [List.append_cons] at hms hdisj ⊢
      exact ih (done ++ [m]) hms hdisj hsnoc hrest

theorem entry_of_leaf_sect {s : PgState} {y : Nat} {v : U64}
    (h : s.leaf root y = some (.sect v)) : (s.tree root).entry 2 y = some v := by
  unfold PgState.leaf at h
  cases hentry : (s.tree root).entry 2 y with
  | none =>
      rw [hentry] at h
      cases h
  | some e =>
      rw [hentry, leafOf] at h
      split at h
      · exact congrArg some (Leaf.sect.inj (Option.some.inj h))
      · obtain ⟨e', -, hpage⟩ := Option.bind_eq_some_iff.mp h
        unfold pageLeaf at hpage
        split at hpage <;> cases hpage

theorem pageLeaf_inj {e e' : U64} (h : pageLeaf e = pageLeaf e') : e = e' := by
  unfold pageLeaf at h
  split_ifs at h with hzero hzero' hzero'
  · rw [hzero, hzero']
  · exact Leaf.page.inj (Option.some.inj h)

/-- Where there is a table of the last level, the leaf tells what the entry in it is, also where
it is zero. -/
theorem entry_of_leaf_page {s : PgState} {y : Nat} {v : U64}
    (htable : ((s.tree root).walk 3 y).isSome) (h : s.leaf root y = pageLeaf v) :
    (s.tree root).entry 3 y = some v := by
  obtain ⟨b, hb⟩ := Option.isSome_iff_exists.mp htable
  have hentry := RadixTree.Tree.entry_of_walk hb
  rw [RadixTree.Tree.walk_succ] at hb
  obtain ⟨e, he, hchild⟩ := Option.bind_eq_some_iff.mp hb
  have htype : e &&& typeMask ≠ pmdTypeSect := by
    rw [(typeTable_of_tableChild hchild).1]
    decide
  rw [PgState.leaf, he, leafOf, if_neg htype, hentry, Option.bind_some] at h
  rw [hentry, pageLeaf_inj h]

theorem Built.settled {ms : List Mapping} {s : PgState} (h : Built alloc root ms s) (hm : m ∈ ms)
    (hrange : m.InRange) : m.Settled root m.addr.toNat m.end_.toNat s := by
  intro y hlo hhi
  have hleaf := h.mapped.leaf_in m hm y (Nat.lt_of_lt_of_le hhi hrange.2) ⟨hlo, hhi⟩
  rw [Mapping.want] at hleaf
  split
  · rename_i huses
    rw [if_pos huses] at hleaf
    exact entry_of_leaf_sect hleaf
  · rename_i hpages
    rw [if_neg hpages] at hleaf
    exact entry_of_leaf_page (h.tables m hm y hlo hhi hpages) hleaf

/-- Below `2 ^ 48`. -/
theorem mapStep_twice (alloc : Nat → U64) (hfuel : 512 ≤ fuel) {pgdir : U64} {s : PgState}
    (hstart : Start pgdir s) (ms : List Mapping) (hms : ∀ m ∈ ms, m.InRange)
    (hdisj : ms.Pairwise Mapping.Disjoint) :
    ∃ s', Run.exec (mapStep alloc fuel pgdir) ms s = some s' ∧
      (FreshPages alloc pgdir s'.allocs → ∀ m ∈ ms,
        ∃ s'', mapStep alloc fuel pgdir m s' = some s'' ∧ Same s' s'') := by
  obtain ⟨s', hs', -⟩ := exec_mapStep alloc hfuel hstart.aligned ms hms s
  refine ⟨s', hs', fun hfresh m hm => ?_⟩
  have hempty : Built alloc ⟨pgdir, hstart.aligned⟩ [] s :=
    ⟨hstart.mapped, fun _ hm => absurd hm List.not_mem_nil⟩
  have hbuilt := hempty.exec hfuel hfresh [] ms hms hdisj hs' le_rfl
  exact mapStep_idles alloc (hms m hm) hfuel (hbuilt.settled hm (hms m hm))

theorem exec_lower (alloc : Nat → U64) (pgdir : U64) (ms : List Mapping)
    (hms : ∀ m ∈ ms, m.lower.InRange) (s : PgState) :
    Run.exec (mapStep alloc fuel pgdir) ms s =
      Run.exec (mapStep alloc fuel pgdir) (ms.map Mapping.lower) s := by
  induction ms generalizing s with
  | nil => rfl
  | cons m ms ih =>
      rw [List.map_cons, Run.exec_cons, Run.exec_cons,
        mapStep_lower alloc (hms m List.mem_cons_self)]
      exact congrArg _ (funext fun s' => ih (fun m' hm' => hms m' (List.mem_cons_of_mem _ hm')) s')

/-- **A call made again changes no descriptor and takes no page.**  In the state behind any
sequence of calls, each on a range inside one block of 2⁴⁸ bytes and disjoint from the others in
the low 48 bits of its addresses, and as long as `alloc_pgtable` returned new pages, this is so
for each of them. -/
theorem mapping_twice (alloc : Nat → U64) (hfuel : 512 ≤ fuel) {pgdir : U64} {s : PgState}
    (hstart : Start pgdir s) (ms : List Mapping) (hms : ∀ m ∈ ms, m.lower.InRange)
    (hdisj : ms.Pairwise fun m m' => m.lower.Disjoint m'.lower) :
    ∃ s', Run.exec (mapStep alloc fuel pgdir) ms s = some s' ∧
      (FreshPages alloc pgdir s'.allocs → ∀ m ∈ ms,
        ∃ s'', mapStep alloc fuel pgdir m s' = some s'' ∧
          s''.mem = s'.mem ∧ s''.allocs = s'.allocs) := by
  obtain ⟨s', hs', htwice⟩ := mapStep_twice alloc hfuel hstart (ms.map Mapping.lower)
    (List.forall_mem_map.mpr hms) (List.pairwise_map.mpr hdisj)
  refine ⟨s', (exec_lower alloc pgdir ms hms s).trans hs', fun hfresh m hm => ?_⟩
  rw [mapStep_lower alloc (hms m hm)]
  exact htwice hfresh m.lower (List.mem_map_of_mem hm)

/-- A page near the top of the address space. -/
def topCall : Mapping := ⟨0x5000#64, 0xffffffffff600000#64, 0x1000#64, 0x703#64, 0#64⟩

theorem mapping_twice_top :
    ∃ s, Run.exec (mapStep pagesAbove 512 0x1000#64) [sectionCall, topCall] PgState.zero =
        some s ∧
      ∃ s', mapStep pagesAbove 512 0x1000#64 topCall s = some s' ∧ s'.mem = s.mem ∧
        s'.allocs = s.allocs := by
  have hrange : topCall.lower.InRange := by
    unfold Mapping.InRange
    decide
  have hdisj : sectionCall.Disjoint topCall.lower := by
    rintro y ⟨⟨-, hlt⟩, ⟨hge, -⟩⟩
    have hend : sectionCall.end_.toNat = 0x200000 := rfl
    have haddr : topCall.lower.addr.toNat = 0xffffff600000 := rfl
    omega
  have hlower : sectionCall.lower = sectionCall := rfl
  obtain ⟨s, hs, htwice⟩ := mapping_twice pagesAbove le_rfl start_zero [sectionCall, topCall]
    (by simp [hlower, sectionCall_inRange, hrange]) (by simp [hlower, hdisj])
  have hallocs : (Run.exec (mapStep pagesAbove 512 0x1000#64) [sectionCall, topCall]
      PgState.zero).map PgState.allocs = some 5 := rfl
  rw [hs] at hallocs
  obtain hallocs : s.allocs = 5 := Option.some.inj hallocs
  exact ⟨s, hs, htwice (hallocs ▸ freshPages_pagesAbove (by decide)) _ (by simp)⟩

/-- A page 2⁴⁸ bytes above that of `pageCall`. -/
def aliasCall : Mapping :=
  ⟨0x7000#64, 0x1000000003000#64, 0x1000#64, 0x703#64, noBlockMappings⟩

/-- A page 512 GiB above, below the next entry of the first table. -/
def farCall : Mapping :=
  ⟨0x9000#64, 0x8000005000#64, 0x1000#64, 0x703#64, noBlockMappings⟩

/-- The tables tell 48 bits of an address apart: `aliasCall` takes the entry of `pageCall`, which,
made again, takes it back.  And where `alloc_pgtable` has no page left and returns 0 for each
table, all tables are one: `farCall` clears what `pageCall` made, which, made again, brings it
back. -/
theorem repeated_call_changes :
    Start 0x1000#64 PgState.zero ∧
      ([pageCall, aliasCall].Pairwise Mapping.Disjoint ∧
        ∃ s s', Run.exec (mapStep pagesAbove 512 0x1000#64) [pageCall, aliasCall] PgState.zero =
            some s ∧
          FreshPages pagesAbove 0x1000#64 s.allocs ∧
          mapStep pagesAbove 512 0x1000#64 pageCall s = some s' ∧ s'.mem ≠ s.mem) ∧
      ([pageCall, farCall].Pairwise Mapping.Disjoint ∧
        ∃ s s', Run.exec (mapStep (fun _ => 0#64) 512 0x1000#64) [pageCall, farCall] PgState.zero =
            some s ∧
          mapStep (fun _ => 0#64) 512 0x1000#64 pageCall s = some s' ∧ s'.mem ≠ s.mem) := by
  have hpage : pageCall.end_.toNat = 0x4000 := rfl
  refine ⟨start_zero, ⟨?_, ?_⟩, ?_, ?_⟩
  · have hdisj : pageCall.Disjoint aliasCall := by
      rintro y ⟨⟨-, hlt⟩, ⟨hge, -⟩⟩
      have haddr : aliasCall.addr.toNat = 0x1000000003000 := rfl
      omega
    simp [hdisj]
  · have hrun : (Run.exec (mapStep pagesAbove 512 0x1000#64) [pageCall, aliasCall]
        PgState.zero).map (fun s => (s.allocs, s.mem 0x4018#64,
          (mapStep pagesAbove 512 0x1000#64 pageCall s).map fun s' => s'.mem 0x4018#64)) =
            some (3, 0x7703#64, some 0x5703#64) := rfl
    obtain ⟨s, hs, heq⟩ := Option.map_eq_some_iff.mp hrun
    obtain ⟨hallocs, heq⟩ := Prod.mk.inj heq
    obtain ⟨hbefore, hafter⟩ := Prod.mk.inj heq
    obtain ⟨s', hs', hafter⟩ := Option.map_eq_some_iff.mp hafter
    refine ⟨s, s', hs, hallocs ▸ freshPages_pagesAbove (by decide), hs', fun hsame => ?_⟩
    rw [hsame, hbefore] at hafter
    exact absurd hafter (by decide)
  · have hdisj : pageCall.Disjoint farCall := by
      rintro y ⟨⟨-, hlt⟩, ⟨hge, -⟩⟩
      have haddr : farCall.addr.toNat = 0x8000005000 := rfl
      omega
    simp [hdisj]
  · have hrun : (Run.exec (mapStep (fun _ => 0#64) 512 0x1000#64) [pageCall, farCall]
        PgState.zero).map (fun s => (s.mem 0x18#64,
          (mapStep (fun _ => 0#64) 512 0x1000#64 pageCall s).map fun s' => s'.mem 0x18#64)) =
            some (0#64, some 0x5703#64) := rfl
    obtain ⟨s, hs, heq⟩ := Option.map_eq_some_iff.mp hrun
    obtain ⟨hbefore, hafter⟩ := Prod.mk.inj heq
    obtain ⟨s', hs', hafter⟩ := Option.map_eq_some_iff.mp hafter
    refine ⟨s, s', hs, hs', fun hsame => ?_⟩
    rw [hsame, hbefore] at hafter
    exact absurd hafter (by decide)

end Arm64OS
