import Arm64OS.Arch.MmuMissing

/-!
# When the pages run out

`early_pgtable_alloc` does not look at what `get_free_page` returns.  A call of
`__create_pgd_mapping` asks for a table at certain entries (`TablePoints`): every `alloc_init_*`
at the entry it is given, in the state that the parts of the range before it have left.  At such
an entry a full page map makes page 0 a table.
-/

namespace Arm64OS

/-! ## Where a call asks for tables -/

/-- Turns of `mapLoop`: the loop from the entry at `p` comes to the entry at `q`, for the part of
the range from `b` on, in the state `t`. -/
inductive Turn (next : U64 → U64 → U64) (body : U64 → U64 → U64 → U64 → PgState → Option PgState)
    (end_ : U64) : U64 → U64 → U64 → PgState → U64 → U64 → U64 → PgState → Prop
  | first (p addr phys : U64) (s : PgState) :
      Turn next body end_ p addr phys s p addr phys s
  | next {p addr phys q b x : U64} {s s' t : PgState}
      (hbody : body p addr (next addr end_) phys s = some s') (hmore : next addr end_ ≠ end_)
      (hrest : Turn next body end_ (p + 8#64) (next addr end_)
        (phys + (next addr end_ - addr)) s' q b x t) :
      Turn next body end_ p addr phys s q b x t

/-- The entries that a mapping function, called with an entry, a part of the range, a physical
address and a state, comes to when it may need a table, each with the state at that time. -/
abbrev TablePoints := U64 → U64 → U64 → U64 → PgState → U64 → PgState → Prop

def loopPoints (next : U64 → U64 → U64) (body : U64 → U64 → U64 → U64 → PgState → Option PgState)
    (points : TablePoints) : TablePoints := fun p addr end_ phys s q t =>
  ∃ p' b x s', Turn next body end_ p addr phys s p' b x s' ∧ points p' b (next b end_) x s' q t

/-- The entry that `allocInit` is called with, and those of its turns. -/
def initPoints (alloc : Nat → U64) (offset : PgState → U64 → U64 → U64) (next : U64 → U64 → U64)
    (body : U64 → U64 → U64 → U64 → PgState → Option PgState) (points : TablePoints) :
    TablePoints := fun p addr end_ phys s q t =>
  (q = p ∧ t = s) ∨
    loopPoints next body points (offset (populate alloc p s) p addr) addr end_ phys
      (populate alloc p s) q t

/-- A page entry needs no table. -/
def noPoints : TablePoints := fun _ _ _ _ _ _ _ => False

def ptePoints (alloc : Nat → U64) (prot : U64) : TablePoints :=
  initPoints alloc pteOffsetPhys (fun addr _ => addr + pageSize) (setPage prot) noPoints

/-- Nor does a section. -/
def setPmdPoints (alloc : Nat → U64) (prot flags : U64) : TablePoints :=
  fun pmdp addr next phys s q t =>
    ¬ ((addr ||| next ||| phys) &&& ~~~entryMask pmdShift = 0#64 ∧
        flags &&& noBlockMappings = 0#64) ∧
      ptePoints alloc prot pmdp addr next phys s q t

def pmdPoints (alloc : Nat → U64) (prot flags : U64) (fuel : Nat) : TablePoints :=
  initPoints alloc pmdOffsetPhys pmdAddrEnd (setPmd alloc prot flags fuel)
    (setPmdPoints alloc prot flags)

def pudPoints (alloc : Nat → U64) (prot flags : U64) (fuel : Nat) : TablePoints :=
  initPoints alloc pudOffsetPhys pudAddrEnd (allocInitPmd alloc prot flags fuel)
    (pmdPoints alloc prot flags fuel)

/-- The entries at which the call `m` on the table `pgdir` may need a table. -/
def Mapping.tablePoints (alloc : Nat → U64) (fuel : Nat) (pgdir : U64) (m : Mapping) (s : PgState) :
    U64 → PgState → Prop :=
  loopPoints pgdAddrEnd (allocInitPud alloc m.prot m.flags fuel)
    (pudPoints alloc m.prot m.flags fuel) (pgdOffsetRaw pgdir m.virt) m.addr m.end_
    (m.phys &&& pageMask) s

/-! ## They account for all calls of `alloc_pgtable` -/

/-- The calls of `alloc_pgtable` that `f` makes are those at its empty points. -/
def Accounts (points : TablePoints)
    (f : U64 → U64 → U64 → U64 → PgState → Option PgState) : Prop :=
  ∀ p a e x s s', f p a e x s = some s' → s.allocs ≤ s'.allocs ∧
    ∀ i, s.allocs ≤ i ∧ i < s'.allocs ↔ ∃ q t, points p a e x s q t ∧ t.mem q = 0#64 ∧ t.allocs = i

variable {alloc : Nat → U64} {fuel : Nat} {next : U64 → U64 → U64} {points : TablePoints}
  {f : U64 → U64 → U64 → U64 → PgState → Option PgState}

/-- The points of a loop are those of the first turn and those of the rest. -/
theorem loopPoints_iff {p a e x q : U64} {s t : PgState} :
    loopPoints next f points p a e x s q t ↔ points p a (next a e) x s q t ∨
      next a e ≠ e ∧ ∃ s', f p a (next a e) x s = some s' ∧
        loopPoints next f points (p + 8#64) (next a e) e (x + (next a e - a)) s' q t := by
  constructor
  · rintro ⟨p', b, y, s', hturn, hpoint⟩
    cases hturn with
    | first => exact Or.inl hpoint
    | next hbody hmore hrest => exact Or.inr ⟨hmore, _, hbody, p', b, y, s', hrest, hpoint⟩
  · rintro (hpoint | ⟨hmore, s', hbody, p', b, y, s'', hrest, hpoint⟩)
    · exact ⟨p, a, x, s, .first p a x s, hpoint⟩
    · exact ⟨p', b, y, s'', .next hbody hmore hrest, hpoint⟩

theorem loopPoints_of_last {p a e x q : U64} {s t : PgState} (hend : next a e = e) :
    loopPoints next f points p a e x s q t ↔ points p a (next a e) x s q t := by
  rw [loopPoints_iff]
  simp [hend]

theorem loopPoints_of_more {p a e x q : U64} {s s' t : PgState} (hend : next a e ≠ e)
    (hbody : f p a (next a e) x s = some s') :
    loopPoints next f points p a e x s q t ↔ points p a (next a e) x s q t ∨
      loopPoints next f points (p + 8#64) (next a e) e (x + (next a e - a)) s' q t := by
  rw [loopPoints_iff]
  simp [hend, hbody]

theorem Accounts.mapLoop (hf : Accounts points f) (fuel : Nat) :
    Accounts (loopPoints next f points) fun p a e x s => mapLoop next f e fuel p a x s := by
  intro p a e x s s' hrun
  induction fuel generalizing p a x s with
  | zero => cases hrun
  | succ fuel ih =>
      obtain ⟨s₁, hs₁, hrun⟩ := Option.bind_eq_some_iff.mp hrun
      obtain ⟨hmono, hfirst⟩ := hf _ _ _ _ _ _ hs₁
      by_cases hend : next a e = e
      · rw [if_pos hend] at hrun
        obtain rfl := Option.some.inj hrun
        refine ⟨hmono, fun i => ?_⟩
        simp only [loopPoints_of_last hend, hfirst]
      · rw [if_neg hend] at hrun
        obtain ⟨hmono', hrest⟩ := ih _ _ _ _ hrun
        refine ⟨hmono.trans hmono', fun i => ?_⟩
        -- the numbers of the first turn and those of the rest
        have hsplit : s.allocs ≤ i ∧ i < s'.allocs ↔
            (s.allocs ≤ i ∧ i < s₁.allocs) ∨ (s₁.allocs ≤ i ∧ i < s'.allocs) := by omega
        rw [hsplit, hfirst, hrest]
        simp only [loopPoints_of_more hend hs₁, or_and_right, exists_or]

theorem allocs_populate_eq (alloc : Nat → U64) (p : U64) (s : PgState) :
    (populate alloc p s).allocs = if s.mem p = 0#64 then s.allocs + 1 else s.allocs := by
  unfold populate
  split <;> rfl

theorem Accounts.allocInit (hf : Accounts points f) (alloc : Nat → U64)
    (offset : PgState → U64 → U64 → U64) (next : U64 → U64 → U64) (fuel : Nat) :
    Accounts (initPoints alloc offset next f points) (allocInit alloc offset next f fuel) := by
  intro p a e x s s' hrun
  obtain ⟨hmono, hloop⟩ := hf.mapLoop fuel _ _ _ _ _ _ hrun
  rw [allocs_populate_eq] at hmono hloop
  -- the table of the level itself, if it is not there
  have hown : ∀ i, (∃ q t, (q = p ∧ t = s) ∧ t.mem q = 0#64 ∧ t.allocs = i) ↔
      s.mem p = 0#64 ∧ s.allocs = i := by
    intro i
    constructor
    · rintro ⟨q, t, ⟨rfl, rfl⟩, hempty, hi⟩
      exact ⟨hempty, hi⟩
    · rintro ⟨hempty, hi⟩
      exact ⟨p, s, ⟨rfl, rfl⟩, hempty, hi⟩
  by_cases hempty : s.mem p = 0#64
  · rw [if_pos hempty] at hmono hloop
    refine ⟨by omega, fun i => ?_⟩
    have hsplit : s.allocs ≤ i ∧ i < s'.allocs ↔
        (s.mem p = 0#64 ∧ s.allocs = i) ∨ (s.allocs + 1 ≤ i ∧ i < s'.allocs) := by
      simp only [hempty, true_and]
      omega
    rw [hsplit, ← hown, hloop]
    simp only [initPoints, or_and_right, exists_or]
  · rw [if_neg hempty] at hmono hloop
    refine ⟨hmono, fun i => ?_⟩
    have hnone : ¬ (s.mem p = 0#64 ∧ s.allocs = i) := fun h => hempty h.1
    rw [← hown] at hnone
    rw [hloop]
    simp only [initPoints, or_and_right, exists_or, hnone, false_or]

theorem accounts_setPage (prot : U64) : Accounts noPoints (setPage prot) := by
  intro p a e x s s' hrun
  obtain rfl := Option.some.inj hrun
  refine ⟨le_rfl, fun i => ⟨fun h => ?_, ?_⟩⟩
  · exact absurd (h.1.trans_lt h.2) (lt_irrefl _)
  · rintro ⟨q, t, hpoint, -⟩
    exact hpoint.elim

theorem accounts_setPmd (alloc : Nat → U64) (prot flags : U64) (fuel : Nat) :
    Accounts (setPmdPoints alloc prot flags) (setPmd alloc prot flags fuel) := by
  have hpte : Accounts (ptePoints alloc prot) (allocInitPte alloc prot fuel) :=
    (accounts_setPage prot).allocInit alloc pteOffsetPhys _ fuel
  intro p a e x s s' hrun
  unfold setPmd at hrun
  by_cases hsection : (a ||| e ||| x) &&& ~~~entryMask pmdShift = 0#64 ∧
      flags &&& noBlockMappings = 0#64
  · rw [if_pos hsection] at hrun
    obtain rfl := Option.some.inj hrun
    refine ⟨le_rfl, fun i => ⟨fun h => absurd (h.1.trans_lt h.2) (lt_irrefl _), ?_⟩⟩
    rintro ⟨q, t, ⟨hpages, -⟩, -⟩
    exact absurd hsection hpages
  · rw [if_neg hsection] at hrun
    obtain ⟨hmono, hpoints⟩ := hpte _ _ _ _ _ _ hrun
    refine ⟨hmono, fun i => (hpoints i).trans ?_⟩
    simp only [setPmdPoints, hsection, not_false_eq_true, true_and]

theorem accounts_allocInitPud (alloc : Nat → U64) (prot flags : U64) (fuel : Nat) :
    Accounts (pudPoints alloc prot flags fuel) (allocInitPud alloc prot flags fuel) :=
  ((accounts_setPmd alloc prot flags fuel).allocInit alloc pmdOffsetPhys pmdAddrEnd fuel).allocInit
    alloc pudOffsetPhys pudAddrEnd fuel

/-- **The table points of a call are all the places where it asks for a table.** -/
theorem mapStep_accounts {pgdir : U64} {m : Mapping} {s s' : PgState}
    (hrun : mapStep alloc fuel pgdir m s = some s') (i : Nat) :
    s.allocs ≤ i ∧ i < s'.allocs ↔
      ∃ q t, m.tablePoints alloc fuel pgdir s q t ∧ t.mem q = 0#64 ∧ t.allocs = i :=
  ((accounts_allocInitPud alloc m.prot m.flags fuel).mapLoop fuel _ _ _ _ _ _ hrun).2 i

/-! ## When `get_free_page` fails -/

/-- A failure of `get_free_page` at the empty entry `q` leaves no trace: no table descriptor is
installed, and nothing is written outside `pgdir` and the pages taken before. -/
structure LeavesNoTrace (memMap : PageMap) (pgdir q : U64) (t : PgState) : Prop where
  descriptor : (populate (tablePage memMap) q t).mem q &&& typeMask ≠ typeTable
  memory : ∀ a, ¬ InPage pgdir a →
    (∀ i < t.allocs, tablePage memMap i ≠ 0#64 → ¬ InPage (tablePage memMap i) a) →
    (populate (tablePage memMap) q t).mem a = t.mem a

/-- Wherever the call asks for a table and `get_free_page` fails, nothing is written. -/
def FailsClean (memMap : PageMap) (fuel : Nat) (pgdir : U64) (m : Mapping) (s : PgState) : Prop :=
  ∀ q t, m.tablePoints (tablePage memMap) fuel pgdir s q t → t.mem q = 0#64 →
    tablePage memMap t.allocs = 0#64 → LeavesNoTrace memMap pgdir q t

/-- Without a page, page 0 is cleared and becomes the table. -/
theorem populate_full {q : U64} {t : PgState} (hempty : t.mem q = 0#64)
    (hfull : alloc t.allocs = 0#64) :
    (populate alloc q t).mem q = typeTable ∧
      ∀ a, a < pageSize → a ≠ q → (populate alloc q t).mem a = 0#64 := by
  have hpop : populate alloc q t = (t.allocPage 0#64).setEntry q typeTable := by
    rw [populate, if_pos hempty, hfull, BitVec.zero_or]
  rw [hpop]
  refine ⟨if_pos rfl, fun a ha hne => ?_⟩
  show (if a = q then typeTable else if a - 0#64 < pageSize then 0#64 else t.mem a) = 0#64
  rw [if_neg hne, BitVec.sub_zero, if_pos ha]

theorem failsClean_iff_points (memMap : PageMap) (fuel : Nat) (pgdir : U64) (m : Mapping)
    (s : PgState) : FailsClean memMap fuel pgdir m s ↔
      ∀ q t, m.tablePoints (tablePage memMap) fuel pgdir s q t → t.mem q = 0#64 →
        t.allocs < (freePages memMap).card := by
  constructor
  · intro hclean q t hpoint hempty
    rw [← tablePage_ne_zero_iff]
    intro hfull
    have htable := (populate_full hempty hfull).1
    refine (hclean q t hpoint hempty hfull).descriptor ?_
    rw [htable]
    rfl
  · intro hpages q t hpoint hempty hfull
    exact absurd hfull (tablePage_ne_zero_iff.mpr (hpages q t hpoint hempty))

/-- A call that returns has had a page for each of its tables if the last of them had one. -/
theorem failsClean_iff_allocs {memMap : PageMap} {pgdir : U64} {m : Mapping} {s s' : PgState}
    (hrun : mapStep (tablePage memMap) fuel pgdir m s = some s')
    (hs : s.allocs ≤ (freePages memMap).card) :
    FailsClean memMap fuel pgdir m s ↔ s'.allocs ≤ (freePages memMap).card := by
  rw [failsClean_iff_points]
  constructor
  · intro hpoints
    by_contra hmore
    obtain ⟨q, t, hpoint, hempty, hi⟩ :=
      (mapStep_accounts hrun (freePages memMap).card).mp ⟨hs, Nat.lt_of_not_le hmore⟩
    exact absurd hi (hpoints q t hpoint hempty).ne
  · intro hle q t hpoint hempty
    obtain ⟨-, hlt⟩ := (mapStep_accounts hrun t.allocs).mpr ⟨q, t, hpoint, hempty, rfl⟩
    exact hlt.trans_le hle

/-- The pages suffice if there is one for each span that the range meets. -/
theorem failsClean_of_spans {memMap : PageMap} {pgdir : U64} {m : Mapping} {s : PgState}
    (hfuel : 512 ≤ fuel) (hp : pgdir.toNat % 4096 = 0) (hm : m.InRange)
    (hpages : s.allocs + (spans 1 m.addr.toNat m.end_.toNat +
      (spans 2 m.addr.toNat m.end_.toNat + spans 3 m.addr.toNat m.end_.toNat)) ≤
        (freePages memMap).card) :
    FailsClean memMap fuel pgdir m s := by
  obtain ⟨s', hs', -⟩ := exec_mapStep (tablePage memMap) hfuel hp [m] (by simpa using hm) s
  have hrun : mapStep (tablePage memMap) fuel pgdir m s = some s' := by
    rw [Run.exec_cons] at hs'
    obtain ⟨s₁, hs₁, hnil⟩ := Option.bind_eq_some_iff.mp hs'
    obtain rfl : s₁ = s' := Option.some.inj hnil
    exact hs₁
  exact (failsClean_iff_allocs hrun (by omega)).mpr ((mapStep_takes hm hrun).trans hpages)

/-- **A call handles a failure of `get_free_page` as it should exactly if there is none**: if
wherever the call needs a table, fewer tables have been taken than the page map has free pages.
Otherwise page 0 is linked as a table.  In tables that the mapping functions have built this can
be seen before the call: the tables that are missing are no more than the pages that are left. -/
theorem failsClean_iff (memMap : PageMap) (fuel : Nat) (pgdir : U64) (m : Mapping) (s : PgState) :
    (FailsClean memMap fuel pgdir m s ↔
      ∀ q t, m.tablePoints (tablePage memMap) fuel pgdir s q t → t.mem q = 0#64 →
        t.allocs < (freePages memMap).card) ∧
      ∀ root : TablePage, root.base = pgdir → (∀ j < nrPages, pageAddr j ≠ pgdir) →
        512 ≤ fuel → m.InRange → Inv (tablePage memMap) root s →
        m.PagesFree root m.addr.toNat m.end_.toNat s → s.allocs ≤ (freePages memMap).card →
        (FailsClean memMap fuel pgdir m s ↔
          s.allocs + m.missingTables root s ≤ (freePages memMap).card) := by
  refine ⟨failsClean_iff_points memMap fuel pgdir m s, ?_⟩
  rintro root rfl hout hfuel hm hinv hfree hs
  obtain ⟨s', hs', -⟩ := createPgdMapping_spec (tablePage memMap) root hm hfuel s
  have hrun : mapStep (tablePage memMap) fuel root.base m s = some s' := hs'
  have hfresh : FreshPages (tablePage memMap) root.base (freePages memMap).card :=
    freshPages_tablePage hout fun _ hi => tablePage_ne_zero hi
  rw [failsClean_iff_allocs hrun hs]
  rcases mapStep_fills hm hfuel hrun hfresh hs hinv hfree with ⟨hallocs, -⟩ | ⟨hmore, hmissing⟩
  · rw [hallocs]
  · exact iff_of_false (Nat.not_le.mpr hmore) (Nat.not_le.mpr hmissing)

/-- A page map with `n` free pages. -/
def pagesLeft (n : Nat) : PageMap := fun i => if i < n then 0#8 else 1#8

theorem pagesLeft_eq_zero {n i : Nat} : pagesLeft n i = 0#8 ↔ i < n := by
  unfold pagesLeft
  split_ifs with hi
  · exact iff_of_true rfl hi
  · exact iff_of_false (by decide) hi

theorem card_freePages_pagesLeft {n : Nat} (hn : n ≤ nrPages) :
    (freePages (pagesLeft n)).card = n := by
  have hfree : freePages (pagesLeft n) = Finset.range n := by
    ext i
    rw [freePages, Finset.mem_filter, Finset.mem_range, Finset.mem_range, pagesLeft_eq_zero]
    exact ⟨fun h => h.2, fun hi => ⟨hi.trans_le hn, hi⟩⟩
  rw [hfree, Finset.card_range]

/-- The first mapping of a page takes three tables. -/
theorem failsClean_iff_page :
    FailsClean (pagesLeft 3) 512 0x1000#64 pageCall PgState.zero ∧
      ¬ FailsClean (pagesLeft 2) 512 0x1000#64 pageCall PgState.zero := by
  obtain ⟨root, hroot, hmissing⟩ : ∃ root : TablePage, root.base = 0x1000#64 ∧
      pageCall.missingTables root PgState.zero = 3 :=
    ⟨⟨0x1000#64, by decide⟩, rfl, by decide +kernel⟩
  have hout : ∀ j < nrPages, pageAddr j ≠ 0x1000#64 := by
    intro j hj heq
    have hnat := pageAddr_toNat hj
    rw [heq] at hnat
    have hlow : (0x1000#64).toNat = 0x1000 := rfl
    omega
  have hpages : pageCall.PagesFree root pageCall.addr.toNat pageCall.end_.toNat PgState.zero := by
    intro y _ _ _ e hleaf
    rw [leaf_zero (fun _ => rfl)] at hleaf
    cases hleaf
  have hclean : ∀ n ≤ nrPages, FailsClean (pagesLeft n) 512 0x1000#64 pageCall PgState.zero ↔
      3 ≤ n := by
    intro n hn
    have hiff := (failsClean_iff (pagesLeft n) 512 0x1000#64 pageCall PgState.zero).2 root hroot
      hout le_rfl pageCall_inRange (inv_zero (fun _ => rfl) rfl) hpages (Nat.zero_le _)
    rw [hmissing, card_freePages_pagesLeft hn] at hiff
    exact hiff.trans (by rw [show PgState.zero.allocs = 0 from rfl, Nat.zero_add])
  have hmany : 3 ≤ nrPages := by
    rw [nrPages_eq]
    decide
  exact ⟨(hclean 3 hmany).mpr le_rfl, fun h => absurd ((hclean 2 (by omega)).mp h) (by decide)⟩

/-- With a full page map, the first table of the first mapping is page 0. -/
theorem failsClean_full_map : ¬ FailsClean (fun _ => 1#8) 512 0x1000#64 pageCall PgState.zero := by
  intro hclean
  have hfirst : pageCall.tablePoints (tablePage fun _ => 1#8) 512 0x1000#64 PgState.zero
      0x1000#64 PgState.zero :=
    ⟨0x1000#64, _, _, _, .first _ _ _ _, Or.inl ⟨rfl, rfl⟩⟩
  have hnone : (freePages fun _ => 1#8) = ∅ := by simp [freePages]
  have hfull : tablePage (fun _ => 1#8) 0 = 0#64 := by
    by_contra hpage
    have hpos := tablePage_ne_zero_iff.mp hpage
    rw [hnone] at hpos
    exact absurd hpos (lt_irrefl 0)
  have htable := (@populate_full _ 0x1000#64 PgState.zero rfl hfull).1
  refine (hclean _ _ hfirst rfl hfull).descriptor ?_
  rw [htable]
  rfl

end Arm64OS
