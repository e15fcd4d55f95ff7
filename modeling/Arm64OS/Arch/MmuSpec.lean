import Arm64OS.Arch.PgtableStore

/-!
# What one call of `__create_pgd_mapping` does

The specification is one function from addresses to leaves (`Mapping.want`): a 2 MiB
block is mapped by a section when it lies in the range as a whole, its physical address
is aligned and the flags allow it, and by pages otherwise.  Each of the nested
functions meets the same contract (`Maps`) one level further down: the loop keeps it by
induction on the remaining entries, `populate` hands it to the level above.
-/

namespace Arm64OS

/-- The arguments of a call of `__create_pgd_mapping`. -/
structure Mapping where
  phys : U64
  virt : U64
  size : U64
  prot : U64
  flags : U64

namespace Mapping

variable (m : Mapping)

/-- Where the mapped range starts and ends, as the function computes it. -/
def addr : U64 := m.virt &&& pageMask

def end_ : U64 := pageAlign (m.virt + m.size)

/-- `phys - addr`, which no loop changes. -/
def offset : U64 := (m.phys &&& pageMask) - m.addr

/-- The range is not empty and lies below `2 ^ 48`. -/
def InRange : Prop := m.addr.toNat < m.end_.toNat ∧ m.end_.toNat ≤ 2 ^ 48

/-- The range covers the address `y`. -/
def Covers (y : Nat) : Prop := m.addr.toNat ≤ y ∧ y < m.end_.toNat

/-- The block of 2 MiB around `y` is mapped by a section. -/
def usesSection (y : Nat) : Prop :=
  m.addr.toNat ≤ y / span 3 * span 3 ∧ y / span 3 * span 3 + span 3 ≤ m.end_.toNat ∧
    m.offset.toNat % span 3 = 0 ∧ m.flags &&& noBlockMappings = 0#64

instance (y : Nat) : Decidable (m.usesSection y) := by
  unfold usesSection
  infer_instance

def sectEntry (y : Nat) : U64 :=
  pfnPmd ((BitVec.ofNat 64 (y / span 3 * span 3) + m.offset) >>> pmdShift)
    (pmdTypeSect ||| mkSectProt m.prot)

def pageEntry (y : Nat) : U64 :=
  pfnPte ((BitVec.ofNat 64 (y / span 4 * span 4) + m.offset) >>> pageShift) m.prot

/-- The leaf that the call gives to the address `y` of its range. -/
def want (y : Nat) : Option Leaf :=
  if m.usesSection y then some (.sect (m.sectEntry y)) else pageLeaf (m.pageEntry y)

/-- No address of `[lo, hi)` that the call maps by a page is mapped by a section now. -/
def PagesFree (root : TablePage) (lo hi : Nat) (s : PgState) : Prop :=
  ∀ y, lo ≤ y → y < hi → ¬ m.usesSection y → ∀ e, s.leaf root y ≠ some (.sect e)

variable {m}

theorem addr_aligned : m.addr.toNat % 4096 = 0 := and_pageMask_mod m.virt

theorem end_aligned : m.end_.toNat % 4096 = 0 := and_pageMask_mod _

/-- The addresses of one block are mapped alike. -/
theorem usesSection_congr {x y : Nat} (h : x / span 3 = y / span 3) :
    m.usesSection x ↔ m.usesSection y := by
  unfold usesSection
  rw [h]

theorem PagesFree.mono {root : TablePage} {lo hi lo' hi' : Nat} {s : PgState}
    (h : m.PagesFree root lo hi s) (hlo : lo ≤ lo') (hhi : hi' ≤ hi) :
    m.PagesFree root lo' hi' s :=
  fun y hy hy' => h y (hlo.trans hy) (Nat.lt_of_lt_of_le hy' hhi)

end Mapping

/-- `p` points to the entry of level `k` on the path of `a`. -/
def SlotAt (root : TablePage) (k : Nat) (p : U64) (a : Nat) (s : PgState) : Prop :=
  ∃ b, (s.tree root).walk k a = some b ∧ p = b.cell (tableIndex k a)

/-- The contract of the functions that map a piece `[a, e)` of the range of `m` below one
entry of level `k`, for the pieces whose start meets `C`.  They return; and if the pages
that `alloc_pgtable` has returned by then are new ones, the piece is mapped and nothing
else changes. -/
def Maps (alloc : Nat → U64) (root : TablePage) (m : Mapping) (C : Nat → Prop) (k : Nat)
    (f : U64 → U64 → U64 → U64 → PgState → Option PgState) : Prop :=
  ∀ p a e s, C a.toNat → Piece m.addr.toNat m.end_.toNat (k + 1) a.toNat e.toNat →
    ∃ s', f p a e (a + m.offset) s = some s' ∧ s.allocs ≤ s'.allocs ∧
      ∀ n, FreshPages alloc root.base n → s'.allocs ≤ n → Inv alloc root s →
        SlotAt root k p a.toNat s → m.PagesFree root a.toNat e.toNat s →
        Effect alloc root m.want k a.toNat e.toNat s s'

/-- `next` finds the end of the part of a range that one entry of level `k` covers. -/
def CutsAt (k : Nat) (next : U64 → U64 → U64) : Prop :=
  ∀ a e : U64, a.toNat < e.toNat → e.toNat ≤ 2 ^ 48 → a.toNat % 4096 = 0 → e.toNat % 4096 = 0 →
    (next a e).toNat = min e.toNat ((a.toNat / span (k + 1) + 1) * span (k + 1))

theorem cutsAt_pgdAddrEnd : CutsAt 0 pgdAddrEnd :=
  fun _ _ hlt hend _ _ => toNat_addrEnd (by decide : 39 ≤ 39) hlt hend

theorem cutsAt_pudAddrEnd : CutsAt 1 pudAddrEnd :=
  fun _ _ hlt hend _ _ => toNat_addrEnd (by decide : 30 ≤ 39) hlt hend

theorem cutsAt_pmdAddrEnd : CutsAt 2 pmdAddrEnd :=
  fun _ _ hlt hend _ _ => toNat_addrEnd (by decide : 21 ≤ 39) hlt hend

theorem cutsAt_add_pageSize : CutsAt 3 fun addr _ => addr + pageSize := by
  intro a e hlt hend ha he
  rw [BitVec.toNat_add, pageSize_toNat, span_four]
  omega

variable {alloc : Nat → U64} {root : TablePage} {m : Mapping} {C : Nat → Prop} {k : Nat}
  {f : U64 → U64 → U64 → U64 → PgState → Option PgState} {next : U64 → U64 → U64}

theorem SlotAt.of_walk_eq {p : U64} {a : Nat} {s s' : PgState} (h : SlotAt root k p a s)
    (hwalk : ∀ x, (s'.tree root).walk k x = (s.tree root).walk k x) : SlotAt root k p a s' := by
  obtain ⟨b, hb, hp⟩ := h
  exact ⟨b, by rw [hwalk, hb], hp⟩

/-- The pointer moves to the next entry of the same table. -/
theorem SlotAt.succ {p : U64} {a n : Nat} {s : PgState} (h : SlotAt root k p a s) (hk : k ≤ 4)
    (ha : a < 2 ^ 48) (hn : n < 2 ^ 48) (hspan : a / span k = n / span k)
    (hindex : (tableIndex k n : Nat) = tableIndex k a + 1) : SlotAt root k (p + 8#64) n s := by
  obtain ⟨b, hb, rfl⟩ := h
  have hpath : (s.tree root).SamePath k a n := (samePath_iff hk ha hn).mpr hspan
  refine ⟨b, ?_, b.cell_add_eight hindex⟩
  rw [← RadixTree.Tree.walk_congr hpath, hb]

/-- What a turn that is not the last leaves to the turns behind it. -/
structure TurnsOn (lo hi k : Nat) (a n e : U64) : Prop where
  lt : a.toNat < n.toNat
  rest : Rest lo hi k n.toNat e.toNat
  boundary : n.toNat % span (k + 1) = 0
  span_eq : a.toNat / span k = n.toNat / span k
  index : (tableIndex k n.toNat : Nat) = tableIndex k a.toNat + 1
  turns : (e.toNat - 1) / span (k + 1) - n.toNat / span (k + 1) <
    (e.toNat - 1) / span (k + 1) - a.toNat / span (k + 1)

/-- One turn gets a piece of the next level. -/
theorem Rest.cut {lo hi : Nat} (hlo : lo % 4096 = 0) (hhi : hi % 4096 = 0) (hbound : hi ≤ 2 ^ 48)
    (hk : k ≤ 3) (hnext : CutsAt k next) {a e : U64} (hrest : Rest lo hi k a.toNat e.toNat) :
    Piece lo hi (k + 1) a.toNat (next a e).toNat ∧
      (next a e ≠ e → TurnsOn lo hi k a (next a e) e) := by
  obtain ⟨ha, he⟩ := hrest.aligned hlo hhi hk
  have hn := hnext a e hrest.lt (hrest.le_hi.trans hbound) ha he
  have hpiece := hrest.piece hk hn
  refine ⟨hpiece, fun hlast => ?_⟩
  have hne : (next a e).toNat ≠ e.toNat := fun h => hlast (BitVec.eq_of_toNat_eq h)
  obtain ⟨hrest', hspan, hindex, hslot⟩ := hrest.step hk hn hne
  have hmul : (next a e).toNat = (a.toNat / span (k + 1) + 1) * span (k + 1) := by omega
  have hturns : (next a e).toNat / span (k + 1) ≤ (e.toNat - 1) / span (k + 1) :=
    Nat.div_le_div_right (Nat.le_sub_one_of_lt hrest'.lt)
  refine ⟨hpiece.lt, hrest', ?_, hspan, hindex, by omega⟩
  rw [hmul, Nat.mul_mod_left]

theorem TurnsOn.slot {lo hi : Nat} {a n e p : U64} {s : PgState} (h : TurnsOn lo hi k a n e)
    (hslot : SlotAt root k p a.toNat s) (hk : k ≤ 3) (hbound : hi ≤ 2 ^ 48) :
    SlotAt root k (p + 8#64) n.toNat s := by
  have hn : n.toNat < 2 ^ 48 := Nat.lt_of_lt_of_le h.rest.lt (h.rest.le_hi.trans hbound)
  exact hslot.succ (hk.trans (by decide)) (h.lt.trans hn) hn h.span_eq h.index

/-- The physical address moves with the virtual one. -/
theorem offset_add (a n x : U64) : a + x + (n - a) = n + x := by bv_omega

/-- What a call does to a piece of the range leaves the pages of the rest free. -/
theorem Mapping.PagesFree.of_effect {a lo hi e : Nat} {want : Nat → Option Leaf} {s s' : PgState}
    (h : m.PagesFree root a e s) (heffect : Effect alloc root want k lo hi s s') (ha : a ≤ hi)
    (he : e ≤ 2 ^ 48) : m.PagesFree root hi e s' := by
  intro y hy hye huses
  rw [heffect.leaf_off y (by omega) (by omega)]
  exact h y (by omega) hye huses

/-- The loop over the entries of one table.  Every turn leaves the table itself and the
leaves of the later pieces alone. -/
theorem mapLoop_spec (hm : m.InRange) (hk : k ≤ 3) (hf : Maps alloc root m C k f)
    (hC : ∀ x y, x / span k = y / span k → C x → C y) (hnext : CutsAt k next)
    {fuel : Nat} {p a e : U64} {s : PgState} (hCa : C a.toNat)
    (hrest : Rest m.addr.toNat m.end_.toNat k a.toNat e.toNat)
    (hfuel : (e.toNat - 1) / span (k + 1) - a.toNat / span (k + 1) < fuel) :
    ∃ s', mapLoop next f e fuel p a (a + m.offset) s = some s' ∧ s.allocs ≤ s'.allocs ∧
      ∀ n, FreshPages alloc root.base n → s'.allocs ≤ n → Inv alloc root s →
        SlotAt root k p a.toNat s → m.PagesFree root a.toNat e.toNat s →
        Effect alloc root m.want k a.toNat e.toNat s s' := by
  induction fuel generalizing p a s with
  | zero => exact absurd hfuel (Nat.not_lt_zero _)
  | succ fuel ih =>
      have hend : e.toNat ≤ 2 ^ 48 := hrest.le_hi.trans hm.2
      obtain ⟨hpiece, hmore⟩ := hrest.cut m.addr_aligned m.end_aligned hm.2 hk hnext
      obtain ⟨s₁, hs₁, hmono₁, heffect₁⟩ := hf p a (next a e) s hCa hpiece
      unfold mapLoop
      rw [hs₁, Option.bind_some]
      by_cases hlast : next a e = e
      · -- the last turn
        rw [if_pos hlast]
        rw [hlast] at heffect₁
        exact ⟨s₁, rfl, hmono₁, heffect₁⟩
      · have hturn := hmore hlast
        rw [if_neg hlast, offset_add]
        obtain ⟨s₂, hs₂, hmono₂, heffect₂⟩ := ih (p := p + 8#64) (a := next a e) (s := s₁)
          (hC _ _ hturn.span_eq hCa) hturn.rest
          (Nat.lt_of_lt_of_le hturn.turns (Nat.le_of_lt_succ hfuel))
        refine ⟨s₂, hs₂, hmono₁.trans hmono₂, ?_⟩
        intro n hfresh hsn hinv hat hfree
        have hle : a.toNat ≤ (next a e).toNat := hturn.lt.le
        have hle' : (next a e).toNat ≤ e.toNat := hturn.rest.lt.le
        have h₁ := heffect₁ n hfresh (hmono₂.trans hsn) hinv hat (hfree.mono le_rfl hle')
        have hat' := hturn.slot (hat.of_walk_eq (h₁.walk_eq k le_rfl)) hk hm.2
        have hfree' := hfree.of_effect h₁ hle hend
        exact h₁.trans (heffect₂ n hfresh hsn h₁.inv hat' hfree') le_rfl hle hle' hend

/-- After `populate` the entry names a table, and no lookup has changed. -/
theorem populate_spec (alloc : Nat → U64) (root : TablePage) (m : Mapping) (hk : k ≤ 2)
    (p a : U64) (s : PgState) :
    s.allocs ≤ (populate alloc p s).allocs ∧
      ∀ n, FreshPages alloc root.base n → (populate alloc p s).allocs ≤ n → Inv alloc root s →
        SlotAt root k p a.toNat s →
        (∀ e, (s.tree root).entry 2 a.toNat = some e → k = 2 → e &&& typeMask ≠ pmdTypeSect) →
        Effect alloc root m.want k a.toNat a.toNat s (populate alloc p s) ∧
          ∃ b, ((populate alloc p s).tree root).walk (k + 1) a.toNat = some b ∧
            pagePaddr ((populate alloc p s).mem p) = b.base := by
  by_cases hempty : s.mem p = 0#64
  · have hpop : populate alloc p s =
        (s.allocPage (alloc s.allocs)).setEntry p (alloc s.allocs ||| typeTable) := if_pos hempty
    have hallocs : (populate alloc p s).allocs = s.allocs + 1 := by rw [hpop]; rfl
    refine ⟨by omega, ?_⟩
    rintro n hfresh hsn hinv ⟨b, hb, rfl⟩ -
    have hlt : s.allocs < n := by omega
    obtain ⟨q, hq⟩ : ∃ q : TablePage, alloc s.allocs = q.base :=
      ⟨⟨alloc s.allocs, hfresh.aligned _ hlt⟩, rfl⟩
    have hv := tableChild_populate hk q (hq ▸ hfresh.below _ hlt)
    have hnot := hinv.notReached hfresh hlt hq
    rw [hpop, hq]
    refine ⟨hinv.effect_newTable hb hnot hv hk ?_ hq, q, ?_, ?_⟩
    · rw [RadixTree.Tree.entry_of_walk hb, tree_cells, tree_idx, hempty]
    · rw [tree_newTable]
      exact RadixTree.Tree.walk_install_next hinv.separated hb hnot hv fun _ _ => rfl
    · have hpage := congrArg TablePage.base (typeTable_of_tableChild hv).2
      show pagePaddr (if _ then _ else _) = _
      rw [if_pos rfl]
      exact hpage
  · have hpop : populate alloc p s = s := if_neg hempty
    rw [hpop]
    refine ⟨le_rfl, ?_⟩
    rintro n - - hinv ⟨b, hb, rfl⟩ hsect
    have hentry := RadixTree.Tree.entry_of_walk hb
    rw [tree_cells, tree_idx] at hentry
    -- The source asks only whether the entry is zero; the rest is `hsect`.
    have htable := hinv.table_of_entry hk hentry hempty fun hlevel => by
      subst hlevel
      exact hsect _ hentry rfl
    refine ⟨Effect.refl hinv, pageOf (s.mem (b.cell (tableIndex k a.toNat))), ?_, rfl⟩
    rw [RadixTree.Tree.walk_succ, hentry, Option.bind_some, tree_child, tableChild,
      if_pos ⟨hk, htable⟩]

/-- Behind `populate` the functions `alloc_init_*` stand at the first entry of the next level. -/
theorem populate_enter (hm : m.InRange) (hk : k ≤ 2)
    (hsect : k = 2 → ∀ x, C x → ¬ m.usesSection x) {index : U64 → U64}
    (hindex : ∀ a, (index a).toNat = tableIndex (k + 1) a.toNat) {p a e : U64} {s : PgState}
    (hCa : C a.toNat) (hpiece : Piece m.addr.toNat m.end_.toNat (k + 1) a.toNat e.toNat) {n : Nat}
    (hfresh : FreshPages alloc root.base n) (hn : (populate alloc p s).allocs ≤ n)
    (hinv : Inv alloc root s) (hat : SlotAt root k p a.toNat s)
    (hfree : m.PagesFree root a.toNat e.toNat s) :
    Effect alloc root m.want k a.toNat a.toNat s (populate alloc p s) ∧
      SlotAt root (k + 1) (offsetPhys index (populate alloc p s) p a) a.toNat
        (populate alloc p s) ∧
      m.PagesFree root a.toNat e.toNat (populate alloc p s) := by
  have hnosect : ∀ v, (s.tree root).entry 2 a.toNat = some v → k = 2 →
      v &&& typeMask ≠ pmdTypeSect := by
    intro v hv hk2 htype
    refine hfree a.toNat le_rfl hpiece.lt (hsect hk2 _ hCa) v ?_
    rw [PgState.leaf, hv, leafOf, if_pos htype]
  obtain ⟨hpop, b, hb, haddr⟩ := (populate_spec alloc root m hk p a s).2 n hfresh hn hinv hat hnosect
  refine ⟨hpop, ⟨b, hb, ?_⟩, hfree.of_effect hpop le_rfl (hpiece.le_hi.trans hm.2)⟩
  rw [offsetPhys, haddr]
  exact b.cell_of_index (hindex a)

/-- The functions `alloc_init_*`: a loop of the next level below a table that is there. -/
theorem allocInit_maps (hm : m.InRange) (hk : k ≤ 2) (hf : Maps alloc root m C (k + 1) f)
    (hC : ∀ x y, x / span (k + 1) = y / span (k + 1) → C x → C y)
    (hsect : k = 2 → ∀ x, C x → ¬ m.usesSection x) (hnext : CutsAt (k + 1) next)
    {index : U64 → U64} (hindex : ∀ a, (index a).toNat = tableIndex (k + 1) a.toNat)
    {fuel : Nat} (hfuel : 512 ≤ fuel) :
    Maps alloc root m C k (allocInit alloc (offsetPhys index) next f fuel) := by
  intro p a e s hCa hpiece
  have hrest := hpiece.rest
  have hmono := (populate_spec alloc root m hk p a s).1
  obtain ⟨s', hs', hmono', heffect⟩ := mapLoop_spec hm (by omega) hf hC hnext
    (p := offsetPhys index (populate alloc p s) p a) (s := populate alloc p s) hCa hrest
    (Nat.lt_of_lt_of_le (hrest.turns (by omega)) hfuel)
  refine ⟨s', hs', hmono.trans hmono', ?_⟩
  intro n hfresh hsn hinv hat hfree
  obtain ⟨hpop, hat', hfree'⟩ := populate_enter hm hk hsect hindex hCa hpiece hfresh
    (hmono'.trans hsn) hinv hat hfree
  exact hpop.trans (heffect n hfresh hsn hpop.inv hat' hfree') (Nat.le_succ k) le_rfl
    hpiece.lt.le (hpiece.le_hi.trans hm.2)

/-! ### The two kinds of leaf -/

/-- One turn of the loop of `alloc_init_pte`. -/
theorem setPage_maps (hm : m.InRange) :
    Maps alloc root m (fun y => ¬ m.usesSection y) 3 (setPage m.prot) := by
  intro p a e s hpages hpiece
  refine ⟨_, rfl, le_rfl, ?_⟩
  rintro n - - hinv ⟨b, hb, rfl⟩ -
  have hlo := m.addr_aligned
  have hhi := m.end_aligned
  have hend := hm.2
  rw [piece_iff] at hpiece
  simp only [Nat.reduceAdd, span_four] at hpiece
  -- Both ends are page boundaries, so a piece of one page is the page.
  have ha : a.toNat % span 4 = 0 := by
    rw [span_four]
    omega
  have he : e.toNat = a.toNat + span 4 := by
    rw [span_four]
    omega
  rw [he]
  refine hinv.effect_page hb (by omega) ha ?_
  intro y hy
  have hblock : y / span 3 = a.toNat / span 3 := by
    simp only [span_three, span_four] at *
    omega
  have hbase : BitVec.ofNat 64 (y / span 4 * span 4) = a := by
    rw [hy, Nat.div_mul_cancel (Nat.dvd_of_mod_eq_zero ha), BitVec.ofNat_toNat,
      BitVec.setWidth_eq]
  rw [Mapping.want, if_neg ((m.usesSection_congr hblock).not.mpr hpages), Mapping.pageEntry, hbase]

theorem and_not_entryMask_eq_zero (x : U64) :
    x &&& ~~~entryMask pmdShift = 0#64 ↔ x.toNat % span 3 = 0 := by
  have hmask : ~~~entryMask pmdShift = (1#64 <<< 21) - 1#64 := by decide
  rw [hmask, ← BitVec.toNat_inj, BitField.toNat_and_lowMask x (by decide : 21 < 64)]
  rfl

/-- The test of `alloc_init_pmd` on a piece of one block decides for a section exactly
where the whole block lies in the range. -/
theorem section_test (a e : U64)
    (hpiece : Piece m.addr.toNat m.end_.toNat 3 a.toNat e.toNat) :
    (a ||| e ||| (a + m.offset)) &&& ~~~entryMask pmdShift = 0#64 ∧
        m.flags &&& noBlockMappings = 0#64 ↔
      m.usesSection a.toNat := by
  have hoff : (a + m.offset).toNat = (a.toNat + m.offset.toNat) % 2 ^ 64 := BitVec.toNat_add _ _
  rw [piece_iff] at hpiece
  rw [BitVec.and_or_distrib_right, BitVec.and_or_distrib_right, BitVec.or_eq_zero_iff,
    BitVec.or_eq_zero_iff, and_not_entryMask_eq_zero, and_not_entryMask_eq_zero,
    and_not_entryMask_eq_zero, hoff, Mapping.usesSection]
  simp only [span_three] at *
  constructor
  · -- a piece whose ends are both section boundaries is the block
    rintro ⟨⟨⟨ha, he⟩, hphys⟩, hflags⟩
    exact ⟨by omega, by omega, by omega, hflags⟩
  · rintro ⟨hlo, hhi, hphys, hflags⟩
    exact ⟨⟨⟨by omega, by omega⟩, by omega⟩, hflags⟩

/-- The type bits of a section entry are those of a section, whatever `prot` is. -/
theorem sectEntry_type (y : Nat) : m.sectEntry y &&& typeMask = pmdTypeSect := by
  apply BitVec.eq_of_getLsbD_eq
  intro i hi
  have hmask : typeMask.getLsbD i = decide (i < 2) :=
    BitField.getLsbD_lowMask (by decide : 2 < 64) i
  have hsect : pmdTypeSect.getLsbD i = decide (i < 1) :=
    BitField.getLsbD_lowMask (by decide : 1 < 64) i
  rw [BitVec.getLsbD_and, hmask, hsect, Mapping.sectEntry, pfnPmd, mkSectProt]
  -- `prot` reaches bit 0, where the section type is set anyway, but not bit 1.
  match i with
  | 0 => simp [hsect, pmdShift, pteTableBit]
  | 1 => simp [pmdTypeSect, pmdShift, pteTableBit]
  | i + 2 => simp

theorem setPmd_maps (hm : m.InRange) {fuel : Nat}
    (hpte : Maps alloc root m (fun y => ¬ m.usesSection y) 2 (allocInitPte alloc m.prot fuel)) :
    Maps alloc root m (fun _ => True) 2 (setPmd alloc m.prot m.flags fuel) := by
  intro p a e s _ hpiece
  have htest := section_test a e hpiece
  unfold setPmd
  by_cases huses : m.usesSection a.toNat
  · rw [if_pos (htest.mpr huses)]
    refine ⟨_, rfl, le_rfl, ?_⟩
    rintro n - - hinv ⟨b, hb, rfl⟩ -
    have hend := hm.2
    have hblock := huses
    obtain ⟨hlo, hhi, -, -⟩ := hblock
    rw [piece_iff] at hpiece
    simp only [Nat.reduceAdd, span_three] at hpiece hlo hhi
    have ha : a.toNat % span 3 = 0 := by
      rw [span_three]
      omega
    have he : e.toNat = a.toNat + span 3 := by
      rw [span_three]
      omega
    have hentry : ∀ y, y / span 3 = a.toNat / span 3 → m.sectEntry y =
        pfnPmd ((a + m.offset) >>> pmdShift) (pmdTypeSect ||| mkSectProt m.prot) := by
      intro y hy
      rw [Mapping.sectEntry, hy, Nat.div_mul_cancel (Nat.dvd_of_mod_eq_zero ha),
        BitVec.ofNat_toNat, BitVec.setWidth_eq]
    rw [he, pmdSetSection, ← hentry a.toNat rfl]
    refine hinv.effect_section hb (by omega) ha (sectEntry_type _) ?_
    intro y hy
    have huses' : m.usesSection y := (m.usesSection_congr hy).mpr huses
    rw [Mapping.want, if_pos huses', hentry y hy, hentry a.toNat rfl]
  · rw [if_neg fun h => huses (htest.mp h)]
    exact hpte p a e s huses hpiece

/-! ### The whole call -/

/-- A call by the range that it maps. -/
theorem createPgdMapping_eq (alloc : Nat → U64) (fuel : Nat) (pgdir : U64) (m : Mapping)
    (s : PgState) :
    createPgdMapping alloc fuel pgdir m.phys m.virt m.size m.prot m.flags s =
      mapLoop pgdAddrEnd (allocInitPud alloc m.prot m.flags fuel) m.end_ fuel
        (pgdOffsetRaw pgdir m.virt) m.addr (m.addr + m.offset) s := by
  have hphys : m.phys &&& pageMask = m.addr + m.offset := by
    rw [Mapping.offset]
    bv_omega
  rw [createPgdMapping, hphys]
  rfl

theorem slotAt_pgd (root : TablePage) (m : Mapping) (s : PgState) :
    SlotAt root 0 (pgdOffsetRaw root.base m.virt) m.addr.toNat s := by
  refine ⟨root, rfl, ?_⟩
  -- The index is taken from `virt` itself, not from the rounded address.
  have hindex : (pgdIndex m.virt).toNat = tableIndex 0 m.addr.toNat := by
    rw [toNat_pgdIndex, Mapping.addr, toNat_and_pageMask]
    simp only [tableIndex, Nat.reduceAdd, span_one]
    omega
  exact root.cell_of_index hindex

section Call

variable (alloc root) (hm : m.InRange) {fuel : Nat} (hfuel : 512 ≤ fuel)

include hm hfuel

theorem allocInitPte_maps :
    Maps alloc root m (fun y => ¬ m.usesSection y) 2 (allocInitPte alloc m.prot fuel) :=
  allocInit_maps hm le_rfl (setPage_maps hm)
    (fun _ _ h hpages => (m.usesSection_congr h).not.mp hpages) (fun _ _ hpages => hpages)
    cutsAt_add_pageSize toNat_pteIndex hfuel

theorem allocInitPmd_maps :
    Maps alloc root m (fun _ => True) 1 (allocInitPmd alloc m.prot m.flags fuel) :=
  allocInit_maps hm (by decide) (setPmd_maps hm (allocInitPte_maps alloc root hm hfuel))
    (fun _ _ _ _ => trivial) (fun h => absurd h (by decide)) cutsAt_pmdAddrEnd toNat_pmdIndex hfuel

theorem allocInitPud_maps :
    Maps alloc root m (fun _ => True) 0 (allocInitPud alloc m.prot m.flags fuel) :=
  allocInit_maps hm (by decide) (allocInitPmd_maps alloc root hm hfuel)
    (fun _ _ _ _ => trivial) (fun h => absurd h (by decide)) cutsAt_pudAddrEnd toNat_pudIndex hfuel

/-- A call returns and gives every address of its range the leaf `m.want`, provided that
`alloc_pgtable` returned new pages and no block to be mapped by pages is mapped by a
section. -/
theorem createPgdMapping_spec (s : PgState) :
    ∃ s', createPgdMapping alloc fuel root.base m.phys m.virt m.size m.prot m.flags s = some s' ∧
      s.allocs ≤ s'.allocs ∧
      ∀ n, FreshPages alloc root.base n → s'.allocs ≤ n → Inv alloc root s →
        m.PagesFree root m.addr.toNat m.end_.toNat s →
        Effect alloc root m.want 0 m.addr.toNat m.end_.toNat s s' := by
  have hrest := (piece_zero hm.1 hm.2).rest
  obtain ⟨s', hs', hmono, heffect⟩ := mapLoop_spec hm (by decide)
    (allocInitPud_maps alloc root hm hfuel) (fun _ _ _ _ => trivial)
    cutsAt_pgdAddrEnd (p := pgdOffsetRaw root.base m.virt) (s := s) trivial hrest
    (Nat.lt_of_lt_of_le (hrest.turns (by decide)) hfuel)
  refine ⟨s', ?_, hmono, ?_⟩
  · rw [createPgdMapping_eq]
    exact hs'
  · intro n hfresh hsn hinv hfree
    exact heffect n hfresh hsn hinv (slotAt_pgd root m s) hfree

end Call

end Arm64OS
