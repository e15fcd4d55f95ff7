import Arm64OS.Arch.MmuCount

/-!
# The tables that a call has to make

A call of `__create_pgd_mapping` takes one page for each table that its range needs and does not
find: of the levels `1` and `2` for every span that the range meets, of the last level for every
block that is not mapped by a section.  As long as pages are left, that number can be read off
the tables as they are before the call.
-/

namespace Arm64OS

/-! ## Counting -/

/-- The call needs a table of level `k` on the path of `x`. -/
def Mapping.Needs (m : Mapping) (k x : Nat) : Prop := k = 3 → ¬ m.usesSection x

instance (m : Mapping) (k x : Nat) : Decidable (m.Needs k x) := by
  unfold Mapping.Needs
  infer_instance

/-- The spans of level `k` that meet `[a, e)` whose table the call needs and does not find. -/
def Mapping.missing (m : Mapping) (root : TablePage) (s : PgState) (k a e : Nat) : Finset Nat :=
  (Finset.Ico (a / span k) ((e - 1) / span k + 1)).filter fun j =>
    m.Needs k (j * span k) ∧ (s.tree root).walk k (j * span k) = none

/-- The tables of the levels behind `k` that `[a, e)` has to be given. -/
def Mapping.missingBelow (m : Mapping) (root : TablePage) (s : PgState) (k a e : Nat) : Nat :=
  ∑ j ∈ Finset.Ioc k 3, (m.missing root s j a e).card

/-- The tables that a call has to make. -/
def Mapping.missingTables (m : Mapping) (root : TablePage) (s : PgState) : Nat :=
  m.missingBelow root s 0 m.addr.toNat m.end_.toNat

variable {alloc : Nat → U64} {root : TablePage} {m : Mapping} {C : Nat → Prop} {k fuel N : Nat}
  {f : U64 → U64 → U64 → U64 → PgState → Option PgState} {next : U64 → U64 → U64}
  {s s' : PgState}

/-- A cut at a boundary divides no span. -/
theorem card_missing_add (hk : k ≤ 3) {a n e : Nat} (hlt : a < n) (hlt' : n < e)
    (hcut : n % span k = 0) :
    (m.missing root s k a e).card =
      (m.missing root s k a n).card + (m.missing root s k n e).card := by
  have hlast : (n - 1) / span k + 1 = n / span k := by
    obtain rfl | rfl | rfl | rfl : k = 0 ∨ k = 1 ∨ k = 2 ∨ k = 3 := by omega
    all_goals
      simp only [span_zero, span_one, span_two, span_three] at *
      omega
  have hfirst : a / span k ≤ n / span k := Nat.div_le_div_right hlt.le
  have hsecond : n / span k ≤ (e - 1) / span k + 1 :=
    (Nat.div_le_div_right (Nat.le_sub_one_of_lt hlt')).trans (Nat.le_succ _)
  unfold Mapping.missing
  rw [hlast, ← Finset.Ico_union_Ico_eq_Ico hfirst hsecond, Finset.filter_union,
    Finset.card_union_of_disjoint]
  exact Finset.disjoint_filter_filter (Finset.Ico_disjoint_Ico_consecutive _ _ _)

theorem missingBelow_add {a n e : Nat} (hlt : a < n) (hlt' : n < e)
    (hcut : n % span (k + 1) = 0) :
    m.missingBelow root s k a e = m.missingBelow root s k a n + m.missingBelow root s k n e := by
  unfold Mapping.missingBelow
  rw [← Finset.sum_add_distrib]
  refine Finset.sum_congr rfl fun j hj => ?_
  obtain ⟨hlow, hhigh⟩ := Finset.mem_Ioc.mp hj
  exact card_missing_add hhigh hlt hlt' (mod_span_of_le hlow hcut)

theorem missingBelow_succ (hk : k ≤ 2) (a e : Nat) :
    m.missingBelow root s k a e =
      (m.missing root s (k + 1) a e).card + m.missingBelow root s (k + 1) a e := by
  unfold Mapping.missingBelow
  rw [← Finset.sum_Ioc_consecutive _ (Nat.le_succ k) (show k + 1 ≤ 3 by omega),
    Nat.Ioc_succ_singleton, Finset.sum_singleton]

/-- Only the paths of the spans matter. -/
theorem missingBelow_congr {a e : Nat} (h : ∀ j, k < j → j ≤ 3 → ∀ i, a / span j ≤ i →
      i ≤ (e - 1) / span j →
      ((s'.tree root).walk j (i * span j) = none ↔ (s.tree root).walk j (i * span j) = none)) :
    m.missingBelow root s' k a e = m.missingBelow root s k a e := by
  refine Finset.sum_congr rfl fun j hj => congrArg Finset.card ?_
  obtain ⟨hlt, hle⟩ := Finset.mem_Ioc.mp hj
  refine Finset.filter_congr fun i hi => ?_
  obtain ⟨hlo, hhi⟩ := Finset.mem_Ico.mp hi
  rw [h j hlt hle i hlo (Nat.lt_succ_iff.mp hhi)]

/-! ## What the functions take -/

/-- No table is made or cut off but below the span of level `k` around `a`. -/
def KeepsPaths (root : TablePage) (k a : Nat) (s s' : PgState) : Prop :=
  ∀ j, ∀ y < 2 ^ 48, y / span k ≠ a / span k → (s'.tree root).walk j y = (s.tree root).walk j y

theorem KeepsPaths.trans {a : Nat} {s'' : PgState} (h : KeepsPaths root k a s s')
    (h' : KeepsPaths root k a s' s'') : KeepsPaths root k a s s'' :=
  fun j y hy hne => (h' j y hy hne).trans (h j y hy hne)

/-- Addresses of one span are in one span of the level above. -/
theorem div_span_of_succ (hk : k ≤ 3) {x y : Nat} (h : x / span (k + 1) = y / span (k + 1)) :
    x / span k = y / span k := by
  obtain rfl | rfl | rfl | rfl : k = 0 ∨ k = 1 ∨ k = 2 ∨ k = 3 := by omega
  all_goals
    simp only [Nat.reduceAdd, span_zero, span_one, span_two, span_three, span_four] at *
    omega

theorem KeepsPaths.up (hk : k ≤ 3) {a b : Nat} (h : KeepsPaths root (k + 1) a s s')
    (hspan : a / span k = b / span k) : KeepsPaths root k b s s' := by
  refine fun j y hy hne => h j y hy fun heq => hne ?_
  rw [div_span_of_succ hk heq, hspan]

/-- From `s` to `s'` the tables that `[a, e)` needs behind level `k` have been made, and no other
ones; or the pages, of which there are `N`, have not been enough. -/
inductive Filled (m : Mapping) (root : TablePage) (N k i a e : Nat) (s s' : PgState) : Prop
  | made (hallocs : s'.allocs = s.allocs + m.missingBelow root s k a e) (hle : s'.allocs ≤ N)
      (hpaths : KeepsPaths root i a s s')
  | short (hallocs : N < s'.allocs) (hmissing : N < s.allocs + m.missingBelow root s k a e)

/-- The contract of the functions on a piece below one entry of level `k`. -/
def Fills (alloc : Nat → U64) (root : TablePage) (m : Mapping) (C : Nat → Prop) (N k : Nat)
    (f : U64 → U64 → U64 → U64 → PgState → Option PgState) : Prop :=
  ∀ p a e s s', C a.toNat → Piece m.addr.toNat m.end_.toNat (k + 1) a.toNat e.toNat →
    f p a e (a + m.offset) s = some s' → s.allocs ≤ N → Inv alloc root s →
    SlotAt root k p a.toNat s → m.PagesFree root a.toNat e.toNat s →
    Filled m root N k (k + 1) a.toNat e.toNat s s'

/-- What is behind a boundary is not in the span in front of it. -/
theorem missingBelow_behind {a n e : Nat} (he : e ≤ 2 ^ 48) (hlt : a < n)
    (hlt' : n < e) (hcut : n % span (k + 1) = 0) (h : KeepsPaths root (k + 1) a s s') :
    m.missingBelow root s' k n e = m.missingBelow root s k n e := by
  refine missingBelow_congr fun j hj hj3 i hlo hhi => ?_
  have hbehind : n ≤ i * span j := by
    rw [← Nat.div_mul_cancel (Nat.dvd_of_mod_eq_zero (mod_span_of_le hj hcut))]
    exact Nat.mul_le_mul_right _ hlo
  have hbelow : i * span j ≤ e - 1 :=
    (Nat.mul_le_mul_right _ hhi).trans (Nat.div_mul_le_self _ _)
  rw [h j _ (by omega)]
  refine (Nat.lt_of_lt_of_le ?_ (Nat.div_le_div_right hbehind)).ne'
  refine Nat.div_lt_of_lt_mul ?_
  rwa [Nat.mul_div_cancel' (Nat.dvd_of_mod_eq_zero hcut)]

/-- The loop over the entries of one table. -/
theorem mapLoop_fills (hm : m.InRange) (hk : k ≤ 3) (hf : Maps alloc root m C k f)
    (hb : Fills alloc root m C N k f) (hC : ∀ x y, x / span k = y / span k → C x → C y)
    (hnext : CutsAt k next) (hfresh : FreshPages alloc root.base N) {p a e : U64} (hCa : C a.toNat)
    (hrest : Rest m.addr.toNat m.end_.toNat k a.toNat e.toNat)
    (hfuel : (e.toNat - 1) / span (k + 1) - a.toNat / span (k + 1) < fuel)
    (hrun : mapLoop next f e fuel p a (a + m.offset) s = some s') (hs : s.allocs ≤ N)
    (hinv : Inv alloc root s) (hat : SlotAt root k p a.toNat s)
    (hfree : m.PagesFree root a.toNat e.toNat s) : Filled m root N k k a.toNat e.toNat s s' := by
  induction fuel generalizing p a s with
  | zero => cases hrun
  | succ fuel ih =>
      have hend : e.toNat ≤ 2 ^ 48 := hrest.le_hi.trans hm.2
      obtain ⟨hpiece, hmore⟩ := hrest.cut m.addr_aligned m.end_aligned hm.2 hk hnext
      obtain ⟨s₁, hs₁, hmono₁, heffect₁⟩ := hf p a (next a e) s hCa hpiece
      unfold mapLoop at hrun
      rw [hs₁, Option.bind_some] at hrun
      by_cases hlast : next a e = e
      · rw [if_pos hlast] at hrun
        obtain rfl := Option.some.inj hrun
        rw [hlast] at hs₁ hpiece
        -- the last entry: its paths are kept outside a span of its level, so of the one above too
        cases hb p a e s s₁ hCa hpiece hs₁ hs hinv hat hfree with
        | made hallocs hle hpaths => exact .made hallocs hle (hpaths.up hk rfl)
        | short hallocs hmissing => exact .short hallocs hmissing
      · have hturn := hmore hlast
        rw [if_neg hlast, offset_add] at hrun
        have hle : a.toNat ≤ (next a e).toNat := hturn.lt.le
        have hpages := hfree.mono le_rfl hturn.rest.lt.le
        have hC' := hC _ _ hturn.span_eq hCa
        have hturns := Nat.lt_of_lt_of_le hturn.turns (Nat.le_of_lt_succ hfuel)
        have hadd : m.missingBelow root s k a.toNat e.toNat = m.missingBelow root s k a.toNat
            (next a e).toNat + m.missingBelow root s k (next a e).toNat e.toNat :=
          missingBelow_add hturn.lt hturn.rest.lt hturn.boundary
        cases hb p a (next a e) s s₁ hCa hpiece hs₁ hs hinv hat hpages with
        | short hallocs hmissing =>
            -- the pages have run out; the rest of the loop takes more, never fewer
            obtain ⟨s₂, hs₂, hmono₂, -⟩ := mapLoop_spec hm hk hf hC hnext (p := p + 8#64)
              (a := next a e) (s := s₁) hC' hturn.rest hturns
            obtain rfl : s₂ = s' := Option.some.inj (hs₂.symm.trans hrun)
            exact .short (hallocs.trans_le hmono₂) (by omega)
        | made hallocs hle₁ hpaths =>
            -- behind the first entry as much is missing as before the call
            have h₁ := heffect₁ N hfresh hle₁ hinv hat hpages
            have hat' := hturn.slot (hat.of_walk_eq (h₁.walk_eq k le_rfl)) hk hm.2
            have hsame := missingBelow_behind (m := m) hend hturn.lt hturn.rest.lt hturn.boundary
              hpaths
            cases ih hC' hturn.rest hturns hrun hle₁ h₁.inv hat' (hfree.of_effect h₁ hle hend) with
            | short hallocs' hmissing' => exact .short hallocs' (by omega)
            | made hallocs' hle' hpaths' =>
                refine .made (by omega) hle' ((hpaths.up hk rfl).trans fun j y hy hne => ?_)
                exact hpaths' j y hy (hturn.span_eq ▸ hne)

/-- The one span of level `k` that a piece of it meets. -/
theorem card_missing_piece {lo hi a e : Nat} (hk : k ≤ 3) (hpiece : Piece lo hi k a e)
    (hhi : hi ≤ 2 ^ 48) (hneeds : m.Needs k a) :
    (m.missing root s k a e).card = if (s.tree root).walk k a = none then 1 else 0 := by
  have ha : a < 2 ^ 48 := hpiece.lt.trans_le (hpiece.le_hi.trans hhi)
  have hdiv : a / span k * span k / span k = a / span k :=
    Nat.mul_div_cancel _ (span_pos k)
  have hstart : a / span k * span k < 2 ^ 48 := (Nat.div_mul_le_self _ _).trans_lt ha
  have hpath : (s.tree root).SamePath k (a / span k * span k) a :=
    (samePath_iff (hk.trans (by decide)) hstart ha).mpr hdiv
  have hneeds' : m.Needs k (a / span k * span k) := by
    intro h3 huses
    subst h3
    exact hneeds rfl ((m.usesSection_congr hdiv).mp huses)
  rw [Mapping.missing, hpiece.within, Nat.Ico_succ_singleton, Finset.filter_singleton,
    RadixTree.Tree.walk_congr hpath]
  split_ifs with hmissing hnone hnone
  · rfl
  · exact absurd hmissing.2 hnone
  · exact absurd ⟨hneeds', hnone⟩ hmissing
  · rfl

/-- The spans that a piece meets lie in its span. -/
theorem Piece.div_eq {lo hi a e : Nat} (hpiece : Piece lo hi k a e) {j i : Nat} (hj : k ≤ j)
    (hlo : a / span j ≤ i) (hhi : i ≤ (e - 1) / span j) : i * span j / span k = a / span k := by
  obtain ⟨c, hc⟩ : span j ∣ span k := Nat.pow_dvd_pow 2 (by omega)
  refine Nat.le_antisymm ?_ ?_
  · rw [← hpiece.within]
    exact Nat.div_le_div_right ((Nat.mul_le_mul_right _ hhi).trans (Nat.div_mul_le_self _ _))
  · -- the start of the span is a boundary of level `j` in front of `a`
    have hunits : a / span k * span k = a / span k * c * span j := by
      rw [Nat.mul_assoc, Nat.mul_comm c, ← hc]
    have hstart : a / span k * c ≤ a / span j := by
      rw [Nat.le_div_iff_mul_le (span_pos j), ← hunits]
      exact Nat.div_mul_le_self _ _
    rw [Nat.le_div_iff_mul_le (span_pos k), hunits]
    exact Nat.mul_le_mul_right _ (hstart.trans hlo)

/-- Below an empty entry there is no table. -/
theorem SlotAt.walk_eq_none {p : U64} {a : Nat} (hat : SlotAt root k p a s)
    (hempty : s.mem p = 0#64) : (s.tree root).walk (k + 1) a = none := by
  obtain ⟨b, hb, rfl⟩ := hat
  rw [RadixTree.Tree.walk_succ, RadixTree.Tree.entry_of_walk hb, tree_cells, tree_idx, hempty,
    Option.bind_some, tree_child, tableChild_zero]

/-- A new table does not change what is missing below it. -/
theorem missingBelow_populate (hk : k ≤ 2) {lo hi a e : Nat} {p : U64} (hempty : s.mem p = 0#64)
    (hpiece : Piece lo hi (k + 1) a e) (hhi : hi ≤ 2 ^ 48) {n : Nat}
    (hfresh : FreshPages alloc root.base n) (hn : s.allocs < n) (hinv : Inv alloc root s)
    (hat : SlotAt root k p a s) :
    m.missingBelow root (populate alloc p s) (k + 1) a e = m.missingBelow root s (k + 1) a e ∧
      KeepsPaths root (k + 1) a s (populate alloc p s) := by
  have hnone := hat.walk_eq_none hempty
  obtain ⟨b, hb, rfl⟩ := hat
  obtain ⟨q, hq⟩ : ∃ q : TablePage, alloc s.allocs = q.base :=
    ⟨⟨alloc s.allocs, hfresh.aligned _ hn⟩, rfl⟩
  have hv := tableChild_populate hk q (hq ▸ hfresh.below _ hn)
  have hnot := hinv.notReached hfresh hn hq
  have ha : a < 2 ^ 48 := hpiece.lt.trans_le (hpiece.le_hi.trans hhi)
  rw [populate, if_pos hempty, hq]
  refine ⟨missingBelow_congr fun j hj hj3 i hlo hhi' => ?_, fun j y hy hne => ?_⟩
  · have hspan := hpiece.div_eq hj.le hlo hhi'
    have hx : i * span j < 2 ^ 48 := by
      have hbelow := (Nat.mul_le_mul_right _ hhi').trans (Nat.div_mul_le_self (e - 1) (span j))
      have hle := hpiece.le_hi
      have hlt := hpiece.lt
      omega
    have hpath : (s.tree root).SamePath (k + 1) a (i * span j) :=
      (samePath_iff (by omega) ha hx).mpr hspan.symm
    rw [tree_newTable, ← @tree_idx root s]
    refine iff_of_true ?_ ?_
    · exact RadixTree.Tree.walk_install_below hinv.separated hb hnot hv tableChild_zero hj hpath
    · rw [RadixTree.Tree.walk_eq_none_of_le (k := k + 1) _ hj.le]
      rw [← RadixTree.Tree.walk_congr hpath, hnone]
  · rw [tree_newTable, ← @tree_idx root s]
    refine RadixTree.Tree.walk_install_of_off hinv.separated hb hnot fun hon => hne ?_
    exact ((samePath_iff (by omega) ha hy).mp hon.2).symm

/-- The functions `alloc_init_*`: the table of the level, if it is missing, and what the loop
takes. -/
theorem allocInit_fills (hm : m.InRange) (hk : k ≤ 2) (hf : Maps alloc root m C (k + 1) f)
    (hb : Fills alloc root m C N (k + 1) f)
    (hC : ∀ x y, x / span (k + 1) = y / span (k + 1) → C x → C y)
    (hsect : k = 2 → ∀ x, C x → ¬ m.usesSection x) (hnext : CutsAt (k + 1) next)
    (hfresh : FreshPages alloc root.base N) {index : U64 → U64}
    (hindex : ∀ a, (index a).toNat = tableIndex (k + 1) a.toNat) (hfuel : 512 ≤ fuel) :
    Fills alloc root m C N k (allocInit alloc (offsetPhys index) next f fuel) := by
  intro p a e s s' hCa hpiece hrun hs hinv hat hfree
  have hrest := hpiece.rest
  have hturns := Nat.lt_of_lt_of_le (hrest.turns (by omega)) hfuel
  have hneeds : m.Needs (k + 1) a.toNat := fun h3 => hsect (by omega) _ hCa
  have hcount := @card_missing_piece root m (k + 1) s _ _ _ _ (by omega) hpiece hm.2 hneeds
  have hsum := @missingBelow_succ root m k s hk a.toNat e.toNat
  by_cases hempty : s.mem p = 0#64
  · have hallocs : (populate alloc p s).allocs = s.allocs + 1 := by
      rw [populate, if_pos hempty]
      rfl
    obtain ⟨s₁, hs₁, hmono, -⟩ := mapLoop_spec hm (by omega) hf hC hnext
      (p := offsetPhys index (populate alloc p s) p a) (s := populate alloc p s) hCa hrest hturns
    obtain rfl : s₁ = s' := Option.some.inj (hs₁.symm.trans hrun)
    rw [if_pos (hat.walk_eq_none hempty)] at hcount
    rcases Nat.eq_or_lt_of_le hs with hfull | hmore
    · -- there is no page for the table itself
      exact .short (by omega) (by omega)
    · obtain ⟨hbelow, hpaths⟩ :=
        missingBelow_populate (m := m) hk hempty hpiece hm.2 hfresh hmore hinv hat
      obtain ⟨hpop, hat', hfree'⟩ := populate_enter hm hk hsect hindex hCa hpiece hfresh
        (hallocs ▸ hmore) hinv hat hfree
      cases mapLoop_fills hm (by omega) hf hb hC hnext hfresh hCa hrest hturns hs₁
        (hallocs ▸ hmore) hpop.inv hat' hfree' with
      | short hallocs' hmissing' => exact .short hallocs' (by omega)
      | made hallocs' hle' hpaths' => exact .made (by omega) hle' (hpaths.trans hpaths')
  · -- the table is there, and it is not among the missing ones
    have hpop : populate alloc p s = s := if_neg hempty
    obtain ⟨-, hat', -⟩ := populate_enter hm hk hsect hindex hCa hpiece hfresh
      (by rw [hpop]; exact hs) hinv hat hfree
    rw [allocInit, hpop] at hrun
    rw [hpop] at hat'
    obtain ⟨b, hb', -⟩ := id hat'
    rw [hb', if_neg (Option.some_ne_none b)] at hcount
    cases mapLoop_fills hm (by omega) hf hb hC hnext hfresh hCa hrest hturns hrun hs hinv hat'
      hfree with
    | short hallocs hmissing => exact .short hallocs (by omega)
    | made hallocs hle hpaths => exact .made (by omega) hle hpaths

theorem missingBelow_three (a e : Nat) : m.missingBelow root s 3 a e = 0 := by
  rw [Mapping.missingBelow, Finset.Ioc_self, Finset.sum_empty]

/-- A page entry makes no table. -/
theorem setPage_fills (hm : m.InRange) :
    Fills alloc root m (fun y => ¬ m.usesSection y) N 3 (setPage m.prot) := by
  rintro p a e s s' - hpiece hrun hs hinv ⟨b, hb, rfl⟩ -
  obtain rfl := Option.some.inj hrun
  have ha : a.toNat < 2 ^ 48 := hpiece.lt.trans_le (hpiece.le_hi.trans hm.2)
  refine .made (by rw [missingBelow_three]; rfl) hs fun j y hy hne => ?_
  rw [tree_setEntry, ← @tree_idx root s]
  refine RadixTree.Tree.walk_set_of_off hinv.separated hb fun hon => hne ?_
  exact ((samePath_iff (by decide) ha hy).mp hon.2).symm

/-- Neither does a section, whose block needs no table. -/
theorem setPmd_fills (hm : m.InRange)
    (hpte : Fills alloc root m (fun y => ¬ m.usesSection y) N 2 (allocInitPte alloc m.prot fuel)) :
    Fills alloc root m (fun _ => True) N 2 (setPmd alloc m.prot m.flags fuel) := by
  intro p a e s s' _ hpiece hrun hs hinv hat hfree
  have htest := section_test a e hpiece
  unfold setPmd at hrun
  by_cases huses : m.usesSection a.toNat
  · rw [if_pos (htest.mpr huses)] at hrun
    obtain rfl := Option.some.inj hrun
    obtain ⟨b, hb, rfl⟩ := hat
    have ha : a.toNat < 2 ^ 48 := hpiece.lt.trans_le (hpiece.le_hi.trans hm.2)
    have hnone : m.missingBelow root s 2 a.toNat e.toNat = 0 := by
      rw [missingBelow_succ le_rfl, missingBelow_three, Nat.add_zero, Finset.card_eq_zero]
      refine Finset.filter_eq_empty_iff.mpr fun i hi hneeds => hneeds.1 rfl ?_
      obtain ⟨hlo, hhi⟩ := Finset.mem_Ico.mp hi
      exact (m.usesSection_congr (hpiece.div_eq le_rfl hlo (Nat.lt_succ_iff.mp hhi))).mpr huses
    refine .made (by rw [hnone]; rfl) hs fun j y hy hne => ?_
    rw [pmdSetSection, tree_setEntry, ← @tree_idx root s]
    refine RadixTree.Tree.walk_set_of_off hinv.separated hb fun hon => hne ?_
    exact ((samePath_iff (by decide) ha hy).mp hon.2).symm
  · rw [if_neg fun h => huses (htest.mp h)] at hrun
    exact hpte p a e s s' huses hpiece hrun hs hinv hat hfree

/-- **What a call takes.**  In tables that the mapping functions have built, and with no block in
the way, a call takes a page for each table that is missing before it, or runs out of pages. -/
theorem mapStep_fills (hm : m.InRange) (hfuel : 512 ≤ fuel)
    (hrun : mapStep alloc fuel root.base m s = some s') (hfresh : FreshPages alloc root.base N)
    (hs : s.allocs ≤ N) (hinv : Inv alloc root s)
    (hfree : m.PagesFree root m.addr.toNat m.end_.toNat s) :
    s'.allocs = s.allocs + m.missingTables root s ∧ s'.allocs ≤ N ∨
      N < s'.allocs ∧ N < s.allocs + m.missingTables root s := by
  have hpte : Fills alloc root m (fun y => ¬ m.usesSection y) N 2
      (allocInitPte alloc m.prot fuel) :=
    allocInit_fills hm le_rfl (setPage_maps hm) (setPage_fills hm)
      (fun _ _ h hpages => (m.usesSection_congr h).not.mp hpages) (fun _ _ hpages => hpages)
      cutsAt_add_pageSize hfresh toNat_pteIndex hfuel
  have hpmd : Fills alloc root m (fun _ => True) N 1 (allocInitPmd alloc m.prot m.flags fuel) :=
    allocInit_fills hm (by decide) (setPmd_maps hm (allocInitPte_maps alloc root hm hfuel))
      (setPmd_fills hm hpte) (fun _ _ _ _ => trivial) (fun h => absurd h (by decide))
      cutsAt_pmdAddrEnd hfresh toNat_pmdIndex hfuel
  have hpud : Fills alloc root m (fun _ => True) N 0 (allocInitPud alloc m.prot m.flags fuel) :=
    allocInit_fills hm (by decide) (allocInitPmd_maps alloc root hm hfuel) hpmd
      (fun _ _ _ _ => trivial) (fun h => absurd h (by decide)) cutsAt_pudAddrEnd hfresh
      toNat_pudIndex hfuel
  have hrest := (piece_zero hm.1 hm.2).rest
  rw [mapStep, createPgdMapping_eq] at hrun
  cases mapLoop_fills hm (by decide) (allocInitPud_maps alloc root hm hfuel) hpud
    (fun _ _ _ _ => trivial) cutsAt_pgdAddrEnd hfresh trivial hrest
    (Nat.lt_of_lt_of_le (hrest.turns (by decide)) hfuel) hrun hs hinv (slotAt_pgd root m s)
    hfree with
  | made hallocs hle _ => exact Or.inl ⟨hallocs, hle⟩
  | short hallocs hmissing => exact Or.inr ⟨hallocs, hmissing⟩

end Arm64OS
