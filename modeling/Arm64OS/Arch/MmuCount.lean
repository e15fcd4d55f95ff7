import Arm64OS.Arch.IdentityMap

/-!
# How many tables the mappings take

A call of `__create_pgd_mapping` asks `alloc_pgtable` for at most one table for each span of the
levels `1` to `3` that its range meets.  With the ranges of the kernel that is a small part of
the pages that the allocator has when `paging_init` runs.
-/

namespace Arm64OS

/-- The number of spans of level `k` that meet `[a, e)`. -/
def spans (k a e : Nat) : Nat := (e - 1) / span k - a / span k + 1

theorem spans_pos (k a e : Nat) : 1 ≤ spans k a e := Nat.le_add_left 1 _

/-- A cut at a boundary divides no span. -/
theorem spans_add {k a n e : Nat} (hk : k ≤ 3) (hlt : a < n) (hlt' : n < e)
    (hcut : n % span k = 0) : spans k a n + spans k n e = spans k a e := by
  unfold spans
  obtain rfl | rfl | rfl | rfl : k = 0 ∨ k = 1 ∨ k = 2 ∨ k = 3 := by omega
  all_goals
    simp only [span_zero, span_one, span_two, span_three] at *
    omega

/-- Below the end of the `n`th span no more than `n` are met. -/
theorem spans_le {k a e n : Nat} (hn : 0 < n) (he : e ≤ n * span k) : spans k a e ≤ n := by
  have hlt : (e - 1) / span k < n := by
    refine Nat.div_lt_of_lt_mul ?_
    rw [Nat.mul_comm]
    have hpos : 0 < n * span k := Nat.mul_pos hn (span_pos k)
    omega
  exact Nat.succ_le_of_lt ((Nat.sub_le _ _).trans_lt hlt)

/-- `f` maps a piece of level `k + 1` with at most `c a e` new tables. -/
def Takes (m : Mapping) (c : Nat → Nat → Nat) (k : Nat)
    (f : U64 → U64 → U64 → U64 → PgState → Option PgState) : Prop :=
  ∀ (p a e phys : U64) (s s' : PgState),
    Piece m.addr.toNat m.end_.toNat (k + 1) a.toNat e.toNat → f p a e phys s = some s' →
      s'.allocs ≤ s.allocs + c a.toNat e.toNat

variable {alloc : Nat → U64} {m : Mapping} {c d : Nat → Nat → Nat} {k fuel : Nat}
  {f : U64 → U64 → U64 → U64 → PgState → Option PgState} {next : U64 → U64 → U64}

/-- What the turns of a loop take adds up, where `d` bounds what a turn and the rest take. -/
theorem mapLoop_takes (hm : m.InRange) (hk : k ≤ 3) (hf : Takes m c k f) (hnext : CutsAt k next)
    (hlast : ∀ a e, a < e → c a e ≤ d a e)
    (hadd : ∀ a n e, a < n → n < e → n % span (k + 1) = 0 → c a n + d n e ≤ d a e)
    {p a e phys : U64} {s s' : PgState}
    (hrest : Rest m.addr.toNat m.end_.toNat k a.toNat e.toNat)
    (hrun : mapLoop next f e fuel p a phys s = some s') :
    s'.allocs ≤ s.allocs + d a.toNat e.toNat := by
  induction fuel generalizing p a phys s with
  | zero => cases hrun
  | succ fuel ih =>
      obtain ⟨hpiece, hmore⟩ := hrest.cut m.addr_aligned m.end_aligned hm.2 hk hnext
      obtain ⟨s₁, hs₁, hrun⟩ := Option.bind_eq_some_iff.mp hrun
      have hfirst := hf p a (next a e) phys s s₁ hpiece hs₁
      by_cases hend : next a e = e
      · rw [if_pos hend] at hrun
        obtain rfl := Option.some.inj hrun
        rw [hend] at hfirst
        exact hfirst.trans (Nat.add_le_add_left (hlast _ _ hrest.lt) _)
      · rw [if_neg hend] at hrun
        have hturn := hmore hend
        have hsecond := ih hturn.rest hrun
        have hsum := hadd _ _ _ hturn.lt hturn.rest.lt hturn.boundary
        omega

theorem allocs_populate (alloc : Nat → U64) (p : U64) (s : PgState) :
    (populate alloc p s).allocs ≤ s.allocs + 1 := by
  unfold populate
  split
  · exact le_rfl
  · exact Nat.le_succ _

/-- The table of the level, and what its loop takes. -/
theorem allocInit_takes (hm : m.InRange) (hk : k ≤ 2) (hf : Takes m c (k + 1) f)
    (hnext : CutsAt (k + 1) next) (hlast : ∀ a e, a < e → c a e ≤ d a e)
    (hadd : ∀ a n e, a < n → n < e → n % span (k + 2) = 0 → c a n + d n e ≤ d a e)
    (offset : PgState → U64 → U64 → U64) :
    Takes m (fun a e => 1 + d a e) k (allocInit alloc offset next f fuel) := by
  intro p a e phys s s' hpiece hrun
  have htable := allocs_populate alloc p s
  have hloop := mapLoop_takes hm (by omega) hf hnext hlast hadd hpiece.rest hrun
  show s'.allocs ≤ s.allocs + (1 + d a.toNat e.toNat)
  omega

theorem allocInitPte_takes (hm : m.InRange) (alloc : Nat → U64) (fuel : Nat) :
    Takes m (fun _ _ => 1) 2 (allocInitPte alloc m.prot fuel) := by
  have hpage : Takes m (fun _ _ => 0) 3 (setPage m.prot) := by
    intro p a e phys s s' _ hrun
    obtain rfl := Option.some.inj hrun
    exact le_rfl
  exact allocInit_takes (d := fun _ _ => 0) hm le_rfl hpage cutsAt_add_pageSize
    (fun _ _ _ => le_rfl) (fun _ _ _ _ _ _ => le_rfl) pteOffsetPhys

theorem allocInitPmd_takes (hm : m.InRange) (alloc : Nat → U64) (fuel : Nat) :
    Takes m (fun a e => 1 + spans 3 a e) 1 (allocInitPmd alloc m.prot m.flags fuel) := by
  have hpmd : Takes m (fun _ _ => 1) 2 (setPmd alloc m.prot m.flags fuel) := by
    intro p a e phys s s' hpiece hrun
    unfold setPmd at hrun
    split at hrun
    · obtain rfl := Option.some.inj hrun
      exact Nat.le_succ _
    · exact allocInitPte_takes hm alloc fuel p a e phys s s' hpiece hrun
  refine allocInit_takes hm (by decide) hpmd cutsAt_pmdAddrEnd ?_ ?_ pmdOffsetPhys
  · intro a e _
    exact Nat.le_add_left 1 _
  · intro a n e hlt hlt' hcut
    rw [← spans_add le_rfl hlt hlt' hcut]
    exact Nat.add_le_add_right (spans_pos 3 a n) _

theorem allocInitPud_takes (hm : m.InRange) (alloc : Nat → U64) (fuel : Nat) :
    Takes m (fun a e => 1 + (spans 2 a e + spans 3 a e)) 0
      (allocInitPud alloc m.prot m.flags fuel) := by
  refine allocInit_takes hm (by decide) (allocInitPmd_takes hm alloc fuel) cutsAt_pudAddrEnd ?_ ?_
    pudOffsetPhys
  · intro a e _
    show 1 + spans 3 a e ≤ spans 2 a e + spans 3 a e
    exact Nat.add_le_add_right (Nat.le_add_left 1 _) _
  · intro a n e hlt hlt' hcut
    have hone := spans_pos 2 a n
    have htwo := spans_add (show 2 ≤ 3 by decide) hlt hlt' hcut
    have hthree := spans_add le_rfl hlt hlt' (mod_span_of_le (show 2 ≤ 3 by decide) hcut)
    omega

/-- A call takes at most one table for each span that its range meets. -/
theorem mapStep_takes (hm : m.InRange) {pgdir : U64} {s s' : PgState}
    (hrun : mapStep alloc fuel pgdir m s = some s') :
    s'.allocs ≤ s.allocs + (spans 1 m.addr.toNat m.end_.toNat +
      (spans 2 m.addr.toNat m.end_.toNat + spans 3 m.addr.toNat m.end_.toNat)) := by
  have hrest := (piece_zero hm.1 hm.2).rest
  refine mapLoop_takes (d := fun a e => spans 1 a e + (spans 2 a e + spans 3 a e)) hm (by decide)
    (allocInitPud_takes hm alloc fuel) cutsAt_pgdAddrEnd ?_ ?_ hrest hrun
  · intro a e _
    exact Nat.add_le_add_right (Nat.le_add_left 1 _) _
  · intro a n e hlt hlt' hcut
    have hone := spans_pos 1 a n
    have hfirst := spans_add (show 1 ≤ 3 by decide) hlt hlt' hcut
    have htwo := spans_add (show 2 ≤ 3 by decide) hlt hlt'
      (mod_span_of_le (show 1 ≤ 2 by decide) hcut)
    have hthree := spans_add le_rfl hlt hlt' (mod_span_of_le (show 1 ≤ 3 by decide) hcut)
    omega

/-! ### The mappings of the kernel -/

/-- More tables than the mappings of the kernel take. -/
def enoughTables : Nat := 280

theorem spans_text (img : Layout) (a : Nat) :
    spans 1 a img.textMapping.end_.toNat ≤ 1 ∧ spans 2 a img.textMapping.end_.toNat ≤ 1 ∧
      spans 3 a img.textMapping.end_.toNat ≤ 2 := by
  have hend : img.textMapping.end_.toNat ≤ 0x400000 := by
    rw [(textMapping_range img).2]
    exact img.end_le
  exact ⟨spans_le Nat.one_pos (hend.trans (by decide)),
    spans_le Nat.one_pos (hend.trans (by decide)), spans_le Nat.two_pos hend⟩

theorem spans_memory (img : Layout) (a : Nat) :
    spans 1 a img.memoryMapping.end_.toNat ≤ 1 ∧ spans 2 a img.memoryMapping.end_.toNat ≤ 1 ∧
      spans 3 a img.memoryMapping.end_.toNat ≤ 256 := by
  have hend : img.memoryMapping.end_.toNat = 0x20000000 := by
    rw [(memoryMapping_range img).2]
    rfl
  rw [hend]
  exact ⟨spans_le Nat.one_pos (by decide), spans_le Nat.one_pos (by decide),
    spans_le (by decide) le_rfl⟩

theorem spans_mmio (board : Board) :
    spans 1 (mmioMapping board).addr.toNat (mmioMapping board).end_.toNat = 1 ∧
      spans 2 (mmioMapping board).addr.toNat (mmioMapping board).end_.toNat = 1 ∧
      spans 3 (mmioMapping board).addr.toNat (mmioMapping board).end_.toNat = 16 := by
  obtain ⟨haddr, hend⟩ := mmioMapping_range board
  rw [haddr, hend]
  cases board <;> decide

theorem kernelMappings_takes (img : Layout) (board : Board) {memMap : PageMap} {s s' : PgState}
    (hrun : (createIdentityMapping memMap fuel img s).bind
      (createMmioMapping memMap fuel img board) = some s') :
    s'.allocs ≤ s.allocs + enoughTables := by
  have hproper := kernelMappings_proper img board
  rw [createMappings_eq] at hrun
  obtain ⟨s₁, hs₁, hrun⟩ := Option.bind_eq_some_iff.mp hrun
  obtain ⟨s₂, hs₂, hrun⟩ := Option.bind_eq_some_iff.mp hrun
  obtain ⟨s₃, hs₃, hrun⟩ := Option.bind_eq_some_iff.mp hrun
  obtain rfl := Option.some.inj hrun
  have h₁ := mapStep_takes (hproper _ (by simp [kernelMappings])).inRange hs₁
  have h₂ := mapStep_takes (hproper _ (by simp [kernelMappings])).inRange hs₂
  have h₃ := mapStep_takes (hproper _ (by simp [kernelMappings])).inRange hs₃
  have htext := spans_text img img.textMapping.addr.toNat
  have hmemory := spans_memory img img.memoryMapping.addr.toNat
  have hmmio := spans_mmio board
  unfold enoughTables
  omega

/-- The free pages of the allocator. -/
def freePages (memMap : PageMap) : Finset Nat := (Finset.range nrPages).filter (memMap · = 0#8)

theorem card_freePages_pos {memMap : PageMap} :
    0 < (freePages memMap).card ↔ ∃ j, j < nrPages ∧ memMap j = 0#8 := by
  rw [Finset.card_pos]
  constructor
  · rintro ⟨j, hj⟩
    obtain ⟨hlt, hfree⟩ := Finset.mem_filter.mp hj
    exact ⟨j, Finset.mem_range.mp hlt, hfree⟩
  · rintro ⟨j, hlt, hfree⟩
    exact ⟨j, Finset.mem_filter.mpr ⟨Finset.mem_range.mpr hlt, hfree⟩⟩

theorem card_freePages_update {memMap : PageMap} {j : Nat} (hj : j < nrPages)
    (hfree : memMap j = 0#8) :
    (freePages (Function.update memMap j 1#8)).card + 1 = (freePages memMap).card := by
  have hmem : j ∈ freePages memMap := Finset.mem_filter.mpr ⟨Finset.mem_range.mpr hj, hfree⟩
  have hrest : freePages (Function.update memMap j 1#8) = (freePages memMap).erase j := by
    ext n
    by_cases hn : n = j
    · simp [freePages, hn]
    · simp [freePages, hn]
  rw [hrest, Finset.card_erase_add_one hmem]

/-- As many calls get a page as there are free pages. -/
theorem tablePage_ne_zero_iff {memMap : PageMap} {i : Nat} :
    tablePage memMap i ≠ 0#64 ↔ i < (freePages memMap).card := by
  induction i generalizing memMap with
  | zero =>
      rw [tablePage, card_freePages_pos]
      rcases getFreePage_cases memMap with ⟨j, hj, hfree, -, heq⟩ | ⟨hfull, heq⟩
      · rw [heq]
        exact iff_of_true (pageAddr_ne_zero hj) ⟨j, hj, hfree⟩
      · rw [heq]
        refine iff_of_false (fun hne => hne rfl) ?_
        rintro ⟨j, hj, hfree⟩
        exact hfull j hj hfree
  | succ i ih =>
      rw [tablePage]
      rcases getFreePage_cases memMap with ⟨j, hj, hfree, -, heq⟩ | ⟨hfull, heq⟩
      · have hcard := card_freePages_update hj hfree
        rw [heq]
        refine ih.trans ?_
        show i < (freePages (Function.update memMap j 1#8)).card ↔ _
        omega
      · have hnone : ¬ 0 < (freePages memMap).card := by
          intro hpos
          obtain ⟨j, hj, hfree⟩ := card_freePages_pos.mp hpos
          exact hfull j hj hfree
        rw [heq]
        refine ih.trans ?_
        show i < (freePages memMap).card ↔ _
        omega

/-- As many calls as there are free pages get one. -/
theorem tablePage_ne_zero {memMap : PageMap} {i : Nat} (h : i < (freePages memMap).card) :
    tablePage memMap i ≠ 0#64 :=
  tablePage_ne_zero_iff.mpr h

end Arm64OS
