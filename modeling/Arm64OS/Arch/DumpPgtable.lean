import Arm64OS.Arch.MmuRun

/-!
# `walk_pgd`

The walkers of `dump_pgtable.c`.  Each is a `do … while` loop over the parts of its range
that one entry each covers, and ends when `addr` is the end of the range; what the walkers
print is kept as the list of the calls of `print_pgtable`.

`walk_pud` computes the end of a part from `start` instead of `addr`, so it gets no further
than one 1 GiB boundary.
-/

namespace Arm64OS

/-- A call of `print_pgtable`, with the size that it shows: a number and an index into
`units`. -/
structure PrintCall where
  start : U64
  end_ : U64
  level : Nat
  val : U64
  shown : Option (U64 × Nat)
  deriving DecidableEq

/-- The loop that scales the size.  It tests `units[1]`, which is `'M'`, and not the unit it has
come to. -/
def scaleUnit : (fuel : Nat) → (delta : U64) → (unit : Nat) → Option (U64 × Nat)
  | 0, _, _ => none
  | fuel + 1, delta, unit =>
      if delta &&& 1023 = 0#64 then scaleUnit fuel (delta >>> 10) (unit + 1)
      else some (delta, unit)

/-- `print_pgtable`: an empty entry is not shown. -/
def printPgtable (fuel : Nat) (start end_ : U64) (level : Nat) (val : U64) : Option PrintCall :=
  if val = 0#64 then some ⟨start, end_, level, val, none⟩
  else
    (scaleUnit fuel ((end_ - start) >>> 10) 0).map fun shown =>
      ⟨start, end_, level, val, some shown⟩

/-- The `do … while` loop of the four walkers. -/
def walkLoop (next : U64 → U64) (body : U64 → U64 → U64 → Option (List PrintCall)) (end_ : U64) :
    (fuel : Nat) → (p addr : U64) → Option (List PrintCall)
  | 0, _, _ => none
  | fuel + 1, p, addr => do
      let printed ← body p addr (next addr)
      if next addr = end_ then some printed
      else
        let rest ← walkLoop next body end_ fuel (p + 8#64) (next addr)
        some (printed ++ rest)

/-- One turn of the loop of `walk_pte`. -/
def dumpPte (fuel : Nat) (s : PgState) (ptep addr _next : U64) : Option (List PrintCall) :=
  (printPgtable fuel addr (addr + pageSize) 4 (s.mem ptep)).map fun call => [call]

def walkPte (fuel : Nat) (s : PgState) (pmdp start end_ : U64) : Option (List PrintCall) :=
  walkLoop (fun addr => addr + pageSize) (dumpPte fuel s) end_ fuel (pteOffsetPhys s pmdp start)
    start

/-- One turn of the loop of `walk_pmd`. -/
def dumpPmd (fuel : Nat) (s : PgState) (pmdp addr next : U64) : Option (List PrintCall) :=
  if s.mem pmdp = 0#64 ∨ s.mem pmdp &&& typeMask = pmdTypeSect then
    (printPgtable fuel addr next 3 (s.mem pmdp)).map fun call => [call]
  else walkPte fuel s pmdp addr next

def walkPmd (fuel : Nat) (s : PgState) (pudp start end_ : U64) : Option (List PrintCall) :=
  walkLoop (fun addr => pmdAddrEnd addr end_) (dumpPmd fuel s) end_ fuel
    (pmdOffsetPhys s pudp start) start

/-- `PUD_TYPE_SECT`. -/
def pudTypeSect : U64 := 1#64

/-- One turn of the loop of `walk_pud`. -/
def dumpPud (fuel : Nat) (s : PgState) (pudp addr next : U64) : Option (List PrintCall) :=
  if s.mem pudp = 0#64 ∨ s.mem pudp &&& typeMask = pudTypeSect then
    (printPgtable fuel addr next 2 (s.mem pudp)).map fun call => [call]
  else walkPmd fuel s pudp addr next

/-- `next` comes from `start` in every turn. -/
def walkPud (fuel : Nat) (s : PgState) (pgdp start end_ : U64) : Option (List PrintCall) :=
  walkLoop (fun _ => pudAddrEnd start end_) (dumpPud fuel s) end_ fuel
    (pudOffsetPhys s pgdp start) start

/-- One turn of the loop of `walk_pgd`. -/
def dumpPgd (fuel : Nat) (s : PgState) (pgdp addr next : U64) : Option (List PrintCall) :=
  if s.mem pgdp = 0#64 then
    (printPgtable fuel addr next 1 (s.mem pgdp)).map fun call => [call]
  else walkPud fuel s pgdp addr next

def walkPgd (fuel : Nat) (s : PgState) (pgd start size : U64) : Option (List PrintCall) :=
  walkLoop (fun addr => pgdAddrEnd addr (start + size)) (dumpPgd fuel s) (start + size) fuel
    (pgdOffsetRaw pgd start) start

/-! ### What a dump is to show -/

/-- The entry at which the four-level lookup of an address ends, and its level. -/
def lastEntry (s : PgState) (pgdir va : U64) : Nat × U64 :=
  let pgd := s.mem (pgdir + pgdIndex va * 8#64)
  if pgd &&& typeMask ≠ typeTable then (1, pgd)
  else
    let pud := s.mem (pagePaddr pgd + pudIndex va * 8#64)
    if pud &&& typeMask ≠ typeTable then (2, pud)
    else
      let pmd := s.mem (pagePaddr pud + pmdIndex va * 8#64)
      if pmd &&& typeMask ≠ typeTable then (3, pmd)
      else (4, s.mem (pagePaddr pmd + pteIndex va * 8#64))

/-- The intervals follow one another from `lo` to `hi`, none of them empty. -/
def Tiles (lo hi : Nat) : List PrintCall → Prop
  | [] => lo = hi
  | c :: cs => c.start.toNat = lo ∧ lo < c.end_.toNat ∧ Tiles c.end_.toNat hi cs

/-- The calls cut up `[lo, hi)` and show for every address the entry at which its lookup
ends. -/
structure Dumps (s : PgState) (pgdir : U64) (lo hi : Nat) (printed : List PrintCall) : Prop where
  tiles : Tiles lo hi printed
  reads : ∀ c ∈ printed, ∀ va : U64, c.start.toNat ≤ va.toNat → va.toNat < c.end_.toNat →
    lastEntry s pgdir va = (c.level, c.val)

theorem Tiles.append {lo mid hi : Nat} {cs ds : List PrintCall} (h : Tiles lo mid cs)
    (h' : Tiles mid hi ds) : Tiles lo hi (cs ++ ds) := by
  induction cs generalizing lo with
  | nil =>
      obtain rfl : lo = mid := h
      exact h'
  | cons c cs ih =>
      obtain ⟨hstart, hlt, hrest⟩ := h
      exact ⟨hstart, hlt, ih hrest⟩

variable {alloc : Nat → U64} {root : TablePage} {s : PgState} {k lo hi : Nat}

theorem Dumps.append {mid : Nat} {cs ds : List PrintCall} (h : Dumps s root.base lo mid cs)
    (h' : Dumps s root.base mid hi ds) : Dumps s root.base lo hi (cs ++ ds) := by
  refine ⟨h.tiles.append h'.tiles, fun c hc => ?_⟩
  rcases List.mem_append.1 hc with hc | hc
  · exact h.reads c hc
  · exact h'.reads c hc

/-! ### One entry -/

/-- A size that is not zero is scaled in as many rounds as it has groups of ten bits. -/
theorem scaleUnit_some {n fuel : Nat} (hfuel : n ≤ fuel) (delta : U64) (hpos : delta.toNat ≠ 0)
    (hlt : delta.toNat < 1024 ^ n) (unit : Nat) :
    ∃ shown, scaleUnit fuel delta unit = some shown ∧ shown.2 < unit + n := by
  induction n generalizing fuel delta unit with
  | zero => omega
  | succ n ih =>
      obtain ⟨fuel, rfl⟩ : ∃ f, fuel = f + 1 := ⟨fuel - 1, by omega⟩
      have hlow : (delta &&& 1023).toNat = delta.toNat % 1024 :=
        BitField.toNat_and_lowMask delta (by decide : 10 < 64)
      rw [scaleUnit]
      by_cases hzero : delta &&& 1023 = 0#64
      · have hmod : delta.toNat % 1024 = 0 := by
          rw [← hlow, hzero]
          rfl
        have hshift : (delta >>> 10).toNat = delta.toNat / 1024 := by
          rw [BitVec.toNat_ushiftRight, Nat.shiftRight_eq_div_pow]
        rw [pow_succ] at hlt
        have hrounds : n ≤ fuel := by omega
        obtain ⟨shown, hshown, hunit⟩ := ih hrounds (delta >>> 10) (by omega) (by omega) (unit + 1)
        exact ⟨shown, by rw [if_pos hzero, hshown], by omega⟩
      · exact ⟨(delta, unit), if_neg hzero, by simp⟩

/-- `print_pgtable` returns for intervals of whole pages. -/
theorem printPgtable_some {fuel : Nat} (hfuel : 512 ≤ fuel) {a n : U64} (hlt : a.toNat < n.toNat)
    (hend : n.toNat ≤ 2 ^ 48) (ha : a.toNat % 4096 = 0) (hn : n.toNat % 4096 = 0) (level : Nat)
    (val : U64) :
    ∃ call, printPgtable fuel a n level val = some call ∧ call.start = a ∧ call.end_ = n ∧
      call.level = level ∧ call.val = val := by
  have hdelta : ((n - a) >>> 10).toNat = (n.toNat - a.toNat) / 1024 := by
    rw [BitVec.toNat_ushiftRight, Nat.shiftRight_eq_div_pow, BitVec.toNat_sub]
    omega
  rw [printPgtable]
  by_cases hzero : val = 0#64
  · exact ⟨_, if_pos hzero, rfl, rfl, rfl, rfl⟩
  · have hrounds : 4 ≤ fuel := by omega
    obtain ⟨shown, hshown, -⟩ := scaleUnit_some hrounds ((n - a) >>> 10) (by omega) (by omega) 0
    exact ⟨_, by rw [if_neg hzero, hshown]; rfl, rfl, rfl, rfl, rfl⟩

/-- Above the entry of a path lie entries that name tables. -/
theorem entry_above {x : Nat} {e : U64} (he : (s.tree root).entry (k + 1) x = some e) :
    ∃ e', (s.tree root).entry k x = some e' ∧ e' &&& typeMask = typeTable := by
  cases habove : (s.tree root).entry k x with
  | none =>
      have hwalk : (s.tree root).walk (k + 1) x = none := by
        rw [RadixTree.Tree.walk_succ, habove, Option.bind_none]
      simp [RadixTree.Tree.entry, hwalk] at he
  | some e' =>
      refine ⟨e', rfl, ?_⟩
      by_contra htype
      rw [entry_stop habove htype (Nat.lt_succ_self k)] at he
      cases he

/-- An entry below the first level is the next of a table entry. -/
theorem entry_eq_next (hk : k ≤ 2) {va e : U64} {index : U64 → U64}
    (hindex : ∀ a, (index a).toNat = tableIndex (k + 1) a.toNat)
    (he : (s.tree root).entry (k + 1) va.toNat = some e) :
    ∃ e', (s.tree root).entry k va.toNat = some e' ∧ e' &&& typeMask = typeTable ∧
      e = s.mem (pagePaddr e' + index va * 8#64) := by
  obtain ⟨e', habove, htype⟩ := entry_above he
  exact ⟨e', habove, htype, Option.some.inj (he.symm.trans (entry_next hk hindex habove htype))⟩

/-- Where a path ends, the lookup ends. -/
theorem lastEntry_of_entry {va e : U64} (hk : k ≤ 3)
    (he : (s.tree root).entry k va.toNat = some e)
    (hstop : k = 3 ∨ e &&& typeMask ≠ typeTable) : lastEntry s root.base va = (k + 1, e) := by
  have h0 := entry_pgd s root va
  rw [pgdOffsetRaw] at h0
  unfold lastEntry
  dsimp only
  obtain rfl | rfl | rfl | rfl : k = 0 ∨ k = 1 ∨ k = 2 ∨ k = 3 := by omega
  · obtain rfl := Option.some.inj (h0.symm.trans he)
    rw [if_pos (hstop.resolve_left (by decide))]
  · obtain ⟨pgd, hpgd, t0, rfl⟩ := entry_eq_next (by decide) toNat_pudIndex he
    obtain rfl := Option.some.inj (h0.symm.trans hpgd)
    rw [if_neg (not_not_intro t0), if_pos (hstop.resolve_left (by decide))]
  · obtain ⟨pud, hpud, t1, rfl⟩ := entry_eq_next (by decide) toNat_pmdIndex he
    obtain ⟨pgd, hpgd, t0, rfl⟩ := entry_eq_next (by decide) toNat_pudIndex hpud
    obtain rfl := Option.some.inj (h0.symm.trans hpgd)
    rw [if_neg (not_not_intro t0), if_neg (not_not_intro t1),
      if_pos (hstop.resolve_left (by decide))]
  · obtain ⟨pmd, hpmd, t2, rfl⟩ := entry_eq_next (by decide) toNat_pteIndex he
    obtain ⟨pud, hpud, t1, rfl⟩ := entry_eq_next (by decide) toNat_pmdIndex hpmd
    obtain ⟨pgd, hpgd, t0, rfl⟩ := entry_eq_next (by decide) toNat_pudIndex hpud
    obtain rfl := Option.some.inj (h0.symm.trans hpgd)
    rw [if_neg (not_not_intro t0), if_neg (not_not_intro t1), if_neg (not_not_intro t2)]

theorem SlotAt.entry {p : U64} {a : Nat} (h : SlotAt root k p a s) :
    (s.tree root).entry k a = some (s.mem p) := by
  obtain ⟨b, hb, rfl⟩ := h
  rw [RadixTree.Tree.entry_of_walk hb, tree_cells, tree_idx]

/-- The addresses of a piece share its entry. -/
theorem SlotAt.entry_of_piece {p : U64} {a e : Nat} (hk : k ≤ 3) (h : SlotAt root k p a s)
    (hpiece : Piece lo hi (k + 1) a e) (hhi : hi ≤ 2 ^ 48) {y : Nat} (hay : a ≤ y) (hye : y < e) :
    (s.tree root).entry k y = some (s.mem p) := by
  have hle := hpiece.le_hi
  have hlt := hpiece.lt
  have hwithin := hpiece.within
  have hspan : a / span (k + 1) = y / span (k + 1) := by
    have hlow : a / span (k + 1) ≤ y / span (k + 1) := Nat.div_le_div_right hay
    have hhigh : y / span (k + 1) ≤ (e - 1) / span (k + 1) := Nat.div_le_div_right (by omega)
    omega
  have hpath : (s.tree root).SamePath (k + 1) a y :=
    (samePath_iff (by omega) (by omega) (by omega)).mpr hspan
  rw [← RadixTree.Tree.entry_congr hpath, h.entry]

/-- One call of `print_pgtable` for an entry that names no table. -/
theorem dumps_print {fuel : Nat} (hfuel : 512 ≤ fuel) (hk : k ≤ 3) {p a n : U64}
    (hslot : SlotAt root k p a.toNat s) (hpiece : Piece lo hi (k + 1) a.toNat n.toNat)
    (hhi : hi ≤ 2 ^ 48) (ha : a.toNat % 4096 = 0) (hn : n.toNat % 4096 = 0)
    (hstop : k = 3 ∨ s.mem p &&& typeMask ≠ typeTable) :
    ∃ printed, (printPgtable fuel a n (k + 1) (s.mem p)).map (fun call => [call]) = some printed ∧
      Dumps s root.base a.toNat n.toNat printed := by
  obtain ⟨call, hcall, hstart, hend, hlevel, hval⟩ := printPgtable_some hfuel hpiece.lt
    (hpiece.le_hi.trans hhi) ha hn (k + 1) (s.mem p)
  refine ⟨[call], by rw [hcall]; rfl, ⟨congrArg BitVec.toNat hstart, ?_, ?_⟩, ?_⟩
  · rw [hend]
    exact hpiece.lt
  · exact congrArg BitVec.toNat hend
  · intro c hc va hlow hhigh
    obtain rfl := List.mem_singleton.1 hc
    rw [hstart] at hlow
    rw [hend] at hhigh
    rw [hlevel, hval]
    exact lastEntry_of_entry hk (hslot.entry_of_piece hk hpiece hhi hlow hhigh) hstop

/-- From an entry that names a table to the entry of the next level. -/
theorem SlotAt.descend (hk : k ≤ 2) {p a : U64} (h : SlotAt root k p a.toNat s)
    (htype : s.mem p &&& typeMask = typeTable) {index : U64 → U64}
    (hindex : ∀ x, (index x).toNat = tableIndex (k + 1) x.toNat) :
    SlotAt root (k + 1) (offsetPhys index s p a) a.toNat s := by
  refine ⟨pageOf (s.mem p), ?_, (pageOf (s.mem p)).cell_of_index (hindex a)⟩
  rw [RadixTree.Tree.walk_succ, h.entry, Option.bind_some, tree_child, tableChild,
    if_pos ⟨hk, htype⟩]

/-! ### The loops -/

section Loops

variable (next : U64 → U64 → U64) {body : U64 → U64 → U64 → Option (List PrintCall)} {e : U64}
  (hlo : lo % 4096 = 0) (hhi : hi % 4096 = 0) (hbound : hi ≤ 2 ^ 48) (hk : k ≤ 3)
  (hnext : CutsAt k next)

include hlo hhi hbound hk hnext

/-- What a turn of a loop gets lies between page boundaries. -/
theorem walkLoop_cut {a : U64} (hrest : Rest lo hi k a.toNat e.toNat) :
    Piece lo hi (k + 1) a.toNat (next a e).toNat ∧ a.toNat % 4096 = 0 ∧
      (next a e).toNat % 4096 = 0 ∧ (next a e ≠ e → TurnsOn lo hi k a (next a e) e) := by
  obtain ⟨ha, he⟩ := hrest.aligned hlo hhi hk
  obtain ⟨hpiece, hmore⟩ := hrest.cut hlo hhi hbound hk hnext
  refine ⟨hpiece, ha, ?_, hmore⟩
  by_cases hlast : next a e = e
  · rw [hlast, he]
  · exact ((hmore hlast).rest.aligned hlo hhi hk).1

/-- A loop whose turns show their parts shows its range. -/
theorem walkLoop_dumps
    (hbody : ∀ p a n, Piece lo hi (k + 1) a.toNat n.toNat → SlotAt root k p a.toNat s →
      a.toNat % 4096 = 0 → n.toNat % 4096 = 0 →
      ∃ printed, body p a n = some printed ∧ Dumps s root.base a.toNat n.toNat printed)
    {fuel : Nat} {p a : U64} (hrest : Rest lo hi k a.toNat e.toNat)
    (hslot : SlotAt root k p a.toNat s)
    (hfuel : (e.toNat - 1) / span (k + 1) - a.toNat / span (k + 1) < fuel) :
    ∃ printed, walkLoop (fun addr => next addr e) body e fuel p a = some printed ∧
      Dumps s root.base a.toNat e.toNat printed := by
  induction fuel generalizing p a with
  | zero => exact absurd hfuel (Nat.not_lt_zero _)
  | succ fuel ih =>
      obtain ⟨hpiece, ha, hna, hmore⟩ := walkLoop_cut next hlo hhi hbound hk hnext hrest
      obtain ⟨printed, hprinted, hdumps⟩ := hbody p a (next a e) hpiece hslot ha hna
      by_cases hlast : next a e = e
      · rw [hlast] at hprinted hdumps
        refine ⟨printed, ?_, hdumps⟩
        simp [walkLoop, hprinted, hlast]
      · have hturn := hmore hlast
        obtain ⟨rest, hrun, hdumps'⟩ := ih hturn.rest (hturn.slot hslot hk hbound)
          (Nat.lt_of_lt_of_le hturn.turns (Nat.le_of_lt_succ hfuel))
        refine ⟨printed ++ rest, ?_, hdumps.append hdumps'⟩
        simp [walkLoop, hprinted, hlast, hrun]

/-- A loop with a turn that does not end does not end. -/
theorem walkLoop_none {b : Nat}
    (hbody : ∀ p a n, Piece lo hi (k + 1) a.toNat n.toNat → SlotAt root k p a.toNat s →
      a.toNat ≤ b → b < n.toNat → body p a n = none)
    (fuel : Nat) {p a : U64} (hrest : Rest lo hi k a.toNat e.toNat)
    (hslot : SlotAt root k p a.toNat s) (hab : a.toNat ≤ b) (hbe : b < e.toNat) :
    walkLoop (fun addr => next addr e) body e fuel p a = none := by
  induction fuel generalizing p a with
  | zero => rfl
  | succ fuel ih =>
      obtain ⟨hpiece, hmore⟩ := hrest.cut hlo hhi hbound hk hnext
      by_cases hhere : b < (next a e).toNat
      · simp [walkLoop, hbody p a (next a e) hpiece hslot hab hhere]
      · have hlast : next a e ≠ e := by
          rintro h
          rw [h] at hhere
          exact hhere hbe
        have hturn := hmore hlast
        have hrun := ih hturn.rest (hturn.slot hslot hk hbound) (Nat.le_of_not_lt hhere)
        cases hprinted : body p a (next a e) with
        | none => simp [walkLoop, hprinted]
        | some printed => simp [walkLoop, hprinted, hlast, hrun]

end Loops

/-- A loop whose `next` is not the end and never changes does not end. -/
theorem walkLoop_stuck {next e : U64} (hne : next ≠ e)
    (body : U64 → U64 → U64 → Option (List PrintCall)) (fuel : Nat) (p a : U64) :
    walkLoop (fun _ => next) body e fuel p a = none := by
  induction fuel generalizing p a with
  | zero => rfl
  | succ fuel ih =>
      cases hprinted : body p a next with
      | none => simp [walkLoop, hprinted]
      | some printed => simp [walkLoop, hprinted, hne, ih]

/-! ### The walkers -/

section Walkers

variable (hinv : Inv alloc root s) (hlo : lo % 4096 = 0) (hhi : hi % 4096 = 0)
  (hbound : hi ≤ 2 ^ 48) {fuel : Nat} (hfuel : 512 ≤ fuel)

include hlo hhi hbound hfuel

theorem walkPte_dumps {p a e : U64} (hpiece : Piece lo hi 3 a.toNat e.toNat)
    (hslot : SlotAt root 2 p a.toNat s) (htype : s.mem p &&& typeMask = typeTable) :
    ∃ printed, walkPte fuel s p a e = some printed ∧ Dumps s root.base a.toNat e.toNat printed := by
  have hrest := hpiece.rest
  refine walkLoop_dumps (k := 3) (fun addr _ => addr + pageSize) hlo hhi hbound le_rfl
    cutsAt_add_pageSize ?_ hrest (hslot.descend le_rfl htype toNat_pteIndex)
    (Nat.lt_of_lt_of_le (hrest.turns le_rfl) hfuel)
  intro p a n hpiece hslot ha hn
  -- a part is one page
  have hpage : a + pageSize = n := by
    have hlt := hpiece.lt
    have hwithin := hpiece.within
    have hn48 := hpiece.le_hi
    rw [span_four] at hwithin
    refine BitVec.eq_of_toNat_eq ?_
    rw [BitVec.toNat_add, pageSize_toNat]
    omega
  rw [dumpPte, hpage]
  exact dumps_print hfuel le_rfl hslot hpiece hbound ha hn (Or.inl rfl)

include hinv

theorem walkPmd_dumps {p a e : U64} (hpiece : Piece lo hi 2 a.toNat e.toNat)
    (hslot : SlotAt root 1 p a.toNat s) (htype : s.mem p &&& typeMask = typeTable) :
    ∃ printed, walkPmd fuel s p a e = some printed ∧ Dumps s root.base a.toNat e.toNat printed := by
  have hrest := hpiece.rest
  refine walkLoop_dumps (k := 2) pmdAddrEnd hlo hhi hbound (by decide)
    cutsAt_pmdAddrEnd ?_ hrest (hslot.descend (by decide) htype toNat_pmdIndex)
    (Nat.lt_of_lt_of_le (hrest.turns (by decide)) hfuel)
  intro p a n hpiece hslot ha hn
  rw [dumpPmd]
  by_cases hleaf : s.mem p = 0#64 ∨ s.mem p &&& typeMask = pmdTypeSect
  · rw [if_pos hleaf]
    have hstop : s.mem p &&& typeMask ≠ typeTable := by
      rcases hleaf with hzero | hsect
      · rw [hzero]
        decide
      · rw [hsect]
        decide
    exact dumps_print hfuel (by decide) hslot hpiece hbound ha hn (Or.inr hstop)
  · rw [if_neg hleaf]
    obtain ⟨hzero, hsect⟩ := not_or.mp hleaf
    exact walkPte_dumps hlo hhi hbound hfuel hpiece hslot
      (hinv.table_of_entry le_rfl hslot.entry hzero fun _ => hsect)

/-- Inside one 1 GiB block `walk_pud` takes one turn. -/
theorem walkPud_dumps {p a e : U64} (hpiece : Piece lo hi 1 a.toNat e.toNat)
    (hslot : SlotAt root 0 p a.toNat s) (htype : s.mem p &&& typeMask = typeTable)
    (hblock : pudAddrEnd a e = e) :
    ∃ printed, walkPud fuel s p a e = some printed ∧ Dumps s root.base a.toNat e.toNat printed := by
  have hrest := hpiece.rest
  obtain ⟨ha, he⟩ := hrest.aligned hlo hhi (by decide)
  have hn := cutsAt_pudAddrEnd a e hrest.lt (hrest.le_hi.trans hbound) ha he
  rw [hblock] at hn
  have hpiece' := hrest.piece (by decide) hn
  have hslot' := hslot.descend (by decide) htype toNat_pudIndex
  have hturn : ∃ printed, dumpPud fuel s (pudOffsetPhys s p a) a e = some printed ∧
      Dumps s root.base a.toNat e.toNat printed := by
    rw [dumpPud]
    by_cases hleaf : s.mem (pudOffsetPhys s p a) = 0#64 ∨
        s.mem (pudOffsetPhys s p a) &&& typeMask = pudTypeSect
    · rw [if_pos hleaf]
      have hstop : s.mem (pudOffsetPhys s p a) &&& typeMask ≠ typeTable := by
        rcases hleaf with hzero | hsect
        · rw [hzero]
          decide
        · rw [hsect]
          decide
      exact dumps_print hfuel (by decide) hslot' hpiece' hbound ha he (Or.inr hstop)
    · rw [if_neg hleaf]
      obtain ⟨hzero, -⟩ := not_or.mp hleaf
      exact walkPmd_dumps hinv hlo hhi hbound hfuel hpiece' hslot'
        (hinv.table_of_entry (by decide) hslot'.entry hzero fun h => absurd h (by decide))
  obtain ⟨printed, hprinted, hdumps⟩ := hturn
  obtain ⟨f, hf⟩ : ∃ f, fuel = f + 1 := ⟨fuel - 1, by omega⟩
  refine ⟨printed, ?_, hdumps⟩
  rw [walkPud, hblock]
  -- `dumpPud` keeps its fuel
  have hloop : walkLoop (fun _ => e) (dumpPud fuel s) e (f + 1) (pudOffsetPhys s p a) a =
      some printed := by
    simp [walkLoop, hprinted]
  rw [← hf] at hloop
  exact hloop

end Walkers

/-- A 1 GiB boundary strictly inside the range, in the middle of what one entry of the PGD
covers, where that entry names a table. -/
structure PudCrossing (s : PgState) (pgdir start end_ b : U64) : Prop where
  start_lt : start.toNat < b.toNat
  lt_end : b.toNat < end_.toNat
  boundary : b.toNat % span 2 = 0
  inside : b.toNat % span 1 ≠ 0
  table : s.mem (pgdOffsetRaw pgdir b) ≠ 0#64

theorem slotAt_root (start : U64) :
    SlotAt root 0 (pgdOffsetRaw root.base start) start.toNat s :=
  ⟨root, rfl, root.cell_of_index (toNat_pgdIndex start)⟩

section WholeRange

variable {start end_ : U64} (hlo : start.toNat % 4096 = 0) (hhi : end_.toNat % 4096 = 0)
  (hbound : end_.toNat ≤ 2 ^ 48)

include hlo hhi hbound

/-- A part under one entry of the PGD that `walk_pud` cannot walk in one turn holds a
boundary. -/
theorem exists_pudCrossing {p a e : U64}
    (hpiece : Piece start.toNat end_.toNat 1 a.toNat e.toNat) (hslot : SlotAt root 0 p a.toNat s)
    (hentry : s.mem p ≠ 0#64) (hblock : pudAddrEnd a e ≠ e) :
    ∃ b, PudCrossing s root.base start end_ b := by
  obtain ⟨ha, he⟩ := hpiece.rest.aligned hlo hhi (by decide)
  have hn := cutsAt_pudAddrEnd a e hpiece.lt (hpiece.le_hi.trans hbound) ha he
  have hne : (pudAddrEnd a e).toNat ≠ e.toNat := fun h => hblock (BitVec.eq_of_toNat_eq h)
  have hsame := hslot.entry_of_piece (by decide) hpiece hbound
    (y := (pudAddrEnd a e).toNat) (by rw [span_two] at hn; omega) (by omega)
  rw [entry_pgd] at hsame
  have hle := hpiece.lo_le
  have hle' := hpiece.le_hi
  have hlt := hpiece.lt
  have hwithin := hpiece.within
  simp only [Nat.reduceAdd, span_one, span_two] at hn hwithin
  refine ⟨pudAddrEnd a e, ?_, ?_, ?_, ?_, ?_⟩
  · omega
  · omega
  · rw [span_two]
    omega
  · rw [span_one]
    omega
  · rw [Option.some.inj hsame]
    exact hentry

variable (root) (hlt : start.toNat < end_.toNat)

include hlt

theorem walkPgd_dumps (hinv : Inv alloc root s)
    (hfree : ¬ ∃ b, PudCrossing s root.base start end_ b) {fuel : Nat} (hfuel : 512 ≤ fuel) :
    ∃ printed, walkLoop (fun addr => pgdAddrEnd addr end_) (dumpPgd fuel s) end_ fuel
        (pgdOffsetRaw root.base start) start = some printed ∧
      Dumps s root.base start.toNat end_.toNat printed := by
  have hrest := (piece_zero hlt hbound).rest
  refine walkLoop_dumps (k := 0) pgdAddrEnd hlo hhi hbound (by decide)
    cutsAt_pgdAddrEnd ?_ hrest (slotAt_root start)
    (Nat.lt_of_lt_of_le (hrest.turns (by decide)) hfuel)
  intro p a n hpiece hslot ha hn
  rw [dumpPgd]
  by_cases hzero : s.mem p = 0#64
  · rw [if_pos hzero]
    exact dumps_print hfuel (by decide) hslot hpiece hbound ha hn
      (Or.inr (by rw [hzero]; decide))
  · rw [if_neg hzero]
    refine walkPud_dumps hinv hlo hhi hbound hfuel hpiece hslot
      (hinv.table_of_entry (by decide) hslot.entry hzero fun h => absurd h (by decide)) ?_
    by_contra hblock
    exact hfree (exists_pudCrossing hlo hhi hbound hpiece hslot hzero hblock)

/-- Beyond such a boundary `walk_pgd` never gets. -/
theorem walkPgd_stuck {b : U64} (hb : PudCrossing s root.base start end_ b) (fuel : Nat) :
    walkLoop (fun addr => pgdAddrEnd addr end_) (dumpPgd fuel s) end_ fuel
      (pgdOffsetRaw root.base start) start = none := by
  have hrest := (piece_zero hlt hbound).rest
  refine walkLoop_none (k := 0) pgdAddrEnd hlo hhi hbound (by decide)
    cutsAt_pgdAddrEnd (b := b.toNat) ?_ fuel hrest
    (slotAt_root (s := s) start) hb.start_lt.le hb.lt_end
  intro p a n hpiece hslot hab hbn
  obtain ⟨ha, hn⟩ := hpiece.rest.aligned hlo hhi (by decide)
  have hsame := hslot.entry_of_piece (by decide) hpiece hbound hab hbn
  rw [entry_pgd] at hsame
  have hzero : s.mem p ≠ 0#64 := Option.some.inj hsame ▸ hb.table
  have hcut := cutsAt_pudAddrEnd a n hpiece.lt (hpiece.le_hi.trans hbound) ha hn
  have hne : pudAddrEnd a n ≠ n := by
    intro heq
    have hstart := hb.start_lt
    have hboundary := hb.boundary
    have hinside := hb.inside
    have hstarts := hpiece.starts
    rw [heq] at hcut
    simp only [Nat.reduceAdd, span_one, span_two] at *
    omega
  rw [dumpPgd, if_neg hzero, walkPud]
  exact walkLoop_stuck hne _ _ _ _

end WholeRange

/-- A table that calls of `__create_pgd_mapping` have built in the page `pgdir`: on proper ranges,
with new pages for the tables, and without a section in the way of a table. -/
def BuiltTable (alloc : Nat → U64) (pgdir : U64) (s : PgState) : Prop :=
  ∃ fuel s₀ ms, 512 ≤ fuel ∧ Start pgdir s₀ ∧ (∀ m ∈ ms, Mapping.InRange m) ∧
    Run.Along (mapStep alloc fuel pgdir) (fun m s => m.NoSectionInWay pgdir s) ms s₀ ∧
    Run.exec (mapStep alloc fuel pgdir) ms s₀ = some s ∧ FreshPages alloc pgdir s.allocs

/-- **What `walk_pgd` shows of a range.**  It ends and shows the range entry by entry if and only
if no 1 GiB boundary lies inside the range, except between two entries of the PGD or where
the PGD has no table. -/
theorem walkPgd_dumps_iff {pgdir : U64} (hbuilt : BuiltTable alloc pgdir s) {start size : U64}
    (hstart : start.toNat % 4096 = 0) (hsize : size.toNat % 4096 = 0) (hpos : 0 < size.toNat)
    (hbelow : start.toNat + size.toNat ≤ 2 ^ 48) :
    (∃ fuel printed, walkPgd fuel s pgdir start size = some printed ∧
        Dumps s pgdir start.toNat (start.toNat + size.toNat) printed) ↔
      ¬ ∃ b, PudCrossing s pgdir start (start + size) b := by
  obtain ⟨mapFuel, s₀, ms, hmapFuel, hs₀, hms, hfree, hrun, hfresh⟩ := hbuilt
  have hinv := inv_run hmapFuel hs₀ hms hfree hrun hfresh
  have hend : (start + size).toNat = start.toNat + size.toNat := by
    rw [BitVec.toNat_add]
    omega
  have hlt : start.toNat < (start + size).toNat := by omega
  constructor
  · rintro ⟨fuel, printed, hwalk, -⟩ ⟨b, hb⟩
    have hstuck := walkPgd_stuck ⟨pgdir, hs₀.aligned⟩ hstart (by omega) (by omega) hlt hb
      fuel
    rw [walkPgd, hstuck] at hwalk
    cases hwalk
  · intro hno
    obtain ⟨printed, hwalk, hdumps⟩ := walkPgd_dumps ⟨pgdir, hs₀.aligned⟩ hstart (by omega)
      (by omega) hlt hinv hno (le_refl 512)
    rw [hend] at hdumps
    exact ⟨512, printed, hwalk, hdumps⟩

/-! The table of one section, its own range and the first 2 GiB. -/

theorem builtTable_section :
    ∃ s, Run.exec (mapStep pagesAbove 512 0x1000#64) [sectionCall] PgState.zero = some s ∧
      BuiltTable pagesAbove 0x1000#64 s ∧ s.mem 0x1000#64 ≠ 0#64 := by
  have hrun : (Run.exec (mapStep pagesAbove 512 0x1000#64) [sectionCall] PgState.zero).map
      (fun s => (s.allocs, s.mem 0x1000#64)) = some (2, 0x2003#64) := rfl
  obtain ⟨s, hs, heq⟩ := Option.map_eq_some_iff.mp hrun
  obtain ⟨hallocs, hentry⟩ := Prod.mk.inj heq
  refine ⟨s, hs, ⟨512, PgState.zero, [sectionCall], le_rfl, start_zero,
    by simp [sectionCall_inRange], ⟨sectionCall_free _, fun _ _ => trivial⟩, hs, ?_⟩, ?_⟩
  · exact hallocs ▸ freshPages_pagesAbove (by decide)
  · rw [hentry]
    decide

theorem walkPgd_dumps_section :
    ∃ s fuel printed, BuiltTable pagesAbove 0x1000#64 s ∧
      walkPgd fuel s 0x1000#64 0#64 0x200000#64 = some printed ∧
      Dumps s 0x1000#64 0 0x200000 printed := by
  obtain ⟨s, -, hbuilt, -⟩ := builtTable_section
  obtain ⟨fuel, printed, hwalk, hdumps⟩ := (@walkPgd_dumps_iff _ _ _ hbuilt 0#64
    0x200000#64 rfl rfl (by decide) (by decide)).2 (by
      rintro ⟨b, hb⟩
      have hlt : b.toNat < 0x200000 := hb.lt_end
      have hgt : 0 < b.toNat := hb.start_lt
      have hboundary := hb.boundary
      rw [span_two] at hboundary
      omega)
  exact ⟨s, fuel, printed, hbuilt, hwalk, hdumps⟩

/-- At the boundary 0x40000000 the walk of the first 2 GiB is stuck. -/
theorem walkPgd_two_gib :
    ∃ s, BuiltTable pagesAbove 0x1000#64 s ∧
      ∀ fuel, walkPgd fuel s 0x1000#64 0#64 0x80000000#64 = none := by
  obtain ⟨s, -, hbuilt, hentry⟩ := builtTable_section
  refine ⟨s, hbuilt, fun fuel => ?_⟩
  refine walkPgd_stuck ⟨0x1000#64, rfl⟩ (b := 0x40000000#64) rfl rfl (by decide) (by decide)
    ⟨by decide, by decide, by decide, by decide, ?_⟩ fuel
  exact hentry

end Arm64OS
