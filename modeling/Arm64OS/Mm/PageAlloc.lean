import Arm64OS.Lib.Run
import Arm64OS.Lib.Search
import Arm64OS.Page

/-!
# The page allocator

`mm/page_alloc.c`: a byte map with one entry for each 4 KiB page, searched from the
bottom.  `mem_init` is told where the free memory starts and ends, but the map is
neither told nor asked about that range: page `i` of the map is always the page
at `LOW_MEMORY + i * PAGE_SIZE`.

* `PageHistory` is the allocator together with the addresses currently handed out,
  and `pageStep` the calls its users may make.
* `handedOut_run` is the invariant of every history, `returns_window_iff` says exactly
  which histories stay inside the range given to `mem_init`.
-/

namespace Arm64OS

/-- `mem_map`: entry `i` is 1 while page `i` is handed out. -/
abbrev PageMap := Nat → BitVec 8

def nrPages : Nat := (totalMemory / pageSize).toNat

theorem nrPages_eq : nrPages = 131072 := rfl

/-- The state of `page_alloc.c`. -/
structure PageAlloc where
  memMap : PageMap
  phyStartAddress : U64

/-- `LOW_MEMORY + i * PAGE_SIZE`, an `int` expression that stays below `2 ^ 30`. -/
def pageAddr (i : Nat) : U64 := lowMemory + BitVec.ofNat 64 i * pageSize

/-- The index computed by `free_page`. -/
def pageIndex (p : U64) : Nat := ((p - lowMemory) / pageSize).toNat

/-- `get_free_page`: take the first entry of the map that is 0. -/
def getFreePage (memMap : PageMap) : U64 × PageMap :=
  Search.search (fun i => memMap i = 0#8)
    (fun i => (pageAddr i, Function.update memMap i 1#8)) (0#64, memMap) nrPages 0

def freePage (p : U64) (memMap : PageMap) : PageMap := Function.update memMap (pageIndex p) 0#8

/-- `mem_init`: the only state it changes is `phy_start_address`, which nothing reads; its loop
counts the pages for the line that it prints. -/
def memInit (startMem _endMem : U64) (s : PageAlloc) : PageAlloc :=
  { s with phyStartAddress := pageAlign startMem }

/-! ## Addresses and indices -/

theorem pageAddr_toNat {i : Nat} (hi : i < nrPages) :
    (pageAddr i).toNat = 0x400000 + i * 4096 := by
  rw [nrPages_eq] at hi
  rw [pageAddr, BitVec.toNat_add, BitVec.toNat_mul, BitVec.toNat_ofNat, lowMemory_toNat,
    pageSize_toNat]
  omega

theorem pageAddr_ne_zero {i : Nat} (hi : i < nrPages) : pageAddr i ≠ 0#64 := by
  intro h
  have := congrArg BitVec.toNat h
  rw [pageAddr_toNat hi] at this
  simp at this

theorem pageAddr_inj {i j : Nat} (hi : i < nrPages) (hj : j < nrPages)
    (h : pageAddr i = pageAddr j) : i = j := by
  have := congrArg BitVec.toNat h
  rw [pageAddr_toNat hi, pageAddr_toNat hj] at this
  omega

/-- `free_page` inverts the index-to-address arithmetic of `get_free_page`. -/
theorem pageIndex_pageAddr {i : Nat} (hi : i < nrPages) : pageIndex (pageAddr i) = i := by
  have haddr := pageAddr_toNat hi
  rw [nrPages_eq] at hi
  rw [pageIndex, BitVec.toNat_udiv, BitVec.toNat_sub, haddr, lowMemory_toNat, pageSize_toNat]
  omega

/-! ## One call -/

/-- The lowest free page is returned and marked, or there is none and 0 is returned. -/
theorem getFreePage_cases (memMap : PageMap) :
    (∃ j, j < nrPages ∧ memMap j = 0#8 ∧ (∀ m, m < j → memMap m ≠ 0#8) ∧
      getFreePage memMap = (pageAddr j, Function.update memMap j 1#8)) ∨
    ((∀ m, m < nrPages → memMap m ≠ 0#8) ∧ getFreePage memMap = (0#64, memMap)) := by
  exact Search.search_zero_cases (memMap · = 0#8)
    (fun i => (pageAddr i, Function.update memMap i 1#8)) (0#64, memMap) nrPages

/-! ## Histories of calls -/

/-- The allocator and, as history, the addresses handed out and not freed since. -/
structure PageHistory where
  alloc : PageAlloc
  out : List U64

/-- The calls a user of the allocator makes. -/
inductive PageOp
  | getFreePage
  | freePage (p : U64)
  deriving DecidableEq

/-- One call.  `free_page` is only given addresses that are handed out. -/
def pageStep : PageOp → PageHistory → Option PageHistory
  | .getFreePage, s =>
      let (p, memMap) := getFreePage s.alloc.memMap
      some ⟨{ s.alloc with memMap := memMap }, if p = 0#64 then s.out else p :: s.out⟩
  | .freePage p, s =>
      if p ∈ s.out then
        some ⟨{ s.alloc with memMap := freePage p s.alloc.memMap }, s.out.erase p⟩
      else
        none

/-- `mem_map` as the zeroed `.bss` leaves it, with nothing handed out. -/
def PageHistory.boot : PageHistory := ⟨⟨fun _ => 0#8, 0#64⟩, []⟩

/-- The map and the handed-out addresses describe each other. -/
structure HandedOut (s : PageHistory) : Prop where
  nodup : s.out.Nodup
  isPage : ∀ p ∈ s.out, ∃ i, i < nrPages ∧ p = pageAddr i
  used : ∀ i, i < nrPages → (s.alloc.memMap i = 1#8 ↔ pageAddr i ∈ s.out)
  bit : ∀ i, s.alloc.memMap i = 0#8 ∨ s.alloc.memMap i = 1#8

theorem handedOut_boot : HandedOut PageHistory.boot where
  nodup := List.nodup_nil
  isPage := by simp [PageHistory.boot]
  used := by simp [PageHistory.boot]
  bit := by simp [PageHistory.boot]

/-- One page changes hands: its entry of the map and its place among the addresses. -/
theorem HandedOut.setPage {s : PageHistory} (h : HandedOut s) {j : Nat} (hj : j < nrPages)
    {v : BitVec 8} (hv : v = 0#8 ∨ v = 1#8) {out : List U64} (hnodup : out.Nodup)
    (hout : ∀ p, p ∈ out ↔ p = pageAddr j ∧ v = 1#8 ∨ p ≠ pageAddr j ∧ p ∈ s.out) :
    HandedOut ⟨{ s.alloc with memMap := Function.update s.alloc.memMap j v }, out⟩ := by
  refine ⟨hnodup, ?_, ?_, ?_⟩
  · intro p hp
    rcases (hout p).1 hp with ⟨rfl, -⟩ | ⟨-, hold⟩
    · exact ⟨j, hj, rfl⟩
    · exact h.isPage p hold
  · intro i hi
    rw [hout]
    by_cases hij : i = j
    · subst hij
      simp
    · have hadd : pageAddr i ≠ pageAddr j := fun he => hij (pageAddr_inj hi hj he)
      simp [Function.update_of_ne hij, hadd, h.used i hi]
  · intro i
    by_cases hij : i = j
    · subst hij
      simpa using hv
    · simpa [Function.update_of_ne hij] using h.bit i

/-- `get_free_page` hands out a page that was not handed out before. -/
theorem handedOut_getFreePage {s s' : PageHistory} (h : HandedOut s)
    (hstep : pageStep .getFreePage s = some s') : HandedOut s' := by
  rcases getFreePage_cases s.alloc.memMap with ⟨j, hj, hfree, -, heq⟩ | ⟨-, heq⟩
  · have hne := pageAddr_ne_zero hj
    -- a page that is handed out has a 1 in the map
    have hnew : pageAddr j ∉ s.out := by
      intro hmem
      have hone := (h.used j hj).2 hmem
      rw [hfree] at hone
      exact absurd hone (by decide)
    obtain rfl : s' = ⟨{ s.alloc with memMap := Function.update s.alloc.memMap j 1#8 },
        pageAddr j :: s.out⟩ := by
      simpa [pageStep, heq, hne] using hstep.symm
    refine h.setPage hj (Or.inr rfl) (List.nodup_cons.2 ⟨hnew, h.nodup⟩) fun p => ?_
    by_cases hp : p = pageAddr j
    · simp [hp]
    · simp [hp]
  · obtain rfl : s' = s := by
      simpa [pageStep, heq] using hstep.symm
    exact h

/-- `free_page` clears the entry of the page it is given, and no other. -/
theorem handedOut_freePage {s s' : PageHistory} {p : U64} (h : HandedOut s)
    (hstep : pageStep (.freePage p) s = some s') : HandedOut s' := by
  by_cases hp : p ∈ s.out
  · obtain ⟨j, hj, rfl⟩ := h.isPage p hp
    obtain rfl : s' = ⟨{ s.alloc with memMap := Function.update s.alloc.memMap j 0#8 },
        s.out.erase (pageAddr j)⟩ := by
      simpa [pageStep, hp, freePage, pageIndex_pageAddr hj] using hstep.symm
    refine h.setPage hj (Or.inl rfl) (h.nodup.erase _) fun q => ?_
    rw [h.nodup.mem_erase_iff]
    simp
  · simp [pageStep, hp] at hstep

theorem handedOut_step (op : PageOp) (s s' : PageHistory) (h : HandedOut s)
    (hstep : pageStep op s = some s') : HandedOut s' := by
  cases op with
  | getFreePage => exact handedOut_getFreePage h hstep
  | freePage p => exact handedOut_freePage h hstep

/-- **Every history of calls.**  The handed-out addresses are non-zero, page aligned and
pairwise distinct; an entry of `mem_map` is 1 exactly when its page is handed out;
and `get_free_page` returns 0 only when every page of the map is handed out. -/
theorem handedOut_run {s : PageHistory} (hs : Run.Reachable pageStep PageHistory.boot s) :
    (∀ p ∈ s.out, p ≠ 0#64 ∧ p &&& pageMask = p) ∧
    s.out.Nodup ∧
    (∀ i, i < nrPages → (s.alloc.memMap i = 1#8 ↔ pageAddr i ∈ s.out)) ∧
    ((getFreePage s.alloc.memMap).1 = 0#64 → ∀ i, i < nrPages → pageAddr i ∈ s.out) := by
  have h : HandedOut s := hs.invariant handedOut_step handedOut_boot
  refine ⟨fun p hp => ?_, h.nodup, h.used, fun hzero i hi => ?_⟩
  · obtain ⟨i, hi, rfl⟩ := h.isPage p hp
    refine ⟨pageAddr_ne_zero hi, and_pageMask_of_aligned _ ?_⟩
    rw [pageAddr_toNat hi]
    omega
  · rcases getFreePage_cases s.alloc.memMap with ⟨j, hj, -, -, heq⟩ | ⟨hall, -⟩
    · rw [heq] at hzero
      exact absurd hzero (pageAddr_ne_zero hj)
    · exact (h.used i hi).1 ((h.bit i).resolve_left (hall i hi))

/-! ## The range announced to `mem_init` -/

/-- The page at `p` lies, whole, inside `[PAGE_ALIGN(start_mem), end_mem & PAGE_MASK)`. -/
def InWindow (startMem endMem p : U64) : Prop :=
  (pageAlign startMem).toNat ≤ p.toNat ∧ p.toNat + 4096 ≤ (endMem &&& pageMask).toNat

/-- A call of `get_free_page` that returns a page returns one of the announced range. -/
def ReturnsInWindow (startMem endMem : U64) : PageOp → PageHistory → Prop
  | .getFreePage, s =>
      (getFreePage s.alloc.memMap).1 ≠ 0#64 →
        InWindow startMem endMem (getFreePage s.alloc.memMap).1
  | .freePage _, _ => True

/-- At a call of `get_free_page`, no page of the map is free at all, or every page below
the announced range is handed out and some page of the range is still free. -/
def WindowServes (startMem endMem : U64) : PageOp → PageHistory → Prop
  | .getFreePage, s =>
      (∀ i, i < nrPages → s.alloc.memMap i ≠ 0#8) ∨
      ((∀ i, i < nrPages → (pageAddr i).toNat < (pageAlign startMem).toNat →
          s.alloc.memMap i ≠ 0#8) ∧
        ∃ i, i < nrPages ∧ s.alloc.memMap i = 0#8 ∧ InWindow startMem endMem (pageAddr i))
  | .freePage _, _ => True

/-- First fit: one call answers from the range exactly when the lowest free page lies in it. -/
theorem returnsInWindow_iff (startMem endMem : U64) (op : PageOp) (s : PageHistory) :
    ReturnsInWindow startMem endMem op s ↔ WindowServes startMem endMem op s := by
  cases op with
  | freePage p => exact Iff.rfl
  | getFreePage =>
      rcases getFreePage_cases s.alloc.memMap with ⟨j, hj, hfree, hmin, heq⟩ | ⟨hall, heq⟩
      · have hret : ReturnsInWindow startMem endMem .getFreePage s ↔
            InWindow startMem endMem (pageAddr j) := by
          simp [ReturnsInWindow, heq, pageAddr_ne_zero hj]
        rw [hret]
        constructor
        · intro hin
          refine Or.inr ⟨fun i hi hlow hzero => ?_, j, hj, hfree, hin⟩
          -- a free page below the range would have been found before `j`
          have hji : j ≤ i := by
            by_contra hlt
            exact hmin i (by omega) hzero
          have hstart := hin.1
          rw [pageAddr_toNat hj] at hstart
          rw [pageAddr_toNat hi] at hlow
          omega
        · rintro (hfull | ⟨hbelow, i, hi, hzero, hin⟩)
          · exact absurd hfree (hfull j hj)
          · have hji : j ≤ i := by
              by_contra hlt
              exact hmin i (by omega) hzero
            have hstart : (pageAlign startMem).toNat ≤ (pageAddr j).toNat := by
              by_contra hlow
              exact hbelow j hj (Nat.lt_of_not_le hlow) hfree
            have hle : (pageAddr j).toNat ≤ (pageAddr i).toNat := by
              rw [pageAddr_toNat hi, pageAddr_toNat hj]
              omega
            exact ⟨hstart, (Nat.add_le_add_right hle 4096).trans hin.2⟩
      · constructor
        · intro _
          exact Or.inl hall
        · intro _ hne
          simp [heq] at hne

/-- **When the allocator respects `mem_init`.**  Whatever was handed out before `mem_init`,
a sequence of calls after it returns only whole pages of the announced range if and
only if, at each `get_free_page` of the sequence, `WindowServes` holds. -/
theorem returns_window_iff (startMem endMem : U64) (s : PageHistory) (ops : List PageOp) :
    Run.Along pageStep (ReturnsInWindow startMem endMem) ops
        { s with alloc := memInit startMem endMem s.alloc } ↔
      Run.Along pageStep (WindowServes startMem endMem) ops
        { s with alloc := memInit startMem endMem s.alloc } :=
  Run.along_congr (returnsInWindow_iff startMem endMem) ops _

/-- The allocator after `n` calls of `get_free_page` and no other. -/
def PageHistory.afterGets (phyStartAddress : U64) (n : Nat) : PageHistory :=
  ⟨⟨fun i => if i < n then 1#8 else 0#8, phyStartAddress⟩, (List.range n).reverse.map pageAddr⟩

theorem getFreePage_afterGets {a : U64} {n : Nat} (hn : n < nrPages) :
    getFreePage (PageHistory.afterGets a n).alloc.memMap =
      (pageAddr n, (PageHistory.afterGets a (n + 1)).alloc.memMap) := by
  rcases getFreePage_cases (PageHistory.afterGets a n).alloc.memMap with
    ⟨j, -, hfree, hmin, heq⟩ | ⟨hall, -⟩
  · have hjn : j = n := by
      have hge : n ≤ j := by
        by_contra hlt
        simp [PageHistory.afterGets, Nat.lt_of_not_le hlt] at hfree
      by_contra hne
      exact hmin n (by omega) (by simp [PageHistory.afterGets])
    subst hjn
    rw [heq]
    refine Prod.ext rfl ?_
    funext i
    by_cases hij : i = j
    · subst hij
      simp [PageHistory.afterGets]
    · have hlt : i < j + 1 ↔ i < j := by omega
      simp only [PageHistory.afterGets, Function.update_of_ne hij, hlt]
  · exact absurd (by simp [PageHistory.afterGets]) (hall n hn)

theorem exec_replicate_getFreePage {a : U64} {n : Nat} (hn : n ≤ nrPages) :
    Run.exec pageStep (List.replicate n .getFreePage) (PageHistory.afterGets a 0) =
      some (PageHistory.afterGets a n) := by
  induction n with
  | zero => rfl
  | succ n ih =>
      have hlt : n < nrPages := by omega
      rw [List.replicate_succ', Run.exec_append, ih (by omega)]
      simp only [Option.bind_some, Run.exec_cons, pageStep, getFreePage_afterGets hlt,
        pageAddr_ne_zero hlt, if_false, Run.exec_nil]
      simp [PageHistory.afterGets, List.range_succ]

theorem afterGets_zero : PageHistory.afterGets 0#64 0 = PageHistory.boot := by
  simp [PageHistory.boot, PageHistory.afterGets]

theorem handedOut_run_two :
    (PageHistory.afterGets 0#64 2).out.Nodup ∧
      ((PageHistory.afterGets 0#64 2).alloc.memMap 1 = 1#8 ↔
        pageAddr 1 ∈ (PageHistory.afterGets 0#64 2).out) := by
  have hrun : Run.exec pageStep (List.replicate 2 .getFreePage) PageHistory.boot =
      some (PageHistory.afterGets 0#64 2) := by
    rw [← afterGets_zero]
    exact exec_replicate_getFreePage (by decide)
  have h := handedOut_run ⟨_, hrun⟩
  exact ⟨h.2.1, h.2.2.1 1 (by decide)⟩

/-- The call `start_kernel` makes, with the kernel image ending at 0xb3000: the 130049th
page returned is the one at `TOTAL_MEMORY`. -/
theorem returns_beyond_totalMemory :
    ¬ Run.Along pageStep (ReturnsInWindow 0xb3000 totalMemory)
      (List.replicate 130049 PageOp.getFreePage)
      { PageHistory.boot with alloc := memInit 0xb3000 totalMemory PageHistory.boot.alloc } := by
  intro h
  have hstart : ({ PageHistory.boot with alloc := memInit 0xb3000 totalMemory PageHistory.boot.alloc } :
      PageHistory) = PageHistory.afterGets (pageAlign 0xb3000) 0 := by
    simp [PageHistory.boot, memInit, PageHistory.afterGets]
  rw [hstart, List.replicate_succ'] at h
  have hlast := h.at_step (exec_replicate_getFreePage (by decide))
  have hin : InWindow 0xb3000 totalMemory (pageAddr 130048) := by
    have hlt : 130048 < nrPages := by decide
    simpa [ReturnsInWindow, getFreePage_afterGets hlt, pageAddr_ne_zero hlt] using hlast
  exact absurd hin.2 (by decide)

end Arm64OS
