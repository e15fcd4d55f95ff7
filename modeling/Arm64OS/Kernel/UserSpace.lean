import Arm64OS.Arch.MmuCount
import Arm64OS.Arch.Syscall

/-!
# What the kernel hands to user tasks

`start_user_thread` and `move_to_user_space` of `kernel/fork.c`, next to the malloc call.  The
tables that `paging_init` installs are never written again: `get_free_page` marks their pages
and nothing frees them.  So what a user task may do with a page is what the protections of the
three mappings say, and none of these has `PTE_USER` or lacks `PTE_UXN`.
-/

namespace Arm64OS

/-- `start_user_thread`; `regs` is the frame of `current`. -/
def startUserThread (current pc sp : U64) (k : Kernel) : Kernel :=
  k.storePtRegs current { PtRegs.zero with pc := pc, pstate := psrModeEL0t, sp := sp }

/-- `memset((void *)p, 0, PAGE_SIZE)`. -/
def Kernel.memsetPage (p : U64) (k : Kernel) : Kernel := (k.memsetTask p).storePtRegs p PtRegs.zero

/-- `move_to_user_space`, called by the task `current`. -/
def moveToUserSpace (current pc : U64) (k : Kernel) : Int × Kernel :=
  let (stack, memMap) := getFreePage k.memMap
  let k := { k with memMap := memMap }
  if stack = 0#64 then (-1, k)
  else (0, startUserThread current pc (stack + pageSize) (k.memsetPage stack))

/-! ## Access at EL0 -/

/-- `AP[1]`: EL0 has the access that `AP[2]` leaves. -/
def Leaf.el0 (l : Leaf) : Bool := l.entry &&& pteUser ≠ 0#64

def Leaf.execEl0 (l : Leaf) : Bool := l.entry &&& pteUxn = 0#64

/-- What a user task is given: a page for its data, or the page with its code. -/
inductive UserRange
  | data (p : U64)
  | code (pc : U64)

def UserRange.Usable (s : PgState) (pgdir : U64) : UserRange → Prop
  | .data p => ∀ i < 4096, ∃ l,
      lookup s pgdir (p + BitVec.ofNat 64 i) = some l ∧ l.el0 = true ∧ l.writable = true
  | .code pc => ∀ va : U64, va &&& pageMask = pc &&& pageMask →
      ∃ l, lookup s pgdir va = some l ∧ l.execEl0 = true

/-! ## Runs after `paging_init` -/

/-- The memory with the tables, the kernel, and as history what user tasks were given. -/
structure UserState where
  pg : PgState
  k : Kernel
  handed : List UserRange

inductive UserCall
  | fork (current cloneFlags stack arg : U64)
  | toUserSpace (current pc : U64)
  | malloc
  /-- anything else; `mem_map` belongs to `get_free_page` and `free_page` -/
  | other (k : Kernel)

/-- A call, and the words of memory after it. -/
structure UserOp where
  call : UserCall
  written : U64 → U64

/-- The kernel after a call, and the ranges that the call hands out. -/
def UserCall.run (img : Image) : UserCall → Kernel → Kernel × List UserRange
  | .fork current cloneFlags stack arg, k => ((doFork img current cloneFlags stack arg k).2, [])
  | .toUserSpace current pc, k =>
      let (ret, k) := moveToUserSpace current pc k
      let regs := k.ptRegs (taskPtRegs current)
      (k, if ret = 0 then [.data (regs.sp - pageSize), .code regs.pc] else [])
  | .malloc, k =>
      let (addr, k) := sysMalloc k
      (k, if addr = -1 then [] else [.data addr])
  | .other k', k => ({ k' with memMap := k.memMap }, [])

instance (base a : U64) : Decidable (InPage base a) := by
  unfold InPage
  infer_instance

instance (alloc : Nat → U64) (pgdir : U64) (n : Nat) (a : U64) :
    Decidable (InTables alloc pgdir n a) := by
  unfold InTables
  infer_instance

/-- The calls store to `task_struct`s, to frames and to the kernel's variables, none of which
lies in a table, and to the page that `get_free_page` gives them. -/
def PgState.storesOf (alloc : Nat → U64) (pgdir page : U64) (written : U64 → U64) (s : PgState) :
    PgState :=
  { s with
    mem := fun a =>
      if InTables alloc pgdir s.allocs a ∧ ¬ (page ≠ 0#64 ∧ InPage page a) then s.mem a
      else written a }

def userStep (img : Image) (alloc : Nat → U64) (pgdir : U64) (op : UserOp) (s : UserState) :
    Option UserState :=
  let (k, ranges) := op.call.run img s.k
  some
    { pg := s.pg.storesOf alloc pgdir (getFreePage s.k.memMap).1 op.written
      k := k
      handed := ranges ++ s.handed }

/-- `mem_map` after `n` calls of `get_free_page`. -/
def memMapAfter (memMap : PageMap) : Nat → PageMap
  | 0 => memMap
  | n + 1 => memMapAfter (getFreePage memMap).2 n

/-- The state that `paging_init` leaves: the tables, and in `mem_map` their pages. -/
def UserState.start (memMap : PageMap) (pg : PgState) (k : Kernel) : UserState :=
  ⟨pg, { k with memMap := memMapAfter memMap pg.allocs }, []⟩

/-- All that has been handed out by the end of a step can be used. -/
def RangesUsable (img : Image) (alloc : Nat → U64) (pgdir : U64) (op : UserOp) (s : UserState) :
    Prop :=
  ∀ s', userStep img alloc pgdir op s = some s' → ∀ r ∈ s'.handed, r.Usable s'.pg pgdir

/-- The call hands nothing out: it is none that does, or no page is free. -/
def HandsNothing (op : UserOp) (s : UserState) : Prop :=
  match op.call with
  | .fork .. => True
  | .toUserSpace .. => ∀ j, j < nrPages → s.k.memMap j ≠ 0#8
  | .malloc => ∀ j, j < nrPages → s.k.memMap j ≠ 0#8
  | .other _ => True

/-! ### The tables stay -/

variable {alloc : Nat → U64} {root : TablePage} {s s' : PgState}

/-- The MMU reads the tables and nothing else. -/
theorem lookup_congr (hinv : Inv alloc root s)
    (hsame : ∀ a, InTables alloc root.base s.allocs a → s'.mem a = s.mem a) (va : U64) :
    lookup s' root.base va = lookup s root.base va := by
  have hwalk : ∀ k y, (s'.tree root).walk k y = (s.tree root).walk k y := by
    intro k y
    refine RadixTree.Tree.walk_eq_of_cells rfl rfl rfl fun i _ b hb => ?_
    exact hsame _ (hinv.inTables hb _)
  have hentry : ∀ k y, (s'.tree root).entry k y = (s.tree root).entry k y := by
    intro k y
    rw [RadixTree.Tree.entry, RadixTree.Tree.entry, hwalk]
    cases hb : (s.tree root).walk k y with
    | none => rfl
    | some b => exact congrArg some (hsame _ (hinv.inTables hb _))
  rw [lookup_eq, lookup_eq, PgState.leaf, PgState.leaf, hentry, hentry]

/-! ### The page map -/

theorem getFreePage_keeps_marks {memMap : PageMap} {j : Nat} (h : memMap j ≠ 0#8) :
    (getFreePage memMap).2 j ≠ 0#8 := by
  rcases getFreePage_cases memMap with ⟨i, -, hfree, -, heq⟩ | ⟨-, heq⟩
  · rw [heq]
    show Function.update memMap i 1#8 j ≠ 0#8
    by_cases hji : j = i
    · rw [hji, Function.update_self]
      decide
    · rwa [Function.update_of_ne hji]
  · rwa [heq]

theorem memMapAfter_keeps_marks {memMap : PageMap} {j : Nat} (n : Nat) (h : memMap j ≠ 0#8) :
    memMapAfter memMap n j ≠ 0#8 := by
  induction n generalizing memMap with
  | zero => exact h
  | succ n ih => exact ih (getFreePage_keeps_marks h)

/-- The pages of the tables are marked. -/
theorem tablePage_marked {memMap : PageMap} {i n : Nat} (hi : i < n)
    (hne : tablePage memMap i ≠ 0#64) :
    ∃ j, j < nrPages ∧ tablePage memMap i = pageAddr j ∧ memMapAfter memMap n j ≠ 0#8 := by
  induction n generalizing memMap i with
  | zero => exact absurd hi (Nat.not_lt_zero i)
  | succ n ih =>
      cases i with
      | succ i => exact ih (Nat.lt_of_succ_lt_succ hi) hne
      | zero =>
          rcases getFreePage_cases memMap with ⟨j, hj, -, -, heq⟩ | ⟨-, heq⟩
          · refine ⟨j, hj, by rw [tablePage, heq], memMapAfter_keeps_marks n ?_⟩
            rw [heq]
            show Function.update memMap j 1#8 j ≠ 0#8
            rw [Function.update_self]
            decide
          · exact absurd (by rw [tablePage, heq]) hne

theorem memMap_runStmts {stmts : List Stmt} (h : ∀ stmt ∈ stmts, ∀ k, (stmt k).memMap = k.memMap)
    (k : Kernel) : (runStmts stmts k).memMap = k.memMap := by
  induction stmts generalizing k with
  | nil => rfl
  | cons stmt stmts ih =>
      have hrest := ih (fun s hs => h s (List.mem_cons_of_mem _ hs)) (stmt k)
      exact hrest.trans (h stmt List.mem_cons_self k)

/-- Behind `copy_thread`, `do_fork` leaves the map alone. -/
theorem memMap_initChild (img : Image) (current p : U64) (pid : Int) (k : Kernel) :
    (wakeUpProcess img p (runStmts (initChild img current p pid) k)).memMap = k.memMap := by
  have hwake : ∀ k, (wakeUpProcess img p k).memMap = k.memMap := fun _ => rfl
  have hfields : ∀ stmt ∈ initFields current p pid, ∀ k, (stmt k).memMap = k.memMap := by
    intro stmt hstmt k
    simp only [initFields, List.mem_cons, List.not_mem_nil, or_false] at hstmt
    rcases hstmt with rfl | rfl | rfl | rfl | rfl | rfl | rfl | rfl | rfl <;> rfl
  rw [hwake, initChild, runStmts_append, runStmts_onRing]
  exact memMap_runStmts hfields k

/-- A call of `do_fork` keeps at most the page that `get_free_page` gave it. -/
theorem memMap_doFork (img : Image) (current cloneFlags stack arg : U64) (k : Kernel) :
    (doFork img current cloneFlags stack arg k).2.memMap = k.memMap ∨
      (doFork img current cloneFlags stack arg k).2.memMap = (getFreePage k.memMap).2 := by
  rcases getFreePage_cases k.memMap with ⟨j, hj, hfree, -, hget⟩ | ⟨-, hget⟩
  · have hne := pageAddr_ne_zero hj
    obtain ⟨k₀, hk₀, -, hmap, -⟩ := exists_cleared j k
    have hback : freePage (pageAddr j) (Function.update k.memMap j 1#8) = k.memMap :=
      freePage_update hj hfree
    obtain ⟨pid, hpid⟩ : ∃ pid, findEmptyTask k₀.gTask = pid := ⟨_, rfl⟩
    obtain ⟨r, hr⟩ : ∃ r, copyThread img current cloneFlags (pageAddr j) stack arg k₀ = r :=
      ⟨_, rfl⟩
    have hcopied : r.2.memMap = Function.update k.memMap j 1#8 := by
      rw [← hr, memMap_copyThread, hmap]
    by_cases hneg : pid < 0
    · left
      simp [doFork, hget, hne, hk₀, hpid, hneg, hmap, hback]
    · by_cases herr : r.1 = 0
      · right
        have hresult : doFork img current cloneFlags stack arg k =
            (pid, wakeUpProcess img (pageAddr j)
              (runStmts (initChild img current (pageAddr j) pid) r.2)) := by
          simp [doFork, hget, hne, hk₀, hpid, hneg, hr, herr]
        rw [hresult, hget]
        exact (memMap_initChild img current (pageAddr j) pid r.2).trans hcopied
      · left
        simp [doFork, hget, hne, hk₀, hpid, hneg, hr, herr, freeTask, hcopied, hback]
  · left
    simp [doFork, hget]

theorem startUserThread_ptRegs (current pc sp : U64) (k : Kernel) :
    (startUserThread current pc sp k).ptRegs (taskPtRegs current) =
      { PtRegs.zero with pc := pc, pstate := psrModeEL0t, sp := sp } := by
  simp only [startUserThread, Kernel.storePtRegs, Function.update_self]

theorem memMap_startUserThread (current pc sp p : U64) (k : Kernel) :
    (startUserThread current pc sp (k.memsetPage p)).memMap = k.memMap := rfl

theorem moveToUserSpace_cases (current pc : U64) (k : Kernel) :
    (∃ j, j < nrPages ∧ k.memMap j = 0#8 ∧ ∃ k', moveToUserSpace current pc k = (0, k') ∧
      k'.memMap = Function.update k.memMap j 1#8 ∧
      k'.ptRegs (taskPtRegs current) =
        { PtRegs.zero with pc := pc, pstate := psrModeEL0t, sp := pageAddr j + pageSize }) ∨
    ((∀ j, j < nrPages → k.memMap j ≠ 0#8) ∧ moveToUserSpace current pc k = (-1, k)) := by
  rcases getFreePage_cases k.memMap with ⟨j, hj, hfree, -, hget⟩ | ⟨hfull, hget⟩
  · have hne := pageAddr_ne_zero hj
    refine Or.inl ⟨j, hj, hfree, startUserThread current pc (pageAddr j + pageSize)
      (Kernel.memsetPage (pageAddr j) { k with memMap := Function.update k.memMap j 1#8 }),
      ?_, memMap_startUserThread .., startUserThread_ptRegs ..⟩
    simp only [moveToUserSpace, hget, hne, if_false]
  · refine Or.inr ⟨hfull, ?_⟩
    simp [moveToUserSpace, hget]

theorem sysMalloc_cases (k : Kernel) :
    (∃ j, j < nrPages ∧ k.memMap j = 0#8 ∧ (∀ m, m < j → k.memMap m ≠ 0#8) ∧
      sysMalloc k = (pageAddr j, { k with memMap := Function.update k.memMap j 1#8 })) ∨
    ((∀ j, j < nrPages → k.memMap j ≠ 0#8) ∧ sysMalloc k = (-1, k)) := by
  rcases getFreePage_cases k.memMap with ⟨j, hj, hfree, hmin, hget⟩ | ⟨hfull, hget⟩
  · have hne := pageAddr_ne_zero hj
    exact Or.inl ⟨j, hj, hfree, hmin, by simp [sysMalloc, hget, hne]⟩
  · exact Or.inr ⟨hfull, by simp [sysMalloc, hget]⟩

theorem pageAddr_ne_neg_one {j : Nat} (hj : j < nrPages) : pageAddr j ≠ -1 := by
  intro h
  have hnat := congrArg BitVec.toNat h
  have hone : (-1 : U64).toNat = 2 ^ 64 - 1 := rfl
  rw [pageAddr_toNat hj, hone] at hnat
  rw [nrPages_eq] at hj
  omega

/-! ### The invariant -/

/-- The tables are as `paging_init` left them in `pg`, and their pages are not free. -/
structure TablesStay (alloc : Nat → U64) (pgdir : U64) (pg : PgState) (s : UserState) : Prop where
  allocs : s.pg.allocs = pg.allocs
  same : ∀ a, InTables alloc pgdir pg.allocs a → s.pg.mem a = pg.mem a
  marked : ∀ i < pg.allocs, ∃ j, j < nrPages ∧ alloc i = pageAddr j ∧ s.k.memMap j ≠ 0#8

variable {img : Image} {pgdir : U64} {pg : PgState} {op : UserOp} {t t' : UserState}

/-- No call frees a page that was taken before it. -/
theorem run_keeps_marks (img : Image) (call : UserCall) {k : Kernel} {j : Nat} (h : k.memMap j ≠ 0#8) :
    (call.run img k).1.memMap j ≠ 0#8 := by
  have hget := getFreePage_keeps_marks h
  cases call with
  | fork current cloneFlags stack arg =>
      show (doFork img current cloneFlags stack arg k).2.memMap j ≠ 0#8
      rcases memMap_doFork img current cloneFlags stack arg k with heq | heq
      · rwa [heq]
      · rwa [heq]
  | toUserSpace current pc =>
      show (moveToUserSpace current pc k).2.memMap j ≠ 0#8
      rcases moveToUserSpace_cases current pc k with ⟨i, -, hfree, k', heq, hmap, -⟩ | ⟨-, heq⟩
      · rw [heq, hmap]
        have hne : j ≠ i := by
          rintro rfl
          exact h hfree
        rwa [Function.update_of_ne hne]
      · rwa [heq]
  | malloc =>
      show (sysMalloc k).2.memMap j ≠ 0#8
      rcases sysMalloc_cases k with ⟨i, -, hfree, -, heq⟩ | ⟨-, heq⟩
      · rw [heq]
        have hne : j ≠ i := by
          rintro rfl
          exact h hfree
        show Function.update k.memMap i 1#8 j ≠ 0#8
        rwa [Function.update_of_ne hne]
      · rwa [heq]
  | other k' => exact h

/-- The page that a call takes holds no table. -/
theorem TablesStay.page_free (h : TablesStay alloc pgdir pg t)
    (hpgdir : pgdir.toNat + 4096 ≤ lowMemory.toNat) {a : U64}
    (hin : InTables alloc pgdir pg.allocs a) :
    ¬ ((getFreePage t.k.memMap).1 ≠ 0#64 ∧ InPage (getFreePage t.k.memMap).1 a) := by
  rintro ⟨hne, hpage⟩
  rcases getFreePage_cases t.k.memMap with ⟨j, hj, hfree, -, heq⟩ | ⟨-, heq⟩
  · rw [heq, InPage, pageAddr_toNat hj] at hpage
    rw [lowMemory_toNat] at hpgdir
    rcases hin with hin | ⟨i, hi, hin⟩
    · unfold InPage at hin
      omega
    · obtain ⟨j', hj', halloc, hmarked⟩ := h.marked i hi
      rw [InPage, halloc, pageAddr_toNat hj'] at hin
      obtain rfl : j' = j := by omega
      exact hmarked hfree
  · exact hne (by rw [heq])

theorem TablesStay.step (h : TablesStay alloc pgdir pg t)
    (hpgdir : pgdir.toNat + 4096 ≤ lowMemory.toNat) (hstep : userStep img alloc pgdir op t = some t') :
    TablesStay alloc pgdir pg t' := by
  obtain rfl := Option.some.inj hstep
  refine ⟨h.allocs, ?_, ?_⟩
  · intro a hin
    have hkeep : InTables alloc pgdir t.pg.allocs a ∧
        ¬ ((getFreePage t.k.memMap).1 ≠ 0#64 ∧ InPage (getFreePage t.k.memMap).1 a) :=
      ⟨h.allocs.symm ▸ hin, h.page_free hpgdir hin⟩
    rw [← h.same a hin]
    exact if_pos hkeep
  · intro i hi
    obtain ⟨j, hj, halloc, hmarked⟩ := h.marked i hi
    exact ⟨j, hj, halloc, run_keeps_marks img op.call hmarked⟩

/-! ### No access at EL0 -/

/-- No address is open to EL0. -/
def NoEl0 (pg : PgState) (pgdir : U64) : Prop :=
  ∀ va l, lookup pg pgdir va = some l → l.el0 = false ∧ l.execEl0 = false

theorem NoEl0.not_usable (h : NoEl0 pg pgdir) (r : UserRange) : ¬ r.Usable pg pgdir := by
  intro hr
  cases r with
  | data p =>
      obtain ⟨l, hl, hel0, -⟩ := hr 0 (by decide)
      exact absurd hel0 (by simp [(h _ l hl).1])
  | code pc =>
      obtain ⟨l, hl, hexec⟩ := hr pc rfl
      exact absurd hexec (by simp [(h _ l hl).2])

/-- What the protection of a mapping says about EL0. -/
theorem Leaf.el0_of_attrs {l : Leaf} {prot : U64} (h : attrs l.entry = attrs prot) :
    l.el0 = decide (prot &&& pteUser ≠ 0#64) ∧ l.execEl0 = decide (prot &&& pteUxn = 0#64) := by
  constructor
  · rw [Leaf.el0, and_attrs (by decide), h, ← and_attrs (by decide)]
  · rw [Leaf.execEl0, and_attrs (by decide), h, ← and_attrs (by decide)]

theorem kernelMappings_no_el0 (lay : Layout) (board : Board) : ∀ m ∈ kernelMappings lay board,
    m.prot &&& pteUser = 0#64 ∧ m.prot &&& pteUxn ≠ 0#64 := by
  apply forall_kernelMappings
  · show pageKernelRox &&& pteUser = 0#64 ∧ pageKernelRox &&& pteUxn ≠ 0#64
    decide
  · show pageKernel &&& pteUser = 0#64 ∧ pageKernel &&& pteUxn ≠ 0#64
    decide
  · show protDeviceNGnRnE &&& pteUser = 0#64 ∧ protDeviceNGnRnE &&& pteUxn ≠ 0#64
    decide

theorem Mapped.noEl0 {lay : Layout} {board : Board}
    (h : Mapped alloc root (kernelMappings lay board) pg) : NoEl0 pg root.base := by
  intro va l hl
  obtain ⟨m, hm, hattrs⟩ := h.of_lookup (kernelMappings_proper lay board) hl
  obtain ⟨hel0, hexec⟩ := Leaf.el0_of_attrs hattrs
  obtain ⟨huser, huxn⟩ := kernelMappings_no_el0 lay board m hm
  rw [hel0, hexec, huser]
  exact ⟨by simp, decide_eq_false huxn⟩

/-- While the tables stay, nothing is open to EL0. -/
theorem TablesStay.noEl0 (h : TablesStay alloc root.base pg t) (hinv : Inv alloc root pg)
    (hno : NoEl0 pg root.base) : NoEl0 t.pg root.base := by
  intro va l hl
  rw [lookup_congr hinv h.same] at hl
  exact hno va l hl

/-! ### What is handed out -/

theorem run_hands_nothing_iff (img : Image) (op : UserOp) (t : UserState) :
    (op.call.run img t.k).2 = [] ↔ HandsNothing op t := by
  obtain ⟨call, written⟩ := op
  cases call with
  | fork => exact ⟨fun _ => trivial, fun _ => rfl⟩
  | other => exact ⟨fun _ => trivial, fun _ => rfl⟩
  | toUserSpace current pc =>
      rcases moveToUserSpace_cases current pc t.k with ⟨j, hj, hfree, k', heq, -⟩ | ⟨hfull, heq⟩
      · constructor
        · intro hnone
          simp [UserCall.run, heq] at hnone
        · intro hfull
          exact absurd hfree (hfull j hj)
      · exact ⟨fun _ => hfull, fun _ => by simp [UserCall.run, heq]⟩
  | malloc =>
      rcases sysMalloc_cases t.k with ⟨j, hj, hfree, -, heq⟩ | ⟨hfull, heq⟩
      · constructor
        · intro hnone
          simp [UserCall.run, heq] at hnone
          exact absurd hnone (pageAddr_ne_neg_one hj)
        · intro hfull
          exact absurd hfree (hfull j hj)
      · exact ⟨fun _ => hfull, fun _ => by simp [UserCall.run, heq]⟩

theorem rangesUsable_iff (h : TablesStay alloc root.base pg t) (hinv : Inv alloc root pg)
    (hno : NoEl0 pg root.base) (hpgdir : root.base.toNat + 4096 ≤ lowMemory.toNat)
    (hnone : t.handed = []) :
    RangesUsable img alloc root.base op t ↔ HandsNothing op t := by
  rw [← run_hands_nothing_iff img]
  have hafter : ∀ t', userStep img alloc root.base op t = some t' → NoEl0 t'.pg root.base :=
    fun t' ht' => (h.step hpgdir ht').noEl0 hinv hno
  constructor
  · intro husable
    refine List.eq_nil_iff_forall_not_mem.mpr fun r hr => ?_
    exact (hafter _ rfl).not_usable r (husable _ rfl r (List.mem_append_left _ hr))
  · intro hempty t' ht' r hr
    obtain rfl := Option.some.inj ht'
    have hmem : r ∈ (op.call.run img t.k).2 ++ t.handed := hr
    rw [hempty, hnone] at hmem
    cases hmem

/-- What the two mapping functions leave when `get_free_page` has enough pages for them. -/
theorem exists_tables (img : Layout) (board : Board) {memMap : PageMap} {fuel : Nat} {s : PgState}
    (hfuel : 512 ≤ fuel) (hstart : Start img.idmapPgdDir s)
    (hfree : enoughTables ≤ (freePages memMap).card) :
    ∃ pg, (createIdentityMapping memMap fuel img s).bind
        (createMmioMapping memMap fuel img board) = some pg ∧
      Inv (tablePage memMap) ⟨img.idmapPgdDir, hstart.aligned⟩ pg ∧ NoEl0 pg img.idmapPgdDir ∧
      ∀ k, TablesStay (tablePage memMap) img.idmapPgdDir pg (UserState.start memMap pg k) := by
  obtain ⟨pg, hcalls, hall⟩ := exists_kernelMapped memMap img board hfuel hstart
  have hcount := kernelMappings_takes img board hcalls
  rw [hstart.allocs] at hcount
  have htables : ∀ i < pg.allocs, tablePage memMap i ≠ 0#64 :=
    fun i hi => tablePage_ne_zero (by omega)
  have hmapped := hall htables
  refine ⟨pg, hcalls, hmapped.inv, hmapped.noEl0, fun k => ⟨rfl, fun _ _ => rfl, ?_⟩⟩
  intro i hi
  exact tablePage_marked hi (htables i hi)

/-- **What user tasks can use.**  In a run after `paging_init`, all that has been handed out can
be used after every step if and only if the run never hands anything out. -/
theorem rangesUsable_run_iff (img : Image) (layout : Layout) (board : Board) {memMap : PageMap}
    {fuel : Nat} {s : PgState} (hfuel : 512 ≤ fuel) (hstart : Start layout.idmapPgdDir s)
    (hfree : enoughTables ≤ (freePages memMap).card) (k : Kernel) (ops : List UserOp) :
    ∃ pg, (createIdentityMapping memMap fuel layout s).bind
        (createMmioMapping memMap fuel layout board) = some pg ∧
      (Run.Along (userStep img (tablePage memMap) layout.idmapPgdDir)
          (RangesUsable img (tablePage memMap) layout.idmapPgdDir) ops
          (UserState.start memMap pg k) ↔
        Run.Along (userStep img (tablePage memMap) layout.idmapPgdDir) HandsNothing ops
          (UserState.start memMap pg k)) := by
  obtain ⟨pg, hpg, hinv, hno, hstay⟩ := exists_tables layout board hfuel hstart hfree
  refine ⟨pg, hpg, ?_⟩
  refine Run.along_congr_of_kept
    (I := fun t => TablesStay (tablePage memMap) layout.idmapPgdDir pg t ∧ t.handed = []) ?_ ?_
    ⟨hstay k, rfl⟩
  · rintro op t t' ⟨h, hnone⟩ husable hstep
    have hnothing := (rangesUsable_iff h hinv hno layout.pgd_le hnone).mp husable
    refine ⟨h.step layout.pgd_le hstep, ?_⟩
    obtain rfl := Option.some.inj hstep
    show (op.call.run img t.k).2 ++ t.handed = []
    rw [(run_hands_nothing_iff img op t).mpr hnothing, hnone]
    rfl
  · rintro op - t ⟨h, hnone⟩
    exact rangesUsable_iff h hinv hno layout.pgd_le hnone

theorem enoughTables_of_free {memMap : PageMap} (h : ∀ j, memMap j = 0#8) :
    enoughTables ≤ (freePages memMap).card := by
  have hall : freePages memMap = Finset.range nrPages := by simp [freePages, h]
  rw [hall, Finset.card_range, nrPages_eq, enoughTables]
  decide

/-- With an empty map the pages are taken one after the other. -/
theorem memMapAfter_afterGets {a : U64} {k n : Nat} (h : k + n ≤ nrPages) :
    memMapAfter (PageHistory.afterGets a k).alloc.memMap n =
      (PageHistory.afterGets a (k + n)).alloc.memMap := by
  induction n generalizing k with
  | zero => rfl
  | succ n ih =>
      rw [memMapAfter, getFreePage_afterGets (by omega), ih (by omega), Nat.add_right_comm,
        Nat.add_assoc]

/-- `paging_init` leaves pages. -/
theorem exists_free_start {layout : Layout} {board : Board} {fuel : Nat} {pg : PgState}
    (hpg : (createIdentityMapping (fun _ => 0#8) fuel layout PgState.zero).bind
      (createMmioMapping (fun _ => 0#8) fuel layout board) = some pg) (k : Kernel) :
    ∃ j, j < nrPages ∧ (UserState.start (fun _ => 0#8) pg k).k.memMap j = 0#8 := by
  have hcount : pg.allocs ≤ 0 + 280 := kernelMappings_takes layout board hpg
  have hpages := nrPages_eq
  have hmap : (PageHistory.afterGets 0#64 0).alloc.memMap = fun _ => 0#8 := by
    simp [PageHistory.afterGets]
  have hafter := memMapAfter_afterGets (a := 0#64) (k := 0) (n := pg.allocs) (by omega)
  refine ⟨pg.allocs, by omega, ?_⟩
  show memMapAfter (fun _ => 0#8) pg.allocs pg.allocs = 0#8
  rw [← hmap, hafter]
  simp [PageHistory.afterGets]

/-- `init_task` makes two kernel threads, and nothing is handed out; a thread that goes to user
space is given what it cannot use. -/
theorem rangesUsable_run_iff_fork :
    ∃ pg, (createIdentityMapping (fun _ => 0#8) 512 smallLayout PgState.zero).bind
        (createMmioMapping (fun _ => 0#8) 512 smallLayout .bcm2711) = some pg ∧
      Run.Along (userStep Image.sample (tablePage fun _ => 0#8) smallLayout.idmapPgdDir)
        (RangesUsable Image.sample (tablePage fun _ => 0#8) smallLayout.idmapPgdDir)
        [⟨.fork Image.sample.initTask pfKthread 0x84000 0, fun _ => 0⟩,
          ⟨.other Kernel.blank, fun _ => 1⟩,
          ⟨.fork Image.sample.initTask pfKthread 0x85000 0, fun _ => 0⟩]
        (UserState.start (fun _ => 0#8) pg Kernel.blank) ∧
      ¬ Run.Along (userStep Image.sample (tablePage fun _ => 0#8) smallLayout.idmapPgdDir)
        (RangesUsable Image.sample (tablePage fun _ => 0#8) smallLayout.idmapPgdDir)
        [⟨.toUserSpace Image.sample.initTask 0x86000, fun _ => 0⟩, ⟨.malloc, fun _ => 0⟩]
        (UserState.start (fun _ => 0#8) pg Kernel.blank) := by
  have henough : enoughTables ≤ (freePages fun _ => 0#8).card := enoughTables_of_free fun _ => rfl
  obtain ⟨pg, hpg, hforks⟩ := rangesUsable_run_iff Image.sample smallLayout .bcm2711 le_rfl
    start_smallLayout henough Kernel.blank
    [⟨.fork Image.sample.initTask pfKthread 0x84000 0, fun _ => 0⟩,
      ⟨.other Kernel.blank, fun _ => 1⟩,
      ⟨.fork Image.sample.initTask pfKthread 0x85000 0, fun _ => 0⟩]
  obtain ⟨pg', hpg', huser⟩ := rangesUsable_run_iff Image.sample smallLayout .bcm2711 le_rfl
    start_smallLayout henough Kernel.blank
    [⟨.toUserSpace Image.sample.initTask 0x86000, fun _ => 0⟩, ⟨.malloc, fun _ => 0⟩]
  obtain rfl := Option.some.inj (hpg.symm.trans hpg')
  obtain ⟨j, hj, hfree⟩ := exists_free_start hpg Kernel.blank
  refine ⟨pg, hpg, hforks.mpr ?_, fun hrun => (huser.mp hrun).1 j hj hfree⟩
  exact ⟨trivial, fun _ _ => ⟨trivial, fun _ _ => ⟨trivial, fun _ _ => trivial⟩⟩⟩

/-- The first malloc call of a user task gets a page that EL0 may not touch. -/
theorem malloc_page_not_usable :
    ∃ pg, (createIdentityMapping (fun _ => 0#8) 512 smallLayout PgState.zero).bind
        (createMmioMapping (fun _ => 0#8) 512 smallLayout .bcm2711) = some pg ∧
      ¬ Run.Along (userStep Image.sample (tablePage fun _ => 0#8) smallLayout.idmapPgdDir)
        (RangesUsable Image.sample (tablePage fun _ => 0#8) smallLayout.idmapPgdDir)
        [⟨.malloc, fun _ => 0⟩] (UserState.start (fun _ => 0#8) pg Kernel.blank) := by
  have henough : enoughTables ≤ (freePages fun _ => 0#8).card := enoughTables_of_free fun _ => rfl
  obtain ⟨pg, hpg, hinv, hno, hstay⟩ := exists_tables smallLayout .bcm2711 le_rfl
    start_smallLayout henough
  refine ⟨pg, hpg, fun hrun => ?_⟩
  have hfull := (rangesUsable_iff (hstay Kernel.blank) hinv hno smallLayout.pgd_le rfl).mp hrun.1
  obtain ⟨j, hj, hfree⟩ := exists_free_start hpg Kernel.blank
  exact hfull j hj hfree

end Arm64OS
