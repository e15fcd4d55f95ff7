import Arm64OS.Kernel.StartKernel
import Arm64OS.Kernel.UserSpace

/-!
# What a page from malloc holds

Two runs of the same calls, in which only the tasks other than `T` have other values in their
registers.  `get_free_page` does not clear a page, and `copy_thread` copies the frame of the
caller into the new page before it looks at the stack, so a page that was freed by a refused
`do_fork` carries that frame.  `filler` is the task whose frame lies in a page for this reason;
pages that it does not name another task for hold the same in both runs.
-/

namespace Arm64OS

/-! ## `do_fork`, case by case -/

/-- The frame that `copy_thread` leaves in the page when it refuses the stack. -/
def refusedFrame (parent : PtRegs) : PtRegs :=
  { parent with regs := Function.update parent.regs 0 0#64 }

section Fork

variable (img : Image) {current cloneFlags stack : U64} (arg : U64) {k : Kernel} {j : Nat}

theorem doFork_noPage (h : ∀ m, m < nrPages → k.memMap m ≠ 0#8) :
    doFork img current cloneFlags stack arg k = (-1, k) := by
  rcases getFreePage_cases k.memMap with ⟨m, hm, hfree, -, -⟩ | ⟨-, hget⟩
  · exact absurd hfree (h m hm)
  · simp [doFork, hget]

theorem doFork_noSlot (hj : j < nrPages) (hfree : k.memMap j = 0#8)
    (hget : getFreePage k.memMap = (pageAddr j, Function.update k.memMap j 1#8))
    (hslot : findEmptyTask k.gTask < 0) :
    doFork img current cloneFlags stack arg k = (-1, k.memsetTask (pageAddr j)) := by
  obtain ⟨k₀, hk₀, hagree, hmap, -⟩ := exists_cleared j k
  have htable := hagree.gTask
  have hback : { k₀ with memMap := k.memMap } = k.memsetTask (pageAddr j) := by rw [← hk₀]; rfl
  simp only [doFork, hget, pageAddr_ne_zero hj, hk₀, htable, hslot, hmap, freePage_update hj hfree,
    if_true, if_false]
  rw [← hback, htable]

/-- What `copy_thread` has written when it refuses the stack. -/
theorem copyThread_refused_eq {p : U64} (h : StackRefused cloneFlags stack) (hp : current ≠ p)
    (hzero : k.task p = TaskStruct.zero) :
    (copyThread img current cloneFlags p stack arg k).2 =
      k.storePtRegs p (refusedFrame (k.ptRegs (taskPtRegs current))) := by
  have hframe : taskPtRegs current ≠ taskPtRegs p := fun he => hp (taskPtRegs_inj he)
  have halign : ¬ stack &&& 15#64 = 0#64 := h.2.2
  have hsame : Function.update k.task p TaskStruct.zero = k.task := by
    rw [← hzero, Function.update_eq_self]
  have hcontext : { TaskStruct.zero with cpuContext := CpuContext.zero } = TaskStruct.zero := rfl
  simp [copyThread, h.1, h.2.1, halign, Kernel.storePtRegs, Kernel.updTask, hframe, refusedFrame,
    hzero, hcontext, hsame]

theorem doFork_refused (hcurrent : current ≠ pageAddr j) (hj : j < nrPages)
    (hfree : k.memMap j = 0#8)
    (hget : getFreePage k.memMap = (pageAddr j, Function.update k.memMap j 1#8))
    (hslot : 0 ≤ findEmptyTask k.gTask) (h : StackRefused cloneFlags stack) :
    doFork img current cloneFlags stack arg k =
      (-1, (k.memsetTask (pageAddr j)).storePtRegs (pageAddr j)
        (refusedFrame (k.ptRegs (taskPtRegs current)))) := by
  obtain ⟨k₀, hk₀, hagree, hmap, hzero⟩ := exists_cleared j k
  have htable := hagree.gTask
  have hregs : k₀.ptRegs = k.ptRegs := by rw [← hk₀]; rfl
  have herr := copyThread_fst img current (pageAddr j) cloneFlags stack arg k₀
  rw [if_pos h] at herr
  have hcopy := copyThread_refused_eq img arg h hcurrent hzero
  have hneg : ¬ findEmptyTask k.gTask < 0 := by omega
  have hback : { k₀.storePtRegs (pageAddr j) (refusedFrame (k.ptRegs (taskPtRegs current))) with
      memMap := k.memMap } = (k.memsetTask (pageAddr j)).storePtRegs (pageAddr j)
        (refusedFrame (k.ptRegs (taskPtRegs current))) := by
    rw [← hk₀]
    rfl
  have hstored : (k₀.storePtRegs (pageAddr j) (refusedFrame (k.ptRegs (taskPtRegs current)))).memMap =
      Function.update k.memMap j 1#8 := hmap
  rw [hregs] at hcopy
  simp [doFork, hget, pageAddr_ne_zero hj, hk₀, htable, hneg, herr, freeTask, hcopy, hstored,
    freePage_update hj hfree, hback]

/-- What a successful call leaves that does not depend on the registers of the caller. -/
structure ForkedShared (img : Image) (current p : U64) (j pid : Nat) (k k' : Kernel) : Prop where
  memMap : k'.memMap = Function.update k.memMap j 1#8
  gTask : k'.gTask = Function.update k.gTask pid p
  runList : k'.runList =
    listAdd (runListOf p) img.rqHead (Function.update k.runList (runListOf p) ⟨0, 0⟩)
  ring : k'.ring = setLinks img p (Function.update k.ring p ⟨0, 0⟩)
  task : ∀ q, q ≠ p → q ≠ current → k'.task q = k.task q
  ptRegs : ∀ q, q ≠ p → k'.ptRegs (taskPtRegs q) = k.ptRegs (taskPtRegs q)

theorem doFork_success {pid : Nat} (hcurrent : current ≠ pageAddr j) (hj : j < nrPages)
    (hget : getFreePage k.memMap = (pageAddr j, Function.update k.memMap j 1#8))
    (hslot : findEmptyTask k.gTask = pid) (h : ¬ StackRefused cloneFlags stack) :
    ∃ k', doFork img current cloneFlags stack arg k = ((pid : Int), k') ∧
      ForkedShared img current (pageAddr j) j pid k k' := by
  obtain ⟨k₀, hk₀, hagree, -⟩ := exists_cleared j k
  have htable := hagree.gTask
  have hcopy := copyThread_accepted img arg k₀ hcurrent h
  obtain ⟨k₁, hk₁⟩ : ∃ k₁, (copyThread img current cloneFlags (pageAddr j) stack arg k₀).2 = k₁ :=
    ⟨_, rfl⟩
  have hpid : ¬ (pid : Int) < 0 := by omega
  refine ⟨wakeUpProcess img (pageAddr j) (runStmts (initChild img current (pageAddr j) pid) k₁),
    ?_, ?_⟩
  · simp [doFork, hget, pageAddr_ne_zero hj, hk₀, htable, hslot, hcopy, ← hk₁]
  rw [hcopy] at hk₁
  rw [initChild, runStmts_append, runStmts_onRing, runStmts_initFields pid _ hcurrent]
  constructor
  case memMap => rw [← hk₁, ← hk₀]; rfl
  case gTask => rw [← hk₁, ← hk₀]; rfl
  case runList => rw [← hk₁, ← hk₀]; rfl
  case ring => rw [← hk₁, ← hk₀]; rfl
  case task =>
    intro q hqp hqc
    simp [wakeUpProcess, enqueueTaskNop, Kernel.updTask, hqp, hqc, ← hk₁, ← hk₀, Kernel.memsetTask]
  case ptRegs =>
    intro q hqp
    have hframe : taskPtRegs q ≠ taskPtRegs (pageAddr j) := fun he => hqp (taskPtRegs_inj he)
    simp [wakeUpProcess, enqueueTaskNop, Kernel.updTask, hframe, ← hk₁, ← hk₀, Kernel.memsetTask]

end Fork

/-! ## Calls of tasks -/

inductive TaskOp
  /-- a system call, entered with these registers -/
  | svc (frame : PtRegs)
  | thread (fn arg flags : U64)
  | toUserSpace (pc : U64)

/-- The value that the call of `current` returns, and the kernel after it. -/
def TaskOp.run (img : Image) (current : U64) : TaskOp → Kernel → U64 × Kernel
  | .svc frame, k =>
      let k := (el0SvcHandler img (fun _ => sysUnimplemented) current
        (k.storePtRegs current frame)).2
      ((k.ptRegs (taskPtRegs current)).regs 0, k)
  | .thread fn arg flags, k =>
      let (pid, k) := kernelThread img current fn arg flags k
      (BitVec.ofInt 64 pid, k)
  | .toUserSpace pc, k =>
      let (ret, k) := moveToUserSpace current pc k
      (BitVec.ofInt 64 ret, k)

/-- The number of a system call is not below those of the table. -/
def TaskOp.InRange : TaskOp → Prop
  | .svc frame => 0 ≤ toInt (frame.regs 8)
  | .thread .. => True
  | .toUserSpace _ => True

instance (op : TaskOp) : Decidable op.InRange := by
  unfold TaskOp.InRange
  cases op <;> infer_instance

def TaskOp.IsMalloc : TaskOp → Prop
  | .svc frame => toInt (frame.regs 8) = 5
  | .thread .. => False
  | .toUserSpace _ => False

/-- The same call, with registers that may differ. -/
def TaskOp.SameCall : TaskOp → TaskOp → Prop
  | .svc frame, .svc frame' => toInt (frame'.regs 8) = toInt (frame.regs 8)
  | .thread .., .thread .. => True
  | .toUserSpace _, .toUserSpace _ => True
  | _, _ => False

/-- The kernel, and as history the task whose frame a refused `do_fork` left in a page. -/
structure PageRun where
  k : Kernel
  filler : U64 → Option U64

/-- A `do_fork` of `current` gets a page and a slot, and is then refused. -/
def FillsPage (cloneFlags stack : U64) (k : Kernel) : Prop :=
  (getFreePage k.memMap).1 ≠ 0#64 ∧ 0 ≤ findEmptyTask k.gTask ∧ StackRefused cloneFlags stack

instance (cloneFlags stack : U64) (k : Kernel) : Decidable (FillsPage cloneFlags stack k) := by
  unfold FillsPage
  infer_instance

def fillerAfter (current cloneFlags stack : U64) (k : Kernel) (filler : U64 → Option U64) :
    U64 → Option U64 :=
  if FillsPage cloneFlags stack k then
    Function.update filler (getFreePage k.memMap).1 (some current)
  else filler

def TaskOp.fill (current : U64) : TaskOp → PageRun → U64 → Option U64
  | .svc frame, s =>
      if toInt (frame.regs 8) = nrClone then
        fillerAfter current (frame.regs 0) (frame.regs 1) s.k s.filler
      else s.filler
  | .thread .., s => s.filler
  | .toUserSpace _, s => s.filler

/-- A task of `g_task` makes a call. -/
def callStep (img : Image) (current : U64) (op : TaskOp) (s : PageRun) : Option PageRun :=
  if InTable s.k current ∧ op.InRange then some ⟨(op.run img current s.k).2, op.fill current s⟩
  else none

/-- A call of one task in both runs; only the calls of `T` have the same registers. -/
structure TwoCalls (T : U64) where
  current : U64
  op : TaskOp
  op' : TaskOp
  same : op.SameCall op'
  own : current = T → op' = op

/-- Both runs make the call, with the same outcome. -/
def pairStep {T : U64} (img : Image) (l : TwoCalls T) (s : PageRun × PageRun) :
    Option (PageRun × PageRun) :=
  if (l.op.run img l.current s.1.k).1 = (l.op'.run img l.current s.2.k).1 then
    (callStep img l.current l.op s.1).bind fun t =>
      (callStep img l.current l.op' s.2).map fun t' => (t, t')
  else none

/-- What the kernel knows to lie in the page `p`. -/
structure SameContents (p : U64) (k k' : Kernel) : Prop where
  task : k'.task p = k.task p
  runList : k'.runList (runListOf p) = k.runList (runListOf p)
  ring : k'.ring p = k.ring p
  ptRegs : k'.ptRegs (taskPtRegs p) = k.ptRegs (taskPtRegs p)

/-- The page that `T` gets from malloc holds the same in both runs. -/
def MallocAlike {T : U64} (img : Image) (l : TwoCalls T) (s : PageRun × PageRun) : Prop :=
  l.current = T → l.op.IsMalloc → ∀ t, pairStep img l s = some t →
    (l.op.run img l.current s.1.k).1 ≠ -1 →
      SameContents (l.op.run img l.current s.1.k).1 t.1.k t.2.k

/-- Where `T` calls malloc, the page that is free lowest was not filled for another task. -/
def CleanPage {T : U64} (l : TwoCalls T) (s : PageRun × PageRun) : Prop :=
  l.current = T → l.op.IsMalloc →
    s.1.filler (getFreePage s.1.k.memMap).1 = none ∨
      s.1.filler (getFreePage s.1.k.memMap).1 = some T

/-! ### What the two runs share -/

/-- The two kernels have the same tables and lists, and what lies in a free page is the same
unless the page was filled for a task other than `T`. -/
structure Alike (T : U64) (filler : U64 → Option U64) (k k' : Kernel) : Prop where
  memMap : k'.memMap = k.memMap
  gTask : k'.gTask = k.gTask
  runList : k'.runList = k.runList
  ring : k'.ring = k.ring
  task : ∀ j, j < nrPages → k.memMap j = 0#8 → k'.task (pageAddr j) = k.task (pageAddr j)
  ptRegs : ∀ j, j < nrPages → k.memMap j = 0#8 →
    filler (pageAddr j) = none ∨ filler (pageAddr j) = some T →
    k'.ptRegs (taskPtRegs (pageAddr j)) = k.ptRegs (taskPtRegs (pageAddr j))

/-- No task lies in a free page. -/
def TasksHavePages (k : Kernel) : Prop := ∀ i, i < nrTasks → NotFree (k.gTask i) k

variable {T current : U64} {filler : U64 → Option U64} {k k' : Kernel} {img : Image}

theorem Alike.contents (h : Alike T filler k k') {j : Nat} (hj : j < nrPages)
    (hfree : k.memMap j = 0#8)
    (hclean : filler (pageAddr j) = none ∨ filler (pageAddr j) = some T) :
    SameContents (pageAddr j) k k' :=
  ⟨h.task j hj hfree, congrFun h.runList _, congrFun h.ring _, h.ptRegs j hj hfree hclean⟩

theorem ptRegs_storePtRegs_of_ne {p q : U64} (hne : q ≠ p) (frame : PtRegs) (k : Kernel) :
    (k.storePtRegs p frame).ptRegs (taskPtRegs q) = k.ptRegs (taskPtRegs q) := by
  have hframe : taskPtRegs q ≠ taskPtRegs p := fun he => hne (taskPtRegs_inj he)
  simp only [Kernel.storePtRegs, Function.update_of_ne hframe]

theorem ptRegs_storePtRegs_self (p : U64) (frame : PtRegs) (k : Kernel) :
    (k.storePtRegs p frame).ptRegs (taskPtRegs p) = frame := by
  simp only [Kernel.storePtRegs, Function.update_self]

/-- A task's own frame lies in no free page. -/
theorem Alike.storePtRegs (h : Alike T filler k k') (hcurrent : NotFree current k)
    (frame frame' : PtRegs) :
    Alike T filler (k.storePtRegs current frame) (k'.storePtRegs current frame') := by
  refine ⟨h.memMap, h.gTask, h.runList, h.ring, h.task, ?_⟩
  intro j hj hfree hclean
  have hne := (hcurrent j hj hfree).symm
  rw [ptRegs_storePtRegs_of_ne hne, ptRegs_storePtRegs_of_ne hne]
  exact h.ptRegs j hj hfree hclean

/-- The page that is taken is free no more. -/
theorem Alike.take (h : Alike T filler k k') (j : Nat) :
    Alike T filler { k with memMap := Function.update k.memMap j 1#8 }
      { k' with memMap := Function.update k'.memMap j 1#8 } := by
  have hfree : ∀ i, Function.update k.memMap j 1#8 i = 0#8 → k.memMap i = 0#8 := by
    intro i hi
    by_cases hij : i = j
    · rw [hij, Function.update_self] at hi
      cases hi
    · rwa [Function.update_of_ne hij] at hi
  refine ⟨?_, h.gTask, h.runList, h.ring, ?_, ?_⟩
  · rw [h.memMap]
  · intro i hi hi'
    exact h.task i hi (hfree i hi')
  · intro i hi hi'
    exact h.ptRegs i hi (hfree i hi')

theorem Alike.memsetTask (h : Alike T filler k k') (p : U64) :
    Alike T filler (k.memsetTask p) (k'.memsetTask p) := by
  refine ⟨h.memMap, h.gTask, ?_, ?_, ?_, h.ptRegs⟩
  · show Function.update k'.runList _ _ = Function.update k.runList _ _
    rw [h.runList]
  · show Function.update k'.ring _ _ = Function.update k.ring _ _
    rw [h.ring]
  · intro j hj hfree
    show Function.update k'.task p _ (pageAddr j) = Function.update k.task p _ (pageAddr j)
    by_cases hp : pageAddr j = p
    · rw [hp, Function.update_self, Function.update_self]
    · rw [Function.update_of_ne hp, Function.update_of_ne hp]
      exact h.task j hj hfree

/-- The frame of `current` in the page `p`. -/
theorem Alike.storeFilled (h : Alike T filler k k') (p : U64) {frame frame' : PtRegs}
    (hown : current = T → frame' = frame) :
    Alike T (Function.update filler p (some current)) (k.storePtRegs p frame)
      (k'.storePtRegs p frame') := by
  refine ⟨h.memMap, h.gTask, h.runList, h.ring, h.task, ?_⟩
  intro j hj hfree hclean
  by_cases hp : pageAddr j = p
  · rw [hp, Function.update_self] at hclean
    have hcurrent : current = T := by simpa using hclean
    rw [hp, ptRegs_storePtRegs_self, ptRegs_storePtRegs_self, hown hcurrent]
  · rw [Function.update_of_ne hp] at hclean
    rw [ptRegs_storePtRegs_of_ne hp, ptRegs_storePtRegs_of_ne hp]
    exact h.ptRegs j hj hfree hclean

/-- After a successful call the other free pages are as they were. -/
theorem Alike.forked (h : Alike T filler k k') {m m' : Kernel} {j pid : Nat} (hj : j < nrPages)
    (hcurrent : NotFree current k) (hm : ForkedShared img current (pageAddr j) j pid k m)
    (hm' : ForkedShared img current (pageAddr j) j pid k' m') : Alike T filler m m' := by
  have hpage : ∀ i, i < nrPages → m.memMap i = 0#8 →
      k.memMap i = 0#8 ∧ pageAddr i ≠ pageAddr j ∧ pageAddr i ≠ current := by
    intro i hi hfree
    rw [hm.memMap] at hfree
    by_cases hij : i = j
    · rw [hij, Function.update_self] at hfree
      cases hfree
    · rw [Function.update_of_ne hij] at hfree
      exact ⟨hfree, fun he => hij (pageAddr_inj hi hj he), (hcurrent i hi hfree).symm⟩
  constructor
  case memMap => rw [hm.memMap, hm'.memMap, h.memMap]
  case gTask => rw [hm.gTask, hm'.gTask, h.gTask]
  case runList => rw [hm.runList, hm'.runList, h.runList]
  case ring => rw [hm.ring, hm'.ring, h.ring]
  case task =>
    intro i hi hfree
    obtain ⟨hfree, hne, hnc⟩ := hpage i hi hfree
    rw [hm.task _ hne hnc, hm'.task _ hne hnc]
    exact h.task i hi hfree
  case ptRegs =>
    intro i hi hfree hclean
    obtain ⟨hfree, hne, -⟩ := hpage i hi hfree
    rw [hm.ptRegs _ hne, hm'.ptRegs _ hne]
    exact h.ptRegs i hi hfree hclean

/-- Two calls of `do_fork` by one task, with the same outcome. -/
theorem Alike.doFork (h : Alike T filler k k') (hcurrent : NotFree current k)
    {cloneFlags stack arg cloneFlags' stack' arg' : U64}
    (hown : FillsPage cloneFlags stack k → current = T →
      k'.ptRegs (taskPtRegs current) = k.ptRegs (taskPtRegs current))
    (hout : (Arm64OS.doFork img current cloneFlags' stack' arg' k').1 =
      (Arm64OS.doFork img current cloneFlags stack arg k).1) :
    Alike T (fillerAfter current cloneFlags stack k filler)
      (Arm64OS.doFork img current cloneFlags stack arg k).2
      (Arm64OS.doFork img current cloneFlags' stack' arg' k').2 := by
  have hunfilled : ¬ FillsPage cloneFlags stack k →
      fillerAfter current cloneFlags stack k filler = filler := fun hno => if_neg hno
  rcases getFreePage_cases k.memMap with ⟨j, hj, hfree, -, hget⟩ | ⟨hfull, hget⟩
  · have hcur := hcurrent j hj hfree
    have hfree' : k'.memMap j = 0#8 := by rw [h.memMap, hfree]
    have hget' : getFreePage k'.memMap = (pageAddr j, Function.update k'.memMap j 1#8) := by
      rw [h.memMap, hget]
    rcases findEmptyTask_cases k.gTask with ⟨pid, -, -, -, hfind⟩ | ⟨-, hfind⟩
    · have hpos : 0 ≤ findEmptyTask k.gTask := by omega
      have hfind' : findEmptyTask k'.gTask = pid := by rw [h.gTask, hfind]
      have hpos' : 0 ≤ findEmptyTask k'.gTask := by omega
      by_cases hrefused : StackRefused cloneFlags stack
      · have hk := doFork_refused img arg hcur hj hfree hget hpos hrefused
        by_cases hrefused' : StackRefused cloneFlags' stack'
        · have hk' := doFork_refused img arg' hcur hj hfree' hget' hpos' hrefused'
          have hfills : FillsPage cloneFlags stack k := by
            refine ⟨?_, hpos, hrefused⟩
            rw [hget]
            exact pageAddr_ne_zero hj
          rw [hk, hk', fillerAfter, if_pos hfills, hget]
          refine (h.memsetTask (pageAddr j)).storeFilled (pageAddr j) fun hT => ?_
          rw [hown hfills hT]
        · obtain ⟨m', hk', -⟩ := doFork_success img arg' hcur hj hget' hfind' hrefused'
          rw [hk, hk'] at hout
          have hpid : (pid : Int) = -1 := hout
          omega
      · have hno : ¬ FillsPage cloneFlags stack k := fun hfills => hrefused hfills.2.2
        obtain ⟨m, hk, hm⟩ := doFork_success img arg hcur hj hget hfind hrefused
        rw [hunfilled hno]
        by_cases hrefused' : StackRefused cloneFlags' stack'
        · have hk' := doFork_refused img arg' hcur hj hfree' hget' hpos' hrefused'
          rw [hk, hk'] at hout
          have hpid : (-1 : Int) = pid := hout
          omega
        · obtain ⟨m', hk', hm'⟩ :=
            doFork_success img arg' hcur hj hget' hfind' hrefused'
          rw [hk, hk']
          exact h.forked hj hcurrent hm hm'
    · have hneg : findEmptyTask k.gTask < 0 := by omega
      have hneg' : findEmptyTask k'.gTask < 0 := by rw [h.gTask]; omega
      have hno : ¬ FillsPage cloneFlags stack k := by
        rintro ⟨-, hpos, -⟩
        omega
      rw [hunfilled hno, doFork_noSlot img arg hj hfree hget hneg,
        doFork_noSlot img arg' hj hfree' hget' hneg']
      exact h.memsetTask (pageAddr j)
  · have hfull' : ∀ m, m < nrPages → k'.memMap m ≠ 0#8 := by
      rw [h.memMap]
      exact hfull
    have hno : ¬ FillsPage cloneFlags stack k := by
      rintro ⟨hne, -⟩
      exact hne (by rw [hget])
    rw [hunfilled hno, doFork_noPage img arg hfull, doFork_noPage img arg' hfull']
    exact h

end Arm64OS
