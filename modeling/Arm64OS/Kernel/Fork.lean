import Arm64OS.Kernel.Task

/-!
# `do_fork`

`kernel/fork.c`, with `wake_up_process` of `kernel/sched.c` and `enqueue_task_nop` of
`kernel/sched_nop.c`, which it ends in.  The straight-line stretches (`SET_LINKS`, the
initialisation of the new task) are lists of single statements, so that the same
definitions serve the whole call and the code between two statements.

`doFork_cases` is the specification of a call: it fails and leaves everything but a
free page as it was, or it succeeds and did what `Forked` says.
-/

namespace Arm64OS

/-- One C statement. -/
abbrev Stmt := Kernel → Kernel

def runStmts (stmts : List Stmt) (k : Kernel) : Kernel := stmts.foldl (fun k stmt => stmt k) k

/-- The four stores of `SET_LINKS(p)`, in program order. -/
def setLinksStores (img : Image) (p : U64) : List (ListHeap → ListHeap) :=
  [setNext p img.initTask,
   fun h => setPrev p (h.prevOf img.initTask) h,
   fun h => setNext (h.prevOf img.initTask) p h,
   setPrev img.initTask p]

def onRing (store : ListHeap → ListHeap) : Stmt := fun k => { k with ring := store k.ring }

def onRunList (store : ListHeap → ListHeap) : Stmt := fun k => { k with runList := store k.runList }

/-- `find_empty_task`: the first slot of `g_task` that is `NULL`, or -1. -/
def findEmptyTask (gTask : Nat → U64) : Int :=
  Search.search (fun i => gTask i = 0#64) (fun i => (i : Int)) (-1) nrTasks 0

/-- `copy_thread`: the return value and the state after it. -/
def copyThread (img : Image) (current cloneFlags p stack arg : U64) (k : Kernel) : Int × Kernel :=
  let childregs := taskPtRegs p
  let k := k.storePtRegs p PtRegs.zero
  let k := k.updTask p fun t => { t with cpuContext := CpuContext.zero }
  let finish (k : Kernel) : Int × Kernel :=
    (0, k.updTask p fun t =>
      { t with cpuContext := { t.cpuContext with pc := img.retFromFork, sp := childregs } })
  if cloneFlags &&& pfKthread ≠ 0#64 then
    let k := k.storePtRegs p { k.ptRegs childregs with pstate := psrModeEL1h }
    finish <| k.updTask p fun t =>
      { t with cpuContext := { t.cpuContext with x19 := stack, x20 := arg } }
  else
    let frame := k.ptRegs (taskPtRegs current)
    let frame := { frame with regs := Function.update frame.regs 0 0#64 }
    let k := k.storePtRegs p frame
    if stack ≠ 0#64 then
      if stack &&& 15 ≠ 0#64 then
        (-1, k)
      else
        finish (k.storePtRegs p { frame with sp := stack })
    else
      finish k

/-- `free_task` only overwrites its own parameter. -/
def freeTask (_p : U64) (k : Kernel) : Kernel := k

/-- The assignments of `do_fork` between `copy_thread` and `SET_LINKS`. -/
def initFields (current p : U64) (pid : Int) : List Stmt :=
  [fun k => k.updTask p fun t => { t with state := .running },
   fun k => k.updTask p fun t => { t with pid := pid },
   fun k => k.updTask p fun t => { t with counter := ((k.task current).counter + 1) >>> (1 : Nat) },
   fun k => k.updTask current fun t => { t with counter := t.counter >>> (1 : Nat) },
   fun k => k.updTask p fun t => { t with needResched := 0 },
   fun k => k.updTask p fun t => { t with preemptCount := 0 },
   fun k => k.updTask p fun t => { t with priority := 2 },
   fun k => { k with totalForks := k.totalForks + 1 },
   fun k => { k with gTask := Function.update k.gTask pid.toNat p }]

/-- The statements of `do_fork` between `copy_thread` and `wake_up_process`. -/
def initChild (img : Image) (current p : U64) (pid : Int) : List Stmt :=
  initFields current p pid ++ (setLinksStores img p).map onRing

/-- `enqueue_task_nop`. -/
def enqueueTaskNop (img : Image) (p : U64) (k : Kernel) : Kernel :=
  { k with
    runList := listAdd (runListOf p) img.rqHead k.runList
    nrRunning := k.nrRunning + 1 }

def wakeUpProcess (img : Image) (p : U64) (k : Kernel) : Kernel :=
  enqueueTaskNop img p (k.updTask p fun t => { t with state := .running })

/-- `do_fork`, called by the task `current`: the return value and the state after it. -/
def doFork (img : Image) (current cloneFlags stack arg : U64) (k : Kernel) : Int × Kernel :=
  let (p, memMap) := getFreePage k.memMap
  let k := { k with memMap := memMap }
  if p = 0#64 then
    (-1, k)
  else
    let k := k.memsetTask p
    let pid := findEmptyTask k.gTask
    if pid < 0 then
      (-1, { k with memMap := freePage p k.memMap })
    else
      let (err, k) := copyThread img current cloneFlags p stack arg k
      if err ≠ 0 then
        let k := freeTask p k
        (-1, { k with memMap := freePage p k.memMap })
      else
        (pid, wakeUpProcess img p (runStmts (initChild img current p pid) k))

/-- `kernel_thread`: the caller inside the kernel, which asks for `PF_KTHREAD`. -/
def kernelThread (img : Image) (current fn arg flags : U64) (k : Kernel) : Int × Kernel :=
  doFork img current (flags ||| pfKthread) fn arg k

/-! ## The functions `do_fork` calls -/

theorem findEmptyTask_cases (gTask : Nat → U64) :
    (∃ j, j < nrTasks ∧ gTask j = 0#64 ∧ (∀ m, m < j → gTask m ≠ 0#64) ∧
      findEmptyTask gTask = (j : Int)) ∨
    ((∀ m, m < nrTasks → gTask m ≠ 0#64) ∧ findEmptyTask gTask = -1) := by
  exact Search.search_zero_cases (gTask · = 0#64) (fun i => (i : Int)) (-1) nrTasks

/-- `SET_LINKS` appends `p` to the task ring, as `list_add_tail` would. -/
def setLinks (img : Image) (p : U64) (h : ListHeap) : ListHeap :=
  (setLinksStores img p).foldl (fun h store => store h) h

theorem isList_setLinks {img : Image} {p : U64} {h : ListHeap} {xs : List U64}
    (hl : h.IsList img.initTask xs) (hp : p ∉ img.initTask :: xs) :
    (setLinks img p h).IsList img.initTask (xs ++ [p]) := by
  have hne : ∀ n ∈ img.initTask :: xs, n ≠ p := fun n hn he => hp (he ▸ hn)
  have hhead : img.initTask ≠ p := hne _ (by simp)
  have hlast : h.prevOf img.initTask ≠ p := hne _ (hl.next_prev (by simp)).2
  refine hl.insert_last hp ?_ ?_ ?_ ?_ ?_ ?_
  · simp [setLinks, setLinksStores, hhead]
  · simp [setLinks, setLinksStores, hhead, Ne.symm hlast]
  · intro n hn hnl
    simp [setLinks, setLinksStores, hhead, hne n hn, hnl]
  · simp [setLinks, setLinksStores, Ne.symm hhead]
  · simp [setLinks, setLinksStores]
  · intro n hn hnh
    simp [setLinks, setLinksStores, hne n hn, hnh]

/-- The statements of `SET_LINKS` change the task ring and nothing else. -/
theorem runStmts_onRing (stores : List (ListHeap → ListHeap)) (k : Kernel) :
    runStmts (stores.map onRing) k =
      { k with ring := stores.foldl (fun h store => store h) k.ring } := by
  induction stores generalizing k with
  | nil => rfl
  | cons store stores ih => exact ih (onRing store k)

/-- The task has a page that is not free, or none. -/
def NotFree (current : U64) (k : Kernel) : Prop :=
  ∀ j, j < nrPages → k.memMap j = 0#8 → current ≠ pageAddr j

/-- `k'` differs from `k` only in the page map and in what lies in the page of `p`. -/
structure AgreeOff (p : U64) (k k' : Kernel) : Prop where
  gTask : k'.gTask = k.gTask
  totalForks : k'.totalForks = k.totalForks
  nrRunning : k'.nrRunning = k.nrRunning
  nrSwitches : k'.nrSwitches = k.nrSwitches
  curr : k'.curr = k.curr
  task : ∀ q, q ≠ p → k'.task q = k.task q
  ptRegs : ∀ q, q ≠ p → k'.ptRegs (taskPtRegs q) = k.ptRegs (taskPtRegs q)
  runList : ∀ n, n ≠ runListOf p → k'.runList n = k.runList n
  ring : ∀ q, q ≠ p → k'.ring q = k.ring q

theorem AgreeOff.refl (p : U64) (k : Kernel) : AgreeOff p k k := by
  constructor <;> intros <;> rfl

theorem AgreeOff.updTask {p : U64} {k k' : Kernel} (h : AgreeOff p k k')
    (f : TaskStruct → TaskStruct) : AgreeOff p k (k'.updTask p f) :=
  { h with
    task := by
      intro q hq
      simpa [Kernel.updTask, hq] using h.task q hq }

theorem AgreeOff.storePtRegs {p : U64} {k k' : Kernel} (h : AgreeOff p k k') (frame : PtRegs) :
    AgreeOff p k (k'.storePtRegs p frame) :=
  { h with
    ptRegs := by
      intro q hq
      have hframe : taskPtRegs q ≠ taskPtRegs p := fun he => hq (taskPtRegs_inj he)
      simpa [Kernel.storePtRegs, hframe] using h.ptRegs q hq }

theorem AgreeOff.memsetTask {p : U64} {k k' : Kernel} (h : AgreeOff p k k') :
    AgreeOff p k (k'.memsetTask p) :=
  { h with
    task := by
      intro q hq
      simpa [Kernel.memsetTask, hq] using h.task q hq
    runList := by
      intro n hn
      simpa [Kernel.memsetTask, hn] using h.runList n hn
    ring := by
      intro q hq
      simpa [Kernel.memsetTask, hq] using h.ring q hq }

theorem AgreeOff.memMap {p : U64} {k k' : Kernel} (h : AgreeOff p k k') (memMap : PageMap) :
    AgreeOff p k { k' with memMap := memMap } :=
  { h with }

/-- `copy_thread` refuses a stack that is not 16-byte aligned, but only for a user task. -/
def StackRefused (cloneFlags stack : U64) : Prop :=
  cloneFlags &&& pfKthread = 0#64 ∧ stack ≠ 0#64 ∧ stack &&& 15 ≠ 0#64

instance (cloneFlags stack : U64) : Decidable (StackRefused cloneFlags stack) := by
  unfold StackRefused
  infer_instance

/-- The `cpu_context` that `copy_thread` gives the new task `p`. -/
def childContext (img : Image) (p cloneFlags stack arg : U64) : CpuContext :=
  if cloneFlags &&& pfKthread ≠ 0#64 then
    { CpuContext.zero with x19 := stack, x20 := arg, pc := img.retFromFork, sp := taskPtRegs p }
  else
    { CpuContext.zero with pc := img.retFromFork, sp := taskPtRegs p }

/-- The exception frame that `copy_thread` gives a new task whose parent has the frame `parent`. -/
def childFrame (cloneFlags stack : U64) (parent : PtRegs) : PtRegs :=
  if cloneFlags &&& pfKthread ≠ 0#64 then
    { PtRegs.zero with pstate := psrModeEL1h }
  else
    { parent with
      regs := Function.update parent.regs 0 0#64
      sp := if stack ≠ 0#64 then stack else parent.sp }

/-- `copy_thread` writes in the page of `p` only, whatever it returns. -/
theorem agreeOff_copyThread (img : Image) (current : U64) {p : U64} (cloneFlags stack arg : U64)
    {k k' : Kernel} (h : AgreeOff p k k') :
    AgreeOff p k (copyThread img current cloneFlags p stack arg k').2 := by
  have hzero := (h.storePtRegs PtRegs.zero).updTask fun t => { t with cpuContext := CpuContext.zero }
  unfold copyThread
  split
  · dsimp only
    apply AgreeOff.updTask
    apply AgreeOff.updTask
    exact hzero.storePtRegs _
  · split
    · split
      · exact hzero.storePtRegs _
      · dsimp only
        apply AgreeOff.updTask
        apply AgreeOff.storePtRegs
        exact hzero.storePtRegs _
    · dsimp only
      apply AgreeOff.updTask
      exact hzero.storePtRegs _

theorem memMap_copyThread (img : Image) (current p cloneFlags stack arg : U64) (k : Kernel) :
    (copyThread img current cloneFlags p stack arg k).2.memMap = k.memMap := by
  unfold copyThread
  split
  · rfl
  · split
    · split <;> rfl
    · rfl

theorem copyThread_fst (img : Image) (current p cloneFlags stack arg : U64) (k : Kernel) :
    (copyThread img current cloneFlags p stack arg k).1 =
      if StackRefused cloneFlags stack then -1 else 0 := by
  by_cases hkthread : cloneFlags &&& pfKthread = 0#64
  · by_cases hstack : stack = 0#64
    · simp [copyThread, StackRefused, hkthread, hstack]
    · by_cases halign : stack &&& 15#64 = 0#64
      · simp [copyThread, StackRefused, hkthread, hstack, halign]
      · simp [copyThread, StackRefused, hkthread, hstack, halign]
  · simp [copyThread, StackRefused, hkthread]

/-- Where `copy_thread` accepts the stack it fills the frame and the context of `p`. -/
theorem copyThread_accepted (img : Image) {current p : U64} (arg : U64) (k : Kernel)
    {cloneFlags stack : U64} (hp : current ≠ p) (h : ¬ StackRefused cloneFlags stack) :
    copyThread img current cloneFlags p stack arg k =
      (0, { k with
        ptRegs := Function.update k.ptRegs (taskPtRegs p)
          (childFrame cloneFlags stack (k.ptRegs (taskPtRegs current)))
        task := Function.update k.task p
          { k.task p with cpuContext := childContext img p cloneFlags stack arg } }) := by
  have hframe : taskPtRegs current ≠ taskPtRegs p := fun he => hp (taskPtRegs_inj he)
  by_cases hkthread : cloneFlags &&& pfKthread = 0#64
  · by_cases hstack : stack = 0#64
    · simp [copyThread, childFrame, childContext, hkthread, hstack, Kernel.updTask,
        Kernel.storePtRegs, hframe]
    · have halign : stack &&& 15#64 = 0#64 := by
        by_contra halign
        exact h ⟨hkthread, hstack, halign⟩
      simp [copyThread, childFrame, childContext, hkthread, hstack, halign, Kernel.updTask,
        Kernel.storePtRegs, hframe]
  · simp [copyThread, childFrame, childContext, hkthread, Kernel.updTask, Kernel.storePtRegs]

/-! ## The whole call -/

/-- What a successful `do_fork` by the task `current` did: `p` is the new task. -/
structure Forked (img : Image) (current cloneFlags stack arg p : U64) (pid : Nat)
    (k k' : Kernel) : Prop where
  gTask : k'.gTask = Function.update k.gTask pid p
  totalForks : k'.totalForks = k.totalForks + 1
  nrRunning : k'.nrRunning = k.nrRunning + 1
  nrSwitches : k'.nrSwitches = k.nrSwitches
  curr : k'.curr = k.curr
  child : k'.task p =
    { state := .running
      pid := pid
      cpuContext := childContext img p cloneFlags stack arg
      counter := ((k.task current).counter + 1) >>> (1 : Nat)
      priority := 2
      needResched := 0
      preemptCount := 0 }
  parent : k'.task current =
    { k.task current with counter := (k.task current).counter >>> (1 : Nat) }
  other : ∀ q, q ≠ p → q ≠ current → k'.task q = k.task q
  childRegs : k'.ptRegs (taskPtRegs p) =
    childFrame cloneFlags stack (k.ptRegs (taskPtRegs current))
  otherRegs : ∀ q, q ≠ p → k'.ptRegs (taskPtRegs q) = k.ptRegs (taskPtRegs q)
  runList : ∃ h, (∀ n, n ≠ runListOf p → h n = k.runList n) ∧
    k'.runList = listAdd (runListOf p) img.rqHead h
  ring : ∃ h, (∀ q, q ≠ p → h q = k.ring q) ∧ k'.ring = setLinks img p h

theorem runStmts_append (stmts stmts' : List Stmt) (k : Kernel) :
    runStmts (stmts ++ stmts') k = runStmts stmts' (runStmts stmts k) :=
  List.foldl_append

/-- The assignments to `*p` and to `*current`: the new task gets half of the parent's ticks,
rounded up, and the parent keeps the other half. -/
theorem runStmts_initFields {current p : U64} (pid : Nat) (k : Kernel) (hp : current ≠ p) :
    runStmts (initFields current p pid) k =
      { k with
        task := Function.update
          (Function.update k.task p
            { k.task p with
              state := .running
              pid := pid
              counter := ((k.task current).counter + 1) >>> (1 : Nat)
              needResched := 0
              preemptCount := 0
              priority := 2 })
          current { k.task current with counter := (k.task current).counter >>> (1 : Nat) }
        totalForks := k.totalForks + 1
        gTask := Function.update k.gTask pid p } := by
  simp only [runStmts, initFields, List.foldl_cons, List.foldl_nil, Kernel.updTask,
    Function.update_self, Function.update_idem, Function.update_of_ne hp,
    Function.update_of_ne hp.symm, Function.update_comm hp, Int.toNat_natCast]

/-- The statements after `copy_thread`, up to `return pid`. -/
theorem forked_initChild {img : Image} {current cloneFlags stack arg p : U64} {pid : Nat}
    {k k₀ : Kernel} (hp : current ≠ p) (h₀ : AgreeOff p k k₀)
    (hcontext : k₀.task p = { TaskStruct.zero with
      cpuContext := childContext img p cloneFlags stack arg })
    (hframe : k₀.ptRegs (taskPtRegs p) =
      childFrame cloneFlags stack (k.ptRegs (taskPtRegs current))) :
    Forked img current cloneFlags stack arg p pid k
      (wakeUpProcess img p (runStmts (initChild img current p pid) k₀)) := by
  have hcurrent : k₀.task current = k.task current := h₀.task current hp
  -- the links go into the ring, everything before them into the fields
  rw [initChild, runStmts_append, runStmts_onRing, runStmts_initFields pid k₀ hp]
  constructor
  case gTask => simp [wakeUpProcess, enqueueTaskNop, Kernel.updTask, h₀.gTask]
  case totalForks => simp [wakeUpProcess, enqueueTaskNop, Kernel.updTask, h₀.totalForks]
  case nrRunning => simp [wakeUpProcess, enqueueTaskNop, Kernel.updTask, h₀.nrRunning]
  case nrSwitches => simp [wakeUpProcess, enqueueTaskNop, Kernel.updTask, h₀.nrSwitches]
  case curr => simp [wakeUpProcess, enqueueTaskNop, Kernel.updTask, h₀.curr]
  case child =>
    simp [wakeUpProcess, enqueueTaskNop, Kernel.updTask, hp.symm, hcontext, hcurrent]
  case parent => simp [wakeUpProcess, enqueueTaskNop, Kernel.updTask, hp, hcurrent]
  case other =>
    intro q hqp hqc
    simp [wakeUpProcess, enqueueTaskNop, Kernel.updTask, hqp, hqc, h₀.task q hqp]
  case childRegs => exact hframe
  case otherRegs => exact h₀.ptRegs
  case runList => exact ⟨k₀.runList, h₀.runList, rfl⟩
  case ring => exact ⟨k₀.ring, h₀.ring, rfl⟩

/-- `free_page` undoes `get_free_page`. -/
theorem freePage_update {memMap : PageMap} {j : Nat} (hj : j < nrPages) (hfree : memMap j = 0#8) :
    freePage (pageAddr j) (Function.update memMap j 1#8) = memMap := by
  rw [freePage, pageIndex_pageAddr hj, Function.update_idem, ← hfree, Function.update_eq_self]

/-- Why a call of `do_fork` fails: no page, no slot, or a stack that is refused. -/
def ForkFails (cloneFlags stack : U64) (k : Kernel) : Prop :=
  (∀ j, j < nrPages → k.memMap j ≠ 0#8) ∨ (∀ m, m < nrTasks → k.gTask m ≠ 0#64) ∨
    StackRefused cloneFlags stack

/-- The state in which `find_empty_task` and `copy_thread` are called. -/
theorem exists_cleared (j : Nat) (k : Kernel) :
    ∃ k₀, Kernel.memsetTask (pageAddr j)
        { k with memMap := Function.update k.memMap j 1#8 } = k₀ ∧
      AgreeOff (pageAddr j) k k₀ ∧ k₀.memMap = Function.update k.memMap j 1#8 ∧
      k₀.task (pageAddr j) = TaskStruct.zero :=
  ⟨_, rfl, ((AgreeOff.refl _ k).memMap _).memsetTask, rfl, by simp [Kernel.memsetTask]⟩

/-- A call that fails has at most written into a page that is free again. -/
theorem doFork_of_forkFails (img : Image) (current arg : U64) {cloneFlags stack : U64}
    {k : Kernel} (hfails : ForkFails cloneFlags stack k) :
    ∃ k', doFork img current cloneFlags stack arg k = (-1, k') ∧ k'.memMap = k.memMap ∧
      (k' = k ∨ ∃ j, j < nrPages ∧ k.memMap j = 0#8 ∧ AgreeOff (pageAddr j) k k') := by
  rcases getFreePage_cases k.memMap with ⟨j, hj, hfree, -, hget⟩ | ⟨hfull, hget⟩
  · have hne := pageAddr_ne_zero hj
    obtain ⟨k₀, hk₀, hagree, hmap, -⟩ := exists_cleared j k
    rcases findEmptyTask_cases k.gTask with ⟨pid, hpid, hslot, -, hfind⟩ | ⟨hslots, hfind⟩
    · rcases hfails with hfull | hslots | hrefused
      · exact absurd hfree (hfull j hj)
      · exact absurd hslot (hslots pid hpid)
      · have hcopy := copyThread_fst img current (pageAddr j) cloneFlags stack arg k₀
        rw [if_pos hrefused] at hcopy
        have hagree' := agreeOff_copyThread img current cloneFlags stack arg hagree
        have hmap' := memMap_copyThread img current (pageAddr j) cloneFlags stack arg k₀
        refine ⟨_, ?_, ?_, Or.inr ⟨j, hj, hfree, hagree'.memMap k.memMap⟩⟩
        · simp [doFork, hget, hne, hk₀, hagree.gTask, hfind, hcopy, freeTask, hmap', hmap,
            freePage_update hj hfree]
        · rfl
    · refine ⟨{ k₀ with memMap := k.memMap }, ?_, rfl,
        Or.inr ⟨j, hj, hfree, hagree.memMap k.memMap⟩⟩
      simp [doFork, hget, hne, hk₀, hagree.gTask, hfind, hmap, freePage_update hj hfree]
  · refine ⟨k, ?_, rfl, Or.inl rfl⟩
    simp [doFork, hget]

/-- There is no other reason to fail. -/
theorem forkFails_of_doFork (img : Image) {current cloneFlags stack arg : U64} {k : Kernel}
    (hneg : (doFork img current cloneFlags stack arg k).1 < 0) : ForkFails cloneFlags stack k := by
  rcases getFreePage_cases k.memMap with ⟨j, hj, -, -, hget⟩ | ⟨hfull, -⟩
  · rcases findEmptyTask_cases k.gTask with ⟨pid, -, -, -, hfind⟩ | ⟨hslots, -⟩
    · by_cases hrefused : StackRefused cloneFlags stack
      · exact Or.inr (Or.inr hrefused)
      · have hne := pageAddr_ne_zero hj
        have hpos : ¬ (pid : Int) < 0 := by omega
        obtain ⟨k₀, hk₀, hagree, -⟩ := exists_cleared j k
        have hresult : (doFork img current cloneFlags stack arg k).1 = pid := by
          simp [doFork, hget, hne, hk₀, hagree.gTask, hfind, hpos, copyThread_fst, hrefused]
        exact absurd (hresult ▸ hneg) hpos
    · exact Or.inr (Or.inl hslots)
  · exact Or.inl hfull

/-- **The specification of `do_fork`.**  A call fails for want of a page, for want of a slot
or because of the stack, and then changes nothing outside one free page; or it succeeds
with the lowest free page and the lowest free slot. -/
theorem doFork_cases (img : Image) {current : U64} (cloneFlags stack arg : U64) (k : Kernel)
    (hcurrent : NotFree current k) :
    (∃ k', doFork img current cloneFlags stack arg k = (-1, k') ∧ k'.memMap = k.memMap ∧
      (k' = k ∨ ∃ j, j < nrPages ∧ k.memMap j = 0#8 ∧ AgreeOff (pageAddr j) k k') ∧
      ForkFails cloneFlags stack k) ∨
    (∃ j pid k', j < nrPages ∧ k.memMap j = 0#8 ∧
      pid < nrTasks ∧ k.gTask pid = 0#64 ∧ (∀ m, m < pid → k.gTask m ≠ 0#64) ∧
      ¬ StackRefused cloneFlags stack ∧
      doFork img current cloneFlags stack arg k = ((pid : Int), k') ∧
      k'.memMap = Function.update k.memMap j 1#8 ∧
      Forked img current cloneFlags stack arg (pageAddr j) pid k k') := by
  by_cases hfails : ForkFails cloneFlags stack k
  · obtain ⟨k', hfork, hmemMap, hagree⟩ := doFork_of_forkFails img current arg hfails
    exact Or.inl ⟨k', hfork, hmemMap, hagree, hfails⟩
  · obtain ⟨hpage, hslot, hrefused⟩ :
        ¬ (∀ j, j < nrPages → k.memMap j ≠ 0#8) ∧ ¬ (∀ m, m < nrTasks → k.gTask m ≠ 0#64) ∧
          ¬ StackRefused cloneFlags stack := by
      simpa only [ForkFails, not_or] using hfails
    obtain ⟨j, hj, hfree, -, hget⟩ := (getFreePage_cases k.memMap).resolve_right
      fun hnone => hpage hnone.1
    obtain ⟨pid, hpid, hzero, hmin, hfind⟩ := (findEmptyTask_cases k.gTask).resolve_right
      fun hnone => hslot hnone.1
    have hne := pageAddr_ne_zero hj
    have hcur := hcurrent j hj hfree
    obtain ⟨k₀, hk₀, hagree, hmap, htask⟩ := exists_cleared j k
    have hcopy := copyThread_accepted img arg k₀ hcur hrefused
    have hagree' := agreeOff_copyThread img current cloneFlags stack arg hagree
    refine Or.inr ⟨j, pid, _, hj, hfree, hpid, hzero, hmin, hrefused, ?_, ?_,
      forked_initChild hcur hagree' ?_ ?_⟩
    · simp [doFork, hget, hne, hk₀, hagree.gTask, hfind, hcopy]
    · rw [initChild, runStmts_append, runStmts_onRing, runStmts_initFields pid _ hcur]
      exact (memMap_copyThread img current (pageAddr j) cloneFlags stack arg k₀).trans hmap
    · simp [hcopy, htask]
    · simp [hcopy, hagree.ptRegs current hcur]

/-! ## A call that fails -/

/-- Everything that a failed `do_fork` must leave alone: the page map, the task table, the
counters, the heads of the two lists, and all there is of every task that lies in no free
page. -/
structure ForkUndone (img : Image) (k k' : Kernel) : Prop where
  memMap : k'.memMap = k.memMap
  gTask : k'.gTask = k.gTask
  totalForks : k'.totalForks = k.totalForks
  nrRunning : k'.nrRunning = k.nrRunning
  nrSwitches : k'.nrSwitches = k.nrSwitches
  curr : k'.curr = k.curr
  rqHead : k'.runList img.rqHead = k.runList img.rqHead
  initTask : NotFree img.initTask k
  task : ∀ q, NotFree q k → k'.task q = k.task q
  ptRegs : ∀ q, NotFree q k → k'.ptRegs (taskPtRegs q) = k.ptRegs (taskPtRegs q)
  runList : ∀ q, NotFree q k → k'.runList (runListOf q) = k.runList (runListOf q)
  ring : ∀ q, NotFree q k → k'.ring q = k.ring q

theorem notFree_initTask (img : Image) (k : Kernel) : NotFree img.initTask k :=
  fun _ hj _ he => pageAddr_ne_initTask img hj he.symm

theorem ForkUndone.refl (img : Image) (k : Kernel) : ForkUndone img k k := by
  constructor
  case initTask => exact notFree_initTask img k
  all_goals intros; rfl

theorem AgreeOff.forkUndone {k k' : Kernel} {j : Nat} (h : AgreeOff (pageAddr j) k k')
    (img : Image) (hj : j < nrPages) (hfree : k.memMap j = 0#8) (hmemMap : k'.memMap = k.memMap) :
    ForkUndone img k k' where
  memMap := hmemMap
  gTask := h.gTask
  totalForks := h.totalForks
  nrRunning := h.nrRunning
  nrSwitches := h.nrSwitches
  curr := h.curr
  rqHead := h.runList _ (runListOf_pageAddr_ne_rqHead img hj).symm
  initTask := notFree_initTask img k
  task q hq := h.task q (hq j hj hfree)
  ptRegs q hq := h.ptRegs q (hq j hj hfree)
  runList _ hq := h.runList _ fun he => hq j hj hfree (runListOf_inj he)
  ring q hq := h.ring q (hq j hj hfree)

/-- **A failed `do_fork` is undone.**  The call fails for one of its three reasons, and leaves
no trace outside the page that it took and gave back. -/
theorem doFork_failed (img : Image) (current cloneFlags stack arg : U64) (k : Kernel)
    (hfailed : (doFork img current cloneFlags stack arg k).1 = -1) :
    ForkFails cloneFlags stack k ∧
      ForkUndone img k (doFork img current cloneFlags stack arg k).2 := by
  have hfails : ForkFails cloneFlags stack k :=
    forkFails_of_doFork img (by rw [hfailed]; decide)
  refine ⟨hfails, ?_⟩
  obtain ⟨k', hfork, hmemMap, hsame⟩ := doFork_of_forkFails img current arg hfails
  rw [hfork]
  rcases hsame with rfl | ⟨j, hj, hfree, hagree⟩
  · exact ForkUndone.refl img k'
  · exact hagree.forkUndone img hj hfree hmemMap

/-- `init_task` asks for a user task with the stack 8. -/
theorem doFork_failed_stack :
    ForkUndone Image.sample (Kernel.boot Image.sample Kernel.blank)
      (doFork Image.sample Image.sample.initTask 0 8 0
        (Kernel.boot Image.sample Kernel.blank)).2 :=
  (doFork_failed Image.sample Image.sample.initTask 0 8 0 (Kernel.boot Image.sample Kernel.blank)
    (by decide)).2

end Arm64OS
