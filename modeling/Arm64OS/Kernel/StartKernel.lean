import Arm64OS.Kernel.Sched

/-!
# `start_kernel` under timer interrupts

The code that runs once `start_kernel` has enabled interrupts: `init_task` creates its
kernel threads, one statement at a time, and timer interrupts may be taken between any
two statements of the running task.

* `InitPc` is the place of `init_task` in `start_kernel` and `do_fork`.  Functions that
  touch nothing an interrupt handler looks at (`memset` of the new page, the search for a
  slot, `copy_thread`) are one step; the assignments of `do_fork`, `SET_LINKS` and
  `list_add` are one step for each store.
* `Phase` is the place of a task in `preempt_schedule_irq`, called by `el1_irq`.  The
  code that runs with interrupts masked is one step.

`exec_forkSteps` ties the statement steps to `doFork`: without an interrupt they do
what the call does.
-/

namespace Arm64OS

/-- Where `init_task` stands.  `idle` is between two calls of `kernel_thread`, and the loop
of `start_kernel` after the last one. -/
inductive InitPc
  | idle
  | memset (fn p : U64)
  | findEmptyTask (fn p : U64)
  | copyThread (fn p : U64) (pid : Int)
  /-- before statement `n` of `initChild` -/
  | initChild (p : U64) (pid : Int) (n : Nat)
  | setRunning (p : U64) (pid : Int)
  /-- before store `n` of `__list_add`, whose parameter `next` is given -/
  | listAdd (p : U64) (pid : Int) (next : U64) (n : Nat)
  | incNrRunning (p : U64) (pid : Int)
  | freePage (p : U64)

/-- Where a task stands in an `el1_irq` that preempts it. -/
inductive Phase
  /-- in `preempt_schedule_irq`, interrupts enabled, before `__schedule` masks them -/
  | preempting
  /-- switched away from, inside `switch_to` -/
  | switchedOut
  /-- back from `switch_to`, interrupts enabled by `schedule_tail` -/
  | resumed
  deriving DecidableEq

/-- The kernel between two statements. -/
structure Boot where
  k : Kernel
  /-- the running task -/
  current : U64
  pc : InitPc
  /-- the functions of the kernel threads that are still to be created -/
  todo : List U64
  /-- the interrupted activations of every task, innermost first -/
  stack : U64 → List Phase
  /-- the tasks that have run; any other task starts in `ret_from_fork` -/
  started : List U64

/-- What happens next: a timer interrupt, a statement of `init_task`, `__schedule` up to
the `schedule_tail` of the task it switches to, or the rest of `preempt_schedule_irq`.
`garbage` is the value of the uninitialised local of `pick_next_task_nop`. -/
inductive BootOp
  | tick
  | init
  | schedule (garbage : U64)
  | finish
  deriving DecidableEq

/-- `preempt_add`; `preempt_sub` adds the opposite. -/
def preemptAdd (val : Int) (p : U64) (k : Kernel) : Kernel :=
  k.updTask p fun t => { t with preemptCount := t.preemptCount + val }

/-- `irq_handler` for a timer interrupt. -/
def irqHandler (current : U64) (k : Kernel) : Kernel :=
  preemptAdd (-hardirqOffset) current (tickHandlePeriodic current (preemptAdd hardirqOffset current k))

/-- `el1_irq` up to the point where interrupts are enabled again: by its `eret`, or by
`preempt_schedule_irq`. -/
def el1Irq (s : Boot) : Boot :=
  let k := irqHandler s.current s.k
  let t := k.task s.current
  if t.preemptCount ≠ 0 then { s with k := k }
  else if t.needResched = 0 then { s with k := k }
  else
    { s with
      k := preemptAdd 1 s.current k
      stack := Function.update s.stack s.current (.preempting :: s.stack s.current) }

/-- One statement of `init_task`. -/
def initStep (img : Image) (s : Boot) : Boot :=
  match s.pc with
  | .idle =>
      match s.todo with
      | [] => s
      | fn :: todo =>
          let (p, memMap) := getFreePage s.k.memMap
          { s with
            k := { s.k with memMap := memMap }
            todo := todo
            pc := if p = 0#64 then .idle else .memset fn p }
  | .memset fn p => { s with k := s.k.memsetTask p, pc := .findEmptyTask fn p }
  | .findEmptyTask fn p =>
      let pid := findEmptyTask s.k.gTask
      { s with pc := if pid < 0 then .freePage p else .copyThread fn p pid }
  | .copyThread fn p pid =>
      let (err, k) := copyThread img img.initTask pfKthread p fn 0 s.k
      { s with k := k, pc := if err ≠ 0 then .freePage p else .initChild p pid 0 }
  | .initChild p pid n =>
      match (initChild img img.initTask p pid)[n]? with
      | some stmt => { s with k := stmt s.k, pc := .initChild p pid (n + 1) }
      | none => { s with pc := .setRunning p pid }
  | .setRunning p pid =>
      let k := s.k.updTask p fun t => { t with state := .running }
      { s with k := k, pc := .listAdd p pid (k.runList.nextOf img.rqHead) 0 }
  | .listAdd p pid next n =>
      match (listAddStores (runListOf p) img.rqHead next)[n]? with
      | some store => { s with k := onRunList store s.k, pc := .listAdd p pid next (n + 1) }
      | none => { s with pc := .incNrRunning p pid }
  | .incNrRunning _ _ =>
      { s with k := { s.k with nrRunning := s.k.nrRunning + 1 }, pc := .idle }
  | .freePage p =>
      { s with k := { s.k with memMap := freePage p s.k.memMap }, pc := .idle }

/-- A task comes back from `switch_to`, and enables interrupts in `schedule_tail`. -/
def resume : List Phase → List Phase
  | _ :: rest => .resumed :: rest
  | [] => []

/-- A task leaves in `switch_to`. -/
def switchOut : List Phase → List Phase
  | _ :: rest => .switchedOut :: rest
  | [] => []

/-- Some slot of `g_task` holds `p`. -/
def InTable (k : Kernel) (p : U64) : Prop := ∃ i, i < nrTasks ∧ k.gTask i = p

instance (k : Kernel) (p : U64) : Decidable (InTable k p) := by
  unfold InTable
  infer_instance

/-- `__schedule`, from the point where it masks interrupts to the next `schedule_tail`. -/
def scheduleStep (img : Image) (fuel : Nat) (garbage : U64) (s : Boot) : Option Boot := do
  let (picked, k) ← scheduleBefore img fuel s.current s.k
  let next := picked.getD garbage
  if next = s.current then
    some { s with k := k, stack := Function.update s.stack next (resume (s.stack next)) }
  else
    let stack := Function.update s.stack s.current (switchOut (s.stack s.current))
    if next ∈ s.started then
      some { s with
        k := scheduleAfter next k
        current := next
        stack := Function.update stack next (resume (stack next)) }
    else if InTable k next then
      some { s with k := k, current := next, stack := stack, started := next :: s.started }
    else
      none

/-- One step.  Interrupts are enabled wherever a step ends, so `tick` is always possible. -/
def bootStep (img : Image) (fuel : Nat) : BootOp → Boot → Option Boot
  | .tick, s => some (el1Irq s)
  | .init, s =>
      if s.current = img.initTask ∧ s.stack img.initTask = [] then some (initStep img s) else none
  | .schedule garbage, s =>
      match s.stack s.current with
      | .preempting :: _ => scheduleStep img fuel garbage s
      | _ => none
  | .finish, s =>
      match s.stack s.current with
      | .resumed :: rest =>
          some { s with
            k := preemptAdd (-1) s.current s.k
            stack := Function.update s.stack s.current rest }
      | _ => none

/-- `start_kernel` right after `raw_local_irq_enable`, with `sched_init` done and the kernel
threads `fns` to create.  `k` is whatever the rest of memory holds. -/
def Boot.start (img : Image) (fns : List U64) (k : Kernel) : Boot :=
  ⟨Kernel.boot img k, img.initTask, .idle, fns, fun _ => [], [img.initTask]⟩

/-! ## The statements make up the call -/

theorem foldl_take_succ {α β : Type*} {f : β → α → β} {l : List α} {m : Nat} {a : α} (b : β)
    (h : l[m]? = some a) : (l.take (m + 1)).foldl f b = f ((l.take m).foldl f b) a := by
  obtain ⟨hm, rfl⟩ := List.getElem?_eq_some_iff.1 h
  rw [List.take_succ_eq_append_getElem hm, List.foldl_append]
  rfl

/-- The first `m` statements of `initChild`. -/
theorem iterate_initChild (img : Image) (s : Boot) (p : U64) (pid : Int) {m : Nat}
    (hm : m ≤ (initChild img img.initTask p pid).length) :
    (initStep img)^[m] { s with pc := .initChild p pid 0 } =
      { s with
        k := runStmts ((initChild img img.initTask p pid).take m) s.k
        pc := .initChild p pid m } := by
  induction m with
  | zero => rfl
  | succ m ih =>
      have hstmt := List.getElem?_eq_getElem (l := initChild img img.initTask p pid) (i := m) hm
      rw [Function.iterate_succ_apply', ih (by omega), runStmts, runStmts,
        foldl_take_succ s.k hstmt]
      simp only [initStep, hstmt]

/-- The first `m` stores of `list_add`. -/
theorem iterate_listAdd (img : Image) (s : Boot) (p next : U64) (pid : Int) {m : Nat}
    (hm : m ≤ (listAddStores (runListOf p) img.rqHead next).length) :
    (initStep img)^[m] { s with pc := .listAdd p pid next 0 } =
      { s with
        k := { s.k with
          runList := ((listAddStores (runListOf p) img.rqHead next).take m).foldl
            (fun h store => store h) s.k.runList }
        pc := .listAdd p pid next m } := by
  induction m with
  | zero => rfl
  | succ m ih =>
      have hstore := List.getElem?_eq_getElem
        (l := listAddStores (runListOf p) img.rqHead next) (i := m) hm
      rw [Function.iterate_succ_apply', ih (by omega), foldl_take_succ s.k.runList hstore]
      simp only [initStep, hstore, onRunList]

/-- From the end of `copy_thread` to the return of `do_fork`. -/
theorem iterate_initChild_wakeUpProcess (img : Image) (s : Boot) (p : U64) (pid : Int) :
    ∃ n, (initStep img)^[n] { s with pc := .initChild p pid 0 } =
      { s with
        k := wakeUpProcess img p (runStmts (initChild img img.initTask p pid) s.k)
        pc := .idle } := by
  obtain ⟨k', hk'⟩ : ∃ k', runStmts (initChild img img.initTask p pid) s.k = k' := ⟨_, rfl⟩
  have hstmts := iterate_initChild img s p pid (m := 13) le_rfl
  have hall : (initChild img img.initTask p pid).take 13 = initChild img img.initTask p pid :=
    List.take_of_length_le le_rfl
  rw [hall, hk'] at hstmts
  obtain ⟨k'', hk''⟩ : ∃ k'', k'.updTask p (fun t => { t with state := .running }) = k'' := ⟨_, rfl⟩
  -- past the last statement, then `p->state = TASK_RUNNING`
  have hrunning : (initStep img)^[2] { s with k := k', pc := .initChild p pid 13 } =
      { s with k := k'', pc := .listAdd p pid (k''.runList.nextOf img.rqHead) 0 } := by
    rw [← hk'']
    rfl
  have hlist := iterate_listAdd img { s with k := k'' } p (k''.runList.nextOf img.rqHead) pid
    (m := 4) le_rfl
  refine ⟨2 + (4 + (2 + 13)), ?_⟩
  rw [Function.iterate_add_apply, Function.iterate_add_apply, Function.iterate_add_apply, hstmts,
    hrunning, hlist, hk', wakeUpProcess, hk'']
  rfl

/-- Without an interrupt, the steps of `init_task` between two calls are one call of
`kernel_thread`. -/
theorem exec_forkSteps (img : Image) (s : Boot) {fn : U64} {todo : List U64}
    (hpc : s.pc = .idle) (htodo : s.todo = fn :: todo) :
    ∃ n, (initStep img)^[n] s =
      { s with k := (kernelThread img img.initTask fn 0 0 s.k).2, todo := todo } := by
  obtain ⟨k, current, pc, todo', stack, started⟩ := s
  obtain rfl : pc = .idle := hpc
  obtain rfl : todo' = fn :: todo := htodo
  rcases getFreePage_cases k.memMap with ⟨j, hj, -, -, hget⟩ | ⟨-, hget⟩
  · have hne := pageAddr_ne_zero hj
    obtain ⟨k₀, hk₀, hagree, -⟩ := exists_cleared j k
    have htable := hagree.gTask
    have haccepted : ¬ StackRefused pfKthread fn := fun hrefused => absurd hrefused.1 (by decide)
    obtain ⟨k₁, hcopy⟩ : ∃ k₁,
        copyThread img img.initTask pfKthread (pageAddr j) fn 0#64 k₀ = (0, k₁) :=
      ⟨_, copyThread_accepted img 0#64 k₀ (pageAddr_ne_initTask img hj).symm haccepted⟩
    rcases findEmptyTask_cases k.gTask with ⟨pid, -, -, -, hfind⟩ | ⟨-, hfind⟩
    · have hpos : ¬ (pid : Int) < 0 := by omega
      have hfour : (initStep img)^[4] ⟨k, current, .idle, fn :: todo, stack, started⟩ =
          ⟨k₁, current, .initChild (pageAddr j) pid 0, todo, stack, started⟩ := by
        simp [initStep, hget, hne, hk₀, htable, hfind, hpos, hcopy]
      obtain ⟨n, hn⟩ := iterate_initChild_wakeUpProcess img
        ⟨k₁, current, .idle, todo, stack, started⟩ (pageAddr j) pid
      refine ⟨n + 4, ?_⟩
      rw [Function.iterate_add_apply, hfour]
      refine Eq.trans hn ?_
      simp [kernelThread, doFork, hget, hne, hk₀, htable, hfind, hpos, hcopy]
    · refine ⟨4, ?_⟩
      have hmap : { k₀ with memMap := freePage (pageAddr j) k₀.memMap } =
          (kernelThread img img.initTask fn 0 0 k).2 := by
        simp [kernelThread, doFork, hget, hne, hk₀, htable, hfind]
      rw [← hmap]
      simp [initStep, hget, hne, hk₀, htable, hfind]
  · refine ⟨1, ?_⟩
    simp [initStep, hget, kernelThread, doFork]

end Arm64OS
