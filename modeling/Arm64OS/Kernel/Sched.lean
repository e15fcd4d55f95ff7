import Arm64OS.Kernel.SchedNop
import Arm64OS.Lib.Run

/-!
# `__schedule` and the task machine

`kernel/sched.c`, and the machine whose steps are whole calls of `do_fork`, of
`tick_handle_periodic` and of `__schedule`.

`__schedule` is cut at `switch_to`: `scheduleBefore` is run by the task that leaves,
`scheduleAfter` by the task that comes back from a `switch_to` of its own.  A task
that has never run comes out in `ret_from_fork` instead.

`Consistent` ties the task table, the task ring and the run queue to the list of
forked tasks; `consistent_step` is the step lemma.
-/

namespace Arm64OS

/-- `tick_handle_periodic`, interrupting the task `current`. -/
def tickHandlePeriodic (current : U64) (k : Kernel) : Kernel := taskTickNop current k

/-- `__schedule` up to the test `next != prev`: the task picked and the state after it. -/
def scheduleBefore (img : Image) (fuel : Nat) (prev : U64) (k : Kernel) :
    Option (Option U64 × Kernel) := do
  let k := if (k.task prev).state ≠ .running then dequeueTaskNop prev k else k
  let (next, k) ← pickNextTaskNop img fuel k
  some (next, k.updTask prev fun t => { t with needResched := 0 })

/-- `__schedule` after its `switch_to` has returned in the task `current`. -/
def scheduleAfter (current : U64) (k : Kernel) : Kernel :=
  { k with
    nrSwitches := k.nrSwitches + 1
    curr := current }

/-- Before its `switch_to`, `__schedule` may deal out new ticks, and takes the mark off the task
that leaves.  It picks a task of the queue if there is one. -/
theorem scheduleBefore_cases {img : Image} {fuel : Nat} {prev : U64} {ps tasks : List U64}
    {k : Kernel} (hrunning : (k.task prev).state = .running)
    (hqueue : listForEach fuel img.rqHead k.runList = some (ps.map runListOf))
    (hring : forEachTask img fuel k = some tasks) (hfuel : 2 ≤ fuel)
    (hsub : ∀ p ∈ ps, p ∈ tasks) (hcounter : ∀ p ∈ ps, 0 ≤ (k.task p).counter)
    (hpriority : ∀ p ∈ ps, 0 ≤ (k.task p).priority) :
    ∃ picked k', scheduleBefore img fuel prev k =
        some (picked, k'.updTask prev fun t => { t with needResched := 0 }) ∧
      (k' = k ∨ k' = tasks.foldl resetCounter k) ∧
      (ps = [] ∧ picked = none ∨ ∃ p ∈ ps, picked = some p) := by
  by_cases hempty : ps = []
  · subst hempty
    refine ⟨none, k, ?_, Or.inl rfl, Or.inl ⟨rfl, rfl⟩⟩
    simp [scheduleBefore, hrunning, pickNextTaskNop_nil hqueue hfuel]
  · obtain ⟨p, k', hpick, -, hmax, heffect⟩ :=
      pickRepeat_cons hqueue hring hempty hsub hcounter hpriority
    obtain ⟨rounds, hrounds⟩ := @pickNextTaskNop_eq_pickRepeat img fuel k hfuel
    have hk' : k' = k ∨ k' = tasks.foldl resetCounter k :=
      heffect.imp And.left And.right
    refine ⟨some p, k', ?_, hk', Or.inr ⟨p, hmax.mem, rfl⟩⟩
    simp [scheduleBefore, hrunning, hrounds, hpick]

/-- The kernel between two calls.  `forked` is history: the new tasks of all successful
`do_fork` calls, oldest first. -/
structure Sys where
  k : Kernel
  /-- the running task -/
  current : U64
  forked : List U64
  /-- the forked tasks that have not run yet -/
  fresh : List U64

/-- A call.  `do_fork` may be called by any task; `garbage` is the value that the
uninitialised local of `pick_next_task_nop` happens to have. -/
inductive SysOp
  | doFork (caller cloneFlags stack arg : U64)
  | tick
  | schedule (garbage : U64)
  deriving DecidableEq

/-- `init_task` and the forked tasks. -/
def Sys.tasks (img : Image) (s : Sys) : List U64 := img.initTask :: s.forked

/-- One call.  A `switch_to` to an address that is no task has no next state. -/
def sysStep (img : Image) (fuel : Nat) : SysOp → Sys → Option Sys
  | .doFork caller cloneFlags stack arg, s =>
      if caller ∈ s.tasks img then
        let (pid, k) := doFork img caller cloneFlags stack arg s.k
        if pid < 0 then
          some { s with k := k }
        else
          let p := k.gTask pid.toNat
          some { s with k := k, forked := s.forked ++ [p], fresh := s.fresh ++ [p] }
      else
        none
  | .tick, s => some { s with k := tickHandlePeriodic s.current s.k }
  | .schedule garbage, s => do
      let (picked, k) ← scheduleBefore img fuel s.current s.k
      let next := picked.getD garbage
      if next = s.current then
        some { s with k := k }
      else if next ∈ s.fresh then
        some { s with k := k, current := next, fresh := s.fresh.erase next }
      else if next ∈ s.tasks img then
        some { s with k := scheduleAfter next k, current := next }
      else
        none

/-- `start_kernel` with `sched_init` done: `init_task` runs, and no page is handed out to a
task yet.  `k` is whatever the rest of memory holds. -/
def Sys.boot (img : Image) (k : Kernel) : Sys := ⟨Kernel.boot img k, img.initTask, [], []⟩

/-- The task table, the task ring and the run queue all describe the forked tasks. -/
structure Consistent (img : Image) (s : Sys) : Prop where
  page : ∀ p ∈ s.forked, ∃ i, i < nrPages ∧ p = pageAddr i ∧ s.k.memMap i ≠ 0#8
  length : s.forked.length < nrTasks
  queue : s.k.runList.IsList img.rqHead (s.forked.reverse.map runListOf)
  nrRunning : s.k.nrRunning = BitVec.ofNat 32 s.forked.length
  ring : s.k.ring.IsList img.initTask s.forked
  totalForks : s.k.totalForks = BitVec.ofNat 64 s.forked.length
  gTask : ∀ i, s.k.gTask i = (s.tasks img)[i]?.getD 0#64
  pid : ∀ (i : Nat) p, (s.tasks img)[i]? = some p → (s.k.task p).pid = i
  current : s.current ∈ s.tasks img
  fresh : ∀ p ∈ s.fresh, p ∈ s.forked
  state : ∀ p ∈ s.tasks img, (s.k.task p).state = .running
  counter : ∀ p ∈ s.tasks img, 0 ≤ (s.k.task p).counter
  priority : ∀ p ∈ s.forked, (s.k.task p).priority = 2

theorem consistent_boot (img : Image) (k : Kernel) : Consistent img (Sys.boot img k) := by
  constructor
  case queue => exact isList_initListHead img.rqHead k.runList
  case ring =>
    refine Ring.isRing_nil ?_ ?_
    · simp [Sys.boot, Kernel.boot, schedInit, ListHeap.nextOf]
    · simp [Sys.boot, Kernel.boot, schedInit, ListHeap.prevOf]
  case gTask =>
    intro i
    cases i with
    | zero => simp [Sys.boot, Kernel.boot, schedInit, Sys.tasks]
    | succ i => simp [Sys.boot, Kernel.boot, schedInit, Sys.tasks]
  case pid =>
    intro i p hp
    cases i with
    | zero =>
        obtain rfl : img.initTask = p := by simpa [Sys.tasks] using hp
        simp [Sys.boot, Kernel.boot, schedInit, Kernel.initTaskStruct]
    | succ i => simp [Sys.boot, Sys.tasks] at hp
  all_goals simp [Sys.boot, Sys.tasks, Kernel.boot, schedInit, Kernel.initTaskStruct, nrTasks,
    defCounter, hz]

/-! ## What a step keeps -/

variable {img : Image} {fuel : Nat} {s s' : Sys}

theorem Sys.mem_tasks_of_forked {p : U64} (hp : p ∈ s.forked) : p ∈ s.tasks img :=
  List.mem_cons_of_mem _ hp

theorem Consistent.nodup (h : Consistent img s) : (s.tasks img).Nodup := h.ring.nodup

theorem Consistent.ne_pageAddr (h : Consistent img s) {p : U64} (hp : p ∈ s.tasks img) {j : Nat}
    (hj : j < nrPages) (hfree : s.k.memMap j = 0#8) : p ≠ pageAddr j := by
  rintro rfl
  rcases List.mem_cons.1 hp with hinit | hforked
  · exact pageAddr_ne_initTask img hj hinit
  · obtain ⟨i, hi, hij, hused⟩ := h.page _ hforked
    obtain rfl : j = i := pageAddr_inj hj hi hij
    exact hused hfree

theorem Consistent.mem_queue {p : U64} (hp : p ∈ s.forked) :
    runListOf p ∈ s.forked.reverse.map runListOf :=
  List.mem_map_of_mem (List.mem_reverse.2 hp)

/-- The frame rule: what the three structures are made of is untouched, and the tasks keep
their states, their identifiers and their priorities. -/
theorem Consistent.frame (h : Consistent img s) {k' : Kernel}
    (hmemMap : k'.memMap = s.k.memMap) (hgTask : k'.gTask = s.k.gTask)
    (htotalForks : k'.totalForks = s.k.totalForks) (hnrRunning : k'.nrRunning = s.k.nrRunning)
    (hrunList : ∀ n ∈ img.rqHead :: s.forked.reverse.map runListOf, k'.runList n = s.k.runList n)
    (hring : ∀ p ∈ s.tasks img, k'.ring p = s.k.ring p)
    (hpid : ∀ p ∈ s.tasks img, (k'.task p).pid = (s.k.task p).pid)
    (hstate : ∀ p ∈ s.tasks img, (k'.task p).state = (s.k.task p).state)
    (hpriority : ∀ p ∈ s.tasks img, (k'.task p).priority = (s.k.task p).priority)
    (hcounter : ∀ p ∈ s.tasks img, 0 ≤ (k'.task p).counter) :
    Consistent img { s with k := k' } where
  page := by
    intro p hp
    obtain ⟨i, hi, hpi, hused⟩ := h.page p hp
    exact ⟨i, hi, hpi, by rw [hmemMap]; exact hused⟩
  length := h.length
  queue := h.queue.congr
    (fun n hn => by simp [ListHeap.nextOf, hrunList n hn])
    (fun n hn => by simp [ListHeap.prevOf, hrunList n hn])
  nrRunning := hnrRunning.trans h.nrRunning
  ring := h.ring.congr
    (fun n hn => by simp [ListHeap.nextOf, hring n hn])
    (fun n hn => by simp [ListHeap.prevOf, hring n hn])
  totalForks := htotalForks.trans h.totalForks
  gTask i := by
    rw [hgTask]
    exact h.gTask i
  pid i p hp := (hpid p (List.mem_of_getElem? hp)).trans (h.pid i p hp)
  current := h.current
  fresh := h.fresh
  state p hp := (hstate p hp).trans (h.state p hp)
  counter := hcounter
  priority p hp := (hpriority p (Sys.mem_tasks_of_forked hp)).trans (h.priority p hp)

/-- A change of one task that keeps its identity and gives it no negative counter. -/
theorem Consistent.updTask (h : Consistent img s) {p : U64} {f : TaskStruct → TaskStruct}
    (hpid : ∀ t, (f t).pid = t.pid) (hstate : ∀ t, (f t).state = t.state)
    (hpriority : ∀ t, (f t).priority = t.priority)
    (hcounter : 0 ≤ (s.k.task p).counter → 0 ≤ (f (s.k.task p)).counter) :
    Consistent img { s with k := s.k.updTask p f } := by
  refine h.frame rfl rfl rfl rfl (fun _ _ => rfl) (fun _ _ => rfl) ?_ ?_ ?_ ?_
  all_goals
    intro q hq
    by_cases hqp : q = p
    · subst hqp
      simp [Kernel.updTask, hpid, hstate, hpriority, hcounter (h.counter q hq)]
    · simp [Kernel.updTask, hqp, h.counter q hq]

theorem eq_of_tick (hstep : sysStep img fuel .tick s = some s') :
    { s with k := tickHandlePeriodic s.current s.k } = s' := by
  simpa [sysStep] using hstep

theorem consistent_tick (h : Consistent img s) (hstep : sysStep img fuel .tick s = some s') :
    Consistent img s' := by
  obtain rfl := eq_of_tick hstep
  rw [tickHandlePeriodic, taskTickNop_eq]
  refine h.updTask ?_ ?_ ?_ fun _ => counter_tickTask _
  all_goals
    intro t
    rw [tickTask]
    split <;> rfl

/-- The links of a free page are on neither list. -/
theorem Consistent.notMem_queue (h : Consistent img s) {j : Nat} (hj : j < nrPages)
    (hfree : s.k.memMap j = 0#8) :
    runListOf (pageAddr j) ∉ img.rqHead :: s.forked.reverse.map runListOf := by
  intro hmem
  rcases List.mem_cons.1 hmem with hhead | hqueue
  · exact runListOf_pageAddr_ne_rqHead img hj hhead
  · obtain ⟨p, hp, hpj⟩ := List.mem_map.1 hqueue
    have hforked : p ∈ s.forked := List.mem_reverse.1 hp
    exact h.ne_pageAddr (Sys.mem_tasks_of_forked hforked) hj hfree (runListOf_inj hpj)

theorem Consistent.task_ne_zero (h : Consistent img s) {p : U64} (hp : p ∈ s.tasks img) :
    p ≠ 0#64 := by
  rcases List.mem_cons.1 hp with rfl | hforked
  · exact img.initTask_ne_zero
  · obtain ⟨i, hi, rfl, -⟩ := h.page p hforked
    exact pageAddr_ne_zero hi

/-- `find_empty_task` gives the next process identifier. -/
theorem Consistent.pid_eq (h : Consistent img s) {pid : Nat} (hzero : s.k.gTask pid = 0#64)
    (hmin : ∀ m, m < pid → s.k.gTask m ≠ 0#64) : pid = s.forked.length + 1 := by
  have hlength : (s.tasks img).length = s.forked.length + 1 := by simp [Sys.tasks]
  -- Every slot below holds a task, and the slot itself is empty.
  rcases Nat.lt_trichotomy pid (s.forked.length + 1) with hlt | heq | hgt
  · have hin : pid < (s.tasks img).length := by omega
    rw [h.gTask pid, List.getElem?_eq_getElem hin, Option.getD_some] at hzero
    exact absurd hzero (h.task_ne_zero (List.getElem_mem hin))
  · exact heq
  · refine absurd ?_ (hmin (s.forked.length + 1) hgt)
    rw [h.gTask, List.getElem?_eq_none (by omega), Option.getD_none]

/-! ### A successful fork -/

section ForkedTask

variable {caller cloneFlags stack arg : U64} {j pid : Nat} {k' : Kernel}

/-- The scalar fields of an old task: only the caller's counter changes. -/
theorem Forked.task_of_ne {p q : U64} {k : Kernel}
    (hfork : Forked img caller cloneFlags stack arg p pid k k') (hq : q ≠ p) :
    ∃ c, (0 ≤ (k.task q).counter → 0 ≤ c) ∧ k'.task q = { k.task q with counter := c } := by
  by_cases hqc : q = caller
  · subst hqc
    exact ⟨_, Int.le_shiftRight_of_nonneg, hfork.parent⟩
  · exact ⟨_, id, hfork.other q hq hqc⟩

variable (h : Consistent img s) (hj : j < nrPages) (hfree : s.k.memMap j = 0#8)
  (hfork : Forked img caller cloneFlags stack arg (pageAddr j) pid s.k k')

include h hj

theorem Consistent.page_forked (hfree : s.k.memMap j = 0#8)
    (hmemMap : k'.memMap = Function.update s.k.memMap j 1#8) :
    ∀ p ∈ s.forked ++ [pageAddr j], ∃ i, i < nrPages ∧ p = pageAddr i ∧ k'.memMap i ≠ 0#8 := by
  intro p hp
  rcases List.mem_append.1 hp with hp | hp
  · obtain ⟨i, hi, hpi, hused⟩ := h.page p hp
    refine ⟨i, hi, hpi, ?_⟩
    have hij : i ≠ j := by
      rintro rfl
      exact hused hfree
    simpa [hmemMap, hij] using hused
  · exact ⟨j, hj, by simpa using hp, by simp [hmemMap]⟩

include hfree hfork

/-- The new task is the first of the run queue. -/
theorem Consistent.queue_forked :
    k'.runList.IsList img.rqHead ((s.forked ++ [pageAddr j]).reverse.map runListOf) := by
  obtain ⟨heap, hheap, hrun⟩ := hfork.runList
  have hout := h.notMem_queue hj hfree
  have hne : ∀ n ∈ img.rqHead :: s.forked.reverse.map runListOf, n ≠ runListOf (pageAddr j) :=
    fun n hn he => hout (he ▸ hn)
  have hold : heap.IsList img.rqHead (s.forked.reverse.map runListOf) := h.queue.congr
    (fun n hn => by simp [ListHeap.nextOf, hheap n (hne n hn)])
    (fun n hn => by simp [ListHeap.prevOf, hheap n (hne n hn)])
  simpa [hrun] using isList_listAdd hold hout

/-- It is the last of the task ring. -/
theorem Consistent.ring_forked : k'.ring.IsList img.initTask (s.forked ++ [pageAddr j]) := by
  obtain ⟨heap, hheap, hring⟩ := hfork.ring
  have hold : ∀ p ∈ s.tasks img, p ≠ pageAddr j := fun p hp => h.ne_pageAddr hp hj hfree
  have hnew : pageAddr j ∉ s.tasks img := fun hmem => hold _ hmem rfl
  have hold' : heap.IsList img.initTask s.forked := h.ring.congr
    (fun n hn => by simp [ListHeap.nextOf, hheap n (hold n hn)])
    (fun n hn => by simp [ListHeap.prevOf, hheap n (hold n hn)])
  simpa [hring] using isList_setLinks hold' hnew

/-- The task at a place of the table behind the fork: an old one, or the child behind them. -/
theorem Consistent.task_forked {p : U64} (hp : p ∈ s.tasks img ++ [pageAddr j]) :
    (p ∈ s.tasks img ∧ ∃ c, (0 ≤ (s.k.task p).counter → 0 ≤ c) ∧
      k'.task p = { s.k.task p with counter := c }) ∨
    p = pageAddr j := by
  rcases List.mem_append.1 hp with hp | hp
  · exact Or.inl ⟨hp, hfork.task_of_ne (h.ne_pageAddr hp hj hfree)⟩
  · exact Or.inr (List.mem_singleton.1 hp)

omit hj hfree in
/-- The table gets the new task behind the others. -/
theorem Consistent.gTask_forked (hpid : pid = s.forked.length + 1) (i : Nat) :
    k'.gTask i = (s.tasks img ++ [pageAddr j])[i]?.getD 0#64 := by
  have hlength : (s.tasks img).length = pid := by simp [Sys.tasks, hpid]
  rw [hfork.gTask]
  by_cases hi : i = pid
  · subst hi
    simp [← hlength]
  · rw [Function.update_of_ne hi, h.gTask i]
    by_cases hlt : i < (s.tasks img).length
    · rw [List.getElem?_append_left hlt]
    · rw [List.getElem?_eq_none (by omega), List.getElem?_eq_none (by simp; omega)]

/-- And its number. -/
theorem Consistent.pid_forked (hpid : pid = s.forked.length + 1) {i : Nat} {p : U64}
    (hp : (s.tasks img ++ [pageAddr j])[i]? = some p) : (k'.task p).pid = i := by
  have hlength : (s.tasks img).length = pid := by simp [Sys.tasks, hpid]
  by_cases hlt : i < (s.tasks img).length
  · rw [List.getElem?_append_left hlt] at hp
    have hmem := List.mem_of_getElem? hp
    obtain ⟨c, -, htp⟩ := hfork.task_of_ne (h.ne_pageAddr hmem hj hfree)
    rw [htp]
    exact h.pid i p hp
  · have hi : i = pid := by
      obtain ⟨hlt', -⟩ := List.getElem?_eq_some_iff.1 hp
      simp at hlt'
      omega
    subst hi
    obtain rfl : pageAddr j = p := by simpa [← hlength] using hp
    rw [hfork.child]

/-- A successful fork links the new task into all three structures. -/
theorem Consistent.forked (hcaller : caller ∈ s.tasks img) (hpid : pid < nrTasks)
    (hpid' : pid = s.forked.length + 1)
    (hmemMap : k'.memMap = Function.update s.k.memMap j 1#8) :
    Consistent img
      { s with k := k', forked := s.forked ++ [pageAddr j], fresh := s.fresh ++ [pageAddr j] } where
  page := h.page_forked hj hfree hmemMap
  length := by
    simp only [List.length_append, List.length_singleton]
    omega
  queue := h.queue_forked hj hfree hfork
  nrRunning := by simp [hfork.nrRunning, h.nrRunning, BitVec.ofNat_add]
  ring := h.ring_forked hj hfree hfork
  totalForks := by simp [hfork.totalForks, h.totalForks, BitVec.ofNat_add]
  gTask := h.gTask_forked hfork hpid'
  pid _ _ := h.pid_forked hj hfree hfork hpid'
  current := List.mem_append_left _ h.current
  fresh p hp := by
    rcases List.mem_append.1 hp with hp | hp
    · exact List.mem_append_left _ (h.fresh p hp)
    · exact List.mem_append_right _ hp
  state p hp := by
    rcases h.task_forked hj hfree hfork hp with ⟨hold, c, -, htp⟩ | rfl
    · show (k'.task p).state = _
      rw [htp]
      exact h.state p hold
    · show (k'.task (pageAddr j)).state = _
      rw [hfork.child]
  counter p hp := by
    rcases h.task_forked hj hfree hfork hp with ⟨hold, c, hc, htp⟩ | rfl
    · show 0 ≤ (k'.task p).counter
      rw [htp]
      exact hc (h.counter p hold)
    · have hpos := h.counter caller hcaller
      show 0 ≤ (k'.task (pageAddr j)).counter
      rw [hfork.child]
      exact Int.le_shiftRight_of_nonneg (by omega)
  priority p hp := by
    rcases List.mem_append.1 hp with hp | hp
    · have hne := h.ne_pageAddr (Sys.mem_tasks_of_forked hp) hj hfree
      obtain ⟨c, -, htp⟩ := hfork.task_of_ne hne
      show (k'.task p).priority = _
      rw [htp]
      exact h.priority p hp
    · obtain rfl := List.mem_singleton.1 hp
      show (k'.task (pageAddr j)).priority = _
      rw [hfork.child]

end ForkedTask

/-- The two outcomes of a `do_fork` step.  A call that fails has at most written into a page that
is free again. -/
theorem Consistent.doFork_cases {caller cloneFlags stack arg : U64} (h : Consistent img s)
    (hstep : sysStep img fuel (.doFork caller cloneFlags stack arg) s = some s') :
    (∃ k', s' = { s with k := k' } ∧ k'.memMap = s.k.memMap ∧
      (k' = s.k ∨ ∃ j, j < nrPages ∧ s.k.memMap j = 0#8 ∧ AgreeOff (pageAddr j) s.k k')) ∨
    ∃ j pid k', s' =
        { s with k := k', forked := s.forked ++ [pageAddr j], fresh := s.fresh ++ [pageAddr j] } ∧
      caller ∈ s.tasks img ∧ j < nrPages ∧ s.k.memMap j = 0#8 ∧
      pid < nrTasks ∧ s.k.gTask pid = 0#64 ∧ (∀ m, m < pid → s.k.gTask m ≠ 0#64) ∧
      k'.memMap = Function.update s.k.memMap j 1#8 ∧
      Forked img caller cloneFlags stack arg (pageAddr j) pid s.k k' := by
  by_cases hcaller : caller ∈ s.tasks img
  · rcases Arm64OS.doFork_cases img cloneFlags stack arg s.k
      (fun j hj hfree => h.ne_pageAddr hcaller hj hfree)
      with ⟨k', hfork, hmemMap, hsame, -⟩ | ⟨j, pid, k', hj, hfree, hpid, hzero, hmin, -, hfork,
        hmemMap, hforked⟩
    · obtain rfl : { s with k := k' } = s' := by simpa [sysStep, hcaller, hfork] using hstep
      exact Or.inl ⟨k', rfl, hmemMap, hsame⟩
    · have hchild : k'.gTask pid = pageAddr j := by simp [hforked.gTask]
      have hpos : ¬ (pid : Int) < 0 := by omega
      obtain rfl : { s with
          k := k', forked := s.forked ++ [pageAddr j], fresh := s.fresh ++ [pageAddr j] } = s' := by
        simpa [sysStep, hcaller, hfork, hchild, hpos] using hstep
      exact Or.inr ⟨j, pid, k', rfl, hcaller, hj, hfree, hpid, hzero, hmin, hmemMap, hforked⟩
  · simp [sysStep, hcaller] at hstep

theorem consistent_doFork {caller cloneFlags stack arg : U64} (h : Consistent img s)
    (hstep : sysStep img fuel (.doFork caller cloneFlags stack arg) s = some s') :
    Consistent img s' := by
  rcases h.doFork_cases hstep with ⟨k', rfl, hmemMap, hsame⟩ |
    ⟨j, pid, k', rfl, hcaller, hj, hfree, hpid, hzero, hmin, hmemMap, hforked⟩
  · rcases hsame with rfl | ⟨j, hj, hfree, hagree⟩
    · exact h
    · have hold : ∀ p ∈ s.tasks img, p ≠ pageAddr j := fun p hp => h.ne_pageAddr hp hj hfree
      refine h.frame hmemMap hagree.gTask hagree.totalForks hagree.nrRunning ?_
        (fun p hp => hagree.ring p (hold p hp)) ?_ ?_ ?_ ?_
      · intro n hn
        exact hagree.runList n fun he => h.notMem_queue hj hfree (he ▸ hn)
      all_goals
        intro p hp
        rw [hagree.task p (hold p hp)]
      exact h.counter p hp
  · exact h.forked hj hfree hforked hcaller hpid (h.pid_eq hzero hmin) hmemMap

theorem Consistent.listForEach (h : Consistent img s) (hfuel : nrTasks ≤ fuel) :
    listForEach fuel img.rqHead s.k.runList = some (s.forked.reverse.map runListOf) := by
  have hlength := h.length
  exact listForEach_eq h.queue (by simp; omega)

theorem Consistent.forEachTask (h : Consistent img s) (hfuel : nrTasks ≤ fuel) :
    forEachTask img fuel s.k = some s.forked := by
  have hlength := h.length
  exact listForEach_eq h.ring (by omega)

theorem Consistent.scheduleBefore_cases (h : Consistent img s) (hfuel : nrTasks ≤ fuel) :
    ∃ picked k', Arm64OS.scheduleBefore img fuel s.current s.k =
        some (picked, k'.updTask s.current fun t => { t with needResched := 0 }) ∧
      (k' = s.k ∨ k' = s.forked.foldl resetCounter s.k) ∧
      (s.forked = [] ∧ picked = none ∨ ∃ p ∈ s.forked, picked = some p) := by
  have hmem : ∀ p ∈ s.forked.reverse, p ∈ s.forked := fun p hp => List.mem_reverse.1 hp
  obtain ⟨picked, k', hbefore, hk', hpicked⟩ := Arm64OS.scheduleBefore_cases
    (h.state s.current h.current) (h.listForEach hfuel) (h.forEachTask hfuel)
    (Nat.le_trans (by decide) hfuel) hmem
    (fun p hp => h.counter p (Sys.mem_tasks_of_forked (hmem p hp)))
    (fun p hp => by rw [h.priority p (hmem p hp)]; decide)
  refine ⟨picked, k', hbefore, hk', ?_⟩
  rcases hpicked with ⟨hempty, hnone⟩ | ⟨p, hp, hsome⟩
  · exact Or.inl ⟨List.reverse_eq_nil_iff.1 hempty, hnone⟩
  · exact Or.inr ⟨p, hmem p hp, hsome⟩

/-- `__schedule` comes to its `switch_to`, and picks a forked task if there is one. -/
theorem Consistent.scheduleBefore (h : Consistent img s) (hfuel : nrTasks ≤ fuel) :
    ∃ picked k', scheduleBefore img fuel s.current s.k = some (picked, k') ∧
      Consistent img { s with k := k' } ∧ k'.runList = s.k.runList ∧
      (s.forked = [] ∧ picked = none ∨ ∃ p ∈ s.forked, picked = some p) := by
  obtain ⟨picked, k', hbefore, hk', hpicked⟩ := h.scheduleBefore_cases hfuel
  have hreset : Consistent img { s with k := k' } ∧ k'.runList = s.k.runList := by
    rcases hk' with rfl | rfl
    · exact ⟨h, rfl⟩
    · rw [foldl_resetCounter]
      refine ⟨h.frame rfl rfl rfl rfl (fun _ _ => rfl) (fun _ _ => rfl) ?_ ?_ ?_ ?_, rfl⟩
      all_goals
        intro r hr
        by_cases hrf : r ∈ s.forked
        · have hdef : defCounter = 25 := rfl
          simp [hrf, h.priority r hrf, hdef]
        · simp [hrf, h.counter r hr]
  have hclear : Consistent img
      { s with k := k'.updTask s.current fun t => { t with needResched := 0 } } :=
    hreset.1.updTask (fun _ => rfl) (fun _ => rfl) (fun _ => rfl) id
  exact ⟨picked, _, hbefore, hclear, hreset.2, hpicked⟩

/-- `__schedule` from its `switch_to` on: no switch, the first run of a task, or a return from its
own `switch_to`. -/
theorem sysStep_schedule_cases {garbage : U64} {picked : Option U64} {k : Kernel}
    (hbefore : scheduleBefore img fuel s.current s.k = some (picked, k))
    (hstep : sysStep img fuel (.schedule garbage) s = some s') :
    (picked.getD garbage = s.current ∧ s' = { s with k := k }) ∨
      (picked.getD garbage ≠ s.current ∧ picked.getD garbage ∈ s.fresh ∧
        s' = { s with
          k := k, current := picked.getD garbage, fresh := s.fresh.erase (picked.getD garbage) }) ∨
      (picked.getD garbage ≠ s.current ∧ picked.getD garbage ∉ s.fresh ∧
        picked.getD garbage ∈ s.tasks img ∧
        s' = { s with
          k := scheduleAfter (picked.getD garbage) k, current := picked.getD garbage }) := by
  simp only [sysStep, hbefore, Option.bind_eq_bind, Option.bind_some] at hstep
  split at hstep
  case isTrue hstay => exact Or.inl ⟨hstay, (Option.some.inj hstep).symm⟩
  case isFalse hswitch =>
    split at hstep
    case isTrue hfresh =>
      exact Or.inr (Or.inl ⟨hswitch, hfresh, (Option.some.inj hstep).symm⟩)
    case isFalse hseasoned =>
      split at hstep
      case isTrue hlive =>
        exact Or.inr (Or.inr ⟨hswitch, hseasoned, hlive, (Option.some.inj hstep).symm⟩)
      case isFalse hdead => exact absurd hstep (by simp)

theorem consistent_schedule {garbage : U64} (hfuel : nrTasks ≤ fuel) (h : Consistent img s)
    (hstep : sysStep img fuel (.schedule garbage) s = some s') : Consistent img s' := by
  obtain ⟨picked, k', hbefore, hk', -, -⟩ := h.scheduleBefore hfuel
  rcases sysStep_schedule_cases hbefore hstep with
    ⟨-, rfl⟩ | ⟨-, hfresh, rfl⟩ | ⟨-, -, hlive, rfl⟩
  · exact hk'
  · exact { hk' with
      current := Sys.mem_tasks_of_forked (h.fresh _ hfresh)
      fresh := fun p hp => h.fresh p (List.mem_of_mem_erase hp) }
  · exact { hk' with current := hlive }

/-- **The step lemma.** -/
theorem consistent_step (hfuel : nrTasks ≤ fuel) (op : SysOp) (s s' : Sys) (h : Consistent img s)
    (hstep : sysStep img fuel op s = some s') : Consistent img s' := by
  cases op with
  | doFork caller cloneFlags stack arg => exact consistent_doFork h hstep
  | tick => exact consistent_tick h hstep
  | schedule garbage => exact consistent_schedule hfuel h hstep

theorem consistent_reachable {k : Kernel} (hfuel : nrTasks ≤ fuel)
    (hs : Run.Reachable (sysStep img fuel) (Sys.boot img k) s) : Consistent img s :=
  hs.invariant (consistent_step hfuel) (consistent_boot img k)

end Arm64OS
