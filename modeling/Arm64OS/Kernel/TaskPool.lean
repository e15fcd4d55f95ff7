import Arm64OS.Arch.MmuCount
import Arm64OS.Kernel.SchedBudget
import Arm64OS.Lib.Simulation

/-!
# The task machine without addresses

`do_fork`, the timer and `__schedule` work on pages, two circular lists and a table of pointers.
What comes of it can be said without any of them: tasks are numbers, each has some ticks left
and perhaps a mark that it is to be switched away from, and there are so many pages left.
`poolStep` is that machine, `Sys.pool` forgets the addresses, and `exec_pool` says that the
kernel runs as the pool does.

So neither the place of the image nor what lies in memory has a say in which task runs when
(`runs_alike`), and the number of tasks is a matter of counting (`forked_run`).
-/

namespace Arm64OS

/-! ## The pool -/

/-- The tasks are the numbers below `count`, of which 0 is `init_task`. -/
@[ext] structure TaskPool where
  ticks : Nat → Nat
  marked : Nat → Bool
  count : Nat
  current : Nat
  /-- the pages that `get_free_page` can still hand out -/
  free : Nat

namespace TaskPool

/-- `init_task` with `DEF_COUNTER`. -/
def boot (free : Nat) : TaskPool :=
  ⟨Function.update (fun _ => 0) 0 25, fun _ => false, 1, 0, free⟩

theorem boot_count (free : Nat) : (boot free).count = 1 := rfl

theorem boot_free (free : Nat) : (boot free).free = free := rfl

/-- The forked tasks, the youngest first. -/
def queue (t : TaskPool) : List Nat := (List.range' 1 (t.count - 1)).reverse

/-- There is a slot and a page for one more task. -/
def HasRoom (t : TaskPool) : Prop := t.count < nrTasks ∧ 0 < t.free

instance (t : TaskPool) : Decidable t.HasRoom := by
  unfold HasRoom
  infer_instance

/-- The new task shares the ticks of its parent with it. -/
def fork (caller : Nat) (t : TaskPool) : TaskPool :=
  { t with
    ticks := Function.update (Function.update t.ticks caller (t.ticks caller / 2)) t.count
      ((t.ticks caller + 1) / 2)
    marked := Function.update t.marked t.count false
    count := t.count + 1
    free := t.free - 1 }

/-- The last tick marks the task that runs. -/
def tick (t : TaskPool) : TaskPool :=
  { t with
    ticks := Function.update t.ticks t.current (t.ticks t.current - 1)
    marked := if t.ticks t.current ≤ 1 then Function.update t.marked t.current true else t.marked }

/-- New ticks for all forked tasks, if none of them has any. -/
def dealt (t : TaskPool) : Nat → Nat :=
  if ∀ i ∈ t.queue, t.ticks i = 0 then Budget.deal t.queue (fun _ => forkedSlice) t.ticks
  else t.ticks

/-- The first of those with the most ticks has the CPU next. -/
def schedule (t : TaskPool) : Option TaskPool :=
  (t.queue.argmax t.dealt).map fun next =>
    { t with
      ticks := t.dealt
      marked := Function.update t.marked t.current false
      current := next }

end TaskPool

inductive PoolOp
  /-- whether the stack that is passed is accepted -/
  | fork (caller : Nat) (accepted : Bool)
  | tick
  | schedule
  deriving DecidableEq

def poolStep : PoolOp → TaskPool → Option TaskPool
  | .fork caller accepted, t =>
      if caller < t.count then some (if accepted ∧ t.HasRoom then t.fork caller else t) else none
  | .tick, t => some t.tick
  | .schedule, t => t.schedule

/-! ## The kernel, called by numbers -/

/-- A call of the task with the number `caller`, or of the running one. -/
inductive PidOp
  | fork (caller : Nat) (cloneFlags stack arg : U64)
  | tick
  | schedule

/-- `__schedule` is only entered with a forked task on the queue, so that its uninitialised local
does not matter. -/
def pidStep (img : Image) (fuel : Nat) : PidOp → Sys → Option Sys
  | .fork caller cloneFlags stack arg, s =>
      sysStep img fuel (.doFork (s.k.gTask caller) cloneFlags stack arg) s
  | .tick, s => sysStep img fuel .tick s
  | .schedule, s => if s.forked = [] then none else sysStep img fuel (.schedule 0) s

def PidOp.poolOp : PidOp → PoolOp
  | .fork caller cloneFlags stack _ => .fork caller (decide (¬ StackRefused cloneFlags stack))
  | .tick => .tick
  | .schedule => .schedule

/-- What is left of the kernel without its addresses; `g_task` tells the numbers. -/
def Sys.pool (s : Sys) : TaskPool where
  ticks := fun i => if s.k.gTask i = 0#64 then 0 else (s.k.task (s.k.gTask i)).counter.toNat
  marked := fun i =>
    if s.k.gTask i = 0#64 then false else (s.k.task (s.k.gTask i)).needResched ≠ 0
  count := s.forked.length + 1
  current := (s.k.task s.current).pid.toNat
  free := (freePages s.k.memMap).card

theorem pool_count (s : Sys) : s.pool.count = s.forked.length + 1 := rfl

theorem pool_current (s : Sys) : s.pool.current = (s.k.task s.current).pid.toNat := rfl

theorem pool_free (s : Sys) : s.pool.free = (freePages s.k.memMap).card := by
  rw [Sys.pool]

variable {img : Image} {fuel : Nat} {s s' : Sys}

/-! ### Numbers and tasks -/

theorem Consistent.gTask_eq (h : Consistent img s) {i : Nat} (hi : i < s.forked.length + 1) :
    s.k.gTask i ∈ s.tasks img ∧ s.k.gTask i ≠ 0#64 ∧ (s.k.task (s.k.gTask i)).pid = i := by
  have hlt : i < (s.tasks img).length := by simpa [Sys.tasks] using hi
  have hmem := List.getElem_mem hlt
  have heq : s.k.gTask i = (s.tasks img)[i] := by
    rw [h.gTask i, List.getElem?_eq_getElem hlt, Option.getD_some]
  rw [heq]
  exact ⟨hmem, h.task_ne_zero hmem, h.pid i _ (List.getElem?_eq_getElem hlt)⟩

theorem Consistent.gTask_eq_zero_iff (h : Consistent img s) (i : Nat) :
    s.k.gTask i = 0#64 ↔ s.forked.length + 1 ≤ i := by
  constructor
  · intro hzero
    by_contra hlt
    exact (h.gTask_eq (Nat.lt_of_not_le hlt)).2.1 hzero
  · intro hle
    rw [h.gTask i, List.getElem?_eq_none (by simpa [Sys.tasks] using hle), Option.getD_none]

/-- Each task is in the table under its own number. -/
theorem Consistent.gTask_pid (h : Consistent img s) {p : U64} (hp : p ∈ s.tasks img) :
    s.k.gTask (s.k.task p).pid.toNat = p ∧ (s.k.task p).pid.toNat < s.forked.length + 1 := by
  obtain ⟨i, hi, rfl⟩ := List.mem_iff_getElem.1 hp
  have hpid := h.pid i _ (List.getElem?_eq_getElem hi)
  rw [hpid, Int.toNat_natCast, h.gTask i, List.getElem?_eq_getElem hi, Option.getD_some]
  exact ⟨rfl, by simpa [Sys.tasks] using hi⟩

theorem Consistent.gTask_inj (h : Consistent img s) {i j : Nat} (hi : i < s.forked.length + 1)
    (heq : s.k.gTask i = s.k.gTask j) : i = j := by
  have hj : j < s.forked.length + 1 := by
    by_contra hle
    have hzero := (h.gTask_eq_zero_iff j).2 (Nat.le_of_not_lt hle)
    exact (h.gTask_eq hi).2.1 (heq.trans hzero)
  have hpid := (h.gTask_eq hi).2.2
  rw [heq, (h.gTask_eq hj).2.2] at hpid
  exact_mod_cast hpid.symm

/-- The queue, by numbers. -/
theorem Consistent.map_queue (h : Consistent img s) :
    s.pool.queue.map s.k.gTask = s.forked.reverse := by
  rw [TaskPool.queue, List.map_reverse]
  congr 1
  refine List.ext_getElem (by simp [Sys.pool]) fun i hi hi' => ?_
  have hlt : 1 + i < (s.tasks img).length := by
    have hlt := hi'
    simp [Sys.tasks]
    omega
  rw [List.getElem_map, List.getElem_range', h.gTask]
  simp [Sys.tasks, Nat.add_comm 1, hi']

/-- A change of one task is a change of its number. -/
theorem Consistent.pool_updTask (h : Consistent img s) {p : U64} (hp : p ∈ s.tasks img)
    {α : Type*} (get : TaskStruct → α) (z : α) (f : TaskStruct → TaskStruct) :
    (fun i => if s.k.gTask i = 0#64 then z else get ((s.k.updTask p f).task (s.k.gTask i))) =
      Function.update (fun i => if s.k.gTask i = 0#64 then z else get (s.k.task (s.k.gTask i)))
        (s.k.task p).pid.toNat (get (f (s.k.task p))) := by
  obtain ⟨hself, hlt⟩ := h.gTask_pid hp
  ext i
  by_cases hi : i = (s.k.task p).pid.toNat
  · subst hi
    simp [Kernel.updTask, hself, h.task_ne_zero hp]
  · have hne : s.k.gTask i ≠ p := fun heq => hi (h.gTask_inj hlt (hself.trans heq.symm)).symm
    simp [Kernel.updTask, hi, hne]

/-- What the pool holds of a task. -/
theorem Consistent.pool_of_mem (h : Consistent img s) {p : U64} (hp : p ∈ s.tasks img) :
    s.pool.ticks (s.k.task p).pid.toNat = (s.k.task p).counter.toNat ∧
      s.pool.marked (s.k.task p).pid.toNat = decide ((s.k.task p).needResched ≠ 0) := by
  obtain ⟨hself, -⟩ := h.gTask_pid hp
  simp only [Sys.pool, hself, h.task_ne_zero hp, if_false, and_self]

/-! ### Ticks -/

theorem pid_tickTask (t : TaskStruct) : (tickTask t).pid = t.pid := by
  rw [tickTask]
  split <;> rfl

theorem needResched_tickTask (t : TaskStruct) :
    decide ((tickTask t).needResched ≠ 0) =
      if t.counter.toNat ≤ 1 then true else decide (t.needResched ≠ 0) := by
  rw [tickTask]
  split
  case isTrue hused => rw [if_pos (by omega)]; rfl
  case isFalse hleft => rw [if_neg (by omega)]

theorem Consistent.pool_tick (h : Consistent img s) (hstep : sysStep img fuel .tick s = some s') :
    s'.pool = s.pool.tick := by
  obtain rfl := eq_of_tick hstep
  obtain ⟨hticks, hmarked⟩ := h.pool_of_mem h.current
  rw [tickHandlePeriodic, taskTickNop_eq]
  ext1
  case ticks =>
    rw [TaskPool.tick, pool_current, hticks,
      ← counter_toNat_tickTask]
    exact h.pool_updTask h.current (fun t => t.counter.toNat) 0 tickTask
  case marked =>
    have hupdate := h.pool_updTask h.current (fun t => decide (t.needResched ≠ 0)) false tickTask
    refine hupdate.trans ?_
    rw [needResched_tickTask, TaskPool.tick,
      pool_current, hticks]
    split
    · rfl
    · rw [← hmarked]
      exact Function.update_eq_self _ _
  case count => rfl
  case current =>
    simp only [Sys.pool, TaskPool.tick, Kernel.updTask, Function.update_self, pid_tickTask]
  case free => simp only [Sys.pool, TaskPool.tick, Kernel.updTask]

/-! ### Forks -/

/-- A call that fails leaves the pool as it is. -/
theorem Consistent.pool_of_agreeOff (h : Consistent img s) {k' : Kernel}
    (hmemMap : k'.memMap = s.k.memMap)
    (hsame : k' = s.k ∨ ∃ j, j < nrPages ∧ s.k.memMap j = 0#8 ∧ AgreeOff (pageAddr j) s.k k') :
    Sys.pool { s with k := k' } = s.pool := by
  rcases hsame with rfl | ⟨j, hj, hfree, hagree⟩
  · rfl
  · have htask : ∀ p ∈ s.tasks img, k'.task p = s.k.task p :=
      fun p hp => hagree.task p (h.ne_pageAddr hp hj hfree)
    have hslot : ∀ i, s.k.gTask i ≠ 0#64 → k'.task (s.k.gTask i) = s.k.task (s.k.gTask i) := by
      intro i hi
      have hlt : i < s.forked.length + 1 :=
        Nat.lt_of_not_le fun hle => hi ((h.gTask_eq_zero_iff i).2 hle)
      exact htask _ (h.gTask_eq hlt).1
    ext1
    case ticks =>
      ext i
      by_cases hi : s.k.gTask i = 0#64
      · simp [Sys.pool, hagree.gTask, hi]
      · simp [Sys.pool, hagree.gTask, hi, hslot i hi]
    case marked =>
      ext i
      by_cases hi : s.k.gTask i = 0#64
      · simp [Sys.pool, hagree.gTask, hi]
      · simp [Sys.pool, hagree.gTask, hi, hslot i hi]
    case count => rfl
    case current => simp only [Sys.pool, htask _ h.current]
    case free => simp only [Sys.pool, hmemMap]

theorem toNat_shiftRight_one (c : Int) : (c >>> (1 : Nat)).toNat = c.toNat / 2 := by
  rw [Int.shiftRight_eq_div_pow]
  omega

/-- A call that succeeds is a fork of the pool. -/
theorem Consistent.pool_forked (h : Consistent img s) {caller cloneFlags stack arg : U64}
    {j pid : Nat} {k' : Kernel} (hcaller : caller ∈ s.tasks img) (hj : j < nrPages)
    (hfree : s.k.memMap j = 0#8) (hpid : pid = s.forked.length + 1)
    (hmemMap : k'.memMap = Function.update s.k.memMap j 1#8)
    (hforked : Forked img caller cloneFlags stack arg (pageAddr j) pid s.k k') (fresh : List U64) :
    Sys.pool { s with k := k', forked := s.forked ++ [pageAddr j], fresh := fresh } =
      s.pool.fork (s.k.task caller).pid.toNat := by
  obtain ⟨hticks, -⟩ := h.pool_of_mem hcaller
  obtain ⟨hself, hlt⟩ := h.gTask_pid hcaller
  have hne : ∀ p ∈ s.tasks img, p ≠ pageAddr j := fun p hp => h.ne_pageAddr hp hj hfree
  have hslot : ∀ i, i ≠ pid → k'.gTask i = s.k.gTask i := fun i hi => by
    rw [hforked.gTask, Function.update_of_ne hi]
  have hchild : k'.gTask pid = pageAddr j := by rw [hforked.gTask, Function.update_self]
  have hother : ∀ i, i ≠ (s.k.task caller).pid.toNat → s.k.gTask i ≠ 0#64 →
      k'.task (s.k.gTask i) = s.k.task (s.k.gTask i) := by
    intro i hi hzero
    have hlt' : i < s.forked.length + 1 :=
      Nat.lt_of_not_le fun hle => hzero ((h.gTask_eq_zero_iff i).2 hle)
    refine hforked.other _ (hne _ (h.gTask_eq hlt').1) fun heq => hi ?_
    exact h.gTask_inj hlt' (heq.trans hself.symm)
  have hpage := pageAddr_ne_zero hj
  have hcounter := h.counter caller hcaller
  have hcount : s.pool.count = pid := hpid.symm
  have hbelow : (s.k.task caller).pid.toNat ≠ pid := by omega
  ext1
  case ticks =>
    ext i
    rw [TaskPool.fork, hcount, hticks]
    by_cases hi : i = pid
    · subst hi
      have hnew : ((s.k.task caller).counter + 1).toNat = (s.k.task caller).counter.toNat + 1 := by
        omega
      simp [Sys.pool, hchild, hpage, hforked.child, toNat_shiftRight_one, hnew]
    · by_cases hi' : i = (s.k.task caller).pid.toNat
      · subst hi'
        simp [Sys.pool, hslot _ hi, hself, h.task_ne_zero hcaller, hforked.parent, hi,
          toNat_shiftRight_one]
      · by_cases hzero : s.k.gTask i = 0#64
        · simp [Sys.pool, hslot i hi, hi, hi', hzero]
        · simp [Sys.pool, hslot i hi, hi, hi', hzero, hother i hi' hzero]
  case marked =>
    ext i
    rw [TaskPool.fork, hcount]
    by_cases hi : i = pid
    · subst hi
      simp [Sys.pool, hchild, hpage, hforked.child]
    · by_cases hi' : i = (s.k.task caller).pid.toNat
      · subst hi'
        simp [Sys.pool, hslot _ hi, hself, h.task_ne_zero hcaller, hforked.parent, hi]
      · by_cases hzero : s.k.gTask i = 0#64
        · simp [Sys.pool, hslot i hi, hi, hzero]
        · simp [Sys.pool, hslot i hi, hi, hzero, hother i hi' hzero]
  case count => simp [Sys.pool, TaskPool.fork]
  case current =>
    show (k'.task s.current).pid.toNat = (s.k.task s.current).pid.toNat
    by_cases hcaller' : s.current = caller
    · rw [hcaller', hforked.parent]
    · rw [hforked.other _ (hne _ h.current) hcaller']
  case free =>
    have hcard := card_freePages_update hj hfree
    simp only [Sys.pool, TaskPool.fork, hmemMap, ← hcard, Nat.add_sub_cancel]

/-- The outcome of a call of `do_fork`, in numbers. -/
theorem Consistent.pool_doFork (h : Consistent img s) (fuel : Nat) {caller : Nat}
    {cloneFlags stack arg : U64} (hcaller : caller < s.pool.count) :
    ∃ s', sysStep img fuel (.doFork (s.k.gTask caller) cloneFlags stack arg) s = some s' ∧
      s'.pool = if ¬ StackRefused cloneFlags stack ∧ s.pool.HasRoom then s.pool.fork caller
        else s.pool := by
  obtain ⟨hmem, -, hnumber⟩ := h.gTask_eq hcaller
  rcases Arm64OS.doFork_cases img cloneFlags stack arg s.k
      (fun j hj hfree => h.ne_pageAddr hmem hj hfree) with
    ⟨k', hfork, hmemMap, hsame, hwhy⟩ |
      ⟨j, pid, k', hj, hfree, hpid, hzero, hmin, haccepted, hfork, hmemMap, hforked⟩
  · refine ⟨{ s with k := k' }, by simp [sysStep, hmem, hfork], ?_⟩
    rw [h.pool_of_agreeOff hmemMap hsame, if_neg]
    rintro ⟨haccepted, hslots, hpages⟩
    rcases hwhy with hfull | hused | hrefused
    · rw [pool_free] at hpages
      obtain ⟨j, hj, hfree⟩ := card_freePages_pos.1 hpages
      exact hfull j hj hfree
    · exact hused s.pool.count hslots ((h.gTask_eq_zero_iff _).2 le_rfl)
    · exact haccepted hrefused
  · have hchild : k'.gTask pid = pageAddr j := by simp [hforked.gTask]
    have hpos : ¬ (pid : Int) < 0 := by omega
    have hpid' := h.pid_eq hzero hmin
    have hroom : s.pool.HasRoom := by
      rw [TaskPool.HasRoom, pool_count, pool_free, ← hpid']
      exact ⟨hpid, card_freePages_pos.2 ⟨j, hj, hfree⟩⟩
    refine ⟨{ s with
      k := k', forked := s.forked ++ [pageAddr j], fresh := s.fresh ++ [pageAddr j] },
      by simp [sysStep, hmem, hfork, hchild, hpos], ?_⟩
    rw [if_pos ⟨haccepted, hroom⟩, h.pool_forked hmem hj hfree hpid' hmemMap hforked, hnumber,
      Int.toNat_natCast]

/-! ### `__schedule` -/

/-- What the call leaves of the tasks: the mark of the one that ran is gone, and ticks may have
been dealt out. -/
theorem Consistent.schedule_tasks (h : Consistent img s) (hfuel : nrTasks ≤ fuel) {garbage : U64}
    (hstep : sysStep img fuel (.schedule garbage) s = some s') :
    s'.forked = s.forked ∧ s'.k.gTask = s.k.gTask ∧ s'.k.memMap = s.k.memMap ∧
      (∀ p, (s'.k.task p).pid = (s.k.task p).pid) ∧
      ∀ p, (s'.k.task p).needResched = if p = s.current then 0 else (s.k.task p).needResched := by
  obtain ⟨picked, k', hbefore, hk', -⟩ := h.scheduleBefore_cases hfuel
  obtain ⟨hgTask, hmemMap, hpid, hmark⟩ : k'.gTask = s.k.gTask ∧ k'.memMap = s.k.memMap ∧
      (∀ p, (k'.task p).pid = (s.k.task p).pid) ∧
      ∀ p, (k'.task p).needResched = (s.k.task p).needResched := by
    rcases hk' with rfl | rfl
    · exact ⟨rfl, rfl, fun _ => rfl, fun _ => rfl⟩
    · rw [foldl_resetCounter]
      refine ⟨rfl, rfl, fun p => ?_, fun p => ?_⟩
      all_goals
        by_cases hp : p ∈ s.forked
        · simp [hp]
        · simp [hp]
  have hdone : ∀ k : Kernel,
      k.task = (k'.updTask s.current fun t => { t with needResched := 0 }).task →
      (∀ p, (k.task p).pid = (s.k.task p).pid) ∧
        ∀ p, (k.task p).needResched = if p = s.current then 0 else (s.k.task p).needResched := by
    intro k hk
    rw [hk]
    refine ⟨fun p => ?_, fun p => ?_⟩
    all_goals
      by_cases hp : p = s.current
      · subst hp
        simp [Kernel.updTask, hpid]
      · simp [Kernel.updTask, hp, hpid, hmark]
  rcases sysStep_schedule_cases hbefore hstep with ⟨-, rfl⟩ | ⟨-, -, rfl⟩ | ⟨-, -, -, rfl⟩
  · exact ⟨rfl, hgTask, hmemMap, hdone _ rfl⟩
  · exact ⟨rfl, hgTask, hmemMap, hdone _ rfl⟩
  · exact ⟨rfl, hgTask, hmemMap, hdone _ rfl⟩

theorem TaskPool.mem_queue (t : TaskPool) (i : Nat) : i ∈ t.queue ↔ 1 ≤ i ∧ i < t.count := by
  simp only [queue, List.mem_reverse, List.mem_range'_1]
  omega

/-- The numbers on the queue are those of the forked tasks. -/
theorem Consistent.mem_queue_iff (h : Consistent img s) (i : Nat) :
    i ∈ s.pool.queue ↔ s.k.gTask i ∈ s.forked := by
  rw [show s.k.gTask i ∈ s.forked ↔ s.k.gTask i ∈ s.forked.reverse from List.mem_reverse.symm,
    ← h.map_queue, List.mem_map]
  constructor
  · exact fun hi => ⟨i, hi, rfl⟩
  · rintro ⟨j, hj, heq⟩
    have hlt := ((s.pool.mem_queue j).1 hj).2
    rwa [← h.gTask_inj hlt heq]

theorem pool_ticks (s : Sys) (i : Nat) :
    s.pool.ticks i = if s.k.gTask i = 0#64 then 0 else s.budget.budget (s.k.gTask i) := rfl

/-- Ticks are dealt out to the numbers as they are to the tasks. -/
theorem Consistent.pool_dealt (h : Consistent img s) (hgTask : s'.k.gTask = s.k.gTask)
    (hscheduled : Scheduled s s') : s'.pool.ticks = s.pool.dealt := by
  have hused : (∀ i ∈ s.pool.queue, s.pool.ticks i = 0) ↔
      ∀ p ∈ s.forked, s.budget.budget p = 0 := by
    constructor
    · intro hall p hp
      obtain ⟨i, hi, rfl⟩ : ∃ i ∈ s.pool.queue, s.k.gTask i = p := by
        rw [← List.mem_map, h.map_queue, List.mem_reverse]
        exact hp
      have hne : s.k.gTask i ≠ 0#64 := h.task_ne_zero (Sys.mem_tasks_of_forked hp)
      simpa [pool_ticks, hne] using hall i hi
    · intro hall i hi
      have hmem := (h.mem_queue_iff i).1 hi
      rw [pool_ticks, hall _ hmem, ite_self]
  ext i
  rw [pool_ticks, hgTask, TaskPool.dealt]
  rcases hscheduled.budget with hsame | ⟨hall, hdeal⟩
  · have hleft := hscheduled.left
    rw [hsame] at hleft
    rw [if_neg fun hzero => hleft.ne' (hused.1 hzero _ hscheduled.mem), hsame, pool_ticks]
  · rw [if_pos (hused.2 hall), hdeal, Budget.deal, Budget.deal, pool_ticks]
    by_cases hi : i ∈ s.pool.queue
    · have hne := (h.gTask_eq ((s.pool.mem_queue i).1 hi).2).2.1
      rw [if_pos hi, if_neg hne, if_pos (List.mem_reverse.2 ((h.mem_queue_iff i).1 hi))]
    · have hi' : s.k.gTask i ∉ s.forked.reverse :=
        fun hmem => hi ((h.mem_queue_iff i).2 (List.mem_reverse.1 hmem))
      rw [if_neg hi, if_neg hi']

theorem Consistent.pool_schedule (h : Consistent img s) (hfuel : nrTasks ≤ fuel)
    (hne : s.forked ≠ []) :
    ∃ s', sysStep img fuel (.schedule 0) s = some s' ∧ s.pool.schedule = some s'.pool := by
  obtain ⟨s', hstep, hscheduled⟩ := h.scheduled hfuel hne 0
  obtain ⟨hforked, hgTask, hmemMap, hpid, hmark⟩ := h.schedule_tasks hfuel hstep
  have hdealt := h.pool_dealt hgTask hscheduled
  have hmem : s'.current ∈ s.tasks img := Sys.mem_tasks_of_forked hscheduled.mem
  obtain ⟨hself, hlt⟩ := h.gTask_pid hmem
  have hnext : s.pool.queue.argmax s.pool.dealt = some (s.k.task s'.current).pid.toNat := by
    have hfirst := hscheduled.first
    rw [← h.map_queue] at hfirst
    obtain ⟨i, hi, hfirst⟩ := hfirst.of_map
    obtain ⟨-, hlt'⟩ := (s.pool.mem_queue i).1 hfirst.mem
    have hi' := h.gTask_inj hlt' (hi.trans hself.symm)
    rw [← hi']
    refine (hfirst.congr fun j hj => ?_).argmax_eq
    have hne := (h.gTask_eq ((s.pool.mem_queue j).1 hj).2).2.1
    rw [← hdealt, pool_ticks, hgTask, if_neg hne]
  refine ⟨s', hstep, ?_⟩
  rw [TaskPool.schedule, hnext, Option.map_some]
  refine congrArg some (Eq.symm ?_)
  ext1
  case ticks => exact hdealt
  case marked =>
    obtain ⟨hself', hlt'⟩ := h.gTask_pid h.current
    ext i
    by_cases hi : i = s.pool.current
    · subst hi
      simp [Sys.pool, hgTask, hself', hmark]
    · have hne : s.k.gTask i ≠ s.current :=
        fun heq => hi (h.gTask_inj hlt' (hself'.trans heq.symm)).symm
      simp [Sys.pool, hgTask, hmark, hne, show i ≠ (s.k.task s.current).pid.toNat from hi]
  case count => exact congrArg (fun ps => ps.length + 1) hforked
  case current => rw [pool_current, hpid]
  case free => rw [pool_free, hmemMap, pool_free]

/-! ## Runs -/

/-- Step by step the kernel does what the pool does. -/
theorem simulates_pidStep (hfuel : nrTasks ≤ fuel) :
    Run.Simulates (pidStep img fuel) poolStep Sys.pool (fun op => [op.poolOp])
      (Consistent img) where
  kept op s s' h hstep := by
    cases op with
    | fork caller cloneFlags stack arg =>
        exact consistent_step hfuel (.doFork (s.k.gTask caller) cloneFlags stack arg) s s' h hstep
    | tick => exact consistent_step hfuel .tick s s' h hstep
    | schedule =>
        by_cases hne : s.forked = []
        · simp [pidStep, hne] at hstep
        · exact consistent_step hfuel (.schedule 0) s s' h (by simpa [pidStep, hne] using hstep)
  step op s h := by
    rw [Run.exec_singleton]
    cases op with
    | tick =>
        have hstep : sysStep img fuel .tick s =
            some { s with k := tickHandlePeriodic s.current s.k } :=
          rfl
        rw [pidStep, hstep, Option.map_some, h.pool_tick hstep]
        rfl
    | schedule =>
        by_cases hne : s.forked = []
        · have hqueue : s.pool.queue = [] := by simp [TaskPool.queue, pool_count, hne]
          simp [pidStep, hne, PidOp.poolOp, poolStep, TaskPool.schedule, hqueue]
        · obtain ⟨s', hstep, hpool⟩ := h.pool_schedule hfuel hne
          rw [pidStep, if_neg hne, hstep, Option.map_some]
          exact hpool.symm
    | fork caller cloneFlags stack arg =>
        by_cases hcaller : caller < s.pool.count
        · obtain ⟨s', hstep, hpool⟩ := h.pool_doFork fuel hcaller
          rw [pidStep, hstep, Option.map_some, hpool, PidOp.poolOp, poolStep, if_pos hcaller]
          simp only [decide_eq_true_eq]
        · have hnone : s.k.gTask caller ∉ s.tasks img := by
            rw [(h.gTask_eq_zero_iff caller).2 (Nat.le_of_not_lt hcaller)]
            exact fun hmem => h.task_ne_zero hmem rfl
          rw [pidStep, sysStep, if_neg hnone, PidOp.poolOp, poolStep, if_neg hcaller]
          rfl

theorem pool_boot (img : Image) (k : Kernel) :
    (Sys.boot img k).pool = TaskPool.boot (freePages k.memMap).card := by
  have hinit := img.initTask_ne_zero
  ext1
  case ticks =>
    ext i
    by_cases hi : i = 0
    · simp [Sys.pool, Sys.boot, Kernel.boot, schedInit, TaskPool.boot, Kernel.initTaskStruct, hi,
        hinit, defCounter_eq]
    · simp [Sys.pool, Sys.boot, Kernel.boot, schedInit, TaskPool.boot, hi]
  case marked =>
    ext i
    by_cases hi : i = 0
    · simp [Sys.pool, Sys.boot, Kernel.boot, schedInit, TaskPool.boot, Kernel.initTaskStruct, hi]
    · simp [Sys.pool, Sys.boot, Kernel.boot, schedInit, TaskPool.boot, hi]
  case count => rfl
  case current => simp [Sys.pool, Sys.boot, Kernel.boot, schedInit, TaskPool.boot,
    Kernel.initTaskStruct]
  case free => simp only [Sys.pool, Sys.boot, Kernel.boot, schedInit, TaskPool.boot]

theorem Consistent.exec_pool (h : Consistent img s) (hfuel : nrTasks ≤ fuel) (script : List PidOp) :
    (Run.exec (pidStep img fuel) script s).map Sys.pool =
      Run.exec poolStep (script.map PidOp.poolOp) s.pool := by
  have hrun := (simulates_pidStep hfuel).exec_map script h
  rw [hrun, List.map_eq_flatMap]

/-- **The kernel runs as the pool does.**  From `start_kernel` on, and for every sequence of
`do_fork` calls of any task, timer ticks and calls of `__schedule`, what is left of the kernel
without its addresses is the pool after the same calls; and the kernel comes to a call that
cannot be made exactly where the pool does. -/
theorem boot_exec_pool (hfuel : nrTasks ≤ fuel) (img : Image) (k : Kernel) (script : List PidOp) :
    (Run.exec (pidStep img fuel) script (Sys.boot img k)).map Sys.pool =
      Run.exec poolStep (script.map PidOp.poolOp) (TaskPool.boot (freePages k.memMap).card) := by
  rw [(consistent_boot img k).exec_pool hfuel, pool_boot]

/-- `init_task` makes a kernel thread, which gets the CPU and has a tick. -/
def oneThread : List PidOp := [.fork 0 pfKthread 0x82000 0, .schedule, .tick]

theorem card_freePages_blank : (freePages Kernel.blank.memMap).card = 131072 := by
  have hall : freePages Kernel.blank.memMap = Finset.range nrPages := by
    simp [freePages, Kernel.blank]
  rw [hall, Finset.card_range, nrPages_eq]

/-- The thread has one of the ticks that it shares with `init_task` less. -/
theorem boot_exec_pool_one :
    ((Run.exec (pidStep Image.sample nrTasks) oneThread (Sys.boot Image.sample Kernel.blank)).map
      Sys.pool).map (fun t => (t.current, t.ticks 0, t.ticks 1)) = some (1, 12, 12) := by
  rw [boot_exec_pool le_rfl, card_freePages_blank]
  rfl

/-- **Neither the image nor the memory matters.**  Two kernels that start with as many free pages,
wherever they lie and whatever else is in memory, run the same calls with the same tasks, the
same ticks and the same marks. -/
theorem runs_alike (hfuel : nrTasks ≤ fuel) (img img' : Image) {k k' : Kernel}
    (hfree : (freePages k.memMap).card = (freePages k'.memMap).card) (script : List PidOp) :
    (Run.exec (pidStep img fuel) script (Sys.boot img k)).map Sys.pool =
      (Run.exec (pidStep img' fuel) script (Sys.boot img' k')).map Sys.pool := by
  rw [(consistent_boot img k).exec_pool hfuel, (consistent_boot img' k').exec_pool hfuel, pool_boot,
    pool_boot, hfree]

/-- The image with its objects in other places. -/
def Image.moved : Image where
  initTask := 0x200000
  rqHead := 0x90000
  retFromFork := 0x84000
  initTask_ne_zero := by decide
  initTask_below := by decide
  rqHead_below := by decide
  rqHead_outside := by decide

theorem runs_alike_one :
    (Run.exec (pidStep Image.sample nrTasks) oneThread (Sys.boot Image.sample Kernel.blank)).map
        Sys.pool =
      (Run.exec (pidStep Image.moved nrTasks) oneThread (Sys.boot Image.moved Kernel.blank)).map
        Sys.pool :=
  runs_alike le_rfl Image.sample Image.moved rfl oneThread

/-! ### How many tasks there are -/

/-- A fork with a stack that is not refused. -/
def PoolOp.accepted : PoolOp → Bool
  | .fork _ accepted => accepted
  | _ => false

/-- A step makes one task where it may, and pays with a page for it. -/
theorem poolStep_count {op : PoolOp} {t t' : TaskPool} (hstep : poolStep op t = some t') :
    if op.accepted ∧ t.HasRoom then t'.count = t.count + 1 ∧ t'.free + 1 = t.free
    else t'.count = t.count ∧ t'.free = t.free := by
  cases op with
  | tick =>
      obtain rfl := Option.some.inj hstep
      simp [PoolOp.accepted, TaskPool.tick]
  | schedule =>
      obtain ⟨next, -, rfl⟩ := Option.map_eq_some_iff.1 hstep
      simp [PoolOp.accepted]
  | fork caller accepted =>
      by_cases hcaller : caller < t.count
      · rw [poolStep, if_pos hcaller] at hstep
        obtain rfl := Option.some.inj hstep
        by_cases hroom : accepted ∧ t.HasRoom
        · have hpages := hroom.2.2
          rw [if_pos hroom, PoolOp.accepted, if_pos hroom]
          exact ⟨rfl, Nat.sub_add_cancel hpages⟩
        · rw [if_neg hroom, PoolOp.accepted, if_neg hroom]
          exact ⟨rfl, rfl⟩
      · simp [poolStep, hcaller] at hstep

theorem exec_poolStep_count {ops : List PoolOp} {t t' : TaskPool}
    (hrun : Run.exec poolStep ops t = some t') :
    t'.count = t.count + min (min (nrTasks - t.count) t.free) (ops.countP PoolOp.accepted) ∧
      t'.free + t'.count = t.free + t.count := by
  induction ops generalizing t with
  | nil =>
      obtain rfl : t = t' := by simpa using hrun
      simp
  | cons op ops ih =>
      obtain ⟨u, hstep, hrest⟩ := Option.bind_eq_some_iff.1 hrun
      obtain ⟨hcount, htotal⟩ := ih hrest
      have hone := poolStep_count hstep
      rw [List.countP_cons]
      by_cases haccepted : op.accepted
      · rw [if_pos haccepted]
        simp only [haccepted, true_and, TaskPool.HasRoom] at hone
        -- a fork that finds no room finds none later either
        split at hone <;> omega
      · simp only [haccepted, Bool.false_eq_true, false_and, if_false] at hone ⊢
        omega

/-- The tasks and their pages: `memMap` is the page map from the start on. -/
structure OnFreePages (memMap : PageMap) (s : Sys) : Prop where
  page : ∀ p ∈ s.forked, ∃ j, j < nrPages ∧ p = pageAddr j ∧ memMap j = 0#8
  off : ∀ j, j < nrPages → pageAddr j ∉ s.forked → s.k.memMap j = memMap j

theorem OnFreePages.fork {memMap : PageMap} (h : OnFreePages memMap s) (hc : Consistent img s)
    {caller cloneFlags stack arg : U64}
    (hstep : sysStep img fuel (.doFork caller cloneFlags stack arg) s = some s') :
    OnFreePages memMap s' := by
  rcases hc.doFork_cases hstep with ⟨k', rfl, hmemMap, -⟩ |
    ⟨j, pid, k', rfl, -, hj, hfree, -, -, -, hmemMap, -⟩
  · exact ⟨h.page, fun i hi hoff => (congrFun hmemMap i).trans (h.off i hi hoff)⟩
  · have hnew : pageAddr j ∉ s.forked :=
      fun hmem => hc.ne_pageAddr (Sys.mem_tasks_of_forked hmem) hj hfree rfl
    constructor
    · intro p hp
      rcases List.mem_append.1 hp with hp | hp
      · exact h.page p hp
      · exact ⟨j, hj, List.mem_singleton.1 hp, (h.off j hj hnew).symm.trans hfree⟩
    · intro i hi hoff
      rw [List.mem_append, List.mem_singleton, not_or] at hoff
      have hij : i ≠ j := fun hij => hoff.2 (congrArg pageAddr hij)
      rw [show k'.memMap i = s.k.memMap i by rw [hmemMap, Function.update_of_ne hij]]
      exact h.off i hi hoff.1

theorem OnFreePages.of_eq {memMap : PageMap} (h : OnFreePages memMap s)
    (hforked : s'.forked = s.forked) (hmemMap : s'.k.memMap = s.k.memMap) :
    OnFreePages memMap s' := by
  constructor
  · rw [hforked]
    exact h.page
  · rw [hforked, hmemMap]
    exact h.off

theorem onFreePages_step (hfuel : nrTasks ≤ fuel) {memMap : PageMap} (op : PidOp) (s s' : Sys)
    (h : Consistent img s ∧ OnFreePages memMap s) (hstep : pidStep img fuel op s = some s') :
    Consistent img s' ∧ OnFreePages memMap s' := by
  obtain ⟨hc, h⟩ := h
  refine ⟨(simulates_pidStep hfuel).kept op s s' hc hstep, ?_⟩
  cases op with
  | fork caller cloneFlags stack arg =>
      have hfork : sysStep img fuel (.doFork (s.k.gTask caller) cloneFlags stack arg) s = some s' :=
        hstep
      exact h.fork hc hfork
  | tick =>
      have htick : sysStep img fuel .tick s = some s' := hstep
      obtain rfl := eq_of_tick htick
      refine h.of_eq rfl ?_
      rw [tickHandlePeriodic, taskTickNop_eq]
      rfl
  | schedule =>
      by_cases hne : s.forked = []
      · simp [pidStep, hne] at hstep
      · rw [pidStep, if_neg hne] at hstep
        obtain ⟨hforked, -, hmemMap, -⟩ := hc.schedule_tasks hfuel hstep
        exact h.of_eq hforked hmemMap

/-- **How many tasks there are.**  After any calls from `start_kernel` on, as many tasks have been
made as there were calls of `do_fork` with a stack that is not refused, up to the slots of
`g_task` and the pages that were free.  Each of them has a page of its own that was free at the
start and is taken now, and the page map is as it was for all other pages: a fork that fails
keeps none. -/
theorem forked_run (hfuel : nrTasks ≤ fuel) (img : Image) (k : Kernel) {script : List PidOp}
    (hrun : Run.exec (pidStep img fuel) script (Sys.boot img k) = some s) :
    s.forked.length = min (min (nrTasks - 1) (freePages k.memMap).card)
        (script.countP fun op => op.poolOp.accepted) ∧
      (freePages s.k.memMap).card + s.forked.length = (freePages k.memMap).card ∧
      s.forked.Nodup ∧
      (∀ p ∈ s.forked, ∃ j, j < nrPages ∧ p = pageAddr j ∧ k.memMap j = 0#8 ∧
        s.k.memMap j ≠ 0#8) ∧
      ∀ j, j < nrPages → pageAddr j ∉ s.forked → s.k.memMap j = k.memMap j := by
  -- the counts are those of the pool; where the pages are is an invariant of the kernel's own
  have hpool := (consistent_boot img k).exec_pool hfuel script
  rw [hrun, Option.map_some, pool_boot] at hpool
  obtain ⟨hcount, htotal⟩ := exec_poolStep_count hpool.symm
  rw [List.countP_map, Function.comp_def, pool_count] at hcount
  rw [pool_count, pool_free] at htotal
  rw [TaskPool.boot_count, TaskPool.boot_free] at hcount htotal
  have hstart : OnFreePages k.memMap (Sys.boot img k) := ⟨by simp [Sys.boot], fun _ _ _ => rfl⟩
  obtain ⟨hc, hpages⟩ := Run.Reachable.invariant (onFreePages_step hfuel) ⟨script, hrun⟩
    ⟨consistent_boot img k, hstart⟩
  refine ⟨?_, ?_, (List.nodup_cons.1 hc.nodup).2, fun p hp => ?_, hpages.off⟩
  · omega
  · omega
  · obtain ⟨j, hj, hpj, hfree⟩ := hpages.page p hp
    obtain ⟨i, hi, hpi, hused⟩ := hc.page p hp
    obtain rfl : i = j := pageAddr_inj hi hj (hpi.symm.trans hpj)
    exact ⟨i, hi, hpi, hfree, hused⟩

/-- Two forks with a refused one between them. -/
def threeForks : List PidOp :=
  [.fork 0 pfKthread 0x82000 0, .schedule, .fork 1 0 0x80008 0, .fork 1 pfKthread 0x82000 0]

theorem forked_run_three :
    ∃ s, Run.exec (pidStep Image.sample nrTasks) threeForks (Sys.boot Image.sample Kernel.blank) =
        some s ∧ s.forked.length = 2 ∧ (freePages s.k.memMap).card = 131070 ∧
      ∀ p ∈ s.forked, ∃ j, j < nrPages ∧ p = pageAddr j ∧ s.k.memMap j ≠ 0#8 := by
  have hpool := (consistent_boot Image.sample Kernel.blank).exec_pool le_rfl threeForks
  rw [pool_boot, card_freePages_blank] at hpool
  have hruns : (Run.exec poolStep (threeForks.map PidOp.poolOp) (TaskPool.boot 131072)).isSome :=
    rfl
  rw [← hpool, Option.isSome_map] at hruns
  obtain ⟨s, hrun⟩ := Option.isSome_iff_exists.1 hruns
  obtain ⟨hlength, hfree, -, hpages, -⟩ := forked_run le_rfl Image.sample Kernel.blank hrun
  rw [card_freePages_blank] at hlength hfree
  have htwo : s.forked.length = 2 := hlength.trans (by decide)
  refine ⟨s, hrun, htwo, by omega, fun p hp => ?_⟩
  obtain ⟨j, hj, hpj, -, hused⟩ := hpages p hp
  exact ⟨j, hj, hpj, hused⟩

end Arm64OS
