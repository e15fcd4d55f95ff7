import Arm64OS.Kernel.Fork
import Arm64OS.Lib.Budget

/-!
# The scheduling class

`kernel/sched_nop.c`: one run queue, from which the task with the most ticks left is
picked.  When every queued task has used its ticks up, all tasks of the ring get new ones
and the queue is searched again.

`next` is an uninitialised local of `pick_next_task_nop`; `none` stands for its
indeterminate value, which the function returns when the queue is empty.
-/

namespace Arm64OS

open Ring

/-- `dequeue_task_nop`. -/
def dequeueTaskNop (p : U64) (k : Kernel) : Kernel :=
  { k with
    nrRunning := k.nrRunning - 1
    runList := listDel (runListOf p) k.runList }

/-- `task_tick_nop`. -/
def taskTickNop (p : U64) (k : Kernel) : Kernel :=
  let k := k.updTask p fun t => { t with counter := t.counter - 1 }
  if (k.task p).counter ≤ 0 then
    let k := k.updTask p fun t => { t with counter := 0 }
    k.updTask p fun t => { t with needResched := 1 }
  else
    k

def goodness (k : Kernel) (p : U64) : Int := (k.task p).counter

/-- `for_each_task`: the tasks visited, unless the loop is still running after `fuel`. -/
def forEachTask (img : Image) (fuel : Nat) (k : Kernel) : Option (List U64) :=
  walk k.ring.nextOf img.initTask fuel (k.ring.nextOf img.initTask)

/-- The body of the loop of `reset_score`. -/
def resetCounter (k : Kernel) (p : U64) : Kernel :=
  k.updTask p fun t => { t with counter := defCounter + t.priority }

/-- `reset_score`. -/
def resetScore (img : Image) (fuel : Nat) (k : Kernel) : Option Kernel :=
  (forEachTask img fuel k).map fun tasks => tasks.foldl resetCounter k

/-- The body of the loop of `pick_next_task_nop`, on `(c, next)`. -/
def pickStep (k : Kernel) (best : Int × Option U64) (tmp : U64) : Int × Option U64 :=
  let p := listEntry tmp
  let weight := goodness k p
  if weight > best.1 then (weight, some p) else best

/-- `pick_next_task_nop` from the label `repeat` on: at most `rounds` passes over the queue,
none of them longer than `fuel`. -/
def pickRepeat (img : Image) (fuel : Nat) :
    (rounds : Nat) → Option U64 → Kernel → Option (Option U64 × Kernel)
  | 0, _, _ => none
  | rounds + 1, next, k => do
      let visited ← listForEach fuel img.rqHead k.runList
      let (c, next) := visited.foldl (pickStep k) (-1000, next)
      if c = 0 then
        let k ← resetScore img fuel k
        pickRepeat img fuel rounds next k
      else
        some (next, k)

/-- `pick_next_task_nop`: the task picked and the state after it. -/
def pickNextTaskNop (img : Image) (fuel : Nat) (k : Kernel) : Option (Option U64 × Kernel) :=
  pickRepeat img fuel fuel none k

/-- What a tick makes of the running task. -/
def tickTask (t : TaskStruct) : TaskStruct :=
  if t.counter - 1 ≤ 0 then { t with counter := 0, needResched := 1 }
  else { t with counter := t.counter - 1 }

theorem taskTickNop_eq (p : U64) (k : Kernel) : taskTickNop p k = k.updTask p tickTask := by
  by_cases hzero : (k.task p).counter - 1 ≤ 0
  · simp [taskTickNop, tickTask, Kernel.updTask, hzero]
  · simp [taskTickNop, tickTask, Kernel.updTask, hzero]

theorem counter_tickTask (t : TaskStruct) : 0 ≤ (tickTask t).counter := by
  rw [tickTask]
  split
  · exact le_rfl
  · show 0 ≤ t.counter - 1
    omega

/-! ## The maximum of the queue -/

/-- One pass: `c` and `next` stay where no counter is above `c`, and otherwise become those of the
first task with the largest counter. -/
theorem pickStep_foldl (k : Kernel) (ps : List U64) (c : Int) (next : Option U64) :
    (ps.map runListOf).foldl (pickStep k) (c, next) = (c, next) ∧ (∀ p ∈ ps, goodness k p ≤ c) ∨
    ∃ p, (ps.map runListOf).foldl (pickStep k) (c, next) = (goodness k p, some p) ∧
      c < goodness k p ∧ Budget.IsFirstMax (goodness k) ps p := by
  induction ps generalizing c next with
  | nil => exact Or.inl ⟨rfl, by simp⟩
  | cons p ps ih =>
      by_cases hbetter : goodness k p > c
      · have hstep : pickStep k (c, next) (runListOf p) = (goodness k p, some p) := by
          simp [pickStep, hbetter]
        rw [List.map_cons, List.foldl_cons, hstep]
        rcases ih (goodness k p) (some p) with ⟨heq, hall⟩ | ⟨q, heq, hlt, hmax⟩
        · exact Or.inr ⟨p, heq, hbetter, [], ps, rfl, by simp, hall⟩
        · exact Or.inr ⟨q, heq, by omega, hmax.cons_of_lt hlt⟩
      · have hstep : pickStep k (c, next) (runListOf p) = (c, next) := by
          simp [pickStep, hbetter]
        rw [List.map_cons, List.foldl_cons, hstep]
        rcases ih c next with ⟨heq, hall⟩ | ⟨q, heq, hlt, hmax⟩
        · refine Or.inl ⟨heq, ?_⟩
          intro q hq
          rcases List.mem_cons.1 hq with rfl | hq
          · exact not_lt.1 hbetter
          · exact hall q hq
        · exact Or.inr ⟨q, heq, hlt, hmax.cons_of_lt (by omega)⟩

/-! ## The whole call -/

/-- Resetting the counters of a list of tasks, some of them perhaps twice. -/
theorem foldl_resetCounter (tasks : List U64) (k : Kernel) :
    tasks.foldl resetCounter k =
      { k with
        task := fun p =>
          if p ∈ tasks then { k.task p with counter := defCounter + (k.task p).priority }
          else k.task p } := by
  induction tasks generalizing k with
  | nil => simp
  | cons t tasks ih =>
      rw [List.foldl_cons, ih]
      congr 1
      funext p
      by_cases hpt : p = t
      · subst hpt
        simp [resetCounter, Kernel.updTask]
      · simp [resetCounter, Kernel.updTask, hpt]

variable {img : Image} {fuel : Nat} {k : Kernel} {ps tasks : List U64}

/-- With an empty queue `pick_next_task_nop` returns its uninitialised local. -/
theorem pickNextTaskNop_nil (hqueue : listForEach fuel img.rqHead k.runList = some [])
    (hfuel : 2 ≤ fuel) : pickNextTaskNop img fuel k = some (none, k) := by
  obtain ⟨fuel, rfl⟩ : ∃ n, fuel = n + 1 := ⟨fuel - 1, by omega⟩
  simp [pickNextTaskNop, pickRepeat, hqueue]

/-- What `pick_next_task_nop` did: the queue had ticks left and nothing changed, or no task of the
queue had any and all tasks of the ring got new ones. -/
def PickEffect (ps tasks : List U64) (k k' : Kernel) : Prop :=
  k' = k ∧ (∃ q ∈ ps, 0 < (k.task q).counter) ∨
    (∀ q ∈ ps, (k.task q).counter = 0) ∧ k' = tasks.foldl resetCounter k

/-- A task that has ticks left keeps them. -/
theorem PickEffect.counter_eq {k' : Kernel} (h : PickEffect ps tasks k k')
    (hsub : ∀ p ∈ tasks, p ∈ ps) {q : U64} (hpos : 0 < (k.task q).counter) :
    (k'.task q).counter = (k.task q).counter := by
  rcases h with ⟨rfl, -⟩ | ⟨hused, rfl⟩
  · rfl
  · have hnot : q ∉ tasks := by
      intro hmem
      have hzero := hused q (hsub q hmem)
      omega
    rw [foldl_resetCounter]
    simp [hnot]

/-- With a non-empty queue of tasks from the ring, two passes are enough.  The task picked has
ticks left, and is the first of those that have the most. -/
theorem pickRepeat_cons
    (hqueue : listForEach fuel img.rqHead k.runList = some (ps.map runListOf))
    (hring : forEachTask img fuel k = some tasks) (hne : ps ≠ [])
    (hsub : ∀ p ∈ ps, p ∈ tasks) (hcounter : ∀ p ∈ ps, 0 ≤ (k.task p).counter)
    (hpriority : ∀ p ∈ ps, 0 ≤ (k.task p).priority) :
    ∃ p k', (∀ rounds, pickRepeat img fuel (rounds + 2) none k = some (some p, k')) ∧
      0 < (k'.task p).counter ∧ Budget.IsFirstMax (goodness k') ps p ∧ PickEffect ps tasks k k' := by
  obtain ⟨q, hq⟩ := List.exists_mem_of_ne_nil ps hne
  -- one pass over any state in which no queued task has a negative counter
  have hpass : ∀ (next : Option U64) (k' : Kernel), (∀ p ∈ ps, 0 ≤ (k'.task p).counter) →
      ∃ p, (ps.map runListOf).foldl (pickStep k') (-1000, next) = (goodness k' p, some p) ∧
        Budget.IsFirstMax (goodness k') ps p := by
    intro next k' hpos
    rcases pickStep_foldl k' ps (-1000) next with ⟨-, hall⟩ | ⟨p, heq, -, hmax⟩
    · have hlow := hall q hq
      have hhigh := hpos q hq
      simp only [goodness] at hlow
      omega
    · exact ⟨p, heq, hmax⟩
  obtain ⟨p, hfirst, hmax⟩ := hpass none k hcounter
  by_cases hzero : goodness k p = 0
  · obtain ⟨k', hk'⟩ : ∃ k', tasks.foldl resetCounter k = k' := ⟨_, rfl⟩
    have hreset : ∀ p ∈ ps, 0 < (k'.task p).counter := by
      intro r hr
      have hprio := hpriority r hr
      have hdef : defCounter = 25 := rfl
      simp only [← hk', foldl_resetCounter, hsub r hr, if_true]
      omega
    have hqueue' : listForEach fuel img.rqHead k'.runList = some (ps.map runListOf) := by
      rw [← hk', foldl_resetCounter]
      exact hqueue
    obtain ⟨p', hsecond, hmax'⟩ := hpass (some p) k' fun r hr => le_of_lt (hreset r hr)
    have hpositive : 0 < goodness k' p' := hreset p' hmax'.mem
    have hused : ∀ q ∈ ps, (k.task q).counter = 0 :=
      fun q hq => le_antisymm (hzero ▸ hmax.le hq) (hcounter q hq)
    refine ⟨p', k', fun rounds => ?_, hpositive, hmax', Or.inr ⟨hused, hk'.symm⟩⟩
    simp [pickRepeat, hqueue, hfirst, hzero, resetScore, hring, hk', hqueue', hsecond,
      hpositive.ne']
  · have hpositive : 0 < goodness k p := lt_of_le_of_ne (hcounter p hmax.mem) (Ne.symm hzero)
    refine ⟨p, k, fun rounds => ?_, hpositive, hmax, Or.inl ⟨rfl, p, hmax.mem, hpositive⟩⟩
    simp [pickRepeat, hqueue, hfirst, hzero]

theorem pickNextTaskNop_eq_pickRepeat (hfuel : 2 ≤ fuel) :
    ∃ rounds, pickNextTaskNop img fuel k = pickRepeat img fuel (rounds + 2) none k :=
  ⟨fuel - 2, by rw [pickNextTaskNop, Nat.sub_add_cancel hfuel]⟩

end Arm64OS
