import Arm64OS.Kernel.SchedRun

/-!
# Time slices

Four operations change a counter: a tick takes one off, a fork gives half of it away,
`reset_score` deals out new ones, and `init_task` keeps what it was linked with.  `SliceOk` is
what they all keep of one task; `TicksOk` adds that `need_resched` is the mark of a running task
that has no tick left.
-/

namespace Arm64OS

/-- A task has no more ticks than it could be dealt. -/
structure SliceOk (t : TaskStruct) : Prop where
  priority_nonneg : 0 ≤ t.priority
  priority_le : t.priority ≤ 20
  nonneg : 0 ≤ t.counter
  le : t.counter ≤ defCounter + t.priority

/-- The counters and the flags between two calls. -/
structure TicksOk (img : Image) (s : Sys) : Prop where
  slice : ∀ p ∈ s.tasks img, SliceOk (s.k.task p)
  needResched : ∀ p ∈ s.tasks img, (s.k.task p).needResched ≠ 0 →
    p = s.current ∧ (s.k.task p).counter = 0

variable {img : Image} {fuel : Nat} {s s' : Sys} {k' : Kernel} {t : TaskStruct}

theorem defCounter_eq : defCounter = 25 := rfl

/-! ## One task -/

theorem SliceOk.tick (h : SliceOk t) : SliceOk (tickTask t) := by
  have hprio := h.priority_nonneg
  have hle := h.le
  have hdef := defCounter_eq
  unfold tickTask
  split
  · refine ⟨hprio, h.priority_le, le_rfl, ?_⟩
    show 0 ≤ defCounter + t.priority
    omega
  · refine ⟨hprio, h.priority_le, ?_, ?_⟩
    · show 0 ≤ t.counter - 1
      omega
    · show t.counter - 1 ≤ defCounter + t.priority
      omega

theorem needResched_tick (h : t.needResched ≠ 0 → t.counter = 0) :
    (tickTask t).needResched ≠ 0 → (tickTask t).counter = 0 := by
  unfold tickTask
  split
  · exact fun _ => rfl
  · rename_i hleft
    intro hflag
    have hzero := h hflag
    omega

/-- The two halves of a counter. -/
theorem counter_halves (c : Int) :
    c >>> (1 : Nat) = c / 2 ∧ (c + 1) >>> (1 : Nat) = (c + 1) / 2 := by
  rw [Int.shiftRight_eq_div_pow, Int.shiftRight_eq_div_pow]
  exact ⟨rfl, rfl⟩

/-- The parent keeps one half, rounded down. -/
theorem SliceOk.parent (h : SliceOk t) : SliceOk { t with counter := t.counter >>> (1 : Nat) } := by
  have hpos := h.nonneg
  have hle := h.le
  obtain ⟨hhalf, -⟩ := counter_halves t.counter
  refine ⟨h.priority_nonneg, h.priority_le, ?_, ?_⟩
  · show 0 ≤ t.counter >>> (1 : Nat)
    omega
  · show t.counter >>> (1 : Nat) ≤ defCounter + t.priority
    omega

/-- The child gets the other half, and has a lower priority than `init_task`: half of what
`init_task` can have is still less than what the child can be dealt. -/
theorem SliceOk.child (h : SliceOk t) {pid : Int} {context : CpuContext} :
    SliceOk
      { state := .running
        pid := pid
        cpuContext := context
        counter := (t.counter + 1) >>> (1 : Nat)
        priority := 2
        needResched := 0
        preemptCount := 0 } := by
  have hpos := h.nonneg
  have hle := h.le
  have hprio := h.priority_le
  have hdef := defCounter_eq
  obtain ⟨-, hhalf⟩ := counter_halves t.counter
  refine ⟨?_, ?_, ?_, ?_⟩
  · show (0 : Int) ≤ 2
    decide
  · show (2 : Int) ≤ 20
    decide
  · show 0 ≤ (t.counter + 1) >>> (1 : Nat)
    omega
  · show (t.counter + 1) >>> (1 : Nat) ≤ defCounter + 2
    omega

theorem SliceOk.reset (h : SliceOk t) :
    SliceOk { t with counter := defCounter + t.priority } := by
  have hprio := h.priority_nonneg
  have hdef := defCounter_eq
  refine ⟨hprio, h.priority_le, ?_, le_rfl⟩
  show 0 ≤ defCounter + t.priority
  omega

theorem SliceOk.clearResched (h : SliceOk t) : SliceOk { t with needResched := 0 } :=
  ⟨h.priority_nonneg, h.priority_le, h.nonneg, h.le⟩

/-! ## One call -/

theorem ticksOk_boot (img : Image) (k : Kernel) : TicksOk img (Sys.boot img k) := by
  have htask : (Sys.boot img k).k.task img.initTask = Kernel.initTaskStruct := by
    simp [Sys.boot, Kernel.boot, schedInit]
  constructor
  · intro p hp
    obtain rfl : p = img.initTask := by simpa [Sys.boot, Sys.tasks] using hp
    rw [htask]
    exact ⟨by decide, by decide, by decide, by decide⟩
  · intro p hp hflag
    obtain rfl : p = img.initTask := by simpa [Sys.boot, Sys.tasks] using hp
    rw [htask] at hflag
    exact absurd rfl hflag

theorem ticksOk_tick (h : TicksOk img s) (hstep : sysStep img fuel .tick s = some s') :
    TicksOk img s' := by
  obtain rfl := eq_of_tick hstep
  rw [tickHandlePeriodic, taskTickNop_eq]
  constructor
  · intro p (hp : p ∈ s.tasks img)
    by_cases hpc : p = s.current
    · subst hpc
      simpa [Kernel.updTask] using (h.slice s.current hp).tick
    · simpa [Kernel.updTask, hpc] using h.slice p hp
  · intro p (hp : p ∈ s.tasks img)
    by_cases hpc : p = s.current
    · subst hpc
      have hflag := needResched_tick fun hold => (h.needResched s.current hp hold).2
      simpa [Kernel.updTask] using hflag
    · simpa [Kernel.updTask, hpc] using h.needResched p hp

theorem TicksOk.forked (h : TicksOk img s) {caller cloneFlags stack arg p : U64} {pid : Nat}
    (hcaller : caller ∈ s.tasks img) (hp : p ∉ s.tasks img)
    (hfork : Forked img caller cloneFlags stack arg p pid s.k k') :
    TicksOk img { s with k := k', forked := s.forked ++ [p], fresh := s.fresh ++ [p] } := by
  have hcases : ∀ q ∈ s.tasks img ++ [p], q = p ∨ q = caller ∨
      q ∈ s.tasks img ∧ q ≠ p ∧ q ≠ caller := by
    intro q hq
    rcases List.mem_append.mp hq with hold | hnew
    · by_cases hqc : q = caller
      · exact Or.inr (Or.inl hqc)
      · exact Or.inr (Or.inr ⟨hold, fun he => hp (he ▸ hold), hqc⟩)
    · exact Or.inl (List.mem_singleton.mp hnew)
  constructor
  · intro q hq
    show SliceOk (k'.task q)
    rcases hcases q hq with rfl | rfl | ⟨hold, hqp, hqc⟩
    · rw [hfork.child]
      exact (h.slice caller hcaller).child
    · rw [hfork.parent]
      exact (h.slice q hcaller).parent
    · rw [hfork.other q hqp hqc]
      exact h.slice q hold
  · intro q hq
    show (k'.task q).needResched ≠ 0 → q = s.current ∧ (k'.task q).counter = 0
    rcases hcases q hq with rfl | rfl | ⟨hold, hqp, hqc⟩
    · rw [hfork.child]
      exact fun hflag => absurd rfl hflag
    · rw [hfork.parent]
      intro hflag
      obtain ⟨hcurrent, hzero⟩ := h.needResched q hcaller hflag
      refine ⟨hcurrent, ?_⟩
      show (s.k.task q).counter >>> (1 : Nat) = 0
      rw [hzero]
      rfl
    · rw [hfork.other q hqp hqc]
      exact h.needResched q hold

theorem ticksOk_doFork {caller cloneFlags stack arg : U64} (hc : Consistent img s)
    (h : TicksOk img s) (hstep : sysStep img fuel (.doFork caller cloneFlags stack arg) s = some s') :
    TicksOk img s' := by
  rcases hc.doFork_cases hstep with ⟨k', rfl, -, hsame⟩ |
    ⟨j, pid, k', rfl, hcaller, hj, hfree, -, -, -, -, hforked⟩
  · have htask : ∀ p ∈ s.tasks img, k'.task p = s.k.task p := by
      intro p hp
      rcases hsame with rfl | ⟨j, hj, hfree, hagree⟩
      · rfl
      · exact hagree.task p (hc.ne_pageAddr hp hj hfree)
    exact ⟨fun p hp => (htask p hp).symm ▸ h.slice p hp,
      fun p hp => (htask p hp).symm ▸ h.needResched p hp⟩
  · exact h.forked hcaller (fun hmem => hc.ne_pageAddr hmem hj hfree rfl) hforked

/-- What `__schedule` does to the tasks before its `switch_to`: it may deal out new ticks, and
takes the mark off the task that leaves. -/
theorem scheduleBefore_task (h : Consistent img s) (hfuel : nrTasks ≤ fuel)
    {picked : Option U64} (hbefore : scheduleBefore img fuel s.current s.k = some (picked, k'))
    (p : U64) :
    ∃ t, (t = s.k.task p ∨
        t = { s.k.task p with counter := defCounter + (s.k.task p).priority }) ∧
      k'.task p = if p = s.current then { t with needResched := 0 } else t := by
  obtain ⟨r, k, hcases, hk, -⟩ := h.scheduleBefore_cases hfuel
  obtain ⟨-, rfl⟩ := Prod.mk.inj (Option.some.inj (hcases.symm.trans hbefore))
  refine ⟨k.task p, ?_, ?_⟩
  · rcases hk with rfl | rfl
    · exact Or.inl rfl
    · rw [foldl_resetCounter]
      by_cases hp : p ∈ s.forked
      · exact Or.inr (if_pos hp)
      · exact Or.inl (if_neg hp)
  · by_cases hpc : p = s.current
    · subst hpc
      simp [Kernel.updTask]
    · simp [Kernel.updTask, hpc]

theorem ticksOk_schedule {garbage : U64} (hfuel : nrTasks ≤ fuel) (hc : Consistent img s)
    (h : TicksOk img s) (hstep : sysStep img fuel (.schedule garbage) s = some s') :
    TicksOk img s' := by
  obtain ⟨picked, k', hbefore, -⟩ := hc.scheduleBefore hfuel
  -- no task is marked when `switch_to` is reached, so it does not matter which one runs next
  have hclean : ∀ p ∈ s.tasks img, SliceOk (k'.task p) ∧ (k'.task p).needResched = 0 := by
    intro p hp
    obtain ⟨t, ht, htask⟩ := scheduleBefore_task hc hfuel hbefore p
    have hslice : SliceOk t := by
      rcases ht with rfl | rfl
      · exact h.slice p hp
      · exact (h.slice p hp).reset
    have hsame : t.needResched = (s.k.task p).needResched := by
      rcases ht with rfl | rfl <;> rfl
    rw [htask]
    by_cases hpc : p = s.current
    · rw [if_pos hpc]
      exact ⟨hslice.clearResched, rfl⟩
    · rw [if_neg hpc, hsame]
      refine ⟨hslice, ?_⟩
      by_contra hflag
      exact hpc (h.needResched p hp hflag).1
  have hdone : ∀ s₁ : Sys, s₁.k.task = k'.task → s₁.forked = s.forked → TicksOk img s₁ := by
    intro s₁ htask hforked
    have htasks : s₁.tasks img = s.tasks img := by rw [Sys.tasks, hforked]; rfl
    refine ⟨fun p hp => ?_, fun p hp hflag => ?_⟩
    · rw [htask]
      exact (hclean p (htasks ▸ hp)).1
    · rw [htask] at hflag
      exact absurd (hclean p (htasks ▸ hp)).2 hflag
  rcases sysStep_schedule_cases hbefore hstep with ⟨-, rfl⟩ | ⟨-, -, rfl⟩ | ⟨-, -, -, rfl⟩
  all_goals exact hdone _ rfl rfl

/-! ## Every run -/

theorem ticksOk_reachable {k : Kernel} (hfuel : nrTasks ≤ fuel)
    (hs : Run.Reachable (sysStep img fuel) (Sys.boot img k) s) : TicksOk img s := by
  have hboth : Consistent img s ∧ TicksOk img s := by
    refine hs.invariant (I := fun s => Consistent img s ∧ TicksOk img s) ?_
      ⟨consistent_boot img k, ticksOk_boot img k⟩
    rintro op s s' ⟨hc, h⟩ hstep
    refine ⟨consistent_step hfuel op s s' hc hstep, ?_⟩
    cases op with
    | doFork caller cloneFlags stack arg => exact ticksOk_doFork hc h hstep
    | tick => exact ticksOk_tick h hstep
    | schedule garbage => exact ticksOk_schedule hfuel hc h hstep
  exact hboth.2

/-- In every reachable state no task has more than `DEF_COUNTER` ticks and its priority, or a
negative number of them; `need_resched` marks the running task at most, and only while it has no
tick left; and a `do_fork` that succeeds from there divides the ticks of the parent. -/
theorem ticks_run {k : Kernel} (hfuel : nrTasks ≤ fuel)
    (hs : Run.Reachable (sysStep img fuel) (Sys.boot img k) s) :
    (∀ p ∈ s.tasks img, 0 ≤ (s.k.task p).counter ∧
      (s.k.task p).counter ≤ defCounter + (s.k.task p).priority) ∧
    (∀ p ∈ s.tasks img, (s.k.task p).needResched ≠ 0 →
      p = s.current ∧ (s.k.task p).counter = 0) ∧
    ∀ caller ∈ s.tasks img, ∀ (cloneFlags stack arg : U64) (pid : Int) (k' : Kernel),
      doFork img caller cloneFlags stack arg s.k = (pid, k') → 0 ≤ pid →
      (k'.task (k'.gTask pid.toNat)).counter + (k'.task caller).counter =
        (s.k.task caller).counter := by
  have hc := consistent_reachable hfuel hs
  have h := ticksOk_reachable hfuel hs
  refine ⟨fun p hp => ⟨(h.slice p hp).nonneg, (h.slice p hp).le⟩, h.needResched, ?_⟩
  intro caller hcaller cloneFlags stack arg pid k' hfork hpid
  rcases doFork_cases img cloneFlags stack arg s.k
    (fun j hj hfree => hc.ne_pageAddr hcaller hj hfree)
    with ⟨k₁, hfork₁, -⟩ | ⟨j, slot, k₁, -, -, -, -, -, -, hfork₁, -, hforked⟩
  · obtain ⟨rfl, -⟩ := Prod.mk.inj (hfork₁.symm.trans hfork)
    exact absurd hpid (by decide)
  · obtain ⟨rfl, rfl⟩ := Prod.mk.inj (hfork₁.symm.trans hfork)
    have hslot : k₁.gTask (slot : Int).toNat = pageAddr j := by simp [hforked.gTask]
    obtain ⟨hhalf, hhalf'⟩ := counter_halves (s.k.task caller).counter
    rw [hslot, hforked.child, hforked.parent]
    show ((s.k.task caller).counter + 1) >>> (1 : Nat) + (s.k.task caller).counter >>> (1 : Nat) =
      (s.k.task caller).counter
    omega

theorem ticks_run_two :
    ∃ s, Run.Reachable (sysStep Image.sample nrTasks) (Sys.boot Image.sample Kernel.blank) s ∧
      ∀ p ∈ [pageAddr 0, pageAddr 1], 0 ≤ (s.k.task p).counter ∧
        (s.k.task p).counter ≤ defCounter + (s.k.task p).priority := by
  obtain ⟨s, hforked, -, hs⟩ := exists_forkTwice
  refine ⟨s, hs, fun p hp => (ticks_run le_rfl hs).1 p ?_⟩
  rw [Sys.tasks, hforked]
  exact List.mem_cons_of_mem _ hp

end Arm64OS
