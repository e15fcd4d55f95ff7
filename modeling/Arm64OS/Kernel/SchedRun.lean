import Arm64OS.Kernel.Sched

/-!
# Runs of the task machine

What holds in every state that `do_fork`, timer ticks and `__schedule` can reach.

* `structures_run`: the run queue, the task ring and the table of tasks hold the same tasks.
* `pick_run`: which task `pick_next_task_nop` takes, and when it deals out new ticks.
* `staysQueued_run_iff`: `__schedule` leaves a runnable task off the run queue exactly
  when that task is `init_task`, which `wake_up_process` never saw.
-/

namespace Arm64OS

variable {img : Image} {fuel : Nat} {s : Sys}

/-! ## The three structures -/

theorem Consistent.map_pid (h : Consistent img s) :
    s.forked.map (fun p => (s.k.task p).pid) =
      (List.range' 1 s.forked.length).map fun i : Nat => (i : Int) := by
  refine List.ext_getElem (by simp) fun i hi hi' => ?_
  have hlt : i < s.forked.length := by simpa using hi
  have hpid := h.pid (i + 1) s.forked[i] (by simp [Sys.tasks])
  simp only [List.getElem_map, List.getElem_range']
  rw [hpid]
  omega

theorem Consistent.gTask_eq_getElem (h : Consistent img s) {i : Nat}
    (hi : i < (s.tasks img).length) : s.k.gTask i = (s.tasks img)[i] := by
  rw [h.gTask i, List.getElem?_eq_getElem hi, Option.getD_some]

/-- **The three structures agree in every reachable state.**  The run queue is a well-formed
circular list of the forked tasks, each of them once, and `nr_running` is its length; the
task ring is well formed and `for_each_task` visits the forked tasks in the order of their
identifiers; the slots of `g_task` up to `total_forks` hold distinct tasks, each under its
own identifier, and the later slots are `NULL`. -/
theorem structures_run {k : Kernel} (hfuel : nrTasks ≤ fuel)
    (hs : Run.Reachable (sysStep img fuel) (Sys.boot img k) s) :
    (s.k.runList.IsList img.rqHead (s.forked.reverse.map runListOf) ∧
      (∀ n ∈ img.rqHead :: s.forked.reverse.map runListOf,
        s.k.runList.prevOf (s.k.runList.nextOf n) = n ∧
        s.k.runList.nextOf (s.k.runList.prevOf n) = n) ∧
      s.forked.Nodup ∧
      s.k.nrRunning.toNat = s.forked.length) ∧
    (s.k.ring.IsList img.initTask s.forked ∧
      (∀ p ∈ s.tasks img, s.k.ring.prevOf (s.k.ring.nextOf p) = p ∧
        s.k.ring.nextOf (s.k.ring.prevOf p) = p) ∧
      forEachTask img fuel s.k = some s.forked ∧
      s.forked.map (fun p => (s.k.task p).pid) =
        (List.range' 1 s.forked.length).map fun i : Nat => (i : Int)) ∧
    (s.k.totalForks.toNat = s.forked.length ∧
      (∀ i, i ≤ s.k.totalForks.toNat →
        s.k.gTask i ∈ s.tasks img ∧ s.k.gTask i ≠ 0#64 ∧ (s.k.task (s.k.gTask i)).pid = i) ∧
      (∀ i j, i ≤ s.k.totalForks.toNat → j ≤ s.k.totalForks.toNat →
        s.k.gTask i = s.k.gTask j → i = j) ∧
      ∀ i, s.k.totalForks.toNat < i → i < nrTasks → s.k.gTask i = 0#64) := by
  have h := consistent_reachable hfuel hs
  have hlength := h.length
  have hcount : (s.tasks img).length = s.forked.length + 1 := by simp [Sys.tasks]
  have hsmall : s.forked.length < 2 ^ 32 := Nat.lt_trans hlength (by decide)
  have htotal : s.k.totalForks.toNat = s.forked.length := by
    rw [h.totalForks, BitVec.toNat_ofNat]
    exact Nat.mod_eq_of_lt (Nat.lt_trans hsmall (by decide))
  refine ⟨⟨h.queue, ?_, (List.nodup_cons.1 h.nodup).2, ?_⟩,
    ⟨h.ring, ?_, h.forEachTask hfuel, h.map_pid⟩, htotal, ?_, ?_, ?_⟩
  · intro n hn
    exact ⟨h.queue.back n hn, (h.queue.next_prev hn).1⟩
  · rw [h.nrRunning, BitVec.toNat_ofNat]
    exact Nat.mod_eq_of_lt hsmall
  · intro p hp
    exact ⟨h.ring.back p hp, (h.ring.next_prev hp).1⟩
  · intro i hi
    have hlt : i < (s.tasks img).length := by omega
    have hmem := List.getElem_mem hlt
    rw [h.gTask_eq_getElem hlt]
    exact ⟨hmem, h.task_ne_zero hmem, h.pid i _ (List.getElem?_eq_getElem hlt)⟩
  · intro i j hi hj hij
    have hlti : i < (s.tasks img).length := by omega
    have hltj : j < (s.tasks img).length := by omega
    rw [h.gTask_eq_getElem hlti, h.gTask_eq_getElem hltj] at hij
    exact (h.nodup.getElem_inj_iff).1 hij
  · intro i hi _
    rw [h.gTask i, List.getElem?_eq_none (by omega), Option.getD_none]

/-- `init_task` can fork a task from a booted kernel with blank memory. -/
theorem exists_fork_boot (img : Image) (fuel : Nat) {cloneFlags stack : U64} (arg : U64)
    (haccepted : ¬ StackRefused cloneFlags stack) :
    ∃ s p, s.forked = [p] ∧ s.current = img.initTask ∧ s.fresh = [p] ∧
      sysStep img fuel (.doFork img.initTask cloneFlags stack arg)
        (Sys.boot img Kernel.blank) = some s := by
  have hboot := consistent_boot img Kernel.blank
  have hcaller : img.initTask ∈ (Sys.boot img Kernel.blank).tasks img := by
    simp [Sys.tasks]
  rcases doFork_cases img cloneFlags stack arg (Sys.boot img Kernel.blank).k
      (fun j hj hfree => hboot.ne_pageAddr hcaller hj hfree) with
    ⟨-, -, -, -, hwhy⟩ | ⟨j, pid, k', -, -, -, -, -, -, hfork, -, hforked⟩
  · rcases hwhy with hpages | hslots | hrefused
    · exact absurd rfl (hpages 0 (by decide))
    · exact absurd rfl (hslots 1 (by decide))
    · exact absurd hrefused haccepted
  · have hchild : k'.gTask pid = pageAddr j := by simp [hforked.gTask]
    have hpos : ¬ (pid : Int) < 0 := by omega
    refine ⟨⟨k', img.initTask, [pageAddr j], [pageAddr j]⟩, pageAddr j, rfl, rfl, rfl, ?_⟩
    simp only [sysStep, hcaller, if_true, hfork, hpos, if_false, Int.toNat_natCast, hchild]
    rfl

/-- The kernel thread of the examples. -/
theorem exists_thread_boot : ∃ s p, s.forked = [p] ∧ s.current = Image.sample.initTask ∧
    Run.Reachable (sysStep Image.sample nrTasks) (Sys.boot Image.sample Kernel.blank) s := by
  obtain ⟨s, p, hforked, hcurrent, -, hstep⟩ := exists_fork_boot Image.sample nrTasks 0
    (by decide : ¬ StackRefused pfKthread 0x82000)
  exact ⟨s, p, hforked, hcurrent, (Run.Reachable.refl _).tail hstep⟩

/-- `init_task` forks a kernel thread and is preempted; the thread forks another one. -/
def forkTwice : List SysOp :=
  [.doFork Image.sample.initTask pfKthread 0x82000 0, .tick, .schedule 0,
    .doFork (pageAddr 0) pfKthread 0x83000 0, .tick]

theorem exists_forkTwice : ∃ s, s.forked = [pageAddr 0, pageAddr 1] ∧ s.current = pageAddr 0 ∧
    Run.Reachable (sysStep Image.sample nrTasks) (Sys.boot Image.sample Kernel.blank) s := by
  have hrun : (Run.exec (sysStep Image.sample nrTasks) forkTwice
      (Sys.boot Image.sample Kernel.blank)).map (fun s => (s.forked, s.current)) =
        some ([pageAddr 0, pageAddr 1], pageAddr 0) := by
    decide +kernel
  obtain ⟨s, hs, hend⟩ := Option.map_eq_some_iff.1 hrun
  obtain ⟨hforked, hcurrent⟩ := Prod.mk.inj hend
  exact ⟨s, hforked, hcurrent, forkTwice, hs⟩

theorem structures_run_two :
    ∃ s, Run.Reachable (sysStep Image.sample nrTasks) (Sys.boot Image.sample Kernel.blank) s ∧
      s.forked.length = 2 ∧ s.k.nrRunning.toNat = s.forked.length := by
  obtain ⟨s, hforked, -, hs⟩ := exists_forkTwice
  exact ⟨s, hs, by rw [hforked]; rfl, (structures_run le_rfl hs).1.2.2.2⟩

/-! ## The task picked -/

/-- **The choice of `pick_next_task_nop` in every reachable state.**  With forked tasks on the
queue two passes are enough.  The task picked has ticks left, and is the first on the queue of
those that have the most; new ticks are dealt out only when no task of the queue has any, so
that no task loses ticks. -/
theorem pick_run {k : Kernel} (hfuel : nrTasks ≤ fuel)
    (hs : Run.Reachable (sysStep img fuel) (Sys.boot img k) s) (hne : s.forked ≠ []) :
    listForEach fuel img.rqHead s.k.runList = some (s.forked.reverse.map runListOf) ∧
    forEachTask img fuel s.k = some s.forked ∧
    ∃ p k', pickNextTaskNop img fuel s.k = some (some p, k') ∧
      (∀ rounds, pickRepeat img fuel (rounds + 2) none s.k = some (some p, k')) ∧
      0 < (k'.task p).counter ∧ Budget.IsFirstMax (goodness k') s.forked.reverse p ∧
      PickEffect s.forked.reverse s.forked s.k k' ∧
      ∀ q, 0 < (s.k.task q).counter → (k'.task q).counter = (s.k.task q).counter := by
  have h := consistent_reachable hfuel hs
  have hmem : ∀ p ∈ s.forked.reverse, p ∈ s.forked := fun p hp => List.mem_reverse.1 hp
  have hne' : s.forked.reverse ≠ [] := fun hempty => hne (List.reverse_eq_nil_iff.1 hempty)
  obtain ⟨p, k', hpick, hpos, hmax, heffect⟩ := pickRepeat_cons (h.listForEach hfuel)
    (h.forEachTask hfuel) hne' hmem
    (fun p hp => h.counter p (Sys.mem_tasks_of_forked (hmem p hp)))
    (fun p hp => by rw [h.priority p (hmem p hp)]; decide)
  obtain ⟨rounds, hrounds⟩ :=
    @pickNextTaskNop_eq_pickRepeat img fuel s.k (Nat.le_trans (by decide) hfuel)
  exact ⟨h.listForEach hfuel, h.forEachTask hfuel, p, k', hrounds.trans (hpick rounds), hpick,
    hpos, hmax, heffect, fun q => heffect.counter_eq fun p hp => List.mem_reverse.2 hp⟩

theorem pick_run_two :
    ∃ s, Run.Reachable (sysStep Image.sample nrTasks) (Sys.boot Image.sample Kernel.blank) s ∧
      s.forked = [pageAddr 0, pageAddr 1] ∧
      ∃ p k', pickNextTaskNop Image.sample nrTasks s.k = some (some p, k') ∧
        0 < (k'.task p).counter ∧
        Budget.IsFirstMax (goodness k') [pageAddr 1, pageAddr 0] p := by
  obtain ⟨s, hforked, -, hs⟩ := exists_forkTwice
  obtain ⟨-, -, p, k', hpick, -, hpos, hmax, -⟩ := pick_run le_rfl hs (by simp [hforked])
  rw [hforked] at hmax
  exact ⟨s, hs, hforked, p, k', hpick, hpos, hmax⟩

/-! ## Runnable tasks and the run queue -/

/-- `p` is linked on the run queue. -/
def Linked (img : Image) (k : Kernel) (p : U64) : Prop :=
  ∃ xs, k.runList.IsList img.rqHead xs ∧ runListOf p ∈ xs

/-- A call of `__schedule` comes to `switch_to`, and if it switches away from a runnable
task, that task is linked on the run queue. -/
def StaysQueued (img : Image) (fuel : Nat) : SysOp → Sys → Prop
  | .schedule garbage, s => ∃ picked k',
      scheduleBefore img fuel s.current s.k = some (picked, k') ∧
      ((s.k.task s.current).state = .running → picked.getD garbage ≠ s.current →
        Linked img k' s.current)
  | .doFork .., _ => True
  | .tick, _ => True

/-- `__schedule` is not entered by `init_task`; or it is, but the queue is empty and the
uninitialised `next` happens to hold `init_task`, so that nothing is switched. -/
def NotFromInit (img : Image) : SysOp → Sys → Prop
  | .schedule garbage, s =>
      s.current ≠ img.initTask ∨
        listEmpty img.rqHead s.k.runList = true ∧ garbage = img.initTask
  | .doFork .., _ => True
  | .tick, _ => True

/-- The run queue is empty only before the first successful fork. -/
theorem Consistent.listEmpty_iff (h : Consistent img s) :
    listEmpty img.rqHead s.k.runList = true ↔ s.forked = [] := by
  rw [listEmpty_of_path h.queue.path (List.nodup_cons.1 h.queue.nodup).1]
  simp

/-- `init_task` is on no run queue: nothing ever enqueued it. -/
theorem Consistent.not_linked_initTask (h : Consistent img s) {k' : Kernel}
    (hsame : k'.runList = s.k.runList) : ¬ Linked img k' img.initTask := by
  rintro ⟨xs, hlist, hmem⟩
  rw [hsame] at hlist
  have hxs : xs = s.forked.reverse.map runListOf :=
    hlist.path.unique h.queue.path (List.nodup_cons.1 hlist.nodup).1
      (List.nodup_cons.1 h.queue.nodup).1
  rw [hxs] at hmem
  obtain ⟨p, hp, hpi⟩ := List.mem_map.1 hmem
  have hforked : img.initTask ∈ s.forked := runListOf_inj hpi ▸ List.mem_reverse.1 hp
  exact (List.nodup_cons.1 h.nodup).1 hforked

/-- The two predicates on a step agree in every consistent state. -/
theorem Consistent.staysQueued_iff (h : Consistent img s) (hfuel : nrTasks ≤ fuel) (op : SysOp) :
    StaysQueued img fuel op s ↔ NotFromInit img op s := by
  cases op with
  | doFork caller cloneFlags stack arg => exact Iff.rfl
  | tick => exact Iff.rfl
  | schedule garbage =>
      obtain ⟨picked, k', hbefore, hk', hsame, hpicked⟩ := h.scheduleBefore hfuel
      have hrunning := h.state s.current h.current
      constructor
      · rintro ⟨picked', k'', hbefore', hlinked⟩
        obtain ⟨rfl, rfl⟩ : picked = picked' ∧ k' = k'' := by
          simpa using hbefore.symm.trans hbefore'
        by_cases hinit : s.current = img.initTask
        · -- `init_task` is not queued, so it must not have been switched away from
          refine Or.inr ?_
          have hnot : picked.getD garbage = s.current := by
            by_contra hne
            exact h.not_linked_initTask hsame (hinit ▸ hlinked hrunning hne)
          rw [h.listEmpty_iff]
          rcases hpicked with ⟨hnil, rfl⟩ | ⟨p, hp, rfl⟩
          · exact ⟨hnil, hnot.trans hinit⟩
          · have hp' : img.initTask ∈ s.forked := by
              rw [← hinit, ← hnot]
              exact hp
            exact absurd hp' (List.nodup_cons.1 h.nodup).1
        · exact Or.inl hinit
      · intro hcond
        refine ⟨picked, k', hbefore, fun _ hne => ?_⟩
        rcases hcond with hinit | ⟨hempty, hgarbage⟩
        · have hforked : s.current ∈ s.forked := (List.mem_cons.1 h.current).resolve_left hinit
          exact ⟨_, hsame ▸ h.queue, Consistent.mem_queue hforked⟩
        · rw [h.listEmpty_iff] at hempty
          rcases hpicked with ⟨-, rfl⟩ | ⟨p, hp, rfl⟩
          · -- before the first fork only `init_task` can be running
            have hcurrent : s.current = img.initTask := by
              simpa [Sys.tasks, hempty] using h.current
            exact absurd (hgarbage.trans hcurrent.symm) hne
          · simp [hempty] at hp

/-- **No runnable task but `init_task` is lost.**  In every run from boot, and at each step
of it, `__schedule` switches away from a runnable task only while that task is linked on the
run queue if and only if it is not entered by `init_task`. -/
theorem staysQueued_run_iff {k : Kernel} (hfuel : nrTasks ≤ fuel)
    (hs : Run.Reachable (sysStep img fuel) (Sys.boot img k) s) (op : SysOp) :
    StaysQueued img fuel op s ↔ NotFromInit img op s :=
  (consistent_reachable hfuel hs).staysQueued_iff hfuel op

/-- The first thread calls `__schedule`. -/
theorem staysQueued_run_iff_two :
    ∃ s, Run.Reachable (sysStep Image.sample nrTasks) (Sys.boot Image.sample Kernel.blank) s ∧
      s.current = pageAddr 0 ∧ StaysQueued Image.sample nrTasks (.schedule 0) s := by
  obtain ⟨s, -, hcurrent, hs⟩ := exists_forkTwice
  have hthread : NotFromInit Image.sample (.schedule 0) s := by
    refine Or.inl ?_
    rw [hcurrent]
    decide
  exact ⟨s, hs, hcurrent, (staysQueued_run_iff le_rfl hs (.schedule 0)).2 hthread⟩

/-- Fork once, then call `__schedule`: it switches from `init_task` to the new task, and
`init_task` is on no list. -/
theorem initTask_lost :
    ¬ ∀ s, Run.Reachable (sysStep Image.sample nrTasks) (Sys.boot Image.sample Kernel.blank) s →
      StaysQueued Image.sample nrTasks (.schedule 0) s := by
  intro hall
  obtain ⟨s, p, hforked, hcurrent, hs⟩ := exists_thread_boot
  have h := consistent_reachable le_rfl hs
  rcases (h.staysQueued_iff le_rfl _).1 (hall s hs) with hinit | ⟨hempty, -⟩
  · exact hinit hcurrent
  · rw [h.listEmpty_iff, hforked] at hempty
    exact absurd hempty (by simp)

end Arm64OS
