import Arm64OS.Kernel.SchedBudget
import Arm64OS.Lib.Potential

/-!
# No forked task starves

Tasks fork, timer interrupts come in and `__schedule` is called, in any order.  A forked task
that does not run pays nothing, while every tick that finds `need_resched` clear takes
something off the other tasks or marks one of them; new ticks are dealt out only once, since
then the task that waits has some itself.  So `maxWait` such ticks are all that a forked task
can miss.
-/

namespace Arm64OS

/-- `do_fork` works on `current`. -/
def OwnCall : SysOp → Sys → Prop
  | .doFork caller .., s => caller = s.current
  | .tick, _ => True
  | .schedule _, _ => True

/-- The ticks that count: `need_resched` has been seen to before the next of them. -/
def tickPrice : SysOp → Sys → Nat
  | .tick, s => if s.marked then 0 else 1
  | .doFork .., _ => 0
  | .schedule _, _ => 0

/-- A deal, to as many tasks as there can be forked ones. -/
def maxDeal : Nat := forkedSlice * (nrTasks - 1)

/-- The ticks of `init_task` and of the others, a deal, one tick for a mark and one for each
fork. -/
def maxWait : Nat := 45 + 2 * maxDeal + 1 + nrTasks

/-- All ticks there are. -/
def Sys.ticksLeft (img : Image) (s : Sys) : Nat := ((s.tasks img).map s.budget.budget).sum

/-- The deal that comes before `p` runs, if `p` has no ticks. -/
def dealDue (p : U64) (s : Sys) : Nat := if s.budget.budget p = 0 then maxDeal else 0

/-- The tick that marks a running task which has nothing left. -/
def markDue (s : Sys) : Nat := if s.budget.budget s.current = 0 ∧ s.marked = false then 1 else 0

/-- What the others can use up before `p` runs. -/
def waitPotential (img : Image) (p : U64) (s : Sys) : Nat :=
  s.ticksLeft img + dealDue p s + markDue s + (nrTasks - s.forked.length)

/-- What holds of the kernel while the forked task `p` is there. -/
structure Waiting (img : Image) (p : U64) (s : Sys) : Prop where
  consistent : Consistent img s
  ticks : TicksOk img s
  mem : p ∈ s.forked

variable {img : Image} {fuel : Nat} {p : U64} {s s' : Sys} {op : SysOp}

/-! ## The total -/

theorem Consistent.length_tasks_le (h : Consistent img s) : s.forked.length ≤ nrTasks - 1 := by
  have hlength := h.length
  omega

theorem ticksLeft_le (h : Consistent img s) (ht : TicksOk img s) :
    s.ticksLeft img ≤ 45 + maxDeal := by
  obtain ⟨hforked, hall⟩ := ht.budget_le h
  have hinit := hall img.initTask List.mem_cons_self
  have hsum := sum_map_le_length hforked
  have hlength : forkedSlice * s.forked.length ≤ maxDeal :=
    Nat.mul_le_mul_left _ h.length_tasks_le
  show s.budget.budget img.initTask + (s.forked.map s.budget.budget).sum ≤ 45 + maxDeal
  omega

/-- A tick takes one off, where the running task has one. -/
theorem ticksLeft_tick (h : Consistent img s) (hstep : sysStep img fuel .tick s = some s') :
    s'.ticksLeft img + min 1 (s.budget.budget s.current) = s.ticksLeft img := by
  have hsum := Budget.sum_spent h.nodup s.budget
  rw [budget_running, if_pos h.current] at hsum
  have hforked : s'.forked = s.forked := by
    obtain rfl := eq_of_tick hstep
    rfl
  unfold Sys.ticksLeft Sys.tasks
  rw [hforked, budget_tick hstep]
  exact hsum

/-- `do_fork` divides the ticks of the running task. -/
theorem ticksLeft_forked {cloneFlags stack arg q : U64} {pid : Nat} {k' : Kernel}
    (h : Consistent img s) (hq : q ∉ s.tasks img)
    (hfork : Forked img s.current cloneFlags stack arg q pid s.k k') (fresh : List U64) :
    Sys.ticksLeft img ⟨k', s.current, s.forked ++ [q], fresh⟩ = s.ticksLeft img := by
  obtain ⟨t, ht⟩ : ∃ t : Sys, t = ⟨k', s.current, s.forked ++ [q], fresh⟩ := ⟨_, rfl⟩
  rw [← ht]
  have hk : t.k = k' := by rw [ht]
  obtain ⟨hhalf, hhalf'⟩ := counter_halves (s.k.task s.current).counter
  have hnonneg := h.counter s.current h.current
  have hchild : t.budget.budget q = ((s.k.task s.current).counter.toNat + 1) / 2 := by
    rw [budget_apply, hk, hfork.child]
    show (((s.k.task s.current).counter + 1) >>> (1 : Nat)).toNat = _
    omega
  have hparent : t.budget.budget s.current = (s.k.task s.current).counter.toNat / 2 := by
    rw [budget_apply, hk, hfork.parent]
    show ((s.k.task s.current).counter >>> (1 : Nat)).toNat = _
    omega
  -- nobody else's ticks change
  obtain ⟨g, hg⟩ : ∃ g, Function.update s.budget.budget s.current
      (t.budget.budget s.current) = g := ⟨_, rfl⟩
  have hsame : (s.tasks img).map t.budget.budget = (s.tasks img).map g := by
    refine List.map_congr_left fun r hr => ?_
    have hrq : r ≠ q := fun he => hq (he ▸ hr)
    by_cases hrc : r = s.current
    · rw [hrc, ← hg, Function.update_self]
    · rw [← hg, Function.update_of_ne hrc, budget_apply, hk, hfork.other r hrq hrc, budget_apply]
  have hsum := Budget.sum_map_of_eq_off h.nodup h.current (f := s.budget.budget) (g := g)
    fun r hr => by rw [← hg, Function.update_of_ne hr]
  have hcurrent : g s.current = t.budget.budget s.current := by rw [← hg, Function.update_self]
  have htotal : t.ticksLeft img = ((s.tasks img).map t.budget.budget).sum + t.budget.budget q := by
    have htasks : t.tasks img = s.tasks img ++ [q] := by rw [ht]; rfl
    rw [Sys.ticksLeft, htasks, List.map_append, List.sum_append]
    simp
  rw [htotal, hsame, hchild]
  rw [hcurrent, hparent, budget_apply] at hsum
  unfold Sys.ticksLeft
  omega

/-- A deal brings no more than the queue can have. -/
theorem ticksLeft_deal (h : Consistent img s) (hforked : s'.forked = s.forked)
    (hdeal : s'.budget.budget =
      Budget.deal s.forked.reverse (fun _ => forkedSlice) s.budget.budget) :
    s'.ticksLeft img ≤ s.ticksLeft img + maxDeal := by
  have hinit : s'.budget.budget img.initTask = s.budget.budget img.initTask := by
    have hnot : img.initTask ∉ s.forked := (List.nodup_cons.1 h.nodup).1
    simp [hdeal, Budget.deal, hnot]
  have hall : ∀ q ∈ s.forked, s'.budget.budget q ≤ forkedSlice := by
    intro q hq
    simp [hdeal, Budget.deal, hq]
  have hsum := sum_map_le_length hall
  have hlength : forkedSlice * s.forked.length ≤ maxDeal :=
    Nat.mul_le_mul_left _ h.length_tasks_le
  unfold Sys.ticksLeft Sys.tasks
  rw [hforked]
  simp only [List.map_cons, List.sum_cons]
  omega

/-! ## One call -/

theorem Waiting.step (hfuel : nrTasks ≤ fuel) (h : Waiting img p s)
    (hstep : sysStep img fuel op s = some s') : Waiting img p s' := by
  have hmem := h.mem
  refine ⟨consistent_step hfuel op s s' h.consistent hstep, ?_, ?_⟩
  · cases op with
    | doFork caller cloneFlags stack arg => exact ticksOk_doFork h.consistent h.ticks hstep
    | tick => exact ticksOk_tick h.ticks hstep
    | schedule garbage => exact ticksOk_schedule hfuel h.consistent h.ticks hstep
  · cases op with
    | doFork caller cloneFlags stack arg =>
        rcases h.consistent.doFork_cases hstep with ⟨k', rfl, -⟩ | ⟨j, pid, k', rfl, -⟩
        · exact hmem
        · exact List.mem_append_left _ hmem
    | tick =>
        obtain rfl := eq_of_tick hstep
        exact hmem
    | schedule garbage =>
        obtain ⟨t, ht, hs'⟩ := h.consistent.scheduled hfuel (List.ne_nil_of_mem hmem) garbage
        obtain rfl : t = s' := Option.some.inj (ht.symm.trans hstep)
        rw [hs'.forked]
        exact hmem

theorem markDue_le (s : Sys) : markDue s ≤ 1 := by
  unfold markDue
  split <;> decide

theorem markDue_eq_zero (h : s.budget.budget s.current = 0 → s.marked = true) :
    markDue s = 0 := by
  refine if_neg fun hdue => ?_
  have hmark := h hdue.1
  rw [hdue.2] at hmark
  exact Bool.noConfusion hmark

/-- Behind a tick no mark is due: the tick was paid for by a tick that the task had, or it was the
one that marked it. -/
theorem Waiting.markDue_tick (h : Waiting img p s) (hstep : sysStep img fuel .tick s = some s') :
    markDue s' = 0 ∧
      tickPrice .tick s ≤ markDue s + min 1 (s.budget.budget s.current) := by
  have hspent := Budget.State.spent_self s.budget
  rw [budget_running] at hspent
  have hcurrent : s'.budget.budget s'.current = s.budget.spent s.current := by
    have hrunning : s'.current = s.current := by
      obtain rfl := eq_of_tick hstep
      rfl
    rw [budget_tick hstep, hrunning]
  have hmarked := marked_tick h.ticks h.consistent.current hstep
  refine ⟨markDue_eq_zero fun hzero => hmarked.2 (hcurrent.symm.trans hzero), ?_⟩
  have hprice : tickPrice .tick s = if s.marked then 0 else 1 := rfl
  unfold markDue
  rw [hprice]
  cases s.marked with
  | true => exact Nat.zero_le _
  | false =>
      by_cases hzero : s.budget.budget s.current = 0
      · simp [hzero]
      · simp [hzero]
        omega

/-- A tick of another task leaves `p` alone. -/
theorem Waiting.pays_tick (h : Waiting img p s) (hother : s.current ≠ p)
    (hstep : sysStep img fuel .tick s = some s') :
    tickPrice .tick s + waitPotential img p s' ≤ waitPotential img p s := by
  have htotal := ticksLeft_tick h.consistent hstep
  obtain ⟨hmark, hprice⟩ := h.markDue_tick hstep
  have hforked : s'.forked = s.forked := by
    obtain rfl := eq_of_tick hstep
    rfl
  have hdeal : dealDue p s' = dealDue p s := by
    have hwait : s'.budget.budget p = s.budget.budget p := by
      rw [budget_tick hstep]
      exact Budget.State.spent_of_ne (Ne.symm hother)
    unfold dealDue
    rw [hwait]
  unfold waitPotential
  rw [hmark, hdeal, hforked]
  omega

/-- `__schedule` pays for a deal with the ticks that `p` gets then. -/
theorem Waiting.pays_schedule (hfuel : nrTasks ≤ fuel) (h : Waiting img p s) {garbage : U64}
    (hstep : sysStep img fuel (.schedule garbage) s = some s') :
    waitPotential img p s' ≤ waitPotential img p s := by
  obtain ⟨t, ht, hs'⟩ := h.consistent.scheduled hfuel (List.ne_nil_of_mem h.mem) garbage
  obtain rfl : t = s' := Option.some.inj (ht.symm.trans hstep)
  have hmark : markDue t = 0 := markDue_eq_zero fun hzero => absurd hzero hs'.left.ne'
  unfold waitPotential
  rw [hs'.forked, hmark]
  rcases hs'.budget with hsame | ⟨hzero, hdeal⟩
  · have htotal : t.ticksLeft img = s.ticksLeft img := by
      unfold Sys.ticksLeft Sys.tasks
      rw [hs'.forked, hsame]
    have hdue : dealDue p t = dealDue p s := by
      unfold dealDue
      rw [hsame]
    omega
  · have htotal := ticksLeft_deal h.consistent hs'.forked hdeal
    have hpaid : dealDue p s = maxDeal := if_pos (hzero p h.mem)
    have hdue : dealDue p t = 0 := by
      have hp : t.budget.budget p = forkedSlice := by simp [hdeal, Budget.deal, h.mem]
      unfold dealDue
      rw [hp]
      rfl
    omega

/-- `do_fork` pays with the place of the new task for the tick that may leave the parent
without any. -/
theorem Waiting.pays_doFork (h : Waiting img p s) {cloneFlags stack arg : U64}
    (hother : s.current ≠ p)
    (hstep : sysStep img fuel (.doFork s.current cloneFlags stack arg) s = some s') :
    waitPotential img p s' ≤ waitPotential img p s := by
  have hlength := h.consistent.length
  have hlive : p ∈ s.tasks img := Sys.mem_tasks_of_forked h.mem
  rcases h.consistent.doFork_cases hstep with ⟨k', rfl, -, hsame⟩ |
    ⟨j, pid, k', rfl, -, hj, hfree, -, -, -, -, hfork⟩
  · have htask : ∀ q ∈ s.tasks img, k'.task q = s.k.task q := by
      intro q hq
      rcases hsame with rfl | ⟨j, hj, hfree, hagree⟩
      · rfl
      · exact hagree.task q (h.consistent.ne_pageAddr hq hj hfree)
    have hbudget : ∀ q ∈ s.tasks img,
        (Sys.budget { s with k := k' }).budget q = s.budget.budget q := by
      intro q hq
      rw [budget_apply, budget_apply, htask q hq]
    have htotal : Sys.ticksLeft img { s with k := k' } = s.ticksLeft img :=
      congrArg List.sum (List.map_congr_left hbudget)
    have hdue : dealDue p { s with k := k' } = dealDue p s := by
      unfold dealDue
      rw [hbudget p hlive]
    have hmark : markDue { s with k := k' } = markDue s := by
      unfold markDue Sys.marked
      rw [hbudget s.current h.consistent.current, htask s.current h.consistent.current]
    unfold waitPotential
    rw [htotal, hdue, hmark]
  · have hnew : pageAddr j ∉ s.tasks img := fun hmem =>
      h.consistent.ne_pageAddr hmem hj hfree rfl
    have htotal := ticksLeft_forked h.consistent hnew hfork (s.fresh ++ [pageAddr j])
    have hp : k'.task p = s.k.task p :=
      hfork.other p (fun he => hnew (he ▸ hlive)) (Ne.symm hother)
    obtain ⟨t, ht⟩ : ∃ t : Sys,
        t = ⟨k', s.current, s.forked ++ [pageAddr j], s.fresh ++ [pageAddr j]⟩ := ⟨_, rfl⟩
    have hdue : dealDue p t = dealDue p s := by
      unfold dealDue
      rw [budget_apply, budget_apply, ht, hp]
    have hcount : t.forked.length = s.forked.length + 1 := by
      rw [ht]
      exact List.length_append
    have hmark := markDue_le t
    rw [← ht] at htotal
    show waitPotential img p ⟨k', s.current, s.forked ++ [pageAddr j], s.fresh ++ [pageAddr j]⟩ ≤ _
    rw [← ht]
    unfold waitPotential
    rw [htotal, hdue, hcount]
    omega

theorem Waiting.pays (hfuel : nrTasks ≤ fuel) (h : Waiting img p s)
    (hcall : OwnCall op s ∧ s.current ≠ p) (hstep : sysStep img fuel op s = some s') :
    tickPrice op s + waitPotential img p s' ≤ waitPotential img p s := by
  cases op with
  | doFork caller cloneFlags stack arg =>
      obtain rfl : caller = s.current := hcall.1
      rw [tickPrice, Nat.zero_add]
      exact h.pays_doFork hcall.2 hstep
  | tick => exact h.pays_tick hcall.2 hstep
  | schedule garbage =>
      rw [tickPrice, Nat.zero_add]
      exact h.pays_schedule hfuel hstep

theorem Waiting.potential_le (h : Waiting img p s) : waitPotential img p s ≤ maxWait := by
  have htotal := ticksLeft_le h.consistent h.ticks
  have hmark := markDue_le s
  have hdue : dealDue p s ≤ maxDeal := by
    unfold dealDue
    split
    · exact le_rfl
    · exact Nat.zero_le _
  unfold waitPotential maxWait
  omega

/-! ## Every run -/

/-- **No forked task starves.**  In a run from a reachable state, with forks by the running task,
timer interrupts and calls of `__schedule` in any order, every task that had been forked before
the run has the CPU at some point of it, if the run has more than `maxWait` ticks that find
`need_resched` clear. -/
theorem no_starvation {k : Kernel} (hfuel : nrTasks ≤ fuel)
    (hs : Run.Reachable (sysStep img fuel) (Sys.boot img k) s) (hp : p ∈ s.forked)
    {ops : List SysOp} (hcalls : Run.Along (sysStep img fuel) OwnCall ops s)
    (hrun : Run.exec (sysStep img fuel) ops s = some s')
    (hlong : maxWait < Run.cost (sysStep img fuel) tickPrice ops s) :
    ∃ front op rest t, ops = front ++ op :: rest ∧
      Run.exec (sysStep img fuel) front s = some t ∧ t.current = p := by
  have hwait : Waiting img p s :=
    ⟨consistent_reachable hfuel hs, ticksOk_reachable hfuel hs, hp⟩
  have hdear := Nat.lt_of_le_of_lt hwait.potential_le hlong
  have hkept : ∀ op s s', Waiting img p s → sysStep img fuel op s = some s' → Waiting img p s' :=
    fun _ _ _ h hstep => h.step hfuel hstep
  have hpays : ∀ op s s', Waiting img p s → OwnCall op s ∧ s.current ≠ p →
      sysStep img fuel op s = some s' →
      tickPrice op s + waitPotential img p s' ≤ waitPotential img p s :=
    fun _ _ _ h hcall hstep => h.pays hfuel hcall hstep
  obtain ⟨front, op, rest, t, hops, hfront, hcurrent⟩ :=
    Run.exists_of_cost hkept hpays hwait hcalls hrun hdear
  exact ⟨front, op, rest, t, hops, hfront, not_not.1 hcurrent⟩

/-- **`init_task` does not come back.**  Once a forked task has the CPU, it goes from forked task
to forked task, whatever is called from then on: the loop of `start_kernel` has ended. -/
theorem initTask_gone {k : Kernel} (hfuel : nrTasks ≤ fuel)
    (hs : Run.Reachable (sysStep img fuel) (Sys.boot img k) s) (haway : s.current ∈ s.forked)
    {ops : List SysOp} (hrun : Run.exec (sysStep img fuel) ops s = some s') :
    s'.current ∈ s'.forked ∧ s'.current ≠ img.initTask := by
  have hreach : Run.Reachable (sysStep img fuel) s s' := ⟨ops, hrun⟩
  have hboth : Consistent img s' ∧ s'.current ∈ s'.forked := by
    refine hreach.invariant (I := fun s => Consistent img s ∧ s.current ∈ s.forked) ?_
      ⟨consistent_reachable hfuel hs, haway⟩
    rintro op t u ⟨hc, hmem⟩ hstep
    refine ⟨consistent_step hfuel op t u hc hstep, ?_⟩
    cases op with
    | doFork caller cloneFlags stack arg =>
        rcases hc.doFork_cases hstep with ⟨k', rfl, -⟩ | ⟨j, pid, k', rfl, -⟩
        · exact hmem
        · exact List.mem_append_left _ hmem
    | tick =>
        obtain rfl := eq_of_tick hstep
        exact hmem
    | schedule garbage =>
        obtain ⟨v, hv, hscheduled⟩ := hc.scheduled hfuel (List.ne_nil_of_mem hmem) garbage
        obtain rfl : v = u := Option.some.inj (hv.symm.trans hstep)
        rw [hscheduled.forked]
        exact hscheduled.mem
  refine ⟨hboth.2, fun he => ?_⟩
  exact (List.nodup_cons.1 hboth.1.nodup).1 (he ▸ hboth.2)

/-- A tick that counts, and a call of `__schedule`, are always possible one behind the other. -/
theorem Waiting.exists_period (hfuel : nrTasks ≤ fuel) (h : Waiting img p s) (garbage : U64) :
    ∃ t s', sysStep img fuel .tick s = some t ∧ sysStep img fuel (.schedule garbage) t = some s' ∧
      Waiting img p s' ∧ s'.marked = false := by
  obtain ⟨t, htick⟩ : ∃ t, sysStep img fuel .tick s = some t := ⟨_, rfl⟩
  have ht := h.step hfuel htick
  obtain ⟨s', hschedule, hs'⟩ := ht.consistent.scheduled hfuel (List.ne_nil_of_mem ht.mem) garbage
  have hw := ht.step hfuel hschedule
  refine ⟨t, s', htick, hschedule, hw, ?_⟩
  by_contra hmark
  have hzero := (hw.ticks.needResched s'.current hw.consistent.current
    (by simpa [Sys.marked] using hmark)).2
  have hleft := hs'.left
  rw [budget_apply, hzero] at hleft
  exact absurd hleft (by decide)

/-- There are runs with as many ticks that count as one likes. -/
theorem Waiting.exists_run (hfuel : nrTasks ≤ fuel) (garbage : U64) (n : Nat)
    (h : Waiting img p s) :
    ∃ ops s', Run.Along (sysStep img fuel) OwnCall ops s ∧
      Run.exec (sysStep img fuel) ops s = some s' ∧
      n ≤ Run.cost (sysStep img fuel) tickPrice ops s + if s.marked then 1 else 0 := by
  induction n generalizing s with
  | zero => exact ⟨[], s, trivial, rfl, Nat.zero_le _⟩
  | succ n ih =>
      obtain ⟨t, u, htick, hschedule, hu, hmark⟩ := h.exists_period hfuel garbage
      obtain ⟨ops, s', hcalls, hrun, hcost⟩ := ih hu
      refine ⟨.tick :: .schedule garbage :: ops, s', ?_, ?_, ?_⟩
      · exact (Run.along_cons_of_step htick).2
          ⟨trivial, (Run.along_cons_of_step hschedule).2 ⟨trivial, hcalls⟩⟩
      · simp [htick, hschedule, hrun]
      · have hfirst : tickPrice .tick s = if s.marked then 0 else 1 := rfl
        have hsecond : tickPrice (.schedule garbage) t = 0 := rfl
        rw [Run.cost_cons htick, Run.cost_cons hschedule, hfirst, hsecond]
        rw [hmark] at hcost
        cases s.marked
        · simp at hcost ⊢
          omega
        · simpa using hcost

/-- A kernel thread comes to run although `init_task` is running. -/
theorem no_starvation_one :
    ∃ (s : Sys) (p : U64) (ops front : List SysOp) (t : Sys), s.forked = [p] ∧
      s.current ≠ p ∧ front <+: ops ∧
      Run.exec (sysStep Image.sample nrTasks) front s = some t ∧ t.current = p := by
  obtain ⟨s, p, hforked, hcurrent, hs⟩ := exists_thread_boot
  have hp : p ∈ s.forked := by simp [hforked]
  have hc := consistent_reachable le_rfl hs
  have hwait : Waiting Image.sample p s := ⟨hc, ticksOk_reachable le_rfl hs, hp⟩
  have hother : s.current ≠ p := by
    rw [hcurrent]
    exact fun he => (List.nodup_cons.1 hc.nodup).1 (he ▸ hp)
  obtain ⟨ops, s', hcalls, hrun, hcost⟩ := hwait.exists_run le_rfl 0 (maxWait + 2)
  have hlong : maxWait < Run.cost (sysStep Image.sample nrTasks) tickPrice ops s := by
    split at hcost <;> omega
  obtain ⟨front, op, rest, t, rfl, hfront, ht⟩ := no_starvation le_rfl hs hp hcalls hrun hlong
  exact ⟨s, p, front ++ op :: rest, front, t, hforked, hother, List.prefix_append .., hfront, ht⟩

/-- One call of `__schedule` takes `init_task` off the CPU for good. -/
theorem initTask_gone_one :
    ∃ s t : Sys, s.current = Image.sample.initTask ∧
      sysStep Image.sample nrTasks (.schedule 0) s = some t ∧
      ∀ ops s', Run.exec (sysStep Image.sample nrTasks) ops t = some s' →
        s'.current ≠ Image.sample.initTask := by
  obtain ⟨s, p, hforked, hcurrent, hs⟩ := exists_thread_boot
  have hc := consistent_reachable le_rfl hs
  obtain ⟨t, hstep, ht⟩ := hc.scheduled le_rfl (by simp [hforked]) 0
  have haway : t.current ∈ t.forked := ht.forked.symm ▸ ht.mem
  exact ⟨s, t, hcurrent, hstep, fun ops s' hrun =>
    (initTask_gone le_rfl (hs.tail hstep) haway hrun).2⟩

end Arm64OS
