import Arm64OS.Kernel.SchedTicks
import Arm64OS.Lib.Budget

/-!
# The scheduling class as sharing by budgets

The counters of the tasks are budgets, and the run queue is the order in which they are dealt
out.  A tick is a payment; `__schedule` gives the CPU to the first of the tasks that have the
most left, and deals out new ticks when no forked task has any.

A period of the timer is one turn of that game (`turn_timerPeriod`), and so the turns of every
reachable state are rounds in the order of the queue: `rounds_run`.
-/

namespace Arm64OS

/-- What a forked task is dealt: `DEF_COUNTER` and the priority it was given. -/
def forkedSlice : Nat := 27

def Sys.budget (s : Sys) : Budget.State U64 :=
  ⟨fun p => (s.k.task p).counter.toNat, s.current⟩

/-- Whether the running task is to be switched away from. -/
def Sys.marked (s : Sys) : Bool := (s.k.task s.current).needResched ≠ 0

/-- A period of the timer: the interrupt, and `__schedule` on the way out of it where
`need_resched` asks for it. -/
def timerPeriod (img : Image) (fuel : Nat) (garbage : U64) (s : Sys) : Option Sys := do
  let s ← sysStep img fuel .tick s
  if s.marked then sysStep img fuel (.schedule garbage) s else some s

/-- The tasks that timer interrupts find running. -/
def timerTrace (img : Image) (fuel : Nat) : List U64 → Sys → List U64
  | [], _ => []
  | garbage :: rest, s =>
      s.current :: (timerPeriod img fuel garbage s).elim [] (timerTrace img fuel rest)

variable {img : Image} {fuel : Nat} {s s' : Sys}

@[simp] theorem budget_running (s : Sys) : s.budget.running = s.current := rfl

theorem budget_apply (s : Sys) (p : U64) : s.budget.budget p = (s.k.task p).counter.toNat := rfl

/-! ## What the calls do to the budgets -/

theorem counter_toNat_tickTask (t : TaskStruct) :
    (tickTask t).counter.toNat = t.counter.toNat - 1 := by
  rw [tickTask]
  split
  case isTrue hused =>
    show (0 : Int).toNat = _
    omega
  case isFalse hleft =>
    show (t.counter - 1).toNat = _
    omega

/-- A tick is a payment of the running task. -/
theorem budget_tick (hstep : sysStep img fuel .tick s = some s') :
    s'.budget = ⟨s.budget.spent, s.current⟩ := by
  obtain rfl := eq_of_tick hstep
  rw [tickHandlePeriodic, taskTickNop_eq]
  have hbudget : (fun p => ((s.k.updTask s.current tickTask).task p).counter.toNat) =
      s.budget.spent := by
    funext p
    by_cases hp : p = s.current
    · subst hp
      have hspent := Budget.State.spent_self s.budget
      rw [budget_running, budget_apply] at hspent
      simpa [Kernel.updTask, counter_toNat_tickTask] using hspent.symm
    · have hspent := Budget.State.spent_of_ne (s := s.budget) hp
      rw [budget_apply] at hspent
      simpa [Kernel.updTask, hp] using hspent.symm
  exact congrArg (Budget.State.mk · s.current) hbudget

/-- A tick marks the running task where it leaves it nothing, and only there. -/
theorem marked_tick (h : TicksOk img s) (hcurrent : s.current ∈ s.tasks img)
    (hstep : sysStep img fuel .tick s = some s') :
    s'.marked = true ↔ s.budget.spent s.current = 0 := by
  obtain rfl := eq_of_tick hstep
  have hspent := Budget.State.spent_self s.budget
  rw [budget_running, budget_apply] at hspent
  rw [hspent, tickHandlePeriodic, taskTickNop_eq]
  simp only [Sys.marked, Kernel.updTask, Function.update_self, ne_eq, decide_not,
    Bool.not_eq_true', decide_eq_false_iff_not]
  rw [tickTask]
  split
  case isTrue hused =>
    have hmark : (1 : Int) ≠ 0 := by decide
    exact iff_of_true hmark (by omega)
  case isFalse hleft =>
    refine iff_of_false (fun hmark => ?_) (by omega)
    have hzero := (h.needResched s.current hcurrent hmark).2
    omega

/-- The choice of `pick_next_task_nop`, in budgets. -/
theorem isFirstMax_counter {k : Kernel} {ps : List U64} {p : U64}
    (h : Budget.IsFirstMax (goodness k) ps p) (hpos : 0 < (k.task p).counter) :
    Budget.IsFirstMax (fun q => (k.task q).counter.toNat) ps p := by
  obtain ⟨before, after, rfl, hbefore, hafter⟩ := h
  simp only [goodness] at hbefore hafter
  refine ⟨before, after, rfl, fun q hq => ?_, fun q hq => Int.toNat_le_toNat (hafter q hq)⟩
  have hlt := hbefore q hq
  show (k.task q).counter.toNat < (k.task p).counter.toNat
  omega

/-- What `__schedule` does where a forked task can take over. -/
structure Scheduled (s s' : Sys) : Prop where
  forked : s'.forked = s.forked
  mem : s'.current ∈ s.forked
  left : 0 < s'.budget.budget s'.current
  first : Budget.IsFirstMax s'.budget.budget s.forked.reverse s'.current
  /-- nobody's budget changes, or all of the queue are dealt new ones -/
  budget : s'.budget.budget = s.budget.budget ∨
    (∀ p ∈ s.forked, s.budget.budget p = 0) ∧
      s'.budget.budget = Budget.deal s.forked.reverse (fun _ => forkedSlice) s.budget.budget

/-- **The spec lemma of `__schedule`.**  With a forked task on the queue the call comes back, in
the first of the tasks that have the most ticks left. -/
theorem Consistent.scheduled (h : Consistent img s) (hfuel : nrTasks ≤ fuel)
    (hne : s.forked ≠ []) (garbage : U64) :
    ∃ s', sysStep img fuel (.schedule garbage) s = some s' ∧ Scheduled s s' := by
  have hmem : ∀ p ∈ s.forked.reverse, p ∈ s.forked := fun p hp => List.mem_reverse.1 hp
  have hrunning := h.state s.current h.current
  obtain ⟨p, k, hpick, hpos, hmax, heffect⟩ := pickRepeat_cons (h.listForEach hfuel)
    (h.forEachTask hfuel) (fun hempty => hne (List.reverse_eq_nil_iff.1 hempty)) hmem
    (fun p hp => h.counter p (Sys.mem_tasks_of_forked (hmem p hp)))
    (fun p hp => by rw [h.priority p (hmem p hp)]; decide)
  obtain ⟨rounds, hrounds⟩ :=
    @pickNextTaskNop_eq_pickRepeat img fuel s.k (Nat.le_trans (by decide) hfuel)
  obtain ⟨k', hk'⟩ : ∃ k', k.updTask s.current (fun t => { t with needResched := 0 }) = k' :=
    ⟨_, rfl⟩
  have hbefore : Arm64OS.scheduleBefore img fuel s.current s.k = some (some p, k') := by
    simp [Arm64OS.scheduleBefore, hrunning, hrounds, hpick, hk']
  -- the mark is no part of a budget
  have hcounter : ∀ q, (k'.task q).counter = (k.task q).counter := by
    intro q
    rw [← hk']
    by_cases hq : q = s.current
    · subst hq
      simp [Kernel.updTask]
    · simp [Kernel.updTask, hq]
  have hp := hmem p hmax.mem
  have hlive : p ∈ s.tasks img := Sys.mem_tasks_of_forked hp
  have hdone : ∀ s', s'.forked = s.forked → s'.current = p →
      (∀ q, (s'.k.task q).counter = (k.task q).counter) → Scheduled s s' := by
    intro s' hforked hcurrent hs'
    have hbudget : s'.budget.budget = fun q => (k.task q).counter.toNat := by
      funext q
      rw [budget_apply, hs']
    refine ⟨hforked, hcurrent ▸ hp, ?_, ?_, ?_⟩
    · rw [hbudget, hcurrent]
      show 0 < (k.task p).counter.toNat
      omega
    · rw [hbudget, hcurrent]
      exact isFirstMax_counter hmax hpos
    · rw [hbudget]
      rcases heffect with ⟨rfl, -⟩ | ⟨hused, rfl⟩
      · exact Or.inl rfl
      · refine Or.inr ⟨fun q hq => ?_, ?_⟩
        · rw [budget_apply, hused q (List.mem_reverse.2 hq)]
          rfl
        · funext q
          rw [foldl_resetCounter]
          by_cases hq : q ∈ s.forked
          · simp [Budget.deal, hq, h.priority q hq, defCounter_eq, forkedSlice]
          · simp [Budget.deal, hq, budget_apply]
  by_cases hstay : p = s.current
  · refine ⟨{ s with k := k' }, ?_, hdone _ rfl hstay.symm hcounter⟩
    simp [sysStep, hbefore, hstay]
  · by_cases hfresh : p ∈ s.fresh
    · refine ⟨_, ?_, hdone { s with k := k', current := p, fresh := s.fresh.erase p } rfl rfl
        hcounter⟩
      simp [sysStep, hbefore, hstay, hfresh]
    · refine ⟨_, ?_, hdone { s with k := scheduleAfter p k', current := p } rfl rfl hcounter⟩
      simp [sysStep, hbefore, hstay, hfresh, hlive]

/-! ## Periods of the timer -/

/-- The period is a turn of the running task. -/
theorem turn_timerPeriod (h : Consistent img s) (ht : TicksOk img s) (hfuel : nrTasks ≤ fuel)
    (hne : s.forked ≠ []) (garbage : U64) :
    ∃ s', timerPeriod img fuel garbage s = some s' ∧ s'.forked = s.forked ∧
      Consistent img s' ∧ TicksOk img s' ∧
      Budget.Turn s.forked.reverse (fun _ => forkedSlice) s.budget s'.budget := by
  obtain ⟨t, htick⟩ : ∃ t, sysStep img fuel .tick s = some t := ⟨_, rfl⟩
  have hforked : t.forked = s.forked := by
    obtain rfl := eq_of_tick htick
    rfl
  have hct := consistent_tick h htick
  have htt := ticksOk_tick ht htick
  have hbudget := budget_tick htick
  have hmarked := marked_tick ht h.current htick
  by_cases hspent : s.budget.spent s.current = 0
  · -- the tick was the last one of the slice
    obtain ⟨s', hschedule, hs'⟩ := hct.scheduled hfuel (hforked.symm ▸ hne) garbage
    have hperiod : timerPeriod img fuel garbage s = some s' := by
      simp [timerPeriod, htick, hmarked.2 hspent, hschedule]
    refine ⟨s', hperiod, hs'.forked.trans hforked, consistent_schedule hfuel hct hschedule,
      ticksOk_schedule hfuel hct htt hschedule, ?_⟩
    have hfirst := hs'.first
    have hleft := hs'.left
    have hstate : s'.budget = ⟨s'.budget.budget, s'.current⟩ := rfl
    rw [hforked] at hfirst
    rcases hs'.budget with hsame | ⟨hall, hdeal⟩
    · rw [hsame, hbudget] at hfirst hleft
      rw [hstate, hsame, hbudget]
      exact Budget.Turn.next hspent hleft hfirst
    · rw [hforked, hbudget] at hall hdeal
      rw [hdeal] at hfirst
      rw [hstate, hdeal]
      exact Budget.Turn.deal hspent (fun y hy => hall y (List.mem_reverse.1 hy)) hfirst
  · have hclear : t.marked = false := by
      have hnot := mt hmarked.1 hspent
      simpa using hnot
    refine ⟨t, by simp [timerPeriod, htick, hclear], hforked, hct, htt, ?_⟩
    rw [hbudget]
    exact Budget.Turn.stay (Nat.pos_of_ne_zero hspent)

/-- Periods are turns, one behind the other. -/
theorem turns_timerTrace (hfuel : nrTasks ≤ fuel) (garbage : List U64) (h : Consistent img s)
    (ht : TicksOk img s) (hne : s.forked ≠ []) :
    ∃ s', Run.exec (timerPeriod img fuel) garbage s = some s' ∧
      Budget.Turns s.forked.reverse (fun _ => forkedSlice) (timerTrace img fuel garbage s)
        s.budget s'.budget := by
  induction garbage generalizing s with
  | nil => exact ⟨s, rfl, Budget.Turns.nil _⟩
  | cons g garbage ih =>
      obtain ⟨t, hperiod, hforked, hct, htt, hturn⟩ := turn_timerPeriod h ht hfuel hne g
      obtain ⟨s', hrun, hturns⟩ := ih hct htt (hforked.symm ▸ hne)
      rw [hforked] at hturns
      refine ⟨s', by simp [hperiod, hrun], ?_⟩
      have htrace : timerTrace img fuel (g :: garbage) s =
          s.budget.running :: timerTrace img fuel garbage t := by
        rw [timerTrace, hperiod]
        rfl
      rw [htrace]
      exact Budget.Turns.cons hturn hturns

/-- No task has more left than `init_task` can have, and no forked one more than a slice. -/
theorem TicksOk.budget_le (ht : TicksOk img s) (h : Consistent img s) :
    (∀ p ∈ s.forked, s.budget.budget p ≤ forkedSlice) ∧
      ∀ p ∈ s.tasks img, s.budget.budget p ≤ 45 := by
  have hdef := defCounter_eq
  refine ⟨fun p hp => ?_, fun p hp => ?_⟩
  · have hle := (ht.slice p (Sys.mem_tasks_of_forked hp)).le
    rw [h.priority p hp] at hle
    rw [budget_apply, forkedSlice]
    omega
  · have hle := (ht.slice p hp).le
    have hprio := (ht.slice p hp).priority_le
    rw [budget_apply]
    omega

theorem sum_map_le_length {α : Type*} {f : α → Nat} {b : Nat} {xs : List α}
    (h : ∀ x ∈ xs, f x ≤ b) : (xs.map f).sum ≤ b * xs.length := by
  induction xs with
  | nil => exact Nat.zero_le _
  | cons x xs ih =>
      have hhead := h x List.mem_cons_self
      have htail := ih fun y hy => h y (List.mem_cons_of_mem _ hy)
      rw [List.map_cons, List.sum_cons, List.length_cons, Nat.mul_succ]
      omega

/-- **Round robin.**  From every reachable state with a forked task, and for any number of timer
periods: behind a run-in of at most `27 * n + 46` of them the forked tasks have the CPU in
rounds, the youngest first, each for 27 periods without a break. -/
theorem rounds_run {k : Kernel} (hfuel : nrTasks ≤ fuel)
    (hs : Run.Reachable (sysStep img fuel) (Sys.boot img k) s) (hne : s.forked ≠ [])
    (garbage : List U64) :
    (∃ s', Run.exec (timerPeriod img fuel) garbage s = some s') ∧
    ∃ front m rest,
      timerTrace img fuel garbage s =
        front ++ (List.replicate m
          (s.forked.reverse.flatMap fun p => List.replicate forkedSlice p)).flatten ++ rest ∧
      front.length ≤ forkedSlice * s.forked.length + 46 ∧
      rest <+: s.forked.reverse.flatMap fun p => List.replicate forkedSlice p := by
  have h := consistent_reachable hfuel hs
  have ht := ticksOk_reachable hfuel hs
  have hnodup : s.forked.reverse.Nodup :=
    List.nodup_reverse.2 (List.nodup_cons.1 h.nodup).2
  obtain ⟨hforked, hall⟩ := ht.budget_le h
  obtain ⟨s', hrun, hturns⟩ := turns_timerTrace hfuel garbage h ht hne
  obtain ⟨front, m, rest, htrace, hfront, hrest⟩ := Budget.turns_rounds hnodup
    (fun _ _ => (by decide : 0 < forkedSlice))
    (List.pairwise_of_forall fun _ _ => le_rfl) hturns
  refine ⟨⟨s', hrun⟩, front, m, rest, htrace, le_trans hfront ?_, hrest⟩
  have hsum : (s.forked.reverse.map s.budget.budget).sum ≤ forkedSlice * s.forked.reverse.length :=
    sum_map_le_length fun p hp => hforked p (List.mem_reverse.1 hp)
  have hcurrent := hall s.current h.current
  rw [List.length_reverse] at hsum
  unfold Budget.State.remaining
  rw [budget_running]
  split <;> omega

/-- Two kernel threads take turns. -/
theorem rounds_run_two :
    ∃ s, Run.Reachable (sysStep Image.sample nrTasks) (Sys.boot Image.sample Kernel.blank) s ∧
      s.forked = [pageAddr 0, pageAddr 1] ∧ ∀ garbage : List U64, ∃ front m rest,
        timerTrace Image.sample nrTasks garbage s =
          front ++ (List.replicate m (List.replicate forkedSlice (pageAddr 1) ++
            List.replicate forkedSlice (pageAddr 0))).flatten ++ rest ∧
        front.length ≤ 100 ∧ rest <+: List.replicate forkedSlice (pageAddr 1) ++
          List.replicate forkedSlice (pageAddr 0) := by
  obtain ⟨s, hforked, -, hs⟩ := exists_forkTwice
  refine ⟨s, hs, hforked, fun garbage => ?_⟩
  obtain ⟨-, hrounds⟩ := rounds_run le_rfl hs (by simp [hforked]) garbage
  simpa [hforked, forkedSlice] using hrounds

end Arm64OS
