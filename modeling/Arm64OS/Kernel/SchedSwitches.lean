import Arm64OS.Kernel.SchedRun

/-!
# The books of the run queue

`__schedule` counts its switches and notes the running task behind `switch_to`, that is, in
the task that comes back from a `switch_to` of its own.  A task that runs for the first time
comes out in `ret_from_fork` and leaves the books as they were.
-/

namespace Arm64OS

/-- The kernel between two calls, and how often `cpu_switch_to` has been executed. -/
structure Counted where
  sys : Sys
  switches : Nat

/-- `__schedule` executes `cpu_switch_to` where the running task changes. -/
def countedStep (img : Image) (fuel : Nat) (op : SysOp) (c : Counted) : Option Counted :=
  (sysStep img fuel op c.sys).map fun s =>
    ⟨s, if s.current = c.sys.current then c.switches else c.switches + 1⟩

/-- Once there has been a switch, `curr` is the running task and `nr_switches` the number of
switches. -/
def Booked (c : Counted) : Prop :=
  c.switches ≠ 0 →
    c.sys.k.curr = c.sys.current ∧ c.sys.k.nrSwitches = BitVec.ofNat 64 c.switches

/-- The call leaves the books right. -/
def KeepsBooks (img : Image) (fuel : Nat) (op : SysOp) (c : Counted) : Prop :=
  ∀ c', countedStep img fuel op c = some c' → Booked c'

/-- `__schedule` does not pick a task that has never run. -/
def PicksSeasoned (img : Image) (fuel : Nat) : SysOp → Counted → Prop
  | .schedule garbage, c => ∀ picked k,
      scheduleBefore img fuel c.sys.current c.sys.k = some (picked, k) →
        picked.getD garbage = c.sys.current ∨ picked.getD garbage ∉ c.sys.fresh
  | .doFork .., _ => True
  | .tick, _ => True

variable {img : Image} {fuel : Nat} {s s' : Sys} {c c' : Counted} {op : SysOp} {k' : Kernel}

/-- `__schedule` has not touched the books when it comes to `switch_to`. -/
theorem scheduleBefore_books (h : Consistent img s) (hfuel : nrTasks ≤ fuel)
    {picked : Option U64} (hbefore : scheduleBefore img fuel s.current s.k = some (picked, k')) :
    k'.curr = s.k.curr ∧ k'.nrSwitches = s.k.nrSwitches := by
  obtain ⟨r, k, hcases, hk, -⟩ := h.scheduleBefore_cases hfuel
  obtain ⟨-, rfl⟩ := Prod.mk.inj (Option.some.inj (hcases.symm.trans hbefore))
  rcases hk with rfl | rfl
  · exact ⟨rfl, rfl⟩
  · rw [foldl_resetCounter]
    exact ⟨rfl, rfl⟩

theorem doFork_books (h : Consistent img s) {caller cloneFlags stack arg : U64}
    (hstep : sysStep img fuel (.doFork caller cloneFlags stack arg) s = some s') :
    s'.current = s.current ∧ s'.k.curr = s.k.curr ∧ s'.k.nrSwitches = s.k.nrSwitches := by
  rcases h.doFork_cases hstep with ⟨k', rfl, -, rfl | ⟨j, -, -, hagree⟩⟩ |
    ⟨j, pid, k', rfl, -, -, -, -, -, -, -, hforked⟩
  · exact ⟨rfl, rfl, rfl⟩
  · exact ⟨rfl, hagree.curr, hagree.nrSwitches⟩
  · exact ⟨rfl, hforked.curr, hforked.nrSwitches⟩

/-- What a call does to the books: nothing where the running task stays; they are brought up to
date for a task that has run before, and forgotten for one that has not. -/
theorem sysStep_books (h : Consistent img s) (hfuel : nrTasks ≤ fuel)
    (hstep : sysStep img fuel op s = some s') :
    ((∀ garbage picked k, op = .schedule garbage →
        scheduleBefore img fuel s.current s.k = some (picked, k) →
          picked.getD garbage = s.current) ∧
      s'.current = s.current ∧ s'.k.curr = s.k.curr ∧ s'.k.nrSwitches = s.k.nrSwitches) ∨
    ∃ garbage picked k, op = .schedule garbage ∧
      scheduleBefore img fuel s.current s.k = some (picked, k) ∧
      s'.current = picked.getD garbage ∧ s'.current ≠ s.current ∧
      (s'.current ∈ s.fresh ∧ s'.k.nrSwitches = s.k.nrSwitches ∨
        s'.current ∉ s.fresh ∧ s'.k.curr = s'.current ∧
          s'.k.nrSwitches = s.k.nrSwitches + 1) := by
  cases op with
  | doFork caller cloneFlags stack arg =>
      exact Or.inl ⟨fun _ _ _ hop => SysOp.noConfusion hop, doFork_books h hstep⟩
  | tick =>
      obtain rfl := eq_of_tick hstep
      rw [tickHandlePeriodic, taskTickNop_eq]
      exact Or.inl ⟨fun _ _ _ hop => SysOp.noConfusion hop, rfl, rfl, rfl⟩
  | schedule garbage =>
      obtain ⟨picked, k, hbefore, -⟩ := h.scheduleBefore hfuel
      obtain ⟨hcurr, hswitches⟩ := scheduleBefore_books h hfuel hbefore
      rcases sysStep_schedule_cases hbefore hstep with
        ⟨hstay, rfl⟩ | ⟨hswitch, hfresh, rfl⟩ | ⟨hswitch, hseasoned, -, rfl⟩
      · refine Or.inl ⟨?_, rfl, hcurr, hswitches⟩
        rintro garbage' picked' k' hop hbefore'
        obtain rfl : garbage = garbage' := by simpa using hop
        obtain ⟨rfl, -⟩ : picked = picked' ∧ k = k' := by
          simpa using hbefore.symm.trans hbefore'
        exact hstay
      · -- `ret_from_fork`
        exact Or.inr ⟨garbage, picked, k, rfl, hbefore, rfl, hswitch, Or.inl ⟨hfresh, hswitches⟩⟩
      · exact Or.inr ⟨garbage, picked, k, rfl, hbefore, rfl, hswitch,
          Or.inr ⟨hseasoned, rfl, congrArg (· + 1) hswitches⟩⟩

/-- The books of a consistent kernel are right, and empty before the first switch. -/
structure BooksOk (img : Image) (c : Counted) : Prop where
  consistent : Consistent img c.sys
  nrSwitches : c.sys.k.nrSwitches = BitVec.ofNat 64 c.switches
  curr : c.switches ≠ 0 → c.sys.k.curr = c.sys.current

theorem BooksOk.booked (h : BooksOk img c) : Booked c := fun hne => ⟨h.curr hne, h.nrSwitches⟩

theorem ofNat_succ_ne (n : Nat) : BitVec.ofNat 64 (n + 1) ≠ BitVec.ofNat 64 n := by
  intro h
  have hnat := congrArg BitVec.toNat h
  rw [BitVec.toNat_ofNat, BitVec.toNat_ofNat] at hnat
  omega

/-- One call on right books: they stay right exactly where no task is dispatched for the first
time. -/
theorem BooksOk.step (h : BooksOk img c) (hfuel : nrTasks ≤ fuel)
    (hstep : countedStep img fuel op c = some c') :
    (PicksSeasoned img fuel op c → BooksOk img c') ∧
      (¬ PicksSeasoned img fuel op c → ¬ Booked c') := by
  obtain ⟨s', hs', rfl⟩ := Option.map_eq_some_iff.mp hstep
  have hconsistent := consistent_step hfuel op c.sys s' h.consistent hs'
  rcases sysStep_books h.consistent hfuel hs' with
    ⟨hstay, hcurrent, hcurr, hnr⟩ | ⟨garbage, picked, k, rfl, hbefore, hnext, hne, hkind⟩
  · have hpicks : PicksSeasoned img fuel op c := by
      cases op with
      | doFork caller cloneFlags stack arg => trivial
      | tick => trivial
      | schedule garbage => exact fun picked k hpick => Or.inl (hstay garbage picked k rfl hpick)
    refine ⟨fun _ => ⟨hconsistent, ?_, ?_⟩, fun hnot => absurd hpicks hnot⟩
    · simpa [hcurrent] using hnr.trans h.nrSwitches
    · intro hswitched
      exact (hcurr.trans (h.curr (by simpa [hcurrent] using hswitched))).trans hcurrent.symm
  · have hpicks : PicksSeasoned img fuel (.schedule garbage) c ↔ s'.current ∉ c.sys.fresh := by
      constructor
      · intro hpick
        exact hnext ▸ (hpick picked k hbefore).resolve_left (hnext ▸ hne)
      · intro hold picked' k' hbefore'
        obtain ⟨rfl, -⟩ : picked = picked' ∧ k = k' := by
          simpa using hbefore.symm.trans hbefore'
        exact Or.inr (hnext ▸ hold)
    rw [hpicks]
    rcases hkind with ⟨hfresh, hnr⟩ | ⟨hold, hcurr, hnr⟩
    · -- the switch has been made, but not counted
      refine ⟨fun hnot => absurd hfresh hnot, fun _ hbooked => ?_⟩
      have hcount := (hbooked (by simp [hne])).2
      simp only [hne, if_false, hnr, h.nrSwitches] at hcount
      exact ofNat_succ_ne c.switches hcount.symm
    · refine ⟨fun _ => ⟨hconsistent, ?_, fun _ => hcurr⟩, fun hnot => absurd hold hnot⟩
      show s'.k.nrSwitches = _
      rw [if_neg hne, hnr, h.nrSwitches, BitVec.ofNat_add]
      rfl

/-- A task that has never run can be switched to. -/
theorem countedStep_of_not_seasoned (h : ¬ PicksSeasoned img fuel op c) :
    ∃ c', countedStep img fuel op c = some c' := by
  cases op with
  | doFork caller cloneFlags stack arg => exact absurd trivial h
  | tick => exact absurd trivial h
  | schedule garbage =>
      simp only [PicksSeasoned, not_forall, not_or, not_not] at h
      obtain ⟨picked, k, hbefore, hne, hfresh⟩ := h
      simp [countedStep, sysStep, hbefore, hne, hfresh]

/-- `start_kernel` with `sched_init` done, before any switch. -/
def Counted.boot (img : Image) (k : Kernel) : Counted := ⟨Sys.boot img k, 0⟩

theorem booksOk_boot (img : Image) (k : Kernel) : BooksOk img (Counted.boot img k) where
  consistent := consistent_boot img k
  nrSwitches := rfl
  curr hne := absurd rfl hne

/-- In every run from boot: after every call `curr` is the running task and `nr_switches` the
number of switches, once there has been one, if and only if no call of `__schedule` picks a
task that has never run. -/
theorem keepsBooks_run_iff (k : Kernel) (hfuel : nrTasks ≤ fuel) (ops : List SysOp) :
    Run.Along (countedStep img fuel) (KeepsBooks img fuel) ops (Counted.boot img k) ↔
      Run.Along (countedStep img fuel) (PicksSeasoned img fuel) ops (Counted.boot img k) := by
  refine (Run.along_congr_of_kept (I := BooksOk img) ?_ (fun op _ c h => ?_)
    (booksOk_boot img k)).symm
  · intro op c c' h hpick hstep
    exact (h.step hfuel hstep).1 hpick
  · constructor
    · intro hpick c' hstep
      exact ((h.step hfuel hstep).1 hpick).booked
    · intro hkeeps
      by_contra hpick
      obtain ⟨c', hstep⟩ := countedStep_of_not_seasoned hpick
      exact (h.step hfuel hstep).2 hpick (hkeeps c' hstep)

instance (img : Image) (fuel : Nat) (c : Counted) : ∀ op, Decidable (PicksSeasoned img fuel op c)
  | .doFork .. | .tick => isTrue trivial
  | .schedule garbage =>
      decidable_of_iff (∀ r ∈ scheduleBefore img fuel c.sys.current c.sys.k,
          r.1.getD garbage = c.sys.current ∨ r.1.getD garbage ∉ c.sys.fresh)
        ⟨fun h picked k hbefore => h (picked, k) hbefore, fun h r hr => h r.1 r.2 hr⟩

/-- A call of `__schedule` with an empty queue that does not switch, and two switches. -/
theorem keepsBooks_run_iff_two :
    Run.Along (countedStep Image.sample nrTasks) (KeepsBooks Image.sample nrTasks)
        [.schedule Image.sample.initTask, .tick] (Counted.boot Image.sample Kernel.blank) ∧
      ¬ Run.Along (countedStep Image.sample nrTasks) (KeepsBooks Image.sample nrTasks)
        (forkTwice ++ [.schedule 0]) (Counted.boot Image.sample Kernel.blank) := by
  constructor
  · refine (keepsBooks_run_iff Kernel.blank le_rfl _).2 ?_
    decide +kernel
  · refine mt (keepsBooks_run_iff Kernel.blank le_rfl _).1 ?_
    decide +kernel

/-- Fork once and call `__schedule`: the new task runs, and nothing is counted. -/
theorem first_switch_not_booked :
    ∃ c, Run.exec (countedStep Image.sample nrTasks)
        [.doFork Image.sample.initTask pfKthread 0x82000 0, .schedule 0]
        (Counted.boot Image.sample Kernel.blank) = some c ∧
      c.switches = 1 ∧ ¬ Booked c := by
  have hrun : (Run.exec (countedStep Image.sample nrTasks)
      [.doFork Image.sample.initTask pfKthread 0x82000 0, .schedule 0]
      (Counted.boot Image.sample Kernel.blank)).map
        (fun c => (c.switches, c.sys.k.nrSwitches)) = some (1, 0#64) := rfl
  obtain ⟨c, hc, hbooks⟩ := Option.map_eq_some_iff.mp hrun
  obtain ⟨hswitches, hnr⟩ := Prod.mk.inj hbooks
  refine ⟨c, hc, hswitches, fun hbooked => ?_⟩
  have hcount := (hbooked (by omega)).2
  rw [hnr, hswitches] at hcount
  exact absurd hcount (by decide)

end Arm64OS
