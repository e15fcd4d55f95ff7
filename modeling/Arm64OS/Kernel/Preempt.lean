import Arm64OS.Arch.Entry

/-!
# The preemption counter is balanced

`preempt_count` as `kernel/sched.c`, `include/sched.h`, `kernel/irq.c` and `entry.S` count it, on
the machine of `Arch/Entry.lean`.

The counter of a task is what the routines on its stack account for: `HARDIRQ_OFFSET` for
a routine inside an interrupt handler and 1 for one inside the scheduler.  `checks` goes
through the code of a routine once and for all; what it has found good stays good under
every step, whatever comes between two instructions.
-/

namespace Arm64OS

/-! ## Interrupts and the scheduler -/

/-- The next write to the counter that the code makes by itself. -/
def nextWrite : List Instr → Option Int
  | [] => none
  | .writeCount val :: _ => some val
  | .b _ :: _ => none
  | _ :: code => nextWrite code

/-- Inside an interrupt handler, from `__irq_enter` on, the next write is the one of
`__irq_exit`. -/
def Routine.inHandler (a : Routine) : Bool := nextWrite a.code = some (-hardirqOffset)

/-- Inside the scheduler, from `preempt_disable` on, the next write is the one of
`preempt_enable`. -/
def Routine.inScheduler (a : Routine) : Bool := nextWrite a.code = some (-1)

/-- The interrupt handlers that a stack is inside of. -/
def handlers (st : List Routine) : Nat := st.countP Routine.inHandler

def schedulers (st : List Routine) : Nat := st.countP Routine.inScheduler

/-- The running task is in its own code, at EL0 or in the kernel. -/
def Cpu.InTaskCode (s : Cpu) : Prop :=
  s.stack s.current = [] ∨ ∃ rest n below, s.stack s.current = ⟨.kernelCode :: rest, n⟩ :: below

/-- What the counter of a task says. -/
structure CounterOk (s : Cpu) (t : U64) : Prop where
  never_ran : s.ran t = false → s.preemptCount t = 0
  task_code : t = s.current → s.InTaskCode → s.preemptCount t = 0
  switched_out : t ≠ s.current → s.ran t = true → s.preemptCount t = 1
  account : s.preemptCount t = hardirqOffset * handlers (s.stack t) + schedulers (s.stack t)
  handlers_le : handlers (s.stack t) ≤ 1
  schedulers_le : schedulers (s.stack t) ≤ 1
  nonneg : 0 ≤ s.preemptCount t

/-! ## What an instruction does to the account -/

/-- What an instruction asks for: `m` is that interrupts are masked, `r` that the counter was read
and stands, `z` that the routines below account for nothing, and `w` is the weight. -/
def Instr.allowed (m r z : Bool) (w : Int) : Instr → Bool
  | .kernelCode => z && w = 0
  | .writeCount _ => r
  | .scheduleDebug => z && w = 1
  | .checkPreemptible => z && w = 0
  | .switchTo => m && z && w = 1
  | .eret => w = 0
  | _ => true

/-- By how much an instruction changes the counter. -/
def Instr.change : Instr → Int
  | .writeCount val => val
  | _ => 0

def Instr.masks (m : Bool) : Instr → Bool
  | .irqDisable => true
  | .irqEnable => false
  | _ => m

def Instr.reads (r : Bool) : Instr → Bool
  | .readCount => true
  | .writeCount _ => false
  | _ => r

/-- The code that can follow, with what is known of the routines below.  A `cbnz` that falls
through has found the counter clear. -/
def Instr.nexts (z : Bool) (rest : List Instr) : Instr → List (Bool × List Instr)
  | .cbnzPreempt target => [(true, rest), (z, body target)]
  | .cbzNeedResched target => [(z, rest), (z, body target)]
  | .cbnzNeedResched target => [(z, rest), (z, body target)]
  | .cbzX19 target => [(z, rest), (z, body target)]
  | .bl target => [(z, body target ++ rest)]
  | .b target => [(z, body target)]
  | .eret => []
  | _ => [(z, rest)]

namespace Preempt

/-! ## What a stack accounts for -/

/-- What a routine with this code accounts for in the counter. -/
def weight (code : List Instr) : Int :=
  if nextWrite code = some (-hardirqOffset) then hardirqOffset
  else if nextWrite code = some (-1) then 1
  else 0

def total (st : List Routine) : Int := (st.map fun a => weight a.code).sum

@[simp] theorem total_nil : total [] = 0 := rfl

@[simp] theorem total_cons (a : Routine) (below : List Routine) :
    total (a :: below) = weight a.code + total below := rfl

theorem handlers_cons (a : Routine) (below : List Routine) :
    handlers (a :: below) = handlers below + if a.inHandler then 1 else 0 := List.countP_cons

theorem schedulers_cons (a : Routine) (below : List Routine) :
    schedulers (a :: below) = schedulers below + if a.inScheduler then 1 else 0 := List.countP_cons

theorem weight_eq (a : Routine) :
    weight a.code =
      hardirqOffset * (if a.inHandler then 1 else 0) + if a.inScheduler then 1 else 0 := by
  have hne : (-hardirqOffset : Int) ≠ -1 := by decide
  unfold weight Routine.inHandler Routine.inScheduler
  by_cases hhandler : nextWrite a.code = some (-hardirqOffset)
  · simp [hhandler, hne]
  · by_cases hscheduler : nextWrite a.code = some (-1)
    · simp [hscheduler, hne.symm]
    · simp [hhandler, hscheduler]

theorem total_eq (st : List Routine) :
    total st = hardirqOffset * handlers st + schedulers st := by
  induction st with
  | nil => rfl
  | cons a below ih =>
      rw [total_cons, ih, weight_eq, handlers_cons, schedulers_cons]
      push_cast
      ring

theorem total_nonneg (st : List Routine) : 0 ≤ total st := by
  have hoffset : (0 : Int) ≤ hardirqOffset := by decide
  rw [total_eq]
  positivity

/-! ## Code that keeps the account -/

/-- Every path through the code keeps the account, an interrupt handler runs masked, and the
scheduler runs where nothing is below. -/
def checks : (fuel : Nat) → (m r z : Bool) → List Instr → Bool
  | 0, _, _, _, _ => false
  | _ + 1, _, _, _, [] => true
  | fuel + 1, m, r, z, i :: rest =>
      let w := weight (i :: rest)
      (m || w ≠ hardirqOffset) && (z || w ≠ 1) && i.allowed m r z w &&
        (i.nexts z rest).all fun (z', code) =>
          weight code = w + i.change && checks fuel (i.masks m) (i.reads r) z' code

def Checked (m r z : Bool) (code : List Instr) : Prop := ∃ fuel, checks fuel m r z code = true

/-- An instruction of checked code. -/
structure InstrOk (m r z : Bool) (i : Instr) (rest : List Instr) : Prop where
  masked : m = false → weight (i :: rest) ≠ hardirqOffset
  clear : z = false → weight (i :: rest) ≠ 1
  allowed : i.allowed m r z (weight (i :: rest)) = true
  next : ∀ z' code, (z', code) ∈ i.nexts z rest →
    weight code = weight (i :: rest) + i.change ∧ Checked (i.masks m) (i.reads r) z' code

theorem Checked.cons {m r z : Bool} {i : Instr} {rest : List Instr}
    (h : Checked m r z (i :: rest)) : InstrOk m r z i rest := by
  obtain ⟨fuel, hfuel⟩ := h
  cases fuel with
  | zero => simp [checks] at hfuel
  | succ fuel =>
      simp only [checks, Bool.and_eq_true, Bool.or_eq_true, List.all_eq_true,
        decide_eq_true_eq] at hfuel
      obtain ⟨⟨⟨hmasked, hclear⟩, hallowed⟩, hnext⟩ := hfuel
      refine ⟨?_, ?_, hallowed, ?_⟩
      · rintro rfl
        simpa using hmasked
      · rintro rfl
        simpa using hclear
      · intro z' code hcode
        have := hnext (z', code) hcode
        exact ⟨this.1, fuel, this.2⟩

/-- The code that exceptions, forks and the boot begin with. -/
theorem checked_entries :
    Checked true false true (body .el0Sync) ∧ Checked true false true (body .el0Irq) ∧
      Checked true false false (body .el1Irq) ∧ Checked true false true (body .retFromFork) ∧
      Checked false false true [.kernelCode] :=
  ⟨⟨100, by decide +kernel⟩, ⟨100, by decide +kernel⟩, ⟨100, by decide +kernel⟩,
    ⟨100, by decide +kernel⟩, ⟨2, by decide⟩⟩

/-! ## Stacks -/

/-- The routine is somewhere in checked code.  `masked` is `PSTATE.I` when it goes on. -/
structure RoutineOk (masked : Bool) (a : Routine) (below : List Routine) : Prop where
  code : ∃ m r z, Checked m r z a.code ∧ (m = true → masked = true) ∧
    (r = true → a.count = total (a :: below)) ∧ (z = true → total below = 0)

/-- A routine with others above it was interrupted, so its interrupts are not masked. -/
def StackOk (masked : Bool) : List Routine → Prop
  | [] => True
  | a :: below => RoutineOk masked a below ∧ StackOk false below

theorem StackOk.of_masked {masked : Bool} {st : List Routine} (h : StackOk masked st) :
    StackOk true st := by
  cases st with
  | nil => trivial
  | cons a below =>
      obtain ⟨⟨m, r, z, hcode, -, hr, hz⟩, hbelow⟩ := h
      exact ⟨⟨m, r, z, hcode, fun _ => rfl, hr, hz⟩, hbelow⟩

/-- A handler is not interrupted. -/
theorem StackOk.handlers_eq_zero {st : List Routine} (h : StackOk false st) :
    handlers st = 0 := by
  induction st with
  | nil => rfl
  | cons a below ih =>
      obtain ⟨⟨m, r, z, hcode, hm, -, -⟩, hbelow⟩ := h
      have hout : a.inHandler = false := by
        obtain ⟨code, count⟩ := a
        cases code with
        | nil => rfl
        | cons i rest =>
            have hfalse : m = false := by simpa using hm
            have hweight := hcode.cons.masked hfalse
            by_contra hin
            refine hweight ?_
            unfold weight
            rw [if_pos (by simpa [Routine.inHandler] using hin)]
      rw [handlers_cons, ih hbelow, hout]
      rfl

theorem StackOk.handlers_le {masked : Bool} {st : List Routine} (h : StackOk masked st) :
    handlers st ≤ 1 := by
  cases st with
  | nil => exact Nat.zero_le 1
  | cons a below =>
      rw [handlers_cons, h.2.handlers_eq_zero]
      split <;> decide

/-- The scheduler is not entered where one is below. -/
theorem StackOk.schedulers_le {masked : Bool} {st : List Routine} (h : StackOk masked st) :
    schedulers st ≤ 1 := by
  induction st generalizing masked with
  | nil => exact Nat.zero_le 1
  | cons a below ih =>
      obtain ⟨⟨m, r, z, hcode, -, -, hz⟩, hbelow⟩ := h
      rw [schedulers_cons]
      cases hin : a.inScheduler with
      | false => simpa using ih hbelow
      | true =>
          obtain ⟨code, count⟩ := a
          have hnext : nextWrite code = some (-1) := by simpa [Routine.inScheduler] using hin
          have hweight : weight code = 1 := by simp [weight, hnext, hardirqOffset]
          cases code with
          | nil => simp [nextWrite] at hnext
          | cons i rest =>
              have hclear : z = true := by
                by_contra hfalse
                exact hcode.cons.clear (by simpa using hfalse) hweight
              have htotal := hz hclear
              have hoffset : hardirqOffset = 256 := rfl
              rw [total_eq, hoffset] at htotal
              simp only [if_true]
              omega

/-! ## Steps -/

/-- The account of every task balances, and the tasks that do not run are where `switch_to`
or a fork has left them. -/
structure Balanced (s : Cpu) : Prop where
  born : s.born s.current = true
  ran : s.ran s.current = true
  running : StackOk s.masked (s.stack s.current)
  count : ∀ t, s.born t → s.preemptCount t = total (s.stack t)
  fresh : ∀ t, s.born t → s.ran t = false → ∃ count, s.stack t = [⟨body .retFromFork, count⟩]
  parked : ∀ t, s.born t → t ≠ s.current → s.ran t → StackOk true (s.stack t) ∧
    total (s.stack t) = 1
  messages : s.messages = []

theorem balanced_boot (initTask : U64) : Balanced (Cpu.boot initTask) where
  born := by simp [Cpu.boot]
  ran := by simp [Cpu.boot]
  running := by
    refine ⟨⟨false, false, true, checked_entries.2.2.2.2, ?_, ?_, fun _ => rfl⟩, trivial⟩
    · simp
    · simp
  count := fun t _ => rfl
  fresh := by
    intro t hborn hran
    rw [show (Cpu.boot initTask).ran t = (Cpu.boot initTask).born t from rfl] at hran
    rw [hborn] at hran
    simp at hran
  parked := by
    intro t hborn hne
    exact absurd (by simpa [Cpu.boot] using hborn) hne
  messages := rfl

variable {s s' : Cpu}

/-- A step of the running task that changes its stack and its counter alike. -/
theorem Balanced.update (h : Balanced s) {st : List Routine} {count : Int} {masked : Bool}
    (hst : StackOk masked st) (hcount : count = total st) (resched : U64 → Bool) :
    Balanced { s with
      masked := masked
      stack := Function.update s.stack s.current st
      preemptCount := Function.update s.preemptCount s.current count
      needResched := resched } where
  born := h.born
  ran := h.ran
  running := by
    show StackOk masked (Function.update s.stack s.current st s.current)
    rw [Function.update_self]
    exact hst
  count := by
    intro t hborn
    show Function.update s.preemptCount s.current count t =
      total (Function.update s.stack s.current st t)
    by_cases ht : t = s.current
    · rw [ht, Function.update_self, Function.update_self, hcount]
    · rw [Function.update_of_ne ht, Function.update_of_ne ht]
      exact h.count t hborn
  fresh := by
    intro t hborn hran
    have ht : t ≠ s.current := by
      rintro rfl
      exact absurd (h.ran.symm.trans hran) (by simp)
    show ∃ n, Function.update s.stack s.current st t = _
    rw [Function.update_of_ne ht]
    exact h.fresh t hborn hran
  parked := by
    intro t hborn ht hran
    show StackOk true (Function.update s.stack s.current st t) ∧
      total (Function.update s.stack s.current st t) = 1
    rw [Function.update_of_ne ht]
    exact h.parked t hborn ht hran
  messages := h.messages

/-- The same where the counter stays. -/
theorem Balanced.setStack (h : Balanced s) {st : List Routine} {masked : Bool}
    (hst : StackOk masked st) (htotal : total st = total (s.stack s.current))
    (resched : U64 → Bool) :
    Balanced { s.setStack st with masked := masked, needResched := resched } := by
  have hcount := h.count s.current h.born
  have hupdate := h.update hst (hcount.trans htotal.symm) resched
  rw [Function.update_eq_self] at hupdate
  exact hupdate

/-- An interrupt or a system call. -/
theorem Balanced.enter (h : Balanced s) {code : List Instr} {z : Bool}
    (hcode : Checked true false z code) (hweight : weight code = 0)
    (hstack : StackOk false (s.stack s.current))
    (hz : z = true → total (s.stack s.current) = 0) :
    Balanced { s.setStack (⟨code, 0⟩ :: s.stack s.current) with masked := true } := by
  have hst : StackOk true (⟨code, 0⟩ :: s.stack s.current) :=
    ⟨⟨true, false, z, hcode, fun _ => rfl, by simp, hz⟩, hstack⟩
  refine h.setStack hst ?_ s.needResched
  rw [total_cons, hweight, Int.zero_add]

/-- A task is forked by the one that runs. -/
theorem Balanced.fork (h : Balanced s) {p : U64} (hp : s.born p = false) :
    Balanced (s.fork p) := by
  have hne : ∀ t, s.born t = true → t ≠ p := by
    rintro t ht rfl
    exact absurd (ht.symm.trans hp) (by simp)
  have hcurrent := hne s.current h.born
  have hborn : ∀ t, t ≠ p → Function.update s.born p true t = true → s.born t = true := by
    intro t ht hb
    rwa [Function.update_of_ne ht] at hb
  constructor
  case born =>
    show Function.update s.born p true s.current = true
    rw [Function.update_of_ne hcurrent]
    exact h.born
  case ran =>
    show Function.update s.ran p false s.current = true
    rw [Function.update_of_ne hcurrent]
    exact h.ran
  case running =>
    show StackOk s.masked (Function.update s.stack p _ s.current)
    rw [Function.update_of_ne hcurrent]
    exact h.running
  case count =>
    intro t hb
    show Function.update s.preemptCount p 0 t = total (Function.update s.stack p _ t)
    by_cases ht : t = p
    · rw [ht, Function.update_self, Function.update_self]
      rfl
    · rw [Function.update_of_ne ht, Function.update_of_ne ht]
      exact h.count t (hborn t ht hb)
  case fresh =>
    intro t hb hran
    show ∃ n, Function.update s.stack p _ t = _
    by_cases ht : t = p
    · rw [ht, Function.update_self]
      exact ⟨0, rfl⟩
    · change Function.update s.ran p false t = false at hran
      rw [Function.update_of_ne ht] at hran ⊢
      exact h.fresh t (hborn t ht hb) hran
  case parked =>
    intro t hb htc hran
    change Function.update s.ran p false t = true at hran
    have ht : t ≠ p := by
      rintro rfl
      rw [Function.update_self] at hran
      simp at hran
    show StackOk true (Function.update s.stack p _ t) ∧
      total (Function.update s.stack p _ t) = 1
    rw [Function.update_of_ne ht] at hran ⊢
    exact h.parked t (hborn t ht hb) htc hran
  case messages => exact h.messages

/-- The running task is at the instruction `i`, which `checks` has accepted. -/
structure At (s : Cpu) (i : Instr) (rest : List Instr) (n : Int) (below : List Routine)
    (m r z : Bool) : Prop where
  stack : s.stack s.current = ⟨i :: rest, n⟩ :: below
  ok : InstrOk m r z i rest
  masked : m = true → s.masked = true
  read : r = true → n = total (s.stack s.current)
  clear : z = true → total below = 0
  below : StackOk false below

theorem Balanced.exists_at (h : Balanced s) {i : Instr} {rest : List Instr} {n : Int}
    {below : List Routine} (hstack : s.stack s.current = ⟨i :: rest, n⟩ :: below) :
    ∃ m r z, At s i rest n below m r z := by
  have hrunning := h.running
  rw [hstack] at hrunning
  obtain ⟨⟨m, r, z, hcode, hm, hr, hz⟩, hbelow⟩ := hrunning
  exact ⟨m, r, z, hstack, hcode.cons, hm, by rw [hstack]; exact hr, hz, hbelow⟩

variable {i : Instr} {rest : List Instr} {n : Int} {below : List Routine} {m r z : Bool}

theorem At.total (hat : At s i rest n below m r z) :
    Arm64OS.Preempt.total (s.stack s.current) =
      weight (i :: rest) + Arm64OS.Preempt.total below := by
  rw [hat.stack, total_cons]

/-- The counter, where it is known that the routines below account for nothing. -/
theorem At.count_eq (hat : At s i rest n below m r z) (h : Balanced s) (hz : z = true) :
    s.preemptCount s.current = weight (i :: rest) := by
  rw [h.count _ h.born, hat.total, hat.clear hz, Int.add_zero]

/-- The stack behind the instruction. -/
theorem At.stackOk (hat : At s i rest n below m r z) {z' : Bool} {code : List Instr}
    (hnext : (z', code) ∈ i.nexts z rest) {masked : Bool} (hm : i.masks m = true → masked = true)
    {n' : Int}
    (hr : i.reads r = true → n' = Arm64OS.Preempt.total (s.stack s.current) + i.change)
    (hz : z' = true → Arm64OS.Preempt.total below = 0) :
    StackOk masked (⟨code, n'⟩ :: below) ∧
      Arm64OS.Preempt.total (⟨code, n'⟩ :: below) =
        Arm64OS.Preempt.total (s.stack s.current) + i.change := by
  obtain ⟨hweight, hcode⟩ := hat.ok.next z' code hnext
  have htotal : Arm64OS.Preempt.total (⟨code, n'⟩ :: below) =
      Arm64OS.Preempt.total (s.stack s.current) + i.change := by
    rw [total_cons, hat.total, hweight]
    ring
  refine ⟨⟨⟨_, _, z', hcode, hm, fun hread => ?_, hz⟩, hat.below⟩, htotal⟩
  rw [htotal, hr hread]

/-- An instruction that leaves the counter alone. -/
theorem Balanced.goto (h : Balanced s) (hat : At s i rest n below m r z) {z' : Bool}
    {code : List Instr} (hnext : (z', code) ∈ i.nexts z rest) (hchange : i.change = 0)
    {masked : Bool} (hm : i.masks m = true → masked = true) {n' : Int}
    (hr : i.reads r = true → n' = total (s.stack s.current))
    (hz : z' = true → total below = 0) (resched : U64 → Bool) :
    Balanced { s.setStack (⟨code, n'⟩ :: below) with
      masked := masked, needResched := resched } := by
  obtain ⟨hst, htotal⟩ := hat.stackOk hnext hm (by rwa [hchange, Int.add_zero]) hz
  rw [hchange, Int.add_zero] at htotal
  exact h.setStack hst htotal resched

theorem stackOk_retFromFork (count : Int) : StackOk true [⟨body .retFromFork, count⟩] :=
  ⟨⟨true, false, true, checked_entries.2.2.2.1, fun _ => rfl, by simp, fun _ => rfl⟩, trivial⟩

/-- Another task goes on, where the one that runs has a counter of 1. -/
theorem Balanced.resume (h : Balanced s) (hmasked : s.masked = true)
    (htotal : total (s.stack s.current) = 1) {next : U64} (hnext : s.born next = true) :
    Balanced { s with current := next, ran := Function.update s.ran next true } := by
  have hran : ∀ t, t ≠ next → Function.update s.ran next true t = s.ran t :=
    fun t ht => Function.update_of_ne ht _ _
  constructor
  case born => exact hnext
  case ran => exact Function.update_self ..
  case running =>
    show StackOk s.masked (s.stack next)
    rw [hmasked]
    by_cases hcurrent : next = s.current
    · rw [hcurrent]
      exact h.running.of_masked
    · cases hfresh : s.ran next with
      | true => exact (h.parked next hnext hcurrent hfresh).1
      | false =>
          obtain ⟨count, hstack⟩ := h.fresh next hnext hfresh
          rw [hstack]
          exact stackOk_retFromFork count
  case count => exact h.count
  case fresh =>
    intro t hborn hfresh
    have ht : t ≠ next := by
      rintro rfl
      exact absurd ((Function.update_self ..).symm.trans hfresh) (by simp)
    exact h.fresh t hborn ((hran t ht).symm.trans hfresh)
  case parked =>
    intro t hborn ht hrun
    change Function.update s.ran next true t = true at hrun
    rw [hran t ht] at hrun
    by_cases hcurrent : t = s.current
    · rw [hcurrent]
      exact ⟨h.running.of_masked, htotal⟩
    · exact h.parked t hborn hcurrent hrun
  case messages => exact h.messages

/-- `switch_to`: the task that runs is left with a counter of 1. -/
theorem Balanced.switchTo (h : Balanced s) (hat : At s .switchTo rest n below m r z) {next : U64}
    (hborn : s.born next = true) :
    Balanced { s.setStack (⟨rest, n⟩ :: below) with
      current := next
      ran := Function.update s.ran next true
      needResched := Function.update s.needResched s.current false } := by
  have hallowed := hat.ok.allowed
  simp only [Instr.allowed, Bool.and_eq_true, decide_eq_true_eq] at hallowed
  obtain ⟨⟨hm, hz⟩, hweight⟩ := hallowed
  have hmasked : s.masked = true := hat.masked hm
  have hnext : (z, rest) ∈ Instr.switchTo.nexts z rest := by simp [Instr.nexts]
  have hleft := h.goto hat hnext rfl (fun _ => hmasked) hat.read hat.clear
    (Function.update s.needResched s.current false)
  refine hleft.resume hmasked ?_ hborn
  obtain ⟨hcode, -⟩ := hat.ok.next z rest hnext
  show total (Function.update s.stack s.current (⟨rest, n⟩ :: below) s.current) = 1
  rw [Function.update_self, total_cons, hat.clear hz, hcode, hweight]
  rfl

/-- Code that the model leaves open: a fork, more of the same, or its end. -/
theorem Balanced.execCode (h : Balanced s) (hat : At s .kernelCode rest n below m r z) {c : Choice}
    (hstep : Arm64OS.execInstr c .kernelCode ⟨rest, n⟩ below s = some s') : Balanced s' := by
  cases hfork : c.fork with
  | some p =>
      cases hborn : s.born p with
      | true => simp [Arm64OS.execInstr, hfork, hborn] at hstep
      | false =>
          simp only [Arm64OS.execInstr, hfork, hborn, Bool.false_eq_true, if_false,
            Option.some.injEq] at hstep
          subst hstep
          exact h.fork hborn
  | none =>
      cases htaken : c.taken with
      | true =>
          simp only [Arm64OS.execInstr, hfork, htaken, if_true,
            Option.some.injEq] at hstep
          subst hstep
          exact h
      | false =>
          simp only [Arm64OS.execInstr, hfork, htaken, Bool.false_eq_true, if_false,
            Option.some.injEq] at hstep
          subst hstep
          exact h.goto hat (List.mem_singleton_self _) rfl hat.masked hat.read hat.clear
            s.needResched

/-- The test of the counter in `el1_irq`. -/
theorem Balanced.cbnzPreempt {target : Sym} (h : Balanced s)
    (hat : At s (.cbnzPreempt target) rest n below m r z) {c : Choice}
    (hstep : Arm64OS.execInstr c (.cbnzPreempt target) ⟨rest, n⟩ below s = some s') :
    Balanced s' := by
  obtain rfl := Option.some.inj hstep
  by_cases hzero : s.preemptCount s.current = 0
  · rw [if_pos hzero]
    -- nothing is below zero, so a clear counter leaves nothing to the routines below
    have hweight := total_nonneg [⟨.cbnzPreempt target :: rest, n⟩]
    have hnonneg := total_nonneg below
    have htotal := hat.total
    rw [← h.count _ h.born, hzero] at htotal
    rw [total_cons, total_nil] at hweight
    have hclear : total below = 0 := by
      change 0 ≤ weight (.cbnzPreempt target :: rest) + 0 at hweight
      omega
    have hnext : (true, rest) ∈ (Instr.cbnzPreempt target).nexts z rest := by simp [Instr.nexts]
    exact h.goto hat hnext rfl hat.masked hat.read (fun _ => hclear) s.needResched
  · rw [if_neg hzero]
    have hnext : (z, body target) ∈ (Instr.cbnzPreempt target).nexts z rest := by
      simp [Instr.nexts]
    exact h.goto hat hnext rfl hat.masked hat.read hat.clear s.needResched

/-- One instruction. -/
theorem Balanced.execInstr (h : Balanced s) (hat : At s i rest n below m r z) {c : Choice}
    (hstep : Arm64OS.execInstr c i ⟨rest, n⟩ below s = some s') : Balanced s' := by
  have hallowed := hat.ok.allowed
  have hstay : (z, rest) ∈ [(z, rest)] := List.mem_singleton_self _
  cases i with
  | kernelCode => exact h.execCode hat hstep
  | plain | msrElr | msrSpsr | reload =>
      obtain rfl := Option.some.inj hstep
      exact h.goto hat hstay rfl hat.masked hat.read hat.clear s.needResched
  | archIrqHandler =>
      obtain rfl := Option.some.inj hstep
      exact h.goto hat hstay rfl hat.masked hat.read hat.clear _
  | irqDisable =>
      obtain rfl := Option.some.inj hstep
      exact h.goto hat hstay rfl (fun _ => rfl) hat.read hat.clear s.needResched
  | irqEnable =>
      obtain rfl := Option.some.inj hstep
      exact h.goto hat hstay rfl (fun hm => hm) hat.read hat.clear s.needResched
  | readCount =>
      obtain rfl := Option.some.inj hstep
      exact h.goto hat hstay rfl hat.masked (fun _ => h.count _ h.born) hat.clear s.needResched
  | writeCount val =>
      obtain rfl := Option.some.inj hstep
      -- the value read is still the counter: where it can be stale, the write is not allowed
      have hread : n = total (s.stack s.current) := hat.read hallowed
      obtain ⟨hst, htotal⟩ : StackOk s.masked (⟨rest, n⟩ :: below) ∧ _ :=
        hat.stackOk hstay hat.masked nofun hat.clear
      exact h.update hst (by rw [htotal, hread]; rfl) s.needResched
  | scheduleDebug =>
      simp only [Instr.allowed, Bool.and_eq_true, decide_eq_true_eq] at hallowed
      -- the scheduler's own 1 is all there is, so no message
      have hone : s.preemptCount s.current = 1 := (hat.count_eq h hallowed.1).trans hallowed.2
      simp only [Arm64OS.execInstr, if_pos hone, Option.some.injEq] at hstep
      subst hstep
      exact h.goto hat hstay rfl hat.masked hat.read hat.clear s.needResched
  | checkPreemptible =>
      simp only [Instr.allowed, Bool.and_eq_true, decide_eq_true_eq] at hallowed
      have hzero : s.preemptCount s.current = 0 := (hat.count_eq h hallowed.1).trans hallowed.2
      simp only [Arm64OS.execInstr, if_pos hzero, Option.some.injEq] at hstep
      subst hstep
      exact h.goto hat hstay rfl hat.masked hat.read hat.clear s.needResched
  | cbnzPreempt target => exact h.cbnzPreempt hat hstep
  | cbzNeedResched target =>
      obtain rfl := Option.some.inj hstep
      have hnext : (z, if s.needResched s.current then rest else body target) ∈
          (Instr.cbzNeedResched target).nexts z rest := by
        split <;> simp [Instr.nexts]
      exact h.goto hat hnext rfl hat.masked hat.read hat.clear s.needResched
  | cbnzNeedResched target =>
      obtain rfl := Option.some.inj hstep
      have hnext : (z, if s.needResched s.current then body target else rest) ∈
          (Instr.cbnzNeedResched target).nexts z rest := by
        split <;> simp [Instr.nexts]
      exact h.goto hat hnext rfl hat.masked hat.read hat.clear s.needResched
  | cbzX19 target =>
      obtain rfl := Option.some.inj hstep
      have hnext : (z, if c.taken then body target else rest) ∈
          (Instr.cbzX19 target).nexts z rest := by
        split <;> simp [Instr.nexts]
      exact h.goto hat hnext rfl hat.masked hat.read hat.clear s.needResched
  | switchTo =>
      cases hborn : s.born c.next with
      | false => simp [Arm64OS.execInstr, hborn] at hstep
      | true =>
          simp only [Arm64OS.execInstr, hborn, if_true, Option.some.injEq] at hstep
          subst hstep
          exact h.switchTo hat hborn
  | bl target =>
      obtain rfl := Option.some.inj hstep
      have hnext : (z, body target ++ rest) ∈ (Instr.bl target).nexts z rest :=
        List.mem_singleton_self _
      exact h.goto hat hnext rfl hat.masked hat.read hat.clear s.needResched
  | b target =>
      obtain rfl := Option.some.inj hstep
      have hnext : (z, body target) ∈ (Instr.b target).nexts z rest := List.mem_singleton_self _
      exact h.goto hat hnext rfl hat.masked hat.read hat.clear s.needResched
  | eret =>
      obtain rfl := Option.some.inj hstep
      -- a routine that returns accounts for nothing, so the counter stands for the rest
      simp only [Instr.allowed, decide_eq_true_eq] at hallowed
      refine h.setStack hat.below ?_ s.needResched
      rw [hat.total, hallowed, Int.zero_add]

/-- One step, whatever it is. -/
theorem Balanced.step (op : CpuOp) (s s' : Cpu) (h : Balanced s)
    (hstep : cpuStep op s = some s') : Balanced s' := by
  obtain ⟨hsync, hirq0, hirq1, -, -⟩ := checked_entries
  have hempty : s.stack s.current = [] → total (s.stack s.current) = 0 := by
    intro hstack
    rw [hstack]
    rfl
  cases op with
  | exec c =>
      cases hstack : s.stack s.current with
      | nil =>
          -- code at EL0
          simp only [cpuStep, hstack, Option.some.injEq] at hstep
          exact hstep ▸ h
      | cons a below =>
          obtain ⟨code, n⟩ := a
          cases code with
          | nil => simp [cpuStep, hstack] at hstep
          | cons i rest =>
              simp only [cpuStep, hstack] at hstep
              obtain ⟨m, r, z, hat⟩ := h.exists_at hstack
              exact h.execInstr hat hstep
  | irq =>
      cases hmasked : s.masked with
      | true => simp [cpuStep, hmasked] at hstep
      | false =>
          have hrunning := h.running
          rw [hmasked] at hrunning
          cases hstack : s.stack s.current with
          | nil =>
              simp only [cpuStep, hmasked, hstack, Bool.false_eq_true, if_false,
                Option.some.injEq] at hstep
              subst hstep
              rw [← hstack]
              exact h.enter hirq0 rfl hrunning fun _ => hempty hstack
          | cons a below =>
              simp only [cpuStep, hmasked, hstack, Bool.false_eq_true, if_false,
                Option.some.injEq] at hstep
              subst hstep
              rw [← hstack]
              exact h.enter hirq1 rfl hrunning nofun
  | sync =>
      cases hstack : s.stack s.current with
      | nil =>
          simp only [cpuStep, hstack, Option.some.injEq] at hstep
          subst hstep
          have hrunning : StackOk false (s.stack s.current) := by
            rw [hstack]
            trivial
          have henter := h.enter hsync rfl hrunning fun _ => hempty hstack
          rwa [hstack] at henter
      | cons a below => simp [cpuStep, hstack] at hstep

/-! ## Runs -/

theorem Balanced.inTaskCode (h : Balanced s) (hcode : s.InTaskCode) :
    s.preemptCount s.current = 0 := by
  rcases hcode with hstack | ⟨rest, n, below, hstack⟩
  · rw [h.count _ h.born, hstack]
    rfl
  · obtain ⟨m, r, z, hat⟩ := h.exists_at hstack
    have hallowed := hat.ok.allowed
    simp only [Instr.allowed, Bool.and_eq_true, decide_eq_true_eq] at hallowed
    exact (hat.count_eq h hallowed.1).trans hallowed.2

theorem Balanced.stackOk (h : Balanced s) {t : U64} (hborn : s.born t = true) :
    ∃ masked, StackOk masked (s.stack t) := by
  by_cases ht : t = s.current
  · exact ⟨s.masked, ht ▸ h.running⟩
  · cases hran : s.ran t with
    | true => exact ⟨true, (h.parked t hborn ht hran).1⟩
    | false =>
        obtain ⟨count, hstack⟩ := h.fresh t hborn hran
        exact ⟨true, hstack ▸ stackOk_retFromFork count⟩

theorem Balanced.counterOk (h : Balanced s) {t : U64} (hborn : s.born t = true) :
    CounterOk s t := by
  have hcount := h.count t hborn
  obtain ⟨masked, hstack⟩ := h.stackOk hborn
  constructor
  case never_ran =>
    intro hran
    obtain ⟨count, hfresh⟩ := h.fresh t hborn hran
    rw [hcount, hfresh]
    rfl
  case task_code =>
    rintro rfl hcode
    exact h.inTaskCode hcode
  case switched_out =>
    intro ht hran
    exact hcount.trans (h.parked t hborn ht hran).2
  case account => rw [hcount, total_eq]
  case handlers_le => exact hstack.handlers_le
  case schedulers_le => exact hstack.schedulers_le
  case nonneg => exact hcount ▸ total_nonneg _

/-- **The counter balances.**  In every state that forks, interrupts and the scheduler lead to,
the counter of each task is 0 before its first run and in its own code, 1 while it is switched
out, and more by `HARDIRQ_OFFSET` inside an interrupt handler; neither `BUG` is reported. -/
theorem preempt_count_balanced {initTask : U64}
    (h : Run.Reachable cpuStep (Cpu.boot initTask) s) :
    (∀ t, s.born t = true → CounterOk s t) ∧ s.messages = [] := by
  have hbalanced := h.invariant Balanced.step (balanced_boot initTask)
  exact ⟨fun t hborn => hbalanced.counterOk hborn, hbalanced.messages⟩

/-- A fork, and a tick that hands the processor to the new task. -/
def forkAndSwitch : List CpuOp :=
  .exec ⟨false, 0, true, some 0x1000⟩ :: .irq ::
    List.replicate 43 (.exec ⟨true, 0x1000, false, none⟩)

theorem preempt_count_balanced_sample :
    ∃ s, Run.exec cpuStep forkAndSwitch (Cpu.boot 0) = some s ∧
      (s.current, s.preemptCount 0, s.preemptCount 0x1000) = (0x1000, 1, 0) ∧
      (∀ t, s.born t = true → CounterOk s t) ∧ s.messages = [] := by
  have hrun : (Run.exec cpuStep forkAndSwitch (Cpu.boot 0)).map
      (fun s => (s.current, s.preemptCount 0, s.preemptCount 0x1000)) = some (0x1000, 1, 0) := by
    decide +kernel
  obtain ⟨s, hs, hcounts⟩ := Option.map_eq_some_iff.1 hrun
  exact ⟨s, hs, hcounts, preempt_count_balanced ⟨forkAndSwitch, hs⟩⟩

end Preempt

end Arm64OS
