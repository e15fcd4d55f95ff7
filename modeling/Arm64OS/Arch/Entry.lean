import Arm64OS.Kernel.Task
import Arm64OS.Lib.Run

/-!
# Exception entry and return

The control flow of `arch/arm64/kernel/entry.S` and of the functions of `kernel/sched.c` and
`kernel/irq.c` that mask and unmask interrupts and count preemption, instruction by instruction.
Every task has a stack of kernel routines; an exception pushes one, `eret` pops one, and
`switch_to` leaves one behind.  An access to the counter is one step, so
`current->preempt_count++` is a read and a write, with `current` taken anew in each of them and
room for interrupts between them.

A fork is one step, since none of its stores concerns a task that can already run.
`el1_sync_invalid` also ends in `kernel_context_res`, but after `bad_mode`, which does not
return, so it is left out.
-/

namespace Arm64OS

/-- Labels of `entry.S`, and the functions that they reach. -/
inductive Sym
  | el0Sync
  | el0Svc
  | el0Irq
  | el1Irq
  /-- the local label of `el1_irq` -/
  | el1IrqOut
  | el1Preempt
  | retToUser
  | noWorkPending
  | needSched
  | retFromFork
  /-- the local label of `ret_from_fork` -/
  | retFromForkOut
  | irqHandler
  | scheduleTail
  /-- `__schedule` -/
  | scheduleCore
  | schedule
  | preemptScheduleIrq
  deriving DecidableEq

inductive Instr
  /-- anything that touches neither `DAIF` nor `ELR`/`SPSR` nor the counter, and goes on -/
  | plain
  /-- code of a task, or a system call: it runs for as long as it likes, forks, and leaves `DAIF`
  and the counter alone -/
  | kernelCode
  /-- `arch_irq_handler()` -/
  | archIrqHandler
  /-- `msr daifset, #2` -/
  | irqDisable
  /-- `msr daifclr, #2` -/
  | irqEnable
  /-- the read in `current->preempt_count += val` -/
  | readCount
  /-- the write in `current->preempt_count += val` -/
  | writeCount (val : Int)
  /-- `schedule_debug(prev)` -/
  | scheduleDebug
  /-- the test at the head of `preempt_schedule_irq` -/
  | checkPreemptible
  /-- branch if the `preempt_count` of the running task is not 0 -/
  | cbnzPreempt (target : Sym)
  /-- branch if its `need_resched` is 0 -/
  | cbzNeedResched (target : Sym)
  /-- branch if its `need_resched` is not 0 -/
  | cbnzNeedResched (target : Sym)
  | cbzX19 (target : Sym)
  /-- `pick_next_task`, `clear_task_resched` and `switch_to` -/
  | switchTo
  | bl (target : Sym)
  | b (target : Sym)
  | msrElr
  | msrSpsr
  /-- reload a register, or drop the frame, after `ELR` and `SPSR` have been written -/
  | reload
  | eret
  deriving DecidableEq

/-- `kernel_context_save`. -/
def kernelContextSave : List Instr := List.replicate 21 .plain

/-- `kernel_context_res`: the load of the saved `pc` and `pstate` (and of `sp_el0`), the two
system registers, and the other registers. -/
def kernelContextRes (el : Nat) : List Instr :=
  .plain :: (if el = 0 then [.plain, .plain] else []) ++
    [.msrElr, .msrSpsr] ++ List.replicate 17 .reload ++ [.eret]

/-- `current->preempt_count += val`: `preempt_add`, `preempt_sub`, `preempt_disable` and
`preempt_enable`. -/
def addCount (val : Int) : List Instr := [.readCount, .writeCount val]

def body : Sym → List Instr
  | .el0Sync => kernelContextSave ++ [.plain, .plain, .plain, .b .el0Svc]
  | .el0Svc => [.plain, .kernelCode, .b .retToUser]
  | .el0Irq => kernelContextSave ++ [.bl .irqHandler, .b .retToUser]
  | .el1Irq => kernelContextSave ++
      [.bl .irqHandler, .plain, .cbnzPreempt .el1IrqOut, .cbzNeedResched .el1IrqOut,
        .bl .el1Preempt, .b .el1IrqOut]
  | .el1IrqOut => kernelContextRes 1
  | .el1Preempt => [.plain, .bl .preemptScheduleIrq]
  | .retToUser => [.irqDisable, .plain, .cbnzNeedResched .needSched, .b .noWorkPending]
  | .noWorkPending => kernelContextRes 0
  | .needSched => [.bl .schedule, .b .noWorkPending]
  | .retFromFork => [.bl .scheduleTail, .cbzX19 .retFromForkOut, .plain, .kernelCode,
      .b .retFromForkOut]
  | .retFromForkOut => [.b .retToUser]
  | .irqHandler => addCount hardirqOffset ++ [.archIrqHandler] ++ addCount (-hardirqOffset)
  | .scheduleTail => [.irqEnable]
  | .scheduleCore =>
      [.plain, .scheduleDebug, .irqDisable, .plain, .switchTo, .plain, .bl .scheduleTail]
  | .schedule => addCount 1 ++ [.bl .scheduleCore] ++ addCount (-1)
  | .preemptScheduleIrq =>
      [.checkPreemptible] ++ addCount 1 ++ [.irqEnable, .bl .scheduleCore, .irqDisable] ++
        addCount (-1)

/-- The two messages. -/
inductive Message
  /-- `"BUG: scheduling while atomic: %d, 0x%x\n"` -/
  | schedulingWhileAtomic (preemptCount : Int)
  /-- `"BUG: %s incorrect preempt count: 0x%x\n"` -/
  | incorrectPreemptCount (preemptCount : Int)
  deriving DecidableEq

/-- What a routine still has to run, and the value of the counter that it has read. -/
structure Routine where
  code : List Instr
  count : Int

/-- The processor and the tasks, as far as the control flow depends on them. -/
structure Cpu where
  /-- `PSTATE.I` -/
  masked : Bool
  current : U64
  /-- the kernel routines of a task, innermost first; a task without any is at EL0 -/
  stack : U64 → List Routine
  /-- the tasks there are -/
  born : U64 → Bool
  /-- the tasks that have run -/
  ran : U64 → Bool
  needResched : U64 → Bool
  preemptCount : U64 → Int
  messages : List Message

/-- What the model leaves open: whether a tick uses up the time slice, which task is picked,
whether `x19` is 0 or code comes to its end, and the page of a fork. -/
structure Choice where
  exhausted : Bool
  next : U64
  taken : Bool
  fork : Option U64
  deriving DecidableEq

/-- The next instruction, an interrupt, or a synchronous exception at EL0. -/
inductive CpuOp
  | exec (c : Choice)
  | irq
  | sync
  deriving DecidableEq

/-- Replace the routines of the running task. -/
def Cpu.setStack (st : List Routine) (s : Cpu) : Cpu :=
  { s with stack := Function.update s.stack s.current st }

/-- `do_fork`, as far as it succeeds: `p` starts in `ret_from_fork`, with a clear counter. -/
def Cpu.fork (p : U64) (s : Cpu) : Cpu :=
  { s with
    stack := Function.update s.stack p [⟨body .retFromFork, 0⟩]
    born := Function.update s.born p true
    ran := Function.update s.ran p false
    needResched := Function.update s.needResched p false
    preemptCount := Function.update s.preemptCount p 0 }

/-- One instruction `i` of the running task; `a` is the routine behind it. -/
def execInstr (c : Choice) (i : Instr) (a : Routine) (below : List Routine) (s : Cpu) :
    Option Cpu :=
  let count := s.preemptCount s.current
  let goto (code : List Instr) := s.setStack ({ a with code := code } :: below)
  match i with
  | .plain | .msrElr | .msrSpsr | .reload => some (goto a.code)
  | .kernelCode =>
      match c.fork with
      | some p => if s.born p then none else some (s.fork p)
      | none => some (if c.taken then s else goto a.code)
  | .archIrqHandler =>
      let resched := s.needResched s.current || c.exhausted
      some { goto a.code with needResched := Function.update s.needResched s.current resched }
  | .irqDisable => some { goto a.code with masked := true }
  | .irqEnable => some { goto a.code with masked := false }
  | .readCount => some (s.setStack ({ a with count := count } :: below))
  | .writeCount val =>
      some { goto a.code with
        preemptCount := Function.update s.preemptCount s.current (a.count + val) }
  | .scheduleDebug =>
      some { goto a.code with
        messages := if count = 1 then s.messages else s.messages ++ [.schedulingWhileAtomic count] }
  | .checkPreemptible =>
      some { goto a.code with
        messages := if count = 0 then s.messages else s.messages ++ [.incorrectPreemptCount count] }
  | .cbnzPreempt target => some (goto (if count = 0 then a.code else body target))
  | .cbzNeedResched target => some (goto (if s.needResched s.current then a.code else body target))
  | .cbnzNeedResched target => some (goto (if s.needResched s.current then body target else a.code))
  | .cbzX19 target => some (goto (if c.taken then body target else a.code))
  | .switchTo =>
      if s.born c.next then
        some { goto a.code with
          current := c.next
          ran := Function.update s.ran c.next true
          needResched := Function.update s.needResched s.current false }
      else none
  | .bl target => some (goto (body target ++ a.code))
  | .b target => some (goto (body target))
  | .eret => some { s.setStack below with masked := false }

/-- One step.  An exception masks interrupts; `eret` brings back the `PSTATE` of the
interrupted code, which had them unmasked. -/
def cpuStep : CpuOp → Cpu → Option Cpu
  | .exec c, s =>
      match s.stack s.current with
      | [] => some s
      | ⟨[], _⟩ :: _ => none
      | ⟨i :: rest, count⟩ :: below => execInstr c i ⟨rest, count⟩ below s
  | .irq, s =>
      if s.masked then none
      else
        match s.stack s.current with
        | [] => some { s.setStack [⟨body .el0Irq, 0⟩] with masked := true }
        | a :: below => some { s.setStack (⟨body .el1Irq, 0⟩ :: a :: below) with masked := true }
  | .sync, s =>
      match s.stack s.current with
      | [] => some { s.setStack [⟨body .el0Sync, 0⟩] with masked := true }
      | _ => none

/-- `init_task` in `start_kernel`, right after interrupts are enabled. -/
def Cpu.boot (initTask : U64) : Cpu where
  masked := false
  current := initTask
  stack _ := [⟨[.kernelCode], 0⟩]
  born t := t = initTask
  ran t := t = initTask
  needResched _ := false
  preemptCount _ := 0
  messages := []

/-- The instruction the running task executes next. -/
def Cpu.nextInstr (s : Cpu) : Option Instr := (s.stack s.current).head?.bind (·.code.head?)

/-- From the first write of `ELR` or `SPSR` to the `eret`. -/
def Instr.restoring : Instr → Bool
  | .msrElr | .msrSpsr | .reload | .eret => true
  | _ => false

/-- Interrupts are masked while `ELR` and `SPSR` are being restored. -/
def RestoresMasked (s : Cpu) : Prop :=
  ∀ i, s.nextInstr = some i → i.restoring = true → s.masked = true

/-- The test in `ret_to_user` finds `need_resched` clear. -/
def NoWorkPending : CpuOp → Cpu → Prop
  | .exec _, s => ∀ target, s.nextInstr = some (.cbnzNeedResched target) →
      s.needResched s.current = false
  | .irq, _ => True
  | .sync, _ => True

/-! ## A static check of the code -/

/-- Whether code entered with `PSTATE.I = m` restores with interrupts masked and switches tasks
with interrupts masked, as long as `cbnzNeedResched` falls through. -/
def restoresMasked : (fuel : Nat) → (m : Bool) → List Instr → Bool
  | 0, _, _ => false
  | _ + 1, _, [] => true
  | fuel + 1, m, i :: rest =>
      match i with
      | .plain | .kernelCode | .archIrqHandler | .readCount | .writeCount _ | .scheduleDebug
      | .checkPreemptible => restoresMasked fuel m rest
      | .irqDisable => restoresMasked fuel true rest
      | .irqEnable => restoresMasked fuel false rest
      | .cbnzPreempt target | .cbzNeedResched target | .cbzX19 target =>
          restoresMasked fuel m (body target) && restoresMasked fuel m rest
      | .cbnzNeedResched _ => restoresMasked fuel m rest
      | .bl target => restoresMasked fuel m (body target ++ rest)
      | .b target => restoresMasked fuel m (body target)
      | .switchTo | .msrElr | .msrSpsr | .reload => m && restoresMasked fuel true rest
      | .eret => m

/-- Code that passes the check. -/
def Passes (m : Bool) (code : List Instr) : Prop := ∃ fuel, restoresMasked fuel m code = true

/-- The four places where a routine begins. -/
theorem passes_entry {f : Sym} (hf : f = .el0Sync ∨ f = .el0Irq ∨ f = .el1Irq ∨ f = .retFromFork) :
    Passes true (body f) := by
  refine ⟨100, ?_⟩
  rcases hf with rfl | rfl | rfl | rfl
  all_goals decide

/-- The way through `need_sched` does not pass it. -/
example : restoresMasked 100 true (body .needSched) = false := by decide

end Arm64OS
