import Arm64OS.Arch.EntryEl1

/-!
# Nested interrupts and task switches at EL1

Every task has a page with its `task_struct` at the bottom and its stack above.  A state
records, next to the processor, on whose stack it is, which interruptions and calls of C
functions are open on every stack, and the contexts of the tasks that are switched out.

The entry code runs instruction by instruction.  C code is any code that obeys the AAPCS64,
keeps to its stack and treats the interrupt mask as the source of its function does; at the
bottom of a stack there may be any code whatever.
-/

namespace Arm64OS

open A64 ByteMem

/-- The statements of C code that concern the interrupt mask and the stack. -/
inductive CStmt
  /-- `raw_local_irq_enable` -/
  | irqEnable
  /-- `raw_local_irq_disable` -/
  | irqDisable
  | switchTo
  deriving DecidableEq

/-- The C functions that `el1_irq` calls. -/
inductive CFunction
  | irqHandler
  | preemptScheduleIrq

def CFunction.label : CFunction → Label
  | .irqHandler => .irqHandler
  | .preemptScheduleIrq => .preemptScheduleIrq

/-- What a function executes of these statements, with `__schedule` and `schedule_tail` written
out in `preempt_schedule_irq`. -/
def CFunction.stmts : CFunction → List CStmt
  | .irqHandler => []
  | .preemptScheduleIrq => [.irqEnable, .irqDisable, .switchTo, .irqEnable, .irqDisable]

/-- What is open on a stack. -/
inductive Activation
  /-- an interruption, and what it found -/
  | irq (found : Context)
  /-- a C function that the entry code called in the state `entry`, and what it has yet to do -/
  | call (entry : State) (todo : List CStmt)

/-- What the processor executes. -/
inductive Mode
  /-- C code, or the code at the bottom of the stack -/
  | code
  /-- `el1_irq` or `el1_preempt` -/
  | entry
  /-- `cpu_switch_to` -/
  | switching (next : Word)

structure NestState where
  cpu : State
  mode : Mode
  /-- the task whose stack is in use -/
  current : Word
  /-- the open activations of each task, the innermost one first -/
  activations : Word → List Activation
  /-- the contexts of the tasks that are switched out -/
  away : Word → Option CpuContext

/-- The size of a `task_struct`. -/
def taskSize : Nat := 168

/-- The lowest address of the stack of `t` that belongs to an activation. -/
def lowest (t : Word) : List Activation → Nat
  | [] => t.toNat + 4096
  | .irq found :: _ => (found.sp - sFrameSize).toNat
  | .call entry _ :: _ => entry.sp.toNat

/-- Code writes neither above its entry stack pointer nor to the stacks and the contexts of
other tasks. -/
structure KeepsStacks (m : NestState) (mem : Mem) : Prop where
  own : SameOn (lowest m.current (m.activations m.current)) (m.current.toNat + 4096) m.cpu.mem mem
  contexts : ∀ u c, m.away u = some c → SameOn (u.toNat + 16) (u.toNat + 120) m.cpu.mem mem
  others : ∀ u c, m.away u = some c → SameOn c.sp.toNat (u.toNat + 4096) m.cpu.mem mem

/-- Code between two of its statements: anything may happen to the registers, but the stack
pointer stays on the stack, and C functions leave the mask alone. -/
structure Works (m : NestState) (s : State) : Prop extends KeepsStacks m s.mem where
  low : m.current.toNat + taskSize ≤ s.sp.toNat
  high : s.sp.toNat ≤ lowest m.current (m.activations m.current)
  mask : m.activations m.current ≠ [] → s.masked = m.cpu.masked

/-- What is open behind a `switch_to`, which a C function does where its statements say so.
Code at the bottom of a stack may get there at any time, by `schedule`. -/
def behindSwitch : List Activation → Option (List Activation)
  | [] => some []
  | .call entry (.switchTo :: todo) :: rest => some (.call entry todo :: rest)
  | _ => none

def NestState.setActivations (acts : List Activation) (m : NestState) : NestState :=
  { m with activations := Function.update m.activations m.current acts }

/-- An interrupt has been taken. -/
def NestState.interrupted (img : EntryImage) (m : NestState) : NestState :=
  { m.setActivations (.irq (kernelContext m.cpu) :: m.activations m.current) with
    cpu := m.cpu.takeException (img.text.addr .el1Irq)
    mode := .entry }

inductive NestStep (img : EntryImage) (m : NestState) : NestState → Prop
  /-- An interrupt, where the stack has room for a frame. -/
  | irq (hmask : m.cpu.masked = false)
      (hroom : m.current.toNat + taskSize + 320 ≤ m.cpu.sp.toNat) :
      NestStep img m (m.interrupted img)
  /-- An instruction of the entry code that does not leave it. -/
  | instr {s : State} (hmode : m.mode ≠ .code) (hstays : img.text.Stays m.cpu)
      (hstep : img.text.step m.cpu = some s) : NestStep img m { m with cpu := s }
  /-- The entry code has called a C function. -/
  | call (f : CFunction) (hmode : m.mode = .entry) (hpc : m.cpu.pc = img.text.addr f.label) :
      NestStep img m
        { m.setActivations (.call m.cpu f.stmts :: m.activations m.current) with mode := .code }
  /-- The end of an interruption. -/
  | eret {found : Context} {rest : List Activation} {s : State} (hmode : m.mode = .entry)
      (hfetch : img.text.fetch m.cpu.pc = some .eret)
      (hacts : m.activations m.current = .irq found :: rest)
      (hstep : img.text.step m.cpu = some s) :
      NestStep img m { m.setActivations rest with cpu := s, mode := .code }
  | work {s : State} (hmode : m.mode = .code) (hworks : Works m s) :
      NestStep img m { m with cpu := s }
  | irqEnable {entry : State} {todo : List CStmt} {rest : List Activation} (hmode : m.mode = .code)
      (hacts : m.activations m.current = .call entry (.irqEnable :: todo) :: rest) :
      NestStep img m
        { m.setActivations (.call entry todo :: rest) with
          cpu := { m.cpu with pstate := m.cpu.pstate &&& ~~~irqMask }
          mode := .code }
  | irqDisable {entry : State} {todo : List CStmt} {rest : List Activation} (hmode : m.mode = .code)
      (hacts : m.activations m.current = .call entry (.irqDisable :: todo) :: rest) :
      NestStep img m
        { m.setActivations (.call entry todo :: rest) with
          cpu := { m.cpu with pstate := m.cpu.pstate ||| irqMask }
          mode := .code }
  /-- `switch_to` with the task that runs anyway. -/
  | stay {acts : List Activation} (hmode : m.mode = .code)
      (hacts : behindSwitch (m.activations m.current) = some acts) :
      NestStep img m { m.setActivations acts with mode := .code }
  /-- The call of `cpu_switch_to` with a task that is switched out. -/
  | switchTo {next : Word} {acts : List Activation} (hmode : m.mode = .code)
      (hmask : m.cpu.masked = true)
      (hacts : behindSwitch (m.activations m.current) = some acts)
      (hprev : m.cpu.x 0 = m.current) (hnext : m.cpu.x 1 = next) (hne : next ≠ m.current)
      (haway : (m.away next).isSome) :
      NestStep img m
        { m.setActivations acts with
          cpu := m.cpu.setPc (img.text.addr .cpuSwitchTo)
          mode := .switching next
          away := Function.update m.away m.current (some (cpuContextOf m.cpu)) }
  /-- The return of `cpu_switch_to`, on the stack of the next task. -/
  | switched {next : Word} {s : State} (hmode : m.mode = .switching next)
      (hfetch : img.text.fetch m.cpu.pc = some (.ret lr)) (hstep : img.text.step m.cpu = some s) :
      NestStep img m
        { m with
          cpu := s
          mode := .code
          current := next
          away := Function.update m.away next none }
  /-- The return of a C function to the entry code. -/
  | returns {entry s : State} {rest : List Activation} (hmode : m.mode = .code)
      (hacts : m.activations m.current = .call entry [] :: rest) (habi : Aapcs64 entry s)
      (hkeeps : KeepsStacks m s.mem) (hmask : s.masked = m.cpu.masked) :
      NestStep img m { m.setActivations rest with cpu := s, mode := .entry }
  /-- A fork: a task on a page of its own, with the context that `copy_thread` gave it. -/
  | fork {p : Word} {c : CpuContext} {s : State} (hmode : m.mode = .code) (hworks : Works m s)
      (haligned : p.toNat % 4096 = 0) (hne : p ≠ m.current) (hfresh : m.away p = none)
      (hcontext : Cells s.mem (p + threadCpuContext) c.words)
      (hlow : p.toNat + taskSize ≤ c.sp.toNat) (hhigh : c.sp.toNat ≤ p.toNat + 4096) :
      NestStep img m
        { m with
          cpu := s
          activations := Function.update m.activations p []
          away := Function.update m.away p (some c) }

/-- The runs of the machine. -/
abbrev NestRun (img : EntryImage) : NestState → NestState → Prop :=
  Relation.ReflTransGen (NestStep img)

/-- One task on its stack, in any state of the processor. -/
structure NestState.Initial (m : NestState) : Prop where
  mode : m.mode = .code
  aligned : m.current.toNat % 4096 = 0
  low : m.current.toNat + taskSize ≤ m.cpu.sp.toNat
  high : m.cpu.sp.toNat ≤ m.current.toNat + 4096
  activations : m.activations m.current = []
  away : ∀ u, m.away u = none

end Arm64OS
