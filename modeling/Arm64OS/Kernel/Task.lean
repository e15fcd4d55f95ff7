import Arm64OS.Kernel.List
import Arm64OS.Lib.A64
import Arm64OS.Mm.PageAlloc

/-!
# Tasks and the kernel's data

`include/sched.h`, `asm/processor.h` and `asm/system.h`: the process control block, the
exception frame at the top of its page, and the global tables of `kernel/fork.c` and
`kernel/sched.c`.

Memory is kept one field group at a time: the scalar fields of every `task_struct`,
the run-list links, the `next_task`/`prev_task` links and the exception frames are
separate maps from addresses.
-/

namespace Arm64OS

def nrTasks : Nat := 128

/-- `HZ`. -/
def hz : Int := 250

/-- `DEF_COUNTER`: a 100 ms time slice in ticks. -/
def defCounter : Int := hz / 10

/-- `HARDIRQ_OFFSET`. -/
def hardirqOffset : Int := 1 <<< 8

/-- `PF_KTHREAD`. -/
def pfKthread : U64 := 1 <<< 0

def psrModeEL0t : U64 := 0x00000000

def psrModeEL1h : U64 := 0x00000005

def psrModeMask : U64 := 0x0000000f

/-- `enum task_state`; `TASK_RUNNING` is 0. -/
inductive TaskState
  | running
  | interruptible
  | uninterruptible
  | zombie
  | stopped
  deriving DecidableEq

/-- `struct cpu_context`. -/
structure CpuContext where
  x19 : U64
  x20 : U64
  x21 : U64
  x22 : U64
  x23 : U64
  x24 : U64
  x25 : U64
  x26 : U64
  x27 : U64
  x28 : U64
  fp : U64
  sp : U64
  pc : U64
  deriving DecidableEq

def CpuContext.zero : CpuContext := ⟨0, 0, 0, 0, 0, 0, 0, 0, 0, 0, 0, 0, 0⟩

/-- `struct pt_regs`. -/
structure PtRegs where
  regs : Fin 31 → U64
  sp : U64
  pc : U64
  pstate : U64
  origX0 : U64
  syscallno : BitVec 32

def PtRegs.zero : PtRegs := ⟨fun _ => 0, 0, 0, 0, 0, 0⟩

/-- `sizeof(struct pt_regs)`, `S_FRAME_SIZE` in the entry code. -/
def sizeofPtRegs : U64 := 320

/-- The scalar fields of `struct task_struct`. -/
structure TaskStruct where
  state : TaskState
  pid : Int
  cpuContext : CpuContext
  counter : Int
  priority : Int
  needResched : Int
  preemptCount : Int

def TaskStruct.zero : TaskStruct := ⟨.running, 0, CpuContext.zero, 0, 0, 0, 0⟩

/-- The addresses the linker gives to the kernel's own objects.  The script starts the
image at 0x80000 and the allocator hands out pages from `LOW_MEMORY` on; the image ends
below that. -/
structure Image where
  /-- `&init_task_union.task` -/
  initTask : U64
  /-- `&g_ready_queue.rq_head` -/
  rqHead : U64
  /-- `ret_from_fork` -/
  retFromFork : U64
  initTask_ne_zero : initTask ≠ 0#64
  initTask_below : initTask.toNat + 4096 ≤ lowMemory.toNat
  rqHead_below : rqHead.toNat < lowMemory.toNat
  rqHead_outside : rqHead ≠ initTask + 120

/-- The memory of the kernel that forking and scheduling read and write. -/
structure Kernel where
  memMap : PageMap
  /-- `g_task` -/
  gTask : Nat → U64
  totalForks : U64
  task : U64 → TaskStruct
  ptRegs : U64 → PtRegs
  /-- `g_ready_queue.rq_head` and the `run_list` of every task -/
  runList : ListHeap
  /-- the `next_task` and `prev_task` of every task -/
  ring : ListHeap
  nrRunning : BitVec 32
  nrSwitches : U64
  /-- `g_ready_queue.curr` -/
  curr : U64

/-- `&p->run_list`, at offset 120 of the structure. -/
def runListOf (p : U64) : U64 := p + 120

/-- `list_entry(ptr, struct task_struct, run_list)`. -/
def listEntry (ptr : U64) : U64 := ptr - 120

@[simp] theorem listEntry_runListOf (p : U64) : listEntry (runListOf p) = p :=
  BitVec.add_sub_cancel p 120

theorem runListOf_inj {p q : U64} (h : runListOf p = runListOf q) : p = q := by
  rw [← listEntry_runListOf p, h, listEntry_runListOf]

/-- `task_pt_regs`: the frame at the top of the task's page. -/
def taskPtRegs (tsk : U64) : U64 := tsk + threadSize - sizeofPtRegs

theorem taskPtRegs_inj {p q : U64} (h : taskPtRegs p = taskPtRegs q) : p = q := by
  simpa [taskPtRegs, sub_eq_add_neg] using h

namespace Kernel

/-- Change the scalar fields of one task. -/
def updTask (p : U64) (f : TaskStruct → TaskStruct) (k : Kernel) : Kernel :=
  { k with task := Function.update k.task p (f (k.task p)) }

/-- Overwrite the exception frame of one task. -/
def storePtRegs (p : U64) (frame : PtRegs) (k : Kernel) : Kernel :=
  { k with ptRegs := Function.update k.ptRegs (taskPtRegs p) frame }

/-- `memset(p, 0, sizeof(*p))`. -/
def memsetTask (p : U64) (k : Kernel) : Kernel :=
  { k with
    task := Function.update k.task p TaskStruct.zero
    runList := Function.update k.runList (runListOf p) ⟨0, 0⟩
    ring := Function.update k.ring p ⟨0, 0⟩ }

/-- `INIT_TASK`. -/
def initTaskStruct : TaskStruct := ⟨.running, 0, CpuContext.zero, defCounter, 20, 0, 0⟩

end Kernel

/-- `sched_init`. -/
def schedInit (img : Image) (k : Kernel) : Kernel :=
  { k with
    runList := initListHead img.rqHead k.runList
    nrRunning := 0
    nrSwitches := 0
    curr := 0 }

/-- The state `start_kernel` reaches with `sched_init`: the statically initialised objects
of `fork.c` and the empty run queue.  `k` is whatever the rest of memory holds. -/
def Kernel.boot (img : Image) (k : Kernel) : Kernel :=
  schedInit img
    { k with
      gTask := fun i => if i = 0 then img.initTask else 0#64
      totalForks := 0
      task := Function.update k.task img.initTask Kernel.initTaskStruct
      ring := Function.update k.ring img.initTask ⟨img.initTask, img.initTask⟩ }

/-- An image laid out as the linker script does it, from 0x80000 on. -/
def Image.sample : Image where
  initTask := 0x90000
  rqHead := 0x92000
  retFromFork := 0x81000
  initTask_ne_zero := by decide
  initTask_below := by decide
  rqHead_below := by decide
  rqHead_outside := by decide

/-- Memory full of zeros. -/
def Kernel.blank : Kernel :=
  ⟨fun _ => 0, fun _ => 0, 0, fun _ => TaskStruct.zero, fun _ => PtRegs.zero, fun _ => ⟨0, 0⟩,
    fun _ => ⟨0, 0⟩, 0, 0, 0⟩

/-! ## Addresses of tasks and of their links -/

theorem pageAddr_ne_initTask (img : Image) {i : Nat} (hi : i < nrPages) :
    pageAddr i ≠ img.initTask := by
  intro h
  have hbelow := img.initTask_below
  rw [← h, pageAddr_toNat hi, lowMemory_toNat] at hbelow
  omega

theorem runListOf_pageAddr_ne_rqHead (img : Image) {i : Nat} (hi : i < nrPages) :
    runListOf (pageAddr i) ≠ img.rqHead := by
  intro h
  have hbelow := img.rqHead_below
  have haddr := pageAddr_toNat hi
  rw [nrPages_eq] at hi
  rw [← h, runListOf, BitVec.toNat_add, haddr, lowMemory_toNat] at hbelow
  have h120 : (120 : U64).toNat = 120 := rfl
  omega

end Arm64OS
