import Arm64OS.Kernel.Sched

/-!
# System calls

`arch/arm64/kernel/syscall.c`: the dispatch on the number in `x8` and the handlers, with
`ret_from_fork` of `entry.S` for what becomes of a cloned task.

`el0SvcHandler` reports, next to the kernel state, the indices at which `syscall_table`
was read.  What a read outside the table finds there is a parameter.
-/

namespace Arm64OS

/-- `__NR_syscalls`. -/
def nrSyscalls : Int := 6

/-- `__NR_clone`. -/
def nrClone : Int := 4

/-- The conversion of an `unsigned long` argument to a parameter of type `int`. -/
def toInt (x : U64) : Int := (x.setWidth 32).toInt

/-- `syscall_fn_t`: the frame it is given is the one of the task that made the call. -/
abbrev SyscallFn := Kernel → U64 × Kernel

/-- `__arm64_sys_open`, `__arm64_sys_close`, `__arm64_sys_read` and `__arm64_sys_write`. -/
def sysUnimplemented : SyscallFn := fun k => (-1, k)

/-- `__arm64_sys_clone`. -/
def sysClone (img : Image) (current : U64) : SyscallFn := fun k =>
  let regs := (k.ptRegs (taskPtRegs current)).regs
  let (pid, k) := doFork img current (regs 0) (regs 1) (regs 2) k
  (BitVec.ofInt 64 pid, k)

/-- `__arm64_sys_malloc`. -/
def sysMalloc : SyscallFn := fun k =>
  let (addr, memMap) := getFreePage k.memMap
  let k := { k with memMap := memMap }
  if addr = 0#64 then (-1, k) else (addr, k)

/-- `syscall_table`, and the words around it. -/
def syscallTable (img : Image) (outside : Int → SyscallFn) (current : U64) (i : Int) : SyscallFn :=
  if i = 0 ∨ i = 1 ∨ i = 2 ∨ i = 3 then sysUnimplemented
  else if i = nrClone then sysClone img current
  else if i = 5 then sysMalloc
  else outside i

/-- `sys_ni_syscall`. -/
def sysNiSyscall : U64 := -1

/-- `regs->regs[0] = ret`. -/
def storeX0 (current ret : U64) (k : Kernel) : Kernel :=
  let frame := k.ptRegs (taskPtRegs current)
  k.storePtRegs current { frame with regs := Function.update frame.regs 0 ret }

/-- `invoke_syscall`: the table reads and the state after it. -/
def invokeSyscall (current : U64) (syscallNo syscallNr : Int) (table : Int → SyscallFn)
    (k : Kernel) : List Int × Kernel :=
  if syscallNo < syscallNr then
    let (ret, k) := table syscallNo k
    ([syscallNo], storeX0 current ret k)
  else
    ([], storeX0 current sysNiSyscall k)

/-- The two stores of `el0_syscall_common`. -/
def storeSyscallNo (current : U64) (syscallNo : Int) (k : Kernel) : Kernel :=
  let frame := k.ptRegs (taskPtRegs current)
  k.storePtRegs current
    { frame with origX0 := frame.regs 0, syscallno := BitVec.ofInt 32 syscallNo }

/-- `el0_syscall_common`. -/
def el0SyscallCommon (current : U64) (syscallNo syscallNr : Int) (table : Int → SyscallFn)
    (k : Kernel) : List Int × Kernel :=
  invokeSyscall current syscallNo syscallNr table (storeSyscallNo current syscallNo k)

/-- The number that the frame of `current` requests. -/
def requestedNo (current : U64) (k : Kernel) : Int := toInt ((k.ptRegs (taskPtRegs current)).regs 8)

/-- `el0_svc_handler`. -/
def el0SvcHandler (img : Image) (outside : Int → SyscallFn) (current : U64) (k : Kernel) :
    List Int × Kernel :=
  el0SyscallCommon current (requestedNo current k) nrSyscalls
    (syscallTable img outside current) k

/-! ## The range of the table -/

/-- A number in the range of the table is served by its own handler and by no other read of
the table; every other number is answered with -1 in `regs[0]` and without any read. -/
def ServesInRange (img : Image) (outside : Int → SyscallFn) (current : U64) (k : Kernel) : Prop :=
  let no := requestedNo current k
  let (reads, k') := el0SvcHandler img outside current k
  if 0 ≤ no ∧ no < nrSyscalls then
    reads = [no] ∧
      k' = storeX0 current (syscallTable img outside current no (storeSyscallNo current no k)).1
        (syscallTable img outside current no (storeSyscallNo current no k)).2
  else
    reads = [] ∧ (k'.ptRegs (taskPtRegs current)).regs 0 = -1

/-- The sign of the number is bit 31 of the register. -/
theorem toInt_nonneg_iff (x : U64) : 0 ≤ toInt x ↔ x.getLsbD 31 = false := by
  have hmsb : (x.setWidth 32).msb = x.getLsbD 31 := by
    simp [BitVec.msb_eq_getLsbD_last]
  have hsign := BitVec.msb_eq_toInt (x := x.setWidth 32)
  rw [hmsb] at hsign
  rw [toInt, hsign]
  simp

theorem servesInRange_iff_nonneg (img : Image) (outside : Int → SyscallFn) (current : U64)
    (k : Kernel) : ServesInRange img outside current k ↔ 0 ≤ requestedNo current k := by
  obtain ⟨no, hno⟩ : ∃ no, requestedNo current k = no := ⟨_, rfl⟩
  unfold ServesInRange el0SvcHandler el0SyscallCommon invokeSyscall
  rw [hno]
  -- The source compares with the upper end only.
  by_cases hlow : 0 ≤ no
  · by_cases hhigh : no < nrSyscalls
    · simp [hlow, hhigh]
    · simp [hlow, hhigh, storeX0, Kernel.storePtRegs, sysNiSyscall]
  · have hhigh : no < nrSyscalls := by
      have hnr : nrSyscalls = 6 := rfl
      omega
    simp [hlow, hhigh]

/-- **The dispatch is right exactly for numbers with bit 31 clear**: those that are not
negative as an `int`. -/
theorem servesInRange_iff (img : Image) (outside : Int → SyscallFn) (current : U64) (k : Kernel) :
    ServesInRange img outside current k ↔
      ((k.ptRegs (taskPtRegs current)).regs 8).getLsbD 31 = false :=
  (servesInRange_iff_nonneg img outside current k).trans (toInt_nonneg_iff _)

/-- A call with all ones in the low half of `x8` reads the word before the table. -/
theorem reads_before_table :
    ¬ ServesInRange Image.sample (fun _ k => (0, k)) Image.sample.initTask
      (Kernel.blank.storePtRegs Image.sample.initTask
        { PtRegs.zero with regs := Function.update PtRegs.zero.regs 8 0xffffffff }) := by
  rw [servesInRange_iff_nonneg]
  have hno : requestedNo Image.sample.initTask
      (Kernel.blank.storePtRegs Image.sample.initTask
        { PtRegs.zero with regs := Function.update PtRegs.zero.regs 8 0xffffffff }) = -1 := by
    simp only [requestedNo, Kernel.storePtRegs, Function.update_self]
    decide
  rw [hno]
  decide

/-! ## The privilege of a cloned task -/

/-- How a new task leaves the text of the kernel. -/
inductive Departure
  /-- `blr x19` at EL1, with `x20` in `x0` -/
  | branch (x19 x0 : U64)
  /-- `eret` to the saved `pc` with the saved `pstate` -/
  | eret (pc pstate : U64)
  deriving DecidableEq

/-- `ret_from_fork`, with the registers that `cpu_switch_to` loads from the context of the
new task.  `schedule_tail` and `ret_to_user` change neither of them nor the frame. -/
def retFromFork (cpuContext : CpuContext) (frame : PtRegs) : Departure :=
  if cpuContext.x19 = 0#64 then .eret frame.pc frame.pstate
  else .branch cpuContext.x19 cpuContext.x20

/-- Whether a saved `pstate` returns to EL0. -/
def ToEL0 (pstate : U64) : Prop := pstate &&& psrModeMask = psrModeEL0t

/-- If the clone call of `current` makes a new task, that task leaves the kernel by an `eret`
to EL0. -/
def ChildAtEL0 (img : Image) (current : U64) (k : Kernel) : Prop :=
  let (pid, k') := sysClone img current k
  0 ≤ pid.toInt →
    let p := k'.gTask pid.toInt.toNat
    ∃ pc pstate, retFromFork (k'.task p).cpuContext (k'.ptRegs (taskPtRegs p)) = .eret pc pstate ∧
      ToEL0 pstate

/-- A process number survives its way through the `long` that a handler returns. -/
theorem toInt_ofInt_pid {pid : Nat} (hpid : pid < nrTasks) :
    (BitVec.ofInt 64 (pid : Int)).toInt = pid := by
  have hmax : nrTasks = 128 := rfl
  rw [BitVec.toInt_ofInt, Int.bmod_def]
  omega

/-- The new task of a clone call leaves at EL0 unless the call asked for a kernel thread. -/
theorem childAtEL0_of_forked {img : Image} {current : U64} {k k' : Kernel} {j pid : Nat}
    {regs : Fin 31 → U64} (hpid : pid < nrTasks) (hregs : (k.ptRegs (taskPtRegs current)).regs = regs)
    (hel0 : ToEL0 (k.ptRegs (taskPtRegs current)).pstate)
    (hfork : doFork img current (regs 0) (regs 1) (regs 2) k = ((pid : Int), k'))
    (hforked : Forked img current (regs 0) (regs 1) (regs 2) (pageAddr j) pid k k') :
    ChildAtEL0 img current k ↔ regs 0 &&& pfKthread = 0#64 := by
  have hchild : k'.gTask pid = pageAddr j := by simp [hforked.gTask]
  have hpos : (0 : Int) ≤ pid := by omega
  simp only [ChildAtEL0, sysClone, hregs, hfork, toInt_ofInt_pid hpid, hpos, true_implies,
    Int.toNat_natCast, hchild, hforked.child, hforked.childRegs]
  by_cases hkthread : regs 0 &&& pfKthread = 0#64
  · simp [hkthread, retFromFork, childContext, childFrame, CpuContext.zero, hel0]
  · constructor
    · -- without a function to branch to, the child returns with the pstate of a kernel thread
      rintro ⟨pc, pstate, hdepart, hmode⟩
      exfalso
      by_cases hstack : regs 1 = 0#64
      · obtain ⟨-, rfl⟩ : PtRegs.zero.pc = pc ∧ psrModeEL1h = pstate := by
          simpa [retFromFork, childContext, childFrame, hkthread, hstack] using hdepart
        exact absurd hmode (by unfold ToEL0; decide)
      · simp [retFromFork, childContext, hkthread, hstack] at hdepart
    · intro hflag
      exact absurd hflag hkthread

/-- **Which clone calls are safe.**  A call from EL0 by a task whose own page is handed out
gives its new task, if there is one, only EL0 if and only if the flags in `x0` leave
`PF_KTHREAD` clear, or there is no free page or no free slot for a new task. -/
theorem childAtEL0_iff {img : Image} {current : U64} {k : Kernel}
    (hcurrent : ∀ j, j < nrPages → k.memMap j = 0#8 → current ≠ pageAddr j)
    (hel0 : ToEL0 (k.ptRegs (taskPtRegs current)).pstate) :
    ChildAtEL0 img current k ↔
      (k.ptRegs (taskPtRegs current)).regs 0 &&& pfKthread = 0#64 ∨
      (∀ j, j < nrPages → k.memMap j ≠ 0#8) ∨ (∀ m, m < nrTasks → k.gTask m ≠ 0#64) := by
  obtain ⟨regs, hregs⟩ : ∃ regs, (k.ptRegs (taskPtRegs current)).regs = regs := ⟨_, rfl⟩
  rw [hregs]
  rcases doFork_cases img (regs 0) (regs 1) (regs 2) k hcurrent with
    ⟨k', hfork, -, -, hwhy⟩ | ⟨j, pid, k', hj, hfree, hpid, hslot, -, -, hfork, -, hforked⟩
  · have hvacuous : ChildAtEL0 img current k := by
      simp only [ChildAtEL0, sysClone, hregs, hfork]
      intro hpos
      exact absurd hpos (by decide)
    refine ⟨fun _ => ?_, fun _ => hvacuous⟩
    rcases hwhy with hpages | hslots | hrefused
    · exact Or.inr (Or.inl hpages)
    · exact Or.inr (Or.inr hslots)
    · exact Or.inl hrefused.1
  · rw [childAtEL0_of_forked hpid hregs hel0 hfork hforked]
    constructor
    · intro hflag
      exact Or.inl hflag
    · rintro (hflag | hpages | hslots)
      · exact hflag
      · exact absurd hfree (hpages j hj)
      · exact absurd hslot (hslots pid hpid)

/-- One user task, on the first page of the allocator, that calls clone with the given
registers. -/
def Kernel.userClone (x0 x1 x2 : U64) : Kernel :=
  Kernel.storePtRegs (pageAddr 0) { PtRegs.zero with regs := ![x0, x1, x2, 0, 0, 0, 0, 0, 4, 0, 0,
      0, 0, 0, 0, 0, 0, 0, 0, 0, 0, 0, 0, 0, 0, 0, 0, 0, 0, 0, 0] }
    { Kernel.blank with
      memMap := Function.update Kernel.blank.memMap 0 1#8
      gTask := fun i => if i = 0 then Image.sample.initTask else if i = 1 then pageAddr 0 else 0 }

theorem Kernel.userClone_regs (x0 x1 x2 : U64) :
    ((Kernel.userClone x0 x1 x2).ptRegs (taskPtRegs (pageAddr 0))).regs 0 = x0 ∧
    ((Kernel.userClone x0 x1 x2).ptRegs (taskPtRegs (pageAddr 0))).regs 1 = x1 ∧
    ((Kernel.userClone x0 x1 x2).ptRegs (taskPtRegs (pageAddr 0))).regs 2 = x2 ∧
    ToEL0 ((Kernel.userClone x0 x1 x2).ptRegs (taskPtRegs (pageAddr 0))).pstate := by
  simp [Kernel.userClone, Kernel.storePtRegs, ToEL0, PtRegs.zero, psrModeEL0t]

theorem Kernel.userClone_page (x0 x1 x2 : U64) {j : Nat} (hj : j < nrPages)
    (hfree : (Kernel.userClone x0 x1 x2).memMap j = 0#8) : pageAddr 0 ≠ pageAddr j := by
  intro he
  obtain rfl : 0 = j := pageAddr_inj (by decide) hj he
  exact absurd hfree (by simp [Kernel.userClone, Kernel.storePtRegs])

theorem childAtEL0_iff_userClone :
    ChildAtEL0 Image.sample (pageAddr 0) (Kernel.userClone 0 0 0) := by
  refine (childAtEL0_iff (fun j hj hfree => Kernel.userClone_page 0 0 0 hj hfree)
    (Kernel.userClone_regs 0 0 0).2.2.2).2 (Or.inl ?_)
  rw [(Kernel.userClone_regs 0 0 0).1]
  decide

/-- With `PF_KTHREAD` among its flags the call of a user task makes a task that branches at
EL1 to the address in the caller's `x1`. -/
theorem clone_branches_at_EL1 :
    ToEL0 ((Kernel.userClone pfKthread 0x84000 0).ptRegs (taskPtRegs (pageAddr 0))).pstate ∧
      ¬ ChildAtEL0 Image.sample (pageAddr 0) (Kernel.userClone pfKthread 0x84000 0) := by
  obtain ⟨k, hk⟩ : ∃ k, Kernel.userClone pfKthread 0x84000 0 = k := ⟨_, rfl⟩
  obtain ⟨hx0, -, -, hel0⟩ := Kernel.userClone_regs pfKthread 0x84000 0
  have hpage := fun j => Kernel.userClone_page pfKthread 0x84000 0 (j := j)
  have hmap : k.memMap 1 = 0#8 := by simp [← hk, Kernel.userClone, Kernel.storePtRegs, Kernel.blank]
  have hslot : k.gTask 2 = 0#64 := by simp [← hk, Kernel.userClone, Kernel.storePtRegs]
  rw [hk] at hx0 hel0 hpage ⊢
  refine ⟨hel0, ?_⟩
  obtain ⟨regs, hregs⟩ : ∃ regs, (k.ptRegs (taskPtRegs (pageAddr 0))).regs = regs := ⟨_, rfl⟩
  rw [hregs] at hx0
  have hkthread : ¬ regs 0 &&& pfKthread = 0#64 := by
    rw [hx0]
    decide
  rcases doFork_cases Image.sample (regs 0) (regs 1) (regs 2) k (fun j hj hfree => hpage j hj hfree)
    with ⟨-, -, -, -, hwhy⟩ | ⟨j, pid, k', -, -, hpid, -, -, -, hfork, -, hforked⟩
  · rcases hwhy with hpages | hslots | hrefused
    · exact absurd hmap (hpages 1 (by decide))
    · exact absurd hslot (hslots 2 (by decide))
    · exact absurd hrefused.1 hkthread
  · rw [childAtEL0_of_forked hpid hregs hel0 hfork hforked]
    exact hkthread

end Arm64OS
