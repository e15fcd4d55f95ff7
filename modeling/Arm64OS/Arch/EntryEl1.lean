import Arm64OS.Arch.EntrySvc

/-!
# Interrupts at EL1 and `cpu_switch_to`

What the pieces of `el1_irq`, `el1_preempt` and `cpu_switch_to` between two C functions do.
-/

namespace Arm64OS

open A64 ByteMem

/-! ## `el1_irq` -/

/-- What an interrupt finds: the registers that its return has to bring back. -/
def kernelContext (s : State) : Context where
  x := s.x
  sp := s.sp
  pc := s.pc
  pstate := s.pstate

theorem savedContext_takeException (handler : Word) (s : State) :
    savedContext 1 (s.takeException handler) = kernelContext s := rfl

/-- From the exception to the call of `irq_handler`. -/
theorem EntryImage.leads_irqHandler (img : EntryImage) (s : State) :
    ∃ u, img.text.Leads (s.takeException (img.text.addr .el1Irq)) u ∧
      u.pc = img.text.addr .irqHandler ∧ u.sp = s.sp - sFrameSize ∧ u.x lr = img.text.at 73 ∧
      u.mem = storeCells (s.sp - sFrameSize) 0 (kernelContext s).words s.mem := by
  have hblock : img.text.CodeAt 51 el1IrqBlock := img.codeAt (i := 3) rfl
  obtain ⟨x, -, hsaved⟩ := img.leads_contextSave 1
    (s := s.takeException (img.text.addr .el1Irq)) hblock.append.1 rfl
  rw [savedContext_takeException, sp_takeException, mem_takeException] at hsaved
  obtain ⟨t, ht, hsp, hpc, hmem⟩ : ∃ t,
      img.text.Leads (s.takeException (img.text.addr .el1Irq)) t ∧ t.sp = s.sp - sFrameSize ∧
      t.pc = img.text.at 72 ∧
      t.mem = storeCells (s.sp - sFrameSize) 0 (kernelContext s).words s.mem :=
    ⟨_, hsaved, rfl, rfl, rfl⟩
  have hcalled := img.text.leads_one img.fits hblock.append.2 rfl hpc
  refine ⟨_, ht.trans hcalled, rfl, hsp, ?_, hmem⟩
  show Function.update t.x lr (t.pc + 4) lr = _
  rw [Function.update_self, hpc, ← Program.at_succ]

/-- A way that keeps the stack pointer and the memory. -/
def EntryImage.Passes (img : EntryImage) (s u : State) : Prop :=
  img.text.Leads s u ∧ u.sp = s.sp ∧ u.mem = s.mem

theorem EntryImage.Passes.trans {img : EntryImage} {s t u : State} (h : img.Passes s t)
    (h' : img.Passes t u) : img.Passes s u :=
  ⟨h.1.trans h'.1, h'.2.1.trans h.2.1, h'.2.2.trans h.2.2⟩

theorem EntryImage.passes_loadTsk (img : EntryImage) {k : Nat} {s : State}
    (hcode : img.text.CodeAt k loadTsk) (hpc : s.pc = img.text.at k) :
    ∃ u, img.Passes s u ∧ u.pc = img.text.at (k + 5) ∧ u.x tsk = taskOfSp s.sp := by
  obtain ⟨x, -, htsk, hleads⟩ := img.leads_loadTsk hcode hpc
  exact ⟨_, ⟨hleads, rfl, rfl⟩, rfl, htsk⟩

/-- The low half of `t` is the word at `n + v`. -/
theorem EntryImage.passes_ldrW (img : EntryImage) {k : Nat} {s : State} {t n : Reg} {v : Word}
    {is : List (A64.Instr Label)} (hcode : img.text.CodeAt k (.ldrW t (.x n) v :: is))
    (hpc : s.pc = img.text.at k) :
    ∃ u, img.Passes s u ∧ u.pc = img.text.at (k + 1) ∧
      (u.x t).setWidth 32 = load s.mem (s.x n + v) 4 ∧ ∀ r, r ≠ t → u.x r = s.x r := by
  refine ⟨_, ⟨img.text.leads_one img.fits hcode rfl hpc, rfl, rfl⟩, ?_, ?_, fun r hr => ?_⟩
  · show s.pc + 4 = _
    rw [hpc, Program.at_succ]
  · show (Function.update s.x t ((load s.mem (s.x n + v) 4).setWidth 64) t).setWidth 32 = _
    rw [Function.update_self]
    exact BitVec.setWidth_setWidth_of_le _ (by decide)
  · exact Function.update_of_ne hr ..

/-- A branch that is taken where `c` holds. -/
theorem EntryImage.passes_branch (img : EntryImage) {c : Prop} {k : Nat} {s : State}
    {i : A64.Instr Label} {l : Label} {is : List (A64.Instr Label)}
    (hcode : img.text.CodeAt k (i :: is)) (hi : i.leaves = false) (hpc : s.pc = img.text.at k)
    (htaken : c → A64.execInstr img.text.addr i s = s.setPc (img.text.addr l))
    (hnext : ¬ c → A64.execInstr img.text.addr i s = s.setPc (s.pc + 4)) :
    ∃ u, img.Passes s u ∧ u.x = s.x ∧
      (c ∧ u.pc = img.text.addr l ∨ ¬ c ∧ u.pc = img.text.at (k + 1)) := by
  have hgo := img.text.leads_one img.fits hcode hi hpc
  by_cases hc : c
  · rw [htaken hc] at hgo
    exact ⟨_, ⟨hgo, rfl, rfl⟩, rfl, Or.inl ⟨hc, rfl⟩⟩
  · rw [hnext hc] at hgo
    refine ⟨_, ⟨hgo, rfl, rfl⟩, rfl, Or.inr ⟨hc, ?_⟩⟩
    show s.pc + 4 = _
    rw [hpc, Program.at_succ]

theorem EntryImage.passes_cbnzW (img : EntryImage) {k : Nat} {s : State} {n : Reg} {l : Label}
    {is : List (A64.Instr Label)} (hcode : img.text.CodeAt k (.cbnzW n l :: is))
    (hpc : s.pc = img.text.at k) :
    ∃ u, img.Passes s u ∧ u.x = s.x ∧
      ((s.x n).setWidth 32 ≠ 0#32 ∧ u.pc = img.text.addr l ∨
        ¬ (s.x n).setWidth 32 ≠ 0#32 ∧ u.pc = img.text.at (k + 1)) :=
  img.passes_branch hcode rfl hpc (fun h => if_neg h) fun h => if_pos (not_not.1 h)

theorem EntryImage.passes_cbzW (img : EntryImage) {k : Nat} {s : State} {n : Reg} {l : Label}
    {is : List (A64.Instr Label)} (hcode : img.text.CodeAt k (.cbzW n l :: is))
    (hpc : s.pc = img.text.at k) :
    ∃ u, img.Passes s u ∧ u.x = s.x ∧
      ((s.x n).setWidth 32 = 0#32 ∧ u.pc = img.text.addr l ∨
        ¬ (s.x n).setWidth 32 = 0#32 ∧ u.pc = img.text.at (k + 1)) :=
  img.passes_branch hcode rfl hpc (fun h => if_pos h) fun h => if_neg h

/-- `el1_preempt`, up to the C function; `x24` keeps the return address. -/
theorem EntryImage.passes_el1Preempt (img : EntryImage) {s : State}
    (hpc : s.pc = img.text.addr .el1Preempt) :
    ∃ u, img.Passes s u ∧ u.pc = img.text.addr .preemptScheduleIrq ∧ u.x lr = img.text.at 106 ∧
      u.x 24 = s.x lr := by
  have hblock : img.text.CodeAt 104 el1PreemptBlock := img.codeAt (i := 5) rfl
  have hmoved := img.text.leads_one img.fits hblock rfl hpc
  have hnext : s.pc + 4 = img.text.at 105 := by
    rw [hpc, Program.at_succ]
    rfl
  have hcalled := img.text.leads_one img.fits hblock.tail rfl
    (s := A64.execInstr img.text.addr (.mov (.x 24) (.x lr)) s) hnext
  refine ⟨_, ⟨hmoved.trans hcalled, rfl, rfl⟩, rfl, ?_, ?_⟩
  · show Function.update (Function.update s.x 24 (s.x lr)) lr (s.pc + 4 + 4) lr = _
    rw [Function.update_self, hnext, ← Program.at_succ]
  · show Function.update (Function.update s.x 24 (s.x lr)) lr (s.pc + 4 + 4) 24 = _
    rw [Function.update_of_ne (by decide), Function.update_self]

/-- The task may be preempted: its `preempt_count` is 0 and its `need_resched` is not. -/
def Preemptible (s : State) : Prop :=
  load s.mem (taskOfSp s.sp + tiPreempt) 4 = 0#32 ∧
    load s.mem (taskOfSp s.sp + needReschedOffset) 4 ≠ 0#32

/-- Behind `irq_handler`: either straight to the restoring of the frame, or by `el1_preempt`
to the call of `preempt_schedule_irq`. -/
theorem EntryImage.passes_el1IrqTail (img : EntryImage) {s : State} (hpc : s.pc = img.text.at 73) :
    ∃ u, img.Passes s u ∧
      (¬ Preemptible s ∧ u.pc = img.text.addr .el1IrqOut ∨
        Preemptible s ∧ u.pc = img.text.addr .preemptScheduleIrq ∧ u.x lr = img.text.at 106 ∧
          u.x 24 = img.text.addr .el1IrqOut) := by
  have hblock : img.text.CodeAt 51 el1IrqBlock := img.codeAt (i := 3) rfl
  have htail : img.text.CodeAt 73 (loadTsk ++ [.ldrW 24 (.x tsk) tiPreempt, .cbnzW 24 .el1IrqOut,
    .ldrW 0 (.x tsk) needReschedOffset, .cbzW 0 .el1IrqOut, .bl .el1Preempt]) :=
    hblock.append.2.tail
  have htests : img.text.CodeAt 78 [.ldrW 24 (.x tsk) tiPreempt, .cbnzW 24 .el1IrqOut,
    .ldrW 0 (.x tsk) needReschedOffset, .cbzW 0 .el1IrqOut, .bl .el1Preempt] := htail.append.2
  obtain ⟨s₁, h₁, hpc₁, htsk⟩ := img.passes_loadTsk htail.append.1 hpc
  obtain ⟨s₂, h₂, hpc₂, hcount, hsame⟩ := img.passes_ldrW htests hpc₁
  rw [htsk, h₁.2.2] at hcount
  obtain ⟨s₃, h₃, hx₃, ⟨hbusy, hpc₃⟩ | ⟨hfree, hpc₃⟩⟩ := img.passes_cbnzW htests.tail hpc₂
  · rw [hcount] at hbusy
    exact ⟨s₃, (h₁.trans h₂).trans h₃, Or.inl ⟨fun h => hbusy h.1, hpc₃⟩⟩
  rw [hcount] at hfree
  have htsk₃ : s₃.x tsk = taskOfSp s.sp := by rw [hx₃, hsame tsk (by decide), htsk]
  obtain ⟨s₄, h₄, hpc₄, hresched, -⟩ := img.passes_ldrW htests.tail.tail hpc₃
  rw [htsk₃, ((h₁.trans h₂).trans h₃).2.2] at hresched
  obtain ⟨s₅, h₅, -, ⟨hclear, hpc₅⟩ | ⟨hset, hpc₅⟩⟩ := img.passes_cbzW htests.tail.tail.tail hpc₄
  · rw [hresched] at hclear
    exact ⟨s₅, ((((h₁.trans h₂).trans h₃).trans h₄).trans h₅), Or.inl ⟨fun h => h.2 hclear, hpc₅⟩⟩
  rw [hresched] at hset
  have hcall := img.text.leads_one img.fits htests.tail.tail.tail.tail rfl hpc₅
  obtain ⟨s₆, h₆, hpc₆, hlr₆⟩ : ∃ u, img.Passes s₅ u ∧ u.pc = img.text.addr .el1Preempt ∧
      u.x lr = img.text.addr .el1IrqOut := by
    refine ⟨_, ⟨hcall, rfl, rfl⟩, rfl, ?_⟩
    show Function.update s₅.x lr (s₅.pc + 4) lr = _
    rw [Function.update_self, hpc₅, ← Program.at_succ]
    rfl
  obtain ⟨u, hu, hupc, hulr, hux⟩ := img.passes_el1Preempt hpc₆
  refine ⟨u, (((((h₁.trans h₂).trans h₃).trans h₄).trans h₅).trans h₆).trans hu, Or.inr ?_⟩
  exact ⟨⟨not_not.1 hfree, hset⟩, hupc, hulr, hux.trans hlr₆⟩

/-- The return of `el1_preempt`. -/
theorem EntryImage.passes_el1PreemptReturn (img : EntryImage) {s : State}
    (hpc : s.pc = img.text.at 106) (hx : s.x 24 = img.text.addr .el1IrqOut) :
    ∃ u, img.Passes s u ∧ u.pc = img.text.addr .el1IrqOut := by
  have hblock : img.text.CodeAt 104 el1PreemptBlock := img.codeAt (i := 5) rfl
  have hreturned := img.text.leads_one img.fits hblock.tail.tail rfl hpc
  exact ⟨_, ⟨hreturned, rfl, rfl⟩, hx⟩

/-- The restoring of the frame, up to the `eret`. -/
theorem EntryImage.leads_el1IrqOut (img : EntryImage) {s : State} {c : Context}
    (hpc : s.pc = img.text.addr .el1IrqOut) (hframe : Cells s.mem s.sp c.words) :
    ∃ u, img.text.Leads s u ∧ img.text.fetch u.pc = some .eret ∧ u.x = c.x ∧
      u.sp = s.sp + sFrameSize ∧ u.elr = c.pc ∧ u.spsr = c.pstate ∧ u.mem = s.mem := by
  have hblock : img.text.CodeAt 83 el1IrqOutBlock := img.codeAt (i := 4) rfl
  have hcode : img.text.CodeAt 83 (contextRestore 1) := hblock.append.1
  have hrestored := img.leads_contextRestore 1 hcode hpc hframe
  have hlength : (contextRestore 1).length = 20 := rfl
  rw [hlength] at hrestored
  have heret : img.text.CodeAt (83 + 20) [.eret] := hlength ▸ hblock.append.2
  exact ⟨_, hrestored, heret.fetch img.fits, rfl, rfl, rfl, rfl, rfl⟩

/-! ## `cpu_switch_to` -/

/-- The words of a `struct cpu_context`. -/
def CpuContext.words (c : CpuContext) : List Word :=
  [c.x19, c.x20, c.x21, c.x22, c.x23, c.x24, c.x25, c.x26, c.x27, c.x28, c.fp, c.sp, c.pc]

@[simp] theorem CpuContext.length_words (c : CpuContext) : c.words.length = 13 := rfl

/-- What `cpu_switch_to` keeps of a task. -/
def cpuContextOf (s : State) : CpuContext where
  x19 := s.x 19
  x20 := s.x 20
  x21 := s.x 21
  x22 := s.x 22
  x23 := s.x 23
  x24 := s.x 24
  x25 := s.x 25
  x26 := s.x 26
  x27 := s.x 27
  x28 := s.x 28
  fp := s.x 29
  sp := s.sp
  pc := s.x lr

theorem cpuContextOf_setPc (v : Word) (s : State) : cpuContextOf (s.setPc v) = cpuContextOf s := rfl

/-- The pairs of `cpu_switch_to`; `x9` stands for the stack pointer. -/
def calleePairs : List (Reg × Reg) :=
  [(19, 20), (21, 22), (23, 24), (25, 26), (27, 28), (29, 9)]

/-- The first half of `cpu_switch_to` fills the context of the task in `x0`. -/
theorem execAll_switchSave (addr : Label → Word) (s : State) :
    (execAll addr switchSave s).mem =
        storeCells (s.x 0 + threadCpuContext) 0 (cpuContextOf s).words s.mem ∧
      (execAll addr switchSave s).x 0 = s.x 0 ∧ (execAll addr switchSave s).x 1 = s.x 1 := by
  have hsplit : switchSave = [.add (.x 8) (.x 0) threadCpuContext, .mov (.x 9) .sp] ++
      (stpPostRow 8 calleePairs ++ [.str lr (.x 8) 0]) := rfl
  obtain ⟨t, ht, htx, htmem⟩ : ∃ t,
      execAll addr [.add (.x 8) (.x 0) threadCpuContext, .mov (.x 9) .sp] s = t ∧
      t.x = Function.update (Function.update s.x 8 (s.x 0 + threadCpuContext)) 9 s.sp ∧
      t.mem = s.mem := ⟨_, rfl, rfl, rfl⟩
  obtain ⟨u, hu, hux, humem⟩ : ∃ u, execAll addr (stpPostRow 8 calleePairs) t = u ∧
      u.x = Function.update t.x 8 (t.x 8 + BitVec.ofNat 64 (8 * 12)) ∧
      u.mem = storeCells (t.x 8) 0 ((flattenPairs calleePairs).map t.x) t.mem := by
    have hrow := execAll_stpPostRow addr (n := 8) calleePairs (by decide) t
    exact ⟨_, hrow, rfl, rfl⟩
  have hbase : t.x 8 = s.x 0 + threadCpuContext := by simp [htx]
  have hlr : t.x lr = s.x lr := by
    rw [htx, Function.update_of_ne (by decide), Function.update_of_ne (by decide)]
  have hwords : (cpuContextOf s).words = (flattenPairs calleePairs).map t.x ++ [t.x lr] := by
    rw [hlr, htx]
    simp [cpuContextOf, CpuContext.words, flattenPairs, calleePairs]
  have hux8 : u.x 8 + 0#64 = t.x 8 + BitVec.ofNat 64 (8 * 12) := by
    rw [BitVec.add_zero, hux, Function.update_self]
  have hulr : u.x lr = t.x lr := by rw [hux, Function.update_of_ne (by decide)]
  have hlength : 0 + ((flattenPairs calleePairs).map t.x).length = 12 := rfl
  -- the arguments stay in their registers
  have hargs : ∀ r : Reg, r ≠ 8 → r ≠ 9 → u.x r = s.x r := by
    intro r h8 h9
    rw [hux, Function.update_of_ne h8, htx, Function.update_of_ne h9, Function.update_of_ne h8]
  rw [hsplit, execAll_append, ht, execAll_append, hu]
  refine ⟨?_, hargs 0 (by decide) (by decide), hargs 1 (by decide) (by decide)⟩
  rw [hwords, storeCells_append, hlength, ← hbase, ← htmem, ← humem]
  show store (u.x 8 + 0#64) 8 (u.x lr) u.mem = store _ 8 (t.x lr) u.mem
  rw [hux8, hulr]

/-- The second half brings the context of the task in `x1` back. -/
theorem execAll_switchLoad (addr : Label → Word) {s : State} {c : CpuContext}
    (hcells : Cells s.mem (s.x 1 + threadCpuContext) c.words) :
    cpuContextOf (execAll addr switchLoad s) = c ∧
      (execAll addr switchLoad s).x 0 = s.x 0 ∧ (execAll addr switchLoad s).mem = s.mem := by
  have hsplit : switchLoad = [.add (.x 8) (.x 1) threadCpuContext] ++
      (ldpPostRow 8 calleePairs ++ [.ldr lr (.x 8) 0, .mov .sp (.x 9)]) := rfl
  obtain ⟨t, ht, htx, htmem⟩ : ∃ t, execAll addr [.add (.x 8) (.x 1) threadCpuContext] s = t ∧
      t.x = Function.update s.x 8 (s.x 1 + threadCpuContext) ∧ t.mem = s.mem :=
    ⟨_, rfl, rfl, rfl⟩
  have hbase : t.x 8 = s.x 1 + threadCpuContext := by rw [htx, Function.update_self]
  obtain ⟨u, hu, hux, humem⟩ : ∃ u, execAll addr (ldpPostRow 8 calleePairs) t = u ∧
      u.x = Function.update (loadRegs t.mem (t.x 8) 0 (flattenPairs calleePairs) t.x) 8
        (t.x 8 + BitVec.ofNat 64 (8 * 12)) ∧ u.mem = t.mem := by
    have hrow := execAll_ldpPostRow addr (n := 8) calleePairs (by decide) t
    exact ⟨_, hrow, rfl, rfl⟩
  rw [← hbase, ← htmem] at hcells
  -- a register of the row holds its cell of the context
  have hreg : ∀ (i : Nat) (hi : i < (flattenPairs calleePairs).length) (hi' : i < c.words.length),
      u.x (flattenPairs calleePairs)[i] = c.words[i] := by
    intro i hi hi'
    have hne : (flattenPairs calleePairs)[i] ≠ 8 := fun h => by
      have hmem : (8 : Reg) ∈ flattenPairs calleePairs := h ▸ List.getElem_mem hi
      exact absurd hmem (by decide)
    have hload := loadRegs_getElem (m := t.mem) (a := t.x 8) (i := 0)
      (by decide : (flattenPairs calleePairs).Nodup) hi t.x
    rw [hux, Function.update_of_ne hne, hload, Nat.zero_add, hcells i hi']
  have hrow : (flattenPairs calleePairs).map u.x = c.words.take 12 := by
    refine List.ext_getElem rfl fun i hi hi' => ?_
    rw [List.getElem_map, List.getElem_take]
    exact hreg i (by simpa using hi) (by simp at hi'; simp; omega)
  have hpc : load u.mem (u.x 8 + 0#64) 8 = c.pc := by
    rw [BitVec.add_zero, humem, hux, Function.update_self]
    exact hcells 12 (by simp)
  have hzero : u.x 0 = s.x 0 := by
    rw [hux, Function.update_of_ne (by decide), loadRegs_of_notMem (by decide), htx,
      Function.update_of_ne (by decide)]
  rw [hsplit, execAll_append, ht, execAll_append, hu]
  refine ⟨?_, hzero, humem.trans htmem⟩
  calc
    cpuContextOf (execAll addr [.ldr lr (.x 8) 0, .mov .sp (.x 9)] u) =
        ⟨u.x 19, u.x 20, u.x 21, u.x 22, u.x 23, u.x 24, u.x 25, u.x 26, u.x 27, u.x 28, u.x 29,
          u.x 9, load u.mem (u.x 8 + 0#64) 8⟩ := rfl
    _ = c := by
      simp only [flattenPairs, calleePairs, List.flatMap_cons, List.flatMap_nil, List.cons_append,
        List.nil_append, List.map_cons, List.map_nil, CpuContext.words, List.take_succ_cons,
        List.take_zero, List.cons.injEq] at hrow
      simp only [hrow, hpc]

/-- `cpu_switch_to`, up to its return: the context of the task in `x0` is put away, and the
one of the task in `x1` is back; `x0` stays, and is what the task that comes back gets. -/
theorem EntryImage.leads_cpuSwitchTo (img : EntryImage) {s : State} {c : CpuContext}
    (hpc : s.pc = img.text.addr .cpuSwitchTo)
    (hnext : Cells (storeCells (s.x 0 + threadCpuContext) 0 (cpuContextOf s).words s.mem)
      (s.x 1 + threadCpuContext) c.words) :
    ∃ u, img.text.Leads s u ∧ img.text.fetch u.pc = some (.ret lr) ∧ cpuContextOf u = c ∧
      u.x 0 = s.x 0 ∧ u.mem = storeCells (s.x 0 + threadCpuContext) 0 (cpuContextOf s).words s.mem := by
  have hblock : img.text.CodeAt 145 cpuSwitchToBlock := img.codeAt (i := 11) rfl
  obtain ⟨hmem, hx0, hx1⟩ := execAll_switchSave img.text.addr s
  obtain ⟨hsaved, hend⟩ := img.text.leads_straight img.fits switchSave (by decide)
    hblock.append.1 hpc
  obtain ⟨t, ht⟩ : ∃ t, execAll img.text.addr switchSave s = t := ⟨_, rfl⟩
  rw [ht] at hmem hx0 hx1 hsaved hend
  rw [← hmem, ← hx1] at hnext
  have hload : img.text.CodeAt (145 + switchSave.length) (switchLoad ++ [.ret lr]) :=
    hblock.append.2
  obtain ⟨hback, hzero, hkept⟩ := execAll_switchLoad img.text.addr hnext
  obtain ⟨hloaded, hend'⟩ := img.text.leads_straight img.fits switchLoad (by decide)
    hload.append.1 hend
  refine ⟨_, hsaved.trans hloaded, ?_, hback, hzero.trans hx0, hkept.trans hmem⟩
  rw [hend']
  exact hload.append.2.fetch img.fits

end Arm64OS
