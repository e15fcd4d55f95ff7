import Arm64OS.Lib.A64
import Arm64OS.Page

/-!
# The text of the entry code

`arch/arm64/kernel/entry.S` from `el0_sync` on, instruction by instruction and in the order of
the file, with the offsets of `asm-offsets.h`.  `el0_sync` is followed by `el0_svc` and
`el1_irq` by its local label with nothing in between, so code runs on across these labels.

`kernel_ventry` is a branch to the label of the exception, so exceptions are taken to the
labels directly.
-/

namespace Arm64OS

open A64 ByteMem

/-- The labels of the text, and the C functions that it calls. -/
inductive Label
  | el0Sync
  | el0Svc
  | el0Irq
  | el1Irq
  /-- the local label of `el1_irq` -/
  | el1IrqOut
  | el1Preempt
  | retToUser
  | noWorkPending
  | needSched
  | retFromFork
  /-- the local label of `ret_from_fork` -/
  | retFromForkOut
  | cpuSwitchTo
  | el0SvcHandler
  | irqHandler
  | preemptScheduleIrq
  | schedule
  | scheduleTail
  deriving DecidableEq

def sFrameSize : Word := 320
def sLr : Word := 240
def sSp : Word := 248
def sPc : Word := 256
def threadCpuContext : Word := 16
def tiPreempt : Word := 148
def needReschedOffset : Word := 144
def esrElxEcShift : Nat := 26
def esrElxEcSvc64 : Word := 0x15

abbrev lr : Reg := 30

/-- `tsk .req x28`. -/
abbrev tsk : Reg := 28

/-- The pairs `x0, x1` to `x28, x29`, which the macros store and load at `[sp, #16 * i]`. -/
def generalPairs : List (Reg × Reg) :=
  [(0, 1), (2, 3), (4, 5), (6, 7), (8, 9), (10, 11), (12, 13), (14, 15), (16, 17), (18, 19),
    (20, 21), (22, 23), (24, 25), (26, 27), (28, 29)]

/-- `kernel_context_save`. -/
def contextSave (el : Nat) : List (A64.Instr Label) :=
  .sub .sp .sp sFrameSize :: (stpRow 0 generalPairs).append
    [if el = 0 then .mrs 21 .spEl0 else .add (.x 21) .sp sFrameSize,
      .mrs 22 .elr, .mrs 23 .spsr, .stp lr 21 .sp sLr, .stp 22 23 .sp sPc]

/-- The first loads of `kernel_context_res`. -/
def systemRestore (el : Nat) : List (A64.Instr Label) :=
  if el = 0 then
    [.ldp 21 22 .sp sPc, .ldr 23 .sp sSp, .msr .spEl0 23, .msr .elr 21, .msr .spsr 22]
  else
    [.ldp 21 22 .sp sPc, .msr .elr 21, .msr .spsr 22]

/-- `kernel_context_res` in front of its `eret`. -/
def contextRestore (el : Nat) : List (A64.Instr Label) :=
  (systemRestore el).append ((ldpRow 0 generalPairs).append
    [.ldr lr .sp sLr, .add .sp .sp sFrameSize])

/-- `tsk` becomes the task whose stack `sp` points into. -/
def loadTsk : List (A64.Instr Label) :=
  [.mov (.x tsk) .sp, .movImm 27 4096, .sub (.x 27) (.x 27) 1, .mvn 27 27, .and tsk tsk 27]

/-- The registers that `cpu_switch_to` puts away. -/
def switchSave : List (A64.Instr Label) :=
  [.add (.x 8) (.x 0) threadCpuContext, .mov (.x 9) .sp,
    .stpPost 19 20 8 16, .stpPost 21 22 8 16, .stpPost 23 24 8 16, .stpPost 25 26 8 16,
    .stpPost 27 28 8 16, .stpPost 29 9 8 16, .str lr (.x 8) 0]

def switchLoad : List (A64.Instr Label) :=
  [.add (.x 8) (.x 1) threadCpuContext,
    .ldpPost 19 20 8 16, .ldpPost 21 22 8 16, .ldpPost 23 24 8 16, .ldpPost 25 26 8 16,
    .ldpPost 27 28 8 16, .ldpPost 29 9 8 16, .ldr lr (.x 8) 0, .mov .sp (.x 9)]

def el0SyncBlock : List (A64.Instr Label) :=
  (contextSave 0).append
    [.mrs 25 .esr, .lsr 24 25 esrElxEcShift, .cmp 24 esrElxEcSvc64, .beq .el0Svc]

def el0SvcBlock : List (A64.Instr Label) := [.mov (.x 0) .sp, .bl .el0SvcHandler, .b .retToUser]

def el0IrqBlock : List (A64.Instr Label) := (contextSave 0).append [.bl .irqHandler, .b .retToUser]

def el1IrqBlock : List (A64.Instr Label) :=
  (contextSave 1).append (.bl .irqHandler :: loadTsk.append
    [.ldrW 24 (.x tsk) tiPreempt, .cbnzW 24 .el1IrqOut,
      .ldrW 0 (.x tsk) needReschedOffset, .cbzW 0 .el1IrqOut, .bl .el1Preempt])

def el1IrqOutBlock : List (A64.Instr Label) := (contextRestore 1).append [.eret]

def el1PreemptBlock : List (A64.Instr Label) :=
  [.mov (.x 24) (.x lr), .bl .preemptScheduleIrq, .ret 24]

def retToUserBlock : List (A64.Instr Label) :=
  .maskIrq :: loadTsk.append
    [.ldrW 24 (.x tsk) needReschedOffset, .cbnzW 24 .needSched]

def noWorkPendingBlock : List (A64.Instr Label) := (contextRestore 0).append [.eret]

def needSchedBlock : List (A64.Instr Label) := [.bl .schedule, .b .noWorkPending]

def retFromForkBlock : List (A64.Instr Label) :=
  [.bl .scheduleTail, .cbz 19 .retFromForkOut, .mov (.x 0) (.x 20), .blr 19]

def retFromForkOutBlock : List (A64.Instr Label) := [.b .retToUser]

def cpuSwitchToBlock : List (A64.Instr Label) := switchSave.append (switchLoad.append [.ret lr])

/-- The blocks in the order of the file. -/
def entryBlocks : List (Label × List (A64.Instr Label)) :=
  [(.el0Sync, el0SyncBlock), (.el0Svc, el0SvcBlock), (.el0Irq, el0IrqBlock),
    (.el1Irq, el1IrqBlock), (.el1IrqOut, el1IrqOutBlock), (.el1Preempt, el1PreemptBlock),
    (.retToUser, retToUserBlock), (.noWorkPending, noWorkPendingBlock),
    (.needSched, needSchedBlock), (.retFromFork, retFromForkBlock),
    (.retFromForkOut, retFromForkOutBlock), (.cpuSwitchTo, cpuSwitchToBlock)]

/-- Where the linker puts the text and the C functions. -/
structure EntryImage where
  base : Word
  outer : Label → Word
  outside : ∀ l, offset l entryBlocks = none →
    (Program.mk entryBlocks base outer).fetch (outer l) = none

def EntryImage.text (img : EntryImage) : Program Label := ⟨entryBlocks, img.base, img.outer⟩

theorem EntryImage.fits (img : EntryImage) : 4 * img.text.code.length < 2 ^ 64 := by
  have hlength : (entryBlocks.flatMap Prod.snd).length = 164 := by rfl
  show 4 * (entryBlocks.flatMap Prod.snd).length < 2 ^ 64
  omega

theorem EntryImage.codeAt (img : EntryImage) {i : Nat} {l : Label} {is : List (A64.Instr Label)}
    (h : entryBlocks[i]? = some (l, is)) :
    img.text.CodeAt ((entryBlocks.take i).flatMap Prod.snd).length is := by
  obtain ⟨hlt, hget⟩ := List.getElem?_eq_some_iff.1 h
  have hsplit : img.text.blocks = entryBlocks.take i ++ (l, is) :: entryBlocks.drop (i + 1) := by
    show entryBlocks = _
    rw [← hget, ← List.drop_eq_getElem_cons hlt, List.take_append_drop]
  exact Program.codeAt_block hsplit

/-! ## Frames -/

/-- What a frame is there to bring back. -/
structure Context where
  x : Reg → Word
  sp : Word
  pc : Word
  pstate : Word

/-- The words of a frame, from its lowest address on. -/
def Context.words (c : Context) : List Word :=
  [c.x 0, c.x 1, c.x 2, c.x 3, c.x 4, c.x 5, c.x 6, c.x 7, c.x 8, c.x 9, c.x 10, c.x 11, c.x 12,
    c.x 13, c.x 14, c.x 15, c.x 16, c.x 17, c.x 18, c.x 19, c.x 20, c.x 21, c.x 22, c.x 23,
    c.x 24, c.x 25, c.x 26, c.x 27, c.x 28, c.x 29, c.x 30, c.sp, c.pc, c.pstate]

/-- The context that a save puts away: at EL0 the stack pointer is `SP_EL0`. -/
def savedContext (el : Nat) (s : State) : Context where
  x := s.x
  sp := if el = 0 then s.spEl0 else s.sp
  pc := s.elr
  pstate := s.spsr

/-- `kernel_context_save` writes a frame and uses three registers. -/
theorem execAll_contextSave (addr : Label → Word) (el : Nat) (s : State) :
    ∃ x pc, execAll addr (contextSave el) s =
        { s with
          x := x
          sp := s.sp - sFrameSize
          pc := pc
          mem := storeCells (s.sp - sFrameSize) 0 (savedContext el s).words s.mem } ∧
      ∀ r, r ≠ 21 → r ≠ 22 → r ≠ 23 → x r = s.x r := by
  have hwords : (savedContext el s).words =
      (flattenPairs generalPairs).map s.x ++
        [s.x 30, if el = 0 then s.spEl0 else s.sp, s.elr, s.spsr] := rfl
  have hsplit : contextSave el = .sub .sp .sp sFrameSize :: (stpRow 0 generalPairs ++
      (if el = 0 then .mrs 21 .spEl0 else .add (.x 21) .sp sFrameSize) :: .mrs 22 .elr ::
        .mrs 23 .spsr :: stpRow 15 [(30, 21), (22, 23)]) := rfl
  have hothers : ∀ (v₁ v₂ v₃ : Word) (r : Reg), r ≠ 21 → r ≠ 22 → r ≠ 23 →
      Function.update (Function.update (Function.update s.x 21 v₁) 22 v₂) 23 v₃ r = s.x r := by
    intro v₁ v₂ v₃ r h₁ h₂ h₃
    rw [Function.update_of_ne h₃, Function.update_of_ne h₂, Function.update_of_ne h₁]
  have hlast : ∀ v : Word, (flattenPairs [((30 : Reg), (21 : Reg)), (22, 23)]).map
      (Function.update (Function.update (Function.update s.x 21 v) 22 s.elr) 23 s.spsr) =
        [s.x 30, v, s.elr, s.spsr] := fun v => by simp [flattenPairs]
  have hlength : 0 + ((flattenPairs generalPairs).map s.x).length = 2 * 15 := rfl
  rw [hwords, hsplit, storeCells_append, hlength]
  simp only [execAll_append, execAll_stpRow, execAll_cons, Nat.mul_zero]
  by_cases hel : el = 0
  · simp only [hel, if_true, A64.execInstr, State.set, State.setPc, State.get, State.setX,
      State.getSys, hlast]
    exact ⟨_, _, rfl, hothers _ _ _⟩
  · simp only [hel, if_false, A64.execInstr, State.set, State.setPc, State.get, State.setX,
      State.getSys, BitVec.sub_add_cancel, hlast]
    exact ⟨_, _, rfl, hothers _ _ _⟩

theorem Context.words_eq (c : Context) :
    c.words = (flattenPairs generalPairs).map c.x ++ [c.x 30, c.sp, c.pc, c.pstate] := rfl

@[simp] theorem Context.length_words (c : Context) : c.words.length = 34 := rfl

/-- The words of a frame, by their offsets. -/
theorem Context.load_words {c : Context} {m : Mem} {a : Word} (h : Cells m a c.words) :
    load m (a + sLr) 8 = c.x lr ∧ load m (a + sSp) 8 = c.sp ∧ load m (a + sPc) 8 = c.pc ∧
      load m (a + (sPc + 8#64)) 8 = c.pstate := by
  exact ⟨h 30 (by simp), h 31 (by simp), h 32 (by simp), h 33 (by simp)⟩

/-- The general registers but `lr`, after the row of loads. -/
theorem loadRegs_general {c : Context} {m : Mem} {a : Word} (h : Cells m a c.words) (x : Reg → Word)
    {r : Reg} (hr : r ≠ lr) : loadRegs m a 0 (flattenPairs generalPairs) x r = c.x r := by
  have hlength : (flattenPairs generalPairs).length = 30 := rfl
  have hnodup : (flattenPairs generalPairs).Nodup := by decide
  have hall : ∀ r : Reg, r ≠ lr → (flattenPairs generalPairs)[r.val]? = some r := by decide
  have hget := hall r hr
  obtain ⟨hlt, hself⟩ := List.getElem?_eq_some_iff.1 hget
  have hload := loadRegs_getElem (m := m) (a := a) (i := 0) hnodup hlt x
  rw [hself, Nat.zero_add] at hload
  have hwords : c.words[r.val]? = some (c.x r) := by
    rw [c.words_eq, List.getElem?_append_left (by simpa using hlt), List.getElem?_map, hget,
      Option.map_some]
  obtain ⟨hlt', hword⟩ := List.getElem?_eq_some_iff.1 hwords
  rw [hload, h r.val hlt', hword]

/-- `kernel_context_res` brings the frame back, up to the `eret`. -/
theorem execAll_contextRestore (addr : Label → Word) (el : Nat) {s : State} {c : Context}
    (hframe : Cells s.mem s.sp c.words) :
    ∃ pc, execAll addr (contextRestore el) s =
      { s with
        x := c.x
        sp := s.sp + sFrameSize
        pc := pc
        spEl0 := if el = 0 then c.sp else s.spEl0
        elr := c.pc
        spsr := c.pstate } := by
  obtain ⟨hlr, hsp, hpc, hpstate⟩ := Context.load_words hframe
  have hsystem : ∃ x pc, execAll addr (systemRestore el) s =
      { s with
        x := x
        pc := pc
        spEl0 := if el = 0 then c.sp else s.spEl0
        elr := c.pc
        spsr := c.pstate } := by
    by_cases hel : el = 0
    · simp [systemRestore, hel, A64.execInstr, State.setX, State.setPc, State.setSys, State.get,
        State.load, hpc, hpstate, hsp]
    · simp [systemRestore, hel, A64.execInstr, State.setX, State.setPc, State.setSys, State.get,
        State.load, hpc, hpstate]
  obtain ⟨x, pc, hsystem⟩ := hsystem
  have hsplit : contextRestore el = systemRestore el ++ (ldpRow 0 generalPairs ++
      [.ldr lr .sp sLr, .add .sp .sp sFrameSize]) := rfl
  have hx : Function.update (loadRegs s.mem s.sp 0 (flattenPairs generalPairs) x) lr (c.x lr) =
      c.x := by
    funext r
    by_cases hr : r = lr
    · rw [hr, Function.update_self]
    · rw [Function.update_of_ne hr, loadRegs_general hframe x hr]
  have hlast : ∀ t : State, execAll addr [.ldr lr .sp sLr, .add .sp .sp sFrameSize] t =
      { t with
        x := Function.update t.x lr (t.load (t.sp + sLr))
        sp := t.sp + sFrameSize
        pc := t.pc + 4 + 4 } := fun _ => rfl
  rw [hsplit, execAll_append, hsystem, execAll_append, execAll_ldpRow, hlast]
  simp only [State.load, Nat.mul_zero, hlr, hx]
  exact ⟨_, rfl⟩

/-! ## The macros in the text -/

theorem straight_contextSave (el : Nat) : ∀ i ∈ contextSave el, i.straight := by
  by_cases hel : el = 0
  · rw [hel]
    decide
  · have hsame : contextSave el = contextSave 1 := by simp [contextSave, hel]
    rw [hsame]
    decide

theorem straight_contextRestore (el : Nat) : ∀ i ∈ contextRestore el, i.straight := by
  by_cases hel : el = 0
  · rw [hel]
    decide
  · have hsame : contextRestore el = contextRestore 1 := by
      simp [contextRestore, systemRestore, hel]
    rw [hsame]
    decide

theorem EntryImage.leads_contextSave (img : EntryImage) (el : Nat) {k : Nat} {s : State}
    (hcode : img.text.CodeAt k (contextSave el)) (hpc : s.pc = img.text.at k) :
    ∃ x, (∀ r, r ≠ 21 → r ≠ 22 → r ≠ 23 → x r = s.x r) ∧
      img.text.Leads s
        { s with
          x := x
          sp := s.sp - sFrameSize
          pc := img.text.at (k + 21)
          mem := storeCells (s.sp - sFrameSize) 0 (savedContext el s).words s.mem } := by
  obtain ⟨hleads, hend⟩ := img.text.leads_straight img.fits _ (straight_contextSave el) hcode hpc
  obtain ⟨x, pc, heffect, hx⟩ := execAll_contextSave img.text.addr el s
  have hlength : (contextSave el).length = 21 := rfl
  rw [heffect, hlength] at hend
  rw [heffect] at hleads
  obtain rfl : pc = img.text.at (k + 21) := hend
  exact ⟨x, hx, hleads⟩

theorem EntryImage.leads_contextRestore (img : EntryImage) (el : Nat) {k : Nat} {s : State}
    {c : Context} (hcode : img.text.CodeAt k (contextRestore el)) (hpc : s.pc = img.text.at k)
    (hframe : Cells s.mem s.sp c.words) :
    img.text.Leads s
      { s with
        x := c.x
        sp := s.sp + sFrameSize
        pc := img.text.at (k + (contextRestore el).length)
        spEl0 := if el = 0 then c.sp else s.spEl0
        elr := c.pc
        spsr := c.pstate } := by
  obtain ⟨hleads, hend⟩ :=
    img.text.leads_straight img.fits _ (straight_contextRestore el) hcode hpc
  obtain ⟨pc, heffect⟩ := execAll_contextRestore img.text.addr el hframe
  rw [heffect] at hleads hend
  obtain rfl : pc = img.text.at (k + (contextRestore el).length) := hend
  exact hleads

/-- The task that `tsk` is taken to be. -/
def taskOfSp (sp : Word) : Word := sp &&& ~~~(4096 - 1)

/-- A stack pointer in the page of a task leads to that task. -/
theorem taskOfSp_eq {t sp : Word} (haligned : t.toNat % 4096 = 0) (hlow : t.toNat ≤ sp.toNat)
    (hhigh : sp.toNat < t.toNat + 4096) : taskOfSp sp = t := by
  refine BitVec.eq_of_toNat_eq ?_
  have hpage : (taskOfSp sp).toNat = sp.toNat / 4096 * 4096 := toNat_and_pageMask sp
  omega

theorem EntryImage.leads_loadTsk (img : EntryImage) {k : Nat} {s : State}
    (hcode : img.text.CodeAt k loadTsk) (hpc : s.pc = img.text.at k) :
    ∃ x, (∀ r, r ≠ 27 → r ≠ tsk → x r = s.x r) ∧ x tsk = taskOfSp s.sp ∧
      img.text.Leads s { s with x := x, pc := img.text.at (k + 5) } := by
  obtain ⟨hleads, hend⟩ := img.text.leads_straight img.fits loadTsk (by decide) hcode hpc
  have hlength : loadTsk.length = 5 := rfl
  rw [hlength] at hend
  obtain ⟨x, hx⟩ : ∃ x, (execAll img.text.addr loadTsk s).x = x := ⟨_, rfl⟩
  have heffect : execAll img.text.addr loadTsk s =
      { s with x := x, pc := img.text.at (k + 5) } := by
    rw [← hx, ← hend]
    rfl
  rw [heffect] at hleads
  have hapart : tsk ≠ 27 := by decide
  refine ⟨x, fun r h₁ h₂ => ?_, ?_, hleads⟩
  · simp [← hx, loadTsk, A64.execInstr, State.set, State.setX, State.setPc, State.get, h₁, h₂]
  · simp [← hx, loadTsk, A64.execInstr, State.set, State.setX, State.setPc, State.get, taskOfSp,
      hapart]

end Arm64OS
