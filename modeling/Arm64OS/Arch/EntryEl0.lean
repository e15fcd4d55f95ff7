import Arm64OS.Arch.EntryCode
import Arm64OS.Arch.Syscall

/-!
# Synchronous exceptions from EL0

`el0_sync` of `entry.S`.  It compares the exception class with that of an SVC and branches to
`el0_svc` when they agree, and `el0_svc` is the next instruction.
-/

namespace Arm64OS

open A64 ByteMem

/-- `ESR_ELx_EC`: bits 31 to 26 of the syndrome. -/
def exceptionClass (esr : Word) : Word := (esr >>> esrElxEcShift) &&& 0x3f

/-- The processor in front of the first instruction of `el0_sync`; `s` is the state in which
the exception was taken. -/
def EntryImage.el0Sync (img : EntryImage) (s : State) : State :=
  s.takeException (img.text.addr .el0Sync)

/-- The registers of the interrupted program, as its exception frame holds them. -/
def userContext (s : State) : Context where
  x := s.x
  sp := s.spEl0
  pc := s.pc
  pstate := s.pstate

/-- The class test changes the flags and two registers.  Its branch and the fall through
have the same target. -/
theorem EntryImage.leads_classTest (img : EntryImage) {s : State} (hpc : s.pc = img.text.at 21) :
    ∃ x pstate, img.text.Leads s
      { s with x := x, pstate := pstate, pc := img.text.addr .el0Svc } := by
  have hblock : img.text.CodeAt 0 el0SyncBlock := img.codeAt (i := 0) rfl
  have htest : img.text.CodeAt 21 ([.mrs 25 .esr, .lsr 24 25 esrElxEcShift,
    .cmp 24 esrElxEcSvc64] ++ [.beq .el0Svc]) := hblock.append.2
  obtain ⟨hcompared, hend⟩ := img.text.leads_straight img.fits _ (by decide) htest.append.1 hpc
  obtain ⟨t, ht⟩ : ∃ t, execAll img.text.addr
    [.mrs 25 .esr, .lsr 24 25 esrElxEcShift, .cmp 24 esrElxEcSvc64] s = t := ⟨_, rfl⟩
  rw [ht] at hcompared hend
  have hbranched := img.text.leads_one img.fits htest.append.2 rfl hend
  have heffect : A64.execInstr img.text.addr (.beq .el0Svc) t =
      { s with x := t.x, pstate := t.pstate, pc := img.text.addr .el0Svc } := by
    have hnext : t.pc + 4 = img.text.addr .el0Svc := by
      rw [hend, ← Program.at_succ]
      rfl
    show (if t.pstate.getLsbD 30 then t.setPc (img.text.addr .el0Svc) else t.setPc (t.pc + 4)) = _
    rw [hnext, ite_self, ← ht]
    rfl
  rw [heffect] at hbranched
  exact ⟨_, _, hcompared.trans hbranched⟩

theorem EntryImage.leads_el0Svc (img : EntryImage) {s : State}
    (hpc : s.pc = img.text.addr .el0Svc) :
    img.text.Leads s
      { s with
        x := Function.update (Function.update s.x 0 s.sp) lr (img.text.at 27)
        pc := img.text.addr .el0SvcHandler } := by
  have hblock : img.text.CodeAt 25 el0SvcBlock := img.codeAt (i := 1) rfl
  have hmoved := img.text.leads_one img.fits hblock rfl hpc
  have hnext : s.pc + 4 = img.text.at 26 := by
    rw [hpc, Program.at_succ]
    rfl
  have hcalled := img.text.leads_one img.fits hblock.tail rfl
    (s := A64.execInstr img.text.addr (.mov (.x 0) .sp) s) hnext
  have hreturn : s.pc + 4 + 4 = img.text.at 27 := by rw [hnext, ← Program.at_succ]
  have heffect : A64.execInstr img.text.addr (.bl .el0SvcHandler)
      (A64.execInstr img.text.addr (.mov (.x 0) .sp) s) =
        { s with
          x := Function.update (Function.update s.x 0 s.sp) lr (img.text.at 27)
          pc := img.text.addr .el0SvcHandler } := by
    rw [← hreturn]
    rfl
  rw [heffect] at hcalled
  exact hmoved.trans hcalled

/-- Every synchronous exception from EL0 leads to a call of `el0_svc_handler` with its frame. -/
theorem EntryImage.leads_el0SvcHandler (img : EntryImage) (s : State) :
    ∃ s', img.text.Leads (img.el0Sync s) s' ∧ s'.pc = img.text.addr .el0SvcHandler ∧
      s'.sp = s.sp - sFrameSize ∧ s'.x 0 = s.sp - sFrameSize ∧ s'.x lr = img.text.at 27 ∧
      s'.mem = storeCells (s.sp - sFrameSize) 0 (userContext s).words s.mem := by
  have hblock : img.text.CodeAt 0 el0SyncBlock := img.codeAt (i := 0) rfl
  obtain ⟨x, -, hsaved⟩ := img.leads_contextSave 0 (s := img.el0Sync s) hblock.append.1 rfl
  obtain ⟨t, ht, hsp, hpc, hmem⟩ : ∃ t, img.text.Leads (img.el0Sync s) t ∧
      t.sp = s.sp - sFrameSize ∧ t.pc = img.text.at 21 ∧
      t.mem = storeCells (s.sp - sFrameSize) 0 (userContext s).words s.mem :=
    ⟨_, hsaved, rfl, rfl, rfl⟩
  obtain ⟨x', pstate, htested⟩ := img.leads_classTest hpc
  have hcalled := img.leads_el0Svc (s := { t with
    x := x'
    pstate := pstate
    pc := img.text.addr .el0Svc }) rfl
  refine ⟨_, (ht.trans htested).trans hcalled, rfl, hsp, ?_, ?_, hmem⟩
  · show Function.update (Function.update x' 0 t.sp) lr (img.text.at 27) 0 = _
    rw [Function.update_of_ne (by decide), Function.update_self, hsp]
  · show Function.update (Function.update x' 0 t.sp) lr (img.text.at 27) lr = _
    rw [Function.update_self]

/-- The exception reaches `el0_svc_handler`, and with it a system call. -/
def EntryImage.ReachesSvcHandler (img : EntryImage) (s : State) : Prop :=
  ∃ s', img.text.Leads (img.el0Sync s) s' ∧ s'.pc = img.text.addr .el0SvcHandler

/-- **Only an SVC may make a system call.**  An exception taken from EL0 keeps to that if and
only if it is an SVC, since all others reach the handler as well. -/
theorem onlySvc_iff (img : EntryImage) (s : State) :
    (img.ReachesSvcHandler s → exceptionClass s.esr = esrElxEcSvc64) ↔
      exceptionClass s.esr = esrElxEcSvc64 := by
  obtain ⟨s', hleads, hpc, -⟩ := img.leads_el0SvcHandler s
  constructor
  · intro honly
    exact honly ⟨s', hleads, hpc⟩
  · intro hclass _
    exact hclass

/-- The linker's start address, and the C functions some way behind the entry code. -/
def EntryImage.sample : EntryImage where
  base := 0x80000
  outer l :=
    match l with
    | .el0SvcHandler => 0x90000
    | .irqHandler => 0x90100
    | .preemptScheduleIrq => 0x90200
    | .schedule => 0x90300
    | _ => 0x90400
  outside l _ := by
    cases l <;> rfl

/-- A data abort of a program that has 4, the number of clone, in `x8`. -/
def State.dataAbort : State where
  x r := if r = 8 then 4 else 0
  sp := 0x401000
  pc := 0x500000
  pstate := 0
  spEl0 := 0x600000
  elr := 0
  spsr := 0
  esr := 0x92000006
  mem := fun _ => 0

/-- The data abort calls the handler, and the handler is asked for clone. -/
theorem dataAbort_requests_clone :
    ¬ (EntryImage.sample.ReachesSvcHandler State.dataAbort →
        exceptionClass State.dataAbort.esr = esrElxEcSvc64) ∧
      ∃ s', EntryImage.sample.text.Leads (EntryImage.sample.el0Sync State.dataAbort) s' ∧
        s'.pc = EntryImage.sample.text.addr .el0SvcHandler ∧
        toInt (load s'.mem (s'.x 0 + 64) 8) = nrClone := by
  obtain ⟨s', hleads, hpc, -, hx0, -, hmem⟩ :=
    EntryImage.sample.leads_el0SvcHandler State.dataAbort
  have hclass : exceptionClass State.dataAbort.esr ≠ esrElxEcSvc64 := by decide
  refine ⟨fun honly => hclass (honly ⟨s', hleads, hpc⟩), s', hleads, hpc, ?_⟩
  have hframe : Cells s'.mem (s'.x 0) (userContext State.dataAbort).words := by
    rw [hmem, hx0]
    exact cells_storeCells _ (by decide) _
  have hx8 : load s'.mem (s'.x 0 + 64) 8 = 4#64 := hframe 8 (by decide)
  rw [hx8]
  decide

end Arm64OS
