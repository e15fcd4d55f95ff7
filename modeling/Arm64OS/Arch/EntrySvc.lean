import Arm64OS.Arch.EntryEl0

/-!
# System calls, from the SVC to the `eret`

The whole way of a system call through `entry.S`: `el0_sync`, the call of `el0_svc_handler`
and `ret_to_user`.  The C function sees the frame as a `struct pt_regs`, the entry code by the
offsets of `asm-offsets.h`.  Interrupts are masked all the way, so nothing comes in between.
-/

namespace Arm64OS

open A64 ByteMem

/-- The `struct pt_regs` at an address, by the layout of the structure. -/
def ptRegsAt (m : Mem) (a : Word) : PtRegs where
  regs r := load m (a + BitVec.ofNat 64 (8 * r.val)) 8
  sp := load m (a + 248) 8
  pc := load m (a + 256) 8
  pstate := load m (a + 264) 8
  origX0 := load m (a + 272) 8
  syscallno := load m (a + 280) 4

/-- What a C function leaves as it was: it returns to `lr` with `x19` to `x29` and `sp`. -/
structure Aapcs64 (s s' : State) : Prop where
  pc : s'.pc = s.x lr
  sp : s'.sp = s.sp
  saved : ∀ r : Reg, 19 ≤ r → r ≤ 29 → s'.x r = s.x r

/-- The kernel's data when `el0_svc_handler` is called; `k` says what lies outside the frame. -/
def kernelAt (k : Kernel) (s : State) : Kernel :=
  k.storePtRegs (taskOfSp s.sp) (ptRegsAt s.mem (s.x 0))

/-- A call of `el0_svc_handler` with its frame. -/
structure SvcHandlerCall (img : Image) (outside : Int → SyscallFn) (k : Kernel) (s s' : State) :
    Prop extends Aapcs64 s s' where
  frame : ptRegsAt s'.mem (s.x 0) =
    (el0SvcHandler img outside (taskOfSp s.sp) (kernelAt k s)).2.ptRegs
      (taskPtRegs (taskOfSp s.sp))

/-- What the handler that the call asks for returns. -/
def handlerReturn (img : Image) (outside : Int → SyscallFn) (k : Kernel) (s : State) : U64 :=
  let current := taskOfSp s.sp
  let no := requestedNo current (kernelAt k s)
  (syscallTable img outside current no (storeSyscallNo current no (kernelAt k s))).1

/-! ## The handlers and the frame -/

/-- The frame of the caller's page is kept. -/
def KeepsFrame (current : U64) (fn : SyscallFn) (k : Kernel) : Prop :=
  (fn k).2.ptRegs (taskPtRegs current) = k.ptRegs (taskPtRegs current)

theorem sysClone_keepsFrame (img : Image) {current : U64} {k : Kernel}
    (hcurrent : ∀ j, j < nrPages → k.memMap j = 0#8 → current ≠ pageAddr j) :
    KeepsFrame current (sysClone img current) k := by
  obtain ⟨regs, hregs⟩ : ∃ regs, (k.ptRegs (taskPtRegs current)).regs = regs := ⟨_, rfl⟩
  unfold KeepsFrame sysClone
  rw [hregs]
  rcases doFork_cases img (regs 0) (regs 1) (regs 2) k hcurrent with
    ⟨k', hfork, -, hkept, -⟩ | ⟨j, pid, k', hj, hfree, -, -, -, -, hfork, -, hforked⟩
  · show (doFork img current (regs 0) (regs 1) (regs 2) k).2.ptRegs _ = _
    rw [hfork]
    rcases hkept with rfl | ⟨j, hj, hfree, hagree⟩
    · rfl
    · exact hagree.ptRegs current (hcurrent j hj hfree)
  · show (doFork img current (regs 0) (regs 1) (regs 2) k).2.ptRegs _ = _
    rw [hfork]
    exact hforked.otherRegs current (hcurrent j hj hfree)

theorem sysMalloc_keepsFrame (current : U64) (k : Kernel) : KeepsFrame current sysMalloc k := by
  unfold KeepsFrame sysMalloc
  by_cases haddr : (getFreePage k.memMap).1 = 0#64
  · simp [haddr]
  · simp [haddr]

theorem syscallTable_keepsFrame (img : Image) (outside : Int → SyscallFn) {current : U64} {i : Int}
    (hlow : 0 ≤ i) (hhigh : i < nrSyscalls) {k : Kernel}
    (hcurrent : ∀ j, j < nrPages → k.memMap j = 0#8 → current ≠ pageAddr j) :
    KeepsFrame current (syscallTable img outside current i) k := by
  have hclone : nrClone = 4 := rfl
  have hnr : nrSyscalls = 6 := rfl
  unfold syscallTable
  split_ifs with hearly h4 h5
  · rfl
  · exact sysClone_keepsFrame img hcurrent
  · exact sysMalloc_keepsFrame current k
  · omega

theorem storeX0_frame (current ret : U64) (k : Kernel) :
    (storeX0 current ret k).ptRegs (taskPtRegs current) =
      { k.ptRegs (taskPtRegs current) with
        regs := Function.update (k.ptRegs (taskPtRegs current)).regs 0 ret } := by
  simp [storeX0, Kernel.storePtRegs]

/-- What `el0_svc_handler` does to its frame. -/
theorem el0SvcHandler_frame (img : Image) (outside : Int → SyscallFn) {current : U64} {k : Kernel}
    {no : Int} (hno : requestedNo current k = no) (hlow : 0 ≤ no) (hhigh : no < nrSyscalls)
    (hcurrent : ∀ j, j < nrPages → k.memMap j = 0#8 → current ≠ pageAddr j) :
    (el0SvcHandler img outside current k).2.ptRegs (taskPtRegs current) =
      { k.ptRegs (taskPtRegs current) with
        regs := Function.update (k.ptRegs (taskPtRegs current)).regs 0
          (syscallTable img outside current no (storeSyscallNo current no k)).1
        origX0 := (k.ptRegs (taskPtRegs current)).regs 0
        syscallno := BitVec.ofInt 32 no } := by
  have hkept := syscallTable_keepsFrame img outside (k := storeSyscallNo current no k) hlow hhigh
    hcurrent
  have hstored : (storeSyscallNo current no k).ptRegs (taskPtRegs current) =
      { k.ptRegs (taskPtRegs current) with
        origX0 := (k.ptRegs (taskPtRegs current)).regs 0
        syscallno := BitVec.ofInt 32 no } := by
    simp [storeSyscallNo, Kernel.storePtRegs]
  rw [KeepsFrame, hstored] at hkept
  rw [el0SvcHandler, hno, el0SyscallCommon, invokeSyscall, if_pos hhigh]
  show (storeX0 current _ _).ptRegs (taskPtRegs current) = _
  rw [storeX0_frame, hkept]

/-! ## One frame, two views -/

theorem Context.words_eq_ofFn (c : Context) :
    c.words = List.ofFn c.x ++ [c.sp, c.pc, c.pstate] := rfl

/-- The offsets of the entry code are those of the structure. -/
theorem cells_words_iff {m : Mem} {a : Word} {c : Context} :
    Cells m a c.words ↔ (ptRegsAt m a).regs = c.x ∧ (ptRegsAt m a).sp = c.sp ∧
      (ptRegsAt m a).pc = c.pc ∧ (ptRegsAt m a).pstate = c.pstate := by
  have hword : ∀ r : Reg, c.words[r.val]? = some (c.x r) := by
    intro r
    rw [c.words_eq_ofFn, List.getElem?_append_left (by simp), List.getElem?_ofFn, dif_pos r.isLt]
  constructor
  · intro h
    refine ⟨?_, h 31 (by simp), h 32 (by simp), h 33 (by simp)⟩
    ext1 r
    obtain ⟨hlt, hget⟩ := List.getElem?_eq_some_iff.1 (hword r)
    exact (h r.val hlt).trans hget
  · rintro ⟨hx, hsp, hpc, hpstate⟩ i hi
    rw [c.length_words] at hi
    by_cases hreg : i < 31
    · obtain ⟨hlt, hget⟩ := List.getElem?_eq_some_iff.1 (hword ⟨i, hreg⟩)
      exact (congrFun hx ⟨i, hreg⟩).trans hget.symm
    · obtain rfl | rfl | rfl : i = 31 ∨ i = 32 ∨ i = 33 := by omega
      · exact hsp
      · exact hpc
      · exact hpstate

theorem toNat_taskPtRegs {t : Word} (haligned : t.toNat % 4096 = 0) :
    (taskPtRegs t).toNat = t.toNat + 3776 := by
  have hthread : threadSize.toNat = 4096 := rfl
  have hsize : sizeofPtRegs.toNat = 320 := rfl
  rw [taskPtRegs, BitVec.toNat_sub, BitVec.toNat_add, hthread, hsize]
  omega

theorem toNat_needResched {t : Word} (haligned : t.toNat % 4096 = 0) :
    (t + needReschedOffset).toNat = t.toNat + 144 := by
  have hlt := t.isLt
  exact toNat_add_ofNat (i := 144) (by omega)

/-- The words of a `struct pt_regs`, up to the fields that nothing uses. -/
def PtRegs.words (f : PtRegs) : List Word :=
  List.ofFn f.regs ++ [f.sp, f.pc, f.pstate, f.origX0, f.syscallno.setWidth 64]

theorem ptRegsAt_of_cells {m : Mem} {a : Word} {f : PtRegs} (h : Cells m a f.words) :
    ptRegsAt m a = f := by
  have hlength : f.words.length = 36 := rfl
  have hregs : (ptRegsAt m a).regs = f.regs := by
    ext1 r
    have hr := r.isLt
    have hload := h r.val (by omega)
    have hword : f.words[r.val]? = some (f.regs r) := by
      rw [PtRegs.words, List.getElem?_append_left (by simp), List.getElem?_ofFn, dif_pos r.isLt]
    obtain ⟨hlt, hget⟩ := List.getElem?_eq_some_iff.1 hword
    exact hload.trans hget
  have hno : (ptRegsAt m a).syscallno = f.syscallno := by
    have hword : load m (a + 280) 8 = f.syscallno.setWidth 64 := h 35 (by omega)
    show load m (a + 280) 4 = _
    rw [load_of_longer m (a + 280) (by decide : 4 ≤ 8), hword]
    ext i hi
    simp
  have hsp : (ptRegsAt m a).sp = f.sp := h 31 (by omega)
  have hpc : (ptRegsAt m a).pc = f.pc := h 32 (by omega)
  have hpstate : (ptRegsAt m a).pstate = f.pstate := h 33 (by omega)
  have horigX0 : (ptRegsAt m a).origX0 = f.origX0 := h 34 (by omega)
  calc
    ptRegsAt m a = ⟨(ptRegsAt m a).regs, (ptRegsAt m a).sp, (ptRegsAt m a).pc,
        (ptRegsAt m a).pstate, (ptRegsAt m a).origX0, (ptRegsAt m a).syscallno⟩ := rfl
    _ = f := by rw [hregs, hsp, hpc, hpstate, horigX0, hno]

/-- Such a call there is from every frame, and one that leaves `need_resched` clear. -/
theorem exists_svcHandlerCall (kimg : Image) (outside : Int → SyscallFn) (k : Kernel) {s : State}
    {current : Word} (haligned : current.toNat % 4096 = 0) (hx0 : s.x 0 = taskPtRegs current) :
    ∃ s', SvcHandlerCall kimg outside k s s' ∧
      load s'.mem (current + needReschedOffset) 4 = 0#32 := by
  have hbound := current.isLt
  have haddr := toNat_taskPtRegs haligned
  obtain ⟨f, hf⟩ : ∃ f, (el0SvcHandler kimg outside (taskOfSp s.sp) (kernelAt k s)).2.ptRegs
    (taskPtRegs (taskOfSp s.sp)) = f := ⟨_, rfl⟩
  have hlength : f.words.length = 36 := rfl
  obtain ⟨m, hm⟩ : ∃ m, store (current + needReschedOffset) 4 0#32 s.mem = m := ⟨_, rfl⟩
  have hcells : Cells (storeCells (taskPtRegs current) 0 f.words m) (taskPtRegs current) f.words :=
    cells_storeCells _ (by omega) _
  refine ⟨{ s with pc := s.x lr, mem := storeCells (taskPtRegs current) 0 f.words m },
    ⟨⟨rfl, rfl, fun _ _ _ => rfl⟩, ?_⟩, ?_⟩
  · rw [hf, hx0]
    exact ptRegsAt_of_cells hcells
  · have hfield := toNat_needResched haligned
    have hsame : SameOn 0 (current.toNat + 3776) m
        (storeCells (taskPtRegs current) 0 f.words m) :=
      sameOn_storeCells _ (by omega) (by omega) _
    show load (storeCells (taskPtRegs current) 0 f.words m) (current + needReschedOffset) 4 = _
    rw [hsame.load (by omega) (by omega) (by omega), ← hm]
    exact load_store_self _ 4 (by decide) 0#32 s.mem

/-! ## The way back -/

/-- `ret_to_user` for a task that need not be rescheduled. -/
theorem EntryImage.leads_retToUser (img : EntryImage) {s : State} {c : Context}
    (hpc : s.pc = img.text.addr .retToUser)
    (hclear : load s.mem (taskOfSp s.sp + needReschedOffset) 4 = 0#32)
    (hframe : Cells s.mem s.sp c.words) :
    ∃ t u, img.text.Leads s t ∧ t.pc = img.text.at 137 ∧ img.text.step t = some u ∧
      u.x = c.x ∧ u.sp = s.sp + sFrameSize ∧ u.pc = c.pc ∧ u.pstate = c.pstate ∧
      u.spEl0 = c.sp := by
  have hblock : img.text.CodeAt 107 retToUserBlock := img.codeAt (i := 6) rfl
  have hrestore : img.text.CodeAt 115 noWorkPendingBlock := img.codeAt (i := 7) rfl
  have hmasked := img.text.leads_one img.fits hblock rfl hpc
  have hnext : s.pc + 4 = img.text.at 108 := by
    rw [hpc, Program.at_succ]
    rfl
  obtain ⟨x, -, htsk, hloaded⟩ := img.leads_loadTsk (s := A64.execInstr img.text.addr .maskIrq s)
    hblock.tail.append.1 hnext
  obtain ⟨t, ht, htx, htsp, htpc, htmem⟩ : ∃ t, img.text.Leads s t ∧ t.x = x ∧ t.sp = s.sp ∧
      t.pc = img.text.at 113 ∧ t.mem = s.mem := ⟨_, hmasked.trans hloaded, rfl, rfl, rfl, rfl⟩
  have hbranch : img.text.CodeAt 113 [.ldrW 24 (.x tsk) needReschedOffset, .cbnzW 24 .needSched] :=
    hblock.tail.append.2
  have hread := img.text.leads_one img.fits hbranch rfl htpc
  obtain ⟨u, hu⟩ : ∃ u, A64.execInstr img.text.addr (.ldrW 24 (.x tsk) needReschedOffset) t = u :=
    ⟨_, rfl⟩
  rw [hu] at hread
  have hupc : u.pc = img.text.at 114 := by
    rw [← hu, Program.at_succ, ← htpc]
    rfl
  have htested := img.text.leads_one img.fits hbranch.tail rfl hupc
  -- `w24` is clear, so that `cbnz` falls through to `no_work_pending`
  have hzero : (u.x 24).setWidth 32 = 0#32 := by
    have hword : u.x 24 = (load t.mem (t.x tsk + needReschedOffset) 4).setWidth 64 := by
      rw [← hu]
      show Function.update t.x 24 ((load t.mem (t.x tsk + needReschedOffset) 4).setWidth 64) 24 = _
      rw [Function.update_self]
    rw [hword, htx, htsk, htmem]
    show ((load s.mem (taskOfSp s.sp + needReschedOffset) 4).setWidth 64).setWidth 32 = _
    rw [hclear]
    rfl
  have heffect : A64.execInstr img.text.addr (.cbnzW 24 .needSched) u =
      u.setPc (img.text.at 115) := by
    rw [Program.at_succ, ← hupc]
    exact if_pos hzero
  rw [heffect] at htested
  have hmem : (u.setPc (img.text.at 115)).mem = s.mem := by
    rw [← htmem, ← hu]
    rfl
  have hsp : (u.setPc (img.text.at 115)).sp = s.sp := by
    rw [← htsp, ← hu]
    rfl
  have hframe' : Cells (u.setPc (img.text.at 115)).mem (u.setPc (img.text.at 115)).sp c.words := by
    rw [hmem, hsp]
    exact hframe
  have hcode : img.text.CodeAt 115 (contextRestore 0) := hrestore.append.1
  have hstart : (u.setPc (img.text.at 115)).pc = img.text.at 115 := rfl
  have hrestored := img.leads_contextRestore 0 hcode hstart hframe'
  have hlength : (contextRestore 0).length = 22 := rfl
  rw [hlength] at hrestored
  obtain ⟨v, hv, hvpc, hvx, hvsp, helr, hspsr, hspEl0⟩ : ∃ v,
      img.text.Leads (u.setPc (img.text.at 115)) v ∧ v.pc = img.text.at 137 ∧ v.x = c.x ∧
      v.sp = s.sp + sFrameSize ∧ v.elr = c.pc ∧ v.spsr = c.pstate ∧ v.spEl0 = c.sp :=
    ⟨_, hrestored, rfl, rfl, congrArg (· + sFrameSize) hsp, rfl, rfl, rfl⟩
  have heret : img.text.CodeAt (115 + 22) [.eret] := hlength ▸ hrestore.append.2
  exact ⟨v, _, ((ht.trans hread).trans htested).trans hv, hvpc,
    img.text.step_at img.fits heret hvpc, hvx, hvsp, helr, hspsr, hspEl0⟩

/-- **A system call gives the program its registers back.**  Let the program's task be
`current`, with an empty kernel stack, and let `x8` name a system call.  The exception leads to
a call of `el0_svc_handler`, and whatever that call does within the rules of its ABI, if
`need_resched` is clear behind it then the way leads to the `eret` of `ret_to_user`, which
restores `x1` to `x30`, `PC`, `PSTATE` and `SP_EL0`, with the handler's value in `x0`. -/
theorem svc_returns (img : EntryImage) (kimg : Image) (outside : Int → SyscallFn) {k : Kernel}
    {s : State} {current : Word} (haligned : current.toNat % 4096 = 0)
    (hstack : s.sp = current + 4096)
    (hcurrent : ∀ j, j < nrPages → k.memMap j = 0#8 → current ≠ pageAddr j)
    (hlow : 0 ≤ toInt (s.x 8)) (hhigh : toInt (s.x 8) < nrSyscalls) :
    ∃ s₁, img.text.Leads (img.el0Sync s) s₁ ∧ s₁.pc = img.text.addr .el0SvcHandler ∧
      s₁.sp = taskPtRegs current ∧ s₁.x 0 = taskPtRegs current ∧
      ∀ s₂, SvcHandlerCall kimg outside k s₁ s₂ →
        load s₂.mem (current + needReschedOffset) 4 = 0#32 →
        ∃ s₃ s₄, img.text.Leads s₂ s₃ ∧ s₃.pc = img.text.at 137 ∧ img.text.step s₃ = some s₄ ∧
          s₄.x = Function.update s.x 0 (handlerReturn kimg outside k s₁) ∧ s₄.pc = s.pc ∧
          s₄.pstate = s.pstate ∧ s₄.spEl0 = s.spEl0 ∧ s₄.sp = s.sp := by
  have hbound := current.isLt
  obtain ⟨s₁, hentry, hcall, hsp, hx0, hlr, hmem⟩ := img.leads_el0SvcHandler s
  have hframe_eq : s.sp - sFrameSize = taskPtRegs current := by rw [hstack]; rfl
  have haddr := toNat_taskPtRegs haligned
  have htask : taskOfSp (taskPtRegs current) = current :=
    taskOfSp_eq haligned (by omega) (by omega)
  rw [hframe_eq] at hsp hx0 hmem
  refine ⟨s₁, hentry, hcall, hsp, hx0, fun s₂ hhandler hclear => ?_⟩
  -- the frame as `el0_svc_handler` finds it
  have hview : (ptRegsAt s₁.mem (s₁.x 0)).regs = s.x ∧ (ptRegsAt s₁.mem (s₁.x 0)).sp = s.spEl0 ∧
      (ptRegsAt s₁.mem (s₁.x 0)).pc = s.pc ∧ (ptRegsAt s₁.mem (s₁.x 0)).pstate = s.pstate := by
    have hcells : Cells s₁.mem (s₁.x 0) (userContext s).words := by
      rw [hmem, hx0]
      exact cells_storeCells _ (by rw [haddr, Context.length_words]; omega) _
    exact cells_words_iff.1 hcells
  obtain ⟨hregs, hspEl0, hpc, hpstate⟩ := hview
  have hdata : (kernelAt k s₁).ptRegs (taskPtRegs current) = ptRegsAt s₁.mem (s₁.x 0) := by
    simp [kernelAt, Kernel.storePtRegs, hsp, htask]
  have hno : requestedNo current (kernelAt k s₁) = toInt (s.x 8) := by
    rw [requestedNo, hdata, hregs]
  -- the frame as it leaves it
  obtain ⟨c, hc⟩ : ∃ c : Context, { userContext s with
    x := Function.update s.x 0 (handlerReturn kimg outside k s₁) } = c := ⟨_, rfl⟩
  have hframe : Cells s₂.mem (taskPtRegs current) c.words := by
    have hresult := hhandler.frame
    rw [hsp, htask, el0SvcHandler_frame kimg outside hno hlow hhigh hcurrent, hdata, hx0] at hresult
    have hret : handlerReturn kimg outside k s₁ = (syscallTable kimg outside current
        (toInt (s.x 8)) (storeSyscallNo current (toInt (s.x 8)) (kernelAt k s₁))).1 := by
      rw [handlerReturn, hsp, htask, hno]
    rw [cells_words_iff, hresult, ← hc, hret]
    rw [hx0] at hregs hspEl0 hpc hpstate
    exact ⟨by rw [← hregs], hspEl0, hpc, hpstate⟩
  -- `b ret_to_user`, and the way out
  have hblock : img.text.CodeAt 25 el0SvcBlock := img.codeAt (i := 1) rfl
  have hreturned : s₂.pc = img.text.at 27 := hhandler.pc.trans hlr
  have hbranched := img.text.leads_one img.fits hblock.tail.tail rfl hreturned
  obtain ⟨r, hr, hrpc, hrsp, hrmem⟩ : ∃ r, img.text.Leads s₂ r ∧
      r.pc = img.text.addr .retToUser ∧ r.sp = taskPtRegs current ∧ r.mem = s₂.mem :=
    ⟨_, hbranched, rfl, hhandler.sp.trans hsp, rfl⟩
  rw [← hrmem] at hclear hframe
  rw [← hrsp] at hframe htask
  rw [← htask] at hclear
  obtain ⟨t, u, ht, htpc, hstep, hux, husp, hupc, hupstate, huspEl0⟩ :=
    img.leads_retToUser hrpc hclear hframe
  rw [← hc] at hux hupc hupstate huspEl0
  refine ⟨t, u, hr.trans ht, htpc, hstep, hux, hupc, hupstate, huspEl0, ?_⟩
  rw [husp, hrsp, ← hframe_eq, BitVec.sub_add_cancel]

/-- A program that makes system call 0. -/
def State.openCall : State where
  x r := if r = 8 then 0 else 1
  sp := 0x91000
  pc := 0x500000
  pstate := 0
  spEl0 := 0x600000
  elr := 0
  spsr := 0
  esr := 0x56000000
  mem := fun _ => 0

theorem svc_returns_open :
    ∃ s₁ s₂ s₃ s₄, EntryImage.sample.text.Leads (EntryImage.sample.el0Sync State.openCall) s₁ ∧
      SvcHandlerCall Image.sample (fun _ k => (0, k)) Kernel.blank s₁ s₂ ∧
      EntryImage.sample.text.Leads s₂ s₃ ∧ EntryImage.sample.text.step s₃ = some s₄ ∧
      s₄.x = Function.update State.openCall.x 0
        (handlerReturn Image.sample (fun _ k => (0, k)) Kernel.blank s₁) ∧
      s₄.pc = 0x500000 := by
  have haligned : (0x90000 : Word).toNat % 4096 = 0 := by decide
  obtain ⟨s₁, hentry, -, -, hx0, hback⟩ := svc_returns EntryImage.sample Image.sample
    (fun _ k => (0, k)) (k := Kernel.blank) (s := State.openCall) haligned rfl
    (fun j hj _ => (pageAddr_ne_initTask Image.sample hj).symm) (by decide) (by decide)
  obtain ⟨s₂, hcall, hclear⟩ :=
    exists_svcHandlerCall Image.sample (fun _ k => (0, k)) Kernel.blank haligned hx0
  obtain ⟨s₃, s₄, hreturn, -, hstep, hx, hpc, -⟩ := hback s₂ hcall hclear
  exact ⟨s₁, s₂, s₃, s₄, hentry, hcall, hreturn, hstep, hx, hpc⟩

end Arm64OS
