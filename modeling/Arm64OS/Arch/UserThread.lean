import Arm64OS.Arch.RetFromFork
import Arm64OS.Kernel.UserSpace

/-!
# From a kernel thread to EL0

`user_thread` of `init/main.c` is a kernel thread that calls `move_to_user_space` and returns.
Behind the return is `ret_to_user`, which takes the registers from the frame at the top of the
thread's page, whoever wrote it: `move_to_user_space`, or else `copy_thread` when the thread was
made.  `user_thread_run` says where both ways lead.
-/

namespace Arm64OS

open A64 ByteMem

/-! ## `ret_to_user`, with or without a call of `schedule` -/

/-- The way from `s` leads to an `eret` that gives back `c`, with an empty kernel stack. -/
def Restores (eimg : EntryImage) (c : Context) (s : State) : Prop :=
  ∃ v, Erets eimg s v ∧ v.x = c.x ∧ v.pc = c.pc ∧ v.pstate = c.pstate ∧ v.spEl0 = c.sp ∧
    v.sp = s.sp + sFrameSize

/-- A call of `schedule`, which comes back when the task is picked again: what lies above the
stack pointer in the task's page is as it was. -/
structure ScheduleCall (s r : State) : Prop extends Aapcs64 s r where
  stack : SameOn s.sp.toNat ((taskOfSp s.sp).toNat + 4096) s.mem r.mem

/-- `ret_to_user` gives back `c`, after other tasks have run or at once. -/
def ReturnsWith (eimg : EntryImage) (c : Context) (s : State) : Prop :=
  Restores eimg c s ∨
    ∃ t, eimg.text.Leads s t ∧ t.pc = eimg.text.addr .schedule ∧ t.sp = s.sp ∧
      ∀ r, ScheduleCall t r → Restores eimg c r

variable {eimg : EntryImage} {s t : State} {c : Context} {p : Word}

theorem Restores.of_leads (h : eimg.Passes s t) (hrest : Restores eimg c t) :
    Restores eimg c s := by
  obtain ⟨v, ⟨u, hleads, hfetch, hstep⟩, hx, hpc, hpstate, hspEl0, hsp⟩ := hrest
  exact ⟨v, ⟨u, h.1.trans hleads, hfetch, hstep⟩, hx, hpc, hpstate, hspEl0, h.2.1 ▸ hsp⟩

theorem ReturnsWith.of_leads (h : eimg.Passes s t) (hrest : ReturnsWith eimg c t) :
    ReturnsWith eimg c s := by
  rcases hrest with hrest | ⟨u, hleads, hpc, hsp, hback⟩
  · exact Or.inl (hrest.of_leads h)
  · exact Or.inr ⟨u, h.1.trans hleads, hpc, hsp.trans h.2.1, hback⟩

/-- `no_work_pending`. -/
theorem EntryImage.restores (eimg : EntryImage) (hpc : s.pc = eimg.text.at 115)
    (hframe : Cells s.mem s.sp c.words) : Restores eimg c s := by
  have hblock : eimg.text.CodeAt 115 noWorkPendingBlock := eimg.codeAt (i := 7) rfl
  have hcode : eimg.text.CodeAt 115 (contextRestore 0) := hblock.append.1
  have heret : eimg.text.CodeAt 137 [.eret] := hblock.append.2
  have hrestored := eimg.leads_contextRestore 0 hcode hpc hframe
  obtain ⟨t, ht, htpc, htx, htsp, helr, hspsr, hspEl0⟩ : ∃ t, eimg.text.Leads s t ∧
      t.pc = eimg.text.at 137 ∧ t.x = c.x ∧ t.sp = s.sp + sFrameSize ∧ t.elr = c.pc ∧
      t.spsr = c.pstate ∧ t.spEl0 = c.sp := ⟨_, hrestored, rfl, rfl, rfl, rfl, rfl, rfl⟩
  have hfetch : eimg.text.fetch t.pc = some .eret := by
    rw [htpc]
    exact heret.fetch eimg.fits
  have hstep := eimg.text.step_at eimg.fits heret htpc
  exact ⟨_, ⟨t, ht, hfetch, hstep⟩, htx, helr, hspsr, hspEl0, htsp⟩

/-- `need_sched`: `schedule` returns to the branch back. -/
theorem EntryImage.returnsWith_needSched (eimg : EntryImage)
    (hpc : s.pc = eimg.text.addr .needSched) (haligned : p.toNat % 4096 = 0)
    (hsp : s.sp = taskPtRegs p) (hframe : Cells s.mem s.sp c.words) : ReturnsWith eimg c s := by
  have hblock : eimg.text.CodeAt 138 needSchedBlock := eimg.codeAt (i := 8) rfl
  have hcalled := eimg.text.leads_one eimg.fits hblock rfl hpc
  have hnext : s.pc + 4 = eimg.text.at 139 := by
    rw [hpc, Program.at_succ]
    rfl
  obtain ⟨t, ht, htpc, htsp, htlr, htmem⟩ : ∃ t, eimg.text.Leads s t ∧
      t.pc = eimg.text.addr .schedule ∧ t.sp = s.sp ∧ t.x lr = eimg.text.at 139 ∧
      t.mem = s.mem := by
    refine ⟨_, hcalled, rfl, rfl, ?_, rfl⟩
    show Function.update s.x lr (s.pc + 4) lr = _
    rw [Function.update_self, hnext]
  refine Or.inr ⟨t, ht, htpc, htsp, fun r hcall => ?_⟩
  -- the frame lies above the stack pointer
  have hbound := p.isLt
  have haddr := toNat_taskPtRegs haligned
  have htask : taskOfSp (taskPtRegs p) = p := taskOfSp_eq haligned (by omega) (by omega)
  have hstack := hcall.stack
  rw [htsp, hsp, htask, htmem] at hstack
  rw [hsp] at hframe
  have hkept : Cells r.mem (taskPtRegs p) c.words :=
    hframe.sameOn hstack (by rw [Context.length_words]; omega) le_rfl
      (by rw [Context.length_words]; omega)
  have hrsp : r.sp = taskPtRegs p := (hcall.sp.trans htsp).trans hsp
  have hbranched := eimg.text.leads_one eimg.fits hblock.tail rfl (hcall.pc.trans htlr)
  have heffect : A64.execInstr eimg.text.addr (.b .noWorkPending) r =
      r.setPc (eimg.text.addr .noWorkPending) := rfl
  rw [heffect] at hbranched
  refine Restores.of_leads ⟨hbranched, State.setPc_sp .., State.setPc_mem ..⟩
    (eimg.restores (State.setPc_pc ..) ?_)
  rw [State.setPc_mem, State.setPc_sp, hrsp]
  exact hkept

/-- `ret_to_user`, whatever `need_resched` is. -/
theorem EntryImage.returnsWith_retToUser (eimg : EntryImage)
    (hpc : s.pc = eimg.text.addr .retToUser) (haligned : p.toNat % 4096 = 0)
    (hsp : s.sp = taskPtRegs p) (hframe : Cells s.mem s.sp c.words) : ReturnsWith eimg c s := by
  have hblock : eimg.text.CodeAt 107 retToUserBlock := eimg.codeAt (i := 6) rfl
  have hbranch : eimg.text.CodeAt 113 [.ldrW 24 (.x tsk) needReschedOffset, .cbnzW 24 .needSched] :=
    hblock.tail.append.2
  have hmasked := eimg.text.leads_one eimg.fits hblock rfl hpc
  have hnext : s.pc + 4 = eimg.text.at 108 := by
    rw [hpc, Program.at_succ]
    rfl
  have h₁ : eimg.Passes s (A64.execInstr eimg.text.addr .maskIrq s) := ⟨hmasked, rfl, rfl⟩
  obtain ⟨s₂, h₂, hpc₂, -⟩ := eimg.passes_loadTsk
    (s := A64.execInstr eimg.text.addr .maskIrq s) hblock.tail.append.1 hnext
  obtain ⟨s₃, h₃, hpc₃, -⟩ := eimg.passes_ldrW hbranch hpc₂
  obtain ⟨s₄, h₄, -, hpc₄⟩ := eimg.passes_cbnzW hbranch.tail hpc₃
  have hway := ((h₁.trans h₂).trans h₃).trans h₄
  have hframe₄ : Cells s₄.mem s₄.sp c.words := by
    rw [hway.2.1, hway.2.2]
    exact hframe
  rcases hpc₄ with ⟨-, hneed⟩ | ⟨-, hdone⟩
  · exact (eimg.returnsWith_needSched hneed haligned (hway.2.1.trans hsp) hframe₄).of_leads hway
  · exact Or.inl ((eimg.restores hdone hframe₄).of_leads hway)

/-! ## The thread -/

/-- `user_thread`, run by the task `current`; its messages are left out. -/
def userThread (current runUserThread : U64) (k : Kernel) : Int × Kernel :=
  (0, (moveToUserSpace current runUserThread k).2)

/-- A call of `user_thread` by the task `p`; `k` says what lies outside the frame. -/
structure UserThreadCall (p runUserThread : U64) (k : Kernel) (u w : State) : Prop
    extends Aapcs64 u w where
  frame : ptRegsAt w.mem (taskPtRegs p) =
    (userThread p runUserThread (k.storePtRegs p (ptRegsAt u.mem (taskPtRegs p)))).2.ptRegs
      (taskPtRegs p)

/-- What `start_user_thread` asks for. -/
def userEntry (pc sp : Word) : Context := ⟨fun _ => 0, sp, pc, psrModeEL0t⟩

/-- What `copy_thread` asks for, for a kernel thread: address 0, at EL1. -/
def kthreadEntry : Context := ⟨fun _ => 0, 0, 0, psrModeEL1h⟩

theorem cells_of_ptRegsAt {m : Mem} {a : Word} {f : PtRegs} (hframe : ptRegsAt m a = f)
    (hregs : f.regs = c.x) (hsp : f.sp = c.sp) (hpc : f.pc = c.pc) (hpstate : f.pstate = c.pstate) :
    Cells m a c.words := by
  rw [cells_words_iff, hframe]
  exact ⟨hregs, hsp, hpc, hpstate⟩

/-- The frame behind the call. -/
theorem UserThreadCall.cells {runUserThread : U64} {k : Kernel} {u w : State}
    (h : UserThreadCall p runUserThread k u w)
    (hframe : ptRegsAt u.mem (taskPtRegs p) = { PtRegs.zero with pstate := psrModeEL1h }) :
    (∃ j, j < nrPages ∧ k.memMap j = 0#8 ∧
        Cells w.mem (taskPtRegs p) (userEntry runUserThread (pageAddr j + pageSize)).words) ∨
      ((∀ j, j < nrPages → k.memMap j ≠ 0#8) ∧
        Cells w.mem (taskPtRegs p) kthreadEntry.words) := by
  have hresult := h.frame
  rcases moveToUserSpace_cases p runUserThread
    (k.storePtRegs p (ptRegsAt u.mem (taskPtRegs p))) with
    ⟨j, hj, hfree, k', hmoved, -, hregs⟩ | ⟨hfull, hmoved⟩
  · rw [userThread, hmoved, hregs] at hresult
    exact Or.inl ⟨j, hj, hfree, cells_of_ptRegsAt hresult rfl rfl rfl rfl⟩
  · rw [userThread, hmoved, hframe] at hresult
    refine Or.inr ⟨hfull, cells_of_ptRegsAt hresult ?_ ?_ ?_ ?_⟩
    all_goals simp [Kernel.storePtRegs, PtRegs.zero, kthreadEntry]

/-- `blr x19` in `ret_from_fork`, and the branch behind it. -/
theorem EntryImage.leads_blr (eimg : EntryImage) {r : State} (hpc : r.pc = eimg.text.at 141)
    (hx19 : r.x 19 ≠ 0) :
    ∃ u, CallsX19 eimg r u ∧ u.pc = r.x 19 ∧ u.x 0 = r.x 20 ∧ u.x lr = eimg.text.at 144 ∧
      u.sp = r.sp ∧ u.pstate = r.pstate ∧ u.mem = r.mem := by
  have hblock : eimg.text.CodeAt 140 retFromForkBlock := eimg.codeAt (i := 9) rfl
  have htested := eimg.text.leads_one eimg.fits hblock.tail rfl hpc
  have heffect : A64.execInstr eimg.text.addr (.cbz 19 .retFromForkOut) r =
      r.setPc (eimg.text.at 142) := by
    rw [Program.at_succ, ← hpc]
    exact if_neg hx19
  rw [heffect] at htested
  have hmoved := eimg.text.leads_one eimg.fits hblock.tail.tail rfl
    (rfl : (r.setPc (eimg.text.at 142)).pc = _)
  have hmove : A64.execInstr eimg.text.addr (.mov (.x 0) (.x 20)) (r.setPc (eimg.text.at 142)) =
      { r with x := Function.update r.x 0 (r.x 20), pc := eimg.text.at 143 } := by
    rw [Program.at_succ _ 142]
    simp only [A64.execInstr, State.get, State.set, State.setX, State.setPc]
  rw [hmove] at hmoved
  have hcall : eimg.text.CodeAt 143 [.blr 19] := hblock.tail.tail.tail
  have hstep := eimg.text.step_at eimg.fits hcall
    (rfl : State.pc { r with x := Function.update r.x 0 (r.x 20), pc := eimg.text.at 143 } = _)
  refine ⟨_, ⟨_, htested.trans hmoved, hcall.fetch eimg.fits, hstep⟩, rfl, rfl, ?_, rfl, rfl, rfl⟩
  show Function.update (Function.update r.x 0 (r.x 20)) lr (eimg.text.at 143 + 4) lr = _
  rw [Function.update_self, ← Program.at_succ]

/-- Behind the call, `ret_from_fork` goes to `ret_to_user`. -/
theorem EntryImage.returnsWith_retFromFork (eimg : EntryImage) (hpc : s.pc = eimg.text.at 144)
    (haligned : p.toNat % 4096 = 0) (hsp : s.sp = taskPtRegs p)
    (hframe : Cells s.mem (taskPtRegs p) c.words) : ReturnsWith eimg c s := by
  have hout : eimg.text.CodeAt 144 retFromForkOutBlock := eimg.codeAt (i := 10) rfl
  have hbranched := eimg.text.leads_one eimg.fits hout rfl hpc
  have heffect : A64.execInstr eimg.text.addr (.b .retToUser) s =
      s.setPc (eimg.text.addr .retToUser) := rfl
  rw [heffect] at hbranched
  refine ReturnsWith.of_leads ⟨hbranched, State.setPc_sp .., State.setPc_mem ..⟩
    (eimg.returnsWith_retToUser (State.setPc_pc ..) haligned ?_ ?_)
  · rw [State.setPc_sp, hsp]
  · rw [State.setPc_mem, State.setPc_sp, hsp]
    exact hframe

/-- From the return of `schedule_tail` on. -/
theorem AtScheduleTail.userThread {kimg : Image} {cloneFlags fn arg : U64} {parent : PtRegs}
    {k : Kernel} {b r : State}
    (h : AtScheduleTail eimg (childContext kimg p cloneFlags fn arg) p k b)
    (haligned : p.toNat % 4096 = 0) (hrun : FirstRun kimg p cloneFlags fn arg parent k)
    (hkthread : cloneFlags &&& pfKthread ≠ 0#64) (hfn : fn ≠ 0) (hcall : ScheduleTailCall b r) :
    ∃ u, CallsX19 eimg r u ∧ u.pc = fn ∧ u.x 0 = arg ∧ u.sp = taskPtRegs p ∧
      ∀ runUserThread k' w, UserThreadCall p runUserThread k' u w →
        (∃ j, j < nrPages ∧ k'.memMap j = 0#8 ∧
            ReturnsWith eimg (userEntry runUserThread (pageAddr j + pageSize)) w) ∨
          ((∀ j, j < nrPages → k'.memMap j ≠ 0#8) ∧ ReturnsWith eimg kthreadEntry w) := by
  obtain ⟨hpc, hx19, hx20, hsp, -, -, hframe⟩ := h.behind haligned hrun.needResched hcall
  have hfn' : r.x 19 = fn := by simpa [childContext, hkthread] using hx19
  have harg : r.x 20 = arg := by simpa [childContext, hkthread] using hx20
  obtain ⟨u, hcalls, hupc, hux, hulr, husp, -, humem⟩ :=
    eimg.leads_blr hpc (by rw [hfn']; exact hfn)
  have hkframe : ptRegsAt u.mem (taskPtRegs p) = { PtRegs.zero with pstate := psrModeEL1h } := by
    rw [humem, hframe, hrun.frame, childFrame, if_pos hkthread]
  refine ⟨u, hcalls, hupc.trans hfn', hux.trans harg, husp.trans hsp,
    fun runUserThread k' w hthread => ?_⟩
  have hwpc : w.pc = eimg.text.at 144 := hthread.pc.trans hulr
  have hwsp : w.sp = taskPtRegs p := (hthread.sp.trans husp).trans hsp
  rcases hthread.cells hkframe with ⟨j, hj, hfree, hcells⟩ | ⟨hfull, hcells⟩
  · exact Or.inl ⟨j, hj, hfree, eimg.returnsWith_retFromFork hwpc haligned hwsp hcells⟩
  · exact Or.inr ⟨hfull, eimg.returnsWith_retFromFork hwpc haligned hwsp hcells⟩

/-- **A user thread.**  Let `kernel_thread` make the task `p`, let anything run until `p` is picked
for the first time, and let its function be `user_thread`.  If `move_to_user_space` finds a free
page, then behind `user_thread` the way leads, at once or when other tasks have run, to an `eret`
into `run_user_thread` at EL0, with clear registers and the page as its stack.  If there is none,
it leads to an `eret` to address 0 at EL1. -/
theorem user_thread_run (eimg : EntryImage) {kimg : Image} {fuel : Nat} {k₀ : Kernel}
    {s s₁ s₂ s₃ : Sys} {caller garbage flags fn arg : U64}
    (hret : kimg.retFromFork = eimg.text.addr .retFromFork) (hfuel : nrTasks ≤ fuel)
    (hs : Relation.ReflTransGen (TaskStep kimg fuel) (Sys.boot kimg k₀) s)
    (hfork : sysStep kimg fuel (.doFork caller (flags ||| pfKthread) fn arg) s = some s₁)
    (hfn : fn ≠ 0) (hchild : s₁.forked = s.forked ++ [p])
    (hsteps : Relation.ReflTransGen (TaskStep kimg fuel) s₁ s₂) (hfresh : p ∈ s₂.fresh)
    (hpick : sysStep kimg fuel (.schedule garbage) s₂ = some s₃) (hfirst : s₃.current = p)
    {c : State} (hpc : c.pc = eimg.text.addr .cpuSwitchTo) (hprev : c.x 0 = s₂.current)
    (hnext : c.x 1 = s₃.current) (hpage : TaskPage c.mem p s₃.k) :
    ∃ e b, SwitchReturns eimg c e ∧ eimg.text.Leads e b ∧
      b.pc = eimg.text.addr .scheduleTail ∧ ∀ r, ScheduleTailCall b r →
        ∃ u, CallsX19 eimg r u ∧ u.pc = fn ∧ u.x 0 = arg ∧ u.sp = taskPtRegs p ∧
          ∀ runUserThread k w, UserThreadCall p runUserThread k u w →
            (∃ j, j < nrPages ∧ k.memMap j = 0#8 ∧
                ReturnsWith eimg (userEntry runUserThread (pageAddr j + pageSize)) w) ∨
              ((∀ j, j < nrPages → k.memMap j ≠ 0#8) ∧ ReturnsWith eimg kthreadEntry w) := by
  have hkthread : (flags ||| pfKthread) &&& pfKthread ≠ 0#64 := by
    intro hzero
    have hbit := congrArg (·.getLsbD 0) hzero
    simp [pfKthread] at hbit
  -- what `do_fork` wrote for the task is still there
  have hinv := FreshTasks.run hfuel hs
  have hforked : p ∈ s₁.forked := by
    rw [hchild]
    exact List.mem_append_right _ (List.mem_singleton_self p)
  have hrun := hinv.firstRun_doFork hfork hchild
  have hinv₁ := hinv.step hfuel (.call _ hfork)
  obtain ⟨hinv₂, hforked₂, hkept⟩ := hinv₁.firstRun_run hfuel hforked hrun hsteps
  have hrun₃ := hinv₂.firstRun_step hfuel (.call _ hpick) hfresh (hkept hfresh)
  have hne : s₂.current ≠ p := fun heq => hinv₂.current (heq ▸ hfresh)
  obtain ⟨haligned, -, -⟩ := hinv₂.consistent.page_toNat hforked₂
  obtain ⟨hfits, happart⟩ := hinv₂.consistent.page_apart hforked₂ hinv₂.consistent.current hne
  rw [← hprev] at hfits happart
  obtain ⟨e, b, he, hb, -, hcalls⟩ := eimg.leads_firstRun hret haligned hfits happart hpc
    (hnext.trans hfirst) hpage hrun₃
  exact ⟨e, b, he, hb, hcalls.pc, fun r hcall =>
    hcalls.userThread haligned hrun₃ hkthread hfn hcall⟩

/-! ## Such a thread -/

/-- There is such a call. -/
theorem exists_userThreadCall (haligned : p.toNat % 4096 = 0) (runUserThread : U64) (k : Kernel)
    (u : State) : ∃ w, UserThreadCall p runUserThread k u w := by
  obtain ⟨f, hf⟩ : ∃ f, (userThread p runUserThread
    (k.storePtRegs p (ptRegsAt u.mem (taskPtRegs p)))).2.ptRegs (taskPtRegs p) = f := ⟨_, rfl⟩
  have hbound := p.isLt
  have haddr := toNat_taskPtRegs haligned
  have hlength : f.words.length = 36 := rfl
  refine ⟨{ u with pc := u.x lr, mem := storeCells (taskPtRegs p) 0 f.words u.mem },
    ⟨rfl, rfl, fun _ _ _ => rfl⟩, ?_⟩
  rw [hf]
  exact ptRegsAt_of_cells (cells_storeCells _ (by omega) _)

/-- `init_task` makes a kernel thread, which is picked next. -/
theorem user_thread_run_first :
    ∃ p e b u w j, EntryImage.sample.text.Leads e b ∧
      CallsX19 EntryImage.sample (scheduleTail b) u ∧ u.pc = 0x82000 ∧
      UserThreadCall p 0x83000 Kernel.blank u w ∧
      ReturnsWith EntryImage.sample (userEntry 0x83000 (pageAddr j + pageSize)) w := by
  obtain ⟨s₁, s₃, p, c, hfork, hforked, hfresh, hpick, hfirst, hpc, hprev, hnext, -, hpage⟩ :=
    exists_first_switch EntryImage.sample (Image.withEntry EntryImage.sample) 0
      (by decide : ¬ StackRefused (0 ||| pfKthread) 0x82000)
  obtain ⟨e, b, -, hb, -, hbehind⟩ := user_thread_run EntryImage.sample rfl le_rfl .refl hfork
    (by decide) hforked .refl hfresh hpick hfirst hpc hprev hnext hpage
  obtain ⟨u, hu, hupc, -, -, hreturns⟩ := hbehind _ (scheduleTailCall_scheduleTail b)
  have haligned : p.toNat % 4096 = 0 :=
    (((FreshTasks.boot _ _).step le_rfl (.call _ hfork)).consistent.page_toNat
      (by simp [hforked])).1
  obtain ⟨w, hw⟩ := exists_userThreadCall haligned 0x83000 Kernel.blank u
  rcases hreturns _ _ w hw with ⟨j, -, -, hfinds⟩ | ⟨hfull, -⟩
  · exact ⟨p, e, b, u, w, j, hb, hu, hupc, hw, hfinds⟩
  · exact absurd rfl (hfull 0 (by decide))

end Arm64OS
