import Arm64OS.Arch.SwitchRun
import Arm64OS.Kernel.SchedRun

/-!
# The first moments of a task

`do_fork` writes the frame and the `cpu_context` of a new task with the structures of C; when
the task is picked for the first time, `cpu_switch_to`, `ret_from_fork` and `ret_to_user` read
them by the offsets of the entry code.  In between other tasks run, for as long as they like,
and none of them touches what lies in the page of the new one.
-/

namespace Arm64OS

open A64 ByteMem

/-! ## From the fork to the first run -/

/-- Between two moments of the kernel: a call, an exception of the running task, which fills
the frame at the top of its page, or other code that takes pages. -/
inductive TaskStep (img : Image) (fuel : Nat) (s : Sys) : Sys → Prop
  | call {s' : Sys} (op : SysOp) (hstep : sysStep img fuel op s = some s') : TaskStep img fuel s s'
  | frame (frame : PtRegs) : TaskStep img fuel s { s with k := s.k.storePtRegs s.current frame }
  | pages (memMap : PageMap) (hkept : ∀ j, s.k.memMap j ≠ 0#8 → memMap j ≠ 0#8) :
      TaskStep img fuel s { s with k := { s.k with memMap := memMap } }

/-- What `do_fork` left in the page of `p` for its first run. -/
structure FirstRun (img : Image) (p cloneFlags stack arg : U64) (parent : PtRegs) (k : Kernel) :
    Prop where
  context : (k.task p).cpuContext = childContext img p cloneFlags stack arg
  needResched : (k.task p).needResched = 0
  frame : k.ptRegs (taskPtRegs p) = childFrame cloneFlags stack parent

/-- The running task is not one of those that have not run yet. -/
structure FreshTasks (img : Image) (s : Sys) : Prop where
  consistent : Consistent img s
  nodup : s.fresh.Nodup
  current : s.current ∉ s.fresh

variable {img : Image} {fuel : Nat} {s s' s₁ s₂ : Sys} {p cloneFlags stack arg : U64}
  {parent : PtRegs}

theorem Forked.firstRun {caller : U64} {pid : Nat} {k k' : Kernel}
    (h : Forked img caller cloneFlags stack arg p pid k k') :
    FirstRun img p cloneFlags stack arg (k.ptRegs (taskPtRegs caller)) k' := by
  refine ⟨?_, ?_, h.childRegs⟩
  all_goals rw [h.child]

/-- Another task is changed, or nothing that a first run depends on. -/
theorem FirstRun.congr {k k' : Kernel} (h : FirstRun img p cloneFlags stack arg parent k)
    (hcontext : (k'.task p).cpuContext = (k.task p).cpuContext)
    (hneed : (k'.task p).needResched = (k.task p).needResched)
    (hframe : k'.ptRegs (taskPtRegs p) = k.ptRegs (taskPtRegs p)) :
    FirstRun img p cloneFlags stack arg parent k' :=
  ⟨hcontext.trans h.context, hneed.trans h.needResched, hframe.trans h.frame⟩

theorem FirstRun.updTask {k : Kernel} (h : FirstRun img p cloneFlags stack arg parent k) {q : U64}
    (hne : q ≠ p) (f : TaskStruct → TaskStruct) :
    FirstRun img p cloneFlags stack arg parent (k.updTask q f) := by
  refine h.congr ?_ ?_ rfl
  all_goals simp [Kernel.updTask, hne.symm]

/-- A call of `__schedule` leaves the running task alone, and gives ticks to the others. -/
theorem FreshTasks.firstRun_schedule {garbage : U64} (h : FreshTasks img s)
    (hfuel : nrTasks ≤ fuel) (hstep : sysStep img fuel (.schedule garbage) s = some s')
    (hp : p ∈ s.fresh) (hrun : FirstRun img p cloneFlags stack arg parent s.k) :
    FirstRun img p cloneFlags stack arg parent s'.k := by
  have hne : s.current ≠ p := fun heq => h.current (heq ▸ hp)
  obtain ⟨picked, k', hbefore, hk', -⟩ := h.consistent.scheduleBefore_cases hfuel
  have hreset : FirstRun img p cloneFlags stack arg parent k' := by
    rcases hk' with rfl | rfl
    · exact hrun
    · rw [foldl_resetCounter]
      refine hrun.congr ?_ ?_ rfl
      all_goals
        by_cases hmem : p ∈ s.forked
        · simp [hmem]
        · simp [hmem]
  have hclear := hreset.updTask hne fun t => { t with needResched := 0 }
  rcases sysStep_schedule_cases hbefore hstep with
    ⟨-, rfl⟩ | ⟨-, -, rfl⟩ | ⟨-, -, -, rfl⟩
  · exact hclear
  · exact hclear
  · exact hclear.congr rfl rfl rfl

/-- What a fresh task needs for its first run, no step touches. -/
theorem FreshTasks.firstRun_step (h : FreshTasks img s) (hfuel : nrTasks ≤ fuel)
    (hstep : TaskStep img fuel s s') (hp : p ∈ s.fresh)
    (hrun : FirstRun img p cloneFlags stack arg parent s.k) :
    FirstRun img p cloneFlags stack arg parent s'.k := by
  have hne : s.current ≠ p := fun heq => h.current (heq ▸ hp)
  have htask : p ∈ s.tasks img := Sys.mem_tasks_of_forked (h.consistent.fresh p hp)
  cases hstep with
  | frame f =>
      have hplace : taskPtRegs p ≠ taskPtRegs s.current := fun he => hne (taskPtRegs_inj he).symm
      exact hrun.congr rfl rfl (by simp [Kernel.storePtRegs, hplace])
  | pages memMap hkept => exact hrun.congr rfl rfl rfl
  | call op hstep =>
      cases op with
      | tick =>
          obtain rfl := eq_of_tick hstep
          rw [tickHandlePeriodic, taskTickNop_eq]
          exact hrun.updTask hne _
      | schedule garbage => exact h.firstRun_schedule hfuel hstep hp hrun
      | doFork caller flags sp arg' =>
          rcases h.consistent.doFork_cases hstep with ⟨k', rfl, -, hsame⟩ |
            ⟨j, pid, k', rfl, hcaller, hj, hfree, -, -, -, -, hforked⟩
          · rcases hsame with rfl | ⟨j, hj, hfree, hagree⟩
            · exact hrun
            · have hpage := h.consistent.ne_pageAddr htask hj hfree
              have htask' := hagree.task p hpage
              exact hrun.congr (by rw [htask']) (by rw [htask']) (hagree.ptRegs p hpage)
          · have hpage := h.consistent.ne_pageAddr htask hj hfree
            have hregs := hforked.otherRegs p hpage
            by_cases hpc : p = caller
            · subst hpc
              have htask' := hforked.parent
              exact hrun.congr (by rw [htask']) (by rw [htask']) hregs
            · have htask' := hforked.other p hpage hpc
              exact hrun.congr (by rw [htask']) (by rw [htask']) hregs

/-- What a step does to the lists of tasks. -/
inductive TaskMove (img : Image) (s s' : Sys) : Prop
  | stay (hcurrent : s'.current = s.current) (hforked : s'.forked = s.forked)
      (hfresh : s'.fresh = s.fresh)
  | first (hnext : s'.current ∈ s.fresh) (hforked : s'.forked = s.forked)
      (hfresh : s'.fresh = s.fresh.erase s'.current)
  | back (hnext : s'.current ∉ s.fresh) (hforked : s'.forked = s.forked)
      (hfresh : s'.fresh = s.fresh)
  | fork (q : U64) (hnew : q ∉ s.tasks img) (hcurrent : s'.current = s.current)
      (hforked : s'.forked = s.forked ++ [q]) (hfresh : s'.fresh = s.fresh ++ [q])

theorem Consistent.move (h : Consistent img s) (hfuel : nrTasks ≤ fuel)
    (hstep : TaskStep img fuel s s') : TaskMove img s s' := by
  cases hstep with
  | frame f => exact .stay rfl rfl rfl
  | pages memMap hkept => exact .stay rfl rfl rfl
  | call op hstep =>
      cases op with
      | tick =>
          obtain rfl := eq_of_tick hstep
          exact .stay rfl rfl rfl
      | schedule garbage =>
          obtain ⟨picked, k', hbefore, -⟩ := h.scheduleBefore_cases hfuel
          rcases sysStep_schedule_cases hbefore hstep with
            ⟨-, rfl⟩ | ⟨-, hnext, rfl⟩ | ⟨-, hnext, -, rfl⟩
          · exact .stay rfl rfl rfl
          · exact .first hnext rfl rfl
          · exact .back hnext rfl rfl
      | doFork caller flags sp arg =>
          rcases h.doFork_cases hstep with ⟨k', rfl, -, -⟩ | ⟨j, pid, k', rfl, -, hj, hfree, -⟩
          · exact .stay rfl rfl rfl
          · exact .fork (pageAddr j) (fun hmem => h.ne_pageAddr hmem hj hfree rfl) rfl rfl rfl

theorem Consistent.taskStep (h : Consistent img s) (hfuel : nrTasks ≤ fuel)
    (hstep : TaskStep img fuel s s') : Consistent img s' := by
  cases hstep with
  | frame f =>
      exact h.frame rfl rfl rfl rfl (fun _ _ => rfl) (fun _ _ => rfl) (fun _ _ => rfl)
        (fun _ _ => rfl) (fun _ _ => rfl) h.counter
  | pages memMap hkept =>
      refine { h with page := ?_ }
      intro q hq
      obtain ⟨i, hi, hqi, hused⟩ := h.page q hq
      exact ⟨i, hi, hqi, hkept i hused⟩
  | call op hstep => exact consistent_step hfuel op s s' h hstep

theorem FreshTasks.boot (img : Image) (k : Kernel) : FreshTasks img (Sys.boot img k) :=
  ⟨consistent_boot img k, List.nodup_nil, List.not_mem_nil⟩

theorem FreshTasks.step (h : FreshTasks img s) (hfuel : nrTasks ≤ fuel)
    (hstep : TaskStep img fuel s s') : FreshTasks img s' := by
  refine ⟨h.consistent.taskStep hfuel hstep, ?_, ?_⟩
  · rcases h.consistent.move hfuel hstep with
      ⟨-, -, hfresh⟩ | ⟨-, -, hfresh⟩ | ⟨-, -, hfresh⟩ | ⟨q, hnew, -, -, hfresh⟩
    all_goals rw [hfresh]
    · exact h.nodup
    · exact h.nodup.erase _
    · exact h.nodup
    · refine h.nodup.append (List.nodup_singleton _) ?_
      rw [List.disjoint_singleton]
      exact fun hmem => hnew (Sys.mem_tasks_of_forked (h.consistent.fresh _ hmem))
  · rcases h.consistent.move hfuel hstep with
      ⟨hcurrent, -, hfresh⟩ | ⟨-, -, hfresh⟩ | ⟨hnext, -, hfresh⟩ | ⟨q, hnew, hcurrent, -, hfresh⟩
    all_goals rw [hfresh]
    · exact hcurrent ▸ h.current
    · exact h.nodup.not_mem_erase
    · exact hnext
    · rw [hcurrent]
      intro hmem
      rcases List.mem_append.1 hmem with hmem | hmem
      · exact h.current hmem
      · exact hnew (List.mem_singleton.1 hmem ▸ h.consistent.current)

theorem FreshTasks.run {k : Kernel} (hfuel : nrTasks ≤ fuel)
    (hs : Relation.ReflTransGen (TaskStep img fuel) (Sys.boot img k) s) : FreshTasks img s := by
  induction hs with
  | refl => exact FreshTasks.boot img k
  | tail _ hstep ih => exact ih.step hfuel hstep

/-- A call of `do_fork` that made a task. -/
theorem FreshTasks.firstRun_doFork {caller : U64} (h : FreshTasks img s)
    (hfork : sysStep img fuel (.doFork caller cloneFlags stack arg) s = some s₁)
    (hchild : s₁.forked = s.forked ++ [p]) :
    FirstRun img p cloneFlags stack arg (s.k.ptRegs (taskPtRegs caller)) s₁.k := by
  rcases h.consistent.doFork_cases hfork with
    ⟨k', rfl, -⟩ | ⟨j, pid, k', rfl, -, -, -, -, -, -, -, hforked⟩
  · have hlength := congrArg List.length hchild
    simp at hlength
  · obtain rfl : pageAddr j = p := by simpa using hchild
    exact hforked.firstRun

/-- Forked tasks stay forked, and do not become fresh again. -/
theorem TaskMove.of_mem_forked (h : TaskMove img s s') (hp : p ∈ s.forked) :
    p ∈ s'.forked ∧ (p ∈ s'.fresh → p ∈ s.fresh) := by
  rcases h with
    ⟨-, hforked, hfresh⟩ | ⟨-, hforked, hfresh⟩ | ⟨-, hforked, hfresh⟩ |
      ⟨q, hnew, -, hforked, hfresh⟩
  all_goals rw [hforked, hfresh]
  · exact ⟨hp, id⟩
  · exact ⟨hp, List.mem_of_mem_erase⟩
  · exact ⟨hp, id⟩
  · refine ⟨List.mem_append_left _ hp, fun hmem => ?_⟩
    rcases List.mem_append.1 hmem with hmem | hmem
    · exact hmem
    · exact absurd (Sys.mem_tasks_of_forked hp) (List.mem_singleton.1 hmem ▸ hnew)

/-- **What `do_fork` wrote for a task is there when the task runs first**, whatever runs in
between. -/
theorem FreshTasks.firstRun_run (h : FreshTasks img s₁) (hfuel : nrTasks ≤ fuel)
    (hp : p ∈ s₁.forked) (hrun : FirstRun img p cloneFlags stack arg parent s₁.k)
    (hsteps : Relation.ReflTransGen (TaskStep img fuel) s₁ s₂) :
    FreshTasks img s₂ ∧ p ∈ s₂.forked ∧
      (p ∈ s₂.fresh → FirstRun img p cloneFlags stack arg parent s₂.k) := by
  induction hsteps with
  | refl => exact ⟨h, hp, fun _ => hrun⟩
  | tail _ hstep ih =>
      obtain ⟨hinv, hforked, hkept⟩ := ih
      obtain ⟨hforked', hback⟩ := (hinv.consistent.move hfuel hstep).of_mem_forked hforked
      exact ⟨hinv.step hfuel hstep, hforked', fun hfresh =>
        hinv.firstRun_step hfuel hstep (hback hfresh) (hkept (hback hfresh))⟩

/-! ## The page of a task -/

/-- The fields and the frame of the task at `p`, where the entry code looks for them. -/
structure TaskPage (m : Mem) (p : Word) (k : Kernel) : Prop where
  context : Cells m (p + threadCpuContext) (k.task p).cpuContext.words
  needResched : load m (p + needReschedOffset) 4 = BitVec.ofInt 32 (k.task p).needResched
  frame : ptRegsAt m (taskPtRegs p) = k.ptRegs (taskPtRegs p)

theorem Consistent.page_toNat (h : Consistent img s) (hp : p ∈ s.forked) :
    p.toNat % 4096 = 0 ∧ lowMemory.toNat ≤ p.toNat ∧ p.toNat + 4096 ≤ 2 ^ 64 := by
  obtain ⟨i, hi, rfl, -⟩ := h.page p hp
  rw [pageAddr_toNat hi, lowMemory_toNat]
  rw [nrPages_eq] at hi
  omega

/-- The pages of two tasks are apart. -/
theorem Consistent.page_apart (h : Consistent img s) (hp : p ∈ s.forked) {q : U64}
    (hq : q ∈ s.tasks img) (hne : q ≠ p) :
    q.toNat + 4096 ≤ 2 ^ 64 ∧ (q.toNat + 4096 ≤ p.toNat ∨ p.toNat + 4096 ≤ q.toNat) := by
  obtain ⟨haligned, hlow, hfits⟩ := h.page_toNat hp
  rcases List.mem_cons.1 hq with rfl | hforked
  · have hbelow := img.initTask_below
    omega
  · obtain ⟨haligned', -, hfits'⟩ := h.page_toNat hforked
    have hne' : q.toNat ≠ p.toNat := fun heq => hne (BitVec.eq_of_toNat_eq heq)
    omega

theorem ptRegsAt_sameOn {m m' : Mem} {a : Word} (hfits : a.toNat + 320 ≤ 2 ^ 64) {lo hi : Nat}
    (hlo : lo ≤ a.toNat) (hhi : a.toNat + 320 ≤ hi) (hsame : SameOn lo hi m m') :
    ptRegsAt m' a = ptRegsAt m a := by
  have hword : ∀ n d : Nat, d < 320 ∧ d + n ≤ 320 →
      load m' (a + BitVec.ofNat 64 d) n = load m (a + BitVec.ofNat 64 d) n := by
    intro n d ⟨hd, hn⟩
    have haddr : (a + BitVec.ofNat 64 d).toNat = a.toNat + d := toNat_add_ofNat (by omega)
    exact hsame.load (by omega) (by omega) (by omega)
  have hregs : (ptRegsAt m' a).regs = (ptRegsAt m a).regs := by
    funext r
    have hr := r.isLt
    exact hword 8 (8 * r.val) (by omega)
  have hsp : (ptRegsAt m' a).sp = (ptRegsAt m a).sp := hword 8 248 (by omega)
  have hpc : (ptRegsAt m' a).pc = (ptRegsAt m a).pc := hword 8 256 (by omega)
  have hpstate : (ptRegsAt m' a).pstate = (ptRegsAt m a).pstate := hword 8 264 (by omega)
  have horig : (ptRegsAt m' a).origX0 = (ptRegsAt m a).origX0 := hword 8 272 (by omega)
  have hno : (ptRegsAt m' a).syscallno = (ptRegsAt m a).syscallno := hword 4 280 (by omega)
  calc
    ptRegsAt m' a = ⟨(ptRegsAt m' a).regs, (ptRegsAt m' a).sp, (ptRegsAt m' a).pc,
        (ptRegsAt m' a).pstate, (ptRegsAt m' a).origX0, (ptRegsAt m' a).syscallno⟩ := rfl
    _ = ptRegsAt m a := by rw [hregs, hsp, hpc, hpstate, horig, hno]

theorem TaskPage.sameOn {m m' : Mem} {k : Kernel} (h : TaskPage m p k)
    (haligned : p.toNat % 4096 = 0) (hsame : SameOn p.toNat (p.toNat + 4096) m m') :
    TaskPage m' p k := by
  have hbound := p.isLt
  have hcontext := toNat_context haligned
  have hneed := toNat_needResched haligned
  have hframe := toNat_taskPtRegs haligned
  have hlength : (k.task p).cpuContext.words.length = 13 := rfl
  refine ⟨h.context.sameOn hsame (by omega) (by omega) (by omega), ?_, ?_⟩
  · rw [hsame.load (by omega) (by omega) (by omega)]
    exact h.needResched
  · rw [ptRegsAt_sameOn (by omega) (by omega) (by omega) hsame]
    exact h.frame

/-! ## From `cpu_switch_to` to the first `eret` -/

/-- A call of `cpu_switch_to` leaves `PSTATE` alone. -/
theorem SwitchReturns.pstate {eimg : EntryImage} {c e : State} (h : SwitchReturns eimg c e) :
    e.pstate = c.pstate := by
  obtain ⟨hpc, t, hleads, hfetch, hstep⟩ := h
  have hblock : eimg.text.CodeAt 145 cpuSwitchToBlock := eimg.codeAt (i := 11) rfl
  have hcode : eimg.text.CodeAt 145 (switchSave ++ switchLoad) ∧
      eimg.text.CodeAt (145 + (switchSave ++ switchLoad).length) [.ret lr] := by
    have hsplit : cpuSwitchToBlock = (switchSave ++ switchLoad) ++ [.ret lr] := rfl
    rw [hsplit] at hblock
    exact hblock.append
  obtain ⟨hstraight, hend⟩ := eimg.text.leads_straight eimg.fits _ (by decide) hcode.1 hpc
  have hpstate : (execAll eimg.text.addr (switchSave ++ switchLoad) c).pstate = c.pstate :=
    pstate_execAll (by decide) c
  obtain ⟨v, hv⟩ : ∃ v, execAll eimg.text.addr (switchSave ++ switchLoad) c = v := ⟨_, rfl⟩
  rw [hv] at hstraight hend hpstate
  have hret : eimg.text.fetch v.pc = some (.ret lr) := by
    rw [hend]
    exact hcode.2.fetch eimg.fits
  obtain rfl : t = v := hleads.unique hstraight (Program.not_stays_of_fetch hfetch rfl)
    (Program.not_stays_of_fetch hret rfl)
  rw [Program.step, hfetch] at hstep
  rw [← Option.some.inj hstep]
  exact hpstate

/-- A call of `schedule_tail`: interrupts are on behind it, and what lies above the stack
pointer and `need_resched` are as they were. -/
structure ScheduleTailCall (b r : State) : Prop extends Aapcs64 b r where
  unmasked : r.masked = false
  mode : r.pstate &&& psrModeMask = b.pstate &&& psrModeMask
  stack : SameOn b.sp.toNat ((taskOfSp b.sp).toNat + 4096) b.mem r.mem
  needResched : load r.mem (taskOfSp b.sp + needReschedOffset) 4 =
    load b.mem (taskOfSp b.sp + needReschedOffset) 4

/-- The one instruction of `schedule_tail`, `msr daifclr, #2`, and its return. -/
def scheduleTail (b : State) : State :=
  { b with pc := b.x lr, pstate := b.pstate &&& ~~~irqMask }

theorem scheduleTailCall_scheduleTail (b : State) : ScheduleTailCall b (scheduleTail b) := by
  refine ⟨⟨rfl, rfl, fun _ _ _ => rfl⟩, ?_, ?_, SameOn.refl _ _ _, rfl⟩
  · show (b.pstate &&& ~~~irqMask).getLsbD 7 = false
    simp [irqMask]
  · show b.pstate &&& ~~~irqMask &&& psrModeMask = _
    rw [BitVec.and_assoc]
    rfl

/-- `ret_from_fork` up to `schedule_tail`. -/
theorem EntryImage.leads_scheduleTail (eimg : EntryImage) {e : State}
    (hpc : e.pc = eimg.text.addr .retFromFork) :
    ∃ b, eimg.text.Leads e b ∧ b.pc = eimg.text.addr .scheduleTail ∧
      b.x = Function.update e.x lr (eimg.text.at 141) ∧ b.sp = e.sp ∧ b.pstate = e.pstate ∧
      b.mem = e.mem := by
  have hblock : eimg.text.CodeAt 140 retFromForkBlock := eimg.codeAt (i := 9) rfl
  have hcalled := eimg.text.leads_one eimg.fits hblock rfl hpc
  have hnext : e.pc + 4 = eimg.text.at 141 := by
    rw [hpc, Program.at_succ]
    rfl
  rw [← hnext]
  exact ⟨_, hcalled, rfl, rfl, rfl, rfl, rfl⟩

/-- Behind it, a user task goes to `ret_to_user`. -/
theorem EntryImage.leads_of_x19_zero (eimg : EntryImage) {r : State}
    (hpc : r.pc = eimg.text.at 141) (hx19 : r.x 19 = 0) :
    eimg.text.Leads r (r.setPc (eimg.text.addr .retToUser)) := by
  have hblock : eimg.text.CodeAt 140 retFromForkBlock := eimg.codeAt (i := 9) rfl
  have hout : eimg.text.CodeAt 144 retFromForkOutBlock := eimg.codeAt (i := 10) rfl
  have htested := eimg.text.leads_one eimg.fits hblock.tail rfl hpc
  have heffect : A64.execInstr eimg.text.addr (.cbz 19 .retFromForkOut) r =
      r.setPc (eimg.text.addr .retFromForkOut) := if_pos hx19
  rw [heffect] at htested
  obtain ⟨t, ht⟩ : ∃ t, r.setPc (eimg.text.addr .retFromForkOut) = t := ⟨_, rfl⟩
  have htpc : t.pc = eimg.text.at 144 := by
    rw [← ht]
    rfl
  have hbranched := eimg.text.leads_one eimg.fits hout rfl htpc
  have hend : A64.execInstr eimg.text.addr (.b .retToUser) t =
      r.setPc (eimg.text.addr .retToUser) := by
    rw [← ht]
    exact State.setPc_setPc _ _ r
  rw [hend] at hbranched
  rw [ht] at htested
  exact htested.trans hbranched

/-- A kernel thread calls its function. -/
theorem EntryImage.leads_of_x19_ne_zero (eimg : EntryImage) {r : State}
    (hpc : r.pc = eimg.text.at 141) (hx19 : r.x 19 ≠ 0) :
    ∃ t u, eimg.text.Leads r t ∧ eimg.text.fetch t.pc = some (.blr 19) ∧
      eimg.text.step t = some u ∧ u.pc = r.x 19 ∧ u.x 0 = r.x 20 ∧ u.sp = r.sp ∧
      u.pstate = r.pstate := by
  have hblock : eimg.text.CodeAt 140 retFromForkBlock := eimg.codeAt (i := 9) rfl
  have htested := eimg.text.leads_one eimg.fits hblock.tail rfl hpc
  have heffect : A64.execInstr eimg.text.addr (.cbz 19 .retFromForkOut) r =
      r.setPc (eimg.text.at 142) := by
    rw [Program.at_succ, ← hpc]
    exact if_neg hx19
  rw [heffect] at htested
  have hmoved := eimg.text.leads_one eimg.fits hblock.tail.tail rfl
    (rfl : (r.setPc (eimg.text.at 142)).pc = _)
  have hmove : A64.execInstr eimg.text.addr (.mov (.x 0) (.x 20)) (r.setPc (eimg.text.at 142)) =
      { r with x := Function.update r.x 0 (r.x 20), pc := eimg.text.at 143 } := by
    rw [Program.at_succ _ 142]
    simp only [A64.execInstr, State.get, State.set, State.setX, State.setPc]
  rw [hmove] at hmoved
  have hcall : eimg.text.CodeAt 143 [.blr 19] := hblock.tail.tail.tail
  refine ⟨_, _, htested.trans hmoved, hcall.fetch eimg.fits,
    eimg.text.step_at eimg.fits hcall rfl, rfl, rfl, rfl, rfl⟩

/-! ## The first run -/

theorem childContext_pc (img : Image) (p cloneFlags stack arg : U64) :
    (childContext img p cloneFlags stack arg).pc = img.retFromFork := by
  unfold childContext
  split <;> rfl

theorem childContext_sp (img : Image) (p cloneFlags stack arg : U64) :
    (childContext img p cloneFlags stack arg).sp = taskPtRegs p := by
  unfold childContext
  split <;> rfl

/-- The registers with which a new task calls `schedule_tail`. -/
structure AtScheduleTail (eimg : EntryImage) (ctx : CpuContext) (p : Word) (k : Kernel) (b : State) :
    Prop where
  pc : b.pc = eimg.text.addr .scheduleTail
  lr : b.x lr = eimg.text.at 141
  x19 : b.x 19 = ctx.x19
  x20 : b.x 20 = ctx.x20
  sp : b.sp = taskPtRegs p
  page : TaskPage b.mem p k

/-- `cpu_switch_to` into a task that waits for its first run, and the call of `schedule_tail`. -/
theorem EntryImage.leads_firstRun (eimg : EntryImage) {k : Kernel} {c : State}
    (hret : img.retFromFork = eimg.text.addr .retFromFork) (haligned : p.toNat % 4096 = 0)
    (hfits : (c.x 0).toNat + 4096 ≤ 2 ^ 64)
    (happart : (c.x 0).toNat + 4096 ≤ p.toNat ∨ p.toNat + 4096 ≤ (c.x 0).toNat)
    (hpc : c.pc = eimg.text.addr .cpuSwitchTo) (hnext : c.x 1 = p) (hpage : TaskPage c.mem p k)
    (hrun : FirstRun img p cloneFlags stack arg parent k) :
    ∃ e b, SwitchReturns eimg c e ∧ eimg.text.Leads e b ∧ b.pstate = c.pstate ∧
      AtScheduleTail eimg (childContext img p cloneFlags stack arg) p k b := by
  obtain ⟨e, he⟩ := exists_switchReturns hpc
  have hpage' : TaskPage (switchedMem c) p k :=
    hpage.sameOn haligned (sameOn_switchedMem (by omega) (by omega))
  have hcells : Cells (switchedMem c) (c.x 1 + threadCpuContext)
      (childContext img p cloneFlags stack arg).words := by
    rw [hnext, ← hrun.context]
    exact hpage'.context
  obtain ⟨hcontext, hepc, -, hemem⟩ := he.spec hcells
  have hstart : e.pc = eimg.text.addr .retFromFork :=
    (hepc.trans (childContext_pc img p cloneFlags stack arg)).trans hret
  have hsp : e.sp = taskPtRegs p :=
    (congrArg CpuContext.sp hcontext).trans (childContext_sp img p cloneFlags stack arg)
  have hx19 : e.x 19 = (childContext img p cloneFlags stack arg).x19 :=
    congrArg CpuContext.x19 hcontext
  have hx20 : e.x 20 = (childContext img p cloneFlags stack arg).x20 :=
    congrArg CpuContext.x20 hcontext
  obtain ⟨b, hb, hbpc, hbx, hbsp, hbpstate, hbmem⟩ := eimg.leads_scheduleTail hstart
  refine ⟨e, b, he, hb, hbpstate.trans he.pstate, ⟨hbpc, ?_, ?_, ?_, hbsp.trans hsp, ?_⟩⟩
  · rw [hbx, Function.update_self]
  · rw [hbx, Function.update_of_ne (by decide), hx19]
  · rw [hbx, Function.update_of_ne (by decide), hx20]
  · rw [hbmem, hemem]
    exact hpage'

/-- The way from `r` leads to an `eret`, and with it into `u`. -/
def Erets (eimg : EntryImage) (r u : State) : Prop :=
  ∃ t, eimg.text.Leads r t ∧ eimg.text.fetch t.pc = some .eret ∧ eimg.text.step t = some u

/-- The way from `r` leads to the call of the function in `x19`, and with it into `u`. -/
def CallsX19 (eimg : EntryImage) (r u : State) : Prop :=
  ∃ t, eimg.text.Leads r t ∧ eimg.text.fetch t.pc = some (.blr 19) ∧ eimg.text.step t = some u

/-- Behind `schedule_tail` the frame is what it was, and `need_resched` is clear. -/
theorem AtScheduleTail.behind {eimg : EntryImage} {ctx : CpuContext} {k : Kernel} {b r : State}
    (h : AtScheduleTail eimg ctx p k b) (haligned : p.toNat % 4096 = 0)
    (hneed : (k.task p).needResched = 0) (hcall : ScheduleTailCall b r) :
    r.pc = eimg.text.at 141 ∧ r.x 19 = ctx.x19 ∧ r.x 20 = ctx.x20 ∧ r.sp = taskPtRegs p ∧
      taskOfSp r.sp = p ∧ load r.mem (p + needReschedOffset) 4 = 0#32 ∧
      ptRegsAt r.mem (taskPtRegs p) = k.ptRegs (taskPtRegs p) := by
  have hbound := p.isLt
  have hframe := toNat_taskPtRegs haligned
  have htask : taskOfSp (taskPtRegs p) = p := taskOfSp_eq haligned (by omega) (by omega)
  have hsp : r.sp = taskPtRegs p := hcall.sp.trans h.sp
  have hstack := hcall.stack
  have hresched := hcall.needResched
  rw [h.sp, htask] at hstack hresched
  refine ⟨hcall.pc.trans h.lr, ?_, ?_, hsp, hsp.symm ▸ htask, ?_, ?_⟩
  · exact (hcall.saved 19 (by decide) (by decide)).trans h.x19
  · exact (hcall.saved 20 (by decide) (by decide)).trans h.x20
  · rw [hresched, h.page.needResched, hneed]
    rfl
  · rw [ptRegsAt_sameOn (by omega) le_rfl (by omega) hstack]
    exact h.page.frame

/-- A user task returns to EL0 with the frame that `copy_thread` gave it. -/
theorem AtScheduleTail.erets {eimg : EntryImage} {k : Kernel} {b r : State}
    (h : AtScheduleTail eimg (childContext img p cloneFlags stack arg) p k b)
    (haligned : p.toNat % 4096 = 0) (hrun : FirstRun img p cloneFlags stack arg parent k)
    (huser : cloneFlags &&& pfKthread = 0#64) (hcall : ScheduleTailCall b r) :
    ∃ u, Erets eimg r u ∧ u.pc = parent.pc ∧ u.pstate = parent.pstate ∧
      u.x = Function.update parent.regs 0 0#64 ∧
      u.spEl0 = if stack = 0#64 then parent.sp else stack := by
  obtain ⟨hpc, hx19, -, hsp, htask, hneed, hframe⟩ := h.behind haligned hrun.needResched hcall
  have hzero : r.x 19 = 0 := by simpa [childContext, huser, CpuContext.zero] using hx19
  obtain ⟨c, hc⟩ : ∃ c : Context,
      ⟨Function.update parent.regs 0 0#64, if stack = 0#64 then parent.sp else stack, parent.pc,
        parent.pstate⟩ = c := ⟨_, rfl⟩
  have hcells : Cells r.mem r.sp c.words := by
    rw [cells_words_iff, hsp, hframe, hrun.frame, ← hc]
    simp [childFrame, huser]
  have hout := eimg.leads_of_x19_zero hpc hzero
  obtain ⟨t, u, ht, htpc, hstep, hx, -, hupc, hupstate, hspEl0⟩ :=
    @EntryImage.leads_retToUser eimg (r.setPc (eimg.text.addr .retToUser)) c rfl
      (by rw [State.setPc_sp, htask]; exact hneed) hcells
  have hblock : eimg.text.CodeAt 115 noWorkPendingBlock := eimg.codeAt (i := 7) rfl
  have heret : eimg.text.CodeAt 137 [.eret] := hblock.append.2
  have hfetch : eimg.text.fetch t.pc = some .eret := by
    rw [htpc]
    exact heret.fetch eimg.fits
  rw [← hc] at hx hupc hupstate hspEl0
  exact ⟨u, ⟨t, hout.trans ht, hfetch, hstep⟩, hupc, hupstate, hx, hspEl0⟩

/-- A kernel thread calls its function on the empty stack in its page. -/
theorem AtScheduleTail.callsX19 {eimg : EntryImage} {k : Kernel} {b r : State}
    (h : AtScheduleTail eimg (childContext img p cloneFlags stack arg) p k b)
    (haligned : p.toNat % 4096 = 0) (hrun : FirstRun img p cloneFlags stack arg parent k)
    (hkthread : cloneFlags &&& pfKthread ≠ 0#64) (hfn : stack ≠ 0#64)
    (hcall : ScheduleTailCall b r) :
    ∃ u, CallsX19 eimg r u ∧ u.pc = stack ∧ u.x 0 = arg ∧ u.sp = taskPtRegs p ∧
      taskOfSp u.sp = p ∧ u.pstate &&& psrModeMask = b.pstate &&& psrModeMask ∧
      u.masked = false := by
  obtain ⟨hpc, hx19, hx20, hsp, htask, -, -⟩ := h.behind haligned hrun.needResched hcall
  have hfn' : r.x 19 = stack := by simpa [childContext, hkthread] using hx19
  have harg : r.x 20 = arg := by simpa [childContext, hkthread] using hx20
  obtain ⟨t, u, ht, hfetch, hstep, hupc, hux, husp, hupstate⟩ :=
    eimg.leads_of_x19_ne_zero hpc (by rw [hfn']; exact hfn)
  refine ⟨u, ⟨t, ht, hfetch, hstep⟩, hupc.trans hfn', hux.trans harg, husp.trans hsp,
    husp.symm ▸ htask, ?_, ?_⟩
  · rw [hupstate]
    exact hcall.mode
  · rw [State.masked, hupstate]
    exact hcall.unmasked

/-- **The first moments of a task.**  Let a call of `do_fork` by the task `caller` make the task
`p`, and let `cpu_switch_to` be called for it when it is picked for the first time, whatever ran
in between.  Then `p` calls `schedule_tail`.  Behind it a user task comes to its first `eret`
with the registers of its parent but `x0`, which is 0, and with the stack it was given; a
kernel thread calls its function with its argument, at EL1 and with interrupts on.
`kernel_thread` hands its function to `do_fork` as the stack. -/
theorem first_run (eimg : EntryImage) {kimg : Image}
    (hret : kimg.retFromFork = eimg.text.addr .retFromFork) (hfuel : nrTasks ≤ fuel) {k₀ : Kernel}
    {s₃ : Sys} {caller garbage : U64}
    (hs : Relation.ReflTransGen (TaskStep kimg fuel) (Sys.boot kimg k₀) s)
    (hfork : sysStep kimg fuel (.doFork caller cloneFlags stack arg) s = some s₁)
    (hchild : s₁.forked = s.forked ++ [p])
    (hsteps : Relation.ReflTransGen (TaskStep kimg fuel) s₁ s₂) (hfresh : p ∈ s₂.fresh)
    (hpick : sysStep kimg fuel (.schedule garbage) s₂ = some s₃) (hfirst : s₃.current = p)
    {c : State} (hpc : c.pc = eimg.text.addr .cpuSwitchTo) (hprev : c.x 0 = s₂.current)
    (hnext : c.x 1 = s₃.current) (hmode : c.pstate &&& psrModeMask = psrModeEL1h)
    (hpage : TaskPage c.mem p s₃.k) :
    ∃ e b, SwitchReturns eimg c e ∧ eimg.text.Leads e b ∧
      b.pc = eimg.text.addr .scheduleTail ∧ ∀ r, ScheduleTailCall b r →
        (cloneFlags &&& pfKthread = 0#64 → ToEL0 (s.k.ptRegs (taskPtRegs caller)).pstate →
          ∃ u, Erets eimg r u ∧ ToEL0 u.pstate ∧
            u.pc = (s.k.ptRegs (taskPtRegs caller)).pc ∧
            u.pstate = (s.k.ptRegs (taskPtRegs caller)).pstate ∧ u.x 0 = 0 ∧
            (∀ i, i ≠ 0 → u.x i = (s.k.ptRegs (taskPtRegs caller)).regs i) ∧
            u.spEl0 = if stack = 0#64 then (s.k.ptRegs (taskPtRegs caller)).sp else stack) ∧
        (cloneFlags &&& pfKthread ≠ 0#64 → stack ≠ 0#64 →
          ∃ u, CallsX19 eimg r u ∧ u.pc = stack ∧ u.x 0 = arg ∧ u.sp = taskPtRegs p ∧
            taskOfSp u.sp = p ∧ u.pstate &&& psrModeMask = psrModeEL1h ∧ u.masked = false) := by
  -- the task was new, and what `do_fork` wrote for it is still there
  have hinv := FreshTasks.run hfuel hs
  have hforked : p ∈ s₁.forked := by
    rw [hchild]
    exact List.mem_append_right _ (List.mem_singleton_self p)
  have hrun := hinv.firstRun_doFork hfork hchild
  have hinv₁ := hinv.step hfuel (.call _ hfork)
  obtain ⟨hinv₂, hforked₂, hkept⟩ := hinv₁.firstRun_run hfuel hforked hrun hsteps
  have hrun₃ := hinv₂.firstRun_step hfuel (.call _ hpick) hfresh (hkept hfresh)
  -- the task that leaves has another page
  have hne : s₂.current ≠ p := fun heq => hinv₂.current (heq ▸ hfresh)
  obtain ⟨haligned, -, -⟩ := hinv₂.consistent.page_toNat hforked₂
  obtain ⟨hfits, happart⟩ := hinv₂.consistent.page_apart hforked₂ hinv₂.consistent.current hne
  rw [← hprev] at hfits happart
  obtain ⟨e, b, he, hb, hpstate, hcalls⟩ := eimg.leads_firstRun hret haligned hfits happart hpc
    (hnext.trans hfirst) hpage hrun₃
  refine ⟨e, b, he, hb, hcalls.pc, fun r hcall => ⟨fun huser hparent => ?_, fun hkthread hfn => ?_⟩⟩
  · obtain ⟨u, hu, hupc, hupstate, hux, hspEl0⟩ := hcalls.erets haligned hrun₃ huser hcall
    refine ⟨u, hu, ?_, hupc, hupstate, ?_, ?_, hspEl0⟩
    · rw [hupstate]
      exact hparent
    · rw [hux, Function.update_self]
      rfl
    · intro i hi
      rw [hux, Function.update_of_ne hi]
  · obtain ⟨u, hu, hupc, hux, husp, htask, humode, hunmasked⟩ :=
      hcalls.callsX19 haligned hrun₃ hkthread hfn hcall
    rw [hpstate, hmode] at humode
    exact ⟨u, hu, hupc, hux, husp, htask, humode, hunmasked⟩

/-! ## Such a run -/

/-- There is a memory with a given task in it. -/
theorem exists_taskPage (k : Kernel) (haligned : p.toNat % 4096 = 0) : ∃ m, TaskPage m p k := by
  have hbound := p.isLt
  have hframe := toNat_taskPtRegs haligned
  have hcontext := toNat_context haligned
  have hneed := toNat_needResched haligned
  have hcontexts : (k.task p).cpuContext.words.length = 13 := rfl
  have hframes : (k.ptRegs (taskPtRegs p)).words.length = 36 := rfl
  obtain ⟨m₁, hm₁⟩ : ∃ m, store (p + needReschedOffset) 4 (BitVec.ofInt 32 (k.task p).needResched)
    (fun _ => 0) = m := ⟨_, rfl⟩
  obtain ⟨m₂, hm₂⟩ : ∃ m,
    storeCells (p + threadCpuContext) 0 (k.task p).cpuContext.words m₁ = m := ⟨_, rfl⟩
  obtain ⟨m₃, hm₃⟩ : ∃ m, storeCells (taskPtRegs p) 0 (k.ptRegs (taskPtRegs p)).words m₂ = m :=
    ⟨_, rfl⟩
  -- the three rows do not meet
  have hbelow : SameOn 0 (p.toNat + 148) m₂ m₃ := by
    rw [← hm₃]
    exact sameOn_storeCells _ (by omega) (by omega) _
  have hbehind : SameOn (p.toNat + 144) (p.toNat + 148) m₁ m₂ := by
    rw [← hm₂]
    exact sameOn_storeCells _ (by omega) (by omega) _
  refine ⟨m₃, ?_, ?_, ?_⟩
  · have hcells : Cells m₂ (p + threadCpuContext) (k.task p).cpuContext.words := by
      rw [← hm₂]
      exact cells_storeCells _ (by omega) _
    exact hcells.sameOn hbelow (by omega) (by omega) (by omega)
  · rw [hbelow.load (by omega) (by omega) (by omega), hbehind.load (by omega) (by omega) (by omega),
      ← hm₁]
    exact load_store_self _ 4 (by decide) _ _
  · rw [← hm₃]
    exact ptRegsAt_of_cells (cells_storeCells _ (by omega) _)

/-- `init_task` forks a task and switches to it. -/
theorem exists_first_switch (eimg : EntryImage) (kimg : Image) {cloneFlags stack : U64} (arg : U64)
    (haccepted : ¬ StackRefused cloneFlags stack) :
    ∃ (s₁ s₃ : Sys) (p : U64) (c : State),
      sysStep kimg nrTasks (.doFork kimg.initTask cloneFlags stack arg)
        (Sys.boot kimg Kernel.blank) = some s₁ ∧ s₁.forked = [p] ∧ p ∈ s₁.fresh ∧
      sysStep kimg nrTasks (.schedule 0) s₁ = some s₃ ∧ s₃.current = p ∧
      c.pc = eimg.text.addr .cpuSwitchTo ∧ c.x 0 = s₁.current ∧ c.x 1 = s₃.current ∧
      c.pstate &&& psrModeMask = psrModeEL1h ∧ TaskPage c.mem p s₃.k := by
  obtain ⟨s₁, p, hforked, hcurrent, hfresh, hfork⟩ := exists_fork_boot kimg nrTasks arg haccepted
  have hinv := (FreshTasks.boot kimg Kernel.blank).step le_rfl (.call _ hfork)
  have hmem : p ∈ s₁.fresh := by simp [hfresh]
  have hne : p ≠ s₁.current := fun heq => hinv.current (heq ▸ hmem)
  obtain ⟨haligned, -, -⟩ := hinv.consistent.page_toNat (hinv.consistent.fresh p hmem)
  obtain ⟨picked, k', hbefore, -, hpicked⟩ := hinv.consistent.scheduleBefore_cases le_rfl
  have hpick : picked = some p := by
    rcases hpicked with ⟨hempty, -⟩ | ⟨q, hq, hsome⟩
    · simp [hforked] at hempty
    · obtain rfl : q = p := by simpa [hforked] using hq
      exact hsome
  obtain ⟨s₃, hstep, hfirst⟩ : ∃ s₃, sysStep kimg nrTasks (.schedule 0) s₁ = some s₃ ∧
      s₃.current = p := by
    simp [sysStep, hbefore, hpick, hne, hmem]
  obtain ⟨m, hm⟩ := exists_taskPage s₃.k haligned
  have hel1 : psrModeEL1h &&& psrModeMask = psrModeEL1h := by decide
  refine ⟨s₁, s₃, p,
    { x := Function.update (Function.update (fun _ => 0) 0 s₁.current) 1 s₃.current
      sp := 0x91000
      pc := eimg.text.addr .cpuSwitchTo
      pstate := psrModeEL1h
      spEl0 := 0
      elr := 0
      spsr := 0
      esr := 0
      mem := m }, hfork, hforked, hmem, hstep, hfirst, rfl, rfl, rfl, hel1, hm⟩

/-- An image whose `ret_from_fork` is the one of the text. -/
def Image.withEntry (eimg : EntryImage) : Image :=
  { Image.sample with retFromFork := eimg.text.addr .retFromFork }

/-- A kernel thread that is made to call the function at `0x82000` with 5. -/
theorem first_run_thread :
    ∃ e b r u, EntryImage.sample.text.Leads e b ∧
      b.pc = EntryImage.sample.text.addr .scheduleTail ∧ ScheduleTailCall b r ∧
      CallsX19 EntryImage.sample r u ∧ u.pc = 0x82000 ∧ u.x 0 = 5 := by
  obtain ⟨s₁, s₃, p, c, hfork, hforked, hfresh, hpick, hfirst, hpc, hprev, hnext, hmode, hpage⟩ :=
    exists_first_switch EntryImage.sample (Image.withEntry EntryImage.sample) 5
      (by decide : ¬ StackRefused pfKthread 0x82000)
  obtain ⟨e, b, -, hb, hbpc, hbehind⟩ := first_run EntryImage.sample rfl le_rfl .refl hfork hforked
    .refl hfresh hpick hfirst hpc hprev hnext hmode hpage
  obtain ⟨u, hu, hupc, hux, -⟩ :=
    (hbehind _ (scheduleTailCall_scheduleTail b)).2 (by decide) (by decide)
  exact ⟨e, b, _, u, hb, hbpc, scheduleTailCall_scheduleTail b, hu, hupc, hux⟩

end Arm64OS
