import Arm64OS.Kernel.MallocPages

/-!
# Runs with malloc

One call in both runs keeps what the two kernels share, whichever call it is; so by induction
does a whole run, and a page from malloc differs only where a refused `do_fork` of another task
was the last to fill it.
-/

namespace Arm64OS

variable {T current : U64} {filler : U64 → Option U64} {k k' : Kernel} {img : Image}

/-! ### The calls -/

theorem Alike.sysMalloc (h : Alike T filler k k') :
    (Arm64OS.sysMalloc k').1 = (Arm64OS.sysMalloc k).1 ∧
      Alike T filler (Arm64OS.sysMalloc k).2 (Arm64OS.sysMalloc k').2 := by
  rcases getFreePage_cases k.memMap with ⟨j, hj, -, -, hget⟩ | ⟨-, hget⟩
  · have hget' : getFreePage k'.memMap = (pageAddr j, Function.update k'.memMap j 1#8) := by
      rw [h.memMap, hget]
    have hne := pageAddr_ne_zero hj
    simp only [Arm64OS.sysMalloc, hget, hget', hne, if_false]
    exact ⟨trivial, h.take j⟩
  · have hget' : getFreePage k'.memMap = (0#64, k'.memMap) := by rw [h.memMap, hget]
    simp only [Arm64OS.sysMalloc, hget, hget', if_true]
    exact ⟨trivial, h⟩

theorem NotFree.take (h : NotFree current k) (j : Nat) :
    NotFree current { k with memMap := Function.update k.memMap j 1#8 } := by
  intro i hi hfree
  by_cases hij : i = j
  · rw [hij] at hfree
    have hone : Function.update k.memMap j 1#8 j = 0#8 := hfree
    rw [Function.update_self] at hone
    cases hone
  · have hfree' : Function.update k.memMap j 1#8 i = 0#8 := hfree
    rw [Function.update_of_ne hij] at hfree'
    exact h i hi hfree'

theorem notFree_taken {j : Nat} (hj : j < nrPages) :
    NotFree (pageAddr j) { k with memMap := Function.update k.memMap j 1#8 } := by
  intro i hi hfree he
  obtain rfl := pageAddr_inj hj hi he
  have hone : Function.update k.memMap j 1#8 j = 0#8 := hfree
  rw [Function.update_self] at hone
  cases hone

theorem Alike.moveToUserSpace (h : Alike T filler k k') (hcurrent : NotFree current k)
    (pc pc' : U64) :
    Alike T filler (Arm64OS.moveToUserSpace current pc k).2
      (Arm64OS.moveToUserSpace current pc' k').2 := by
  rcases getFreePage_cases k.memMap with ⟨j, hj, -, -, hget⟩ | ⟨-, hget⟩
  · have hget' : getFreePage k'.memMap = (pageAddr j, Function.update k'.memMap j 1#8) := by
      rw [h.memMap, hget]
    have hne := pageAddr_ne_zero hj
    simp only [Arm64OS.moveToUserSpace, hget, hget', hne, if_false]
    have hcleared := ((h.take j).memsetTask (pageAddr j)).storePtRegs
      (notFree_taken hj) PtRegs.zero PtRegs.zero
    exact hcleared.storePtRegs (hcurrent.take j) _ _
  · have hget' : getFreePage k'.memMap = (0#64, k'.memMap) := by rw [h.memMap, hget]
    simp only [Arm64OS.moveToUserSpace, hget, hget', if_true]
    exact h

/-- The kernel at the dispatch of a system call. -/
def enterSvc (current : U64) (frame : PtRegs) (k : Kernel) : Kernel :=
  storeSyscallNo current (toInt (frame.regs 8)) (k.storePtRegs current frame)

theorem enterSvc_regs (current : U64) (frame : PtRegs) (k : Kernel) :
    ((enterSvc current frame k).ptRegs (taskPtRegs current)).regs = frame.regs := by
  rw [enterSvc, storeSyscallNo, ptRegs_storePtRegs_self, ptRegs_storePtRegs_self]

theorem storeX0_regs (current ret : U64) (k : Kernel) :
    ((storeX0 current ret k).ptRegs (taskPtRegs current)).regs 0 = ret := by
  simp only [storeX0, ptRegs_storePtRegs_self, Function.update_self]

theorem run_svc (img : Image) (current : U64) (frame : PtRegs) (k : Kernel) :
    (TaskOp.svc frame).run img current k =
      if toInt (frame.regs 8) < nrSyscalls then
        let r := syscallTable img (fun _ => sysUnimplemented) current (toInt (frame.regs 8))
          (enterSvc current frame k)
        (r.1, storeX0 current r.1 r.2)
      else (sysNiSyscall, storeX0 current sysNiSyscall (enterSvc current frame k)) := by
  have hno : requestedNo current (k.storePtRegs current frame) = toInt (frame.regs 8) := by
    rw [requestedNo, ptRegs_storePtRegs_self]
  simp only [TaskOp.run, el0SvcHandler, el0SyscallCommon, invokeSyscall, hno]
  by_cases hlt : toInt (frame.regs 8) < nrSyscalls
  · simp only [hlt, if_true, storeX0_regs, enterSvc]
  · simp only [hlt, if_false, storeX0_regs, enterSvc]

theorem Alike.enterSvc (h : Alike T filler k k') (hcurrent : NotFree current k)
    (frame frame' : PtRegs) :
    Alike T filler (Arm64OS.enterSvc current frame k) (Arm64OS.enterSvc current frame' k') :=
  (h.storePtRegs hcurrent frame frame').storePtRegs hcurrent _ _

/-- The results of `do_fork` survive the conversion to `long`. -/
theorem doFork_result (hcurrent : NotFree current k) (cloneFlags stack arg : U64) :
    -1 ≤ (doFork img current cloneFlags stack arg k).1 ∧
      (doFork img current cloneFlags stack arg k).1 < 128 := by
  rcases doFork_cases img cloneFlags stack arg k hcurrent with
    ⟨k', hk, -⟩ | ⟨j, pid, k', -, -, hpid, -, -, -, hk, -⟩
  · rw [hk]
    show -1 ≤ (-1 : Int) ∧ (-1 : Int) < 128
    decide
  · have hmax : nrTasks = 128 := rfl
    rw [hk]
    show -1 ≤ (pid : Int) ∧ (pid : Int) < 128
    omega

theorem ofInt_inj {a b : Int} (ha : -1 ≤ a ∧ a < 128) (hb : -1 ≤ b ∧ b < 128)
    (h : BitVec.ofInt 64 a = BitVec.ofInt 64 b) : a = b := by
  have htoInt := congrArg BitVec.toInt h
  rw [BitVec.toInt_ofInt, BitVec.toInt_ofInt, Int.bmod_def, Int.bmod_def] at htoInt
  omega

theorem syscallTable_eq (img : Image) (current : U64) (no : Int) :
    syscallTable img (fun _ => sysUnimplemented) current no =
      if no = nrClone then sysClone img current
      else if no = 5 then sysMalloc else sysUnimplemented := by
  have hclone : nrClone = 4 := rfl
  unfold syscallTable
  split_ifs <;> first | rfl | omega

theorem run_svc_clone (img : Image) (current : U64) {frame : PtRegs} (k : Kernel)
    (hno : toInt (frame.regs 8) = nrClone) :
    (TaskOp.svc frame).run img current k =
      let r := doFork img current (frame.regs 0) (frame.regs 1) (frame.regs 2)
        (enterSvc current frame k)
      (BitVec.ofInt 64 r.1, storeX0 current (BitVec.ofInt 64 r.1) r.2) := by
  have hlt : nrClone < nrSyscalls := by decide
  simp only [run_svc, hno, hlt, if_true, syscallTable_eq, sysClone, enterSvc_regs]

theorem run_svc_malloc (img : Image) (current : U64) {frame : PtRegs} (k : Kernel)
    (hno : toInt (frame.regs 8) = 5) :
    (TaskOp.svc frame).run img current k =
      let r := sysMalloc (enterSvc current frame k)
      (r.1, storeX0 current r.1 r.2) := by
  have hlt : (5 : Int) < nrSyscalls := by decide
  have hclone : (5 : Int) ≠ nrClone := by decide
  simp only [run_svc, hno, hlt, hclone, if_true, if_false, syscallTable_eq]

theorem run_svc_other (img : Image) (current : U64) {frame : PtRegs} (k : Kernel)
    (hclone : toInt (frame.regs 8) ≠ nrClone) (hmalloc : toInt (frame.regs 8) ≠ 5) :
    (TaskOp.svc frame).run img current k =
      (-1, storeX0 current (-1) (enterSvc current frame k)) := by
  simp only [run_svc, syscallTable_eq, hclone, hmalloc, if_false, sysUnimplemented, sysNiSyscall]
  split <;> rfl

/-- A task keeps its page where no page is freed. -/
theorem NotFree.mono {m : Kernel} (h : NotFree current k)
    (hmarks : ∀ j, k.memMap j ≠ 0#8 → m.memMap j ≠ 0#8) : NotFree current m := by
  intro j hj hfree
  refine h j hj ?_
  by_contra hne
  exact hmarks j hne hfree

theorem doFork_keeps_marks (img : Image) (current cloneFlags stack arg : U64) {k : Kernel} {j : Nat}
    (h : k.memMap j ≠ 0#8) : (doFork img current cloneFlags stack arg k).2.memMap j ≠ 0#8 := by
  rcases memMap_doFork img current cloneFlags stack arg k with heq | heq
  · rwa [heq]
  · rw [heq]
    exact getFreePage_keeps_marks h

theorem sysMalloc_keeps_marks {k : Kernel} {j : Nat} (h : k.memMap j ≠ 0#8) :
    (sysMalloc k).2.memMap j ≠ 0#8 :=
  run_keeps_marks Image.sample .malloc h

/-- One system call in both runs. -/
theorem Alike.svc (h : Alike T filler k k') (hcurrent : NotFree current k) {frame frame' : PtRegs}
    (hno : toInt (frame'.regs 8) = toInt (frame.regs 8)) (hown : current = T → frame' = frame)
    (hout : ((TaskOp.svc frame).run img current k).1 =
      ((TaskOp.svc frame').run img current k').1) :
    Alike T ((TaskOp.svc frame).fill current ⟨k, filler⟩)
      ((TaskOp.svc frame).run img current k).2 ((TaskOp.svc frame').run img current k').2 := by
  have hentered := h.enterSvc hcurrent frame frame'
  have hcurrent₁ : NotFree current (Arm64OS.enterSvc current frame k) := hcurrent
  by_cases hclone : toInt (frame.regs 8) = nrClone
  · have hfill : (TaskOp.svc frame).fill current ⟨k, filler⟩ =
        fillerAfter current (frame.regs 0) (frame.regs 1) (Arm64OS.enterSvc current frame k) filler :=
      if_pos hclone
    have hclone' := hno.trans hclone
    have hcurrent₁' : NotFree current (Arm64OS.enterSvc current frame' k') :=
      hcurrent.mono fun j hj => by rw [← h.memMap] at hj; exact hj
    rw [run_svc_clone img current k hclone, run_svc_clone img current k' hclone'] at hout ⊢
    rw [hfill]
    have hpid := ofInt_inj (doFork_result hcurrent₁ (frame.regs 0) (frame.regs 1) (frame.regs 2))
      (doFork_result hcurrent₁' (frame'.regs 0) (frame'.regs 1) (frame'.regs 2)) hout
    refine (hentered.doFork hcurrent₁ (fun _ hT => ?_) hpid.symm).storePtRegs ?_ _ _
    · rw [hown hT, Arm64OS.enterSvc, Arm64OS.enterSvc, storeSyscallNo, storeSyscallNo]
      simp only [ptRegs_storePtRegs_self]
    · exact hcurrent₁.mono fun j hj => doFork_keeps_marks img current _ _ _ hj
  · have hfill : (TaskOp.svc frame).fill current ⟨k, filler⟩ = filler := if_neg hclone
    rw [hfill]
    by_cases hmalloc : toInt (frame.regs 8) = 5
    · rw [run_svc_malloc img current k hmalloc, run_svc_malloc img current k' (hno.trans hmalloc)]
      refine hentered.sysMalloc.2.storePtRegs ?_ _ _
      exact hcurrent₁.mono fun j hj => sysMalloc_keeps_marks hj
    · rw [run_svc_other img current k hclone hmalloc,
        run_svc_other img current k' (hno ▸ hclone) (hno ▸ hmalloc)]
      exact hentered.storePtRegs hcurrent₁ _ _

/-- One call in both runs. -/
theorem Alike.run (h : Alike T filler k k') (hcurrent : NotFree current k) {op op' : TaskOp}
    (hsame : op.SameCall op') (hown : current = T → op' = op)
    (hout : (op.run img current k).1 = (op'.run img current k').1) :
    Alike T (op.fill current ⟨k, filler⟩) (op.run img current k).2 (op'.run img current k').2 := by
  cases op with
  | svc frame =>
      cases op' with
      | svc frame' =>
          exact h.svc hcurrent hsame (fun hT => TaskOp.svc.inj (hown hT)) hout
      | thread => cases hsame
      | toUserSpace => cases hsame
  | thread fn arg flags =>
      cases op' with
      | svc => cases hsame
      | toUserSpace => cases hsame
      | thread fn' arg' flags' =>
          have hrefuses : ¬ FillsPage (flags ||| pfKthread) fn k := by
            rintro ⟨-, -, hflag, -⟩
            have hbit := congrArg (fun x => x.getLsbD 0) hflag
            simp [pfKthread] at hbit
          have hcurrent' : NotFree current k' :=
            hcurrent.mono fun j hj => by rw [← h.memMap] at hj; exact hj
          have hpid := ofInt_inj (doFork_result hcurrent _ _ _) (doFork_result hcurrent' _ _ _) hout
          have hforked := h.doFork hcurrent
            (fun hfills _ => absurd hfills hrefuses) hpid.symm
          rw [fillerAfter, if_neg hrefuses] at hforked
          exact hforked
  | toUserSpace pc =>
      cases op' with
      | svc => cases hsame
      | thread => cases hsame
      | toUserSpace pc' => exact h.moveToUserSpace hcurrent pc pc'

/-! ### Runs -/

theorem tasksHavePages_boot (img : Image) (k : Kernel) : TasksHavePages (Kernel.boot img k) := by
  intro i _ j hj _ he
  have hslot : (if i = 0 then img.initTask else 0#64) = pageAddr j := he
  split at hslot
  · exact pageAddr_ne_initTask img hj hslot.symm
  · exact pageAddr_ne_zero hj hslot.symm

theorem NotFree.of_inTable (h : TasksHavePages k) (hin : InTable k current) : NotFree current k := by
  obtain ⟨i, hi, rfl⟩ := hin
  exact h i hi

theorem TasksHavePages.doFork (h : TasksHavePages k) (hcurrent : NotFree current k)
    (cloneFlags stack arg : U64) :
    TasksHavePages (Arm64OS.doFork img current cloneFlags stack arg k).2 := by
  intro i hi
  have hmarks : ∀ j, k.memMap j ≠ 0#8 →
      (Arm64OS.doFork img current cloneFlags stack arg k).2.memMap j ≠ 0#8 :=
    fun j hj => doFork_keeps_marks img current cloneFlags stack arg hj
  rcases doFork_cases img cloneFlags stack arg k hcurrent with
    ⟨k', hk, -, hsame, -⟩ | ⟨j, pid, k', hj, -, -, -, -, -, hk, hmap, hforked⟩
  · rw [hk] at hmarks ⊢
    have hslot : k'.gTask = k.gTask := by
      rcases hsame with rfl | ⟨j, -, -, hagree⟩
      · rfl
      · exact hagree.gTask
    show NotFree (k'.gTask i) k'
    rw [hslot]
    exact (h i hi).mono hmarks
  · rw [hk] at hmarks ⊢
    show NotFree (k'.gTask i) k'
    rw [hforked.gTask]
    by_cases hpid : i = pid
    · rw [hpid, Function.update_self]
      intro m hm hfree he
      obtain rfl := pageAddr_inj hj hm he
      rw [hmap, Function.update_self] at hfree
      cases hfree
    · rw [Function.update_of_ne hpid]
      exact (h i hi).mono hmarks

/-- No call gives a task a free page. -/
theorem TasksHavePages.run (h : TasksHavePages k) (hcurrent : NotFree current k) (op : TaskOp) :
    TasksHavePages (op.run img current k).2 := by
  cases op with
  | svc frame =>
      by_cases hclone : toInt (frame.regs 8) = nrClone
      · rw [run_svc_clone img current k hclone]
        exact TasksHavePages.doFork (k := enterSvc current frame k) h hcurrent _ _ _
      · by_cases hmalloc : toInt (frame.regs 8) = 5
        · rw [run_svc_malloc img current k hmalloc]
          rcases sysMalloc_cases (enterSvc current frame k) with ⟨j, -, -, -, heq⟩ | ⟨-, heq⟩
          · rw [heq]
            exact fun i hi => (h i hi).take j
          · rw [heq]
            exact h
        · rw [run_svc_other img current k hclone hmalloc]
          exact h
  | thread fn arg flags => exact h.doFork hcurrent _ _ _
  | toUserSpace pc =>
      rcases getFreePage_cases k.memMap with ⟨j, hj, -, -, hget⟩ | ⟨-, hget⟩
      · have hne := pageAddr_ne_zero hj
        simp only [TaskOp.run, moveToUserSpace, hget, hne, if_false]
        exact fun i hi => (h i hi).take j
      · simp only [TaskOp.run, moveToUserSpace, hget, if_true]
        exact h

/-- What the two runs keep. -/
structure PairInv (T : U64) (s : PageRun × PageRun) : Prop where
  alike : Alike T s.1.filler s.1.k s.2.k
  tasks : TasksHavePages s.1.k

variable {l : TwoCalls T} {s t : PageRun × PageRun}

theorem pairStep_cases (hstep : pairStep img l s = some t) :
    (l.op.run img l.current s.1.k).1 = (l.op'.run img l.current s.2.k).1 ∧
      InTable s.1.k l.current ∧
      t.1 = ⟨(l.op.run img l.current s.1.k).2, l.op.fill l.current s.1⟩ ∧
      t.2.k = (l.op'.run img l.current s.2.k).2 := by
  unfold pairStep at hstep
  split at hstep
  · rename_i hout
    obtain ⟨a, ha, hrest⟩ := Option.bind_eq_some_iff.mp hstep
    obtain ⟨b, hb, rfl⟩ := Option.map_eq_some_iff.mp hrest
    unfold callStep at ha hb
    split at ha
    · split at hb
      · rename_i hin _
        obtain rfl := Option.some.inj ha
        obtain rfl := Option.some.inj hb
        exact ⟨hout, hin.1, rfl, rfl⟩
      · cases hb
    · cases ha
  · cases hstep

theorem PairInv.step (h : PairInv T s) (hstep : pairStep img l s = some t) : PairInv T t := by
  obtain ⟨hout, hin, ht, ht'⟩ := pairStep_cases hstep
  have hcurrent := NotFree.of_inTable h.tasks hin
  refine ⟨?_, ?_⟩
  · rw [ht, ht']
    exact h.alike.run hcurrent l.same l.own hout
  · rw [ht]
    exact h.tasks.run hcurrent l.op

theorem SameContents.storePtRegs {p : U64} (h : SameContents p k k') (hne : p ≠ current)
    (frame frame' : PtRegs) :
    SameContents p (k.storePtRegs current frame) (k'.storePtRegs current frame') := by
  refine ⟨h.task, h.runList, h.ring, ?_⟩
  rw [ptRegs_storePtRegs_of_ne hne, ptRegs_storePtRegs_of_ne hne]
  exact h.ptRegs

theorem SameContents.withMemMap {p : U64} (h : SameContents p k k') (memMap memMap' : PageMap) :
    SameContents p { k with memMap := memMap } { k' with memMap := memMap' } :=
  ⟨h.task, h.runList, h.ring, h.ptRegs⟩

theorem SameContents.storeX0 {p : U64} (h : SameContents p k k') (hne : p ≠ current)
    (ret ret' : U64) :
    SameContents p (Arm64OS.storeX0 current ret k) (Arm64OS.storeX0 current ret' k') := by
  rw [Arm64OS.storeX0, Arm64OS.storeX0]
  exact h.storePtRegs hne _ _

/-- A page that was not filled for another task is handed out with the same contents. -/
theorem PairInv.mallocAlike (h : PairInv T s) (hclean : CleanPage l s) : MallocAlike img l s := by
  intro hT hmalloc t hstep hpage
  obtain ⟨-, hin, ht, ht'⟩ := pairStep_cases hstep
  have hcurrent := NotFree.of_inTable h.tasks hin
  have hfiller := hclean hT hmalloc
  rw [ht, ht', l.own hT]
  cases hop : l.op with
  | thread => rw [hop] at hmalloc; cases hmalloc
  | toUserSpace => rw [hop] at hmalloc; cases hmalloc
  | svc frame =>
      rw [hop] at hmalloc hpage
      have hno : toInt (frame.regs 8) = 5 := hmalloc
      have hentered := h.alike.enterSvc hcurrent frame frame
      rw [run_svc_malloc img _ s.1.k hno] at hpage ⊢
      rw [run_svc_malloc img _ s.2.k hno]
      rcases getFreePage_cases s.1.k.memMap with ⟨j, hj, hfree, -, hget⟩ | ⟨-, hget⟩
      · rw [hget] at hfiller
        have hne := pageAddr_ne_zero hj
        have hget₁ : getFreePage (Arm64OS.enterSvc l.current frame s.1.k).memMap =
          (pageAddr j, Function.update s.1.k.memMap j 1#8) := hget
        have hget₂ : getFreePage (Arm64OS.enterSvc l.current frame s.2.k).memMap =
          (pageAddr j, Function.update s.1.k.memMap j 1#8) := by rw [hentered.memMap, hget₁]
        simp only [sysMalloc, hget₁, hget₂, hne, if_false]
        -- the call writes the frame of `T` and the map
        have hcontents := hentered.contents hj hfree hfiller
        have hcurrent' : pageAddr j ≠ l.current := fun he => hcurrent j hj hfree he.symm
        exact (hcontents.withMemMap _ _).storeX0 hcurrent' _ _
      · have hget₁ : getFreePage (Arm64OS.enterSvc l.current frame s.1.k).memMap =
          (0#64, s.1.k.memMap) := hget
        simp only [sysMalloc, hget₁, if_true] at hpage
        exact absurd rfl hpage

/-- The kernels differ only in what belongs to the tasks other than `T`. -/
structure DifferInOthers (T : U64) (k k' : Kernel) : Prop where
  memMap : k'.memMap = k.memMap
  gTask : k'.gTask = k.gTask
  runList : k'.runList = k.runList
  ring : k'.ring = k.ring
  task : ∀ q, ¬ (InTable k q ∧ q ≠ T) → k'.task q = k.task q
  ptRegs : ∀ q, ¬ (InTable k q ∧ q ≠ T) → k'.ptRegs (taskPtRegs q) = k.ptRegs (taskPtRegs q)

theorem DifferInOthers.alike (h : DifferInOthers T k k') (htasks : TasksHavePages k)
    (filler : U64 → Option U64) : Alike T filler k k' := by
  have hpage : ∀ j, j < nrPages → k.memMap j = 0#8 → ¬ (InTable k (pageAddr j) ∧ pageAddr j ≠ T) := by
    rintro j hj hfree ⟨hin, -⟩
    exact NotFree.of_inTable htasks hin j hj hfree rfl
  refine ⟨h.memMap, h.gTask, h.runList, h.ring, ?_, ?_⟩
  · intro j hj hfree
    exact h.task _ (hpage j hj hfree)
  · intro j hj hfree _
    exact h.ptRegs _ (hpage j hj hfree)

/-- **What a page from malloc tells.**  Two runs from the start of the kernel, with the same
calls and the same outcomes, in which only the tasks other than `T` have other registers: as long
as the page that is free lowest when `T` calls malloc was not last filled by a refused `do_fork`
of another task, each page that `T` gets holds the same in both. -/
theorem mallocAlike_run (img : Image) {T : U64} {k k' : Kernel}
    (hstart : DifferInOthers T (Kernel.boot img k) (Kernel.boot img k')) {ls : List (TwoCalls T)}
    (hclean : Run.Along (pairStep img) CleanPage ls
      (⟨Kernel.boot img k, fun _ => none⟩, ⟨Kernel.boot img k', fun _ => none⟩)) :
    Run.Along (pairStep img) (MallocAlike img) ls
      (⟨Kernel.boot img k, fun _ => none⟩, ⟨Kernel.boot img k', fun _ => none⟩) := by
  have htasks := tasksHavePages_boot img k
  refine Run.along_of_invariant (I := PairInv T) ?_ ?_ ⟨hstart.alike htasks _, htasks⟩ hclean
  · intro l s t h _ hstep
    exact h.step hstep
  · intro l s h hl
    exact h.mallocAlike hl

/-! ### Two tasks -/

/-- The registers of a call of clone with a stack that is not aligned. -/
def cloneFrame (x5 : U64) : PtRegs :=
  { PtRegs.zero with
    regs := fun i => if i = 1 then 8 else if i = 5 then x5 else if i = 8 then 4 else 0 }

def mallocFrame : PtRegs := { PtRegs.zero with regs := fun i => if i = 8 then 5 else 0 }

/-- A call with the same registers in both runs. -/
def TwoCalls.both {T : U64} (current : U64) (op : TaskOp) (same : op.SameCall op) : TwoCalls T :=
  ⟨current, op, op, same, fun _ => rfl⟩

def PageRun.sample : PageRun := ⟨Kernel.boot Image.sample Kernel.blank, fun _ => none⟩

/-- `init_task` makes a task, which goes to user space and calls malloc. -/
theorem mallocAlike_run_sample :
    Run.Along (pairStep Image.sample) (MallocAlike Image.sample)
      [TwoCalls.both (T := pageAddr 0) Image.sample.initTask (.thread 0x84000 0 0) trivial,
        TwoCalls.both (pageAddr 0) (.toUserSpace 0x85000) trivial,
        TwoCalls.both (pageAddr 0) (.svc mallocFrame) rfl]
      (PageRun.sample, PageRun.sample) := by
  have hstart : DifferInOthers (pageAddr 0) (Kernel.boot Image.sample Kernel.blank)
      (Kernel.boot Image.sample Kernel.blank) := by
    constructor <;> intros <;> rfl
  refine mallocAlike_run Image.sample hstart ⟨fun _ h => h.elim, fun t ht => ?_⟩
  refine ⟨fun _ h => h.elim, fun t' ht' => ⟨fun _ _ => Or.inl ?_, fun _ _ => trivial⟩⟩
  rw [(pairStep_cases ht').2.2.1]
  show t.1.filler _ = none
  rw [(pairStep_cases ht).2.2.1]
  rfl

/-- Two tasks in user space; the first one calls clone with a stack that is refused, with 1 or
with 2 in its `x5`. -/
def leakCalls : List (TwoCalls (pageAddr 1)) :=
  [.both Image.sample.initTask (.thread 0x84000 0 0) trivial,
    .both Image.sample.initTask (.thread 0x84000 0 0) trivial,
    .both (pageAddr 0) (.toUserSpace 0x85000) trivial,
    .both (pageAddr 1) (.toUserSpace 0x85000) trivial,
    ⟨pageAddr 0, .svc (cloneFrame 1), .svc (cloneFrame 2), rfl, fun h => absurd h (by decide)⟩]

def leakMalloc : TwoCalls (pageAddr 1) := .both (pageAddr 1) (.svc mallocFrame) rfl

set_option maxRecDepth 100000 in
/-- The page that the second one then gets from malloc holds this register. -/
theorem malloc_page_leaks :
    ¬ Run.Along (pairStep Image.sample) (MallocAlike Image.sample) (leakCalls ++ [leakMalloc])
      (PageRun.sample, PageRun.sample) := by
  intro h
  have hpage : (Run.exec (pairStep Image.sample) leakCalls (PageRun.sample, PageRun.sample)).map
      (fun t => (leakMalloc.op.run Image.sample leakMalloc.current t.1.k).1) = some (pageAddr 4) := by
    rfl
  have hframes : (Run.exec (pairStep Image.sample) (leakCalls ++ [leakMalloc])
      (PageRun.sample, PageRun.sample)).map (fun t =>
        ((t.1.k.ptRegs (taskPtRegs (pageAddr 4))).regs 5,
          (t.2.k.ptRegs (taskPtRegs (pageAddr 4))).regs 5)) = some (1, 2) := by
    rfl
  obtain ⟨t, ht, hpage⟩ := Option.map_eq_some_iff.mp hpage
  rw [Run.exec_append, ht] at hframes
  obtain ⟨t', ht', hframes⟩ := Option.map_eq_some_iff.mp hframes
  rw [Option.bind_some, Run.exec_cons] at ht'
  obtain ⟨u, hu, hend⟩ := Option.bind_eq_some_iff.mp ht'
  obtain rfl := Option.some.inj hend
  have hsame := h.at_step ht rfl rfl u hu (by rw [hpage]; decide)
  rw [hpage] at hsame
  obtain ⟨hone, htwo⟩ := Prod.mk.inj hframes
  rw [hsame.ptRegs, hone] at htwo
  exact absurd htwo (by decide)

end Arm64OS
