import Arm64OS.Arch.EntryNestInv

/-!
# Interrupts bring back what they found

The run of the machine of `EntryNest` from one task on its stack.
-/

namespace Arm64OS

open A64 ByteMem

theorem NestInv.run {img : EntryImage} {m m' : NestState} (h : NestInv img m)
    (hrun : NestRun img m m') : NestInv img m' := by
  induction hrun with
  | refl => exact h
  | tail _ hstep ih => exact ih.step hstep

theorem NestState.Initial.run {img : EntryImage} {m m' : NestState} (h : m.Initial)
    (hrun : NestRun img m m') : NestInv img m' :=
  (h.inv img).run hrun

/-- `cpu_switch_to` obeys the AAPCS64 as its callers see it: it comes back to the task that
called it with `x19` to `x29`, `sp` and the return address of that call. -/
theorem switch_returns {img : EntryImage} {m₀ m : NestState} {next : Word} {s : State}
    (hstart : m₀.Initial) (hrun : NestRun img m₀ m) (hmode : m.mode = .switching next)
    (hfetch : img.text.fetch m.cpu.pc = some (.ret lr)) (hstep : img.text.step m.cpu = some s) :
    m.away next = some (cpuContextOf s) ∧ s.pc = (cpuContextOf s).pc := by
  cases hstart.run hrun with
  | code hcode _ => rw [hmode] at hcode; cases hcode
  | entry hentry _ => rw [hmode] at hentry; cases hentry
  | switching hswitch h =>
      rw [hmode] at hswitch
      obtain rfl := Mode.switching.inj hswitch
      obtain ⟨-, -, hback, hpc⟩ := h.at_return hfetch hstep
      exact ⟨hback, hpc⟩

/-! ## Runs that go on -/

/-- What stands between two states of one task: the processor, and what is open on its stack. -/
structure SameTasks (m m' : NestState) : Prop where
  current : m'.current = m.current
  away : m'.away = m.away
  others : ∀ v, v ≠ m.current → m'.activations v = m.activations v

theorem SameTasks.refl (m : NestState) : SameTasks m m := ⟨rfl, rfl, fun _ _ => rfl⟩

theorem SameTasks.trans {m m' m'' : NestState} (h : SameTasks m m') (h' : SameTasks m' m'') :
    SameTasks m m'' := by
  refine ⟨h'.current.trans h.current, h'.away.trans h.away, fun v hv => ?_⟩
  rw [h'.others v (h.current ▸ hv), h.others v hv]

/-- A step on the stack in use. -/
theorem sameTasks_setActivations (m : NestState) (acts : List Activation) (cpu : State)
    (mode : Mode) : SameTasks m { m.setActivations acts with cpu := cpu, mode := mode } :=
  ⟨rfl, rfl, fun _ hv => Function.update_of_ne hv ..⟩

theorem nestRun_of_leads (img : EntryImage) {m : NestState} {u : State} (hmode : m.mode ≠ .code)
    (h : img.text.Leads m.cpu u) : NestRun img m { m with cpu := u } := by
  induction h with
  | refl => exact Relation.ReflTransGen.refl
  | tail _ hlast ih =>
      exact ih.tail (NestStep.instr (m := { m with cpu := _ }) hmode hlast.1 hlast.2)

/-- A C function may do its statements and nothing else. -/
theorem exists_finished (img : EntryImage) {entry : State} {rest : List Activation}
    (todo : List CStmt) {m : NestState} (hmode : m.mode = .code)
    (hacts : m.activations m.current = .call entry todo :: rest) :
    ∃ m', NestRun img m m' ∧ m'.mode = .code ∧ SameTasks m m' ∧
      m'.activations m'.current = .call entry [] :: rest ∧ m'.cpu.mem = m.cpu.mem := by
  induction todo generalizing m with
  | nil => exact ⟨m, Relation.ReflTransGen.refl, hmode, SameTasks.refl m, hacts, rfl⟩
  | cons stmt todo ih =>
      obtain ⟨m₁, hstep, hmode₁, hsame₁, hacts₁, hmem₁⟩ : ∃ m₁, NestStep img m m₁ ∧
          m₁.mode = .code ∧ SameTasks m m₁ ∧
          m₁.activations m₁.current = .call entry todo :: rest ∧ m₁.cpu.mem = m.cpu.mem := by
        have hnext := activations_setActivations m (.call entry todo :: rest)
        have hsame := sameTasks_setActivations m (.call entry todo :: rest)
        cases stmt with
        | irqEnable => exact ⟨_, NestStep.irqEnable hmode hacts, rfl, hsame _ _, hnext, rfl⟩
        | irqDisable => exact ⟨_, NestStep.irqDisable hmode hacts, rfl, hsame _ _, hnext, rfl⟩
        | switchTo =>
            exact ⟨_, NestStep.stay hmode (by rw [hacts]; rfl), rfl, hsame _ _, hnext, rfl⟩
      obtain ⟨m', hrun, hmode', hsame', hacts', hmem'⟩ := ih hmode₁ hacts₁
      exact ⟨m', Relation.ReflTransGen.head hstep hrun, hmode', hsame₁.trans hsame', hacts',
        hmem'.trans hmem₁⟩

theorem KeepsStacks.refl (m : NestState) : KeepsStacks m m.cpu.mem :=
  ⟨SameOn.refl _ _ _, fun _ _ _ => SameOn.refl _ _ _, fun _ _ _ => SameOn.refl _ _ _⟩

/-- A C function may do what it has yet to do and return. -/
theorem exists_returned (img : EntryImage) {m : NestState} {entry : State} {todo : List CStmt}
    {rest : List Activation} (hmode : m.mode = .code)
    (hacts : m.activations m.current = .call entry todo :: rest) :
    ∃ m', NestRun img m m' ∧ m'.mode = .entry ∧ SameTasks m m' ∧
      m'.activations m'.current = rest ∧ Aapcs64 entry m'.cpu ∧ m'.cpu.mem = m.cpu.mem := by
  obtain ⟨m₁, hrun, hmode₁, hsame, hacts₁, hmem⟩ := exists_finished img todo hmode hacts
  obtain ⟨s, hs⟩ : ∃ s : State,
    { m₁.cpu with pc := entry.x lr, sp := entry.sp, x := entry.x } = s := ⟨_, rfl⟩
  have habi : Aapcs64 entry s := by
    rw [← hs]
    exact ⟨rfl, rfl, fun _ _ _ => rfl⟩
  have hmem₁ : s.mem = m₁.cpu.mem := by rw [← hs]
  have hmask : s.masked = m₁.cpu.masked := by
    rw [← hs]
    rfl
  exact ⟨_, hrun.tail (NestStep.returns hmode₁ hacts₁ habi (hmem₁ ▸ KeepsStacks.refl m₁) hmask),
    rfl, hsame.trans (sameTasks_setActivations m₁ rest s .entry),
    activations_setActivations m₁ rest, habi, hmem₁.trans hmem⟩

/-- Where the entry code has got to with the frame of the interruption in place. -/
theorem exists_eret_of_out {img : EntryImage} {m : NestState} (hmode : m.mode = .entry) {t : State}
    (hleads : img.text.Leads m.cpu t) (hpc : t.pc = img.text.addr .el1IrqOut) {found : Context}
    (hframe : Cells t.mem t.sp found.words) :
    ∃ m' s, NestRun img m m' ∧ m'.mode = .entry ∧ SameTasks m m' ∧
      m'.activations m'.current = m.activations m.current ∧ img.text.fetch m'.cpu.pc = some .eret ∧
      img.text.step m'.cpu = some s := by
  obtain ⟨u, hu, hfetch, -⟩ := img.leads_el1IrqOut hpc hframe
  have hnot : m.mode ≠ .code := by
    rw [hmode]
    nofun
  have hstep : img.text.step u = some (A64.execInstr img.text.addr .eret u) := by
    rw [Program.step, hfetch, Option.map_some]
  exact ⟨{ m with cpu := u }, _, nestRun_of_leads img hnot (hleads.trans hu), hmode,
    ⟨rfl, rfl, fun _ _ => rfl⟩, rfl, hfetch, hstep⟩

/-- `preempt_schedule_irq` may return, and the entry code goes on to the `eret`. -/
theorem exists_eret_of_preempting (img : EntryImage) {m : NestState} {entry : State}
    {todo : List CStmt} {found : Context} {rest : List Activation} (hmode : m.mode = .code)
    (hacts : m.activations m.current = .call entry todo :: .irq found :: rest)
    (hlr : entry.x lr = img.text.at 106) (hx : entry.x 24 = img.text.addr .el1IrqOut)
    (hframe : Cells m.cpu.mem entry.sp found.words) :
    ∃ m' s, NestRun img m m' ∧ m'.mode = .entry ∧ SameTasks m m' ∧
      m'.activations m'.current = .irq found :: rest ∧ img.text.fetch m'.cpu.pc = some .eret ∧
      img.text.step m'.cpu = some s := by
  obtain ⟨m₁, hrun, hmode₁, hsame, hacts₁, habi, hmem⟩ := exists_returned img hmode hacts
  obtain ⟨t, ht, hpc⟩ := img.passes_el1PreemptReturn (habi.pc.trans hlr)
    ((habi.saved 24 (by decide) (by decide)).trans hx)
  have hframe' : Cells t.mem t.sp found.words := by
    rw [ht.2.2, ht.2.1, hmem, habi.sp]
    exact hframe
  obtain ⟨m', s, hrun', hmode', hsame', hacts', hfetch, hstep⟩ :=
    exists_eret_of_out hmode₁ ht.1 hpc hframe'
  exact ⟨m', s, hrun.trans hrun', hmode', hsame.trans hsame', hacts'.trans hacts₁, hfetch, hstep⟩

/-! ## A run through an interruption -/

/-- The state in which the entry code calls a C function. -/
def NestState.called (f : CFunction) (m : NestState) : NestState :=
  { m.setActivations (.call m.cpu f.stmts :: m.activations m.current) with mode := .code }

theorem activations_called (f : CFunction) (m : NestState) :
    (m.called f).activations (m.called f).current =
      .call m.cpu f.stmts :: m.activations m.current :=
  activations_setActivations m _

/-- `irq_handler` may return, and the entry code goes on to the end of the interruption or to
`preempt_schedule_irq`. -/
theorem exists_handled (img : EntryImage) {m : NestState}
    (hroom : m.current.toNat + taskSize + 320 ≤ m.cpu.sp.toNat) :
    ∃ m₁, NestRun img (m.interrupted img) m₁ ∧ m₁.mode = .entry ∧ SameTasks m m₁ ∧
      m₁.activations m₁.current = .irq (kernelContext m.cpu) :: m.activations m.current ∧
      m₁.cpu.sp = m.cpu.sp - sFrameSize ∧
      m₁.cpu.mem = storeCells (m.cpu.sp - sFrameSize) 0 (kernelContext m.cpu).words m.cpu.mem ∧
      Cells m₁.cpu.mem m₁.cpu.sp (kernelContext m.cpu).words ∧
      (¬ Preemptible m₁.cpu ∧ m₁.cpu.pc = img.text.addr .el1IrqOut ∨
        Preemptible m₁.cpu ∧ m₁.cpu.pc = img.text.addr .preemptScheduleIrq ∧
          m₁.cpu.x lr = img.text.at 106 ∧ m₁.cpu.x 24 = img.text.addr .el1IrqOut) := by
  -- from the vector to the `bl` of `irq_handler`
  obtain ⟨u, hleads, hpc, hsp, hlr, hmem⟩ := img.leads_irqHandler m.cpu
  obtain ⟨m₀, hm₀⟩ : ∃ m₀, { m.interrupted img with cpu := u } = m₀ := ⟨_, rfl⟩
  have hrun₀ : NestRun img (m.interrupted img) m₀ :=
    hm₀ ▸ nestRun_of_leads img (m := m.interrupted img) nofun hleads
  have hcpu₀ : m₀.cpu = u := by rw [← hm₀]
  have hsame₀ : SameTasks m m₀ := by
    rw [← hm₀]
    exact sameTasks_setActivations m _ u .entry
  have hacts₀ : m₀.activations m₀.current =
      .irq (kernelContext m.cpu) :: m.activations m.current := by
    rw [← hm₀]
    exact activations_setActivations m _
  -- the handler, undisturbed
  have hcall : NestStep img m₀ (m₀.called .irqHandler) :=
    NestStep.call .irqHandler (by rw [← hm₀]; rfl) (hcpu₀ ▸ hpc)
  obtain ⟨m₁, hrun₁, hmode₁, hsame₁, hacts₁, habi, hmem₁⟩ :=
    exists_returned img (m := m₀.called .irqHandler) rfl (activations_called .irqHandler m₀)
  rw [hcpu₀] at habi
  replace hmem₁ : m₁.cpu.mem = u.mem := hmem₁.trans (congrArg State.mem hcpu₀)
  -- the tests of the counter and of `need_resched` behind it
  obtain ⟨t, ht, hcases⟩ := img.passes_el1IrqTail (habi.pc.trans hlr)
  have hnot : m₁.mode ≠ .code := by
    rw [hmode₁]
    nofun
  have htsp : t.sp = m.cpu.sp - sFrameSize := ht.2.1.trans (habi.sp.trans hsp)
  have htmem : t.mem = storeCells (m.cpu.sp - sFrameSize) 0 (kernelContext m.cpu).words m.cpu.mem :=
    ht.2.2.trans (hmem₁.trans hmem)
  have hframe : Cells t.mem t.sp (kernelContext m.cpu).words := by
    have haddr := toNat_frame hroom
    have hlt := m.cpu.sp.isLt
    rw [htmem, htsp]
    exact cells_storeCells _ (by rw [Context.length_words]; omega) _
  have hpreemptible : Preemptible t ↔ Preemptible m₁.cpu := by
    unfold Preemptible
    rw [ht.2.1, ht.2.2]
  rw [← hpreemptible] at hcases
  have hsame : SameTasks m m₁ :=
    hsame₀.trans ((sameTasks_setActivations m₀ _ m₀.cpu .code).trans hsame₁)
  exact ⟨{ m₁ with cpu := t }, ((hrun₀.tail hcall).trans hrun₁).trans
    (nestRun_of_leads img hnot ht.1), hmode₁, ⟨hsame.current, hsame.away, hsame.others⟩,
    hacts₁.trans hacts₀, htsp, htmem, hframe, hcases⟩

/-- Where the task may be preempted, it comes to `preempt_schedule_irq`. -/
theorem exists_preempting (img : EntryImage) {m : NestState} (haligned : m.current.toNat % 4096 = 0)
    (hroom : m.current.toNat + taskSize + 320 ≤ m.cpu.sp.toNat)
    (hhigh : m.cpu.sp.toNat ≤ m.current.toNat + 4096)
    (hcount : load m.cpu.mem (m.current + tiPreempt) 4 = 0#32)
    (hresched : load m.cpu.mem (m.current + needReschedOffset) 4 ≠ 0#32) :
    ∃ m₁, NestRun img (m.interrupted img) m₁ ∧ m₁.mode = .code ∧ SameTasks m m₁ ∧
      ∃ entry, m₁.activations m₁.current =
          .call entry CFunction.preemptScheduleIrq.stmts :: .irq (kernelContext m.cpu) ::
            m.activations m.current ∧
        m₁.cpu = entry ∧ entry.sp = m.cpu.sp - sFrameSize ∧ entry.x lr = img.text.at 106 ∧
        entry.x 24 = img.text.addr .el1IrqOut := by
  obtain ⟨m₁, hrun, hmode, hsame, hacts, hsp, hmem, -, hcases⟩ := exists_handled img hroom
  have hframe := toNat_frame hroom
  have hlt := m.current.isLt
  have htask : taskSize = 168 := rfl
  have hpage : taskOfSp m₁.cpu.sp = m.current := by
    rw [hsp]
    exact taskOfSp_eq haligned (by omega) (by omega)
  -- the frame is above the fields that `el1_irq` reads
  have hfields : SameOn m.current.toNat (m.current.toNat + taskSize) m.cpu.mem m₁.cpu.mem := by
    rw [hmem]
    exact sameOn_storeCells _ (by rw [Context.length_words]; omega) (by omega) _
  have haddr : (m.current + tiPreempt).toNat = m.current.toNat + 148 :=
    toNat_add_ofNat (i := 148) (by omega)
  have haddr' : (m.current + needReschedOffset).toNat = m.current.toNat + 144 :=
    toNat_add_ofNat (i := 144) (by omega)
  have hpreemptible : Preemptible m₁.cpu := by
    unfold Preemptible
    rw [hpage, hfields.load (by omega) (by omega) (by omega),
      hfields.load (by omega) (by omega) (by omega)]
    exact ⟨hcount, hresched⟩
  rcases hcases with ⟨hnot, -⟩ | ⟨-, hpc, hlr, hx⟩
  · exact absurd hpreemptible hnot
  · have hopen := activations_called .preemptScheduleIrq m₁
    rw [hacts] at hopen
    exact ⟨m₁.called .preemptScheduleIrq, hrun.tail (NestStep.call .preemptScheduleIrq hmode hpc),
      rfl, hsame.trans (sameTasks_setActivations m₁ _ m₁.cpu .code), m₁.cpu, hopen, rfl, hsp, hlr,
      hx⟩

/-- Every interruption may come to its `eret`. -/
theorem exists_eret (img : EntryImage) {m : NestState}
    (hroom : m.current.toNat + taskSize + 320 ≤ m.cpu.sp.toNat) :
    ∃ m' s, NestRun img (m.interrupted img) m' ∧ m'.mode = .entry ∧ SameTasks m m' ∧
      m'.activations m'.current = .irq (kernelContext m.cpu) :: m.activations m.current ∧
      img.text.fetch m'.cpu.pc = some .eret ∧ img.text.step m'.cpu = some s := by
  obtain ⟨m₁, hrun, hmode, hsame, hacts, hsp, -, hframe, ⟨-, hout⟩ | ⟨-, hpc, hlr, hx⟩⟩ :=
    exists_handled img hroom
  · obtain ⟨m', s, hrun', hmode', hsame', hacts', hfetch, hstep⟩ :=
      exists_eret_of_out hmode Relation.ReflTransGen.refl hout hframe
    exact ⟨m', s, hrun.trans hrun', hmode', hsame.trans hsame', hacts'.trans hacts, hfetch, hstep⟩
  · have hcall : NestStep img m₁ (m₁.called .preemptScheduleIrq) :=
      NestStep.call .preemptScheduleIrq hmode hpc
    have hopen := activations_called .preemptScheduleIrq m₁
    rw [hacts] at hopen
    obtain ⟨m', s, hrun', hmode', hsame', hacts', hfetch, hstep⟩ :=
      exists_eret_of_preempting img (m := m₁.called .preemptScheduleIrq) rfl hopen hlr hx hframe
    have hcalled := sameTasks_setActivations m₁
      (.call m₁.cpu CFunction.preemptScheduleIrq.stmts :: m₁.activations m₁.current) m₁.cpu .code
    exact ⟨m', s, (hrun.tail hcall).trans hrun', hmode', hsame.trans (hcalled.trans hsame'), hacts',
      hfetch, hstep⟩

/-- An interrupt may be over before the code that it interrupts goes on. -/
theorem exists_undisturbed {img : EntryImage} {m : NestState} (h : NestInv img m)
    (hmask : m.cpu.masked = false)
    (hroom : m.current.toNat + taskSize + 320 ≤ m.cpu.sp.toNat) :
    ∃ m', NestRun img (m.interrupted img) m' ∧ m'.mode = .code ∧ SameTasks m m' ∧
      m'.activations m'.current = m.activations m.current ∧ m'.cpu.sp = m.cpu.sp := by
  obtain ⟨m₁, s, hrun, hmode₁, hsame, hacts, hfetch, hstep⟩ := exists_eret img hroom
  obtain ⟨u, hu⟩ := ((h.step (NestStep.irq hmask hroom)).run hrun).inEntry hmode₁
  obtain ⟨-, hsp, -⟩ := hu.at_eret hfetch hstep hacts
  exact ⟨_, hrun.tail (NestStep.eret hmode₁ hfetch hacts hstep), rfl,
    hsame.trans (sameTasks_setActivations m₁ _ s .code), activations_setActivations m₁ _, hsp⟩

/-- The state behind the call of `cpu_switch_to`. -/
def NestState.switchingTo (img : EntryImage) (next : Word) (acts : List Activation)
    (m : NestState) : NestState :=
  { m.setActivations acts with
    cpu := m.cpu.setPc (img.text.addr .cpuSwitchTo)
    mode := .switching next
    away := Function.update m.away m.current (some (cpuContextOf m.cpu)) }

/-- A task that is switched out may be switched to. -/
theorem exists_switched {img : EntryImage} {m : NestState} (h : NestInv img m)
    (hmode : m.mode = .code) {next : Word} {acts : List Activation}
    (hacts : behindSwitch (m.activations m.current) = some acts) (hne : next ≠ m.current)
    (haway : (m.away next).isSome) :
    ∃ m', NestRun img m m' ∧ m'.mode = .code ∧ m'.current = next ∧
      m'.activations = Function.update m.activations m.current acts ∧
      (m'.away m.current).isSome := by
  have hcode := h.inCode hmode
  -- the arguments of `cpu_switch_to`, with the interrupts masked
  obtain ⟨s, hs⟩ : ∃ s : State, { m.cpu with
    x := Function.update (Function.update m.cpu.x 0 m.current) 1 next
    pstate := m.cpu.pstate ||| irqMask } = s := ⟨_, rfl⟩
  have hx₀ : s.x 0 = m.current := by
    rw [← hs]
    rfl
  have hx₁ : s.x 1 = next := by
    rw [← hs]
    rfl
  have hsp : s.sp = m.cpu.sp := by rw [← hs]
  have hmem : s.mem = m.cpu.mem := by rw [← hs]
  have hmasked : s.masked = true := by
    rw [← hs]
    exact masked_irqDisable _
  have hmask : m.activations m.current ≠ [] → s.masked = m.cpu.masked := by
    intro hopen
    have hruns := hcode.runs
    rcases behindSwitch_cases hacts with ⟨hnil, -⟩ | ⟨entry, todo, rest, hcall, -⟩
    · exact absurd hnil hopen
    · rw [hcall] at hruns
      exact hmasked.trans hruns.symm
  have hworks : Works m s :=
    ⟨hmem ▸ KeepsStacks.refl m, hsp ▸ hcode.low, hsp ▸ hcode.high, hmask⟩
  have hwork : NestStep img m { m with cpu := s } := NestStep.work hmode hworks
  have hcall : NestStep img { m with cpu := s } (({ m with cpu := s }).switchingTo img next acts) :=
    NestStep.switchTo hmode hmasked hacts hx₀ hx₁ hne haway
  obtain ⟨u, hu⟩ := ((h.step hwork).inCode hmode).switchTo hmasked hacts hx₀ hx₁ hne haway
  have hrun := nestRun_of_leads img (m := ({ m with cpu := s }).switchingTo img next acts)
    (fun hcode => Mode.noConfusion hcode) hu.leads
  have hstep : img.text.step u = some (A64.execInstr img.text.addr (.ret lr) u) := by
    rw [Program.step, hu.fetch, Option.map_some]
  refine ⟨_, (((Relation.ReflTransGen.single hwork).tail hcall).trans hrun).tail
    (NestStep.switched rfl hu.fetch hstep), rfl, rfl, rfl, ?_⟩
  show (Function.update (Function.update m.away m.current _) next none m.current).isSome
  rw [Function.update_of_ne hne.symm, Function.update_self]
  rfl

/-- An interruption with everything in it: the task is preempted, interrupted again in
`preempt_schedule_irq`, and another task runs before the `eret`. -/
theorem exists_preempted {img : EntryImage} {m : NestState} (h : NestInv img m)
    (hmode : m.mode = .code) (hmask : m.cpu.masked = false)
    (hroom : m.current.toNat + taskSize + 640 ≤ m.cpu.sp.toNat)
    (hcount : load m.cpu.mem (m.current + tiPreempt) 4 = 0#32)
    (hresched : load m.cpu.mem (m.current + needReschedOffset) 4 ≠ 0#32) {next : Word}
    (hne : next ≠ m.current) (haway : (m.away next).isSome) (hnext : m.activations next = []) :
    ∃ m₁ m₂ m' s, NestRun img (m.interrupted img) m₁ ∧ NestStep img m₁ (m₁.interrupted img) ∧
      NestRun img (m₁.interrupted img) m₂ ∧ m₂.current = next ∧ NestRun img m₂ m' ∧
      m'.mode = .entry ∧ m'.current = m.current ∧
      m'.activations m.current = (m.interrupted img).activations m.current ∧
      img.text.fetch m'.cpu.pc = some .eret ∧ img.text.step m'.cpu = some s := by
  have hcode := h.inCode hmode
  have hbound := hcode.sound.lowest_le
  have hhigh := hcode.high
  obtain ⟨m₁, hrun₁, hmode₁, hsame₁, entry, hacts₁, hcpu₁, hsp₁, hlr, hx⟩ :=
    exists_preempting img hcode.aligned (by omega) (hhigh.trans hbound) hcount hresched
  have hframe : (m.cpu.sp - sFrameSize).toNat = m.cpu.sp.toNat - 320 :=
    toNat_frame (t := m.current) (by omega)
  have hirq : NestInv img (m.interrupted img) := h.step (NestStep.irq hmask (by omega))
  -- `preempt_schedule_irq` enables the interrupts and is interrupted
  obtain ⟨m₂, hstep₂, hsame₂, hacts₂, hsp₂, hmask₂⟩ : ∃ m₂, NestStep img m₁ m₂ ∧ SameTasks m₁ m₂ ∧
      m₂.activations m₂.current = .call entry [.irqDisable, .switchTo, .irqEnable, .irqDisable] ::
        .irq (kernelContext m.cpu) :: m.activations m.current ∧
      m₂.cpu.sp = m₁.cpu.sp ∧ m₂.cpu.masked = false :=
    ⟨_, NestStep.irqEnable hmode₁ hacts₁, sameTasks_setActivations m₁ _ _ .code,
      activations_setActivations m₁ _, rfl, masked_irqEnable m₁.cpu⟩
  have hcurrent₂ : m₂.current = m.current := hsame₂.current.trans hsame₁.current
  have hroom₂ : m₂.current.toNat + taskSize + 320 ≤ m₂.cpu.sp.toNat := by
    rw [hcurrent₂, hsp₂, hcpu₁, hsp₁]
    omega
  have hrun₂ := hrun₁.tail hstep₂
  have hinv₂ := hirq.run hrun₂
  obtain ⟨m₃, hrun₃, hmode₃, hsame₃, hacts₃, -⟩ := exists_undisturbed hinv₂ hmask₂ hroom₂
  have hinv₃ := (hinv₂.step (NestStep.irq hmask₂ hroom₂)).run hrun₃
  rw [hacts₂] at hacts₃
  -- it disables them and switches to the other task
  obtain ⟨m₄, hstep₄, hmode₄, hsame₄, hacts₄⟩ : ∃ m₄, NestStep img m₃ m₄ ∧ m₄.mode = .code ∧
      SameTasks m₃ m₄ ∧
      m₄.activations m₄.current = .call entry [.switchTo, .irqEnable, .irqDisable] ::
        .irq (kernelContext m.cpu) :: m.activations m.current :=
    ⟨_, NestStep.irqDisable hmode₃ hacts₃, rfl, sameTasks_setActivations m₃ _ _ .code,
      activations_setActivations m₃ _⟩
  have hsame : SameTasks m m₄ := ((hsame₁.trans hsame₂).trans hsame₃).trans hsame₄
  obtain ⟨m₅, hrun₅, hmode₅, hcurrent₅, hacts₅, haway₅⟩ :=
    exists_switched (hinv₃.step hstep₄) hmode₄ (congrArg behindSwitch hacts₄)
      (hsame.current ▸ hne) (hsame.away ▸ haway)
  have hinv₅ := (hinv₃.step hstep₄).run hrun₅
  rw [hsame.current] at hacts₅ haway₅
  -- and that task switches back
  have hnext₅ : m₅.activations m₅.current = [] := by
    rw [hacts₅, hcurrent₅, Function.update_of_ne hne, hsame.others next hne, hnext]
  obtain ⟨m₆, hrun₆, hmode₆, hcurrent₆, hacts₆, -⟩ :=
    exists_switched hinv₅ hmode₅ (congrArg behindSwitch hnext₅) (hcurrent₅ ▸ hne.symm) haway₅
  have hback : m₆.activations m₆.current = .call entry [.irqEnable, .irqDisable] ::
      .irq (kernelContext m.cpu) :: m.activations m.current := by
    rw [hacts₆, hcurrent₆, hcurrent₅, Function.update_of_ne hne.symm, hacts₅, Function.update_self]
  have hsound := ((hinv₅.run hrun₆).inCode hmode₆).sound
  rw [hback] at hsound
  obtain ⟨⟨found, rest, hrest, hsp⟩, -, -, -, -, hcells, -⟩ := hsound
  obtain ⟨m', s, hrun', hmode', hsame', hacts', hfetch, hstep⟩ :=
    exists_eret_of_preempting img hmode₆ hback hlr hx (hsp₁ ▸ hcells)
  have hcurrent' : m'.current = m.current := hsame'.current.trans hcurrent₆
  rw [hcurrent'] at hacts'
  have hback' := hacts'.trans (activations_setActivations m _).symm
  exact ⟨m₂, m₅, m', s, hrun₂, NestStep.irq hmask₂ hroom₂, (hrun₃.tail hstep₄).trans hrun₅,
    hcurrent₅, hrun₆.trans hrun', hmode', hcurrent', hback', hfetch, hstep⟩

/-- **Interrupts bring back what they found.**  Let an interrupt be taken at EL1 in a state
`m` of a run, and let the run go on with any nested interrupts, preemptions and switches among
any number of tasks.  When the entry code is at an `eret` on the stack of that task, with
nothing open there but what was open behind the interrupt, then the `eret` restores `x0` to
`x30`, `sp`, `PC` and `PSTATE` to what they were in `m`. -/
theorem irq_returns {img : EntryImage} {m₀ m m' : NestState} {s : State} (hstart : m₀.Initial)
    (hrun : NestRun img m₀ m) (hmask : m.cpu.masked = false)
    (hroom : m.current.toNat + taskSize + 320 ≤ m.cpu.sp.toNat)
    (hrest : NestRun img (m.interrupted img) m') (hmode : m'.mode = .entry)
    (hcurrent : m'.current = m.current)
    (hback : m'.activations m.current = (m.interrupted img).activations m.current)
    (hfetch : img.text.fetch m'.cpu.pc = some .eret) (hstep : img.text.step m'.cpu = some s) :
    s.x = m.cpu.x ∧ s.sp = m.cpu.sp ∧ s.pc = m.cpu.pc ∧ s.pstate = m.cpu.pstate := by
  have hinv : NestInv img m' :=
    hstart.run ((hrun.tail (NestStep.irq hmask hroom)).trans hrest)
  have hacts : m'.activations m'.current = .irq (kernelContext m.cpu) :: m.activations m.current := by
    rw [hcurrent, hback]
    exact activations_setActivations m _
  cases hinv with
  | code hcode _ => rw [hmode] at hcode; cases hcode
  | entry _ h =>
      obtain ⟨hx, hsp, hpc, hpstate, -⟩ := h.at_eret hfetch hstep hacts
      exact ⟨hx, hsp, hpc, hpstate⟩
  | switching hswitch _ => rw [hmode] at hswitch; cases hswitch

/-- One task, in a kernel that has just started, which has to be rescheduled. -/
def NestState.sample : NestState where
  cpu :=
    { x := fun _ => 0
      sp := 0x91000
      pc := 0x80400
      pstate := 5
      spEl0 := 0
      elr := 0
      spsr := 0
      esr := 0
      mem := store (0x90000 + needReschedOffset) 4 1 fun _ => 0 }
  mode := .code
  current := 0x90000
  activations _ := []
  away _ := none

/-- The context of a task that is to start on the page `0xa0000`. -/
def CpuContext.sample : CpuContext := { CpuContext.zero with sp := 0xa1000 }

/-- It forks that task. -/
theorem exists_forked (img : EntryImage) :
    ∃ m, NestStep img NestState.sample m ∧ m.mode = .code ∧ m.current = 0x90000 ∧
      m.cpu.masked = false ∧ m.cpu.sp = 0x91000 ∧
      load m.cpu.mem (m.current + tiPreempt) 4 = 0#32 ∧
      load m.cpu.mem (m.current + needReschedOffset) 4 ≠ 0#32 ∧ (m.away 0xa0000).isSome ∧
      m.activations 0xa0000 = [] := by
  have hworks : Works NestState.sample { NestState.sample.cpu with
      mem := storeCells (0xa0000 + threadCpuContext) 0 CpuContext.sample.words
        NestState.sample.cpu.mem } := by
    refine ⟨⟨?_, nofun, nofun⟩, by decide, by decide, ?_⟩
    · exact fun a hlo hhi => absurd hhi (Nat.not_lt.2 hlo)
    · exact fun hopen => absurd rfl hopen
  have hfork : NestStep img NestState.sample _ :=
    NestStep.fork (p := 0xa0000) (c := CpuContext.sample) rfl hworks (by decide) (by decide) rfl
      (cells_storeCells _ (by decide) _) (by decide) (by decide)
  exact ⟨_, hfork, rfl, rfl, by decide, rfl, by decide +kernel, by decide +kernel, rfl, rfl⟩

theorem irq_returns_sample :
    ∃ m m₁ m₂ m' s, NestRun EntryImage.sample NestState.sample m ∧
      NestRun EntryImage.sample (m.interrupted EntryImage.sample) m₁ ∧
      NestStep EntryImage.sample m₁ (m₁.interrupted EntryImage.sample) ∧
      NestRun EntryImage.sample (m₁.interrupted EntryImage.sample) m₂ ∧ m₂.current ≠ m.current ∧
      NestRun EntryImage.sample m₂ m' ∧ EntryImage.sample.text.step m'.cpu = some s ∧
      s.x = m.cpu.x ∧ s.sp = m.cpu.sp ∧ s.pc = m.cpu.pc ∧ s.pstate = m.cpu.pstate := by
  have hstart : NestState.sample.Initial :=
    ⟨rfl, by decide, by decide, by decide, rfl, fun _ => rfl⟩
  obtain ⟨m, hfork, hmode, hcurrent, hmask, hsp, hcount, hresched, haway, hnext⟩ :=
    exists_forked EntryImage.sample
  have hrun : NestRun EntryImage.sample NestState.sample m := .single hfork
  have hroom : m.current.toNat + taskSize + 640 ≤ m.cpu.sp.toNat := by
    rw [hcurrent, hsp]
    decide
  have hne : (0xa0000 : Word) ≠ m.current := by
    rw [hcurrent]
    decide
  obtain ⟨m₁, m₂, m', s, hrun₁, hirq, hrun₂, hother, hrest, hmode', hcurrent', hback, hfetch,
    hstep⟩ := exists_preempted (hstart.run hrun) hmode hmask hroom hcount hresched hne haway hnext
  exact ⟨m, m₁, m₂, m', s, hrun, hrun₁, hirq, hrun₂, hother ▸ hne, hrest, hstep,
    irq_returns hstart hrun hmask (by omega) (((hrun₁.tail hirq).trans hrun₂).trans hrest) hmode'
      hcurrent' hback hfetch hstep⟩

end Arm64OS
