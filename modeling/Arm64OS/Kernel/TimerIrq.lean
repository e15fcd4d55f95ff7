import Arm64OS.Drivers.Gicv2Enable
import Arm64OS.Kernel.StartKernelRun
import Arm64OS.Kernel.SchedRun
import Arm64OS.Lib.Simulation

/-!
# Interrupts of the timer

`arch/arm64/mach-rpi/timer.c`, and `irq_handler` and `set_handle_irq` of `kernel/irq.c`: the
generic timer, the interrupt controller and the task machine in one state.  The handler of the
timer acts on the timer and on the tasks; it is reached from `irq_handler` through the pointer
`arch_irq_handler`, the driver of the GIC and the descriptor table.

`timer_run` says what interrupts are to the tasks: each timer interrupt is one tick, and any
other value that the GIC can give is nothing.
-/

namespace Arm64OS

open Run

/-- `GENERIC_TIMER_IRQ`. -/
def genericTimerIrq : U32 := 30

/-- `TIMER_CNTRL0`. -/
def timerCntrl0 : U64 := armLocalBase + 0x40

/-- `CNT_PNS_IRQ`. -/
def cntPnsIrq : U32 := 1 <<< 1

/-- `timer.c` and what it has written. -/
structure Timer where
  archTimerRate : U32
  /-- `cntp_ctl_el0` -/
  ctl : U64
  /-- the values written to `cntp_tval_el0`, oldest first -/
  tvals : List U32
  /-- the calls of `writel` -/
  writes : List (U64 × U32)

/-- The zeroed `.bss`, and a timer that is off. -/
def Timer.zero : Timer := ⟨0, 0, [], []⟩

/-- `generic_timer_init`. -/
def genericTimerInit (t : Timer) : Timer := { t with ctl := 1 }

/-- `generic_timer_reset`. -/
def genericTimerReset (val : U32) (t : Timer) : Timer := { t with tvals := t.tvals ++ [val] }

/-- `enable_timer_interrupt`. -/
def enableTimerInterrupt (t : Timer) : Timer :=
  { t with writes := t.writes ++ [(timerCntrl0, cntPnsIrq)] }

/-- What the handlers act on. -/
structure World where
  timer : Timer
  sys : Sys

def World.setTimer (f : Timer → Timer) (w : World) : World := { w with timer := f w.timer }

/-- `handle_timer_irq`. -/
def handleTimerIrq : IrqHandler World := fun _ _ w =>
  let w := w.setTimer (genericTimerReset w.timer.archTimerRate)
  (0, { w with sys := { w.sys with k := tickHandlePeriodic w.sys.current w.sys.k } })

/-- `timer_init`, where `cntfrq_el0` reads as `freq`. -/
def timerInit (freq : U32) (s : IrqState Gicv2 World) : Option (IrqState Gicv2 World) := do
  let rate := freq / hz
  let s := { s with world := s.world.setTimer fun t => { t with archTimerRate := rate } }
  let s := { s with world := s.world.setTimer genericTimerInit }
  let s := { s with world := s.world.setTimer (genericTimerReset rate) }
  let (_, s) ← requestIrq genericTimerIrq (some handleTimerIrq) 0 s
  some { s with world := s.world.setTimer enableTimerInterrupt }

/-- The CPU and what an interrupt leads it to. -/
structure IrqCpu where
  /-- `arch_irq_handler`, as a function of what `GIC_CPU_INTACK` reads as -/
  archIrqHandler : Option (U32 → IrqState Gicv2 World → Option (IrqState Gicv2 World))
  irq : IrqState Gicv2 World

def IrqCpu.timer (m : IrqCpu) : Timer := m.irq.world.timer

def IrqCpu.sys (m : IrqCpu) : Sys := m.irq.world.sys

def IrqCpu.setSys (sys : Sys) (m : IrqCpu) : IrqCpu :=
  { m with irq := { m.irq with world := { m.irq.world with sys := sys } } }

/-- `set_handle_irq`: the first handler stays. -/
def setHandleIrq (handleIrq : U32 → IrqState Gicv2 World → Option (IrqState Gicv2 World))
    (m : IrqCpu) : IrqCpu :=
  match m.archIrqHandler with
  | some _ => m
  | none => { m with archIrqHandler := some handleIrq }

/-- `preempt_add`, on the running task. -/
def IrqCpu.preemptAdd (val : Int) (m : IrqCpu) : IrqCpu :=
  m.setSys { m.sys with k := Arm64OS.preemptAdd val m.sys.current m.sys.k }

/-- `irq_handler`; a NULL `arch_irq_handler` cannot be called. -/
def IrqCpu.irqHandler (irqstat : U32) (m : IrqCpu) : Option IrqCpu := do
  let m := m.preemptAdd hardirqOffset
  let handler ← m.archIrqHandler
  let irq ← handler irqstat m.irq
  some ({ m with irq := irq }.preemptAdd (-hardirqOffset))

/-- What `start_kernel` does about interrupts before it enables them: `arch_irq_init` with the
page of the domain, whose `gic_init` sets the handler where it succeeds, and `timer_init`. -/
def startIrqs (readl : U64 → U32) (page : U64) (freq : U32) (sys : Sys) : Option IrqCpu := do
  let (ret, irq) :=
    gicInit readl page gicV2DistributorBase gicV2CpuInterfaceBase (IrqState.bss ⟨Timer.zero, sys⟩)
  let m : IrqCpu := ⟨none, irq⟩
  let m := if ret = 0 then setHandleIrq gicHandleIrq m else m
  let irq ← timerInit freq m.irq
  some { m with irq := irq }

/-- A call of a task, or an interrupt for which `GIC_CPU_INTACK` reads as `irqstat`. -/
inductive IrqCpuOp
  | doFork (caller cloneFlags stack arg : U64)
  | schedule (garbage : U64)
  | irq (irqstat : U32)
  deriving DecidableEq

def irqCpuStep (img : Image) (fuel : Nat) : IrqCpuOp → IrqCpu → Option IrqCpu
  | .doFork caller cloneFlags stack arg, m =>
      (sysStep img fuel (.doFork caller cloneFlags stack arg) m.sys).map fun s => m.setSys s
  | .schedule garbage, m =>
      (sysStep img fuel (.schedule garbage) m.sys).map fun s => m.setSys s
  | .irq irqstat, m => m.irqHandler irqstat

/-- `GIC_CPU_INTACK` gives the number of the timer. -/
def IsTimer (irqstat : U32) : Prop := irqstat &&& giccIarIntIdMask = genericTimerIrq

instance (irqstat : U32) : Decidable (IsTimer irqstat) := by
  unfold IsTimer
  infer_instance

/-- What the tasks see. -/
def IrqCpuOp.calls : IrqCpuOp → List SysOp
  | .doFork caller cloneFlags stack arg => [.doFork caller cloneFlags stack arg]
  | .schedule garbage => [.schedule garbage]
  | .irq irqstat => if IsTimer irqstat then [.tick] else []

/-- How many of the interrupts are the timer's. -/
def timerIrqs (ops : List IrqCpuOp) : Nat := (ops.flatMap IrqCpuOp.calls).count .tick

variable {img : Image} {fuel : Nat} {m m' : IrqCpu}

@[simp] theorem IrqCpu.setSys_sys (sys : Sys) (m : IrqCpu) : (m.setSys sys).sys = sys := rfl

@[simp] theorem IrqCpu.setSys_timer (sys : Sys) (m : IrqCpu) : (m.setSys sys).timer = m.timer := rfl

/-! ## After the start -/

/-- The path from `irq_handler` to `handle_timer_irq` is set up, and there is no other. -/
structure TimerReady (irqs : Nat) (rate : U32) (m : IrqCpu) : Prop where
  archIrqHandler : m.archIrqHandler = some gicHandleIrq
  wired : Wired irqs m.irq
  handler : ∀ j : Fin nrIrqs,
    (m.irq.desc j).handler = if j.val = 30 then some handleTimerIrq else none
  rate : m.timer.archTimerRate = rate

theorem TimerReady.setSys {irqs : Nat} {rate : U32} (h : TimerReady irqs rate m) (sys : Sys) :
    TimerReady irqs rate (m.setSys sys) :=
  ⟨h.archIrqHandler, h.wired.frame rfl (fun _ => ⟨rfl, rfl⟩) h.wired.handler, h.handler, h.rate⟩

/-- The timer has been started for the first period. -/
structure TimerStarted (rate : U32) (t : Timer) : Prop where
  ctl : t.ctl = 1
  tvals : t.tvals = [rate]
  writes : t.writes = [(timerCntrl0, cntPnsIrq)]

section World

variable {W : Type}

theorem storeDesc_world (irq : U32) (f : IrqDesc Gicv2 W → IrqDesc Gicv2 W) (s : IrqState Gicv2 W) :
    (s.storeDesc irq f).world = s.world := by
  unfold IrqState.storeDesc
  split <;> rfl

theorem gicv2IrqMap_world (virq hwirq : U32) (s : IrqState Gicv2 W) :
    (gicv2IrqMap virq hwirq s).2.world = s.world := by
  unfold gicv2IrqMap irqDomainSetHwirqChip
  split
  · cases irqToDesc virq <;> rfl
  · rfl

/-- A loop whose turns leave the world alone. -/
theorem foldl_world {step : IrqState Gicv2 W → Nat → IrqState Gicv2 W}
    (hstep : ∀ s i, (step s i).world = s.world) (is : List Nat) (s : IrqState Gicv2 W) :
    (is.foldl step s).world = s.world := by
  induction is generalizing s with
  | nil => rfl
  | cons i is ih => rw [List.foldl_cons, ih, hstep]

/-- With a page for the domain `gic_init` succeeds, and does nothing to the rest of the kernel. -/
theorem gicInit_returns (readl : U64 → U32) {page : U64} (hpage : page ≠ 0)
    (distBase cpuBase : U64) (s : IrqState Gicv2 W) :
    (gicInit readl page distBase cpuBase s).1 = 0 ∧
      (gicInit readl page distBase cpuBase s).2.world = s.world := by
  obtain ⟨irqs, hirqs⟩ : ∃ n, gicCtrIrqs (readl (reg distBase gicDistCtr)) = n := ⟨_, rfl⟩
  have hbounds := gicCtrIrqs_bounds (readl (reg distBase gicDistCtr))
  rw [hirqs] at hbounds
  obtain ⟨s₁, hs₁⟩ : ∃ s₁, (irqAllocDescs 16 (irqs - hwIrqStart)
    (gicStart irqs distBase cpuBase s)).2 = s₁ := ⟨_, rfl⟩
  obtain ⟨s₂, hs₂⟩ :
      ∃ s₂, (irqDomainAdd page gicv2IrqMap 16 16 (irqs - hwIrqStart) s₁).2 = s₂ := ⟨_, rfl⟩
  have hdomain := (irqDomainAdd_frame hpage (by omega : irqs - hwIrqStart < 2 ^ 16) s₁).1
  have halloc : s₁.world = s.world := by
    rw [← hs₁]
    exact foldl_world (fun s i => storeDesc_world _ _ s) _ _
  have hadd : s₂.world = s₁.world := by
    rw [← hs₂]
    simp only [irqDomainAdd, if_neg hpage]
    refine foldl_world (fun s i => ?_) _ _
    rw [irqDomainMapIrq, gicv2IrqMap_world, storeDesc_world]
  rw [gicInit_eq hirqs hs₁ (Prod.ext hdomain hs₂), if_neg hpage]
  exact ⟨rfl, hadd.trans halloc⟩

end World

/-- `start_kernel` gets through: whatever the controller says, it has the timer's interrupt. -/
theorem startIrqs_ready (readl : U64 → U32) {page : U64} (hpage : page ≠ 0) (freq : U32)
    (sys : Sys) :
    ∃ m irqs, startIrqs readl page freq sys = some m ∧ TimerReady irqs (freq / hz) m ∧
      TimerStarted (freq / hz) m.timer ∧ m.sys = sys ∧
      ∀ reset, m.irq.enabled reset 30 = true := by
  obtain ⟨world, hworld⟩ : ∃ w : World, ⟨Timer.zero, sys⟩ = w := ⟨_, rfl⟩
  obtain ⟨ret, s, hinit⟩ : ∃ ret s, gicInit readl page gicV2DistributorBase gicV2CpuInterfaceBase
    (IrqState.bss world) = (ret, s) := ⟨_, _, rfl⟩
  obtain ⟨hret, hsame⟩ := gicInit_returns readl hpage gicV2DistributorBase
    gicV2CpuInterfaceBase (IrqState.bss world)
  have hstart := started_archIrqInit readl hpage world
  rw [archIrqInit] at hstart
  rw [hinit] at hret hsame hstart
  dsimp only at hret hsame hstart
  -- the state in which `timer_init` requests the interrupt
  obtain ⟨t, ht⟩ : ∃ t : IrqState Gicv2 World, { s with
      world := ((s.world.setTimer fun t => { t with archTimerRate := freq / hz }).setTimer
        genericTimerInit).setTimer (genericTimerReset (freq / hz)) } = t := ⟨_, rfl⟩
  have hwired : Wired s.dev.gicIrqs t := ht ▸ hstart.wired.frame rfl (fun _ => ⟨rfl, rfl⟩)
    hstart.wired.handler
  have hmany : 32 ≤ s.dev.gicIrqs := by
    rw [hstart.irqs]
    exact (gicCtrIrqs_bounds _).1
  have hdesc : irqToDesc genericTimerIrq = some ⟨30, by decide⟩ := irqToDesc_of_lt (by decide)
  have hrequest := requestIrq_of_chip hwired hdesc
    (hwired.mapped ⟨30, by decide⟩ (by decide) (by show 30 < s.dev.gicIrqs; omega))
    handleTimerIrq 0
  obtain ⟨u, hu⟩ : ∃ u : IrqState Gicv2 World, { t.setDesc ⟨30, by decide⟩ (fun d =>
      { d with handler := some handleTimerIrq, param := 0 }) with
        dev := gicv2UnmaskIrq genericTimerIrq t.dev } = u := ⟨_, rfl⟩
  rw [hu] at hrequest
  have hwired' : Wired s.dev.gicIrqs u := by
    have hstep : irqStep (.request genericTimerIrq (some handleTimerIrq) 0) t = some u := by
      rw [irqStep, hrequest]
      rfl
    exact wired_step hwired hstep
  have hworld' : u.world = t.world := by rw [← hu]; rfl
  have hsys : t.world.sys = sys := by
    rw [← ht]
    show s.world.sys = sys
    rw [hsame, ← hworld]
    rfl
  have htimer : s.world.timer = Timer.zero := by
    rw [hsame, ← hworld]
    rfl
  refine ⟨⟨some gicHandleIrq, { u with world := u.world.setTimer enableTimerInterrupt }⟩,
    s.dev.gicIrqs, ?_, ⟨rfl, ?_, fun j => ?_, ?_⟩, ⟨?_, ?_, ?_⟩, ?_, fun reset => ?_⟩
  · simp only [startIrqs, hworld, hinit, hret, if_true, setHandleIrq, timerInit, ht, hrequest]
    rfl
  · exact hwired'.frame rfl (fun _ => ⟨rfl, rfl⟩) hwired'.handler
  · show (u.desc j).handler = _
    by_cases hj : j = ⟨30, by decide⟩
    · rw [hj, ← hu]
      simp
    · have hne : j.val ≠ 30 := fun h => hj (Fin.ext h)
      have hkeep : (u.desc j).handler = (t.desc j).handler := by
        rw [← hu]
        simp [IrqState.setDesc_of_ne hj]
      rw [if_neg hne, hkeep, ← ht]
      exact hstart.handler j
  · show u.world.timer.archTimerRate = freq / hz
    rw [hworld', ← ht]
    rfl
  · show u.world.timer.ctl = 1
    rw [hworld', ← ht]
    rfl
  · show u.world.timer.tvals = [freq / hz]
    rw [hworld', ← ht]
    show s.world.timer.tvals ++ [freq / hz] = _
    rw [htimer]
    rfl
  · show u.world.timer.writes ++ _ = _
    rw [hworld', ← ht]
    show s.world.timer.writes ++ _ = _
    rw [htimer]
    rfl
  · show u.world.sys = sys
    rw [hworld', hsys]
  · have hdev : u.dev = gicv2UnmaskIrq genericTimerIrq t.dev := by rw [← hu]
    have hbit := enabled_unmask reset t { u with world := u.world.setTimer enableTimerInterrupt }
      hdev (by decide) (by decide : 30 < 1024)
    rw [hbit]
    exact Bool.or_true _

/-! ## One interrupt -/

/-- An interrupt of the timer: the next period is started, the tasks get a tick, and the interrupt
is ended. -/
theorem gicHandleIrq_timer {irqs : Nat} {rate irqstat : U32} (h : TimerReady irqs rate m)
    (htimer : IsTimer irqstat) :
    gicHandleIrq irqstat m.irq = some { m.irq with
      world := (handleTimerIrq genericTimerIrq 0 m.irq.world).2
      dev := gicv2EoiIrq genericTimerIrq m.irq.dev } := by
  obtain ⟨i, hi⟩ : ∃ i : Fin nrIrqs, (⟨30, by decide⟩ : Fin nrIrqs) = i := ⟨_, rfl⟩
  have hval : i.val = 30 := by rw [← hi]
  have hdesc : irqToDesc genericTimerIrq = some i := hi ▸ irqToDesc_of_lt (by decide)
  have hhandler : (m.irq.desc i).handler = some handleTimerIrq := by
    rw [h.handler i, if_pos hval]
  have hchip := h.wired.handler i (by rw [hhandler]; rfl)
  have hnum : (m.irq.desc i).hwirq = genericTimerIrq := by
    rw [(h.wired.chip i _ hchip).2, hval]
    rfl
  have hrange : genericTimerIrq.toNat > 15 ∧ genericTimerIrq.toNat < 1021 := by decide
  obtain ⟨world, hw⟩ : ∃ w, (handleTimerIrq genericTimerIrq 0 m.irq.world).2 = w := ⟨_, rfl⟩
  have hworld : ∀ irq param, handleTimerIrq irq param m.irq.world = (0, world) :=
    fun _ _ => Prod.ext rfl hw
  unfold IsTimer at htimer
  rw [hw]
  simp only [gicHandleIrq, htimer, if_pos hrange]
  simp [handleDomainIrq, irqFindMapping, genericHandleIrq, hdesc, hhandler, hworld, hchip,
    gicv2Chip, IrqState.callChip, hnum]

/-- Any other value that the GIC can give leaves everything as it was: there is no handler. -/
theorem gicHandleIrq_other {irqs : Nat} {rate irqstat : U32} (h : TimerReady irqs rate m)
    (htimer : ¬ IsTimer irqstat) : gicHandleIrq irqstat m.irq = some m.irq := by
  obtain ⟨irqnr, hnr⟩ : ∃ n, irqstat &&& giccIarIntIdMask = n := ⟨_, rfl⟩
  unfold IsTimer at htimer
  rw [hnr] at htimer
  simp only [gicHandleIrq, hnr]
  split
  case isTrue hrange =>
    cases hdesc : irqToDesc irqnr with
    | none => simp [handleDomainIrq, irqFindMapping, genericHandleIrq, hdesc]
    | some i =>
        have hval : i.val ≠ 30 := by
          intro hi
          refine htimer (BitVec.eq_of_toNat_eq ?_)
          rw [← irqToDesc_eq_some hdesc, hi]
          rfl
        have hhandler : (m.irq.desc i).handler = none := by rw [h.handler i, if_neg hval]
        simp [handleDomainIrq, irqFindMapping, genericHandleIrq, hdesc, hhandler]
  case isFalse => rfl

/-- Outside the handler the preemption counter is what it was. -/
theorem preemptAdd_cancel (p : U64) (k : Kernel) :
    preemptAdd (-hardirqOffset) p (preemptAdd hardirqOffset p k) = k := by
  have hcancel : ∀ t : TaskStruct,
      t.preemptCount + hardirqOffset + -hardirqOffset = t.preemptCount :=
    fun t => Int.add_neg_cancel_right _ _
  unfold preemptAdd Kernel.updTask
  simp [hcancel]

theorem IrqCpu.preemptAdd_cancel (m : IrqCpu) :
    (m.preemptAdd hardirqOffset).preemptAdd (-hardirqOffset) = m := by
  obtain ⟨k, hk⟩ : ∃ k, Arm64OS.preemptAdd (-hardirqOffset) m.sys.current
    (Arm64OS.preemptAdd hardirqOffset m.sys.current m.sys.k) = k := ⟨_, rfl⟩
  have hsys : (m.preemptAdd hardirqOffset).preemptAdd (-hardirqOffset) =
      m.setSys { m.sys with k := k } := by
    rw [← hk]
    rfl
  rw [hsys, ← hk, Arm64OS.preemptAdd_cancel]
  rfl

/-- `irq_handler` adds nothing to the tick. -/
theorem irqHandler_eq_tick (p : U64) (k : Kernel) :
    irqHandler p k = tickHandlePeriodic p k := by
  rw [irqHandler_eq, tickHandlePeriodic, taskTickNop_eq]

/-- **The spec lemma of `irq_handler`.** -/
theorem TimerReady.irqHandler {irqs : Nat} {rate : U32} (h : TimerReady irqs rate m)
    (irqstat : U32) :
    ∃ m', m.irqHandler irqstat = some m' ∧ TimerReady irqs rate m' ∧
      if IsTimer irqstat then
        m'.sys = { m.sys with k := tickHandlePeriodic m.sys.current m.sys.k } ∧
          m'.timer = genericTimerReset rate m.timer ∧
          m'.irq.dev = gicv2EoiIrq genericTimerIrq m.irq.dev
      else m' = m := by
  obtain ⟨n, hn⟩ : ∃ n, m.preemptAdd hardirqOffset = n := ⟨_, rfl⟩
  have hready : TimerReady irqs rate n := hn ▸ h.setSys _
  by_cases htimer : IsTimer irqstat
  · have hhandle := gicHandleIrq_timer hready htimer
    obtain ⟨irq, hirq⟩ : ∃ irq : IrqState Gicv2 World, { n.irq with
        world := (handleTimerIrq genericTimerIrq 0 n.irq.world).2
        dev := gicv2EoiIrq genericTimerIrq n.irq.dev } = irq := ⟨_, rfl⟩
    rw [hirq] at hhandle
    have hended : TimerReady irqs rate { n with irq := irq } := by
      refine ⟨hready.archIrqHandler, hirq ▸ hready.wired.frame rfl (fun _ => ⟨rfl, rfl⟩)
        hready.wired.handler, hirq ▸ hready.handler, ?_⟩
      rw [← hirq]
      exact hready.rate
    have hrate : n.timer.archTimerRate = rate := hready.rate
    refine ⟨{ n with irq := irq }.preemptAdd (-hardirqOffset), ?_, hended.setSys _, ?_⟩
    · simp only [IrqCpu.irqHandler, hn, hready.archIrqHandler, Option.bind_eq_bind,
        Option.bind_some, hhandle]
    · rw [if_pos htimer, ← hirq]
      have htick := irqHandler_eq_tick m.sys.current m.sys.k
      refine ⟨?_, ?_, ?_⟩
      · rw [← htick, ← hn]
        rfl
      · rw [← hrate, ← hn]
        rfl
      · rw [← hn]
        rfl
  · have hhandle := gicHandleIrq_other hready htimer
    refine ⟨m, ?_, h, by rw [if_neg htimer]⟩
    simp only [IrqCpu.irqHandler, hn, hready.archIrqHandler, Option.bind_eq_bind, Option.bind_some,
      hhandle]
    have hsame : (⟨some gicHandleIrq, n.irq⟩ : IrqCpu) = n := by rw [← hready.archIrqHandler]
    rw [hsame, ← hn]
    exact congrArg some m.preemptAdd_cancel

/-! ## Every run -/

theorem TimerReady.step {irqs : Nat} {rate : U32} {op : IrqCpuOp} (h : TimerReady irqs rate m)
    (hstep : irqCpuStep img fuel op m = some m') : TimerReady irqs rate m' := by
  cases op with
  | doFork caller cloneFlags stack arg =>
      obtain ⟨s, -, rfl⟩ := Option.map_eq_some_iff.1 hstep
      exact h.setSys s
  | schedule garbage =>
      obtain ⟨s, -, rfl⟩ := Option.map_eq_some_iff.1 hstep
      exact h.setSys s
  | irq irqstat =>
      obtain ⟨n, hn, hready, -⟩ := h.irqHandler irqstat
      obtain rfl : n = m' := Option.some.inj (hn.symm.trans hstep)
      exact hready

/-- To the tasks, the machine with its interrupts is the task machine. -/
theorem simulates_irqCpuStep (img : Image) (fuel irqs : Nat) (rate : U32) :
    Simulates (irqCpuStep img fuel) (sysStep img fuel) IrqCpu.sys IrqCpuOp.calls
      (TimerReady irqs rate) where
  kept _ _ _ h hstep := h.step hstep
  step op m h := by
    cases op with
    | doFork caller cloneFlags stack arg =>
        cases hcall : sysStep img fuel (.doFork caller cloneFlags stack arg) m.sys <;>
          simp [irqCpuStep, IrqCpuOp.calls, hcall]
    | schedule garbage =>
        cases hcall : sysStep img fuel (.schedule garbage) m.sys <;>
          simp [irqCpuStep, IrqCpuOp.calls, hcall]
    | irq irqstat =>
        obtain ⟨n, hn, -, heffect⟩ := h.irqHandler irqstat
        rw [irqCpuStep, hn]
        by_cases htimer : IsTimer irqstat
        · rw [if_pos htimer] at heffect
          simp [IrqCpuOp.calls, htimer, sysStep, heffect.1]
        · rw [if_neg htimer] at heffect
          simp [IrqCpuOp.calls, htimer, heffect]

/-- The devices, as `n` interrupts of the timer leave them. -/
structure TicksServed (rate : U32) (n : Nat) (m m' : IrqCpu) : Prop where
  /-- each of them has been ended -/
  writes : m'.irq.dev.writes = m.irq.dev.writes ++
    List.replicate n (reg gicV2CpuInterfaceBase gicCpuEoi, genericTimerIrq)
  /-- and has started the next period -/
  tvals : m'.timer.tvals = m.timer.tvals ++ List.replicate n rate
  ctl : m'.timer.ctl = m.timer.ctl
  cntrl0 : m'.timer.writes = m.timer.writes

theorem TicksServed.refl (rate : U32) (m : IrqCpu) : TicksServed rate 0 m m :=
  ⟨(List.append_nil _).symm, (List.append_nil _).symm, rfl, rfl⟩

theorem TicksServed.trans {rate : U32} {n n' : Nat} {m m' m'' : IrqCpu}
    (h : TicksServed rate n m m')
    (h' : TicksServed rate n' m' m'') : TicksServed rate (n + n') m m'' where
  writes := by rw [h'.writes, h.writes, List.append_assoc, List.replicate_add]
  tvals := by rw [h'.tvals, h.tvals, List.append_assoc, List.replicate_add]
  ctl := h'.ctl.trans h.ctl
  cntrl0 := h'.cntrl0.trans h.cntrl0

theorem TimerReady.served_step {irqs : Nat} {rate : U32} {op : IrqCpuOp}
    (h : TimerReady irqs rate m) (hstep : irqCpuStep img fuel op m = some m') :
    TicksServed rate (timerIrqs [op]) m m' := by
  cases op with
  | doFork caller cloneFlags stack arg =>
      obtain ⟨s, -, rfl⟩ := Option.map_eq_some_iff.1 hstep
      exact ⟨(List.append_nil _).symm, (List.append_nil _).symm, rfl, rfl⟩
  | schedule garbage =>
      obtain ⟨s, -, rfl⟩ := Option.map_eq_some_iff.1 hstep
      exact ⟨(List.append_nil _).symm, (List.append_nil _).symm, rfl, rfl⟩
  | irq irqstat =>
      obtain ⟨n, hn, hready, heffect⟩ := h.irqHandler irqstat
      obtain rfl : n = m' := Option.some.inj (hn.symm.trans hstep)
      by_cases htimer : IsTimer irqstat
      · have hone : timerIrqs [.irq irqstat] = 1 := by simp [timerIrqs, IrqCpuOp.calls, htimer]
        rw [if_pos htimer] at heffect
        obtain ⟨-, htval, hdev⟩ := heffect
        rw [hone]
        refine ⟨?_, ?_, ?_, ?_⟩
        · rw [hdev, ← h.wired.cpu]
          rfl
        · rw [htval]
          rfl
        · rw [htval]
          rfl
        · rw [htval]
          rfl
      · have hnone : timerIrqs [.irq irqstat] = 0 := by simp [timerIrqs, IrqCpuOp.calls, htimer]
        rw [if_neg htimer] at heffect
        rw [hnone, heffect]
        exact TicksServed.refl rate m

theorem TimerReady.served {irqs : Nat} {rate : U32} {ops : List IrqCpuOp}
    (h : TimerReady irqs rate m) (hrun : exec (irqCpuStep img fuel) ops m = some m') :
    TicksServed rate (timerIrqs ops) m m' := by
  induction ops generalizing m with
  | nil =>
      obtain rfl : m = m' := by simpa using hrun
      exact TicksServed.refl rate m
  | cons op ops ih =>
      cases hstep : irqCpuStep img fuel op m with
      | none => simp [hstep] at hrun
      | some n =>
          have hrest : exec (irqCpuStep img fuel) ops n = some m' := by simpa [hstep] using hrun
          have hcount : timerIrqs (op :: ops) = timerIrqs [op] + timerIrqs ops := by
            simp [timerIrqs]
          rw [hcount]
          exact (h.served_step hstep).trans (ih (h.step hstep) hrest)

/-- Ending interrupts leaves the enable bits alone. -/
theorem TicksServed.enabled {irqs n : Nat} {rate : U32} (h : TicksServed rate n m m')
    (hw : Wired irqs m.irq)
    (hw' : Wired irqs m'.irq) (reset : Nat → U32) {i : Nat} (hi : i < 1024) :
    m'.irq.enabled reset i = m.irq.enabled reset i := by
  have hoff : ∀ wr ∈ List.replicate n (reg gicV2CpuInterfaceBase gicCpuEoi, genericTimerIrq),
      OffEnables gicV2DistributorBase wr := by
    intro wr hwr
    obtain rfl := List.eq_of_mem_replicate hwr
    exact ⟨_, reg_cpu _, by decide, Or.inr (by decide)⟩
  unfold IrqState.enabled
  rw [hw'.dist, hw.dist, h.writes, enableWords_append,
    enableWords_of_offset _ (by omega : i / 32 < 32) hoff]

/-- **What interrupts are to the tasks.**  `start_kernel` sets the timer's interrupt up on every
controller, and then, in every run of forks, calls of `__schedule` and interrupts with any value
that the GIC gives: the tasks see one tick for each interrupt of the timer and nothing of the
others, each of the timer's interrupts is ended once and starts the next period of `1 / HZ` s, the
interrupt stays enabled, and `irq_handler` returns from all of them. -/
theorem timer_run (img : Image) (fuel : Nat) (readl : U64 → U32) {page : U64} (hpage : page ≠ 0)
    (freq : U32) (k : Kernel) (ops : List IrqCpuOp) :
    ∃ m₀, startIrqs readl page freq (Sys.boot img k) = some m₀ ∧
      (exec (irqCpuStep img fuel) ops m₀).map IrqCpu.sys =
        exec (sysStep img fuel) (ops.flatMap IrqCpuOp.calls) (Sys.boot img k) ∧
      ∀ m, exec (irqCpuStep img fuel) ops m₀ = some m →
        (m.irq.dev.writes = m₀.irq.dev.writes ++
            List.replicate (timerIrqs ops) (reg gicV2CpuInterfaceBase gicCpuEoi, 30)) ∧
        m.timer = ⟨freq / 250, 1, List.replicate (timerIrqs ops + 1) (freq / 250),
          [(0xff800040, 2)]⟩ ∧
        (∀ reset, m.irq.enabled reset 30 = true) ∧
        ∀ irqstat, (m.irqHandler irqstat).isSome := by
  obtain ⟨m₀, irqs, hstart, hready, htimer, hsys, henabled⟩ :=
    startIrqs_ready readl hpage freq (Sys.boot img k)
  have hmap := (simulates_irqCpuStep img fuel irqs (freq / hz)).exec_map ops hready
  rw [hsys] at hmap
  refine ⟨m₀, hstart, hmap, fun m hrun => ?_⟩
  have hserved := hready.served hrun
  have hready' : TimerReady irqs (freq / hz) m := by
    have hreach : Reachable (irqCpuStep img fuel) m₀ m := ⟨ops, hrun⟩
    exact hreach.invariant (fun _ _ _ h hstep => h.step hstep) hready
  refine ⟨hserved.writes, ?_, fun reset => ?_, fun irqstat => ?_⟩
  · have htvals : m.timer.tvals = List.replicate (timerIrqs ops + 1) (freq / hz) := by
      rw [hserved.tvals, htimer.tvals, Nat.add_comm, List.replicate_add]
      rfl
    have hctl := hserved.ctl.trans htimer.ctl
    have hwrites := hserved.cntrl0.trans htimer.writes
    have hfields : m.timer = ⟨m.timer.archTimerRate, m.timer.ctl, m.timer.tvals, m.timer.writes⟩ :=
      rfl
    rw [hfields, hready'.rate, hctl, htvals, hwrites]
    rfl
  · rw [hserved.enabled hready.wired hready'.wired reset (by decide), henabled reset]
  · obtain ⟨n, hn, -⟩ := hready'.irqHandler irqstat
    rw [hn]
    rfl

/-- Two interrupts of the timer and a spurious one are two ticks. -/
theorem timer_run_two :
    ∃ m₀, startIrqs (fun _ => 7) 0x400000 54000000 (Sys.boot Image.sample Kernel.blank) = some m₀ ∧
      (exec (irqCpuStep Image.sample nrTasks) [.irq 30, .irq 1023, .irq 30] m₀).map IrqCpu.sys =
        exec (sysStep Image.sample nrTasks) [.tick, .tick]
          (Sys.boot Image.sample Kernel.blank) := by
  obtain ⟨m₀, hstart, hmap, -⟩ := timer_run Image.sample nrTasks (fun _ => 7)
    (by decide : (0x400000 : U64) ≠ 0) 54000000 Kernel.blank [.irq 30, .irq 1023, .irq 30]
  exact ⟨m₀, hstart, hmap⟩

end Arm64OS
