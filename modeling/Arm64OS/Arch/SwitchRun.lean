import Arm64OS.Arch.EntryNestInv

/-!
# Tasks that take turns

Any number of tasks and any order of calls of `cpu_switch_to` between them.  What a task finds
again is the context in its `task_struct`, so it is enough that a call fills the context of the
task that leaves, loads the one of the task that comes, and touches no other.
-/

namespace Arm64OS

open A64 ByteMem

/-- The processor at the calls of `cpu_switch_to`, and as history what the tasks that are
switched out had in their registers when they called it. -/
structure SwitchState where
  cpu : State
  current : Word
  away : Word → Option CpuContext

/-- The `task_struct`s of the tasks are objects of their own. -/
structure TaskStructs (tasks : Set Word) : Prop where
  fits : ∀ t ∈ tasks, t.toNat + taskSize ≤ 2 ^ 64
  apart : ∀ t ∈ tasks, ∀ t' ∈ tasks, t ≠ t' →
    t.toNat + taskSize ≤ t'.toNat ∨ t'.toNat + taskSize ≤ t.toNat

/-- `cpu_switch_to`, entered in the state `s`, returns in the state `u`. -/
def SwitchReturns (img : EntryImage) (s u : State) : Prop :=
  s.pc = img.text.addr .cpuSwitchTo ∧
    ∃ t, img.text.Leads s t ∧ img.text.fetch t.pc = some (.ret lr) ∧ img.text.step t = some u

inductive SwitchStep (img : EntryImage) (tasks : Set Word) (m : SwitchState) : SwitchState → Prop
  /-- The running task does what it likes, but leaves the contexts of the tasks that are
  switched out alone. -/
  | work {s : State}
      (hkeep : ∀ t c, m.away t = some c → SameOn (t.toNat + 16) (t.toNat + 120) m.cpu.mem s.mem) :
      SwitchStep img tasks m { m with cpu := s }
  /-- The running task calls `cpu_switch_to` for another one. -/
  | switch {next : Word} {u : State} (hprev : m.cpu.x 0 = m.current) (hnext : m.cpu.x 1 = next)
      (hmem : next ∈ tasks) (hne : next ≠ m.current) (hreturns : SwitchReturns img m.cpu u) :
      SwitchStep img tasks m
        { cpu := u
          current := next
          away := Function.update (Function.update m.away m.current (some (cpuContextOf m.cpu)))
            next none }

/-! ## One call -/

/-- The context in the `task_struct` at `t`. -/
def contextAt (m : Mem) (t : Word) : CpuContext :=
  let cell (i : Nat) := load m (t + threadCpuContext + BitVec.ofNat 64 (8 * i)) 8
  { x19 := cell 0, x20 := cell 1, x21 := cell 2, x22 := cell 3, x23 := cell 4, x24 := cell 5,
    x25 := cell 6, x26 := cell 7, x27 := cell 8, x28 := cell 9, fp := cell 10, sp := cell 11,
    pc := cell 12 }

theorem cells_contextAt (m : Mem) (t : Word) :
    Cells m (t + threadCpuContext) (contextAt m t).words := by
  intro i hi
  rw [CpuContext.length_words] at hi
  interval_cases i <;> rfl

/-- The memory behind the stores of a call. -/
def switchedMem (s : State) : Mem :=
  storeCells (s.x 0 + threadCpuContext) 0 (cpuContextOf s).words s.mem

variable {img : EntryImage} {s u : State} {tasks : Set Word} {m m' : SwitchState} {next : Word}

/-- A call always returns. -/
theorem exists_switchReturns (hpc : s.pc = img.text.addr .cpuSwitchTo) :
    ∃ u, SwitchReturns img s u := by
  obtain ⟨t, hleads, hfetch, -⟩ := img.leads_cpuSwitchTo hpc (cells_contextAt _ _)
  refine ⟨t.setPc (t.x lr), hpc, t, hleads, hfetch, ?_⟩
  rw [Program.step, hfetch]
  rfl

/-- What a call does. -/
theorem SwitchReturns.spec (h : SwitchReturns img s u) {c : CpuContext}
    (hnext : Cells (switchedMem s) (s.x 1 + threadCpuContext) c.words) :
    cpuContextOf u = c ∧ u.pc = c.pc ∧ u.x 0 = s.x 0 ∧ u.mem = switchedMem s := by
  obtain ⟨hpc, t, hleads, hfetch, hstep⟩ := h
  obtain ⟨t', hleads', hfetch', hback, hzero, hmem⟩ := img.leads_cpuSwitchTo hpc hnext
  -- there is one way to a `ret`
  obtain rfl : t = t' := hleads.unique hleads' (Program.not_stays_of_fetch hfetch rfl)
    (Program.not_stays_of_fetch hfetch' rfl)
  rw [Program.step, hfetch] at hstep
  have hu : u = t.setPc (t.x lr) := (Option.some.inj hstep).symm
  rw [hu, cpuContextOf_setPc]
  have hreturn : (cpuContextOf t).pc = c.pc := by rw [hback]
  exact ⟨hback, hreturn, hzero, hmem⟩

theorem SwitchReturns.unique {u' : State} (h : SwitchReturns img s u)
    (h' : SwitchReturns img s u') : u' = u := by
  obtain ⟨-, t, hleads, hfetch, hstep⟩ := h
  obtain ⟨-, t', hleads', hfetch', hstep'⟩ := h'
  obtain rfl : t = t' := hleads.unique hleads' (Program.not_stays_of_fetch hfetch rfl)
    (Program.not_stays_of_fetch hfetch' rfl)
  exact Option.some.inj (hstep'.symm.trans hstep)

/-- The stores stay inside the context of the task that leaves. -/
theorem sameOn_switchedMem {lo hi : Nat} (hfits : (s.x 0).toNat + 120 ≤ 2 ^ 64)
    (hapart : hi ≤ (s.x 0).toNat + 16 ∨ (s.x 0).toNat + 120 ≤ lo) :
    SameOn lo hi s.mem (switchedMem s) := by
  have haddr : (s.x 0 + threadCpuContext).toNat = (s.x 0).toNat + 16 :=
    toNat_add_ofNat (i := 16) (by omega)
  have hlength : (cpuContextOf s).words.length = 13 := rfl
  exact sameOn_storeCells _ (by omega) (by omega) _

theorem TaskStructs.toNat_context (h : TaskStructs tasks) {t : Word} (ht : t ∈ tasks) :
    (t + threadCpuContext).toNat = t.toNat + 16 := by
  have hfits := h.fits t ht
  have htask : taskSize = 168 := rfl
  exact toNat_add_ofNat (i := 16) (by omega)

/-- The context of the task that leaves is full behind the stores. -/
theorem TaskStructs.cells_switchedMem (h : TaskStructs tasks) (ht : s.x 0 ∈ tasks) :
    Cells (switchedMem s) (s.x 0 + threadCpuContext) (cpuContextOf s).words := by
  have hfits := h.fits _ ht
  have haddr := h.toNat_context ht
  have htask : taskSize = 168 := rfl
  have hlength : (cpuContextOf s).words.length = 13 := rfl
  exact cells_storeCells _ (by omega) _

/-- The stores reach no context of another task. -/
theorem TaskStructs.sameOn_switchedMem (h : TaskStructs tasks) (ht : s.x 0 ∈ tasks) {v : Word}
    (hv : v ∈ tasks) (hne : v ≠ s.x 0) :
    SameOn (v.toNat + 16) (v.toNat + 120) s.mem (switchedMem s) := by
  have hfits := h.fits _ ht
  have hapart := h.apart _ hv _ ht hne
  have htask : taskSize = 168 := rfl
  exact Arm64OS.sameOn_switchedMem (by omega) (by omega)

/-! ## Runs -/

/-- What each call finds. -/
structure SwitchInv (tasks : Set Word) (m : SwitchState) : Prop where
  current : m.current ∈ tasks
  mem : ∀ t c, m.away t = some c → t ∈ tasks ∧ t ≠ m.current
  saved : ∀ t c, m.away t = some c → Cells m.cpu.mem (t + threadCpuContext) c.words

theorem TaskStructs.cells_sameOn (h : TaskStructs tasks) {t : Word} (ht : t ∈ tasks)
    {mem mem' : Mem} {c : CpuContext} (hcells : Cells mem (t + threadCpuContext) c.words)
    (hsame : SameOn (t.toNat + 16) (t.toNat + 120) mem mem') :
    Cells mem' (t + threadCpuContext) c.words := by
  have hfits := h.fits t ht
  have haddr := h.toNat_context ht
  have htask : taskSize = 168 := rfl
  have hlength : c.words.length = 13 := rfl
  exact hcells.sameOn hsame (by omega) (by omega) (by omega)

/-- Behind the stores of a call, the contexts of all tasks but the one that comes are those of
their calls. -/
theorem SwitchInv.saved_switchedMem (h : SwitchInv tasks m) (htasks : TaskStructs tasks)
    (hprev : m.cpu.x 0 = m.current) {t : Word} {c : CpuContext}
    (ht : Function.update m.away m.current (some (cpuContextOf m.cpu)) t = some c) :
    t ∈ tasks ∧ Cells (switchedMem m.cpu) (t + threadCpuContext) c.words := by
  have hmem : m.cpu.x 0 ∈ tasks := hprev.symm ▸ h.current
  by_cases hcurrent : t = m.current
  · subst hcurrent
    rw [Function.update_self] at ht
    have hcells := htasks.cells_switchedMem hmem
    rw [hprev, Option.some.inj ht] at hcells
    exact ⟨h.current, hcells⟩
  · rw [Function.update_of_ne hcurrent] at ht
    have hin := (h.mem t c ht).1
    have hne : t ≠ m.cpu.x 0 := fun heq => hcurrent (heq.trans hprev)
    exact ⟨hin, htasks.cells_sameOn hin (h.saved t c ht) (htasks.sameOn_switchedMem hmem hin hne)⟩

theorem SwitchInv.step (h : SwitchInv tasks m) (htasks : TaskStructs tasks)
    (hstep : SwitchStep img tasks m m') : SwitchInv tasks m' := by
  cases hstep with
  | work hkeep =>
      refine ⟨h.current, h.mem, ?_⟩
      intro t c hc
      exact htasks.cells_sameOn (h.mem t c hc).1 (h.saved t c hc) (hkeep t c hc)
  | @switch next u hprev _ hmem _ hreturns =>
      have hresult := hreturns.spec (cells_contextAt _ _)
      -- a task that is away behind the call is not the one that came
      have hother : ∀ t c, Function.update (Function.update m.away m.current
          (some (cpuContextOf m.cpu))) next none t = some c →
          t ≠ next ∧ Function.update m.away m.current (some (cpuContextOf m.cpu)) t = some c := by
        intro t c hc
        by_cases ht : t = next
        · subst ht
          rw [Function.update_self] at hc
          cases hc
        · rw [Function.update_of_ne ht] at hc
          exact ⟨ht, hc⟩
      refine ⟨hmem, ?_, ?_⟩
      · intro t c hc
        obtain ⟨ht, hc⟩ := hother t c hc
        exact ⟨(h.saved_switchedMem htasks hprev hc).1, ht⟩
      · intro t c hc
        obtain ⟨-, hc⟩ := hother t c hc
        show Cells u.mem _ _
        rw [hresult.2.2.2]
        exact (h.saved_switchedMem htasks hprev hc).2

theorem SwitchInv.run {m₀ : SwitchState} (h : SwitchInv tasks m₀) (htasks : TaskStructs tasks)
    (hrun : Relation.ReflTransGen (SwitchStep img tasks) m₀ m) : SwitchInv tasks m := by
  induction hrun with
  | refl => exact h
  | tail _ hstep ih => exact ih.step htasks hstep

/-- A call returns, in one way.  The task that comes has the registers back that it had at its
own call, its `x0` is the task that left in this call, and the contexts of the tasks other than
that one are as they were. -/
theorem switch_round_trip (img : EntryImage) {tasks : Set Word} (htasks : TaskStructs tasks)
    {m₀ m : SwitchState} (hcurrent : m₀.current ∈ tasks) (haway : ∀ t, m₀.away t = none)
    (hrun : Relation.ReflTransGen (SwitchStep img tasks) m₀ m)
    (hpc : m.cpu.pc = img.text.addr .cpuSwitchTo) (hprev : m.cpu.x 0 = m.current)
    (hne : m.cpu.x 1 ≠ m.current) :
    ∃ u, SwitchReturns img m.cpu u ∧ (∀ u', SwitchReturns img m.cpu u' → u' = u) ∧
      (∀ c, m.away (m.cpu.x 1) = some c → cpuContextOf u = c ∧ u.pc = c.pc) ∧
      u.x 0 = m.current ∧
      ∀ t ∈ tasks, t ≠ m.current → SameOn (t.toNat + 16) (t.toNat + 120) m.cpu.mem u.mem := by
  have hstart : SwitchInv tasks m₀ := by
    refine ⟨hcurrent, ?_, ?_⟩
    all_goals
      intro t c hc
      rw [haway t] at hc
      cases hc
  have hinv := hstart.run htasks hrun
  obtain ⟨u, hu⟩ := exists_switchReturns hpc
  refine ⟨u, hu, fun u' hu' => hu.unique hu', ?_, ?_, ?_⟩
  · intro c hc
    have hc' : Function.update m.away m.current (some (cpuContextOf m.cpu)) (m.cpu.x 1) = some c := by
      rw [Function.update_of_ne hne, hc]
    have hspec := hu.spec (hinv.saved_switchedMem htasks hprev hc').2
    exact ⟨hspec.1, hspec.2.1⟩
  · obtain ⟨-, -, hzero, -⟩ := hu.spec (cells_contextAt _ _)
    exact hzero.trans hprev
  · intro t ht hother
    obtain ⟨-, -, -, hmem⟩ := hu.spec (cells_contextAt _ _)
    rw [hmem]
    exact htasks.sameOn_switchedMem (hprev.symm ▸ hinv.current) ht (hprev.symm ▸ hother)

/-- Two tasks: the one at `0x90000` is about to switch to the one at `0xa0000`. -/
def SwitchState.sample : SwitchState where
  cpu :=
    { x := Function.update (Function.update (Function.update (fun _ => 0) 0 0x90000) 1 0xa0000) 19 7
      sp := 0x91000
      pc := EntryImage.sample.text.addr .cpuSwitchTo
      pstate := 5
      spEl0 := 0
      elr := 0
      spsr := 0
      esr := 0
      mem := fun _ => 0 }
  current := 0x90000
  away _ := none

/-- The other task, once it runs, about to switch back. -/
def switchingBack (u : State) : State :=
  { u with
    x := Function.update (Function.update u.x 0 0xa0000) 1 0x90000
    pc := EntryImage.sample.text.addr .cpuSwitchTo }

theorem switch_round_trip_sample :
    ∃ u u', SwitchReturns EntryImage.sample SwitchState.sample.cpu u ∧
      SwitchReturns EntryImage.sample (switchingBack u) u' ∧
      cpuContextOf u' = cpuContextOf SwitchState.sample.cpu ∧ u'.x 19 = 7 ∧ u'.x 0 = 0xa0000 := by
  have htasks : TaskStructs {0x90000, 0xa0000} := by
    constructor
    · rintro t (rfl | rfl) <;> decide
    · rintro t (rfl | rfl) t' (rfl | rfl) hne
      · exact absurd rfl hne
      · decide
      · decide
      · exact absurd rfl hne
  obtain ⟨u, hu⟩ : ∃ u, SwitchReturns EntryImage.sample SwitchState.sample.cpu u :=
    exists_switchReturns rfl
  have hswitch : SwitchStep EntryImage.sample {0x90000, 0xa0000} SwitchState.sample _ :=
    .switch rfl rfl (Or.inr rfl) (by decide) hu
  have hleft := Relation.ReflTransGen.single hswitch
  -- the other task only loads its arguments
  have hne : (0x90000 : Word) ≠ 0xa0000 := by decide
  have hback := hleft.tail (SwitchStep.work (s := switchingBack u) fun t c _ => SameOn.refl _ _ _)
  obtain ⟨u', hu', -, hcontext, hzero, -⟩ := switch_round_trip EntryImage.sample htasks
    (Or.inl rfl) (fun _ => rfl) hback rfl rfl hne
  have hsaved := (hcontext (cpuContextOf SwitchState.sample.cpu) rfl).1
  have hx19 : (cpuContextOf u').x19 = 7 := by
    rw [hsaved]
    rfl
  exact ⟨u, u', hu, hu', hsaved, hx19, hzero⟩

end Arm64OS
