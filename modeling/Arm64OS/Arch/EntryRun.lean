import Arm64OS.Arch.Entry

/-!
# Interrupts are masked during the restore

`restoresMasked_run`: as long as `ret_to_user` never finds `need_resched` set, every way to
`kernel_context_res` arrives with interrupts masked.  The invariant is that the code in front
of every task passes the static check of `Entry.lean`, for the value that `PSTATE.I` has when
the task gets to run it.
-/

namespace Arm64OS

/-- What each task still has to run is safe where the task will pick it up. -/
structure EntryInv (s : Cpu) : Prop where
  born : s.born s.current = true
  /-- the running routine, under the current `PSTATE.I`; EL0 runs unmasked -/
  running : (s.stack s.current = [] ∧ s.masked = false) ∨
    ∃ a below, s.stack s.current = a :: below ∧ Passes s.masked a.code
  /-- an interrupted routine goes on after an `eret` that unmasks -/
  interrupted : ∀ t, s.born t = true → ∀ a ∈ (s.stack t).tail, Passes false a.code
  /-- a task that is not running goes on inside `__schedule`, masked -/
  waiting : ∀ t, s.born t = true → t ≠ s.current →
    ∃ a below, s.stack t = a :: below ∧ Passes true a.code

theorem entryInv_boot (initTask : U64) : EntryInv (Cpu.boot initTask) where
  born := by simp [Cpu.boot]
  running := by
    refine Or.inr ⟨⟨[.kernelCode], 0⟩, [], rfl, 2, ?_⟩
    rfl
  interrupted := by
    intro t _ a ha
    simp [Cpu.boot] at ha
  waiting := by
    intro t hborn ht
    exact absurd (by simpa [Cpu.boot] using hborn) ht

variable {s s' : Cpu} {a a' : Routine} {below : List Routine}

/-- Other code in the innermost routine leaves the interrupted ones alone. -/
theorem EntryInv.interrupted_update (h : EntryInv s) (hstack : s.stack s.current = a :: below)
    {t : U64} (hborn : s.born t = true) {d : Routine}
    (hd : d ∈ (Function.update s.stack s.current (a' :: below) t).tail) : Passes false d.code := by
  by_cases ht : t = s.current
  · subst ht
    refine h.interrupted s.current hborn d ?_
    simpa [hstack] using hd
  · rw [Function.update_of_ne ht] at hd
    exact h.interrupted t hborn d hd

/-- The running task gets other code in its innermost routine, and perhaps another
`PSTATE.I`. -/
theorem EntryInv.setTop (h : EntryInv s) (hstack : s.stack s.current = a :: below)
    (hcurrent : s'.current = s.current) (hborn : s'.born = s.born)
    (hstack' : s'.stack = Function.update s.stack s.current (a' :: below))
    (hpasses : Passes s'.masked a'.code) : EntryInv s' where
  born := by
    rw [hborn, hcurrent]
    exact h.born
  running := by
    refine Or.inr ⟨a', below, ?_, hpasses⟩
    rw [hstack', hcurrent, Function.update_self]
  interrupted := by
    intro t ht d hd
    rw [hborn] at ht
    rw [hstack'] at hd
    exact h.interrupted_update hstack ht hd
  waiting := by
    intro t ht hne
    rw [hborn] at ht
    rw [hcurrent] at hne
    rw [hstack', Function.update_of_ne hne]
    exact h.waiting t ht hne

/-- An exception pushes a routine that starts masked. -/
theorem EntryInv.push (h : EntryInv s) {f : Sym} (hmasked : s.masked = false)
    (hf : f = .el0Sync ∨ f = .el0Irq ∨ f = .el1Irq ∨ f = .retFromFork) :
    EntryInv { s.setStack (⟨body f, 0⟩ :: s.stack s.current) with masked := true } where
  born := h.born
  running := by
    refine Or.inr ⟨⟨body f, 0⟩, s.stack s.current, ?_, passes_entry hf⟩
    simp [Cpu.setStack]
  interrupted := by
    intro t hborn d hd
    by_cases ht : t = s.current
    · subst ht
      have hmem : d ∈ s.stack s.current := by simpa [Cpu.setStack] using hd
      rcases h.running with ⟨hnil, -⟩ | ⟨a, below, hstack, hpasses⟩
      · rw [hnil] at hmem
        simp at hmem
      · rw [hstack] at hmem
        rcases List.mem_cons.1 hmem with rfl | hbelow
        · exact hmasked ▸ hpasses
        · refine h.interrupted s.current hborn d ?_
          rw [hstack]
          exact hbelow
    · refine h.interrupted t hborn d ?_
      simpa [Cpu.setStack, ht] using hd
  waiting := by
    intro t hborn ht
    have hne : t ≠ s.current := ht
    obtain ⟨a, below, hstack, hpasses⟩ := h.waiting t hborn hne
    exact ⟨a, below, by simpa [Cpu.setStack, hne] using hstack, hpasses⟩

/-- `eret` goes back to what was interrupted, unmasked. -/
theorem EntryInv.pop (h : EntryInv s) (hstack : s.stack s.current = a :: below) :
    EntryInv { s.setStack below with masked := false } where
  born := h.born
  running := by
    have htail := h.interrupted s.current h.born
    rw [hstack] at htail
    cases below with
    | nil => exact Or.inl ⟨by simp [Cpu.setStack], rfl⟩
    | cons d below => exact Or.inr ⟨d, below, by simp [Cpu.setStack], htail d (by simp)⟩
  interrupted := by
    intro t hborn d hd
    by_cases ht : t = s.current
    · subst ht
      refine h.interrupted s.current hborn d ?_
      rw [hstack]
      have hmem : d ∈ below.tail := by simpa [Cpu.setStack] using hd
      exact List.mem_of_mem_tail hmem
    · refine h.interrupted t hborn d ?_
      simpa [Cpu.setStack, ht] using hd
  waiting := by
    intro t hborn ht
    have hne : t ≠ s.current := ht
    obtain ⟨d, below', hd, hpasses⟩ := h.waiting t hborn hne
    exact ⟨d, below', by simpa [Cpu.setStack, hne] using hd, hpasses⟩

/-- `switch_to`, called masked, leaves code that goes on masked, and takes such code up. -/
theorem EntryInv.switch (h : EntryInv s) (hstack : s.stack s.current = a :: below)
    (hborn : s'.born = s.born) (hnext : s.born s'.current = true)
    (hstack' : s'.stack = Function.update s.stack s.current (a' :: below))
    (hmasked : s'.masked = true) (hpasses : Passes true a'.code) : EntryInv s' where
  born := by rwa [hborn]
  running := by
    by_cases hsame : s'.current = s.current
    · refine Or.inr ⟨a', below, ?_, hmasked ▸ hpasses⟩
      rw [hstack', hsame, Function.update_self]
    · obtain ⟨d, below', hd, hd'⟩ := h.waiting _ hnext hsame
      refine Or.inr ⟨d, below', ?_, hmasked ▸ hd'⟩
      rw [hstack', Function.update_of_ne hsame]
      exact hd
  interrupted := by
    intro t ht d hd
    rw [hborn] at ht
    rw [hstack'] at hd
    exact h.interrupted_update hstack ht hd
  waiting := by
    intro t ht _
    rw [hborn] at ht
    by_cases hcur : t = s.current
    · exact ⟨a', below, by rw [hstack', hcur, Function.update_self], hpasses⟩
    · obtain ⟨d, below', hd, hd'⟩ := h.waiting t ht hcur
      exact ⟨d, below', by rw [hstack', Function.update_of_ne hcur]; exact hd, hd'⟩

/-- A new task waits in `ret_from_fork`. -/
theorem EntryInv.fork (h : EntryInv s) {p : U64} (hp : s.born p = false) :
    EntryInv (s.fork p) := by
  have hne : s.current ≠ p := by
    intro he
    rw [← he, h.born] at hp
    cases hp
  have hother : ∀ t, t ≠ p → (s.fork p).born t = true →
      s.born t = true ∧ (s.fork p).stack t = s.stack t := by
    intro t ht hborn
    simp only [Cpu.fork, Function.update_of_ne ht] at hborn
    exact ⟨hborn, Function.update_of_ne ht ..⟩
  have hnew : (s.fork p).stack p = [⟨body .retFromFork, 0⟩] := Function.update_self ..
  have hcurrent : (s.fork p).stack s.current = s.stack s.current := Function.update_of_ne hne ..
  constructor
  case born =>
    show Function.update s.born p true s.current = true
    rw [Function.update_of_ne hne]
    exact h.born
  case running =>
    rw [show (s.fork p).current = s.current from rfl, hcurrent]
    exact h.running
  case interrupted =>
    intro t hborn d hd
    by_cases ht : t = p
    · rw [ht, hnew] at hd
      cases hd
    · obtain ⟨hborn', hsame⟩ := hother t ht hborn
      exact h.interrupted t hborn' d (hsame ▸ hd)
  case waiting =>
    intro t hborn hcur
    by_cases ht : t = p
    · rw [ht, hnew]
      exact ⟨_, [], rfl, passes_entry (f := .retFromFork) (by simp)⟩
    · obtain ⟨hborn', hsame⟩ := hother t ht hborn
      rw [hsame]
      exact h.waiting t hborn' hcur

variable {choice : Choice} {i : Instr} {rest : List Instr} {n : Int}

/-- Code that the model leaves open: a fork, more of the same, or its end. -/
theorem EntryInv.kernelCode (h : EntryInv s)
    (hstack : s.stack s.current = ⟨.kernelCode :: rest, n⟩ :: below) (hrest : Passes s.masked rest)
    (hstep : execInstr choice .kernelCode ⟨rest, n⟩ below s = some s') : EntryInv s' := by
  cases hfork : choice.fork with
  | some p =>
      cases hborn : s.born p with
      | true => simp [execInstr, hfork, hborn] at hstep
      | false =>
          simp only [execInstr, hfork, hborn, Bool.false_eq_true, if_false,
            Option.some.injEq] at hstep
          subst hstep
          exact h.fork hborn
  | none =>
      simp only [execInstr, hfork, Option.some.injEq] at hstep
      subst hstep
      split
      · exact h
      · exact h.setTop hstack rfl rfl rfl hrest

/-- One instruction. -/
theorem entryInv_execInstr (h : EntryInv s) (hstack : s.stack s.current = ⟨i :: rest, n⟩ :: below)
    (hclear : ∀ target, i = .cbnzNeedResched target → s.needResched s.current = false)
    (hstep : execInstr choice i ⟨rest, n⟩ below s = some s') : EntryInv s' := by
  obtain ⟨fuel, hcheck⟩ : Passes s.masked (i :: rest) := by
    rcases h.running with ⟨hnil, -⟩ | ⟨a, below', ha, hpasses⟩
    · rw [hstack] at hnil
      exact absurd hnil (by simp)
    · rw [hstack] at ha
      obtain ⟨rfl, -⟩ := List.cons.inj ha
      exact hpasses
  cases fuel with
  | zero => exact absurd hcheck (by simp [restoresMasked])
  | succ fuel =>
      cases i with
      | kernelCode => exact h.kernelCode hstack ⟨fuel, hcheck⟩ hstep
      | plain | archIrqHandler | irqDisable | irqEnable | readCount | writeCount val
      | scheduleDebug | checkPreemptible | bl target | b target =>
          obtain rfl := Option.some.inj hstep
          exact h.setTop hstack rfl rfl rfl ⟨fuel, hcheck⟩
      | cbnzPreempt target | cbzNeedResched target =>
          obtain ⟨htaken, hfall⟩ := Bool.and_eq_true_iff.1 hcheck
          obtain rfl := Option.some.inj hstep
          refine h.setTop hstack rfl rfl rfl ⟨fuel, ?_⟩
          show restoresMasked fuel s.masked (if _ then _ else _) = true
          split
          · exact hfall
          · exact htaken
      | cbzX19 target =>
          obtain ⟨htaken, hfall⟩ := Bool.and_eq_true_iff.1 hcheck
          obtain rfl := Option.some.inj hstep
          refine h.setTop hstack rfl rfl rfl ⟨fuel, ?_⟩
          show restoresMasked fuel s.masked (if _ then _ else _) = true
          split
          · exact htaken
          · exact hfall
      | cbnzNeedResched target =>
          obtain rfl := Option.some.inj hstep
          refine h.setTop hstack rfl rfl rfl ⟨fuel, ?_⟩
          show restoresMasked fuel s.masked (if _ then _ else _) = true
          -- `need_sched` would not pass the check: here the condition on the run is used
          rw [hclear target rfl]
          exact hcheck
      | switchTo =>
          -- the check asks for a masked switch, so whoever waits is taken up masked
          obtain ⟨hmasked, hrest⟩ := Bool.and_eq_true_iff.1 hcheck
          cases hborn : s.born choice.next with
          | false => simp [execInstr, hborn] at hstep
          | true =>
              simp only [execInstr, hborn, if_true, Option.some.injEq] at hstep
              subst hstep
              exact h.switch hstack rfl hborn rfl hmasked ⟨fuel, hrest⟩
      | msrElr | msrSpsr | reload =>
          obtain ⟨hmasked, hrest⟩ := Bool.and_eq_true_iff.1 hcheck
          obtain rfl := Option.some.inj hstep
          exact h.setTop hstack rfl rfl rfl ⟨fuel, hmasked.symm ▸ hrest⟩
      | eret =>
          obtain rfl := Option.some.inj hstep
          exact h.pop hstack

/-- **The step lemma.** -/
theorem entryInv_step (op : CpuOp) (s s' : Cpu) (h : EntryInv s) (hclear : NoWorkPending op s)
    (hstep : cpuStep op s = some s') : EntryInv s' := by
  cases op with
  | exec choice =>
      simp only [cpuStep] at hstep
      split at hstep
      · obtain rfl := Option.some.inj hstep
        exact h
      · exact absurd hstep (by simp)
      · rename_i i rest n below hstack
        refine entryInv_execInstr h hstack (fun target hi => hclear target ?_) hstep
        rw [Cpu.nextInstr, hstack, hi]
        rfl
  | irq =>
      simp only [cpuStep] at hstep
      split at hstep
      · exact absurd hstep (by simp)
      · rename_i hmasked
        have hmasked' : s.masked = false := by simpa using hmasked
        -- taken at EL0 or inside the kernel
        split at hstep
        · rename_i hstack
          obtain rfl := Option.some.inj hstep
          have hpush := h.push (f := .el0Irq) hmasked' (by simp)
          rw [hstack] at hpush
          exact hpush
        · rename_i a below hstack
          obtain rfl := Option.some.inj hstep
          have hpush := h.push (f := .el1Irq) hmasked' (by simp)
          rw [hstack] at hpush
          exact hpush
  | sync =>
      simp only [cpuStep] at hstep
      split at hstep
      · rename_i hstack
        obtain rfl := Option.some.inj hstep
        have hmasked : s.masked = false := by
          rcases h.running with ⟨-, hmasked⟩ | ⟨a, below, ha, -⟩
          · exact hmasked
          · rw [hstack] at ha
            exact absurd ha (by simp)
        have hpush := h.push (f := .el0Sync) hmasked (by simp)
        rw [hstack] at hpush
        exact hpush
      · exact absurd hstep (by simp)

theorem restoresMasked_of_entryInv {s : Cpu} (h : EntryInv s) : RestoresMasked s := by
  intro i hnext hi
  rcases h.running with ⟨hnil, -⟩ | ⟨⟨code, n⟩, below, hstack, fuel, hcheck⟩
  · rw [Cpu.nextInstr, hnil] at hnext
    exact absurd hnext (by simp)
  · rw [Cpu.nextInstr, hstack] at hnext
    obtain ⟨rest, rfl⟩ : ∃ rest, code = i :: rest := by
      cases code with
      | nil => exact absurd hnext (by simp)
      | cons j rest =>
          obtain rfl : j = i := by simpa using hnext
          exact ⟨rest, rfl⟩
    cases fuel with
    | zero => exact absurd hcheck (by simp [restoresMasked])
    | succ fuel =>
        cases i <;> simp_all [Instr.restoring, restoresMasked]

/-- **When the restore is safe.**  In every run in which `ret_to_user` always finds
`need_resched` clear, interrupts are masked from the first write of `ELR`/`SPSR` up to the
`eret`, on every path and after any number of task switches. -/
theorem restoresMasked_run (initTask : U64) (ops : List CpuOp) (s : Cpu)
    (hclear : Run.Along cpuStep NoWorkPending ops (Cpu.boot initTask))
    (hrun : Run.exec cpuStep ops (Cpu.boot initTask) = some s) : RestoresMasked s :=
  restoresMasked_of_entryInv
    (Run.exec_invariant entryInv_step (entryInv_boot initTask) hclear hrun)

/-- The test of `need_resched` in `ret_to_user`. -/
def Instr.testsWork : Instr → Bool
  | .cbnzNeedResched _ => true
  | _ => false

theorem noWorkPending_exec_iff (c : Choice) (s : Cpu) : NoWorkPending (.exec c) s ↔
    (s.nextInstr.any Instr.testsWork = true → s.needResched s.current = false) := by
  refine ⟨fun h htest => ?_, fun h target hnext => h (by rw [hnext]; rfl)⟩
  obtain ⟨i, hnext, hi⟩ := (Option.any_eq_true _ _).1 htest
  cases i with
  | cbnzNeedResched target => exact h target hnext
  | _ => cases hi

instance (s : Cpu) : ∀ op, Decidable (NoWorkPending op s)
  | .irq | .sync => isTrue trivial
  | .exec c => decidable_of_iff _ (noWorkPending_exec_iff c s).symm

/-- A step with `taken` branches, in which a tick uses the time slice up or not, and the scheduler
picks the task at 0x400000. -/
def CpuOp.tick (exhausted : Bool) : CpuOp := .exec ⟨exhausted, 0x400000, true, none⟩

/-- `init_task` forks, and a tick takes it off the processor: the new task gets to EL0. -/
def forkAndTick : List CpuOp :=
  .exec ⟨false, 0, true, some 0x400000⟩ :: .irq :: List.replicate 74 (.tick true)

/-- Through `ret_from_fork` and then through `el0_irq`, up to the `eret`. -/
theorem restoresMasked_run_irq :
    ∃ s, Run.exec cpuStep (forkAndTick ++ .irq :: List.replicate 54 (.tick false))
        (Cpu.boot 0x90000) = some s ∧
      s.nextInstr = some .eret ∧ RestoresMasked s := by
  have hclear : Run.Along cpuStep NoWorkPending
      (forkAndTick ++ .irq :: List.replicate 54 (.tick false)) (Cpu.boot 0x90000) := by
    decide +kernel
  have hend : (Run.exec cpuStep (forkAndTick ++ .irq :: List.replicate 54 (.tick false))
      (Cpu.boot 0x90000)).map Cpu.nextInstr = some (some .eret) := by
    decide +kernel
  obtain ⟨s, hrun, hs⟩ := Option.map_eq_some_iff.1 hend
  exact ⟨s, hrun, hs, restoresMasked_run _ _ s hclear hrun⟩

/-- The tick at EL0 uses the time slice up: after `need_sched` the write of `ELR` comes with
interrupts unmasked. -/
theorem elr_written_unmasked :
    ∃ s, Run.exec cpuStep (forkAndTick ++ .irq :: List.replicate 49 (.tick true))
        (Cpu.boot 0x90000) = some s ∧ ¬ RestoresMasked s := by
  have hend : (Run.exec cpuStep (forkAndTick ++ .irq :: List.replicate 49 (.tick true))
      (Cpu.boot 0x90000)).map (fun s => (s.nextInstr, s.masked)) = some (some .msrElr, false) := by
    decide +kernel
  obtain ⟨s, hrun, hs⟩ := Option.map_eq_some_iff.1 hend
  obtain ⟨hnext, hmasked⟩ := Prod.mk.inj hs
  refine ⟨s, hrun, fun h => ?_⟩
  have htrue := h .msrElr hnext rfl
  rw [hmasked] at htrue
  exact absurd htrue (by decide)

end Arm64OS
