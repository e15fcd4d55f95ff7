import Mathlib.Tactic

/-!
# Runs of a labelled machine

A machine is a partial step function: `step l s` is the state after label `l`, or
`none` where `l` is not enabled.  A run is a list of labels.  `Reachable` says that
some run leads to a state, `Along` that every step of a given run meets a
predicate on the label and the state before the step.  The two invariant rules
package the induction over runs once.
-/

namespace Run

variable {State Label : Type*} (step : Label → State → Option State)

/-- The state after a list of labels, if each of them is enabled in turn. -/
def exec : List Label → State → Option State
  | [], s => some s
  | l :: ls, s => (step l s).bind (exec ls)

/-- Every step of the run `ls` from `s` meets `P`. -/
def Along (P : Label → State → Prop) : List Label → State → Prop
  | [], _ => True
  | l :: ls, s => P l s ∧ ∀ s', step l s = some s' → Along P ls s'

/-- Some run leads from `s` to `s'`. -/
def Reachable (s s' : State) : Prop := ∃ ls, exec step ls s = some s'

variable {step}

@[simp] theorem exec_nil (s : State) : exec step [] s = some s := rfl

@[simp] theorem exec_cons (l : Label) (ls : List Label) (s : State) :
    exec step (l :: ls) s = (step l s).bind (exec step ls) := rfl

theorem exec_append (ls ls' : List Label) (s : State) :
    exec step (ls ++ ls') s = (exec step ls s).bind (exec step ls') := by
  induction ls generalizing s with
  | nil => rfl
  | cons l ls ih =>
      cases hstep : step l s with
      | none => simp [hstep]
      | some s' => simp [hstep, ih]

@[simp] theorem along_nil (P : Label → State → Prop) (s : State) : Along step P [] s := trivial

@[simp] theorem along_cons (P : Label → State → Prop) (l : Label) (ls : List Label) (s : State) :
    Along step P (l :: ls) s ↔ P l s ∧ ∀ s', step l s = some s' → Along step P ls s' := Iff.rfl

/-- A run can be checked step by step. -/
instance decidableAlong (P : Label → State → Prop) [∀ l s, Decidable (P l s)] :
    ∀ (ls : List Label) (s : State), Decidable (Along step P ls s)
  | [], _ => isTrue trivial
  | l :: ls, s =>
      match hl : step l s with
      | none => decidable_of_iff (P l s) (by simp [hl])
      | some t =>
          have := decidableAlong P ls t
          decidable_of_iff (P l s ∧ Along step P ls t) (by simp [hl])

/-- Where the first step is enabled, it leads to one state. -/
theorem along_cons_of_step {P : Label → State → Prop} {l : Label} {ls : List Label}
    {s s' : State} (hstep : step l s = some s') :
    Along step P (l :: ls) s ↔ P l s ∧ Along step P ls s' := by
  rw [along_cons]
  refine and_congr_right fun _ => ⟨fun h => h s' hstep, fun h t ht => ?_⟩
  obtain rfl : s' = t := Option.some.inj (hstep.symm.trans ht)
  exact h

theorem Reachable.refl (s : State) : Reachable step s s := ⟨[], rfl⟩

theorem Reachable.tail {s s' s'' : State} {l : Label} (h : Reachable step s s')
    (hstep : step l s' = some s'') : Reachable step s s'' := by
  obtain ⟨ls, hls⟩ := h
  refine ⟨ls ++ [l], ?_⟩
  rw [exec_append, hls]
  simp [hstep]

/-- A run whose steps all meet `P` keeps every invariant that a step meeting `P` keeps. -/
theorem exec_invariant {P : Label → State → Prop} {I : State → Prop}
    (hstep : ∀ l s s', I s → P l s → step l s = some s' → I s')
    {ls : List Label} {s s' : State} (hs : I s) (hP : Along step P ls s)
    (hrun : exec step ls s = some s') : I s' := by
  induction ls generalizing s with
  | nil =>
      obtain rfl : s = s' := by simpa using hrun
      exact hs
  | cons l ls ih =>
      cases hl : step l s with
      | none => simp [hl] at hrun
      | some t =>
          have hrest : exec step ls t = some s' := by simpa [hl] using hrun
          exact ih (hstep l s t hs hP.1 hl) (hP.2 t hl) hrest

/-- What one step keeps, every reachable state has. -/
theorem Reachable.invariant {I : State → Prop}
    (hstep : ∀ l s s', I s → step l s = some s' → I s')
    {s s' : State} (h : Reachable step s s') (hs : I s) : I s' := by
  obtain ⟨ls, hls⟩ := h
  have htrue : Along step (fun _ _ => True) ls s := by
    clear hls hs
    induction ls generalizing s with
    | nil => trivial
    | cons l ls ih => exact ⟨trivial, fun t _ => ih⟩
  exact exec_invariant (fun l s s' hI _ => hstep l s s' hI) hs htrue hls

/-- Under an invariant of the steps meeting `P`, a predicate that `P` forces at each
step holds along every run whose steps meet `P`. -/
theorem along_of_invariant {P Q : Label → State → Prop} {I : State → Prop}
    (hstep : ∀ l s s', I s → P l s → step l s = some s' → I s')
    (hPQ : ∀ l s, I s → P l s → Q l s)
    {ls : List Label} {s : State} (hs : I s) (hP : Along step P ls s) : Along step Q ls s := by
  induction ls generalizing s with
  | nil => trivial
  | cons l ls ih =>
      refine ⟨hPQ l s hs hP.1, fun s' hs' => ?_⟩
      exact ih (hstep l s s' hs hP.1 hs') (hP.2 s' hs')

/-- A predicate that holds along a run holds at each step of it. -/
theorem Along.at_step {P : Label → State → Prop} {ls : List Label} {l : Label} {s s' : State}
    (h : Along step P (ls ++ [l]) s) (hrun : exec step ls s = some s') : P l s' := by
  induction ls generalizing s with
  | nil =>
      obtain rfl : s = s' := by simpa using hrun
      exact h.1
  | cons k ls ih =>
      cases hk : step k s with
      | none => simp [hk] at hrun
      | some t => exact ih (h.2 t hk) (by simpa [hk] using hrun)

/-- In a run that gets through, every step is enabled. -/
theorem along_of_exec {ls : List Label} {s s' : State} (hrun : exec step ls s = some s') :
    Along step (fun l s => (step l s).isSome) ls s := by
  induction ls generalizing s with
  | nil => trivial
  | cons l ls ih =>
      cases hl : step l s with
      | none => simp [hl] at hrun
      | some t =>
          have hrest : exec step ls t = some s' := by simpa [hl] using hrun
          exact (along_cons_of_step hl).2 ⟨by rw [hl]; rfl, ih hrest⟩

/-- A property of every label of a run may be asked for at each step. -/
theorem Along.and_forall {P : Label → State → Prop} {Q : Label → Prop} {ls : List Label}
    {s : State} (hQ : ∀ l ∈ ls, Q l) (h : Along step P ls s) :
    Along step (fun l s => Q l ∧ P l s) ls s := by
  induction ls generalizing s with
  | nil => trivial
  | cons l ls ih =>
      refine ⟨⟨hQ l (List.mem_cons_self ..), h.1⟩, fun s' hs' => ?_⟩
      exact ih (fun k hk => hQ k (List.mem_cons_of_mem _ hk)) (h.2 s' hs')

/-- Two predicates that agree in every state hold along the same runs. -/
theorem along_congr {P Q : Label → State → Prop} (h : ∀ l s, P l s ↔ Q l s)
    (ls : List Label) (s : State) : Along step P ls s ↔ Along step Q ls s := by
  induction ls generalizing s with
  | nil => exact Iff.rfl
  | cons l ls ih => simp only [along_cons, h, ih]

/-- Two predicates that agree wherever an invariant holds that each step meeting the first
of them keeps, hold along the same runs. -/
theorem along_congr_of_kept {P Q : Label → State → Prop} {I : State → Prop}
    (hstep : ∀ l s s', I s → P l s → step l s = some s' → I s') {ls : List Label}
    (h : ∀ l ∈ ls, ∀ s, I s → (P l s ↔ Q l s)) {s : State} (hs : I s) :
    Along step P ls s ↔ Along step Q ls s := by
  induction ls generalizing s with
  | nil => exact Iff.rfl
  | cons l ls ih =>
      rw [along_cons, along_cons, h l List.mem_cons_self s hs]
      refine and_congr_right fun hl => forall_congr' fun s' => forall_congr' fun hs' => ?_
      have hnext := hstep l s s' hs ((h l List.mem_cons_self s hs).mpr hl) hs'
      exact ih (fun k hk => h k (List.mem_cons_of_mem _ hk)) hnext

/-- Two predicates that agree wherever an invariant of all steps holds, hold along the same
runs. -/
theorem along_congr_of_invariant {P Q : Label → State → Prop} {I : State → Prop}
    (hstep : ∀ l s s', I s → step l s = some s' → I s') {ls : List Label}
    (h : ∀ l ∈ ls, ∀ s, I s → (P l s ↔ Q l s)) {s : State} (hs : I s) :
    Along step P ls s ↔ Along step Q ls s :=
  along_congr_of_kept (fun l s s' hI _ => hstep l s s' hI) h hs

end Run
