import Arm64OS.Lib.Run

/-!
# What a run can cost

Every step of a run has a cost.  A potential pays for it: what a step costs, the potential of
the state goes down by.  So no run costs more than the potential of the state it begins in.

The steps may be asked to meet a predicate.  A run that costs more than the potential has a
step that does not meet it, and `exists_of_cost` finds the state in front of that step.
-/

namespace Run

variable {State Label : Type*}

/-- The costs of the steps of a run, added up. -/
def cost (step : Label → State → Option State) (price : Label → State → Nat) :
    List Label → State → Nat
  | [], _ => 0
  | l :: ls, s => price l s + (step l s).elim 0 (cost step price ls)

variable {step : Label → State → Option State} {price : Label → State → Nat}

@[simp] theorem cost_nil (s : State) : cost step price [] s = 0 := rfl

theorem cost_cons {l : Label} {s t : State} (hstep : step l s = some t) (ls : List Label) :
    cost step price (l :: ls) s = price l s + cost step price ls t := by
  rw [cost, hstep]
  rfl

/-- Each step meeting `P` pays its price out of the potential `Φ`. -/
theorem cost_le_of_potential {P : Label → State → Prop} {I : State → Prop} {Φ : State → Nat}
    (hkept : ∀ l s s', I s → step l s = some s' → I s')
    (hpays : ∀ l s s', I s → P l s → step l s = some s' → price l s + Φ s' ≤ Φ s)
    {ls : List Label} {s s' : State} (hs : I s) (hP : Along step P ls s)
    (hrun : exec step ls s = some s') : cost step price ls s + Φ s' ≤ Φ s := by
  induction ls generalizing s with
  | nil =>
      obtain rfl : s = s' := by simpa using hrun
      simp
  | cons l ls ih =>
      cases hl : step l s with
      | none => simp [hl] at hrun
      | some t =>
          have hrest : exec step ls t = some s' := by simpa [hl] using hrun
          have hfirst := hpays l s t hs hP.1 hl
          have htail := ih (hkept l s t hs hl) (hP.2 t hl) hrest
          rw [cost_cons hl]
          omega

/-- A run whose steps meet `Q`, but not all of them `P`, comes to a first one that does not. -/
theorem exists_of_not_along {Q P : Label → State → Prop} {ls : List Label} {s : State}
    (hQ : Along step Q ls s) (h : ¬ Along step (fun l s => Q l s ∧ P l s) ls s) :
    ∃ front l rest t, ls = front ++ l :: rest ∧ exec step front s = some t ∧ ¬ P l t := by
  induction ls generalizing s with
  | nil => exact absurd trivial h
  | cons l ls ih =>
      by_cases hl : P l s
      · have hnext : ∃ t, step l s = some t ∧
            ¬ Along step (fun l s => Q l s ∧ P l s) ls t := by
          by_contra hnone
          refine h ⟨⟨hQ.1, hl⟩, fun t ht => ?_⟩
          by_contra hrest
          exact hnone ⟨t, ht, hrest⟩
        obtain ⟨t, ht, hrest⟩ := hnext
        obtain ⟨front, k, rest, u, rfl, hfront, hk⟩ := ih (hQ.2 t ht) hrest
        exact ⟨l :: front, k, rest, u, rfl, by simp [ht, hfront], hk⟩
      · exact ⟨[], l, ls, s, rfl, rfl, hl⟩

/-- A run of steps that meet `Q` and cost more than the potential has a step that does not meet
`P`. -/
theorem exists_of_cost {Q P : Label → State → Prop} {I : State → Prop} {Φ : State → Nat}
    (hkept : ∀ l s s', I s → step l s = some s' → I s')
    (hpays : ∀ l s s', I s → Q l s ∧ P l s → step l s = some s' → price l s + Φ s' ≤ Φ s)
    {ls : List Label} {s s' : State} (hs : I s) (hQ : Along step Q ls s)
    (hrun : exec step ls s = some s') (hdear : Φ s < cost step price ls s) :
    ∃ front l rest t, ls = front ++ l :: rest ∧ exec step front s = some t ∧ ¬ P l t := by
  refine exists_of_not_along hQ fun hboth => ?_
  have hle := cost_le_of_potential hkept hpays hs hboth hrun
  omega

end Run
