import Arm64OS.Lib.Run

/-!
# A machine inside another one

A machine is looked at through `f`, which forgets something of its states.  If each of its
steps is a run of a second machine there, then so are its runs, and it gets stuck exactly where
the second machine does.
-/

namespace Run

variable {State Label State' Label' : Type*}

/-- What label `l` does to a state, `g l` does to what `f` leaves of it, where `I` holds. -/
structure Simulates (step : Label → State → Option State) (step' : Label' → State' → Option State')
    (f : State → State') (g : Label → List Label') (I : State → Prop) : Prop where
  kept : ∀ l s s', I s → step l s = some s' → I s'
  step : ∀ l s, I s → (step l s).map f = exec step' (g l) (f s)

variable {step : Label → State → Option State} {step' : Label' → State' → Option State'}
  {f : State → State'} {g : Label → List Label'} {I : State → Prop} {s : State}

theorem exec_singleton (l : Label) (s : State) : exec step [l] s = step l s :=
  Option.bind_fun_some (step l s)

/-- Runs are simulated by runs. -/
theorem Simulates.exec_map (h : Simulates step step' f g I) (ls : List Label) (hs : I s) :
    (exec step ls s).map f = exec step' (ls.flatMap g) (f s) := by
  induction ls generalizing s with
  | nil => rfl
  | cons l ls ih =>
      have hstep := h.step l s hs
      rw [List.flatMap_cons, exec_append, ← hstep]
      cases hl : step l s with
      | none => simp [hl]
      | some t =>
          have hrest := ih (h.kept l s t hs hl)
          simpa [hl] using hrest

end Run
