import Mathlib.Tactic

/-!
# First-fit search loops

The loop `for (i = lo; i < lo + left; i++) if (hit(i)) return found(i); return missing;`
as it appears in allocators and table look-ups.
-/

namespace Search

variable {α : Type*}

/-- The loop from index `i` on, with `left` indices to go. -/
def search (hit : Nat → Bool) (found : Nat → α) (missing : α) : (left i : Nat) → α
  | 0, _ => missing
  | left + 1, i => if hit i then found i else search hit found missing left (i + 1)

/-- The loop answers for the lowest hit of the range, or reports that there is none. -/
theorem search_cases (hit : Nat → Bool) (found : Nat → α) (missing : α) (left i : Nat) :
    (∃ j, i ≤ j ∧ j < i + left ∧ hit j = true ∧ (∀ m, i ≤ m → m < j → hit m = false) ∧
      search hit found missing left i = found j) ∨
    ((∀ m, i ≤ m → m < i + left → hit m = false) ∧
      search hit found missing left i = missing) := by
  induction left generalizing i with
  | zero =>
      refine Or.inr ⟨fun m hlo hhi => ?_, rfl⟩
      omega
  | succ left ih =>
      cases hhit : hit i with
      | true =>
          refine Or.inl ⟨i, le_rfl, by omega, hhit, fun m hlo hhi => ?_, ?_⟩
          · omega
          · simp [search, hhit]
      | false =>
          have hnext : search hit found missing (left + 1) i =
              search hit found missing left (i + 1) := by
            simp [search, hhit]
          -- an index of the longer range is `i` itself or lies in the shorter one
          have hsplit : ∀ m, i ≤ m → m ≠ i → i + 1 ≤ m := fun m hlo hne => by omega
          rw [hnext]
          rcases ih (i + 1) with ⟨j, hlo, hhi, hj, hmin, heq⟩ | ⟨hall, heq⟩
          · refine Or.inl ⟨j, by omega, by omega, hj, fun m hm hmj => ?_, heq⟩
            by_cases hmi : m = i
            · rw [hmi, hhit]
            · exact hmin m (hsplit m hm hmi) hmj
          · refine Or.inr ⟨fun m hm hmj => ?_, heq⟩
            by_cases hmi : m = i
            · rw [hmi, hhit]
            · exact hall m (hsplit m hm hmi) (by omega)

/-- A search from the beginning for the first index with `P`. -/
theorem search_zero_cases (P : Nat → Prop) [DecidablePred P] (found : Nat → α) (missing : α)
    (n : Nat) :
    (∃ j, j < n ∧ P j ∧ (∀ m, m < j → ¬ P m) ∧
      search (fun i => P i) found missing n 0 = found j) ∨
    ((∀ m, m < n → ¬ P m) ∧ search (fun i => P i) found missing n 0 = missing) := by
  rcases search_cases (fun i => decide (P i)) found missing n 0 with
    ⟨j, -, hhi, hj, hmin, heq⟩ | ⟨hall, heq⟩
  · refine Or.inl ⟨j, by omega, of_decide_eq_true hj, fun m hm => ?_, heq⟩
    exact of_decide_eq_false (hmin m (Nat.zero_le m) hm)
  · refine Or.inr ⟨fun m hm => ?_, heq⟩
    exact of_decide_eq_false (hall m (Nat.zero_le m) (by omega))

end Search
