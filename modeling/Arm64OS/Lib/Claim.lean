import Mathlib.Tactic

/-!
# Entries of a table, claimed by two parties

Two parties share a table.  Each of them looks for an empty entry and fills the one that it
has found in a later step.  `Shared` says that they have different entries; it is kept as
long as neither finds an entry that the other has found and not filled yet.
-/

namespace Claim

variable {α : Type*}

/-- What a party has of the table. -/
inductive Hold (α : Type*)
  | none
  /-- an entry that it has found empty -/
  | found (i : Nat)
  /-- an entry that it has put `v` into -/
  | filled (i : Nat) (v : α)
  deriving DecidableEq

def Hold.entry : Hold α → Option Nat
  | .none => Option.none
  | .found i => some i
  | .filled i _ => some i

/-- The table holds what the party believes. -/
def Hold.Backed (empty : α) (t : Nat → α) : Hold α → Prop
  | .none => True
  | .found i => t i = empty
  | .filled i v => t i = v ∧ v ≠ empty

structure Shared (empty : α) (t : Nat → α) (a b : Hold α) : Prop where
  left : a.Backed empty t
  right : b.Backed empty t
  apart : ∀ i, a.entry = some i → b.entry ≠ some i

variable {empty : α} {t : Nat → α} {a b : Hold α} {i : Nat} {v : α}

theorem Shared.symm (h : Shared empty t a b) : Shared empty t b a where
  left := h.right
  right := h.left
  apart := fun i hb ha => h.apart i ha hb

/-- A change of an entry that a party does not have. -/
theorem Hold.Backed.update (h : a.Backed empty t) (ha : a.entry ≠ some i) (w : α) :
    a.Backed empty (Function.update t i w) := by
  cases a with
  | none => trivial
  | found j =>
      have hj : j ≠ i := fun he => ha (congrArg some he)
      exact (Function.update_of_ne hj ..).trans h
  | filled j u =>
      have hj : j ≠ i := fun he => ha (congrArg some he)
      exact ⟨(Function.update_of_ne hj ..).trans h.1, h.2⟩

/-- An entry is found empty that the other party has not found as well. -/
theorem Shared.find (h : Shared empty t a b) (hi : t i = empty) (hb : b ≠ .found i) :
    Shared empty t (.found i) b where
  left := hi
  right := h.right
  apart := by
    rintro j hj hentry
    obtain rfl : i = j := Option.some.inj hj
    cases b with
    | none => simp [Hold.entry] at hentry
    | found k => exact hb (congrArg Hold.found (Option.some.inj hentry))
    | filled k u =>
        obtain rfl : k = i := Option.some.inj hentry
        exact h.right.2 (h.right.1.symm.trans hi)

theorem Shared.fill (h : Shared empty t (.found i) b) (hv : v ≠ empty) :
    Shared empty (Function.update t i v) (.filled i v) b where
  left := ⟨Function.update_self .., hv⟩
  right := h.right.update (h.apart i rfl) v
  apart := h.apart

/-- What a party has found or filled it may forget. -/
theorem Shared.forget (h : Shared empty t a b) : Shared empty t .none b where
  left := trivial
  right := h.right
  apart := by simp [Hold.entry]

/-- A filled entry is given back. -/
theorem Shared.giveBack (h : Shared empty t (.filled i v) b) :
    Shared empty (Function.update t i empty) .none b where
  left := trivial
  right := h.right.update (h.apart i rfl) empty
  apart := by simp [Hold.entry]

end Claim
