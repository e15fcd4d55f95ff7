import Mathlib.Tactic

/-!
# Radix trees in a heap of tables

A radix tree is a heap of tables of entries.  A key selects one entry of a table at
each level, and an entry may name the table of the next level.  The tables lie in one
flat heap, so a store to one cell could change the lookup of any key; it does not as
long as no table is reached along two different paths.  This file states that
condition (`Separated`) and says what the three edits of a lazily built tree do to
every lookup: storing an entry that names no table, clearing a table that no lookup
reaches, and storing an entry that names such a cleared table.
-/

namespace RadixTree

/-- A heap of tables `B` with entries `E` at indices `I`, read with keys `K`. -/
structure Tree (B I E K : Type*) where
  /-- The index that a key selects at a level. -/
  idx : Nat → K → I
  /-- The table that an entry of a level names, if it names one. -/
  child : Nat → E → Option B
  root : B
  cells : B → I → E

namespace Tree

variable {B I E K : Type*} (t : Tree B I E K)

/-- The table of level `k` on the path of `x`. -/
def walk : Nat → K → Option B
  | 0, _ => some t.root
  | k + 1, x => (walk k x).bind fun b => t.child k (t.cells b (t.idx k x))

/-- The entry of level `k` on the path of `x`. -/
def entry (k : Nat) (x : K) : Option E := (t.walk k x).map fun b => t.cells b (t.idx k x)

/-- `x` and `y` select the same entries above level `k`. -/
def SamePath (k : Nat) (x y : K) : Prop := ∀ j < k, t.idx j x = t.idx j y

/-- Each table is reached at one level and along one path only. -/
def Separated : Prop :=
  ∀ ⦃k k' x x' b⦄, t.walk k x = some b → t.walk k' x' = some b → k = k' ∧ t.SamePath k x x'

variable {t} {k j : Nat} {x y : K}

theorem walk_succ : t.walk (k + 1) x = (t.entry k x).bind (t.child k) := by
  unfold entry
  cases h : t.walk k x <;> simp [walk, h]

theorem entry_of_walk {b : B} (h : t.walk k x = some b) :
    t.entry k x = some (t.cells b (t.idx k x)) := by
  simp [entry, h]

theorem SamePath.symm (h : t.SamePath k x y) : t.SamePath k y x :=
  fun j hj => (h j hj).symm

theorem SamePath.trans {z : K} (h : t.SamePath k x y) (h' : t.SamePath k y z) :
    t.SamePath k x z :=
  fun j hj => (h j hj).trans (h' j hj)

theorem SamePath.mono (h : t.SamePath k x y) (hjk : j ≤ k) : t.SamePath j x y :=
  fun i hi => h i (Nat.lt_of_lt_of_le hi hjk)

theorem SamePath.succ (h : t.SamePath k x y) (hk : t.idx k x = t.idx k y) :
    t.SamePath (k + 1) x y := by
  intro j hj
  rcases Nat.lt_succ_iff_lt_or_eq.mp hj with hlt | rfl
  · exact h j hlt
  · exact hk

/-- Keys on one path reach the same table. -/
theorem walk_congr (h : t.SamePath k x y) : t.walk k x = t.walk k y := by
  induction k with
  | zero => rfl
  | succ k ih =>
      simp only [walk, ih (h.mono (Nat.le_succ k)), h k (Nat.lt_succ_self k)]

theorem entry_congr (h : t.SamePath (k + 1) x y) : t.entry k x = t.entry k y := by
  simp only [entry, walk_congr (h.mono (Nat.le_succ k)), h k (Nat.lt_succ_self k)]

/-- A path that ends stays ended. -/
theorem walk_eq_none_of_le (h : t.walk k x = none) (hkj : k ≤ j) : t.walk j x = none := by
  induction j, hkj using Nat.le_induction with
  | base => exact h
  | succ j _ ih => simp [walk, ih]

theorem entry_eq_none_of_le (h : t.walk k x = none) (hkj : k ≤ j) : t.entry j x = none := by
  simp [entry, walk_eq_none_of_le h hkj]

/-- Two heaps that agree on the entries above level `k` along the path of `x` give the
same table of level `k`. -/
theorem walk_eq_of_cells {u : Tree B I E K} (hidx : u.idx = t.idx) (hchild : u.child = t.child)
    (hroot : u.root = t.root)
    (h : ∀ i < k, ∀ b, t.walk i x = some b → u.cells b (t.idx i x) = t.cells b (t.idx i x)) :
    u.walk k x = t.walk k x := by
  induction k with
  | zero => simp [walk, hroot]
  | succ k ih =>
      have hk := ih fun i hi => h i (Nat.lt_succ_of_lt hi)
      cases hw : t.walk k x with
      | none => simp [walk, hk, hw]
      | some b =>
          simp [walk, hk, hw, hidx, hchild, h k (Nat.lt_succ_self k) b hw]

/-! ### One cell -/

section Set

variable [DecidableEq B] [DecidableEq I]

/-- Store `v` in the cell `i` of the table `b`. -/
def set (t : Tree B I E K) (b : B) (i : I) (v : E) : Tree B I E K :=
  { t with cells := fun b' i' => if b' = b ∧ i' = i then v else t.cells b' i' }

variable {a : K} {b : B} {v : E}

@[simp] theorem set_idx (b : B) (i : I) (v : E) : (t.set b i v).idx = t.idx := rfl

@[simp] theorem set_cells (b : B) (i : I) (v : E) (b' : B) (i' : I) :
    (t.set b i v).cells b' i' = if b' = b ∧ i' = i then v else t.cells b' i' := rfl

/-- A store to the entry of level `k` on the path of `a` leaves alone every table that
is not reached through that entry. -/
theorem walk_set_of_off (hsep : t.Separated) (hb : t.walk k a = some b)
    (h : ¬ (k < j ∧ t.SamePath (k + 1) a x)) :
    (t.set b (t.idx k a) v).walk j x = t.walk j x := by
  refine walk_eq_of_cells (t := t) rfl rfl rfl ?_
  intro i hi b' hb'
  -- The cell that is read at level `i` is the stored one only below the entry.
  have hne : ¬ (b' = b ∧ t.idx i x = t.idx k a) := by
    rintro ⟨rfl, hidx⟩
    obtain ⟨rfl, hpath⟩ := hsep hb hb'
    exact h ⟨hi, hpath.succ hidx.symm⟩
  rw [set_cells, if_neg hne]

theorem entry_set_of_off (hsep : t.Separated) (hb : t.walk k a = some b)
    (h : ¬ (k ≤ j ∧ t.SamePath (k + 1) a x)) :
    (t.set b (t.idx k a) v).entry j x = t.entry j x := by
  have hwalk : (t.set b (t.idx k a) v).walk j x = t.walk j x :=
    walk_set_of_off hsep hb fun hj => h ⟨hj.1.le, hj.2⟩
  unfold entry
  rw [hwalk]
  cases hw : t.walk j x with
  | none => rfl
  | some b' =>
      have hne : ¬ (b' = b ∧ t.idx j x = t.idx k a) := by
        rintro ⟨rfl, hidx⟩
        obtain ⟨rfl, hpath⟩ := hsep hb hw
        exact h ⟨le_rfl, hpath.succ hidx.symm⟩
      simp only [Option.map_some, set_idx, set_cells, if_neg hne]

/-- The stored entry is the one that its keys read. -/
theorem entry_set_self (hsep : t.Separated) (hb : t.walk k a = some b)
    (h : t.SamePath (k + 1) a x) : (t.set b (t.idx k a) v).entry k x = some v := by
  have hwalk : (t.set b (t.idx k a) v).walk k x = t.walk k x :=
    walk_set_of_off hsep hb fun hk => Nat.lt_irrefl k hk.1
  have hx : (t.set b (t.idx k a) v).walk k x = some b := by
    rw [hwalk, ← walk_congr (h.mono (Nat.le_succ k)), hb]
  rw [entry_of_walk hx, set_cells, set_idx, if_pos ⟨rfl, (h k (Nat.lt_succ_self k)).symm⟩]

/-! An entry that names no table cuts off everything below it. -/

theorem walk_set_below (hsep : t.Separated) (hb : t.walk k a = some b)
    (hv : t.child k v = none) (hkj : k < j) (h : t.SamePath (k + 1) a x) :
    (t.set b (t.idx k a) v).walk j x = none := by
  refine walk_eq_none_of_le (k := k + 1) ?_ hkj
  rw [walk_succ, entry_set_self hsep hb h, Option.bind_some]
  exact hv

theorem entry_set_below (hsep : t.Separated) (hb : t.walk k a = some b)
    (hv : t.child k v = none) (hkj : k < j) (h : t.SamePath (k + 1) a x) :
    (t.set b (t.idx k a) v).entry j x = none := by
  simp [entry, walk_set_below hsep hb hv hkj h]

theorem walk_of_walk_set (hsep : t.Separated) (hb : t.walk k a = some b)
    (hv : t.child k v = none) {c : B} (hc : (t.set b (t.idx k a) v).walk j x = some c) :
    t.walk j x = some c := by
  by_cases h : k < j ∧ t.SamePath (k + 1) a x
  · rw [walk_set_below hsep hb hv h.1 h.2] at hc
    cases hc
  · rwa [walk_set_of_off hsep hb h] at hc

/-- Every entry read afterwards was read before, or is the stored one. -/
theorem entry_set_cases (hsep : t.Separated) (hb : t.walk k a = some b)
    (hv : t.child k v = none) {e : E} (he : (t.set b (t.idx k a) v).entry j x = some e) :
    t.entry j x = some e ∨ j = k ∧ e = v := by
  by_cases h : k ≤ j ∧ t.SamePath (k + 1) a x
  · rcases Nat.eq_or_lt_of_le h.1 with rfl | hlt
    · rw [entry_set_self hsep hb h.2] at he
      exact Or.inr ⟨rfl, (Option.some.inj he).symm⟩
    · rw [entry_set_below hsep hb hv hlt h.2] at he
      cases he
  · rw [entry_set_of_off hsep hb h] at he
    exact Or.inl he

theorem Separated.set (hsep : t.Separated) (hb : t.walk k a = some b)
    (hv : t.child k v = none) : (t.set b (t.idx k a) v).Separated :=
  fun _ _ _ _ _ h h' => hsep (walk_of_walk_set hsep hb hv h) (walk_of_walk_set hsep hb hv h')

end Set

/-! ### A new table -/

section Clear

variable [DecidableEq B] {p : B} {z : E}

/-- Fill the table `p` with `z`. -/
def clear (t : Tree B I E K) (p : B) (z : E) : Tree B I E K :=
  { t with cells := fun b i => if b = p then z else t.cells b i }

@[simp] theorem clear_idx (p : B) (z : E) : (t.clear p z).idx = t.idx := rfl

@[simp] theorem clear_cells (p : B) (z : E) (b : B) (i : I) :
    (t.clear p z).cells b i = if b = p then z else t.cells b i := rfl

/-- Clearing a table that no path reaches changes no path. -/
theorem walk_clear (hp : ∀ i y, t.walk i y ≠ some p) : (t.clear p z).walk k x = t.walk k x := by
  refine walk_eq_of_cells (t := t) rfl rfl rfl ?_
  intro i _ b hb
  have hne : b ≠ p := by
    rintro rfl
    exact hp i x hb
  rw [clear_cells, if_neg hne]

theorem entry_clear (hp : ∀ i y, t.walk i y ≠ some p) : (t.clear p z).entry k x = t.entry k x := by
  unfold entry
  rw [walk_clear hp]
  cases hw : t.walk k x with
  | none => rfl
  | some b =>
      have hne : b ≠ p := by
        rintro rfl
        exact hp k x hw
      simp only [Option.map_some, clear_idx, clear_cells, if_neg hne]

theorem Separated.clear (hsep : t.Separated) (hp : ∀ i y, t.walk i y ≠ some p) :
    (t.clear p z).Separated := by
  intro k k' x x' b h h'
  rw [walk_clear hp] at h h'
  exact hsep h h'

end Clear

section Install

variable [DecidableEq B] [DecidableEq I] {a : K} {b p : B} {v z : E}

/-- Clear the table `p` and name it in the entry of level `k` on the path of `a`. -/
def install (t : Tree B I E K) (b : B) (i : I) (v : E) (p : B) (z : E) : Tree B I E K :=
  (t.clear p z).set b i v

@[simp] theorem install_child (b : B) (i : I) (v : E) (p : B) (z : E) :
    (t.install b i v p z).child = t.child := rfl

theorem walk_install_of_off (hsep : t.Separated) (hb : t.walk k a = some b)
    (hp : ∀ i y, t.walk i y ≠ some p) (h : ¬ (k < j ∧ t.SamePath (k + 1) a x)) :
    (t.install b (t.idx k a) v p z).walk j x = t.walk j x := by
  have hb' : (t.clear p z).walk k a = some b := by rw [walk_clear hp, hb]
  rw [install, ← clear_idx p z, walk_set_of_off (hsep.clear hp) hb' h, walk_clear hp]

theorem entry_install_of_off (hsep : t.Separated) (hb : t.walk k a = some b)
    (hp : ∀ i y, t.walk i y ≠ some p) (h : ¬ (k ≤ j ∧ t.SamePath (k + 1) a x)) :
    (t.install b (t.idx k a) v p z).entry j x = t.entry j x := by
  have hb' : (t.clear p z).walk k a = some b := by rw [walk_clear hp, hb]
  rw [install, ← clear_idx p z, entry_set_of_off (hsep.clear hp) hb' h, entry_clear hp]

theorem entry_install_self (hsep : t.Separated) (hb : t.walk k a = some b)
    (hp : ∀ i y, t.walk i y ≠ some p) (h : t.SamePath (k + 1) a x) :
    (t.install b (t.idx k a) v p z).entry k x = some v := by
  have hb' : (t.clear p z).walk k a = some b := by rw [walk_clear hp, hb]
  rw [install, ← clear_idx p z, entry_set_self (hsep.clear hp) hb' h]

/-- The keys of the stored entry reach the new table. -/
theorem walk_install_next (hsep : t.Separated) (hb : t.walk k a = some b)
    (hp : ∀ i y, t.walk i y ≠ some p) (hv : t.child k v = some p)
    (h : t.SamePath (k + 1) a x) :
    (t.install b (t.idx k a) v p z).walk (k + 1) x = some p := by
  rw [walk_succ, entry_install_self hsep hb hp h, Option.bind_some, install_child, hv]

theorem entry_install_next (hsep : t.Separated) (hb : t.walk k a = some b)
    (hp : ∀ i y, t.walk i y ≠ some p) (hv : t.child k v = some p)
    (h : t.SamePath (k + 1) a x) :
    (t.install b (t.idx k a) v p z).entry (k + 1) x = some z := by
  have hne : p ≠ b := by
    rintro rfl
    exact hp k a hb
  rw [entry_of_walk (walk_install_next hsep hb hp hv h)]
  rw [install, set_cells, if_neg fun h' => hne h'.1, clear_cells, if_pos rfl]

/-- The new table is empty: nothing lies below it. -/
theorem walk_install_below (hsep : t.Separated) (hb : t.walk k a = some b)
    (hp : ∀ i y, t.walk i y ≠ some p) (hv : t.child k v = some p) (hz : ∀ i, t.child i z = none)
    (hkj : k + 1 < j) (h : t.SamePath (k + 1) a x) :
    (t.install b (t.idx k a) v p z).walk j x = none := by
  refine walk_eq_none_of_le (k := k + 2) ?_ hkj
  rw [walk_succ, entry_install_next hsep hb hp hv h, Option.bind_some, install_child, hz]

theorem entry_install_below (hsep : t.Separated) (hb : t.walk k a = some b)
    (hp : ∀ i y, t.walk i y ≠ some p) (hv : t.child k v = some p) (hz : ∀ i, t.child i z = none)
    (hkj : k + 1 < j) (h : t.SamePath (k + 1) a x) :
    (t.install b (t.idx k a) v p z).entry j x = none := by
  simp [entry, walk_install_below hsep hb hp hv hz hkj h]

/-- Every table reached afterwards was reached before, or is the new one, reached
through the stored entry. -/
theorem walk_of_walk_install (hsep : t.Separated) (hb : t.walk k a = some b)
    (hp : ∀ i y, t.walk i y ≠ some p) (hv : t.child k v = some p) (hz : ∀ i, t.child i z = none)
    {c : B} (hc : (t.install b (t.idx k a) v p z).walk j x = some c) :
    t.walk j x = some c ∨ c = p ∧ j = k + 1 ∧ t.SamePath (k + 1) a x := by
  by_cases h : k < j ∧ t.SamePath (k + 1) a x
  · rcases Nat.eq_or_lt_of_le (Nat.succ_le_of_lt h.1) with rfl | hlt
    · rw [walk_install_next hsep hb hp hv h.2] at hc
      exact Or.inr ⟨(Option.some.inj hc).symm, rfl, h.2⟩
    · rw [walk_install_below hsep hb hp hv hz hlt h.2] at hc
      cases hc
  · rw [walk_install_of_off hsep hb hp h] at hc
    exact Or.inl hc

/-- Every entry read afterwards was read before on another path, is the stored one, or
lies in the new table. -/
theorem entry_install_cases (hsep : t.Separated) (hb : t.walk k a = some b)
    (hp : ∀ i y, t.walk i y ≠ some p) (hv : t.child k v = some p) (hz : ∀ i, t.child i z = none)
    {e : E} (he : (t.install b (t.idx k a) v p z).entry j x = some e) :
    t.entry j x = some e ∧ ¬ (k ≤ j ∧ t.SamePath (k + 1) a x) ∨
      j = k ∧ e = v ∨ j = k + 1 ∧ e = z := by
  by_cases h : k ≤ j ∧ t.SamePath (k + 1) a x
  · right
    rcases Nat.eq_or_lt_of_le h.1 with rfl | hlt
    · rw [entry_install_self hsep hb hp h.2] at he
      exact Or.inl ⟨rfl, (Option.some.inj he).symm⟩
    · rcases Nat.eq_or_lt_of_le (Nat.succ_le_of_lt hlt) with rfl | hlt'
      · rw [entry_install_next hsep hb hp hv h.2] at he
        exact Or.inr ⟨rfl, (Option.some.inj he).symm⟩
      · rw [entry_install_below hsep hb hp hv hz hlt' h.2] at he
        cases he
  · rw [entry_install_of_off hsep hb hp h] at he
    exact Or.inl ⟨he, h⟩

theorem Separated.install (hsep : t.Separated) (hb : t.walk k a = some b)
    (hp : ∀ i y, t.walk i y ≠ some p) (hv : t.child k v = some p)
    (hz : ∀ i, t.child i z = none) : (t.install b (t.idx k a) v p z).Separated := by
  intro j j' x x' c h h'
  rcases walk_of_walk_install hsep hb hp hv hz h with hold | ⟨rfl, rfl, hpath⟩
  · rcases walk_of_walk_install hsep hb hp hv hz h' with hold' | ⟨rfl, _, _⟩
    · exact hsep hold hold'
    · exact absurd hold (hp j x)
  · rcases walk_of_walk_install hsep hb hp hv hz h' with hold' | ⟨_, rfl, hpath'⟩
    · exact absurd hold' (hp j' x')
    · exact ⟨rfl, hpath.symm.trans hpath'⟩

end Install

end Tree

end RadixTree
