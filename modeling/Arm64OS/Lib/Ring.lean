import Mathlib.Tactic

/-!
# Circular doubly linked lists

A ring is read off two pointer maps `next` and `prev` over an arbitrary node type.
`Path f a xs b` says that following `f` from `a` visits exactly `xs` and then
arrives at `b`; `IsRing next prev head xs` that `next` leads from `head` once around
through `xs` and that `prev` undoes `next` on every node of the ring.

The three edits of an intrusive list are `IsRing.insert`, `IsRing.insert_last` and
`IsRing.remove`; `IsRing.congr` is the frame rule.  `walk` is the traversal loop.
-/

namespace Ring

variable {Node : Type*}

/-- Following `f` from `a` visits `xs` in order and then arrives at `b`. -/
def Path (f : Node → Node) : Node → List Node → Node → Prop
  | a, [], b => f a = b
  | a, x :: xs, b => f a = x ∧ Path f x xs b

@[simp] theorem path_nil {f : Node → Node} {a b : Node} : Path f a [] b ↔ f a = b := Iff.rfl

@[simp] theorem path_cons {f : Node → Node} {a b x : Node} {xs : List Node} :
    Path f a (x :: xs) b ↔ f a = x ∧ Path f x xs b := Iff.rfl

theorem path_append {f : Node → Node} {a b x : Node} {l r : List Node} :
    Path f a (l ++ x :: r) b ↔ Path f a l x ∧ Path f x r b := by
  induction l generalizing a with
  | nil => simp
  | cons y l ih => simp [ih, and_assoc]

/-- A path reads only the pointers of its start and of the nodes it visits. -/
theorem Path.congr {f g : Node → Node} {a b : Node} {xs : List Node} (h : Path f a xs b)
    (hfg : ∀ n ∈ a :: xs, g n = f n) : Path g a xs b := by
  induction xs generalizing a with
  | nil => exact (hfg a (by simp)).trans h
  | cons x xs ih =>
      exact ⟨(hfg a (by simp)).trans h.1, ih h.2 fun n hn => hfg n (List.mem_cons_of_mem _ hn)⟩

/-- Every pointer of a path leads to a later node of it, or to its end. -/
theorem Path.apply_mem {f : Node → Node} {a b n : Node} {xs : List Node} (h : Path f a xs b)
    (hn : n ∈ a :: xs) : f n ∈ xs ++ [b] := by
  induction xs generalizing a with
  | nil =>
      obtain rfl : n = a := by simpa using hn
      simpa using h
  | cons x xs ih =>
      rcases List.mem_cons.1 hn with rfl | hn
      · rw [h.1]
        simp
      · exact List.mem_cons_of_mem _ (ih h.2 hn)

/-- A path that stops at its first visit of `b` is determined by its start. -/
theorem Path.unique {f : Node → Node} {a b : Node} {xs ys : List Node} (hx : Path f a xs b)
    (hy : Path f a ys b) (hbx : b ∉ xs) (hby : b ∉ ys) : xs = ys := by
  induction xs generalizing a ys with
  | nil =>
      cases ys with
      | nil => rfl
      | cons y ys => exact absurd (hx.symm.trans hy.1) (fun h => hby (by simp [h]))
  | cons x xs ih =>
      cases ys with
      | nil => exact absurd (hy.symm.trans hx.1) (fun h => hbx (by simp [h]))
      | cons y ys =>
          obtain rfl : x = y := hx.1.symm.trans hy.1
          rw [ih hx.2 hy.2 (fun h => hbx (by simp [h])) (fun h => hby (by simp [h]))]

/-- The nodes `a -> x -> …`: detour through a new node `x` right after `a`. -/
theorem Path.insert {f g : Node → Node} {a b x : Node} {r : List Node} (h : Path f a r b)
    (ha : g a = x) (hx : g x = f a) (hr : ∀ n ∈ r, g n = f n) : Path g a (x :: r) b := by
  refine ⟨ha, ?_⟩
  cases r with
  | nil => exact hx.trans h
  | cons y r => exact ⟨hx.trans h.1, h.2.congr hr⟩

/-- The opposite edit: skip the node right after `a`. -/
theorem Path.skip {f g : Node → Node} {a b x : Node} {r : List Node} (h : Path f a (x :: r) b)
    (ha : g a = f x) (hr : ∀ n ∈ r, g n = f n) : Path g a r b := by
  cases r with
  | nil => exact ha.trans h.2
  | cons y r => exact ⟨ha.trans h.2.1, h.2.2.congr hr⟩

/-- `next` leads from `head` once around through `xs`, and `prev` undoes it. -/
structure IsRing (next prev : Node → Node) (head : Node) (xs : List Node) : Prop where
  path : Path next head xs head
  back : ∀ n ∈ head :: xs, prev (next n) = n
  nodup : (head :: xs).Nodup

variable {next prev next' prev' : Node → Node} {head : Node} {xs : List Node}

theorem IsRing.next_mem (h : IsRing next prev head xs) {n : Node} (hn : n ∈ head :: xs) :
    next n ∈ head :: xs := by
  have := h.path.apply_mem hn
  simpa [or_comm] using this

/-- On a ring `next` is injective. -/
theorem IsRing.next_inj (h : IsRing next prev head xs) {m n : Node} (hm : m ∈ head :: xs)
    (hn : n ∈ head :: xs) (he : next m = next n) : m = n := by
  rw [← h.back m hm, he, h.back n hn]

/-- Every node of a ring has a predecessor. -/
theorem IsRing.exists_next_eq (h : IsRing next prev head xs) {n : Node} (hn : n ∈ head :: xs) :
    ∃ m ∈ head :: xs, next m = n := by
  have hpath := h.path
  rcases List.mem_cons.1 hn with rfl | hn
  · rcases List.eq_nil_or_concat xs with rfl | ⟨l, y, rfl⟩
    · exact ⟨n, by simp, hpath⟩
    · rw [List.concat_eq_append, path_append] at hpath
      exact ⟨y, by simp, hpath.2⟩
  · obtain ⟨l, r, rfl⟩ := List.append_of_mem hn
    rw [path_append] at hpath
    rcases List.eq_nil_or_concat l with rfl | ⟨l, y, rfl⟩
    · exact ⟨head, by simp, hpath.1⟩
    · rw [List.concat_eq_append, path_append] at hpath
      exact ⟨y, by simp, hpath.1.2⟩

/-- `next` and `prev` are mutually inverse on a ring. -/
theorem IsRing.next_prev (h : IsRing next prev head xs) {n : Node} (hn : n ∈ head :: xs) :
    next (prev n) = n ∧ prev n ∈ head :: xs := by
  obtain ⟨m, hm, rfl⟩ := h.exists_next_eq hn
  rw [h.back m hm]
  exact ⟨rfl, hm⟩

/-- The frame rule: a ring survives any change of pointers outside its nodes. -/
theorem IsRing.congr (h : IsRing next prev head xs)
    (hn : ∀ n ∈ head :: xs, next' n = next n) (hp : ∀ n ∈ head :: xs, prev' n = prev n) :
    IsRing next' prev' head xs where
  path := h.path.congr hn
  back := by
    intro n hmem
    rw [hn n hmem, hp _ (h.next_mem hmem), h.back n hmem]
  nodup := h.nodup

/-- The ring of a head that points to itself. -/
theorem isRing_nil (hn : next head = head) (hp : prev head = head) :
    IsRing next prev head [] where
  path := hn
  back := by simp [hn, hp]
  nodup := by simp

/-- Linking a new node `x` between a node `a` of the ring and its successor. -/
theorem IsRing.insert (h : IsRing next prev head xs) {a x : Node} {l r xs' : List Node}
    (hsplit : head :: xs = l ++ a :: r) (hsplit' : head :: xs' = l ++ a :: x :: r)
    (hx : x ∉ head :: xs) (hna : next' a = x) (hnx : next' x = next a)
    (hn : ∀ n ∈ head :: xs, n ≠ a → next' n = next n)
    (hpx : prev' x = a) (hpb : prev' (next a) = x)
    (hp : ∀ n ∈ head :: xs, n ≠ next a → prev' n = prev n) :
    IsRing next' prev' head xs' := by
  have hnodup := h.nodup
  have ha : a ∈ head :: xs := by rw [hsplit]; simp
  have hmem : ∀ n, n ∈ head :: xs' ↔ n = x ∨ n ∈ head :: xs := by
    intro n
    rw [hsplit', hsplit]
    simp
    tauto
  have hl : ∀ n ∈ l, next' n = next n := by
    intro n hnl
    refine hn n (by rw [hsplit]; simp [hnl]) ?_
    rintro rfl
    rw [hsplit] at hnodup
    exact (List.nodup_append.1 hnodup).2.2 n hnl n (by simp) rfl
  have hr : ∀ n ∈ r, next' n = next n := by
    intro n hnr
    refine hn n (by rw [hsplit]; simp [hnr]) ?_
    rintro rfl
    rw [hsplit] at hnodup
    exact (List.nodup_cons.1 (List.nodup_append.1 hnodup).2.1).1 hnr
  refine ⟨?_, ?_, ?_⟩
  · have hpath := h.path
    cases l with
    | nil =>
        obtain ⟨rfl, rfl⟩ : head = a ∧ xs = r := by simpa using hsplit
        obtain rfl : xs' = x :: xs := by simpa using hsplit'
        exact hpath.insert hna hnx hr
    | cons y l =>
        obtain ⟨rfl, rfl⟩ : head = y ∧ xs = l ++ a :: r := by simpa using hsplit
        obtain rfl : xs' = l ++ a :: x :: r := by simpa using hsplit'
        rw [path_append] at hpath ⊢
        exact ⟨hpath.1.congr hl, hpath.2.insert hna hnx hr⟩
  · intro n hmem'
    rcases (hmem n).1 hmem' with rfl | hold
    · rw [hnx, hpb]
    · by_cases hna' : n = a
      · rw [hna', hna, hpx]
      · have hne : next n ≠ next a := fun he => hna' (h.next_inj hold ha he)
        rw [hn n hold hna', hp _ (h.next_mem hold) hne, h.back n hold]
  · have hperm : (head :: xs').Perm (x :: head :: xs) := by
      rw [hsplit', hsplit]
      calc (l ++ a :: x :: r).Perm (l ++ x :: a :: r) := (List.Perm.swap x a r).append_left l
        _ |>.Perm (x :: (l ++ a :: r)) := List.perm_middle
    exact hperm.nodup_iff.2 (List.nodup_cons.2 ⟨hx, hnodup⟩)

/-- Linking a new node between the head and its successor. -/
theorem IsRing.insert_first (h : IsRing next prev head xs) {x : Node} (hx : x ∉ head :: xs)
    (hna : next' head = x) (hnx : next' x = next head)
    (hn : ∀ n ∈ head :: xs, n ≠ head → next' n = next n)
    (hpx : prev' x = head) (hpb : prev' (next head) = x)
    (hp : ∀ n ∈ head :: xs, n ≠ next head → prev' n = prev n) :
    IsRing next' prev' head (x :: xs) :=
  h.insert (l := []) (r := xs) rfl rfl hx hna hnx hn hpx hpb hp

/-- Linking a new node between the head's predecessor and the head. -/
theorem IsRing.insert_last (h : IsRing next prev head xs) {x : Node} (hx : x ∉ head :: xs)
    (hna : next' (prev head) = x) (hnx : next' x = head)
    (hn : ∀ n ∈ head :: xs, n ≠ prev head → next' n = next n)
    (hpx : prev' x = prev head) (hpb : prev' head = x)
    (hp : ∀ n ∈ head :: xs, n ≠ head → prev' n = prev n) :
    IsRing next' prev' head (xs ++ [x]) := by
  have hlast : next (prev head) = head := (h.next_prev (by simp)).1
  have hsplit : ∃ l, head :: xs = l ++ [prev head] := by
    have hpath := h.path
    rcases List.eq_nil_or_concat xs with rfl | ⟨l, y, rfl⟩
    · have hhead : prev (next head) = head := h.back head (by simp)
      rw [show next head = head from hpath] at hhead
      exact ⟨[], by simp [hhead]⟩
    · rw [List.concat_eq_append, path_append] at hpath
      have hy : prev (next y) = y := h.back y (by simp)
      rw [show next y = head from hpath.2] at hy
      exact ⟨head :: l, by simp [hy]⟩
  obtain ⟨l, hl⟩ := hsplit
  have hl' : head :: (xs ++ [x]) = l ++ [prev head, x] := by
    rw [← List.cons_append, hl]
    simp
  exact h.insert (r := []) hl hl' hx hna (hnx.trans hlast.symm) hn hpx
    (by rw [hlast]; exact hpb) (by rw [hlast]; exact hp)

/-- Unlinking a node `x` of the ring. -/
theorem IsRing.remove {x : Node} {l r : List Node} (h : IsRing next prev head (l ++ x :: r))
    (hn : next' (prev x) = next x)
    (hn' : ∀ n ∈ head :: (l ++ r), n ≠ prev x → next' n = next n)
    (hp : prev' (next x) = prev x)
    (hp' : ∀ n ∈ head :: (l ++ r), n ≠ next x → prev' n = prev n) :
    IsRing next' prev' head (l ++ r) := by
  have hnodup := h.nodup
  have hxmem : x ∈ head :: (l ++ x :: r) := by simp
  have hsub : ∀ n ∈ head :: (l ++ r), n ∈ head :: (l ++ x :: r) ∧ n ≠ x := by
    intro n hmem
    have hperm : (head :: (l ++ x :: r)).Perm (x :: head :: (l ++ r)) :=
      (List.perm_middle.cons head).trans (List.Perm.swap x head (l ++ r))
    have hnd := hperm.nodup_iff.1 hnodup
    refine ⟨hperm.mem_iff.2 (List.mem_cons_of_mem _ hmem), ?_⟩
    rintro rfl
    exact (List.nodup_cons.1 hnd).1 hmem
  refine ⟨?_, ?_, ?_⟩
  · have hpath := h.path
    have hr : ∀ n ∈ r, n ≠ prev x → next' n = next n := fun n hnr => hn' n (by simp [hnr])
    cases l using List.reverseRecOn with
    | nil =>
        have hhead : prev x = head := by
          rw [← hpath.1]
          exact h.back head (by simp)
        refine Path.skip hpath (by rw [← hhead]; exact hn) fun n hnr => hr n hnr ?_
        rw [hhead]
        rintro rfl
        exact (List.nodup_cons.1 hnodup).1 (by simpa using Or.inr hnr)
    | append_singleton l y =>
        rw [List.append_assoc, List.singleton_append, path_append] at hpath
        have hy : prev x = y := by
          rw [← hpath.2.1]
          exact h.back y (by simp)
        rw [List.append_assoc, List.singleton_append, path_append]
        have hdisj : ∀ n ∈ (head :: l) ++ r, n ≠ y := by
          rintro n hmem rfl
          simp only [List.append_assoc, List.singleton_append, List.nodup_cons, List.nodup_append,
            List.mem_append, List.mem_cons] at hnodup hmem
          grind
        refine ⟨hpath.1.congr fun n hmem => hn' n ?_ ?_, ?_⟩
        · rcases List.mem_cons.1 hmem with rfl | hmem
          · simp
          · simp [hmem]
        · rw [hy]
          exact hdisj n (List.mem_append_left _ hmem)
        · refine Path.skip hpath.2 (by rw [← hy]; exact hn) fun n hnr => hr n hnr ?_
          rw [hy]
          exact hdisj n (List.mem_append_right _ hnr)
  · intro n hmem
    obtain ⟨hold, hnx⟩ := hsub n hmem
    by_cases hpx : n = prev x
    · rw [hpx, hn, hp]
    · rw [hn' n hmem hpx]
      have hne : next n ≠ x := fun he => hpx (by rw [← he]; exact (h.back n hold).symm)
      have hne' : next n ≠ next x := fun he => hnx (h.next_inj hold hxmem he)
      have hin : next n ∈ head :: (l ++ r) := by
        have := h.next_mem hold
        simp only [List.mem_cons, List.mem_append] at this ⊢
        tauto
      rw [hp' _ hin hne', h.back n hold]
  · have hperm : (head :: (l ++ x :: r)).Perm (x :: head :: (l ++ r)) :=
      (List.perm_middle.cons head).trans (List.Perm.swap x head (l ++ r))
    exact (List.nodup_cons.1 (hperm.nodup_iff.1 hnodup)).2

/-! ## Traversal -/

variable [DecidableEq Node]

/-- The loop `for (pos = f(head); pos != head; pos = f(pos))` from position `pos`: the nodes
it visits, or `none` if it is still running after `fuel` of them. -/
def walk (f : Node → Node) (head : Node) : (fuel : Nat) → (pos : Node) → Option (List Node)
  | 0, pos => if pos = head then some [] else none
  | fuel + 1, pos =>
      if pos = head then some [] else (walk f head fuel (f pos)).map (pos :: ·)

/-- On a path around to the head the traversal visits the path and stops. -/
theorem Path.walk_eq {f : Node → Node} {a : Node} {fuel : Nat} (h : Path f a xs head)
    (hhead : head ∉ xs) (hfuel : xs.length ≤ fuel) : walk f head fuel (f a) = some xs := by
  induction xs generalizing a fuel with
  | nil => cases fuel <;> simp [walk, show f a = head from h]
  | cons x xs ih =>
      obtain ⟨fuel, rfl⟩ : ∃ n, fuel = n + 1 := ⟨fuel - 1, by simp at hfuel; omega⟩
      have hne : x ≠ head := fun he => hhead (by simp [he])
      rw [h.1, walk, if_neg hne,
        ih h.2 (fun hmem => hhead (by simp [hmem])) (by simpa using hfuel)]
      rfl

/-- A traversal that stops has followed a path around to the head. -/
theorem path_of_walk {f : Node → Node} {a : Node} {fuel : Nat}
    (h : walk f head fuel (f a) = some xs) : Path f a xs head ∧ head ∉ xs := by
  induction fuel generalizing a xs with
  | zero =>
      by_cases he : f a = head
      · obtain rfl : xs = [] := by simpa [walk, he] using h.symm
        exact ⟨he, by simp⟩
      · simp [walk, he] at h
  | succ fuel ih =>
      by_cases he : f a = head
      · obtain rfl : xs = [] := by simpa [walk, he] using h.symm
        exact ⟨he, by simp⟩
      · simp only [walk, he, if_false, Option.map_eq_some_iff] at h
        obtain ⟨ys, hys, rfl⟩ := h
        obtain ⟨hpath, hmem⟩ := ih hys
        exact ⟨⟨rfl, hpath⟩, by simp [hmem, Ne.symm he]⟩

end Ring
