import Arm64OS.Lib.Ring
import Arm64OS.Page

/-!
# `include/list.h`

Intrusive circular lists.  A heap maps the address of every `struct list_head` to its
two pointers; the inline functions are sequences of single stores, kept as lists of
stores so that the code between two of them can be looked at as well.
-/

namespace Arm64OS

open Ring

/-- `struct list_head`. -/
structure ListHead where
  next : U64
  prev : U64
  deriving DecidableEq

/-- The list heads of the kernel by address. -/
abbrev ListHeap := U64 → ListHead

def ListHeap.nextOf (h : ListHeap) (n : U64) : U64 := (h n).next

def ListHeap.prevOf (h : ListHeap) (n : U64) : U64 := (h n).prev

def setNext (n v : U64) (h : ListHeap) : ListHeap := Function.update h n { h n with next := v }

def setPrev (n v : U64) (h : ListHeap) : ListHeap := Function.update h n { h n with prev := v }

@[simp] theorem nextOf_setNext (n v m : U64) (h : ListHeap) :
    ListHeap.nextOf (setNext n v h) m = if m = n then v else h.nextOf m := by
  by_cases hm : m = n
  · subst hm
    simp [ListHeap.nextOf, setNext]
  · simp [ListHeap.nextOf, setNext, hm]

@[simp] theorem nextOf_setPrev (n v m : U64) (h : ListHeap) :
    ListHeap.nextOf (setPrev n v h) m = h.nextOf m := by
  by_cases hm : m = n
  · subst hm
    simp [ListHeap.nextOf, setPrev]
  · simp [ListHeap.nextOf, setPrev, hm]

@[simp] theorem prevOf_setPrev (n v m : U64) (h : ListHeap) :
    ListHeap.prevOf (setPrev n v h) m = if m = n then v else h.prevOf m := by
  by_cases hm : m = n
  · subst hm
    simp [ListHeap.prevOf, setPrev]
  · simp [ListHeap.prevOf, setPrev, hm]

@[simp] theorem prevOf_setNext (n v m : U64) (h : ListHeap) :
    ListHeap.prevOf (setNext n v h) m = h.prevOf m := by
  by_cases hm : m = n
  · subst hm
    simp [ListHeap.prevOf, setNext]
  · simp [ListHeap.prevOf, setNext, hm]

/-- A well-formed circular list: `xs` in order, `next` and `prev` mutually inverse. -/
abbrev ListHeap.IsList (h : ListHeap) (head : U64) (xs : List U64) : Prop :=
  IsRing h.nextOf h.prevOf head xs

def listPoison1 : U64 := 0x00100100 + 0xdead000000000000

def listPoison2 : U64 := 0x00200200 + 0xdead000000000000

def initListHead (list : U64) (h : ListHeap) : ListHeap := setPrev list list (setNext list list h)

/-- The four stores of `__list_add`, in program order. -/
def listAddStores (new prev next : U64) : List (ListHeap → ListHeap) :=
  [setPrev next new, setNext new next, setPrev new prev, setNext prev new]

/-- `__list_add`. -/
def listAddCore (new prev next : U64) (h : ListHeap) : ListHeap :=
  (listAddStores new prev next).foldl (fun h store => store h) h

def listAdd (new head : U64) (h : ListHeap) : ListHeap := listAddCore new head (h.nextOf head) h

def listAddTail (new head : U64) (h : ListHeap) : ListHeap := listAddCore new (h.prevOf head) head h

/-- `__list_del`. -/
def listDelCore (prev next : U64) (h : ListHeap) : ListHeap := setNext prev next (setPrev next prev h)

def listDel (entry : U64) (h : ListHeap) : ListHeap :=
  setPrev entry listPoison2 (setNext entry listPoison1 (listDelCore (h.prevOf entry) (h.nextOf entry) h))

def listEmpty (head : U64) (h : ListHeap) : Bool := h.nextOf head = head

/-- `list_for_each`: the positions visited, unless the loop is still running after `fuel`. -/
def listForEach (fuel : Nat) (head : U64) (h : ListHeap) : Option (List U64) :=
  walk h.nextOf head fuel (h.nextOf head)

variable {h : ListHeap} {head : U64} {xs : List U64}

theorem nextOf_listAdd (new head m : U64) (h : ListHeap) :
    (listAdd new head h).nextOf m =
      if m = head then new else if m = new then h.nextOf head else h.nextOf m := by
  simp [listAdd, listAddCore, listAddStores]

theorem prevOf_listAdd (new head m : U64) (h : ListHeap) :
    (listAdd new head h).prevOf m =
      if m = new then head else if m = h.nextOf head then new else h.prevOf m := by
  simp [listAdd, listAddCore, listAddStores]

theorem nextOf_listAddTail (new head m : U64) (h : ListHeap) :
    (listAddTail new head h).nextOf m =
      if m = h.prevOf head then new else if m = new then head else h.nextOf m := by
  simp [listAddTail, listAddCore, listAddStores]

theorem prevOf_listAddTail (new head m : U64) (h : ListHeap) :
    (listAddTail new head h).prevOf m =
      if m = new then h.prevOf head else if m = head then new else h.prevOf m := by
  simp [listAddTail, listAddCore, listAddStores]

theorem isList_initListHead (list : U64) (h : ListHeap) :
    (initListHead list h).IsList list [] :=
  isRing_nil (by simp [initListHead]) (by simp [initListHead])

/-- `list_add` pushes an unlinked node at the front. -/
theorem isList_listAdd {new : U64} (hl : h.IsList head xs) (hnew : new ∉ head :: xs) :
    (listAdd new head h).IsList head (new :: xs) := by
  have hne : ∀ n ∈ head :: xs, n ≠ new := fun n hn he => hnew (he ▸ hn)
  have hhead : new ≠ head := fun he => hnew (by simp [he])
  refine hl.insert_first hnew ?_ ?_ ?_ ?_ ?_ ?_
  · simp [nextOf_listAdd]
  · simp [nextOf_listAdd, hhead]
  · intro n hn hnh
    simp [nextOf_listAdd, hnh, hne n hn]
  · simp [prevOf_listAdd]
  · have hfirst : h.nextOf head ≠ new := hne _ (hl.next_mem (n := head) (by simp))
    simp [prevOf_listAdd, hfirst]
  · intro n hn hnh
    simp [prevOf_listAdd, hnh, hne n hn]

/-- `list_add_tail` pushes an unlinked node at the back. -/
theorem isList_listAddTail {new : U64} (hl : h.IsList head xs) (hnew : new ∉ head :: xs) :
    (listAddTail new head h).IsList head (xs ++ [new]) := by
  have hne : ∀ n ∈ head :: xs, n ≠ new := fun n hn he => hnew (he ▸ hn)
  have hlast : new ≠ h.prevOf head := fun he =>
    hne _ (hl.next_prev (by simp)).2 he.symm
  refine hl.insert_last hnew ?_ ?_ ?_ ?_ ?_ ?_
  · simp [nextOf_listAddTail]
  · simp [nextOf_listAddTail, hlast]
  · intro n hn hnh
    simp [nextOf_listAddTail, hnh, hne n hn]
  · simp [prevOf_listAddTail]
  · simp [prevOf_listAddTail, hne head (by simp)]
  · intro n hn hnh
    simp [prevOf_listAddTail, hnh, hne n hn]

/-- `list_del` unlinks a node, wherever it stands. -/
theorem isList_listDel {entry : U64} {l r : List U64} (hl : h.IsList head (l ++ entry :: r)) :
    (listDel entry h).IsList head (l ++ r) := by
  have hmem : ∀ n ∈ head :: (l ++ r), n ≠ entry := by
    rintro n hn rfl
    have hperm : (head :: (l ++ n :: r)).Perm (n :: head :: (l ++ r)) :=
      (List.perm_middle.cons head).trans (List.Perm.swap n head (l ++ r))
    exact (List.nodup_cons.1 (hperm.nodup_iff.1 hl.nodup)).1 hn
  have hin : entry ∈ head :: (l ++ entry :: r) := by simp
  -- the neighbours are themselves other nodes: a ring with `entry` in it has two nodes
  have hself : ∀ n ∈ head :: (l ++ entry :: r), h.nextOf n = n → head = n := by
    intro n hn hself
    by_contra hne
    obtain ⟨a, b, hab⟩ := List.append_of_mem (List.mem_of_ne_of_mem (Ne.symm hne) hn)
    have hpath := hl.path
    rw [hab, path_append] at hpath
    have hnd := hl.nodup
    rw [hab] at hnd
    cases b with
    | nil => exact hne (hpath.2.symm.trans hself)
    | cons y b =>
        obtain rfl : y = n := hpath.2.1.symm.trans hself
        have hdup := (List.nodup_append.1 (List.nodup_cons.1 hnd).2).2.1
        exact (List.nodup_cons.1 hdup).1 (by simp)
  have hnext : h.nextOf entry ≠ entry := by
    intro he
    exact hmem head (by simp) (hself entry hin he)
  have hprev : h.prevOf entry ≠ entry := by
    intro he
    have := (hl.next_prev hin).1
    rw [he] at this
    exact hnext this
  refine hl.remove ?_ ?_ ?_ ?_
  · simp [listDel, listDelCore, hprev]
  · intro n hn hnp
    simp [listDel, listDelCore, hmem n hn, hnp]
  · simp [listDel, listDelCore, hnext]
  · intro n hn hnn
    simp [listDel, listDelCore, hmem n hn, hnn]

/-- `list_empty` reads the pointer that a traversal starts with. -/
theorem listEmpty_of_path (hpath : Path h.nextOf head xs head) (hhead : head ∉ xs) :
    listEmpty head h = true ↔ xs = [] := by
  rw [listEmpty, decide_eq_true_iff]
  constructor
  · intro hempty
    exact hpath.unique hempty hhead List.not_mem_nil
  · rintro rfl
    exact hpath

/-- On a well-formed list `list_for_each` terminates and visits the list in order. -/
theorem listForEach_eq {fuel : Nat} (hl : h.IsList head xs) (hfuel : xs.length ≤ fuel) :
    listForEach fuel head h = some xs :=
  hl.path.walk_eq (List.nodup_cons.1 hl.nodup).1 hfuel

end Arm64OS
