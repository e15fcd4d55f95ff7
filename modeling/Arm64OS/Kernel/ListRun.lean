import Arm64OS.Kernel.List
import Arm64OS.Lib.Run

/-!
# Runs of the list functions

What the functions of `include/list.h` are for: several lists, each a head and a sequence of
nodes, no node in two places.  `Represents` says that a heap holds such lists as rings, and
`lists_run` that every run of the functions keeps it, and that a step touches the nodes of one
list only.
-/

namespace Arm64OS

open Ring

/-! ## Lists as sequences -/

inductive ListOp
  | init (list : U64)
  | add (new head : U64)
  | addTail (new head : U64)
  | del (entry : U64)
  deriving DecidableEq

/-- The lists of a heap, each with its head. -/
abbrev Lists := List (U64 × List U64)

def ringNodes (l : U64 × List U64) : List U64 := l.1 :: l.2

def linkedNodes (lists : Lists) : List U64 := lists.flatMap ringNodes

namespace ListOp

/-- The node that the call is about. -/
def node : ListOp → U64
  | init list => list
  | add new _ => new
  | addTail new _ => new
  | del entry => entry

/-- Whether the call is about the list. -/
def On : ListOp → U64 × List U64 → Prop
  | init _, _ => False
  | add _ head, l => l.1 = head
  | addTail _ head, l => l.1 = head
  | del entry, l => entry ∈ l.2

instance (op : ListOp) (l : U64 × List U64) : Decidable (op.On l) := by
  cases op <;> unfold On <;> infer_instance

/-- What the call makes of the sequence of the list that it is about. -/
def edit : ListOp → List U64 → List U64
  | init _, xs => xs
  | add new _, xs => new :: xs
  | addTail new _, xs => xs ++ [new]
  | del entry, xs => xs.erase entry

/-- A node that is initialised or added is not linked; a node that is deleted is. -/
def Allowed (lists : Lists) : ListOp → Prop
  | init list => list ∉ linkedNodes lists
  | add new head => new ∉ linkedNodes lists ∧ head ∈ lists.map Prod.fst
  | addTail new head => new ∉ linkedNodes lists ∧ head ∈ lists.map Prod.fst
  | del entry => ∃ l ∈ lists, entry ∈ l.2

instance (lists : Lists) (op : ListOp) : Decidable (op.Allowed lists) := by
  cases op <;> unfold Allowed <;> infer_instance

def apply (op : ListOp) (l : U64 × List U64) : U64 × List U64 :=
  if op.On l then (l.1, op.edit l.2) else l

/-- The call on the sequences. -/
def specify (op : ListOp) (lists : Lists) : Lists :=
  match op with
  | init list => (list, []) :: lists
  | op => lists.map op.apply

/-- The call on the heap. -/
def run : ListOp → ListHeap → ListHeap
  | init list => initListHead list
  | add new head => listAdd new head
  | addTail new head => listAddTail new head
  | del entry => listDel entry

end ListOp

/-- One call, with the sequences beside the heap. -/
def listStep (op : ListOp) (s : Lists × ListHeap) : Option (Lists × ListHeap) :=
  if op.Allowed s.1 then some (op.specify s.1, op.run s.2) else none

/-- The call changes no node but its own and those of the list that it is about. -/
def ListFrame (op : ListOp) (s : Lists × ListHeap) : Prop :=
  ∀ n, n ≠ op.node → (∀ l ∈ s.1, op.On l → n ∉ ringNodes l) → op.run s.2 n = s.2 n

/-! ## The heap holds the lists -/

def RingsApart (l l' : U64 × List U64) : Prop := (ringNodes l).Disjoint (ringNodes l')

instance : Std.Symm RingsApart := ⟨fun _ _ h => h.symm⟩

structure Represents (lists : Lists) (h : ListHeap) : Prop where
  apart : lists.Pairwise RingsApart
  isList : ∀ l ∈ lists, h.IsList l.1 l.2

variable {lists : Lists} {h : ListHeap} {op : ListOp} {l l' : U64 × List U64} {n : U64}

theorem mem_linkedNodes : n ∈ linkedNodes lists ↔ ∃ l ∈ lists, n ∈ ringNodes l := List.mem_flatMap

/-- A node is in one list only. -/
theorem Represents.unique (hr : Represents lists h) (hl : l ∈ lists) (hl' : l' ∈ lists)
    (hn : n ∈ ringNodes l) (hn' : n ∈ ringNodes l') : l = l' := by
  by_contra hne
  exact hr.apart.forall hl hl' hne hn hn'

/-- A call is about one list at most. -/
theorem Represents.on_unique (hr : Represents lists h) (hl : l ∈ lists) (hl' : l' ∈ lists)
    (hon : op.On l) (hon' : op.On l') : l = l' := by
  cases op with
  | init list => exact hon.elim
  | add new head =>
      have hhead : l.1 = l'.1 := hon.trans hon'.symm
      exact hr.unique hl hl' List.mem_cons_self (hhead ▸ List.mem_cons_self)
  | addTail new head =>
      have hhead : l.1 = l'.1 := hon.trans hon'.symm
      exact hr.unique hl hl' List.mem_cons_self (hhead ▸ List.mem_cons_self)
  | del entry => exact hr.unique hl hl' (List.mem_cons_of_mem _ hon) (List.mem_cons_of_mem _ hon')

/-! ## One call -/

theorem setNext_of_ne {m : U64} (hne : m ≠ n) (v : U64) (h : ListHeap) : setNext n v h m = h m :=
  Function.update_of_ne hne ..

theorem setPrev_of_ne {m : U64} (hne : m ≠ n) (v : U64) (h : ListHeap) : setPrev n v h m = h m :=
  Function.update_of_ne hne ..

theorem listAddCore_of_ne {new prev next : U64} (hnew : n ≠ new) (hprev : n ≠ prev)
    (hnext : n ≠ next) (h : ListHeap) : listAddCore new prev next h n = h n := by
  simp [listAddCore, listAddStores, setNext_of_ne, setPrev_of_ne, hnew, hprev, hnext]

theorem listDel_of_ne {entry : U64} (hentry : n ≠ entry) (hprev : n ≠ h.prevOf entry)
    (hnext : n ≠ h.nextOf entry) : listDel entry h n = h n := by
  simp [listDel, listDelCore, setNext_of_ne, setPrev_of_ne, hentry, hprev, hnext]

/-- The stores of a call stay in its node and in the list that it is about. -/
theorem Represents.frame (hr : Represents lists h) (hallowed : op.Allowed lists) :
    ListFrame op (lists, h) := by
  intro n hnode hn
  have hout : ∀ {l m}, l ∈ lists → op.On l → m ∈ ringNodes l → n ≠ m := by
    rintro l m hl hon hm rfl
    exact hn l hl hon hm
  cases op with
  | init list =>
      have hne : n ≠ list := hnode
      simp [ListOp.run, initListHead, setNext_of_ne, setPrev_of_ne, hne]
  | add new head =>
      obtain ⟨l, hl, rfl⟩ := List.mem_map.1 hallowed.2
      have hlist := hr.isList l hl
      exact listAddCore_of_ne hnode (hout hl rfl List.mem_cons_self)
        (hout hl rfl (hlist.next_mem List.mem_cons_self)) h
  | addTail new head =>
      obtain ⟨l, hl, rfl⟩ := List.mem_map.1 hallowed.2
      have hlist := hr.isList l hl
      exact listAddCore_of_ne hnode (hout hl rfl (hlist.next_prev List.mem_cons_self).2)
        (hout hl rfl List.mem_cons_self) h
  | del entry =>
      obtain ⟨l, hl, hentry⟩ := hallowed
      have hlist := hr.isList l hl
      have hmem : entry ∈ ringNodes l := List.mem_cons_of_mem _ hentry
      exact listDel_of_ne hnode (hout hl hentry (hlist.next_prev hmem).2)
        (hout hl hentry (hlist.next_mem hmem))

/-- The list that a call is about. -/
theorem Represents.isList_on (hr : Represents lists h) (hallowed : op.Allowed lists)
    (hl : l ∈ lists) (hon : op.On l) : (op.run h).IsList l.1 (op.edit l.2) := by
  have hlist := hr.isList l hl
  have hout : ∀ {new}, new ∉ linkedNodes lists → new ∉ l.1 :: l.2 :=
    fun hnew hmem => hnew (mem_linkedNodes.2 ⟨l, hl, hmem⟩)
  cases op with
  | init list => exact hon.elim
  | add new head =>
      obtain rfl : l.1 = head := hon
      exact isList_listAdd hlist (hout hallowed.1)
  | addTail new head =>
      obtain rfl : l.1 = head := hon
      exact isList_listAddTail hlist (hout hallowed.1)
  | del entry =>
      obtain ⟨before, after, hnot, hsplit, herase⟩ := List.exists_erase_eq hon
      rw [hsplit] at hlist
      rw [ListOp.edit, herase]
      exact isList_listDel hlist

/-- A list that a call is not about. -/
theorem Represents.isList_of_not_on (hr : Represents lists h) (hallowed : op.Allowed lists)
    (hl : l ∈ lists) (hon : ¬ op.On l) : (op.run h).IsList l.1 l.2 := by
  have hother : ∀ n ∈ ringNodes l, ∀ l' ∈ lists, op.On l' → n ∉ ringNodes l' := by
    rintro n hn l' hl' hon' hn'
    exact hon (hr.unique hl hl' hn hn' ▸ hon')
  have hnode : ∀ n ∈ ringNodes l, n ≠ op.node := by
    rintro n hn rfl
    have hlinked : op.node ∈ linkedNodes lists := mem_linkedNodes.2 ⟨l, hl, hn⟩
    cases op with
    | init list => exact hallowed hlinked
    | add new head => exact hallowed.1 hlinked
    | addTail new head => exact hallowed.1 hlinked
    | del entry =>
        obtain ⟨l', hl', hentry⟩ := hallowed
        exact hother entry hn l' hl' hentry (List.mem_cons_of_mem _ hentry)
  have hsame : ∀ n ∈ ringNodes l, op.run h n = h n := fun n hn =>
    hr.frame hallowed n (hnode n hn) (hother n hn)
  exact (hr.isList l hl).congr (fun n hn => congrArg ListHead.next (hsame n hn))
    (fun n hn => congrArg ListHead.prev (hsame n hn))

theorem Represents.isList_apply (hr : Represents lists h) (hallowed : op.Allowed lists)
    (hl : l ∈ lists) : (op.run h).IsList (op.apply l).1 (op.apply l).2 := by
  unfold ListOp.apply
  split
  · next hon => exact hr.isList_on hallowed hl hon
  · next hon => exact hr.isList_of_not_on hallowed hl hon

/-- A call brings at most its own node into a list, and a node that was in none. -/
theorem mem_ringNodes_apply (hallowed : op.Allowed lists) (hn : n ∈ ringNodes (op.apply l)) :
    n ∈ ringNodes l ∨ n = op.node ∧ op.On l ∧ n ∉ linkedNodes lists := by
  unfold ListOp.apply at hn
  split at hn
  · next hon =>
      cases op with
      | init list => exact hon.elim
      | add new head =>
          simp only [ringNodes, ListOp.edit, List.mem_cons] at hn ⊢
          rcases hn with hhead | rfl | hmem
          · exact Or.inl (Or.inl hhead)
          · exact Or.inr ⟨rfl, hon, hallowed.1⟩
          · exact Or.inl (Or.inr hmem)
      | addTail new head =>
          simp only [ringNodes, ListOp.edit, List.mem_cons, List.mem_append,
            List.not_mem_nil, or_false] at hn ⊢
          rcases hn with hhead | hmem | rfl
          · exact Or.inl (Or.inl hhead)
          · exact Or.inl (Or.inr hmem)
          · exact Or.inr ⟨rfl, hon, hallowed.1⟩
      | del entry =>
          refine Or.inl ?_
          rcases List.mem_cons.1 hn with hhead | hmem
          · exact hhead ▸ List.mem_cons_self
          · exact List.mem_cons_of_mem _ (List.mem_of_mem_erase hmem)
  · exact Or.inl hn

theorem Represents.apart_apply (hr : Represents lists h) (hallowed : op.Allowed lists)
    (hl : l ∈ lists) (hl' : l' ∈ lists) (hapart : RingsApart l l') :
    RingsApart (op.apply l) (op.apply l') := by
  have hself : ∀ l ∈ lists, ∀ n ∈ ringNodes l, n ∈ linkedNodes lists :=
    fun l hl n hn => mem_linkedNodes.2 ⟨l, hl, hn⟩
  intro n hn hn'
  rcases mem_ringNodes_apply hallowed hn with hold | ⟨-, hon, hnew⟩
  · rcases mem_ringNodes_apply hallowed hn' with hold' | ⟨-, -, hnew⟩
    · exact hapart hold hold'
    · exact hnew (hself l hl n hold)
  · rcases mem_ringNodes_apply hallowed hn' with hold' | ⟨-, hon', -⟩
    · exact hnew (hself l' hl' n hold')
    · obtain rfl := hr.on_unique hl hl' hon hon'
      exact hapart List.mem_cons_self List.mem_cons_self

theorem Represents.map (hr : Represents lists h) (hallowed : op.Allowed lists) :
    Represents (lists.map op.apply) (op.run h) := by
  constructor
  · exact List.pairwise_map.2 (hr.apart.imp_of_mem fun hl hl' => hr.apart_apply hallowed hl hl')
  · intro l' hl'
    obtain ⟨l, hl, rfl⟩ := List.mem_map.1 hl'
    exact hr.isList_apply hallowed hl

theorem Represents.step (hr : Represents lists h) (hallowed : op.Allowed lists) :
    Represents (op.specify lists) (op.run h) := by
  cases op with
  | init list =>
      constructor
      · refine List.pairwise_cons.2 ⟨fun l hl n hn hn' => ?_, hr.apart⟩
        obtain rfl : n = list := List.mem_singleton.1 hn
        exact hallowed (mem_linkedNodes.2 ⟨l, hl, hn'⟩)
      · intro l hl
        rcases List.mem_cons.1 hl with rfl | hl
        · exact isList_initListHead list h
        · exact hr.isList_of_not_on hallowed hl id
  | add new head => exact hr.map hallowed
  | addTail new head => exact hr.map hallowed
  | del entry => exact hr.map hallowed

/-! ## Runs -/

theorem listStep_eq_some {s s' : Lists × ListHeap} (h : listStep op s = some s') :
    op.Allowed s.1 ∧ s' = (op.specify s.1, op.run s.2) := by
  unfold listStep at h
  split at h
  · next hallowed => exact ⟨hallowed, (Option.some.inj h).symm⟩
  · cases h

/-- **The list functions refine sequences.**  After every run of calls that link no linked node
and unlink no other, each list of the heap is a ring of its sequence: `list_for_each` stops and
visits the sequence in order, and `list_empty` tells the empty one.  No call of the run changed a
node but its own and those of the list that it was about. -/
theorem lists_run (h : ListHeap) {ops : List ListOp} {s : Lists × ListHeap}
    (hrun : Run.exec listStep ops ([], h) = some s) :
    (∀ l ∈ s.1, s.2.IsList l.1 l.2 ∧
      (∀ fuel, l.2.length ≤ fuel → listForEach fuel l.1 s.2 = some l.2) ∧
      (listEmpty l.1 s.2 = true ↔ l.2 = [])) ∧
    Run.Along listStep ListFrame ops ([], h) := by
  have hstart : Represents [] h :=
    ⟨List.Pairwise.nil, fun _ hl => absurd hl List.not_mem_nil⟩
  have henabled := Run.along_of_exec hrun
  have hstep : ∀ op (s s' : Lists × ListHeap), Represents s.1 s.2 → (listStep op s).isSome →
      listStep op s = some s' → Represents s'.1 s'.2 := by
    intro op s s' hr _ hs'
    obtain ⟨hallowed, rfl⟩ := listStep_eq_some hs'
    exact hr.step hallowed
  have hframe : ∀ op (s : Lists × ListHeap), Represents s.1 s.2 → (listStep op s).isSome →
      ListFrame op s := by
    intro op s hr hsome
    obtain ⟨s', hs'⟩ := Option.isSome_iff_exists.1 hsome
    exact hr.frame (listStep_eq_some hs').1
  have hend : Represents s.1 s.2 := Run.exec_invariant hstep hstart henabled hrun
  refine ⟨fun l hl => ?_, Run.along_of_invariant hstep hframe hstart henabled⟩
  have hlist := hend.isList l hl
  exact ⟨hlist, fun fuel hfuel => listForEach_eq hlist hfuel,
    listEmpty_of_path hlist.path (List.nodup_cons.1 hlist.nodup).1⟩

/-- Two lists, with a node that is first in the one and last in the other. -/
theorem lists_run_two :
    ∃ s, Run.exec listStep [.init 0x10, .init 0x20, .add 0x30 0x10, .addTail 0x40 0x20, .del 0x30,
        .addTail 0x30 0x20] ([], fun _ => ⟨0, 0⟩) = some s ∧
      s.1 = [(0x20, [0x40, 0x30]), (0x10, [])] ∧ listForEach 2 0x20 s.2 = some [0x40, 0x30] := by
  obtain ⟨s, hs⟩ : ∃ s, Run.exec listStep [.init 0x10, .init 0x20, .add 0x30 0x10,
      .addTail 0x40 0x20, .del 0x30, .addTail 0x30 0x20] ([], fun _ => ⟨0, 0⟩) = some s := ⟨_, rfl⟩
  have hlists : (Run.exec listStep [.init 0x10, .init 0x20, .add 0x30 0x10, .addTail 0x40 0x20,
      .del 0x30, .addTail 0x30 0x20] ([], fun _ => ⟨0, 0⟩)).map Prod.fst =
        some [(0x20, [0x40, 0x30]), (0x10, [])] := by decide
  rw [hs] at hlists
  have hfst := Option.some.inj hlists
  have hmem : ((0x20 : U64), [(0x40 : U64), 0x30]) ∈ s.1 := hfst ▸ List.mem_cons_self
  exact ⟨s, hs, hfst, ((lists_run _ hs).1 _ hmem).2.1 2 le_rfl⟩

end Arm64OS
