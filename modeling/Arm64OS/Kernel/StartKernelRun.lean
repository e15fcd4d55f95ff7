import Arm64OS.Kernel.ListPublish
import Arm64OS.Kernel.StartKernel

/-!
# Runs of `start_kernel`

Between two statements the task ring and the run queue may be half updated.  `Shape` says,
for each place of `init_task`, how far the edit in progress has got: the heap is a well-formed
list to which the first stores of the edit have been applied.  Read forwards, such a heap is
still a list (`forward_setLinks`, `forward_listAdd`), and forwards is how `for_each_task` and
`list_for_each` read it.

`picksTask_run`: as long as no timer interrupt uses up the ticks of the running task while
the run queue is empty, every `pick_next_task_nop` returns a task of `g_task`.
-/

namespace Arm64OS

open Ring

variable {img : Image} {fuel : Nat}

/-! ## The invariant -/

/-- The page of a task that exists or is being made. -/
def HasPage (memMap : PageMap) (p : U64) : Prop :=
  ∃ j, j < nrPages ∧ p = pageAddr j ∧ memMap j ≠ 0#8

/-- The scalar fields that the scheduler relies on. -/
def Schedulable (t : TaskStruct) : Prop := t.state = .running ∧ 0 ≤ t.counter ∧ 0 ≤ t.priority

/-- No interrupt has reason to preempt the task, and none is about to. -/
def Unpreempted (t : TaskStruct) : Prop := t.needResched = 0 ∧ t.preemptCount = 0

/-- The task ring, with `xs` the tasks whose `SET_LINKS` is complete. -/
def RingAt (img : Image) (ring : ListHeap) (xs : List U64) : InitPc → Prop
  | .initChild p _ n => ∃ h, h.IsList img.initTask xs ∧
      ring = ((setLinksStores img p).take (n - 9)).foldl (fun h store => store h) h
  | _ => ring.IsList img.initTask xs

/-- The run queue, with `ps` the tasks whose `list_add` is complete. -/
def QueueAt (img : Image) (runList : ListHeap) (ps : List U64) : InitPc → Prop
  | .listAdd p _ next n => ∃ h, h.IsList img.rqHead (ps.map runListOf) ∧
      next = h.nextOf img.rqHead ∧ n ≤ 4 ∧
      runList = ((listAddStores (runListOf p) img.rqHead next).take n).foldl
        (fun h store => store h) h
  | _ => runList.IsList img.rqHead (ps.map runListOf)

/-- What is known of the new task `p` itself. -/
def ChildAt (memMap : PageMap) (xs ps : List U64) : InitPc → Prop
  | .idle => True
  | .memset _ p => HasPage memMap p ∧ p ∉ xs
  | .findEmptyTask _ p => HasPage memMap p ∧ p ∉ xs
  | .copyThread _ p pid => HasPage memMap p ∧ p ∉ xs ∧ pid = xs.length + 1 ∧ pid < nrTasks
  | .initChild p pid n => HasPage memMap p ∧ p ∉ xs ∧ pid = xs.length + 1 ∧ pid < nrTasks ∧ n ≤ 13
  | .setRunning p _ => p ∈ xs ∧ p ∉ ps
  | .listAdd p _ _ _ => p ∈ xs ∧ p ∉ ps
  | .incNrRunning _ _ => True
  | .freePage p => HasPage memMap p ∧ p ∉ xs

/-- The tasks in `g_task`, after `init_task`. -/
def tableAt (xs : List U64) : InitPc → List U64
  | .initChild p _ n => if 9 ≤ n then xs ++ [p] else xs
  | _ => xs

/-- The new task, once its structure is cleared and until it is in the ring. -/
def childOf : InitPc → List U64
  | .findEmptyTask _ p => [p]
  | .copyThread _ p _ => [p]
  | .initChild p _ _ => [p]
  | _ => []

/-- What `for_each_task` visits. -/
def forwardRing (xs : List U64) : InitPc → List U64
  | .initChild p _ n => if 12 ≤ n then xs ++ [p] else xs
  | _ => xs

/-- What `list_for_each` visits on the run queue. -/
def forwardQueue (ps : List U64) : InitPc → List U64
  | .listAdd p _ _ n => if 4 ≤ n then p :: ps else ps
  | _ => ps

/-- The kernel while `init_task` is at `pc`. -/
structure Shape (img : Image) (k : Kernel) (pc : InitPc) (xs ps : List U64) : Prop where
  ring : RingAt img k.ring xs pc
  queue : QueueAt img k.runList ps pc
  table : ∀ i, k.gTask i = (img.initTask :: tableAt xs pc)[i]?.getD 0#64
  short : xs.length < nrTasks
  linked : ∀ q ∈ xs, HasPage k.memMap q
  nodup : xs.Nodup
  queued : ∀ q ∈ ps, q ∈ xs
  child : ChildAt k.memMap xs ps pc
  schedulable : ∀ q ∈ img.initTask :: (childOf pc ++ xs), Schedulable (k.task q)

/-- The machine between two steps. -/
structure BootInv (img : Image) (s : Boot) (xs ps : List U64) : Prop where
  shape : Shape img s.k s.pc xs ps
  current : s.current ∈ img.initTask :: xs
  /-- nothing has been able to preempt `init_task` while the queue is empty -/
  quiet : forwardQueue ps s.pc = [] → s.current = img.initTask ∧
    Unpreempted (s.k.task img.initTask) ∧ s.stack img.initTask = []

variable {k k' : Kernel} {pc : InitPc} {xs ps : List U64}

theorem HasPage.ne_initTask (img : Image) {memMap : PageMap} {p : U64} (h : HasPage memMap p) :
    p ≠ img.initTask := by
  obtain ⟨j, hj, rfl, -⟩ := h
  exact pageAddr_ne_initTask img hj

theorem HasPage.notMem_ring (img : Image) {memMap : PageMap} {p : U64} (h : HasPage memMap p)
    (hp : p ∉ xs) :
    p ∉ img.initTask :: xs := by
  intro hmem
  rcases List.mem_cons.1 hmem with hinit | hmem
  · exact h.ne_initTask img hinit
  · exact hp hmem

theorem HasPage.notMem_queue (img : Image) {memMap : PageMap} {p : U64} (h : HasPage memMap p)
    (hp : p ∉ ps) :
    runListOf p ∉ img.rqHead :: ps.map runListOf := by
  intro hmem
  rcases List.mem_cons.1 hmem with hhead | hmem
  · obtain ⟨j, hj, rfl, -⟩ := h
    exact runListOf_pageAddr_ne_rqHead img hj hhead
  · obtain ⟨q, hq, hqp⟩ := List.mem_map.1 hmem
    exact hp (runListOf_inj hqp ▸ hq)

theorem HasPage.update {memMap : PageMap} {p : U64} (h : HasPage memMap p) (j : Nat) :
    HasPage (Function.update memMap j 1#8) p := by
  obtain ⟨i, hi, hpi, hused⟩ := h
  refine ⟨i, hi, hpi, ?_⟩
  by_cases hij : i = j
  · simp [hij]
  · simpa [hij] using hused

theorem Shape.queue_nodup (h : Shape img k pc xs ps) : ps.Nodup := by
  have hnodup : (ps.map runListOf).Nodup := by
    have hqueue := h.queue
    cases pc with
    | listAdd p pid next n =>
        obtain ⟨heap, hlist, -⟩ := hqueue
        exact (List.nodup_cons.1 hlist.nodup).2
    | _ => exact (List.nodup_cons.1 hqueue.nodup).2
  exact List.Nodup.of_map _ hnodup

theorem Shape.schedulable_linked (h : Shape img k pc xs ps) {q : U64}
    (hq : q ∈ img.initTask :: xs) : Schedulable (k.task q) := by
  refine h.schedulable q ?_
  rcases List.mem_cons.1 hq with rfl | hlinked
  · simp
  · simp [hlinked]

/-- `for_each_task` comes to an end wherever `init_task` stands. -/
theorem Shape.forEachTask (h : Shape img k pc xs ps) (hfuel : nrTasks ≤ fuel) :
    forEachTask img fuel k = some (forwardRing xs pc) := by
  have hshort := h.short
  have hring := h.ring
  cases pc with
  | initChild p pid n =>
      obtain ⟨hpage, hp, hpid, hlt, hn⟩ := h.child
      obtain ⟨heap, hlist, hheap⟩ := hring
      have hout := hpage.notMem_ring img hp
      have hpath := forward_setLinks hlist hout (m := n - 9) (by omega)
      rw [← hheap] at hpath
      have hforward : (if 3 ≤ n - 9 then xs ++ [p] else xs) = forwardRing xs (.initChild p pid n) := by
        have hiff : 3 ≤ n - 9 ↔ 12 ≤ n := by omega
        simp only [forwardRing, hiff]
      rw [hforward] at hpath
      refine hpath.walk_eq ?_ ?_
      · rw [forwardRing]
        split
        · simpa [eq_comm, not_or] using ⟨(List.nodup_cons.1 hlist.nodup).1,
            hpage.ne_initTask img⟩
        · exact (List.nodup_cons.1 hlist.nodup).1
      · have hlength : (forwardRing xs (.initChild p pid n)).length ≤ xs.length + 1 := by
          rw [forwardRing]
          split <;> simp
        omega
  | _ => exact listForEach_eq hring (Nat.le_trans (Nat.le_of_lt hshort) hfuel)

/-- `list_for_each` on the run queue comes to an end wherever `init_task` stands. -/
theorem Shape.listForEach (h : Shape img k pc xs ps) (hfuel : nrTasks ≤ fuel) :
    listForEach fuel img.rqHead k.runList = some ((forwardQueue ps pc).map runListOf) := by
  have hshort := h.short
  have hnodup := h.queue_nodup
  have hlength : ps.length ≤ xs.length := (hnodup.subperm fun q hq => h.queued q hq).length_le
  have hle : ps.length < fuel := by omega
  have hqueue := h.queue
  cases pc with
  | listAdd p pid next n =>
      obtain ⟨hlinked, hp⟩ := h.child
      obtain ⟨heap, hlist, hnext, hn, hheap⟩ := hqueue
      have hout := (h.linked p hlinked).notMem_queue img hp
      have hpath := forward_listAdd hlist hout hnext hn
      rw [← hheap] at hpath
      have hforward : (if 4 ≤ n then runListOf p :: ps.map runListOf else ps.map runListOf) =
          (forwardQueue ps (.listAdd p pid next n)).map runListOf := by
        rw [forwardQueue]
        split <;> rfl
      rw [hforward] at hpath
      refine hpath.walk_eq ?_ ?_
      · rw [forwardQueue]
        split
        · intro hmem
          rcases List.mem_cons.1 hmem with he | hmem
          · exact hout (by simp [← he])
          · exact (List.nodup_cons.1 hlist.nodup).1 hmem
        · exact (List.nodup_cons.1 hlist.nodup).1
      · have hle : (forwardQueue ps (.listAdd p pid next n)).length ≤ ps.length + 1 := by
          rw [forwardQueue]
          split <;> simp
        rw [List.length_map]
        omega
  | _ => exact listForEach_eq hqueue (by rw [List.length_map]; exact le_of_lt hle)

/-- A change that keeps the lists, the tables and what the scheduler relies on. -/
structure Tame (k k' : Kernel) : Prop where
  memMap : k'.memMap = k.memMap
  gTask : k'.gTask = k.gTask
  ring : k'.ring = k.ring
  runList : k'.runList = k.runList
  schedulable : ∀ q, Schedulable (k.task q) → Schedulable (k'.task q)

theorem Tame.refl (k : Kernel) : Tame k k := ⟨rfl, rfl, rfl, rfl, fun _ => id⟩

theorem Tame.trans {k'' : Kernel} (h : Tame k k') (h' : Tame k' k'') : Tame k k'' :=
  ⟨h'.memMap.trans h.memMap, h'.gTask.trans h.gTask, h'.ring.trans h.ring,
    h'.runList.trans h.runList, fun q hq => h'.schedulable q (h.schedulable q hq)⟩

theorem tame_updTask {p : U64} {f : TaskStruct → TaskStruct}
    (hf : ∀ t, Schedulable t → Schedulable (f t)) (k : Kernel) : Tame k (k.updTask p f) := by
  refine ⟨rfl, rfl, rfl, rfl, fun q hq => ?_⟩
  by_cases hqp : q = p
  · subst hqp
    simpa [Kernel.updTask] using hf _ hq
  · simpa [Kernel.updTask, hqp] using hq

theorem Shape.tame (h : Shape img k pc xs ps) (hk : Tame k k') : Shape img k' pc xs ps where
  ring := by
    rw [hk.ring]
    exact h.ring
  queue := by
    rw [hk.runList]
    exact h.queue
  table := by
    rw [hk.gTask]
    exact h.table
  short := h.short
  linked := by
    rw [hk.memMap]
    exact h.linked
  nodup := h.nodup
  queued := h.queued
  child := by
    rw [hk.memMap]
    exact h.child
  schedulable q hq := hk.schedulable q (h.schedulable q hq)

/-! ## The statements of `init_task` -/

/-- The first eight statements of `initChild` write scalar fields and `total_forks`. -/
theorem initChild_scalar (img : Image) {p : U64} (pid : Int) {n : Nat} (hn : n < 8) (hp : p ≠ img.initTask)
    (hinit : Schedulable (k.task img.initTask)) :
    ∃ stmt, (initChild img img.initTask p pid)[n]? = some stmt ∧ Tame k (stmt k) ∧
      (Unpreempted (k.task img.initTask) → Unpreempted ((stmt k).task img.initTask)) := by
  have hhalf : 0 ≤ ((k.task img.initTask).counter + 1) >>> (1 : Nat) :=
    Int.le_shiftRight_of_nonneg (by have := hinit.2.1; omega)
  -- a statement about the new task leaves the init task as it is
  have hchild : ∀ f : TaskStruct → TaskStruct, (∀ t, Schedulable t → Schedulable (f t)) →
      Tame k (k.updTask p f) ∧ (Unpreempted (k.task img.initTask) →
        Unpreempted ((k.updTask p f).task img.initTask)) := fun f hf =>
    ⟨tame_updTask hf k, by simp [Kernel.updTask, hp.symm]⟩
  obtain rfl | rfl | rfl | rfl | rfl | rfl | rfl | rfl :
      n = 0 ∨ n = 1 ∨ n = 2 ∨ n = 3 ∨ n = 4 ∨ n = 5 ∨ n = 6 ∨ n = 7 := by omega
  · exact ⟨_, rfl, hchild _ fun t ht => ⟨rfl, ht.2⟩⟩
  · exact ⟨_, rfl, hchild _ fun t ht => ht⟩
  · exact ⟨_, rfl, hchild _ fun t ht => ⟨ht.1, hhalf, ht.2.2⟩⟩
  · refine ⟨_, rfl, ?_, by simp [Kernel.updTask, Unpreempted]⟩
    apply tame_updTask
    intro t ht
    exact ⟨ht.1, Int.le_shiftRight_of_nonneg ht.2.1, ht.2.2⟩
  · exact ⟨_, rfl, hchild _ fun t ht => ht⟩
  · exact ⟨_, rfl, hchild _ fun t ht => ht⟩
  · exact ⟨_, rfl, hchild _ fun t ht => ⟨ht.1, ht.2.1, (by decide : (0 : Int) ≤ 2)⟩⟩
  · exact ⟨_, rfl, ⟨rfl, rfl, rfl, rfl, fun _ => id⟩, id⟩

/-- The last four statements of `initChild` are the stores of `SET_LINKS`. -/
theorem initChild_link (img : Image) (p : U64) (pid : Int) {m : Nat} (hm : m < 4) :
    ∃ store, (setLinksStores img p)[m]? = some store ∧
      (initChild img img.initTask p pid)[m + 9]? = some (onRing store) := by
  obtain rfl | rfl | rfl | rfl : m = 0 ∨ m = 1 ∨ m = 2 ∨ m = 3 := by omega
  all_goals exact ⟨_, rfl, rfl⟩

/-- One statement of `initChild`. -/
theorem shape_initChild {p : U64} {pid : Int} {n : Nat}
    (h : Shape img k (.initChild p pid n) xs ps) (hn : n < 13) :
    ∃ stmt, (initChild img img.initTask p pid)[n]? = some stmt ∧
      Shape img (stmt k) (.initChild p pid (n + 1)) xs ps ∧
      (Unpreempted (k.task img.initTask) → Unpreempted ((stmt k).task img.initTask)) := by
  obtain ⟨hpage, hp, hpid, hlt, -⟩ := h.child
  have hchild : ChildAt k.memMap xs ps (.initChild p pid (n + 1)) :=
    ⟨hpage, hp, hpid, hlt, by omega⟩
  -- Scalar fields first, then `g_task`, then the ring.
  by_cases hscalar : n < 8
  · obtain ⟨stmt, hstmt, htame, hkeep⟩ := initChild_scalar img pid hscalar
      (hpage.ne_initTask img) (h.schedulable img.initTask (by simp))
    have h' := h.tame htame
    refine ⟨stmt, hstmt, { h' with ring := ?_, table := ?_, child := ?_ }, hkeep⟩
    · have hzero : n + 1 - 9 = n - 9 := by omega
      have hring := h'.ring
      simp only [RingAt, hzero] at hring ⊢
      exact hring
    · have hnot : ¬ 9 ≤ n := by omega
      have hnot' : ¬ 9 ≤ n + 1 := by omega
      have htable := h'.table
      simp only [tableAt, hnot, hnot', if_false] at htable ⊢
      exact htable
    · rw [htame.memMap]
      exact hchild
  · by_cases htab : n = 8
    · subst htab
      -- `g_task[pid] = p`
      refine ⟨_, rfl, { h with table := ?_, child := hchild }, id⟩
      intro i
      show Function.update k.gTask pid.toNat p i = _
      have hlen : pid.toNat = (img.initTask :: xs).length := by
        rw [List.length_cons]
        omega
      have htable : k.gTask i = (img.initTask :: xs)[i]?.getD 0#64 := h.table i
      show _ = ((img.initTask :: xs) ++ [p])[i]?.getD 0#64
      by_cases hi : i = pid.toNat
      · subst hi
        simp [hlen]
      · rw [Function.update_of_ne hi, htable]
        by_cases hilt : i < (img.initTask :: xs).length
        · rw [List.getElem?_append_left hilt]
        · rw [List.getElem?_eq_none (by omega), List.getElem?_eq_none (by simp at hlen hilt ⊢; omega)]
    · obtain ⟨m, rfl⟩ : ∃ m, n = m + 9 := ⟨n - 9, by omega⟩
      obtain ⟨store, hstore, hstmt⟩ := initChild_link img p pid
        (m := m) (by omega)
      refine ⟨_, hstmt, { h with ring := ?_, table := ?_, child := hchild }, id⟩
      · obtain ⟨heap, hlist, hheap⟩ := h.ring
        refine ⟨heap, hlist, ?_⟩
        have hsucc : m + 9 + 1 - 9 = m + 1 := by omega
        have hsame : m + 9 - 9 = m := by omega
        rw [hsucc, foldl_take_succ heap hstore]
        rw [hsame] at hheap
        rw [← hheap]
        rfl
      · have htable := h.table
        have hin : 9 ≤ m + 9 := by omega
        have hin' : 9 ≤ m + 9 + 1 := by omega
        simp only [tableAt, hin, hin', if_true] at htable ⊢
        exact htable

/-- A statement of `init_task` that leads to `pc'`: tasks are only added to the two lists, and
`init_task` is not marked for preemption. -/
def Next (img : Image) (k : Kernel) (pc : InitPc) (xs ps : List U64) (k' : Kernel)
    (pc' : InitPc) : Prop :=
  ∃ xs' ps', Shape img k' pc' xs' ps' ∧ (∀ q ∈ xs, q ∈ xs') ∧
    (forwardQueue ps' pc' = [] → forwardQueue ps pc = []) ∧
    (Unpreempted (k.task img.initTask) → Unpreempted (k'.task img.initTask))

/-- A statement that adds to neither list. -/
theorem Next.same {pc' : InitPc} (h : Shape img k' pc' xs ps)
    (hqueue : forwardQueue ps pc' = forwardQueue ps pc)
    (hinit : Unpreempted (k.task img.initTask) → Unpreempted (k'.task img.initTask)) :
    Next img k pc xs ps k' pc' :=
  ⟨xs, ps, h, fun _ => id, fun he => hqueue ▸ he, hinit⟩

theorem next_getFreePage {fn : U64} (h : Shape img k .idle xs ps) :
    Next img k .idle xs ps { k with memMap := (getFreePage k.memMap).2 }
      (if (getFreePage k.memMap).1 = 0#64 then .idle else .memset fn (getFreePage k.memMap).1) := by
  rcases getFreePage_cases k.memMap with ⟨j, hj, hfree, -, hget⟩ | ⟨-, hget⟩
  · rw [hget]
    simp only [pageAddr_ne_zero hj, if_false]
    refine Next.same ⟨h.ring, h.queue, h.table, h.short, fun q hq => (h.linked q hq).update j,
      h.nodup, h.queued, ⟨⟨j, hj, rfl, by simp⟩, ?_⟩, h.schedulable⟩ rfl id
    intro hmem
    obtain ⟨i, hi, hij, hused⟩ := h.linked _ hmem
    obtain rfl : j = i := pageAddr_inj hj hi hij
    exact hused hfree
  · rw [hget]
    exact Next.same h rfl id

theorem next_memset {fn p : U64} (h : Shape img k (.memset fn p) xs ps) :
    Next img k (.memset fn p) xs ps (k.memsetTask p) (.findEmptyTask fn p) := by
  obtain ⟨hpage, hp⟩ := h.child
  have hring := hpage.notMem_ring img hp
  have hqueue := hpage.notMem_queue img (fun hmem => hp (h.queued p hmem))
  refine Next.same ⟨?_, ?_, h.table, h.short, h.linked, h.nodup, h.queued, ⟨hpage, hp⟩, ?_⟩ rfl ?_
  · refine IsRing.congr h.ring (fun n hn => ?_) (fun n hn => ?_)
    all_goals
      have hne : n ≠ p := fun he => hring (he ▸ hn)
      simp [ListHeap.nextOf, ListHeap.prevOf, Kernel.memsetTask, hne]
  · refine IsRing.congr h.queue (fun n hn => ?_) (fun n hn => ?_)
    all_goals
      have hne : n ≠ runListOf p := fun he => hqueue (he ▸ hn)
      simp [ListHeap.nextOf, ListHeap.prevOf, Kernel.memsetTask, hne]
  · intro q hq
    by_cases hqp : q = p
    · subst hqp
      simp [Kernel.memsetTask, Schedulable, TaskStruct.zero]
    · have hold := h.schedulable q (by simpa [childOf, hqp] using hq)
      simpa [Kernel.memsetTask, hqp] using hold
  · simp [Kernel.memsetTask, (hpage.ne_initTask img).symm]

theorem next_findEmptyTask {fn p : U64} (h : Shape img k (.findEmptyTask fn p) xs ps) :
    Next img k (.findEmptyTask fn p) xs ps k
      (if findEmptyTask k.gTask < 0 then .freePage p
        else .copyThread fn p (findEmptyTask k.gTask)) := by
  obtain ⟨hpage, hp⟩ := h.child
  have htable : ∀ i, k.gTask i = (img.initTask :: xs)[i]?.getD 0#64 := h.table
  have hlen : (img.initTask :: xs).length = xs.length + 1 := rfl
  rcases findEmptyTask_cases k.gTask with ⟨pid, hpid, hzero, hmin, hfind⟩ | ⟨-, hfind⟩
  · have hnonneg : ¬ (pid : Int) < 0 := by omega
    simp only [hfind, hnonneg, if_false]
    -- every slot below is taken by a task that is not at address 0
    have hpid' : pid = xs.length + 1 := by
      rcases Nat.lt_trichotomy pid (xs.length + 1) with hlt | heq | hgt
      · have hin : pid < (img.initTask :: xs).length := by omega
        rw [htable pid, List.getElem?_eq_getElem hin, Option.getD_some] at hzero
        rcases List.mem_cons.1 (List.getElem_mem hin) with hinit | hlinked
        · exact absurd (hinit.symm.trans hzero) img.initTask_ne_zero
        · obtain ⟨i, hi, hpi, -⟩ := h.linked _ hlinked
          exact absurd (hpi.symm.trans hzero) (pageAddr_ne_zero hi)
      · exact heq
      · refine absurd ?_ (hmin (xs.length + 1) hgt)
        rw [htable, List.getElem?_eq_none (by omega), Option.getD_none]
    exact Next.same ⟨h.ring, h.queue, h.table, h.short, h.linked, h.nodup, h.queued,
      ⟨hpage, hp, by omega, by omega⟩, h.schedulable⟩ rfl id
  · simp only [hfind]
    exact Next.same ⟨h.ring, h.queue, h.table, h.short, h.linked, h.nodup, h.queued,
      ⟨hpage, hp⟩, fun q hq => h.schedulable_linked hq⟩ rfl id

theorem next_copyThread {fn p : U64} {pid : Int} (h : Shape img k (.copyThread fn p pid) xs ps) :
    Next img k (.copyThread fn p pid) xs ps
      (copyThread img img.initTask pfKthread p fn 0 k).2
      (if (copyThread img img.initTask pfKthread p fn 0 k).1 ≠ 0 then .freePage p
        else .initChild p pid 0) := by
  obtain ⟨hpage, hp, hpid, hlt⟩ := h.child
  have hne := hpage.ne_initTask img
  -- a kernel thread's stack is not looked at
  have haccepted : ¬ StackRefused pfKthread fn := fun hrefused => absurd hrefused.1 (by decide)
  rw [copyThread_accepted img 0 k hne.symm haccepted]
  refine Next.same ⟨⟨k.ring, h.ring, rfl⟩, h.queue, h.table, h.short, h.linked, h.nodup, h.queued,
    ⟨hpage, hp, hpid, hlt, by omega⟩, ?_⟩ rfl ?_
  · intro q hq
    have hold := h.schedulable q hq
    by_cases hqp : q = p
    · subst hqp
      simpa [Schedulable] using hold
    · simpa [hqp] using hold
  · simp [hne.symm]

/-- One statement between `copy_thread` and `wake_up_process`, or the step past the last one. -/
theorem next_initChild {p : U64} {pid : Int} {n : Nat}
    (h : Shape img k (.initChild p pid n) xs ps) :
    (∃ stmt, (initChild img img.initTask p pid)[n]? = some stmt ∧
      Next img k (.initChild p pid n) xs ps (stmt k) (.initChild p pid (n + 1))) ∨
    ((initChild img img.initTask p pid)[n]? = none ∧
      Next img k (.initChild p pid n) xs ps k (.setRunning p pid)) := by
  obtain ⟨hpage, hp, hpid, hlt, hn⟩ := h.child
  by_cases hlast : n < 13
  · obtain ⟨stmt, hstmt, h', hkeep⟩ := shape_initChild h hlast
    exact Or.inl ⟨stmt, hstmt, Next.same h' rfl hkeep⟩
  · obtain rfl : n = 13 := by omega
    refine Or.inr ⟨rfl, xs ++ [p], ps, ⟨?_, h.queue, h.table, ?_, ?_, ?_, ?_, ⟨by simp, ?_⟩, ?_⟩,
      fun q hq => List.mem_append_left _ hq, id, id⟩
    · obtain ⟨heap, hlist, hheap⟩ := h.ring
      show k.ring.IsList img.initTask (xs ++ [p])
      rw [hheap]
      exact isList_setLinks hlist (hpage.notMem_ring img hp)
    · rw [List.length_append, List.length_singleton]
      omega
    · intro q hq
      rcases List.mem_append.1 hq with hq | hq
      · exact h.linked q hq
      · obtain rfl : q = p := by simpa using hq
        exact hpage
    · exact List.nodup_append.2 ⟨h.nodup, by simp, fun a ha b hb hab => hp (by
        obtain rfl : b = p := by simpa using hb
        exact hab ▸ ha)⟩
    · intro q hq
      exact List.mem_append_left _ (h.queued q hq)
    · intro hmem
      exact hp (h.queued p hmem)
    · intro q hq
      refine h.schedulable q ?_
      simp only [childOf, List.nil_append, List.mem_cons, List.mem_append, List.not_mem_nil,
        or_false] at hq ⊢
      tauto

theorem next_setRunning {p : U64} {pid : Int} (h : Shape img k (.setRunning p pid) xs ps) :
    Next img k (.setRunning p pid) xs ps (k.updTask p fun t => { t with state := .running })
      (.listAdd p pid (k.runList.nextOf img.rqHead) 0) := by
  have htame : Tame k (k.updTask p fun t => { t with state := .running }) := by
    apply tame_updTask
    intro t ht
    exact ⟨rfl, ht.2⟩
  have hne := (h.linked p h.child.1).ne_initTask img
  refine Next.same { h.tame htame with queue := ⟨k.runList, h.queue, rfl, by omega, rfl⟩ } rfl ?_
  simp [Kernel.updTask, hne.symm]

/-- One store of `__list_add`, or the step past the last one. -/
theorem next_listAdd {p next : U64} {pid : Int} {n : Nat}
    (h : Shape img k (.listAdd p pid next n) xs ps) :
    (∃ store, (listAddStores (runListOf p) img.rqHead next)[n]? = some store ∧
      Next img k (.listAdd p pid next n) xs ps (onRunList store k) (.listAdd p pid next (n + 1))) ∨
    ((listAddStores (runListOf p) img.rqHead next)[n]? = none ∧
      Next img k (.listAdd p pid next n) xs ps k (.incNrRunning p pid)) := by
  obtain ⟨hlinked, hp⟩ := h.child
  obtain ⟨heap, hlist, hnext, hn, hheap⟩ := h.queue
  by_cases hlast : n < 4
  · have hlength : (listAddStores (runListOf p) img.rqHead next).length = 4 := rfl
    have hstore := List.getElem?_eq_getElem (l := listAddStores (runListOf p) img.rqHead next)
      (i := n) (by omega)
    refine Or.inl ⟨_, hstore, xs, ps, { h with queue := ⟨heap, hlist, hnext, by omega, ?_⟩ },
      fun _ => id, ?_, id⟩
    · rw [foldl_take_succ heap hstore, ← hheap]
      rfl
    · intro hnil
      simp only [forwardQueue] at hnil ⊢
      split at hnil
      · exact absurd hnil (by simp)
      · have hnot : ¬ 4 ≤ n := by omega
        rw [if_neg hnot]
        exact hnil
  · obtain rfl : n = 4 := by omega
    refine Or.inr ⟨rfl, xs, p :: ps, { h with queue := ?_, queued := ?_, child := trivial },
      fun _ => id, id, id⟩
    · show k.runList.IsList img.rqHead ((p :: ps).map runListOf)
      rw [hheap, hnext]
      exact isList_listAdd hlist ((h.linked p hlinked).notMem_queue img hp)
    · intro q hq
      rcases List.mem_cons.1 hq with rfl | hq
      · exact hlinked
      · exact h.queued q hq

theorem next_freePage {p : U64} (h : Shape img k (.freePage p) xs ps) :
    Next img k (.freePage p) xs ps { k with memMap := freePage p k.memMap } .idle := by
  obtain ⟨⟨j, hj, rfl, -⟩, hp⟩ := h.child
  refine Next.same { h with linked := ?_, child := trivial } rfl id
  intro q hq
  obtain ⟨i, hi, rfl, hused⟩ := h.linked q hq
  refine ⟨i, hi, rfl, ?_⟩
  have hij : i ≠ j := by
    rintro rfl
    exact hp hq
  simpa [freePage, pageIndex_pageAddr hj, hij] using hused

/-- **Every statement of `init_task` keeps the shape.** -/
theorem next_initStep {s : Boot} (h : Shape img s.k s.pc xs ps) :
    Next img s.k s.pc xs ps (initStep img s).k (initStep img s).pc := by
  obtain ⟨k, current, pc, todo, stack, started⟩ := s
  cases pc with
  | idle =>
      cases todo with
      | nil => exact Next.same h rfl id
      | cons fn todo => exact next_getFreePage h
  | memset fn p => exact next_memset h
  | findEmptyTask fn p => exact next_findEmptyTask h
  | copyThread fn p pid => exact next_copyThread h
  | initChild p pid n =>
      rcases next_initChild h with ⟨stmt, hstmt, hnext⟩ | ⟨hnone, hnext⟩
      · simpa [initStep, hstmt] using hnext
      · simpa [initStep, hnone] using hnext
  | setRunning p pid => exact next_setRunning h
  | listAdd p pid next n =>
      rcases next_listAdd h with ⟨store, hstore, hnext⟩ | ⟨hnone, hnext⟩
      · simpa [initStep, hstore] using hnext
      · simpa [initStep, hnone] using hnext
  | incNrRunning p pid => exact Next.same { h with child := trivial } rfl id
  | freePage p => exact next_freePage h

/-! ## Interrupts and `__schedule` -/

/-- A timer interrupt leaves `preempt_count` as it found it. -/
theorem irqHandler_eq (p : U64) (k : Kernel) : irqHandler p k = k.updTask p tickTask := by
  have hcancel : ∀ t : TaskStruct,
      t.preemptCount + hardirqOffset + -hardirqOffset = t.preemptCount :=
    fun t => Int.add_neg_cancel_right _ _
  rw [irqHandler, tickHandlePeriodic, taskTickNop_eq]
  by_cases hzero : (k.task p).counter - 1 ≤ 0
  · simp [preemptAdd, Kernel.updTask, tickTask, hzero]
  · simp [preemptAdd, Kernel.updTask, tickTask, hzero]

theorem schedulable_tickTask (t : TaskStruct) (ht : Schedulable t) : Schedulable (tickTask t) := by
  have hcounter := counter_tickTask t
  unfold tickTask at hcounter ⊢
  split
  · rw [if_pos (by assumption)] at hcounter
    exact ⟨ht.1, hcounter, ht.2.2⟩
  · rw [if_neg (by assumption)] at hcounter
    exact ⟨ht.1, hcounter, ht.2.2⟩

theorem tame_irqHandler (p : U64) (k : Kernel) : Tame k (irqHandler p k) := by
  rw [irqHandler_eq]
  exact tame_updTask schedulable_tickTask k

theorem tame_preemptAdd (val : Int) (p : U64) (k : Kernel) : Tame k (preemptAdd val p k) := by
  apply tame_updTask
  intro t ht
  exact ht

theorem tame_el1Irq (s : Boot) : Tame s.k (el1Irq s).k := by
  have htick := tame_irqHandler s.current s.k
  unfold el1Irq
  dsimp only
  split
  · exact htick
  · split
    · exact htick
    · exact htick.trans (tame_preemptAdd 1 s.current _)

/-- An interrupted task with no more than its last tick is preempted, if nothing forbids it. -/
theorem el1Irq_exhausted {s : Boot} (hpreempt : (s.k.task s.current).preemptCount = 0)
    (hcounter : (s.k.task s.current).counter ≤ 1) :
    (el1Irq s).stack s.current = .preempting :: s.stack s.current := by
  have hzero : (s.k.task s.current).counter - 1 ≤ 0 := by omega
  simp [el1Irq, irqHandler_eq, Kernel.updTask, tickTask, hzero, hpreempt]

/-- An interrupted task with ticks left goes on. -/
theorem el1Irq_unpreempted {s : Boot} (h : Unpreempted (s.k.task s.current))
    (hcounter : 2 ≤ (s.k.task s.current).counter) :
    el1Irq s = { s with k := s.k.updTask s.current fun t => { t with counter := t.counter - 1 } } := by
  have hzero : ¬ (s.k.task s.current).counter - 1 ≤ 0 := by omega
  simp [el1Irq, irqHandler_eq, Kernel.updTask, tickTask, hzero, h.1, h.2]

theorem forwardQueue_subset (h : Shape img k pc xs ps) : ∀ p ∈ forwardQueue ps pc, p ∈ xs := by
  cases pc with
  | listAdd p pid next n =>
      intro q hq
      have hmem : q ∈ p :: ps := by
        rw [forwardQueue] at hq
        split at hq
        · exact hq
        · exact List.mem_cons_of_mem _ hq
      rcases List.mem_cons.1 hmem with rfl | hq
      · exact h.child.1
      · exact h.queued q hq
  | _ => exact h.queued

theorem subset_forwardRing (pc : InitPc) : ∀ p ∈ xs, p ∈ forwardRing xs pc := by
  intro p hp
  cases pc with
  | initChild q pid n =>
      rw [forwardRing]
      split
      · exact List.mem_append_left _ hp
      · exact hp
  | _ => exact hp

/-- The code's own test for an empty queue sees what a traversal would see. -/
theorem listEmpty_iff (h : Shape img k pc xs ps) :
    listEmpty img.rqHead k.runList = true ↔ forwardQueue ps pc = [] := by
  obtain ⟨hpath, hhead⟩ := path_of_walk (h.listForEach (le_refl nrTasks))
  rw [listEmpty_of_path hpath hhead]
  exact List.map_eq_nil_iff

/-- What `__schedule` does before its `switch_to` leaves the lists alone.  With an empty queue it
gets the uninitialised local of `pick_next_task_nop`, else one of the queued tasks. -/
theorem Shape.scheduleBefore_cases {current : U64} (h : Shape img k pc xs ps)
    (hfuel : nrTasks ≤ fuel) (hcurrent : current ∈ img.initTask :: xs) :
    ∃ picked k', scheduleBefore img fuel current k = some (picked, k') ∧ Tame k k' ∧
      (forwardQueue ps pc = [] ∧ picked = none ∨
        ∃ p ∈ forwardQueue ps pc, picked = some p) := by
  have hlinked := forwardQueue_subset h
  have hsched : ∀ p ∈ forwardQueue ps pc, Schedulable (k.task p) := fun p hp =>
    h.schedulable_linked (List.mem_cons_of_mem _ (hlinked p hp))
  obtain ⟨picked, k', hbefore, hk', hpicked⟩ := Arm64OS.scheduleBefore_cases
    (h.schedulable_linked hcurrent).1 (h.listForEach hfuel) (h.forEachTask hfuel)
    (Nat.le_trans (by decide) hfuel)
    (fun p hp => subset_forwardRing pc p (hlinked p hp)) (fun p hp => (hsched p hp).2.1)
    (fun p hp => (hsched p hp).2.2)
  have htame : Tame k k' := by
    rcases hk' with rfl | rfl
    · exact Tame.refl k'
    · rw [foldl_resetCounter]
      refine ⟨rfl, rfl, rfl, rfl, fun q hq => ?_⟩
      by_cases hmem : q ∈ forwardRing xs pc
      · have hdef : defCounter = 25 := rfl
        have hpos : 0 ≤ 25 + (k.task q).priority := by
          have := hq.2.2
          omega
        simpa [hmem, Schedulable, hdef, hq.1, hq.2.2] using hpos
      · simpa [hmem] using hq
  refine ⟨picked, _, hbefore, htame.trans ?_, hpicked⟩
  apply tame_updTask
  intro t ht
  exact ht

theorem scheduleBefore_nil {current : U64} (h : Shape img k pc xs ps) (hfuel : nrTasks ≤ fuel)
    (hcurrent : current ∈ img.initTask :: xs) (hempty : forwardQueue ps pc = []) :
    ∃ k', scheduleBefore img fuel current k = some (none, k') := by
  obtain ⟨picked, k', hbefore, -, ⟨-, rfl⟩ | ⟨p, hp, rfl⟩⟩ := h.scheduleBefore_cases hfuel hcurrent
  · exact ⟨k', hbefore⟩
  · exact absurd (hempty ▸ hp) List.not_mem_nil

theorem scheduleBefore_cons {current : U64} (h : Shape img k pc xs ps) (hfuel : nrTasks ≤ fuel)
    (hcurrent : current ∈ img.initTask :: xs) (hne : forwardQueue ps pc ≠ []) :
    ∃ p ∈ xs, ∃ k', scheduleBefore img fuel current k = some (some p, k') ∧ Tame k k' := by
  obtain ⟨picked, k', hbefore, htame, ⟨hempty, -⟩ | ⟨p, hp, rfl⟩⟩ :=
    h.scheduleBefore_cases hfuel hcurrent
  · exact absurd hempty hne
  · exact ⟨p, forwardQueue_subset h p hp, k', hbefore, htame⟩

/-- The tasks of the ring are in `g_task`. -/
theorem inTable_of_linked {p : U64} (h : Shape img k pc xs ps) (hp : p ∈ xs) : InTable k p := by
  obtain ⟨i, hi, rfl⟩ := List.getElem_of_mem hp
  have hshort := h.short
  refine ⟨i + 1, by omega, ?_⟩
  have hget : xs[i]?.getD 0#64 = xs[i] := by
    rw [List.getElem?_eq_getElem hi, Option.getD_some]
  rw [h.table, List.getElem?_cons_succ]
  cases pc with
  | initChild q pid n =>
      rw [tableAt]
      split
      · rw [List.getElem?_append_left hi]
        exact hget
      · exact hget
  | _ => exact hget

/-! ## Runs -/

/-- A call of `pick_next_task_nop` made by `__schedule` returns a task of `g_task`. -/
def PicksTask (img : Image) (fuel : Nat) : BootOp → Boot → Prop
  | .schedule _, s => ∀ rest, s.stack s.current = .preempting :: rest →
      ∃ p k', scheduleBefore img fuel s.current s.k = some (some p, k') ∧ p ≠ 0#64 ∧
        InTable s.k p
  | .tick, _ => True
  | .init, _ => True
  | .finish, _ => True

/-- A timer interrupt taken while the run queue is empty finds the running task with more
than one tick left. -/
def CounterLasts (img : Image) : BootOp → Boot → Prop
  | .tick, s => listEmpty img.rqHead s.k.runList = true → 2 ≤ (s.k.task s.current).counter
  | .init, _ => True
  | .schedule _, _ => True
  | .finish, _ => True

/-- The invariant, for some lists of complete tasks. -/
def Sound (img : Image) (s : Boot) : Prop := ∃ xs ps, BootInv img s xs ps

theorem sound_start (img : Image) (fns : List U64) (k : Kernel) :
    Sound img (Boot.start img fns k) := by
  have hboot := consistent_boot img k
  refine ⟨[], [], ⟨⟨hboot.ring, hboot.queue, hboot.gTask, by decide, by simp, by simp, by simp,
    trivial, ?_⟩, by simp [Boot.start], fun _ => ⟨rfl, ?_, rfl⟩⟩⟩
  · intro q hq
    have hcounter := hboot.counter img.initTask (by simp [Sys.tasks])
    obtain rfl : q = img.initTask := by simpa [Boot.start, childOf] using hq
    simp [Schedulable, Boot.start, Kernel.boot, schedInit, Kernel.initTaskStruct, defCounter, hz]
  · simp [Unpreempted, Boot.start, Kernel.boot, schedInit, Kernel.initTaskStruct]

theorem sound_tick {s : Boot} (h : Sound img s) (hlasts : CounterLasts img .tick s) :
    Sound img (el1Irq s) := by
  obtain ⟨xs, ps, hinv⟩ := h
  have hpc : (el1Irq s).pc = s.pc ∧ (el1Irq s).current = s.current := by
    unfold el1Irq
    dsimp only
    split
    · exact ⟨rfl, rfl⟩
    · split <;> exact ⟨rfl, rfl⟩
  refine ⟨xs, ps, ⟨?_, ?_, ?_⟩⟩
  · rw [hpc.1]
    exact hinv.shape.tame (tame_el1Irq s)
  · rw [hpc.2]
    exact hinv.current
  · intro hempty
    rw [hpc.1] at hempty
    obtain ⟨hcurrent, hinit, hstack⟩ := hinv.quiet hempty
    have hticks := hlasts ((listEmpty_iff hinv.shape).2 hempty)
    rw [← hcurrent] at hinit hstack
    rw [el1Irq_unpreempted hinit hticks]
    refine ⟨hcurrent, ?_, hcurrent ▸ hstack⟩
    rw [← hcurrent]
    simpa [Kernel.updTask, Unpreempted] using hinit

theorem sound_init {s : Boot} (h : Sound img s) (hcurrent : s.current = img.initTask)
    (hstack : s.stack img.initTask = []) : Sound img (initStep img s) := by
  obtain ⟨xs, ps, hinv⟩ := h
  obtain ⟨xs', ps', hshape, hgrow, hqueue, hinit⟩ := next_initStep hinv.shape
  have hsame : (initStep img s).current = s.current ∧ (initStep img s).stack = s.stack := by
    unfold initStep
    split <;> first | exact ⟨rfl, rfl⟩ | (split <;> exact ⟨rfl, rfl⟩)
  refine ⟨xs', ps', ⟨hshape, ?_, fun hempty => ?_⟩⟩
  · rw [hsame.1, hcurrent]
    simp
  · rw [hsame.1, hsame.2]
    exact ⟨hcurrent, hinit (hinv.quiet (hqueue hempty)).2.1, hstack⟩

/-- A task that is about to call `__schedule` finds a queued task. -/
theorem BootInv.queued_of_preempting {s : Boot} {xs ps : List U64} {rest : List Phase}
    (h : BootInv img s xs ps) (hstack : s.stack s.current = .preempting :: rest) :
    forwardQueue ps s.pc ≠ [] := by
  intro hempty
  obtain ⟨hcurrent, -, hnil⟩ := h.quiet hempty
  rw [hcurrent, hnil] at hstack
  exact absurd hstack (by simp)

theorem sound_schedule {s s' : Boot} {garbage : U64} {rest : List Phase} (hfuel : nrTasks ≤ fuel)
    (h : Sound img s) (hstack : s.stack s.current = .preempting :: rest)
    (hstep : scheduleStep img fuel garbage s = some s') : Sound img s' := by
  obtain ⟨xs, ps, hinv⟩ := h
  have hne := hinv.queued_of_preempting hstack
  obtain ⟨p, hp, k', hbefore, htame⟩ :=
    scheduleBefore_cons hinv.shape hfuel hinv.current hne
  have hshape := hinv.shape.tame htame
  have hafter : Tame k' (scheduleAfter p k') := ⟨rfl, rfl, rfl, rfl, fun _ => id⟩
  simp only [scheduleStep, hbefore, Option.bind_eq_bind, Option.bind_some, Option.getD_some]
    at hstep
  split at hstep
  · obtain rfl := Option.some.inj hstep
    exact ⟨xs, ps, hshape, hinv.current, fun hempty => absurd hempty hne⟩
  · split at hstep
    · obtain rfl := Option.some.inj hstep
      exact ⟨xs, ps, hshape.tame hafter, List.mem_cons_of_mem _ hp, fun hempty => absurd hempty hne⟩
    · split at hstep
      · obtain rfl := Option.some.inj hstep
        exact ⟨xs, ps, hshape, List.mem_cons_of_mem _ hp, fun hempty => absurd hempty hne⟩
      · exact absurd hstep (by simp)

theorem sound_finish {s s' : Boot} (h : Sound img s)
    (hstep : bootStep img fuel .finish s = some s') : Sound img s' := by
  obtain ⟨xs, ps, hinv⟩ := h
  simp only [bootStep] at hstep
  split at hstep
  · rename_i rest hstack
    obtain rfl := Option.some.inj hstep
    refine ⟨xs, ps, hinv.shape.tame (tame_preemptAdd _ _ _), hinv.current, fun hempty => ?_⟩
    obtain ⟨hcurrent, -, hnil⟩ := hinv.quiet hempty
    rw [hcurrent, hnil] at hstack
    exact absurd hstack (by simp)
  · exact absurd hstep (by simp)

/-- **The step lemma.** -/
theorem sound_step (hfuel : nrTasks ≤ fuel) (op : BootOp) (s s' : Boot) (h : Sound img s)
    (hlasts : CounterLasts img op s) (hstep : bootStep img fuel op s = some s') : Sound img s' := by
  cases op with
  | tick =>
      obtain rfl := Option.some.inj hstep
      exact sound_tick h hlasts
  | init =>
      simp only [bootStep] at hstep
      split at hstep
      · rename_i henabled
        obtain rfl := Option.some.inj hstep
        exact sound_init h henabled.1 henabled.2
      · exact absurd hstep (by simp)
  | schedule garbage =>
      simp only [bootStep] at hstep
      split at hstep
      · rename_i rest hstack
        exact sound_schedule hfuel h hstack hstep
      · exact absurd hstep (by simp)
  | finish => exact sound_finish h hstep

theorem picksTask_of_sound (hfuel : nrTasks ≤ fuel) (op : BootOp) (s : Boot) (h : Sound img s) :
    PicksTask img fuel op s := by
  cases op with
  | tick => trivial
  | init => trivial
  | schedule garbage =>
      intro rest hstack
      obtain ⟨xs, ps, hinv⟩ := h
      obtain ⟨p, hp, k', hbefore, -⟩ :=
        scheduleBefore_cons hinv.shape hfuel hinv.current (hinv.queued_of_preempting hstack)
      obtain ⟨j, hj, rfl, -⟩ := hinv.shape.linked p hp
      exact ⟨pageAddr j, k', hbefore, pageAddr_ne_zero hj, inTable_of_linked hinv.shape hp⟩
  | finish => trivial

/-- **When `pick_next_task_nop` is safe.**  In every run of `start_kernel` in which no timer
interrupt finds the run queue empty and the running task with at most one tick left, every
call of `pick_next_task_nop` returns a task of `g_task`. -/
theorem picksTask_run (hfuel : nrTasks ≤ fuel) (fns : List U64) (k : Kernel) (ops : List BootOp)
    (hlasts : Run.Along (bootStep img fuel) (CounterLasts img) ops (Boot.start img fns k)) :
    Run.Along (bootStep img fuel) (PicksTask img fuel) ops (Boot.start img fns k) :=
  Run.along_of_invariant (sound_step hfuel) (fun op s h _ => picksTask_of_sound hfuel op s h)
    (sound_start img fns k) hlasts

instance (img : Image) (s : Boot) : ∀ op, Decidable (CounterLasts img op s)
  | .tick => inferInstanceAs (Decidable (listEmpty img.rqHead s.k.runList = true →
      2 ≤ (s.k.task s.current).counter))
  | .init | .schedule _ | .finish => isTrue trivial

/-- A fork with a timer interrupt inside of it, and ticks until `init_task` is preempted. -/
def forkAndPreempt : List BootOp :=
  List.replicate 10 .init ++ .tick :: List.replicate 15 .init ++ List.replicate 24 .tick ++
    [.schedule 0]

theorem picksTask_run_forking :
    Run.Along (bootStep Image.sample nrTasks) (PicksTask Image.sample nrTasks) forkAndPreempt
        (Boot.start Image.sample [0x82000, 0x83000] Kernel.blank) ∧
      (Run.exec (bootStep Image.sample nrTasks) forkAndPreempt
        (Boot.start Image.sample [0x82000, 0x83000] Kernel.blank)).map Boot.current =
          some (pageAddr 0) := by
  refine ⟨picksTask_run le_rfl [0x82000, 0x83000] Kernel.blank forkAndPreempt ?_, ?_⟩
  · decide +kernel
  · decide +kernel

/-- The condition cannot be weakened: a run that first breaks it goes wrong at the next call
of `__schedule`. -/
theorem not_picksTask_of_exhausted (hfuel : nrTasks ≤ fuel) {s : Boot} (h : Sound img s)
    (hexhausted : ¬ CounterLasts img .tick s) (garbage : U64) :
    ¬ PicksTask img fuel (.schedule garbage) (el1Irq s) := by
  obtain ⟨xs, ps, hinv⟩ := h
  simp only [CounterLasts, not_forall] at hexhausted
  obtain ⟨hempty, hticks⟩ := hexhausted
  rw [listEmpty_iff hinv.shape] at hempty
  obtain ⟨hcurrent, hinit, -⟩ := hinv.quiet hempty
  rw [← hcurrent] at hinit
  have hstack := el1Irq_exhausted hinit.2 (by omega)
  have hsame : (el1Irq s).current = s.current := by
    unfold el1Irq
    dsimp only
    split
    · rfl
    · split <;> rfl
  intro hpicks
  obtain ⟨p, k', hpick, -, -⟩ := hpicks _ (by rw [hsame]; exact hstack)
  rw [hsame] at hpick
  obtain ⟨k'', hnone⟩ := scheduleBefore_nil (hinv.shape.tame (tame_el1Irq s)) hfuel
    hinv.current hempty
  rw [hnone] at hpick
  exact absurd hpick (by simp)

/-- `init_task` while only timer interrupts come. -/
theorem exec_ticks (img : Image) (fuel : Nat) (fns : List U64) (k : Kernel) {n : Nat}
    (hn : n ≤ 24) :
    ∃ s, Run.exec (bootStep img fuel) (List.replicate n .tick) (Boot.start img fns k) = some s ∧
      Sound img s ∧ listEmpty img.rqHead s.k.runList = true ∧ s.current = img.initTask ∧
      Unpreempted (s.k.task img.initTask) ∧ (s.k.task img.initTask).counter = 25 - n := by
  induction n with
  | zero =>
      have hsound := sound_start img fns k
      have hempty : listEmpty img.rqHead (Boot.start img fns k).k.runList = true := by
        simp [listEmpty, Boot.start, Kernel.boot, schedInit, initListHead]
      refine ⟨_, rfl, hsound, hempty, rfl, ?_, ?_⟩
      · simp [Unpreempted, Boot.start, Kernel.boot, schedInit, Kernel.initTaskStruct]
      · simp [Boot.start, Kernel.boot, schedInit, Kernel.initTaskStruct, defCounter, hz]
  | succ n ih =>
      obtain ⟨s, hrun, hsound, hempty, hcurrent, hinit, hcounter⟩ := ih (by omega)
      have hlasts : CounterLasts img .tick s := by
        intro _
        rw [hcurrent, hcounter]
        omega
      have htick : el1Irq s =
          { s with k := s.k.updTask s.current fun t => { t with counter := t.counter - 1 } } :=
        el1Irq_unpreempted (hcurrent ▸ hinit) (hlasts hempty)
      refine ⟨el1Irq s, ?_, sound_tick hsound hlasts, ?_, ?_, ?_, ?_⟩
      · rw [List.replicate_succ', Run.exec_append, hrun]
        rfl
      · rw [htick]
        exact hempty
      · rw [htick]
        exact hcurrent
      · rw [htick]
        simpa [Kernel.updTask, hcurrent, Unpreempted] using hinit
      · rw [htick]
        simp only [Kernel.updTask, hcurrent, Function.update_self, hcounter]
        omega

/-- Twenty-five timer interrupts before the first fork, then `__schedule`: the queue is empty
and the task picked is an uninitialised pointer. -/
theorem picks_before_first_fork :
    ¬ ∀ ops, Run.Along (bootStep Image.sample nrTasks) (PicksTask Image.sample nrTasks) ops
      (Boot.start Image.sample [0x82000, 0x83000] Kernel.blank) := by
  intro hall
  obtain ⟨s, hrun, hsound, hempty, hcurrent, -, hcounter⟩ :=
    exec_ticks Image.sample nrTasks [0x82000, 0x83000] Kernel.blank (n := 24) le_rfl
  have hexhausted : ¬ CounterLasts Image.sample .tick s := by
    intro hlasts
    have hticks := hlasts hempty
    rw [hcurrent, hcounter] at hticks
    exact absurd hticks (by decide)
  have hrun' : Run.exec (bootStep Image.sample nrTasks) (List.replicate 24 .tick ++ [.tick])
      (Boot.start Image.sample [0x82000, 0x83000] Kernel.blank) = some (el1Irq s) := by
    rw [Run.exec_append, hrun]
    rfl
  exact not_picksTask_of_exhausted le_rfl hsound hexhausted 0
    ((hall (List.replicate 24 .tick ++ [.tick] ++ [.schedule 0])).at_step hrun')

end Arm64OS
