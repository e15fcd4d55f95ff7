import Arm64OS.Kernel.SchedNop

/-!
# Lists between two stores

`enqueue_task_nop` and `SET_LINKS` are not atomic: an interrupt may find the run queue or the
task ring with the first stores of the edit done.  Read forwards, such a heap is still a list
(`forward_setLinks`, `forward_listAdd`), and forwards is how `reset_score` and
`pick_next_task_nop` read it.
-/

namespace Arm64OS

open Ring

variable {img : Image} {fuel n : Nat} {p : U64} {k : Kernel} {ps ts : List U64}

/-! ## Half-done edits -/

/-- The first `m` stores of `SET_LINKS`: a forward traversal sees the new task from the third
store on. -/
theorem forward_setLinks {p : U64} {h : ListHeap} {xs : List U64} {m : Nat}
    (hl : h.IsList img.initTask xs) (hp : p ∉ img.initTask :: xs) (hm : m ≤ 4) :
    Path (((setLinksStores img p).take m).foldl (fun h store => store h) h).nextOf
      img.initTask (if 3 ≤ m then xs ++ [p] else xs) img.initTask := by
  have hne : ∀ n ∈ img.initTask :: xs, n ≠ p := fun n hn he => hp (he ▸ hn)
  by_cases hthree : 3 ≤ m
  · rw [if_pos hthree]
    refine (isList_setLinks hl hp).path.congr fun n _ => ?_
    -- the fourth store is a `prev` pointer
    obtain rfl | rfl : m = 3 ∨ m = 4 := by omega
    · simp [setLinks, setLinksStores]
    · rfl
  · rw [if_neg hthree]
    refine hl.path.congr fun n hn => ?_
    obtain rfl | rfl | rfl : m = 0 ∨ m = 1 ∨ m = 2 := by omega
    all_goals simp [setLinksStores, hne n hn]

/-- The first `m` stores of `__list_add`: a forward traversal sees the new node after the
last of them. -/
theorem forward_listAdd {new head next : U64} {h : ListHeap} {xs : List U64} {m : Nat}
    (hl : h.IsList head xs) (hnew : new ∉ head :: xs) (hnext : next = h.nextOf head) (hm : m ≤ 4) :
    Path (((listAddStores new head next).take m).foldl (fun h store => store h) h).nextOf
      head (if 4 ≤ m then new :: xs else xs) head := by
  have hne : ∀ n ∈ head :: xs, n ≠ new := fun n hn he => hnew (he ▸ hn)
  by_cases hfour : 4 ≤ m
  · obtain rfl : m = 4 := by omega
    rw [if_pos hfour, hnext]
    exact (isList_listAdd hl hnew).path
  · rw [if_neg hfour]
    refine hl.path.congr fun n hn => ?_
    obtain rfl | rfl | rfl | rfl : m = 0 ∨ m = 1 ∨ m = 2 ∨ m = 3 := by omega
    all_goals simp [listAddStores, hne n hn]

/-! ## The two edits as statements -/

/-- The statements of `enqueue_task_nop`, called in the state `k`. -/
def enqueueStmts (img : Image) (p : U64) (k : Kernel) : List Stmt :=
  (listAddStores (runListOf p) img.rqHead (k.runList.nextOf img.rqHead)).map onRunList ++
    [fun k => { k with nrRunning := k.nrRunning + 1 }]

/-- The statements of `SET_LINKS`. -/
def setLinksStmts (img : Image) (p : U64) : List Stmt := (setLinksStores img p).map onRing

theorem runStmts_onRunList (stores : List (ListHeap → ListHeap)) (k : Kernel) :
    runStmts (stores.map onRunList) k =
      { k with runList := stores.foldl (fun h store => store h) k.runList } := by
  induction stores generalizing k with
  | nil => rfl
  | cons store stores ih => exact ih (onRunList store k)

/-- The statements of `enqueue_task_nop` are the whole of it. -/
theorem runStmts_enqueueStmts (img : Image) (p : U64) (k : Kernel) :
    runStmts (enqueueStmts img p k) k = enqueueTaskNop img p k := by
  rw [enqueueStmts, runStmts_append, runStmts_onRunList]
  rfl

/-- Its counter apart, `enqueue_task_nop` is between two stores of `list_add`, or behind them. -/
theorem runStmts_take_enqueueStmts (img : Image) (p : U64) (k : Kernel) (n : Nat) :
    ∃ m, m ≤ 4 ∧
      (runStmts ((enqueueStmts img p k).take n) k).runList =
        ((listAddStores (runListOf p) img.rqHead (k.runList.nextOf img.rqHead)).take m).foldl
          (fun h store => store h) k.runList ∧
      (runStmts ((enqueueStmts img p k).take n) k).ring = k.ring := by
  have hlength : ((listAddStores (runListOf p) img.rqHead
      (k.runList.nextOf img.rqHead)).map onRunList).length = 4 := rfl
  rw [enqueueStmts]
  by_cases hn : n ≤ 4
  · rw [List.take_append_of_le_length (hlength ▸ hn), ← List.map_take, runStmts_onRunList]
    exact ⟨n, hn, rfl, rfl⟩
  · rw [List.take_of_length_le (by rw [List.length_append, hlength]; simp; omega), ← enqueueStmts,
      runStmts_enqueueStmts]
    exact ⟨4, le_rfl, rfl, rfl⟩

/-! ## What an interrupt sees -/

/-- The loops of `pick_next_task_nop` and `reset_score` stop, having visited the tasks `ps` of the
run queue and the tasks `ts` of the ring, each of them once. -/
structure Visits (img : Image) (fuel : Nat) (k : Kernel) (ps ts : List U64) : Prop where
  queue : listForEach fuel img.rqHead k.runList = some (ps.map runListOf)
  ring : forEachTask img fuel k = some ts
  queue_nodup : ps.Nodup
  ring_nodup : ts.Nodup

/-- What the two loops need: the `next` pointers lead around. -/
structure Forward (img : Image) (k : Kernel) (ps ts : List U64) : Prop where
  queue : Path k.runList.nextOf img.rqHead (ps.map runListOf) img.rqHead
  queue_nodup : (img.rqHead :: ps.map runListOf).Nodup
  ring : Path k.ring.nextOf img.initTask ts img.initTask
  ring_nodup : (img.initTask :: ts).Nodup

theorem Forward.visits (h : Forward img k ps ts) (hqueue : ps.length ≤ fuel)
    (hring : ts.length ≤ fuel) : Visits img fuel k ps ts where
  queue := h.queue.walk_eq (List.nodup_cons.1 h.queue_nodup).1 (by rwa [List.length_map])
  ring := h.ring.walk_eq (List.nodup_cons.1 h.ring_nodup).1 hring
  queue_nodup := (List.nodup_cons.1 h.queue_nodup).2.of_map
  ring_nodup := (List.nodup_cons.1 h.ring_nodup).2

/-- Between two statements of `enqueue_task_nop`. -/
theorem forward_enqueueStmts (hqueue : k.runList.IsList img.rqHead (ps.map runListOf))
    (hring : k.ring.IsList img.initTask ts) (hnew : runListOf p ∉ img.rqHead :: ps.map runListOf)
    (n : Nat) :
    Forward img (runStmts ((enqueueStmts img p k).take n) k) ps ts ∨
      Forward img (runStmts ((enqueueStmts img p k).take n) k) (p :: ps) ts := by
  obtain ⟨m, hm, hrunList, hsame⟩ := runStmts_take_enqueueStmts img p k n
  have hpath := forward_listAdd hqueue hnew rfl hm
  rw [← hrunList] at hpath
  have hringPath : Path (runStmts ((enqueueStmts img p k).take n) k).ring.nextOf img.initTask ts
      img.initTask := by
    rw [hsame]
    exact hring.path
  by_cases hfour : 4 ≤ m
  · rw [if_pos hfour] at hpath
    exact Or.inr ⟨hpath, (isList_listAdd hqueue hnew).nodup, hringPath, hring.nodup⟩
  · rw [if_neg hfour] at hpath
    exact Or.inl ⟨hpath, hqueue.nodup, hringPath, hring.nodup⟩

/-- Between two statements of `SET_LINKS`. -/
theorem forward_setLinksStmts (hqueue : k.runList.IsList img.rqHead (ps.map runListOf))
    (hring : k.ring.IsList img.initTask ts) (hnew : p ∉ img.initTask :: ts) (n : Nat) :
    Forward img (runStmts ((setLinksStmts img p).take n) k) ps ts ∨
      Forward img (runStmts ((setLinksStmts img p).take n) k) ps (ts ++ [p]) := by
  have htake : (setLinksStores img p).take n = (setLinksStores img p).take (min n 4) := by
    rw [List.take_eq_take_iff]
    simp [setLinksStores]
  have hpath := forward_setLinks hring hnew (min_le_right n 4)
  rw [setLinksStmts, ← List.map_take, runStmts_onRing, htake]
  by_cases hthree : 3 ≤ min n 4
  · rw [if_pos hthree] at hpath
    exact Or.inr ⟨hqueue.path, hqueue.nodup, hpath, (isList_setLinks hring hnew).nodup⟩
  · rw [if_neg hthree] at hpath
    exact Or.inl ⟨hqueue.path, hqueue.nodup, hpath, hring.nodup⟩

/-- **A half-done edit is not seen.**  At every point of `enqueue_task_nop` and of `SET_LINKS`, the
traversals of `pick_next_task_nop` and `reset_score` stop, and visit the tasks that were in the
list before, each once, or these and the new task. -/
theorem visits_between_stores (hqueue : k.runList.IsList img.rqHead (ps.map runListOf))
    (hring : k.ring.IsList img.initTask ts) (hps : ps.length < fuel) (hts : ts.length < fuel)
    (n : Nat) :
    (runListOf p ∉ img.rqHead :: ps.map runListOf →
      Visits img fuel (runStmts ((enqueueStmts img p k).take n) k) ps ts ∨
        Visits img fuel (runStmts ((enqueueStmts img p k).take n) k) (p :: ps) ts) ∧
    (p ∉ img.initTask :: ts →
      Visits img fuel (runStmts ((setLinksStmts img p).take n) k) ps ts ∨
        Visits img fuel (runStmts ((setLinksStmts img p).take n) k) ps (ts ++ [p])) := by
  constructor
  · intro hnew
    rcases forward_enqueueStmts hqueue hring hnew n with hold | hlinked
    · exact Or.inl (hold.visits hps.le hts.le)
    · exact Or.inr (hlinked.visits hps hts.le)
  · intro hnew
    rcases forward_setLinksStmts hqueue hring hnew n with hold | hlinked
    · exact Or.inl (hold.visits hps.le hts.le)
    · exact Or.inr (hlinked.visits hps.le (by simpa using hts))

/-- The first fork of `init_task`, whose `SET_LINKS` has set the pointer behind the last task and
not yet the one back. -/
theorem visits_between_first_stores :
    Visits Image.sample 1 (runStmts ((setLinksStmts Image.sample (pageAddr 0)).take 3)
        (Kernel.boot Image.sample Kernel.blank)) [] [] ∨
      Visits Image.sample 1 (runStmts ((setLinksStmts Image.sample (pageAddr 0)).take 3)
        (Kernel.boot Image.sample Kernel.blank)) [] [pageAddr 0] :=
  (visits_between_stores (isList_initListHead _ _)
    (isRing_nil (by simp [Kernel.boot, schedInit, ListHeap.nextOf])
      (by simp [Kernel.boot, schedInit, ListHeap.prevOf]))
    Nat.one_pos Nat.one_pos 3).2 (by decide)

end Arm64OS
