import Arm64OS.Kernel.SchedRun
import Arm64OS.Lib.Claim

/-!
# Two calls of `do_fork` at once

`do_fork` with interrupts enabled can be preempted anywhere, and another task can call it
meanwhile.  A call is taken apart into its single reads and writes of `mem_map`, of `g_task`,
of `init_task.prev_task` and of the run queue; what it does to its own page is one step for
each stretch of the source.  The scheduler reads these structures between two steps, and
writes none of them while the tasks that fork are running ones.  `exec_doFork` says that a
call whose steps are not interrupted is `do_fork`.
-/

namespace Arm64OS

/-- Where a call of `do_fork` stands: what it does next. -/
inductive Pc
  /-- `mem_map[i] == 0` -/
  | scan (i : Nat)
  /-- `mem_map[i] = 1` -/
  | mark (i : Nat)
  /-- `memset(p, 0, sizeof(*p))` -/
  | clear
  /-- `!g_task[i]` -/
  | slot (i : Nat)
  | copyThread
  /-- `free_page(p)` -/
  | freePage
  /-- the assignments behind `copy_thread` -/
  | fields
  /-- `g_task[pid] = p` -/
  | publish
  /-- `(p)->next_task = &init_task` -/
  | linkNext
  /-- the read of `init_task.prev_task` for `(p)->prev_task` -/
  | readPrev
  /-- `(p)->prev_task = link` -/
  | linkPrev
  /-- the second read of `init_task.prev_task` -/
  | readLast
  /-- `link->next_task = (p)` -/
  | linkLast
  /-- `init_task.prev_task = (p)` -/
  | linkHead
  /-- `p->state = TASK_RUNNING` -/
  | wake
  /-- the read of `rq_head.next` in `list_add` -/
  | readFirst
  /-- the stores of `__list_add` from the `n`th on, then `nr_running++` -/
  | add (n : Nat)
  /-- `return pid` -/
  | returned
  /-- `return -1` -/
  | failed
  deriving DecidableEq

/-- The caller and the arguments of a call. -/
structure ForkArgs where
  current : U64
  cloneFlags : U64
  stack : U64
  arg : U64

/-- A call of `do_fork`, with its local variables. -/
structure ForkCall where
  args : ForkArgs
  pc : Pc
  p : U64
  pid : Nat
  /-- the pointer that it has read last -/
  link : U64

def ForkCall.start (args : ForkArgs) : ForkCall := ⟨args, .scan 0, 0, 0, 0⟩

def ForkCall.goto (pc : Pc) (f : ForkCall) : ForkCall := { f with pc := pc }

/-- The stores of `list_add` in `enqueue_task_nop`. -/
def ForkCall.addStores (img : Image) (f : ForkCall) : List (ListHeap → ListHeap) :=
  listAddStores (runListOf f.p) img.rqHead f.link

/-- One step of a call. -/
def forkStep (img : Image) (f : ForkCall) (k : Kernel) : ForkCall × Kernel :=
  match f.pc with
  | .scan i =>
      if i < nrPages then (f.goto (if k.memMap i = 0#8 then .mark i else .scan (i + 1)), k)
      else (f.goto .failed, k)
  | .mark i =>
      ({ f with pc := .clear, p := pageAddr i },
        { k with memMap := Function.update k.memMap i 1#8 })
  | .clear => (f.goto (.slot 0), k.memsetTask f.p)
  | .slot i =>
      if i < nrTasks then
        if k.gTask i = 0#64 then ({ f with pc := .copyThread, pid := i }, k)
        else (f.goto (.slot (i + 1)), k)
      else (f.goto .freePage, k)
  | .copyThread =>
      let (err, k) := copyThread img f.args.current f.args.cloneFlags f.p f.args.stack f.args.arg k
      if err ≠ 0 then (f.goto .freePage, freeTask f.p k) else (f.goto .fields, k)
  | .freePage => (f.goto .failed, { k with memMap := freePage f.p k.memMap })
  | .fields => (f.goto .publish, runStmts (initFields f.args.current f.p f.pid).dropLast k)
  | .publish => (f.goto .linkNext, { k with gTask := Function.update k.gTask f.pid f.p })
  | .linkNext => (f.goto .readPrev, { k with ring := setNext f.p img.initTask k.ring })
  | .readPrev => ({ f with pc := .linkPrev, link := k.ring.prevOf img.initTask }, k)
  | .linkPrev => (f.goto .readLast, { k with ring := setPrev f.p f.link k.ring })
  | .readLast => ({ f with pc := .linkLast, link := k.ring.prevOf img.initTask }, k)
  | .linkLast => (f.goto .linkHead, { k with ring := setNext f.link f.p k.ring })
  | .linkHead => (f.goto .wake, { k with ring := setPrev img.initTask f.p k.ring })
  | .wake => (f.goto .readFirst, k.updTask f.p fun t => { t with state := .running })
  | .readFirst => ({ f with pc := .add 0, link := k.runList.nextOf img.rqHead }, k)
  | .add n =>
      match (f.addStores img)[n]? with
      | some store => (f.goto (.add (n + 1)), { k with runList := store k.runList })
      | none => (f.goto .returned, { k with nrRunning := k.nrRunning + 1 })
  | .returned | .failed => (f, k)

/-- The kernel, and the two calls. -/
structure Race where
  k : Kernel
  call : Bool → ForkCall

def Race.start (k : Kernel) (args : Bool → ForkArgs) : Race := ⟨k, fun who => .start (args who)⟩

/-- One of the two takes a step. -/
def raceStep (img : Image) (who : Bool) (s : Race) : Option Race :=
  let (f, k) := forkStep img (s.call who) s.k
  some { k := k, call := Function.update s.call who f }

/-! ## A call that is not interrupted -/

/-- Steps of one call, with nothing in between. -/
def ForkLeads (img : Image) (s t : ForkCall × Kernel) : Prop :=
  ∃ n, (fun s => forkStep img s.1 s.2)^[n] s = t

section Alone

variable {img : Image} {f : ForkCall} {k : Kernel} {s t u : ForkCall × Kernel}

theorem ForkLeads.trans (h : ForkLeads img s t) (h' : ForkLeads img t u) : ForkLeads img s u := by
  obtain ⟨n, rfl⟩ := h
  obtain ⟨m, rfl⟩ := h'
  exact ⟨m + n, Function.iterate_add_apply ..⟩

theorem forkLeads_one (h : forkStep img f k = t) : ForkLeads img (f, k) t := ⟨1, h⟩

/-- A search that comes to `j`. -/
theorem forkLeads_search {pc : Nat → Pc} {j : Nat}
    (h : ∀ m, m < j → forkStep img (f.goto (pc m)) k = (f.goto (pc (m + 1)), k)) :
    ForkLeads img (f.goto (pc 0), k) (f.goto (pc j), k) := by
  induction j with
  | zero => exact ⟨0, rfl⟩
  | succ j ih =>
      exact (ih fun m hm => h m (Nat.lt_succ_of_lt hm)).trans (forkLeads_one (h j j.lt_succ_self))

theorem forkLeads_scan (img : Image) (f : ForkCall) {j : Nat} (hj : j ≤ nrPages) (hused : ∀ m, m < j → k.memMap m ≠ 0#8) :
    ForkLeads img (f.goto (.scan 0), k) (f.goto (.scan j), k) := by
  refine forkLeads_search fun m hm => ?_
  have hlt : m < nrPages := Nat.lt_of_lt_of_le hm hj
  simp [forkStep, ForkCall.goto, hlt, hused m hm]

theorem forkLeads_slot (img : Image) (f : ForkCall) {j : Nat} (hj : j ≤ nrTasks) (hused : ∀ m, m < j → k.gTask m ≠ 0#64) :
    ForkLeads img (f.goto (.slot 0), k) (f.goto (.slot j), k) := by
  refine forkLeads_search fun m hm => ?_
  have hlt : m < nrTasks := Nat.lt_of_lt_of_le hm hj
  simp [forkStep, ForkCall.goto, hlt, hused m hm]

theorem forkLeads_fields (img : Image) (f : ForkCall) (k : Kernel) :
    ForkLeads img (f.goto .fields, k)
      (f.goto .linkNext, runStmts (initFields f.args.current f.p f.pid) k) := by
  have hlast : initFields f.args.current f.p f.pid = (initFields f.args.current f.p f.pid).dropLast ++
      [fun k => { k with gTask := Function.update k.gTask f.pid f.p }] := rfl
  rw [hlast, runStmts_append]
  exact (forkLeads_one rfl).trans (forkLeads_one (f := f.goto .publish) rfl)

theorem forkLeads_setLinks (img : Image) (f : ForkCall) (k : Kernel) :
    ∃ link, ForkLeads img (f.goto .linkNext, k)
      ({ f with pc := .wake, link := link }, runStmts ((setLinksStores img f.p).map onRing) k) :=
  ⟨_, 6, rfl⟩

theorem forkLeads_wake (img : Image) (f : ForkCall) (k : Kernel) :
    ∃ link, ForkLeads img (f.goto .wake, k)
      ({ f with pc := .returned, link := link }, wakeUpProcess img f.p k) :=
  ⟨_, 7, rfl⟩

/-- The search of `get_free_page`. -/
theorem forkLeads_getFreePage (img : Image) (args : ForkArgs) (k : Kernel) :
    (∃ j, j < nrPages ∧ getFreePage k.memMap = (pageAddr j, Function.update k.memMap j 1#8) ∧
      ForkLeads img (.start args, k) ({ ForkCall.start args with pc := .clear, p := pageAddr j },
        { k with memMap := Function.update k.memMap j 1#8 })) ∨
    (getFreePage k.memMap = (0#64, k.memMap) ∧
      ForkLeads img (.start args, k) ((ForkCall.start args).goto .failed, k)) := by
  rcases getFreePage_cases k.memMap with ⟨j, hj, hfree, hmin, hget⟩ | ⟨hfull, hget⟩
  · refine Or.inl ⟨j, hj, hget, ?_⟩
    have hscan := forkLeads_scan img (.start args) (Nat.le_of_lt hj) hmin
    have hfound : forkStep img ((ForkCall.start args).goto (.scan j)) k =
        ((ForkCall.start args).goto (.mark j), k) := by
      simp [forkStep, ForkCall.goto, hj, hfree]
    exact (hscan.trans (forkLeads_one hfound)).trans (forkLeads_one rfl)
  · refine Or.inr ⟨hget, ?_⟩
    have hscan := forkLeads_scan img (.start args) (Nat.le_refl nrPages) hfull
    exact hscan.trans (forkLeads_one rfl)

/-- The search of `find_empty_task`, which gives the page back where it finds nothing. -/
theorem forkLeads_findEmptyTask (img : Image) (f : ForkCall) (k : Kernel) :
    (findEmptyTask k.gTask < 0 ∧ ForkLeads img (f.goto (.slot 0), k)
      (f.goto .failed, { k with memMap := freePage f.p k.memMap })) ∨
    ∃ pid : Nat, findEmptyTask k.gTask = pid ∧
      ForkLeads img (f.goto (.slot 0), k) ({ f with pc := .copyThread, pid := pid }, k) := by
  rcases findEmptyTask_cases k.gTask with ⟨pid, hpid, hslot, hmin, hfind⟩ | ⟨hslots, hfind⟩
  · refine Or.inr ⟨pid, hfind, ?_⟩
    have hsearch := forkLeads_slot img f (Nat.le_of_lt hpid) hmin
    have hfound : forkStep img (f.goto (.slot pid)) k =
        ({ f with pc := .copyThread, pid := pid }, k) := by
      simp [forkStep, ForkCall.goto, hpid, hslot]
    exact hsearch.trans (forkLeads_one hfound)
  · refine Or.inl ⟨by omega, ?_⟩
    have hsearch := forkLeads_slot img f (Nat.le_refl nrTasks) hslots
    have hnone : forkStep img (f.goto (.slot nrTasks)) k = (f.goto .freePage, k) := rfl
    exact (hsearch.trans (forkLeads_one hnone)).trans (forkLeads_one rfl)

/-- From `copy_thread` to the end. -/
theorem forkLeads_copyThread (img : Image) (f : ForkCall) (k : Kernel) {err : Int} {k' : Kernel}
    (hcopy : copyThread img f.args.current f.args.cloneFlags f.p f.args.stack f.args.arg k =
      (err, k')) :
    (err ≠ 0 ∧ ForkLeads img (f.goto .copyThread, k)
      (f.goto .failed, { k' with memMap := freePage f.p k'.memMap })) ∨
    err = 0 ∧ ∃ link, ForkLeads img (f.goto .copyThread, k)
      ({ f with pc := .returned, link := link },
        wakeUpProcess img f.p (runStmts (initChild img f.args.current f.p f.pid) k')) := by
  by_cases herr : err = 0
  · refine Or.inr ⟨herr, ?_⟩
    have hcopied : forkStep img (f.goto .copyThread) k = (f.goto .fields, k') := by
      simp [forkStep, ForkCall.goto, hcopy, herr]
    obtain ⟨link, hlinks⟩ := forkLeads_setLinks img f
      (runStmts (initFields f.args.current f.p f.pid) k')
    obtain ⟨link', hwake⟩ := forkLeads_wake img { f with link := link }
      (runStmts ((setLinksStores img f.p).map onRing)
        (runStmts (initFields f.args.current f.p f.pid) k'))
    rw [initChild, runStmts_append]
    exact ⟨link', (((forkLeads_one hcopied).trans (forkLeads_fields img f k')).trans hlinks).trans
      hwake⟩
  · refine Or.inl ⟨herr, ?_⟩
    have hfreed : forkStep img (f.goto .copyThread) k = (f.goto .freePage, k') := by
      simp [forkStep, ForkCall.goto, hcopy, herr, freeTask]
    exact (forkLeads_one hfreed).trans (forkLeads_one rfl)

theorem forkLeads_doFork (img : Image) (args : ForkArgs) {k k' : Kernel} {ret : Int}
    (hfork : doFork img args.current args.cloneFlags args.stack args.arg k = (ret, k')) :
    ∃ f, ForkLeads img (.start args, k) (f, k') ∧
      (f.pc = .returned ∧ ret = f.pid ∨ f.pc = .failed ∧ ret = -1) := by
  rcases forkLeads_getFreePage img args k with ⟨j, hj, hget, hpage⟩ | ⟨hget, hfull⟩
  · have hne := pageAddr_ne_zero hj
    obtain ⟨k₀, hk₀, -⟩ := exists_cleared j k
    have hcleared : ForkLeads img (.start args, k)
        (ForkCall.goto (.slot 0) ⟨args, .clear, pageAddr j, 0, 0⟩, k₀) := by
      rw [← hk₀]
      exact hpage.trans (forkLeads_one rfl)
    simp only [doFork, hget, hne, hk₀, if_false] at hfork
    rcases forkLeads_findEmptyTask img ⟨args, .clear, pageAddr j, 0, 0⟩ k₀ with
      ⟨hneg, hslots⟩ | ⟨pid, hpid, hslot⟩
    · rw [if_pos hneg] at hfork
      obtain ⟨rfl, rfl⟩ := Prod.mk.inj hfork
      exact ⟨_, hcleared.trans hslots, Or.inr ⟨rfl, rfl⟩⟩
    · have hpos : ¬ (pid : Int) < 0 := by omega
      rw [hpid, if_neg hpos] at hfork
      obtain ⟨err, k₁, hcopy⟩ : ∃ err k₁, copyThread img args.current args.cloneFlags (pageAddr j)
        args.stack args.arg k₀ = (err, k₁) := ⟨_, _, rfl⟩
      simp only [hcopy] at hfork
      rcases forkLeads_copyThread img ⟨args, .copyThread, pageAddr j, pid, 0⟩ k₀ hcopy with
        ⟨herr, hend⟩ | ⟨rfl, link, hend⟩
      · rw [if_pos herr] at hfork
        obtain ⟨rfl, rfl⟩ := Prod.mk.inj hfork
        exact ⟨_, (hcleared.trans hslot).trans hend, Or.inr ⟨rfl, rfl⟩⟩
      · rw [if_neg (by decide)] at hfork
        obtain ⟨rfl, rfl⟩ := Prod.mk.inj hfork
        exact ⟨_, (hcleared.trans hslot).trans hend, Or.inl ⟨rfl, rfl⟩⟩
  · simp only [doFork, hget, if_true] at hfork
    obtain ⟨rfl, rfl⟩ := Prod.mk.inj hfork
    exact ⟨_, hfull, Or.inr ⟨rfl, rfl⟩⟩

theorem exec_forkLeads {s : Race} {who : Bool} {f : ForkCall} {k : Kernel}
    (h : ForkLeads img (s.call who, s.k) (f, k)) :
    ∃ n, Run.exec (raceStep img) (List.replicate n who) s =
      some ⟨k, Function.update s.call who f⟩ := by
  obtain ⟨n, hn⟩ := h
  refine ⟨n, ?_⟩
  induction n generalizing s with
  | zero =>
      obtain ⟨rfl, rfl⟩ := Prod.mk.inj hn
      rw [Function.update_eq_self]
      rfl
  | succ n ih =>
      rw [Function.iterate_succ_apply] at hn
      obtain ⟨s', hs'⟩ : ∃ s' : Race, Race.mk (forkStep img (s.call who) s.k).2
        (Function.update s.call who (forkStep img (s.call who) s.k).1) = s' := ⟨_, rfl⟩
      have hself : s'.call who = (forkStep img (s.call who) s.k).1 := by
        rw [← hs']
        exact Function.update_self ..
      have hk : s'.k = (forkStep img (s.call who) s.k).2 := by rw [← hs']
      have hrest := @ih s' (by rw [hself, hk]; exact hn)
      have hcalls : Function.update s'.call who f = Function.update s.call who f := by
        rw [← hs']
        exact Function.update_idem ..
      rw [hcalls, ← hs'] at hrest
      exact hrest

/-- **A call that is not interrupted** does what `do_fork` does. -/
theorem exec_doFork {s : Race} {who : Bool} {args : ForkArgs} (hstart : s.call who = .start args)
    {ret : Int} {k : Kernel}
    (hfork : doFork img args.current args.cloneFlags args.stack args.arg s.k = (ret, k)) :
    ∃ n s', Run.exec (raceStep img) (List.replicate n who) s = some s' ∧ s'.k = k ∧
      s'.call (!who) = s.call (!who) ∧
      ((s'.call who).pc = .returned ∧ ret = (s'.call who).pid ∨
        (s'.call who).pc = .failed ∧ ret = -1) := by
  obtain ⟨f, hleads, hend⟩ := forkLeads_doFork img args hfork
  obtain ⟨n, hn⟩ := exec_forkLeads (hstart ▸ hleads)
  have hself : Function.update s.call who f who = f := Function.update_self ..
  refine ⟨n, _, hn, rfl, Function.update_of_ne (by cases who <;> decide) .., ?_⟩
  simp only [hself]
  exact hend

end Alone

/-! ## What a call is in the middle of -/

open Claim

/-- The entry of `mem_map` that the call has found or taken. -/
def ForkCall.pageHold (f : ForkCall) : Hold (BitVec 8) :=
  match f.pc with
  | .scan _ | .failed => .none
  | .mark i => .found i
  | _ => .filled (pageIndex f.p) 1#8

/-- The slot of `g_task` that the call has found or taken.  Where `copy_thread` will refuse
the stack, nothing comes of it. -/
def ForkCall.slotHold (f : ForkCall) : Hold U64 :=
  match f.pc with
  | .scan _ | .mark _ | .clear | .slot _ | .freePage | .failed => .none
  | .copyThread => if StackRefused f.args.cloneFlags f.args.stack then .none else .found f.pid
  | .fields | .publish => .found f.pid
  | _ => .filled f.pid f.p

/-- Between the first read of `init_task.prev_task` and the store to it. -/
def ForkCall.inLinks (f : ForkCall) : Bool :=
  match f.pc with
  | .linkPrev | .readLast | .linkLast | .linkHead => true
  | _ => false

/-- Between the read of `rq_head.next` and the store to it. -/
def ForkCall.inAdd (f : ForkCall) : Bool :=
  match f.pc with
  | .add n => n < 4
  | _ => false

/-- No call reads a place that the other one has read and will still store to: not the entry
of `mem_map` or `g_task` that the other has found empty, nor the end of a list to which the
other is linking. -/
def NoStaleRead (who : Bool) (s : Race) : Prop :=
  let other := s.call (!who)
  match (s.call who).pc with
  | .scan i => other.pageHold ≠ .found i
  | .slot i => other.slotHold ≠ .found i
  | .readPrev => other.inLinks = false
  | .readFirst => other.inAdd = false
  | _ => True

/-- Both tasks are where they belong: each in its own page and its own slot of `g_task`, on
the task ring behind the `forked` ones, and on the run queue in front of them. -/
structure BothLinked (img : Image) (forked : List U64) (s : Race) : Prop where
  page : (s.call false).p ≠ (s.call true).p
  pid : (s.call false).pid ≠ (s.call true).pid
  gTask : ∀ who, s.k.gTask (s.call who).pid = (s.call who).p
  ring : ∃ xs, s.k.ring.IsList img.initTask (forked ++ xs) ∧ ∀ who, (s.call who).p ∈ xs
  queue : ∃ ys, s.k.runList.IsList img.rqHead (ys ++ forked.reverse.map runListOf) ∧
    ∀ who, runListOf (s.call who).p ∈ ys

end Arm64OS
