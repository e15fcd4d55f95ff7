import Mathlib.Data.List.MinMax
import Mathlib.Tactic

/-!
# Sharing by budgets

Jobs take turns.  Each has a budget, and the one that runs pays a unit for every turn.  It runs
on for as long as it has something left; then the first of those that have the most takes over,
and when no job of the queue has anything left, all of them are dealt their quotas again.

`round_of_dealt` is the fair share: between two deals every job of the queue runs for as many
turns as its quota has units, one job behind the other.  `dealt_within` bounds the way to the
next deal from any state.
-/

namespace Budget

variable {α : Type*}

/-- `x` is the first of the jobs with the largest budget. -/
def IsFirstMax {β : Type*} [Preorder β] (budget : α → β) (queue : List α) (x : α) : Prop :=
  ∃ before after, queue = before ++ x :: after ∧
    (∀ y ∈ before, budget y < budget x) ∧ ∀ y ∈ after, budget y ≤ budget x

structure State (α : Type*) where
  budget : α → ℕ
  running : α

section Sums

variable {f g : α → ℕ} {x : α} {xs : List α}

/-- Two sums over the same list that differ in one place. -/
theorem sum_map_of_eq_off (hnodup : xs.Nodup) (hx : x ∈ xs) (h : ∀ y, y ≠ x → g y = f y) :
    (xs.map g).sum + f x = (xs.map f).sum + g x := by
  induction xs with
  | nil => cases hx
  | cons z xs ih =>
      obtain ⟨hz, hrest⟩ := List.nodup_cons.1 hnodup
      simp only [List.map_cons, List.sum_cons]
      by_cases hzx : z = x
      · subst hzx
        have hsame : xs.map g = xs.map f :=
          List.map_congr_left fun y hy => h y fun he => hz (he ▸ hy)
        rw [hsame]
        omega
      · have hmem : x ∈ xs := (List.mem_cons.1 hx).resolve_left (Ne.symm hzx)
        have htail := ih hrest hmem
        have hhead := h z hzx
        omega

end Sums

section FirstMax

variable {β : Type*} [Preorder β] {budget : α → β} {queue : List α} {x y : α}

theorem IsFirstMax.mem (h : IsFirstMax budget queue x) : x ∈ queue := by
  obtain ⟨before, after, rfl, -, -⟩ := h
  simp

theorem IsFirstMax.le (h : IsFirstMax budget queue x) (hy : y ∈ queue) : budget y ≤ budget x := by
  obtain ⟨before, after, rfl, hbefore, hafter⟩ := h
  rcases List.mem_append.1 hy with hy | hy
  · exact le_of_lt (hbefore y hy)
  · rcases List.mem_cons.1 hy with rfl | hy
    · exact le_rfl
    · exact hafter y hy

/-- A job with a smaller budget in front of the queue changes nothing. -/
theorem IsFirstMax.cons_of_lt (h : IsFirstMax budget queue x) (hlt : budget y < budget x) :
    IsFirstMax budget (y :: queue) x := by
  obtain ⟨before, after, rfl, hbefore, hafter⟩ := h
  refine ⟨y :: before, after, rfl, ?_, hafter⟩
  intro z hz
  rcases List.mem_cons.1 hz with rfl | hz
  · exact hlt
  · exact hbefore z hz

end FirstMax

theorem IsFirstMax.congr {budget budget' : α → ℕ} {queue : List α} {x : α}
    (h : IsFirstMax budget queue x) (hsame : ∀ y ∈ queue, budget y = budget' y) :
    IsFirstMax budget' queue x := by
  obtain ⟨before, after, rfl, hbefore, hafter⟩ := h
  have hx := hsame x (by simp)
  refine ⟨before, after, rfl, fun y hy => ?_, fun y hy => ?_⟩
  · rw [← hx, ← hsame y (by simp [hy])]
    exact hbefore y hy
  · rw [← hx, ← hsame y (by simp [hy])]
    exact hafter y hy

/-- The first job of a queue that goes by other names. -/
theorem IsFirstMax.of_map {β : Type*} {budget : α → ℕ} {f : β → α} {queue : List β} {x : α}
    (h : IsFirstMax budget (queue.map f) x) :
    ∃ y, f y = x ∧ IsFirstMax (fun z => budget (f z)) queue y := by
  obtain ⟨before, after, heq, hbefore, hafter⟩ := h
  obtain ⟨before', tail, rfl, rfl, htail⟩ := List.map_eq_append_iff.1 heq
  obtain ⟨y, after', rfl, rfl, rfl⟩ := List.map_eq_cons_iff.1 htail
  exact ⟨y, rfl, before', after', rfl, fun z hz => hbefore _ (List.mem_map_of_mem hz),
    fun z hz => hafter _ (List.mem_map_of_mem hz)⟩

/-- The first job with the largest budget is the first maximum of the list. -/
theorem IsFirstMax.argmax_eq [DecidableEq α] {budget : α → ℕ} {queue : List α} {x : α}
    (h : IsFirstMax budget queue x) : queue.argmax budget = some x := by
  obtain ⟨before, after, rfl, hbefore, hafter⟩ := h
  have hx : x ∉ before := fun hmem => lt_irrefl _ (hbefore x hmem)
  refine List.argmax_eq_some_iff.2 ⟨by simp, fun y hy => ?_, fun y hy hle => ?_⟩
  · rcases List.mem_append.1 hy with hy | hy
    · exact (hbefore y hy).le
    · rcases List.mem_cons.1 hy with rfl | hy
      · exact le_rfl
      · exact hafter y hy
  · have hy : y ∉ before := fun hmem => absurd hle (Nat.not_le_of_lt (hbefore y hmem))
    rw [List.idxOf_append_of_notMem hx, List.idxOf_append_of_notMem hy, List.idxOf_cons_self]
    exact Nat.add_le_add_left (Nat.zero_le _) _

/-- There is one first job with the largest budget. -/
theorem IsFirstMax.eq_of_split {budget : α → ℕ} {before after : List α} {x y : α}
    (h : IsFirstMax budget (before ++ x :: after) y) (hbefore : ∀ z ∈ before, budget z < budget x)
    (hafter : ∀ z ∈ after, budget z ≤ budget x) : y = x := by
  obtain ⟨before', after', heq, hbefore', hafter'⟩ := h
  rcases List.append_eq_append_iff.1 heq with ⟨mid, rfl, hmid⟩ | ⟨mid, rfl, hmid⟩
  · cases mid with
    | nil => exact (List.cons.inj hmid).1.symm
    | cons z mid =>
        obtain ⟨rfl, rfl⟩ := List.cons.inj hmid
        have hlt := hbefore' x (by simp)
        have hle := hafter y (by simp)
        omega
  · cases mid with
    | nil => exact (List.cons.inj hmid).1
    | cons z mid =>
        obtain ⟨rfl, rfl⟩ := List.cons.inj hmid
        have hlt := hbefore y (by simp)
        have hle := hafter' x (by simp)
        omega

variable [DecidableEq α]

/-- The budgets when the running job has paid for a turn. -/
def State.spent (s : State α) : α → ℕ :=
  Function.update s.budget s.running (s.budget s.running - 1)

/-- The budgets when quotas are dealt to the queue. -/
def deal (queue : List α) (quota budget : α → ℕ) : α → ℕ :=
  fun y => if y ∈ queue then quota y else budget y

/-- One turn of the running job, and who runs behind it. -/
inductive Turn (queue : List α) (quota : α → ℕ) (s : State α) : State α → Prop
  | stay (hleft : 0 < s.spent s.running) : Turn queue quota s ⟨s.spent, s.running⟩
  | next {x : α} (hused : s.spent s.running = 0) (hleft : 0 < s.spent x)
      (hx : IsFirstMax s.spent queue x) : Turn queue quota s ⟨s.spent, x⟩
  | deal {x : α} (hused : s.spent s.running = 0) (hall : ∀ y ∈ queue, s.spent y = 0)
      (hx : IsFirstMax (deal queue quota s.spent) queue x) :
      Turn queue quota s ⟨deal queue quota s.spent, x⟩

/-- Turns one behind the other, with the jobs that had them. -/
inductive Turns (queue : List α) (quota : α → ℕ) : List α → State α → State α → Prop
  | nil (s : State α) : Turns queue quota [] s s
  | cons {s t u : State α} {trace : List α} (hturn : Turn queue quota s t)
      (hrest : Turns queue quota trace t u) : Turns queue quota (s.running :: trace) s u

/-- All quotas have just been dealt. -/
structure Dealt (queue : List α) (quota : α → ℕ) (s : State α) : Prop where
  budget : ∀ y ∈ queue, s.budget y = quota y
  running : IsFirstMax s.budget queue s.running

/-- What a round is made of. -/
def round (queue : List α) (quota : α → ℕ) : List α :=
  queue.flatMap fun x => List.replicate (quota x) x

variable {queue : List α} {quota : α → ℕ} {s t u : State α} {trace : List α}

@[simp] theorem State.spent_self (s : State α) : s.spent s.running = s.budget s.running - 1 :=
  Function.update_self ..

theorem State.spent_of_ne {x : α} (h : x ≠ s.running) : s.spent x = s.budget x :=
  Function.update_of_ne h ..

/-! ## A round -/

/-- In the middle of a round: the jobs in front of the running one have nothing left, and those
behind it have not run yet. -/
structure MidRound (quota : α → ℕ) (front back : List α) (s : State α) : Prop where
  front : ∀ y ∈ front, s.budget y = 0
  back : ∀ y ∈ back, s.budget y = quota y
  left : 0 < s.budget s.running

section Round

variable {front back : List α} (hnodup : (front ++ s.running :: back).Nodup)
  (hquota : ∀ y ∈ front ++ s.running :: back, 0 < quota y)

include hnodup

omit [DecidableEq α] in
/-- The running job is none of the others. -/
theorem ne_running : (∀ y ∈ front, y ≠ s.running) ∧ ∀ y ∈ back, y ≠ s.running := by
  obtain ⟨-, hback, hdisj⟩ := List.nodup_append.1 hnodup
  refine ⟨fun y hy he => ?_, fun y hy he => ?_⟩
  · exact hdisj y hy s.running (by simp) he
  · exact (List.nodup_cons.1 hback).1 (he ▸ hy)

include hquota

/-- The turns of a round come in the order of the queue. -/
theorem MidRound.turn (hsorted : back.Pairwise fun x y => quota y ≤ quota x)
    (hs : MidRound quota front back s)
    (hturn : Turn (front ++ s.running :: back) quota s t) :
    (1 < s.budget s.running ∧ t.running = s.running ∧
      t.budget s.running = s.budget s.running - 1 ∧ MidRound quota front back t) ∨
    (s.budget s.running = 1 ∧ ∃ x back', back = x :: back' ∧ t.running = x ∧
      t.budget x = quota x ∧ MidRound quota (front ++ [s.running]) back' t) ∨
    (s.budget s.running = 1 ∧ back = [] ∧ Dealt (front ++ s.running :: back) quota t) := by
  obtain ⟨hfrontNe, hbackNe⟩ := ne_running hnodup
  have hleft := hs.left
  -- the others are as they were
  have hfront : ∀ y ∈ front, s.spent y = 0 := fun y hy =>
    (State.spent_of_ne (hfrontNe y hy)).trans (hs.front y hy)
  have hback : ∀ y ∈ back, s.spent y = quota y := fun y hy =>
    (State.spent_of_ne (hbackNe y hy)).trans (hs.back y hy)
  cases hturn with
  | stay hmore =>
      have hone : 1 < s.budget s.running := by
        rw [State.spent_self] at hmore
        omega
      exact Or.inl ⟨hone, rfl, State.spent_self s, hfront, hback, hmore⟩
  | @next x hused hpos hx =>
      rw [State.spent_self] at hused
      refine Or.inr (Or.inl ⟨by omega, ?_⟩)
      cases hb : back with
      | nil =>
          subst hb
          have hzero : s.spent x = 0 := by
            rcases List.mem_append.1 hx.mem with hmem | hmem
            · exact hfront x hmem
            · obtain rfl : x = s.running := by simpa using hmem
              rw [State.spent_self, hused]
          omega
      | cons y back' =>
          subst hb
          have hy := hback y (by simp)
          have hypos := hquota y (by simp)
          obtain ⟨hhead, -⟩ := List.pairwise_cons.1 hsorted
          have hqueue : front ++ s.running :: y :: back' =
              (front ++ [s.running]) ++ y :: back' := by simp
          rw [hqueue] at hx
          have hnew : ∀ z ∈ front ++ [s.running], s.spent z = 0 := by
            intro z hz
            rcases List.mem_append.1 hz with hmem | hmem
            · exact hfront z hmem
            · obtain rfl : z = s.running := by simpa using hmem
              rw [State.spent_self, hused]
          obtain rfl : x = y := by
            refine hx.eq_of_split (fun z hz => ?_) fun z hz => ?_
            · rw [hnew z hz, hy]
              exact hypos
            · rw [hback z (List.mem_cons_of_mem _ hz), hy]
              exact hhead z hz
          exact ⟨x, back', rfl, rfl, hy, hnew,
            fun z hz => hback z (List.mem_cons_of_mem _ hz), hpos⟩
  | @deal x hused hall hx =>
      rw [State.spent_self] at hused
      refine Or.inr (Or.inr ⟨by omega, ?_, fun y hy => if_pos hy, hx⟩)
      cases hb : back with
      | nil => rfl
      | cons y back' =>
          subst hb
          have hzero := hall y (by simp)
          have hypos := hquota y (by simp)
          rw [hback y (by simp)] at hzero
          omega

end Round

/-- From the middle of a round on: the rest of the round, and a deal behind it. -/
theorem MidRound.turns {front back : List α} (hs : MidRound quota front back s)
    (hnodup : (front ++ s.running :: back).Nodup)
    (hquota : ∀ y ∈ front ++ s.running :: back, 0 < quota y)
    (hsorted : back.Pairwise fun x y => quota y ≤ quota x)
    (hturns : Turns (front ++ s.running :: back) quota trace s u) :
    trace <+: List.replicate (s.budget s.running) s.running ++ round back quota ∨
    ∃ rest v, trace = List.replicate (s.budget s.running) s.running ++ round back quota ++ rest ∧
      Dealt (front ++ s.running :: back) quota v ∧
      Turns (front ++ s.running :: back) quota rest v u := by
  obtain ⟨queue, hqueue⟩ : ∃ queue, front ++ s.running :: back = queue := ⟨_, rfl⟩
  rw [hqueue] at hturns ⊢
  induction hturns generalizing front back with
  | nil => exact Or.inl List.nil_prefix
  | @cons s t u trace hturn hrest ih =>
      obtain ⟨n, hn⟩ : ∃ n, s.budget s.running = n + 1 := ⟨_, (Nat.succ_pred hs.left.ne').symm⟩
      rw [hn, List.replicate_succ]
      rcases hs.turn hnodup hquota hsorted (hqueue ▸ hturn) with
        ⟨-, hsame, hbudget, hmid⟩ | ⟨hone, x, back', rfl, hnext, hbudget, hmid⟩ |
          ⟨hone, rfl, hdealt⟩
      · rw [hsame.symm] at hnodup hquota hqueue
        have hleft : t.budget t.running = n := by rw [hsame, hbudget, hn]; rfl
        have hih := ih hmid hnodup hquota hsorted hqueue
        rw [hleft, hsame] at hih
        rcases hih with hbegins | ⟨rest, v, rfl, hv, hrest'⟩
        · exact Or.inl ((List.prefix_cons_inj s.running).2 hbegins)
        · exact Or.inr ⟨rest, v, by simp, hv, hrest'⟩
      · obtain rfl : n = 0 := by omega
        subst hnext
        have hqueue' : (front ++ [s.running]) ++ t.running :: back' = queue := by
          rw [← hqueue]
          simp
        rw [show front ++ s.running :: t.running :: back' =
          (front ++ [s.running]) ++ t.running :: back' by simp] at hnodup hquota
        have hih := ih hmid hnodup hquota (List.pairwise_cons.1 hsorted).2 hqueue'
        have hround : round (t.running :: back') quota =
            List.replicate (t.budget t.running) t.running ++ round back' quota := by
          rw [hbudget]
          rfl
        rw [← hround] at hih
        rcases hih with hbegins | ⟨rest, v, rfl, hv, hrest'⟩
        · exact Or.inl ((List.prefix_cons_inj s.running).2 hbegins)
        · exact Or.inr ⟨rest, v, by simp, hv, hrest'⟩
      · obtain rfl : n = 0 := by omega
        rw [hqueue] at hdealt
        exact Or.inr ⟨trace, t, by simp [round], hdealt, hrest⟩

/-- **The fair share.**  Behind a deal, the jobs of the queue run one behind the other, each for
its quota; then comes the next deal. -/
theorem round_of_dealt (hdealt : Dealt queue quota s) (hnodup : queue.Nodup)
    (hquota : ∀ y ∈ queue, 0 < quota y)
    (hsorted : queue.Pairwise fun x y => quota y ≤ quota x)
    (hturns : Turns queue quota trace s u) :
    trace <+: round queue quota ∨
    ∃ rest v, trace = round queue quota ++ rest ∧ Dealt queue quota v ∧
      Turns queue quota rest v u := by
  cases hq : queue with
  | nil =>
      have hmem := hdealt.running.mem
      simp [hq] at hmem
  | cons x back =>
      subst hq
      obtain ⟨hhead, htail⟩ := List.pairwise_cons.1 hsorted
      -- the quotas go down along the queue, so the first job begins
      have hx : s.running = x := by
        have hsplit : IsFirstMax s.budget ([] ++ x :: back) s.running := hdealt.running
        refine hsplit.eq_of_split (by simp) fun z hz => ?_
        rw [hdealt.budget z (List.mem_cons_of_mem _ hz), hdealt.budget x (by simp)]
        exact hhead z hz
      subst hx
      have hbudget := hdealt.budget s.running (by simp)
      have hmid : MidRound quota [] back s := by
        refine ⟨by simp, fun y hy => hdealt.budget y (List.mem_cons_of_mem _ hy), ?_⟩
        rw [hbudget]
        exact hquota s.running (by simp)
      have hout := hmid.turns hnodup hquota htail hturns
      rw [hbudget] at hout
      exact hout

/-- Behind a deal the rounds repeat. -/
theorem rounds_of_dealt (hnodup : queue.Nodup) (hquota : ∀ y ∈ queue, 0 < quota y)
    (hsorted : queue.Pairwise fun x y => quota y ≤ quota x) (n : ℕ) :
    ∀ {s : State α} {trace : List α}, trace.length ≤ n → Dealt queue quota s →
      Turns queue quota trace s u →
      ∃ m rest, trace = (List.replicate m (round queue quota)).flatten ++ rest ∧
        rest <+: round queue quota := by
  induction n with
  | zero =>
      intro s trace hlength _ _
      obtain rfl := List.length_eq_zero_iff.1 (Nat.le_zero.1 hlength)
      exact ⟨0, [], rfl, List.nil_prefix⟩
  | succ n ih =>
      intro s trace hlength hdealt hturns
      rcases round_of_dealt hdealt hnodup hquota hsorted hturns with
        hbegins | ⟨rest, v, rfl, hv, hrest⟩
      · exact ⟨0, trace, by simp, hbegins⟩
      · have hpos : 0 < (round queue quota).length := by
          have hmem := hdealt.running.mem
          have hq := hquota _ hmem
          refine List.length_pos_of_mem (a := s.running) (List.mem_flatMap.2 ⟨_, hmem, ?_⟩)
          exact List.mem_replicate.2 ⟨hq.ne', rfl⟩
        rw [List.length_append] at hlength
        obtain ⟨m, rest', rfl, hbegins⟩ := ih (by omega) hv hrest
        exact ⟨m + 1, rest', by simp [List.replicate_succ], hbegins⟩

/-! ## The way to the next deal -/

/-- How many turns there are before the next deal, but for one that finds nothing to pay. -/
def State.remaining (queue : List α) (s : State α) : ℕ :=
  (queue.map s.budget).sum + if s.running ∈ queue then 0 else s.budget s.running

/-- What the queue has left when the running job has paid. -/
theorem sum_spent (hnodup : queue.Nodup) (s : State α) :
    (queue.map s.spent).sum + (if s.running ∈ queue then min 1 (s.budget s.running) else 0) =
      (queue.map s.budget).sum := by
  by_cases hmem : s.running ∈ queue
  · have hsum := sum_map_of_eq_off hnodup hmem (f := s.budget) (g := s.spent)
      fun y hy => State.spent_of_ne hy
    have hle : s.budget s.running ≤ (queue.map s.budget).sum :=
      List.single_le_sum (by simp) _ (List.mem_map_of_mem hmem)
    rw [State.spent_self] at hsum
    rw [if_pos hmem]
    omega
  · have hsame : queue.map s.spent = queue.map s.budget :=
      List.map_congr_left fun y hy => State.spent_of_ne fun he => hmem (he ▸ hy)
    rw [if_neg hmem, hsame, Nat.add_zero]

/-- A turn brings the next deal, or brings it nearer; but for the first turn the running job has
something to pay. -/
theorem Turn.remaining (hnodup : queue.Nodup) (hturn : Turn queue quota s t) :
    Dealt queue quota t ∨
    (0 < t.budget t.running ∧
      t.remaining queue + min 1 (s.budget s.running) = s.remaining queue) := by
  have hsum := sum_spent hnodup s
  cases hturn with
  | stay hleft =>
      refine Or.inr ⟨hleft, ?_⟩
      rw [State.spent_self] at hleft
      unfold State.remaining
      by_cases hmem : s.running ∈ queue
      · simp only [hmem, if_true] at hsum ⊢
        omega
      · simp only [hmem, if_false, State.spent_self] at hsum ⊢
        omega
  | @next x hused hleft hx =>
      refine Or.inr ⟨hleft, ?_⟩
      rw [State.spent_self] at hused
      unfold State.remaining
      simp only [hx.mem, if_true]
      by_cases hmem : s.running ∈ queue
      · simp only [hmem, if_true] at hsum ⊢
        omega
      · simp only [hmem, if_false] at hsum ⊢
        omega
  | deal hused hall hx => exact Or.inl ⟨fun y hy => if_pos hy, hx⟩

/-- While the running job has something to pay, the next deal is as far away as there is left to
be paid. -/
theorem dealt_within_of_pos (hnodup : queue.Nodup) (hturns : Turns queue quota trace s u)
    (hpos : 0 < s.budget s.running) :
    trace.length < s.remaining queue ∨
    ∃ front rest v, trace = front ++ rest ∧ front.length ≤ s.remaining queue ∧
      Dealt queue quota v ∧ Turns queue quota rest v u := by
  induction hturns with
  | nil s =>
      refine Or.inl (lt_of_lt_of_le hpos ?_)
      unfold State.remaining
      by_cases hmem : s.running ∈ queue
      · rw [if_pos hmem]
        exact List.single_le_sum (by simp) _ (List.mem_map_of_mem hmem)
      · rw [if_neg hmem]
        omega
  | @cons s t u trace hturn hrest ih =>
      have hfirst : 1 ≤ s.remaining queue := by
        have hsum := sum_spent hnodup s
        unfold State.remaining
        split at hsum
        case isTrue hmem =>
          rw [if_pos hmem]
          omega
        case isFalse hmem =>
          rw [if_neg hmem]
          omega
      rcases hturn.remaining hnodup with hdealt | ⟨hleft, hnear⟩
      · exact Or.inr ⟨[s.running], trace, t, rfl, hfirst, hdealt, hrest⟩
      · rcases ih hleft with hshort | ⟨front, rest, v, rfl, hlength, hv, hrest'⟩
        · refine Or.inl ?_
          rw [List.length_cons]
          omega
        · refine Or.inr ⟨s.running :: front, rest, v, rfl, ?_, hv, hrest'⟩
          rw [List.length_cons]
          omega

/-- **The way to the next deal**, from any state. -/
theorem dealt_within (hnodup : queue.Nodup) (hturns : Turns queue quota trace s u) :
    trace.length ≤ s.remaining queue ∨
    ∃ front rest v, trace = front ++ rest ∧ front.length ≤ s.remaining queue + 1 ∧
      Dealt queue quota v ∧ Turns queue quota rest v u := by
  cases hturns with
  | nil => exact Or.inl (Nat.zero_le _)
  | @cons _ t _ trace hturn hrest =>
      rcases hturn.remaining hnodup with hdealt | ⟨hleft, hnear⟩
      · exact Or.inr ⟨[s.running], trace, t, rfl, by simp, hdealt, hrest⟩
      · rcases dealt_within_of_pos hnodup hrest hleft with
          hshort | ⟨front, rest, v, rfl, hlength, hv, hrest'⟩
        · refine Or.inl ?_
          rw [List.length_cons]
          omega
        · refine Or.inr ⟨s.running :: front, rest, v, rfl, ?_, hv, hrest'⟩
          rw [List.length_cons]
          omega

/-- **Who runs when.**  Once the first quotas have been dealt, the turns are rounds in the order
of the queue. -/
theorem turns_rounds (hnodup : queue.Nodup) (hquota : ∀ y ∈ queue, 0 < quota y)
    (hsorted : queue.Pairwise fun x y => quota y ≤ quota x)
    (hturns : Turns queue quota trace s u) :
    ∃ front m rest, trace = front ++ (List.replicate m (round queue quota)).flatten ++ rest ∧
      front.length ≤ s.remaining queue + 1 ∧ rest <+: round queue quota := by
  rcases dealt_within hnodup hturns with hshort | ⟨front, rest, v, rfl, hlength, hv, hrest⟩
  · exact ⟨trace, 0, [], by simp, by omega, List.nil_prefix⟩
  · obtain ⟨m, rest', rfl, hbegins⟩ :=
      rounds_of_dealt hnodup hquota hsorted rest.length le_rfl hv hrest
    exact ⟨front, m, rest', by simp, hlength, hbegins⟩

end Budget
