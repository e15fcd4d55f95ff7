import Arm64OS.Kernel.ForkRace

/-!
# Runs of two calls of `do_fork`

A call that is linking its task leaves a list that is whole again once its remaining stores
are made: `finishLinks` and `finishAdd` make them.  `RaceOk` says that the list so finished is
the one that it should be; a step of the call itself does not change it, and a step of the
other call changes nodes that are on no list yet.
-/

namespace Arm64OS

open Claim

/-! ## Steps -/

/-- The two kernels have the same shared structures. -/
structure SameShared (k k' : Kernel) : Prop where
  memMap : k'.memMap = k.memMap
  gTask : k'.gTask = k.gTask
  ring : k'.ring = k.ring
  runList : k'.runList = k.runList

theorem SameShared.refl (k : Kernel) : SameShared k k := ⟨rfl, rfl, rfl, rfl⟩

/-- The moves on which a call changes no shared structure and keeps its place in all of them:
it goes on searching, or gives up, or works on its own page. -/
inductive Quiet (args : ForkArgs) : Pc → Pc → Prop
  | usedPage (i : Nat) : Quiet args (.scan i) (.scan (i + 1))
  | noPage (i : Nat) : Quiet args (.scan i) .failed
  | usedSlot (i : Nat) : Quiet args (.slot i) (.slot (i + 1))
  | noSlot (i : Nat) : Quiet args (.slot i) .freePage
  | refused : Quiet args .copyThread .freePage
  | copied (h : ¬ StackRefused args.cloneFlags args.stack) : Quiet args .copyThread .fields
  | fields : Quiet args .fields .publish
  | wake : Quiet args .wake .readFirst
  | added (n : Nat) (h : 4 ≤ n) : Quiet args (.add n) .returned

/-- What a step of a call can be: what it has found, and what it does to which structure. -/
inductive ForkMove (img : Image) (f : ForkCall) (k : Kernel) : ForkCall × Kernel → Prop
  | quiet (pc : Pc) (k' : Kernel) (hquiet : Quiet f.args f.pc pc) (hsame : SameShared k k') :
      ForkMove img f k (f.goto pc, k')
  | stay : ForkMove img f k (f, k)
  | find (i : Nat) (hpc : f.pc = .scan i) (hi : i < nrPages) (hfree : k.memMap i = 0#8) :
      ForkMove img f k (f.goto (.mark i), k)
  | mark (i : Nat) (hpc : f.pc = .mark i) :
      ForkMove img f k ({ f with pc := .clear, p := pageAddr i },
        { k with memMap := Function.update k.memMap i 1#8 })
  | clear (hpc : f.pc = .clear) : ForkMove img f k (f.goto (.slot 0), k.memsetTask f.p)
  | take (i : Nat) (hpc : f.pc = .slot i) (hfree : k.gTask i = 0#64) :
      ForkMove img f k ({ f with pc := .copyThread, pid := i }, k)
  | freePage (hpc : f.pc = .freePage) :
      ForkMove img f k (f.goto .failed, { k with memMap := Arm64OS.freePage f.p k.memMap })
  | publish (hpc : f.pc = .publish) :
      ForkMove img f k (f.goto .linkNext, { k with gTask := Function.update k.gTask f.pid f.p })
  | linkNext (hpc : f.pc = .linkNext) :
      ForkMove img f k (f.goto .readPrev, { k with ring := setNext f.p img.initTask k.ring })
  | readPrev (hpc : f.pc = .readPrev) :
      ForkMove img f k ({ f with pc := .linkPrev, link := k.ring.prevOf img.initTask }, k)
  | linkPrev (hpc : f.pc = .linkPrev) :
      ForkMove img f k (f.goto .readLast, { k with ring := setPrev f.p f.link k.ring })
  | readLast (hpc : f.pc = .readLast) :
      ForkMove img f k ({ f with pc := .linkLast, link := k.ring.prevOf img.initTask }, k)
  | linkLast (hpc : f.pc = .linkLast) :
      ForkMove img f k (f.goto .linkHead, { k with ring := setNext f.link f.p k.ring })
  | linkHead (hpc : f.pc = .linkHead) :
      ForkMove img f k (f.goto .wake, { k with ring := setPrev img.initTask f.p k.ring })
  | readFirst (hpc : f.pc = .readFirst) :
      ForkMove img f k ({ f with pc := .add 0, link := k.runList.nextOf img.rqHead }, k)
  | store (n : Nat) (store : ListHeap → ListHeap) (hpc : f.pc = .add n)
      (hstore : (f.addStores img)[n]? = some store) :
      ForkMove img f k (f.goto (.add (n + 1)), { k with runList := store k.runList })

variable {img : Image} {forked xs ys : List U64} {k : Kernel} {memMap : PageMap}
  {ring runList : ListHeap} {f f' g : ForkCall}

theorem SameShared.updTask {k' : Kernel} (h : SameShared k k') (p : U64)
    (change : TaskStruct → TaskStruct) : SameShared k (k'.updTask p change) := { h with }

theorem SameShared.storePtRegs {k' : Kernel} (h : SameShared k k') (p : U64) (frame : PtRegs) :
    SameShared k (k'.storePtRegs p frame) := { h with }

theorem sameShared_copyThread (img : Image) (current cloneFlags p stack arg : U64) (k : Kernel) :
    SameShared k (copyThread img current cloneFlags p stack arg k).2 := by
  have hzero := ((SameShared.refl k).storePtRegs p PtRegs.zero).updTask p
    fun t => { t with cpuContext := CpuContext.zero }
  unfold copyThread
  split
  · dsimp only
    apply SameShared.updTask
    apply SameShared.updTask
    exact hzero.storePtRegs _ _
  · split
    · split
      · exact hzero.storePtRegs _ _
      · dsimp only
        apply SameShared.updTask
        apply SameShared.storePtRegs
        exact hzero.storePtRegs _ _
    · dsimp only
      apply SameShared.updTask
      exact hzero.storePtRegs _ _

theorem sameShared_fields (current p : U64) (pid : Int) (k : Kernel) :
    SameShared k (runStmts (initFields current p pid).dropLast k) := by
  simp only [runStmts, initFields, List.dropLast, List.foldl_cons, List.foldl_nil,
    Kernel.updTask]
  exact ⟨rfl, rfl, rfl, rfl⟩

theorem forkMove_copyThread (hpc : f.pc = .copyThread) :
    ForkMove img f k (forkStep img f k) := by
  have hsame := sameShared_copyThread img f.args.current f.args.cloneFlags f.p f.args.stack
    f.args.arg k
  simp only [forkStep, hpc]
  split
  case isTrue herr =>
    exact .quiet .freePage _ (hpc ▸ .refused) hsame
  case isFalse herr =>
    have haccepted : ¬ StackRefused f.args.cloneFlags f.args.stack := by
      intro hrefused
      rw [copyThread_fst, if_pos hrefused] at herr
      exact herr (by decide)
    exact .quiet .fields _ (hpc ▸ .copied haccepted) hsame

theorem forkMove (img : Image) (f : ForkCall) (k : Kernel) :
    ForkMove img f k (forkStep img f k) := by
  cases hpc : f.pc with
  | scan i =>
      simp only [forkStep, hpc]
      split
      case isTrue hi =>
        split
        case isTrue hfree => exact .find i hpc hi hfree
        case isFalse hused => exact .quiet (.scan (i + 1)) k (hpc ▸ .usedPage i) (.refl k)
      case isFalse hi => exact .quiet .failed k (hpc ▸ .noPage i) (.refl k)
  | mark i => simpa only [forkStep, hpc] using .mark i hpc
  | clear => simpa only [forkStep, hpc] using .clear hpc
  | slot i =>
      simp only [forkStep, hpc]
      split
      case isTrue hi =>
        split
        case isTrue hfree => exact .take i hpc hfree
        case isFalse hused => exact .quiet (.slot (i + 1)) k (hpc ▸ .usedSlot i) (.refl k)
      case isFalse hi => exact .quiet .freePage k (hpc ▸ .noSlot i) (.refl k)
  | copyThread => exact forkMove_copyThread hpc
  | freePage => simpa only [forkStep, hpc] using .freePage hpc
  | fields =>
      simp only [forkStep, hpc]
      exact .quiet .publish _ (hpc ▸ .fields) (sameShared_fields f.args.current f.p f.pid k)
  | publish => simpa only [forkStep, hpc] using .publish hpc
  | linkNext => simpa only [forkStep, hpc] using .linkNext hpc
  | readPrev => simpa only [forkStep, hpc] using .readPrev hpc
  | linkPrev => simpa only [forkStep, hpc] using .linkPrev hpc
  | readLast => simpa only [forkStep, hpc] using .readLast hpc
  | linkLast => simpa only [forkStep, hpc] using .linkLast hpc
  | linkHead => simpa only [forkStep, hpc] using .linkHead hpc
  | wake =>
      simp only [forkStep, hpc]
      exact .quiet .readFirst _ (hpc ▸ .wake) ⟨rfl, rfl, rfl, rfl⟩
  | readFirst => simpa only [forkStep, hpc] using .readFirst hpc
  | add n =>
      simp only [forkStep, hpc]
      split
      case h_1 store hstore => exact .store n store hpc hstore
      case h_2 hnone =>
        have hn : 4 ≤ n := List.getElem?_eq_none_iff.1 hnone
        exact .quiet .returned _ (hpc ▸ .added n hn) ⟨rfl, rfl, rfl, rfl⟩
  | returned | failed =>
      simp only [forkStep, hpc]
      exact .stay

/-! ## Pages -/

/-- The call has a page. -/
def ForkCall.hasPage (f : ForkCall) : Bool :=
  match f.pc with
  | .scan _ | .mark _ | .failed => false
  | _ => true

/-- The page that a call looks at, or has, is none of the `forked` tasks. -/
structure PageOk (forked : List U64) (f : ForkCall) : Prop where
  found : ∀ i, f.pc = .mark i → i < nrPages
  page : f.hasPage = true → ∃ i, i < nrPages ∧ f.p = pageAddr i ∧ f.p ∉ forked

structure PagesOk (forked : List U64) (memMap : PageMap) (f g : ForkCall) : Prop where
  shared : Shared 0#8 memMap f.pageHold g.pageHold
  used : ∀ q ∈ forked, ∃ i, i < nrPages ∧ q = pageAddr i ∧ memMap i ≠ 0#8
  left : PageOk forked f
  right : PageOk forked g

theorem PagesOk.symm (h : PagesOk forked memMap f g) : PagesOk forked memMap g f :=
  ⟨h.shared.symm, h.used, h.right, h.left⟩

theorem ForkCall.pageHold_of_hasPage (h : f.hasPage = true) :
    f.pageHold = .filled (pageIndex f.p) 1#8 := by
  cases hpc : f.pc <;> simp [ForkCall.hasPage, ForkCall.pageHold, hpc] at h ⊢

/-- The two calls have different pages. -/
theorem PagesOk.ne (h : PagesOk forked memMap f g) (hf : f.hasPage = true)
    (hg : g.hasPage = true) : f.p ≠ g.p := by
  intro he
  have hapart := h.shared.apart (pageIndex f.p)
  rw [ForkCall.pageHold_of_hasPage hf, ForkCall.pageHold_of_hasPage hg, he] at hapart
  exact hapart rfl rfl

theorem PageOk.ne_initTask (h : PageOk forked f) (img : Image) (hf : f.hasPage = true) :
    f.p ≠ img.initTask := by
  obtain ⟨i, hi, hp, -⟩ := h.page hf
  rw [hp]
  exact pageAddr_ne_initTask img hi

/-- The call moves on with the page that it has, or without one. -/
theorem PagesOk.goto (h : PagesOk forked memMap f g) (hhold : f'.pageHold = f.pageHold)
    (hpage : f'.hasPage = true → f.hasPage = true ∧ f'.p = f.p)
    (hmark : ∀ i, f'.pc ≠ .mark i) : PagesOk forked memMap f' g where
  shared := by
    rw [hhold]
    exact h.shared
  used := h.used
  left := by
    refine ⟨fun i hi => absurd hi (hmark i), fun hf' => ?_⟩
    obtain ⟨hf, hp⟩ := hpage hf'
    rw [hp]
    exact h.left.page hf
  right := h.right

theorem PagesOk.find (h : PagesOk forked memMap f g) {i : Nat} (hi : i < nrPages)
    (hfree : memMap i = 0#8) (hg : g.pageHold ≠ .found i) :
    PagesOk forked memMap (f.goto (.mark i)) g where
  shared := h.shared.find hfree hg
  used := h.used
  left := by
    refine ⟨?_, by simp [ForkCall.hasPage, ForkCall.goto]⟩
    rintro j hj
    obtain rfl : i = j := Pc.mark.inj hj
    exact hi
  right := h.right

theorem PagesOk.mark (h : PagesOk forked memMap f g) {i : Nat} (hpc : f.pc = .mark i) :
    PagesOk forked (Function.update memMap i 1#8) { f with pc := .clear, p := pageAddr i } g := by
  have hi := h.left.found i hpc
  have hshared := h.shared
  have hfound : f.pageHold = .found i := by simp [ForkCall.pageHold, hpc]
  have hfilled : ForkCall.pageHold { f with pc := .clear, p := pageAddr i } =
      .filled i 1#8 := by
    simp [ForkCall.pageHold, pageIndex_pageAddr hi]
  rw [hfound] at hshared
  have hfree : memMap i = 0#8 := hshared.left
  constructor
  case shared =>
    rw [hfilled]
    exact hshared.fill (by decide)
  case used =>
    intro q hq
    obtain ⟨j, hj, hqj, hused⟩ := h.used q hq
    refine ⟨j, hj, hqj, ?_⟩
    have hji : j ≠ i := by
      rintro rfl
      exact hused hfree
    rwa [Function.update_of_ne hji]
  case left =>
    refine ⟨nofun, fun _ => ⟨i, hi, rfl, fun hmem => ?_⟩⟩
    obtain ⟨j, hj, hij, hused⟩ := h.used _ hmem
    obtain rfl := pageAddr_inj hi hj hij
    exact hused hfree
  case right => exact h.right

theorem PagesOk.freePage (h : PagesOk forked memMap f g) (hf : f.hasPage = true) :
    PagesOk forked (Arm64OS.freePage f.p memMap) (f.goto .failed) g := by
  have hshared := h.shared
  rw [ForkCall.pageHold_of_hasPage hf] at hshared
  obtain ⟨i, hi, hp, hnew⟩ := h.left.page hf
  constructor
  case shared => exact hshared.giveBack
  case used =>
    intro q hq
    obtain ⟨j, hj, hqj, hused⟩ := h.used q hq
    refine ⟨j, hj, hqj, ?_⟩
    have hji : j ≠ pageIndex f.p := by
      rw [hp, pageIndex_pageAddr hi]
      rintro rfl
      exact hnew (hp ▸ hqj ▸ hq)
    unfold Arm64OS.freePage
    rwa [Function.update_of_ne hji]
  case left => exact ⟨nofun, by simp [ForkCall.hasPage, ForkCall.goto]⟩
  case right => exact h.right

/-! ## Lists -/

/-- The heaps differ in the node `q` at most. -/
def AgreeExcept (q : U64) (h h' : ListHeap) : Prop := ∀ n, n ≠ q → h' n = h n

theorem AgreeExcept.setNext {q : U64} {h h' : ListHeap} (hagree : AgreeExcept q h h') (n v : U64) :
    AgreeExcept q (Arm64OS.setNext n v h) (Arm64OS.setNext n v h') := by
  intro m hm
  unfold Arm64OS.setNext
  by_cases hmn : m = n
  · subst hmn
    rw [Function.update_self, Function.update_self, hagree m hm]
  · rw [Function.update_of_ne hmn, Function.update_of_ne hmn, hagree m hm]

theorem AgreeExcept.setPrev {q : U64} {h h' : ListHeap} (hagree : AgreeExcept q h h') (n v : U64) :
    AgreeExcept q (Arm64OS.setPrev n v h) (Arm64OS.setPrev n v h') := by
  intro m hm
  unfold Arm64OS.setPrev
  by_cases hmn : m = n
  · subst hmn
    rw [Function.update_self, Function.update_self, hagree m hm]
  · rw [Function.update_of_ne hmn, Function.update_of_ne hmn, hagree m hm]

theorem agreeExcept_update (q : U64) (h : ListHeap) (node : ListHead) :
    AgreeExcept q h (Function.update h q node) := fun _ hn => Function.update_of_ne hn ..

/-- A list survives a change of a node that is not on it. -/
theorem AgreeExcept.isList {q head : U64} {h h' : ListHeap} {nodes : List U64}
    (hagree : AgreeExcept q h h') (hl : h.IsList head nodes) (hq : q ∉ head :: nodes) :
    h'.IsList head nodes := by
  have hne : ∀ n ∈ head :: nodes, n ≠ q := fun n hn he => hq (he ▸ hn)
  exact hl.congr (fun n hn => by simp [ListHeap.nextOf, hagree n (hne n hn)])
    (fun n hn => by simp [ListHeap.prevOf, hagree n (hne n hn)])

/-! ## The task ring -/

/-- The stores of `SET_LINKS` that the call has still to make, from its first read on. -/
def ForkCall.finishLinks (img : Image) (f : ForkCall) (ring : ListHeap) : ListHeap :=
  match f.pc with
  | .linkPrev =>
      setPrev img.initTask f.p (setNext (ring.prevOf img.initTask) f.p (setPrev f.p f.link ring))
  | .readLast => setPrev img.initTask f.p (setNext (ring.prevOf img.initTask) f.p ring)
  | .linkLast => setPrev img.initTask f.p (setNext f.link f.p ring)
  | .linkHead => setPrev img.initTask f.p ring
  | _ => ring

/-- The call has read `init_task.prev_task`: its task counts as one of the ring. -/
def ForkCall.onRing (f : ForkCall) : Bool :=
  match f.pc with
  | .linkPrev | .readLast | .linkLast | .linkHead | .wake | .readFirst | .add _ | .returned => true
  | _ => false

/-- What a call relies on in the ring, the nodes of which are `nodes`. -/
structure LinksOk (img : Image) (nodes : List U64) (ring : ListHeap) (f : ForkCall) : Prop where
  next : f.pc = .readPrev → ring.nextOf f.p = img.initTask
  last : f.pc = .linkPrev ∨ f.pc = .readLast → ring.prevOf img.initTask ∈ nodes
  link : f.pc = .linkLast → f.link ∈ nodes

/-- Once the last task links back, the call relies on nothing in the ring. -/
theorem linksOk_goto {nodes : List U64} {ring : ListHeap} {pc : Pc}
    (h : pc = .linkHead ∨ pc = .wake) : LinksOk img nodes ring (f.goto pc) := by
  rcases h with rfl | rfl <;> constructor <;> simp [ForkCall.goto]

/-- Finished, the ring has the tasks `xs` of the two calls behind the `forked` ones. -/
structure RingOk (img : Image) (forked xs : List U64) (ring : ListHeap) (f g : ForkCall) :
    Prop where
  list : (f.finishLinks img (g.finishLinks img ring)).IsList img.initTask (forked ++ xs)
  mem : ∀ q, q ∈ xs ↔ f.onRing = true ∧ q = f.p ∨ g.onRing = true ∧ q = g.p
  one : f.inLinks = false ∨ g.inLinks = false
  left : LinksOk img (img.initTask :: (forked ++ xs)) ring f
  right : LinksOk img (img.initTask :: (forked ++ xs)) ring g

theorem ForkCall.finishLinks_eq (h : f.inLinks = false) (ring : ListHeap) :
    f.finishLinks img ring = ring := by
  cases hpc : f.pc <;> simp [ForkCall.inLinks, ForkCall.finishLinks, hpc] at h ⊢

theorem ForkCall.hasPage_of_onRing (h : f.onRing = true) : f.hasPage = true := by
  cases hpc : f.pc <;> simp [ForkCall.onRing, ForkCall.hasPage, hpc] at h ⊢

theorem AgreeExcept.finishLinks {q : U64} {h h' : ListHeap} (hagree : AgreeExcept q h h')
    (hq : img.initTask ≠ q) (f : ForkCall) :
    AgreeExcept q (f.finishLinks img h) (f.finishLinks img h') := by
  have hlast : h'.prevOf img.initTask = h.prevOf img.initTask := by
    simp [ListHeap.prevOf, hagree _ hq]
  unfold ForkCall.finishLinks
  split
  · rw [hlast]
    exact ((hagree.setPrev _ _).setNext _ _).setPrev _ _
  · rw [hlast]
    exact (hagree.setNext _ _).setPrev _ _
  · exact (hagree.setNext _ _).setPrev _ _
  · exact hagree.setPrev _ _
  · exact hagree

theorem RingOk.symm (h : RingOk img forked xs ring f g) : RingOk img forked xs ring g f where
  list := by
    have hlist := h.list
    rcases h.one with hf | hg
    · rwa [ForkCall.finishLinks_eq hf] at hlist ⊢
    · rwa [ForkCall.finishLinks_eq hg] at hlist ⊢
  mem := fun q => (h.mem q).trans or_comm
  one := h.one.symm
  left := h.right
  right := h.left

/-- A task that the call has not begun to link is on no list. -/
theorem RingOk.not_mem (h : RingOk img forked xs ring f g) (hpages : PagesOk forked memMap f g)
    (hpage : f.hasPage = true) (hf : f.onRing = false) :
    f.p ∉ img.initTask :: (forked ++ xs) := by
  obtain ⟨i, hi, hp, hnew⟩ := hpages.left.page hpage
  rw [List.mem_cons, List.mem_append, not_or, not_or]
  refine ⟨hpages.left.ne_initTask img hpage, hnew, fun hmem => ?_⟩
  rcases (h.mem f.p).1 hmem with ⟨hon, -⟩ | ⟨hon, he⟩
  · exact absurd (hon.symm.trans hf) (by simp)
  · exact hpages.ne hpage (ForkCall.hasPage_of_onRing hon) he

/-- The call moves on outside `SET_LINKS`. -/
theorem RingOk.goto (h : RingOk img forked xs ring f g) (hf : f.inLinks = false)
    (hf' : f'.inLinks = false) (hon : f'.onRing = f.onRing)
    (hp : f.onRing = true → f'.p = f.p) (hpc : f'.pc ≠ .readPrev) :
    RingOk img forked xs ring f' g where
  list := by
    have hlist := h.list
    rw [ForkCall.finishLinks_eq hf] at hlist
    rwa [ForkCall.finishLinks_eq hf']
  mem := by
    intro q
    rw [h.mem, hon]
    cases hring : f.onRing with
    | false => simp
    | true => rw [hp hring]
  one := Or.inl hf'
  left := by
    refine ⟨fun he => absurd he hpc, ?_, ?_⟩
    · rintro (he | he)
      · simp [ForkCall.inLinks, he] at hf'
      · simp [ForkCall.inLinks, he] at hf'
    · intro he
      simp [ForkCall.inLinks, he] at hf'
  right := h.right

/-- A change of the call's own page, before it links its task. -/
theorem RingOk.private (h : RingOk img forked xs ring f g) (hpages : PagesOk forked memMap f g)
    (hpage : f.hasPage = true) (hf : f.onRing = false) {ring' : ListHeap}
    (hagree : AgreeExcept f.p ring ring')
    (hf' : f'.inLinks = false) (hon : f'.onRing = false)
    (hnext : f'.pc = .readPrev → ring'.nextOf f'.p = img.initTask) :
    RingOk img forked xs ring' f' g := by
  have hnot := h.not_mem hpages hpage hf
  have hinit : img.initTask ≠ f.p := (hpages.left.ne_initTask img hpage).symm
  have hlinks : f.inLinks = false := by
    cases hpc : f.pc <;> simp [ForkCall.inLinks, ForkCall.onRing, hpc] at hf ⊢
  constructor
  case list =>
    have hlist := h.list
    rw [ForkCall.finishLinks_eq hlinks] at hlist
    rw [ForkCall.finishLinks_eq hf']
    exact (hagree.finishLinks hinit g).isList hlist hnot
  case mem =>
    intro q
    rw [h.mem, hon, hf]
    simp
  case one => exact Or.inl hf'
  case left =>
    refine ⟨hnext, ?_, ?_⟩
    · rintro (he | he)
      · simp [ForkCall.inLinks, he] at hf'
      · simp [ForkCall.inLinks, he] at hf'
    · intro he
      simp [ForkCall.inLinks, he] at hf'
  case right =>
    have hlast : ring'.prevOf img.initTask = ring.prevOf img.initTask := by
      simp [ListHeap.prevOf, hagree _ hinit]
    refine ⟨fun hpc => ?_, fun hpc => ?_, h.right.link⟩
    · have hgp : g.hasPage = true := by simp [ForkCall.hasPage, hpc]
      have hne : g.p ≠ f.p := (hpages.ne hpage hgp).symm
      simpa [ListHeap.nextOf, hagree _ hne] using h.right.next hpc
    · rw [hlast]
      exact h.right.last hpc

/-- A step inside `SET_LINKS`: what is left to do is what was left to do. -/
theorem RingOk.own (h : RingOk img forked xs ring f g) (hpages : PagesOk forked memMap f g)
    (hf : f.inLinks = true) {ring' : ListHeap}
    (hfinish : f'.finishLinks img ring' = f.finishLinks img ring) (hon : f'.onRing = true)
    (hp : f'.p = f.p) (hf' : LinksOk img (img.initTask :: (forked ++ xs)) ring' f')
    (hnext : ∀ q, q ∉ img.initTask :: (forked ++ xs) → ring'.nextOf q = ring.nextOf q) :
    RingOk img forked xs ring' f' g := by
  have hg : g.inLinks = false := by
    rcases h.one with he | he
    · exact absurd (he.symm.trans hf) (by simp)
    · exact he
  have hring : f.onRing = true := by
    cases hpc : f.pc <;> simp [ForkCall.inLinks, ForkCall.onRing, hpc] at hf ⊢
  constructor
  case list =>
    have hlist := h.list
    rw [ForkCall.finishLinks_eq hg] at hlist ⊢
    rwa [hfinish]
  case mem =>
    intro q
    rw [h.mem, hon, hring, hp]
  case one => exact Or.inr hg
  case left => exact hf'
  case right =>
    refine ⟨fun hpc => ?_, ?_, ?_⟩
    · have hgp : g.hasPage = true := by simp [ForkCall.hasPage, hpc]
      have hgon : g.onRing = false := by simp [ForkCall.onRing, hpc]
      rw [hnext _ (h.symm.not_mem hpages.symm hgp hgon)]
      exact h.right.next hpc
    · rintro (he | he)
      · simp [ForkCall.inLinks, he] at hg
      · simp [ForkCall.inLinks, he] at hg
    · intro he
      simp [ForkCall.inLinks, he] at hg

theorem setNext_eq_self {n v : U64} {h : ListHeap} (hn : h.nextOf n = v) : setNext n v h = h := by
  subst hn
  exact Function.update_eq_self n h

/-- The first read of `init_task.prev_task`, while the other call is not linking. -/
theorem RingOk.enter (h : RingOk img forked xs ring f g) (hpages : PagesOk forked memMap f g)
    (hpc : f.pc = .readPrev) (hg : g.inLinks = false) :
    RingOk img forked (xs ++ [f.p]) ring
      { f with pc := .linkPrev, link := ring.prevOf img.initTask } g := by
  have hpage : f.hasPage = true := by simp [ForkCall.hasPage, hpc]
  have hon : f.onRing = false := by simp [ForkCall.onRing, hpc]
  have hin : f.inLinks = false := by simp [ForkCall.inLinks, hpc]
  have hnot := h.not_mem hpages hpage hon
  have hinit : img.initTask ≠ f.p := (hpages.left.ne_initTask img hpage).symm
  have hlist := h.list
  rw [ForkCall.finishLinks_eq hin, ForkCall.finishLinks_eq hg] at hlist
  have hassoc : forked ++ (xs ++ [f.p]) = forked ++ xs ++ [f.p] := (List.append_assoc ..).symm
  constructor
  case list =>
    rw [ForkCall.finishLinks_eq hg, hassoc]
    have hall := isList_setLinks hlist hnot
    simp only [setLinks, setLinksStores, List.foldl_cons, List.foldl_nil,
      setNext_eq_self (h.left.next hpc), prevOf_setPrev, if_neg hinit] at hall
    exact hall
  case mem =>
    intro q
    rw [List.mem_append, h.mem, hon, List.mem_singleton]
    simp [ForkCall.onRing, or_comm]
  case one => exact Or.inr hg
  case left =>
    refine ⟨by simp, fun _ => ?_, by simp⟩
    have hlast := (hlist.next_prev (n := img.initTask) (by simp)).2
    rw [hassoc, ← List.cons_append]
    exact List.mem_append_left _ hlast
  case right =>
    refine ⟨h.right.next, ?_, ?_⟩
    · rintro (he | he)
      · simp [ForkCall.inLinks, he] at hg
      · simp [ForkCall.inLinks, he] at hg
    · intro he
      simp [ForkCall.inLinks, he] at hg

theorem Quiet.inLinks {pc : Pc} (h : Quiet f.args f.pc pc) :
    f.inLinks = false ∧ (f.goto pc).inLinks = false := by
  generalize hpc : f.pc = old at h
  cases h <;> simp [ForkCall.inLinks, ForkCall.goto, hpc]

theorem Quiet.onRing {pc : Pc} (h : Quiet f.args f.pc pc) :
    (f.goto pc).onRing = f.onRing ∧ pc ≠ .readPrev := by
  generalize hpc : f.pc = old at h
  cases h <;> simp [ForkCall.onRing, ForkCall.goto, hpc]

theorem RingOk.step (h : RingOk img forked xs k.ring f g) (hpages : PagesOk forked k.memMap f g)
    (hstale : f.pc = .readPrev → g.inLinks = false) :
    ∃ xs', RingOk img forked xs' (forkStep img f k).2.ring (forkStep img f k).1 g := by
  have hmove := forkMove img f k
  generalize forkStep img f k = r at hmove
  cases hmove with
  | quiet pc k' hquiet hsame =>
      rw [hsame.ring]
      exact ⟨xs, h.goto hquiet.inLinks.1 hquiet.inLinks.2 hquiet.onRing.1 (fun _ => rfl)
        hquiet.onRing.2⟩
  | stay => exact ⟨xs, h⟩
  | clear hpc =>
      exact ⟨xs, h.private hpages (by simp [ForkCall.hasPage, hpc])
        (by simp [ForkCall.onRing, hpc]) (agreeExcept_update f.p k.ring _) rfl rfl
        fun he => by cases he⟩
  | linkNext hpc =>
      exact ⟨xs, h.private hpages (by simp [ForkCall.hasPage, hpc])
        (by simp [ForkCall.onRing, hpc]) (agreeExcept_update f.p k.ring _) rfl rfl
        fun _ => by simp [ForkCall.goto]⟩
  | readPrev hpc => exact ⟨_, h.enter hpages hpc (hstale hpc)⟩
  | linkPrev hpc =>
      have hpage : f.hasPage = true := by simp [ForkCall.hasPage, hpc]
      have hinit : img.initTask ≠ f.p := (hpages.left.ne_initTask img hpage).symm
      refine ⟨xs, h.own hpages (by simp [ForkCall.inLinks, hpc]) ?_ rfl rfl
        ⟨by simp [ForkCall.goto], fun _ => ?_, by simp [ForkCall.goto]⟩
        fun q _ => nextOf_setPrev ..⟩
      · simp [ForkCall.finishLinks, ForkCall.goto, hpc, hinit]
      · rw [prevOf_setPrev, if_neg hinit]
        exact h.left.last (Or.inl hpc)
  | readLast hpc =>
      exact ⟨xs, h.own hpages (by simp [ForkCall.inLinks, hpc])
        (by simp [ForkCall.finishLinks, hpc]) rfl rfl
        ⟨by simp, by simp, fun _ => h.left.last (Or.inr hpc)⟩ fun q _ => rfl⟩
  | linkLast hpc =>
      refine ⟨xs, h.own hpages (by simp [ForkCall.inLinks, hpc])
        (by simp [ForkCall.finishLinks, ForkCall.goto, hpc]) rfl rfl
        (linksOk_goto (Or.inl rfl)) fun q hq => ?_⟩
      have hlink := h.left.link hpc
      rw [nextOf_setNext, if_neg]
      rintro rfl
      exact hq hlink
  | linkHead hpc =>
      exact ⟨xs, h.own hpages (by simp [ForkCall.inLinks, hpc])
        (by simp [ForkCall.finishLinks, ForkCall.goto, hpc]) rfl rfl
        (linksOk_goto (Or.inr rfl)) fun q _ => nextOf_setPrev ..⟩
  | find i hpc _ _ | mark i hpc | take i hpc _ | freePage hpc | publish hpc | readFirst hpc
  | store n _ hpc _ =>
      exact ⟨xs, h.goto (by simp [ForkCall.inLinks, hpc]) rfl
        (by simp [ForkCall.onRing, ForkCall.goto, hpc])
        (by simp [ForkCall.onRing, ForkCall.goto, hpc]) fun he => by cases he⟩

/-! ## The run queue -/

/-- The stores of `__list_add` that the call has still to make. -/
def ForkCall.finishAdd (img : Image) (f : ForkCall) (runList : ListHeap) : ListHeap :=
  match f.pc with
  | .add n => ((f.addStores img).drop n).foldl (fun h store => store h) runList
  | _ => runList

/-- The call has read `rq_head.next`: its task counts as one of the queue. -/
def ForkCall.onQueue (f : ForkCall) : Bool :=
  match f.pc with
  | .add _ | .returned => true
  | _ => false

/-- Finished, the run queue has the tasks of the two calls in front of the `forked` ones. -/
structure QueueOk (img : Image) (forked ys : List U64) (runList : ListHeap) (f g : ForkCall) :
    Prop where
  list : (f.finishAdd img (g.finishAdd img runList)).IsList img.rqHead
    (ys ++ forked.reverse.map runListOf)
  mem : ∀ n, n ∈ ys ↔
    f.onQueue = true ∧ n = runListOf f.p ∨ g.onQueue = true ∧ n = runListOf g.p
  one : f.inAdd = false ∨ g.inAdd = false

theorem ForkCall.finishAdd_eq (h : f.inAdd = false) (runList : ListHeap) :
    f.finishAdd img runList = runList := by
  cases hpc : f.pc with
  | add n =>
      have hn : 4 ≤ n := by simpa [ForkCall.inAdd, hpc] using h
      have hlength : (f.addStores img).length ≤ n := hn
      simp only [ForkCall.finishAdd, hpc]
      rw [List.drop_eq_nil_of_le hlength]
      rfl
  | _ => simp [ForkCall.finishAdd, hpc]

theorem ForkCall.hasPage_of_onQueue (h : f.onQueue = true) : f.hasPage = true := by
  cases hpc : f.pc <;> simp [ForkCall.onQueue, ForkCall.hasPage, hpc] at h ⊢

theorem AgreeExcept.finishAdd {q : U64} {h h' : ListHeap} (hagree : AgreeExcept q h h')
    (f : ForkCall) : AgreeExcept q (f.finishAdd img h) (f.finishAdd img h') := by
  have hdrop : ∀ n, AgreeExcept q
      (((f.addStores img).drop n).foldl (fun h store => store h) h)
      (((f.addStores img).drop n).foldl (fun h store => store h) h') := by
    intro n
    match n with
    | 0 => exact (((hagree.setPrev _ _).setNext _ _).setPrev _ _).setNext _ _
    | 1 => exact ((hagree.setNext _ _).setPrev _ _).setNext _ _
    | 2 => exact (hagree.setPrev _ _).setNext _ _
    | 3 => exact hagree.setNext _ _
    | n + 4 =>
        rw [List.drop_eq_nil_of_le (by simp [ForkCall.addStores, listAddStores])]
        exact hagree
  unfold ForkCall.finishAdd
  split
  · exact hdrop _
  · exact hagree

theorem QueueOk.symm (h : QueueOk img forked ys runList f g) :
    QueueOk img forked ys runList g f where
  list := by
    have hlist := h.list
    rcases h.one with hf | hg
    · rwa [ForkCall.finishAdd_eq hf] at hlist ⊢
    · rwa [ForkCall.finishAdd_eq hg] at hlist ⊢
  mem := fun n => (h.mem n).trans or_comm
  one := h.one.symm

/-- The links of a task that the call has not begun to enqueue are on no list. -/
theorem QueueOk.not_mem (h : QueueOk img forked ys runList f g)
    (hpages : PagesOk forked memMap f g) (hpage : f.hasPage = true) (hf : f.onQueue = false) :
    runListOf f.p ∉ img.rqHead :: (ys ++ forked.reverse.map runListOf) := by
  obtain ⟨i, hi, hp, hnew⟩ := hpages.left.page hpage
  rw [List.mem_cons, List.mem_append, not_or, not_or]
  refine ⟨?_, fun hmem => ?_, fun hmem => ?_⟩
  · rw [hp]
    exact runListOf_pageAddr_ne_rqHead img hi
  · rcases (h.mem _).1 hmem with ⟨hon, -⟩ | ⟨hon, he⟩
    · exact absurd (hon.symm.trans hf) (by simp)
    · exact hpages.ne hpage (ForkCall.hasPage_of_onQueue hon) (runListOf_inj he)
  · obtain ⟨q, hq, he⟩ := List.mem_map.1 hmem
    exact hnew (runListOf_inj he ▸ List.mem_reverse.1 hq)

/-- The call moves on outside `list_add`. -/
theorem QueueOk.goto (h : QueueOk img forked ys runList f g) (hf : f.inAdd = false)
    (hf' : f'.inAdd = false) (hon : f'.onQueue = f.onQueue)
    (hp : f.onQueue = true → f'.p = f.p) : QueueOk img forked ys runList f' g where
  list := by
    have hlist := h.list
    rw [ForkCall.finishAdd_eq hf] at hlist
    rwa [ForkCall.finishAdd_eq hf']
  mem := by
    intro n
    rw [h.mem, hon]
    cases hqueue : f.onQueue with
    | false => simp
    | true => rw [hp hqueue]
  one := Or.inl hf'

/-- The `memset` of the call's own page. -/
theorem QueueOk.clear (h : QueueOk img forked ys runList f g) (hpages : PagesOk forked memMap f g)
    (hpc : f.pc = .clear) :
    QueueOk img forked ys (Function.update runList (runListOf f.p) ⟨0, 0⟩) (f.goto (.slot 0)) g := by
  have hpage : f.hasPage = true := by simp [ForkCall.hasPage, hpc]
  have hon : f.onQueue = false := by simp [ForkCall.onQueue, hpc]
  have hadd : f.inAdd = false := by simp [ForkCall.inAdd, hpc]
  have hagree := agreeExcept_update (runListOf f.p) runList ⟨0, 0⟩
  have hlist := h.list
  rw [ForkCall.finishAdd_eq hadd] at hlist
  have hclear : QueueOk img forked ys (Function.update runList (runListOf f.p) ⟨0, 0⟩) f g := by
    refine ⟨?_, h.mem, h.one⟩
    rw [ForkCall.finishAdd_eq hadd]
    exact (hagree.finishAdd g).isList hlist (h.not_mem hpages hpage hon)
  exact hclear.goto hadd rfl hon.symm (fun _ => rfl)

/-- The read of `rq_head.next`, while the other call is not enqueueing. -/
theorem QueueOk.enter (h : QueueOk img forked ys runList f g) (hpages : PagesOk forked memMap f g)
    (hpc : f.pc = .readFirst) (hg : g.inAdd = false) :
    QueueOk img forked (runListOf f.p :: ys) runList
      { f with pc := .add 0, link := runList.nextOf img.rqHead } g := by
  have hpage : f.hasPage = true := by simp [ForkCall.hasPage, hpc]
  have hon : f.onQueue = false := by simp [ForkCall.onQueue, hpc]
  have hadd : f.inAdd = false := by simp [ForkCall.inAdd, hpc]
  have hlist := h.list
  rw [ForkCall.finishAdd_eq hadd, ForkCall.finishAdd_eq hg] at hlist
  constructor
  case list =>
    rw [ForkCall.finishAdd_eq hg]
    exact isList_listAdd hlist (h.not_mem hpages hpage hon)
  case mem =>
    intro n
    rw [List.mem_cons, h.mem, hon]
    simp [ForkCall.onQueue]
  case one => exact Or.inr hg

/-- A store of `__list_add`. -/
theorem QueueOk.store (h : QueueOk img forked ys runList f g) {n : Nat} (hpc : f.pc = .add n)
    {store : ListHeap → ListHeap} (hstore : (f.addStores img)[n]? = some store) :
    QueueOk img forked ys (store runList) (f.goto (.add (n + 1))) g := by
  obtain ⟨hlt, hget⟩ := List.getElem?_eq_some_iff.1 hstore
  have hadd : f.inAdd = true := by
    simpa [ForkCall.inAdd, hpc, ForkCall.addStores, listAddStores] using hlt
  have hg : g.inAdd = false := by
    rcases h.one with he | he
    · exact absurd (he.symm.trans hadd) (by simp)
    · exact he
  constructor
  case list =>
    have hlist := h.list
    rw [ForkCall.finishAdd_eq hg] at hlist ⊢
    simp only [ForkCall.finishAdd, hpc] at hlist
    rw [List.drop_eq_getElem_cons hlt, hget] at hlist
    exact hlist
  case mem =>
    intro m
    rw [h.mem]
    simp [ForkCall.onQueue, ForkCall.goto, hpc]
  case one => exact Or.inr hg

theorem Quiet.inAdd {pc : Pc} (h : Quiet f.args f.pc pc) :
    f.inAdd = false ∧ (f.goto pc).inAdd = false := by
  generalize hpc : f.pc = old at h
  cases h with
  | added n hn => simp [ForkCall.inAdd, ForkCall.goto, hpc, hn]
  | _ => simp [ForkCall.inAdd, ForkCall.goto, hpc]

theorem Quiet.onQueue {pc : Pc} (h : Quiet f.args f.pc pc) :
    (f.goto pc).onQueue = f.onQueue := by
  generalize hpc : f.pc = old at h
  cases h <;> simp [ForkCall.onQueue, ForkCall.goto, hpc]

theorem QueueOk.step (h : QueueOk img forked ys k.runList f g)
    (hpages : PagesOk forked k.memMap f g) (hstale : f.pc = .readFirst → g.inAdd = false) :
    ∃ ys', QueueOk img forked ys' (forkStep img f k).2.runList (forkStep img f k).1 g := by
  have hmove := forkMove img f k
  generalize forkStep img f k = r at hmove
  cases hmove with
  | quiet pc k' hquiet hsame =>
      rw [hsame.runList]
      exact ⟨ys, h.goto hquiet.inAdd.1 hquiet.inAdd.2 hquiet.onQueue fun _ => rfl⟩
  | stay => exact ⟨ys, h⟩
  | clear hpc => exact ⟨ys, h.clear hpages hpc⟩
  | readFirst hpc => exact ⟨_, h.enter hpages hpc (hstale hpc)⟩
  | store n store hpc hstore => exact ⟨ys, h.store hpc hstore⟩
  | find i hpc _ _ | mark i hpc | take i hpc _ | freePage hpc | publish hpc | linkNext hpc
  | readPrev hpc | linkPrev hpc | readLast hpc | linkLast hpc | linkHead hpc =>
      exact ⟨ys, h.goto (by simp [ForkCall.inAdd, hpc]) rfl
        (by simp [ForkCall.onQueue, ForkCall.goto, hpc])
        (by simp [ForkCall.onQueue, ForkCall.goto, hpc])⟩

/-! ## The page map and the table of tasks -/

theorem Quiet.pageHold {pc : Pc} (h : Quiet f.args f.pc pc) :
    (f.goto pc).pageHold = f.pageHold := by
  generalize hpc : f.pc = old at h
  cases h <;> simp [ForkCall.pageHold, ForkCall.goto, hpc]

theorem Quiet.hasPage {pc : Pc} (h : Quiet f.args f.pc pc) :
    ((f.goto pc).hasPage = true → f.hasPage = true) ∧ ∀ i, pc ≠ .mark i := by
  generalize hpc : f.pc = old at h
  cases h <;> simp [ForkCall.hasPage, ForkCall.goto, hpc]

theorem PagesOk.step (h : PagesOk forked k.memMap f g)
    (hstale : ∀ i, f.pc = .scan i → g.pageHold ≠ .found i) :
    PagesOk forked (forkStep img f k).2.memMap (forkStep img f k).1 g := by
  have hmove := forkMove img f k
  generalize forkStep img f k = r at hmove
  cases hmove with
  | quiet pc k' hquiet hsame =>
      rw [hsame.memMap]
      exact h.goto hquiet.pageHold (fun hpage => ⟨hquiet.hasPage.1 hpage, rfl⟩) hquiet.hasPage.2
  | stay => exact h
  | find i hpc hi hfree => exact h.find hi hfree (hstale i hpc)
  | mark i hpc => exact h.mark hpc
  | freePage hpc => exact h.freePage (by simp [ForkCall.hasPage, hpc])
  | clear hpc | take i hpc _ | publish hpc | linkNext hpc | readPrev hpc | linkPrev hpc
  | readLast hpc | linkLast hpc | linkHead hpc | readFirst hpc | store n _ hpc _ =>
      exact h.goto (by simp [ForkCall.pageHold, ForkCall.goto, hpc])
        (fun _ => ⟨by simp [ForkCall.hasPage, hpc], rfl⟩) fun i => by simp [ForkCall.goto]

/-- The slots of the two calls in `g_task`. -/
def SlotsOk (gTask : Nat → U64) (f g : ForkCall) : Prop :=
  Shared 0#64 gTask f.slotHold g.slotHold

theorem SlotsOk.keep {gTask : Nat → U64} (h : SlotsOk gTask f g)
    (hhold : f'.slotHold = f.slotHold) : SlotsOk gTask f' g := by
  unfold SlotsOk
  rw [hhold]
  exact h

theorem SlotsOk.forget {gTask : Nat → U64} (h : SlotsOk gTask f g) (hhold : f'.slotHold = .none) :
    SlotsOk gTask f' g := by
  unfold SlotsOk
  rw [hhold]
  exact Shared.forget h

theorem SlotsOk.find {gTask : Nat → U64} (h : SlotsOk gTask f g) {i : Nat}
    (hfree : gTask i = 0#64) (hg : g.slotHold ≠ .found i) :
    SlotsOk gTask { f with pc := .copyThread, pid := i } g := by
  by_cases hrefused : StackRefused f.args.cloneFlags f.args.stack
  · exact h.forget (if_pos hrefused)
  · have hfound : ForkCall.slotHold { f with pc := .copyThread, pid := i } = .found i :=
      if_neg hrefused
    unfold SlotsOk
    rw [hfound]
    exact Shared.find h hfree hg

theorem SlotsOk.publish {gTask : Nat → U64} (h : SlotsOk gTask f g) (hpc : f.pc = .publish)
    (hne : f.p ≠ 0#64) : SlotsOk (Function.update gTask f.pid f.p) (f.goto .linkNext) g := by
  have hfound : f.slotHold = .found f.pid := by simp [ForkCall.slotHold, hpc]
  unfold SlotsOk at h
  rw [hfound] at h
  exact h.fill hne

theorem Quiet.slotHold {pc : Pc} (h : Quiet f.args f.pc pc) :
    (f.goto pc).slotHold = f.slotHold ∨ (f.goto pc).slotHold = .none := by
  generalize hpc : f.pc = old at h
  cases h with
  | copied haccepted => simp [ForkCall.slotHold, ForkCall.goto, hpc, haccepted]
  | _ => simp [ForkCall.slotHold, ForkCall.goto, hpc]

theorem SlotsOk.step (h : SlotsOk k.gTask f g) (hpages : PagesOk forked k.memMap f g)
    (hstale : ∀ i, f.pc = .slot i → g.slotHold ≠ .found i) :
    SlotsOk (forkStep img f k).2.gTask (forkStep img f k).1 g := by
  have hmove := forkMove img f k
  generalize forkStep img f k = r at hmove
  cases hmove with
  | quiet pc k' hquiet hsame =>
      rw [hsame.gTask]
      rcases hquiet.slotHold with hkept | hnone
      · exact h.keep hkept
      · exact h.forget hnone
  | stay => exact h
  | take i hpc hfree => exact h.find hfree (hstale i hpc)
  | publish hpc =>
      obtain ⟨i, hi, hp, -⟩ := hpages.left.page (by simp [ForkCall.hasPage, hpc])
      exact h.publish hpc (hp ▸ pageAddr_ne_zero hi)
  | find i hpc _ _ | mark i hpc | clear hpc | freePage hpc | linkNext hpc | readPrev hpc
  | linkPrev hpc | readLast hpc | linkLast hpc | linkHead hpc | readFirst hpc | store n _ hpc _ =>
      exact h.keep (by simp [ForkCall.slotHold, ForkCall.goto, hpc])

/-! ## Runs -/

/-- What holds between two steps, from the side of the call `f`. -/
structure RaceOk (img : Image) (forked : List U64) (k : Kernel) (f g : ForkCall) : Prop where
  pages : PagesOk forked k.memMap f g
  slots : SlotsOk k.gTask f g
  ring : ∃ xs, RingOk img forked xs k.ring f g
  queue : ∃ ys, QueueOk img forked ys k.runList f g

theorem RaceOk.symm (h : RaceOk img forked k f g) : RaceOk img forked k g f where
  pages := h.pages.symm
  slots := Shared.symm h.slots
  ring := h.ring.imp fun _ => RingOk.symm
  queue := h.queue.imp fun _ => QueueOk.symm

/-- In a consistent kernel, before the two calls. -/
theorem Consistent.raceOk {s : Sys} (h : Consistent img s) (a b : ForkArgs) :
    RaceOk img s.forked s.k (.start a) (.start b) where
  pages := by
    have hstart : ∀ args, PageOk s.forked (.start args) := fun args => ⟨nofun, nofun⟩
    exact ⟨⟨trivial, trivial, nofun⟩, h.page, hstart a, hstart b⟩
  slots := ⟨trivial, trivial, nofun⟩
  ring := by
    refine ⟨[], ?_, ?_, Or.inl rfl, ⟨nofun, ?_, nofun⟩, ⟨nofun, ?_, nofun⟩⟩
    · rw [List.append_nil]
      exact h.ring
    · simp [ForkCall.onRing, ForkCall.start]
    · simp [ForkCall.start]
    · simp [ForkCall.start]
  queue := by
    refine ⟨[], h.queue, ?_, Or.inl rfl⟩
    simp [ForkCall.onQueue, ForkCall.start]

/-- One step of one of the calls. -/
theorem RaceOk.step (img : Image) (forked : List U64) (who : Bool) (s s' : Race)
    (h : RaceOk img forked s.k (s.call who) (s.call !who)) (hstale : NoStaleRead who s)
    (hstep : raceStep img who s = some s') :
    RaceOk img forked s'.k (s'.call who) (s'.call !who) := by
  obtain rfl := Option.some.inj hstep
  have hself : Function.update s.call who (forkStep img (s.call who) s.k).1 who =
      (forkStep img (s.call who) s.k).1 := Function.update_self ..
  have hother : Function.update s.call who (forkStep img (s.call who) s.k).1 (!who) =
      s.call !who := Function.update_of_ne (by cases who <;> decide) ..
  show RaceOk img forked (forkStep img (s.call who) s.k).2
    (Function.update s.call who (forkStep img (s.call who) s.k).1 who)
    (Function.update s.call who (forkStep img (s.call who) s.k).1 (!who))
  rw [hself, hother]
  obtain ⟨xs, hring⟩ := h.ring
  obtain ⟨ys, hqueue⟩ := h.queue
  constructor
  case pages => exact h.pages.step fun i hpc => by simpa [NoStaleRead, hpc] using hstale
  case slots => exact h.slots.step h.pages fun i hpc => by simpa [NoStaleRead, hpc] using hstale
  case ring => exact hring.step h.pages fun hpc => by simpa [NoStaleRead, hpc] using hstale
  case queue => exact hqueue.step h.pages fun hpc => by simpa [NoStaleRead, hpc] using hstale

/-- Two calls that have succeeded. -/
theorem RaceOk.bothLinked {s : Race} (h : RaceOk img forked s.k (s.call false) (s.call true))
    (hreturned : ∀ who, (s.call who).pc = .returned) : BothLinked img forked s := by
  have hpage : ∀ who, (s.call who).hasPage = true := fun who => by
    simp [ForkCall.hasPage, hreturned who]
  have hslot : ∀ who, (s.call who).slotHold = .filled (s.call who).pid (s.call who).p :=
    fun who => by simp [ForkCall.slotHold, hreturned who]
  have hlinks : ∀ who, (s.call who).inLinks = false := fun who => by
    simp [ForkCall.inLinks, hreturned who]
  have hadd : ∀ who, (s.call who).inAdd = false := fun who => by
    simp [ForkCall.inAdd, hreturned who]
  have hslots := h.slots
  unfold SlotsOk at hslots
  rw [hslot, hslot] at hslots
  constructor
  case page => exact h.pages.ne (hpage false) (hpage true)
  case pid => exact fun he => hslots.apart _ rfl (congrArg some he.symm)
  case gTask =>
    intro who
    cases who with
    | false => exact hslots.left.1
    | true => exact hslots.right.1
  case ring =>
    obtain ⟨xs, hring⟩ := h.ring
    have hlist := hring.list
    rw [ForkCall.finishLinks_eq (hlinks false), ForkCall.finishLinks_eq (hlinks true)] at hlist
    have hon : ∀ who, (s.call who).onRing = true := fun who => by
      simp [ForkCall.onRing, hreturned who]
    refine ⟨xs, hlist, fun who => (hring.mem _).2 ?_⟩
    cases who with
    | false => exact Or.inl ⟨hon false, rfl⟩
    | true => exact Or.inr ⟨hon true, rfl⟩
  case queue =>
    obtain ⟨ys, hqueue⟩ := h.queue
    have hlist := hqueue.list
    rw [ForkCall.finishAdd_eq (hadd false), ForkCall.finishAdd_eq (hadd true)] at hlist
    have hon : ∀ who, (s.call who).onQueue = true := fun who => by
      simp [ForkCall.onQueue, hreturned who]
    refine ⟨ys, hlist, fun who => (hqueue.mem _).2 ?_⟩
    cases who with
    | false => exact Or.inl ⟨hon false, rfl⟩
    | true => exact Or.inr ⟨hon true, rfl⟩

/-- **No update is lost where no read is stale.**  In every interleaving of two calls of
`do_fork`, begun in any state that the kernel reaches, in which neither call reads a place
that the other one has read and will still store to: when both have succeeded they have
different pages and different identifiers, and both tasks are in `g_task`, on the task ring
and on the run queue, with all that were there before. -/
theorem bothLinked_run {fuel : Nat} {k₀ : Kernel} {s₀ : Sys} (hfuel : nrTasks ≤ fuel)
    (hs : Run.Reachable (sysStep img fuel) (Sys.boot img k₀) s₀) (args : Bool → ForkArgs)
    {steps : List Bool} {s : Race}
    (hstale : Run.Along (raceStep img) NoStaleRead steps (Race.start s₀.k args))
    (hrun : Run.exec (raceStep img) steps (Race.start s₀.k args) = some s)
    (hreturned : ∀ who, (s.call who).pc = .returned) : BothLinked img s₀.forked s := by
  have hstart := (consistent_reachable hfuel hs).raceOk (args false) (args true)
  have hok := Run.exec_invariant (I := fun s => RaceOk img s₀.forked s.k (s.call false)
    (s.call true)) ?_ hstart hstale hrun
  · exact hok.bothLinked hreturned
  · intro who s s' h hstale hstep
    cases who with
    | false => exact RaceOk.step img s₀.forked false s s' h hstale hstep
    | true => exact (RaceOk.step img s₀.forked true s s' h.symm hstale hstep).symm

instance (who : Bool) (s : Race) : Decidable (NoStaleRead who s) := by
  unfold NoStaleRead
  split <;> infer_instance

/-- The calls of `start_kernel`, made by two tasks. -/
def ForkArgs.sample (_ : Bool) : ForkArgs := ⟨Image.sample.initTask, pfKthread, 0x82000, 0⟩

/-- What two calls have come to: where they stand, their pages and their identifiers. -/
def Race.results (s : Race) : List (Pc × U64 × Nat) :=
  [false, true].map fun who => ((s.call who).pc, (s.call who).p, (s.call who).pid)

/-- One call that is preempted behind its search of `mem_map`, but not in it. -/
theorem bothLinked_run_sample :
    ∃ s, s.results = [(.returned, 0x400000, 2), (.returned, 0x401000, 1)] ∧
      BothLinked Image.sample [] s := by
  have hrun : (Run.exec (raceStep Image.sample)
      (List.replicate 2 false ++ List.replicate 22 true ++ List.replicate 20 false)
      (Race.start (Kernel.boot Image.sample Kernel.blank) .sample)).map Race.results =
        some [(.returned, 0x400000, 2), (.returned, 0x401000, 1)] := by
    decide +kernel
  obtain ⟨s, hs, hresults⟩ := Option.map_eq_some_iff.1 hrun
  have hreturned : ∀ who, (s.call who).pc = .returned := by
    simp only [Race.results, List.map_cons, List.map_nil, List.cons.injEq, Prod.mk.injEq] at hresults
    intro who
    cases who with
    | false => exact hresults.1.1
    | true => exact hresults.2.1.1
  exact ⟨s, hresults, bothLinked_run le_rfl (Run.Reachable.refl _) .sample (by decide +kernel) hs
    hreturned⟩

/-- A call that is preempted between its read of `mem_map[0]` and its store to it gets the page
that the other call has taken meanwhile. -/
theorem forks_share_page :
    ¬ ∀ steps s, Run.exec (raceStep Image.sample) steps
        (Race.start (Kernel.boot Image.sample Kernel.blank) .sample) = some s →
      (∀ who, (s.call who).pc = .returned) → BothLinked Image.sample [] s := by
  have hrun : (Run.exec (raceStep Image.sample)
      (false :: List.replicate 21 true ++ List.replicate 21 false)
      (Race.start (Kernel.boot Image.sample Kernel.blank) .sample)).map Race.results =
        some [(.returned, 0x400000, 2), (.returned, 0x400000, 1)] := by
    decide +kernel
  obtain ⟨s, hs, hresults⟩ := Option.map_eq_some_iff.1 hrun
  simp only [Race.results, List.map_cons, List.map_nil, List.cons.injEq, Prod.mk.injEq] at hresults
  intro hall
  have hlinked := hall _ s hs fun who => by
    cases who with
    | false => exact hresults.1.1
    | true => exact hresults.2.1.1
  exact hlinked.page (hresults.1.2.1.trans hresults.2.1.2.1.symm)

end Arm64OS
