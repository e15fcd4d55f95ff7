import Arm64OS.Printk.Printk
import Arm64OS.Lib.Run

/-!
# `printk` calls that interrupt each other

All calls of `printk` share `print_buf`.  A call at task level is taken apart into its byte
stores and its calls of `putchar`, and an interrupt may come between any two of them: its
handler may print, and another task may run when it is over.  `exec_printk` says that a call
that is not interrupted is `printk`, `printed_exact` which stores the calls must not make for
every message to come out as it was formatted.
-/

namespace Arm64OS

/-- A call of `printk` at task level that has not returned. -/
structure Printing where
  call : Call
  /-- the stores of `myprintf` that are still to come -/
  todo : List (U64 × Byte)
  /-- what `myprintf` returns -/
  len : Int
  i : Nat
  /-- the bytes that the call has passed to `putchar` -/
  sent : List Byte

/-- The console, the task that runs, the calls that the tasks are in, and the calls that have
returned, with what each of them passed to `putchar`. -/
structure Printers where
  console : Console
  current : Nat
  printing : Nat → Option Printing
  returned : List (Call × List Byte)

/-- After `init_printk_done`, before the first call. -/
def Printers.init (c : Console) : Printers := ⟨initPrintkDone c, 0, fun _ => none, []⟩

inductive PrintEvent
  /-- the task that runs calls `printk` -/
  | call (call : Call)
  /-- the next step of the call that it is in -/
  | step
  /-- an interrupt: the call of `printk` that its handler makes, if any, and the task that
  runs when it is over -/
  | irq (tick : Option Call) (next : Nat)

def Printers.setPrinting (p : Option Printing) (s : Printers) : Printers :=
  { s with printing := Function.update s.printing s.current p }

/-- One store, one round of the loop of `printk`, or its end. -/
def Printers.advance (buf : PrintBuf) (p : Printing) (s : Printers) : Printers :=
  match p.todo with
  | (x, b) :: rest =>
      let console := { s.console with mem := Function.update s.console.mem x b }
      { s with console := console }.setPrinting (some { p with todo := rest })
  | [] =>
      if p.i < printedCount p.len then
        let b := s.console.mem (buf.addr + BitVec.ofNat 64 p.i)
        let console := { s.console with out := s.console.out ++ [b] }
        { s with console := console }.setPrinting
          (some { p with i := p.i + 1, sent := p.sent ++ [b] })
      else { s with returned := s.returned ++ [(p.call, p.sent)] }.setPrinting none

/-- One step of the machine.  A format, its arguments and its strings do not change while a
call is in progress, so the stores of `myprintf` are known when it begins. -/
def printStep (buf : PrintBuf) : PrintEvent → Printers → Option Printers
  | .call call, s =>
      match s.printing s.current with
      | some _ => none
      | none => do
          let (len, p) ← myprintf (call.fmt.length + 1) buf.addr call.fmt.byte call.args call.base
          some (s.setPrinting (some ⟨call, p.stores, len, 0, []⟩))
  | .step, s => (s.printing s.current).map fun p => s.advance buf p
  | .irq none next, s => some { s with current := next }
  | .irq (some call) next, s => do
      let (_, src, console) ← printk buf call s.console
      some { s with
        console := console
        current := next
        returned := s.returned ++ [(call, src.map console.mem)] }

/-! ## Stores that spare the other calls -/

/-- A cell that the call has to pass to `putchar` and will not store to again. -/
def Printing.Holds (buf : PrintBuf) (p : Printing) (x : U64) : Prop :=
  x ∈ (offsets buf.addr (printedCount p.len)).drop p.i ∧ x ∉ p.todo.map Prod.fst

/-- The store changes no cell that a call of a task other than `own` holds. -/
def Printers.Spares (buf : PrintBuf) (own : Option Nat) (st : U64 × Byte) (s : Printers) : Prop :=
  ∀ t p, some t ≠ own → s.printing t = some p → p.Holds buf st.1 → st.2 = s.console.mem st.1

/-- The messages fit into `print_buf`, and no call stores into a cell that another one holds,
unless it stores the byte that is there. -/
def Apart (buf : PrintBuf) : PrintEvent → Printers → Prop
  | .call call, _ => call.Short
  | .step, s => ∀ p ∈ s.printing s.current, ∀ st ∈ p.todo.head?, s.Spares buf (some s.current) st
  | .irq tick _, s => ∀ call ∈ tick, call.Short ∧ ∀ st ∈ call.stores buf, s.Spares buf none st

/-! ## One call -/

/-- The last store to a cell decides. -/
theorem storeAll_append_cons {todo : List (U64 × Byte)} {x : U64} (hx : x ∉ todo.map Prod.fst)
    (done : List (U64 × Byte)) (b : Byte) (mem : U64 → Byte) :
    storeAll (done ++ (x, b) :: todo) mem x = b := by
  induction todo using List.reverseRecOn with
  | nil => simp [storeAll]
  | append_singleton todo st ih =>
      have hne : x ≠ st.1 := fun h => hx (by simp [h])
      have hrest : x ∉ todo.map Prod.fst := fun h => hx (by simp [h])
      rw [← List.cons_append, ← List.append_assoc, storeAll, List.foldl_append]
      simp only [List.foldl_cons, List.foldl_nil]
      rw [Function.update_of_ne hne]
      exact ih hrest

theorem storeAll_eq_self {stores : List (U64 × Byte)} {x : U64} {mem : U64 → Byte}
    (h : ∀ st ∈ stores, st.1 = x → st.2 = mem x) : storeAll stores mem x = mem x := by
  induction stores using List.reverseRecOn with
  | nil => rfl
  | append_singleton stores st ih =>
      simp only [storeAll, List.foldl_append, List.foldl_cons, List.foldl_nil]
      by_cases hst : x = st.1
      · have hbyte := h st (by simp) hst.symm
        rw [hst, Function.update_self, hbyte, hst]
      · rw [Function.update_of_ne hst]
        exact ih fun st' hst' => h st' (by simp [hst'])

theorem printedCount_natCast {n : Nat} (hn : n < printBufSize) : printedCount n = n := by
  unfold printedCount
  rw [Int.toNat_natCast]
  omega

/-- The byte that the call itself leaves in a cell. -/
def Call.byteAt (buf : PrintBuf) (call : Call) (x : U64) : Byte :=
  storeAll (call.stores buf) (fun _ => 0#8) x

theorem formatted_eq (buf : PrintBuf) {call : Call} {n : Nat} (hn : call.demand = some n) :
    call.formatted buf = (offsets buf.addr n).map (call.byteAt buf) := by
  rw [Call.formatted, hn, Option.getD_some]
  rfl

/-- **A short call after `init_printk_done`** prints its message. -/
theorem printk_ready (buf : PrintBuf) {call : Call} (hshort : call.Short) {c : Console}
    (hready : c.status = .ready) :
    ∃ len src c', printk buf call c = some (len, src, c') ∧
      c'.status = .ready ∧ c'.mem = storeAll (call.stores buf) c.mem ∧
      src.map c'.mem = call.formatted buf := by
  obtain ⟨n, hn, hlt⟩ := hshort
  obtain ⟨s, hmyprintf, hstores⟩ := myprintf_short buf hn hlt
  have htext := @map_storeAll_eq_formatted buf call n hn c.mem
  have hrun : printk buf call c = some ((n : Int), offsets buf.addr n,
      { c with
        mem := storeAll (call.stores buf) c.mem
        out := c.out ++ call.formatted buf }) := by
    rw [← htext, ← hstores]
    simp [printk, hmyprintf, hready, printedCount_natCast hlt]
  exact ⟨_, _, _, hrun, hready, rfl, htext⟩

/-- What holds of a call in progress, in the memory `mem`. -/
structure PrintingOk (buf : PrintBuf) (mem : U64 → Byte) (p : Printing) : Prop where
  short : ∃ n, p.call.demand = some n ∧ n < printBufSize ∧ p.len = n
  stores : ∃ done, done ++ p.todo = p.call.stores buf
  sent : p.sent = (p.call.formatted buf).take p.i
  held : ∀ x, p.Holds buf x → mem x = p.call.byteAt buf x

variable {buf : PrintBuf} {mem : U64 → Byte} {p : Printing}

/-- Nothing but the cells that are held matters. -/
theorem PrintingOk.of_mem (h : PrintingOk buf mem p) {mem' : U64 → Byte}
    (hmem : ∀ x, p.Holds buf x → mem' x = mem x) : PrintingOk buf mem' p where
  short := h.short
  stores := h.stores
  sent := h.sent
  held := fun x hx => (hmem x hx).trans (h.held x hx)

theorem PrintingOk.start {call : Call} {n : Nat} (hn : call.demand = some n)
    (hlt : n < printBufSize) (mem : U64 → Byte) :
    PrintingOk buf mem ⟨call, call.stores buf, n, 0, []⟩ where
  short := ⟨n, hn, hlt, rfl⟩
  stores := ⟨[], rfl⟩
  sent := by simp
  held := by
    rintro x ⟨hx, hnot⟩
    -- every cell of the message is stored to
    simp only [printedCount_natCast hlt, List.drop_zero] at hx
    obtain ⟨i, hi, rfl⟩ := List.mem_map.1 hx
    obtain ⟨b, hb⟩ := exists_mem_finalStores buf.addr _
      (s := Printf.start buf.addr call.base) hn (List.mem_range.1 hi)
    exact absurd (List.mem_map.2 ⟨_, hb, rfl⟩) hnot

/-- The call stores a byte. -/
theorem PrintingOk.store (h : PrintingOk buf mem p) {x : U64} {b : Byte}
    {rest : List (U64 × Byte)} (htodo : p.todo = (x, b) :: rest) :
    PrintingOk buf (Function.update mem x b) { p with todo := rest } where
  short := h.short
  stores := by
    obtain ⟨done, hdone⟩ := h.stores
    exact ⟨done ++ [(x, b)], by rw [← hdone, htodo]; simp⟩
  sent := h.sent
  held := by
    rintro y ⟨hy, hnot⟩
    by_cases hyx : y = x
    · subst hyx
      obtain ⟨done, hdone⟩ := h.stores
      show Function.update mem y b y = storeAll (p.call.stores buf) (fun _ => 0#8) y
      rw [Function.update_self, ← hdone, htodo, storeAll_append_cons hnot]
    · rw [Function.update_of_ne hyx]
      refine h.held y ⟨hy, ?_⟩
      rw [htodo, List.map_cons, List.mem_cons, not_or]
      exact ⟨hyx, hnot⟩

/-- The call passes a byte to `putchar`: the next one of its message. -/
theorem PrintingOk.putchar (h : PrintingOk buf mem p) (htodo : p.todo = [])
    (hi : p.i < printedCount p.len) :
    PrintingOk buf mem { p with
      i := p.i + 1, sent := p.sent ++ [mem (buf.addr + BitVec.ofNat 64 p.i)] } where
  short := h.short
  stores := h.stores
  sent := by
    obtain ⟨n, hn, hlt, hlen⟩ := h.short
    have hlength : (offsets buf.addr n).length = n := by simp [offsets]
    rw [hlen, printedCount_natCast hlt] at hi
    have hcell : (offsets buf.addr n)[p.i]? = some (buf.addr + BitVec.ofNat 64 p.i) := by
      simp [offsets, hi]
    have hheld : p.Holds buf (buf.addr + BitVec.ofNat 64 p.i) := by
      refine ⟨?_, by simp [htodo]⟩
      rw [hlen, printedCount_natCast hlt]
      exact List.mem_of_getElem? (i := 0) (by rw [List.getElem?_drop, Nat.add_zero, hcell])
    have hbyte : (p.call.formatted buf)[p.i]? =
        some (mem (buf.addr + BitVec.ofNat 64 p.i)) := by
      rw [formatted_eq buf hn, List.getElem?_map, hcell, h.held _ hheld]
      rfl
    show p.sent ++ [_] = (p.call.formatted buf).take (p.i + 1)
    rw [List.take_add_one, hbyte, h.sent]
    rfl
  held := by
    rintro x ⟨hx, hnot⟩
    refine h.held x ⟨?_, hnot⟩
    have hsuffix := List.drop_suffix_drop_left (offsets buf.addr (printedCount p.len))
      (Nat.le_succ p.i)
    exact hsuffix.subset hx

/-- The call returns: its message is out. -/
theorem PrintingOk.sent_all (h : PrintingOk buf mem p) (hi : ¬ p.i < printedCount p.len) :
    p.sent = p.call.formatted buf := by
  obtain ⟨n, hn, hlt, hlen⟩ := h.short
  rw [hlen, printedCount_natCast hlt] at hi
  rw [h.sent, List.take_of_length_le]
  rw [length_formatted buf hn]
  omega

/-! ## Runs -/

/-- What holds in every state: the calls in progress are in order, and those that have
returned have printed their messages. -/
structure PrintersOk (buf : PrintBuf) (s : Printers) : Prop where
  ready : s.console.status = .ready
  printing : ∀ t p, s.printing t = some p → PrintingOk buf s.console.mem p
  returned : ∀ e ∈ s.returned, e.2 = e.1.formatted buf

theorem printersOk_init (buf : PrintBuf) (c : Console) : PrintersOk buf (Printers.init c) where
  ready := rfl
  printing := fun _ _ h => by simp [Printers.init] at h
  returned := by simp [Printers.init]

variable {s s' : Printers}

/-- The call of the task that runs has moved on; the cells that the others hold are as before. -/
theorem PrintersOk.setPrinting (h : PrintersOk buf s) {c : Console} (hc : c.status = .ready)
    {own : Option Printing} (hown : ∀ p ∈ own, PrintingOk buf c.mem p)
    (hmem : ∀ t p, t ≠ s.current → s.printing t = some p → ∀ x, p.Holds buf x →
      c.mem x = s.console.mem x) :
    PrintersOk buf ({ s with console := c }.setPrinting own) where
  ready := hc
  printing := by
    intro t p hp
    change Function.update s.printing s.current own t = some p at hp
    by_cases ht : t = s.current
    · rw [ht, Function.update_self] at hp
      exact hown p hp
    · rw [Function.update_of_ne ht] at hp
      exact (h.printing t p hp).of_mem (hmem t p ht hp)
  returned := h.returned

/-- The task that runs enters `printk`. -/
theorem PrintersOk.call (h : PrintersOk buf s) {call : Call} (hshort : call.Short)
    (hstep : printStep buf (.call call) s = some s') : PrintersOk buf s' := by
  obtain ⟨n, hn, hlt⟩ := hshort
  obtain ⟨r, hmyprintf, hstores⟩ := myprintf_short buf hn hlt
  cases hidle : s.printing s.current with
  | some p => simp [printStep, hidle] at hstep
  | none =>
      simp only [printStep, hidle, hmyprintf, hstores, Option.bind_eq_bind, Option.bind_some,
        Option.some.injEq] at hstep
      subst hstep
      refine h.setPrinting h.ready ?_ fun _ _ _ _ _ _ => rfl
      intro p hp
      obtain rfl := Option.some.inj hp
      exact PrintingOk.start hn hlt _

/-- The call of the task that runs takes a step. -/
theorem PrintersOk.advance (h : PrintersOk buf s) (hp : s.printing s.current = some p)
    (hspares : ∀ st ∈ p.todo.head?, s.Spares buf (some s.current) st) :
    PrintersOk buf (s.advance buf p) := by
  have hok := h.printing _ p hp
  unfold Printers.advance
  split
  case h_1 x b rest htodo =>
    refine h.setPrinting (c := { s.console with mem := Function.update s.console.mem x b })
      h.ready ?_ ?_
    · intro q hq
      obtain rfl := Option.some.inj hq
      exact hok.store htodo
    · intro t q ht hq y hy
      have hspare := hspares (x, b) (by simp [htodo]) t q (by simpa using ht) hq
      show Function.update s.console.mem x b y = s.console.mem y
      by_cases hyx : y = x
      · subst hyx
        rw [Function.update_self]
        exact hspare hy
      · rw [Function.update_of_ne hyx]
  case h_2 htodo =>
    split
    case isTrue hi =>
      refine h.setPrinting (c := { s.console with
        out := s.console.out ++ [s.console.mem (buf.addr + BitVec.ofNat 64 p.i)] })
        h.ready ?_ fun _ _ _ _ _ _ => rfl
      intro q hq
      obtain rfl := Option.some.inj hq
      exact hok.putchar htodo hi
    case isFalse hi =>
      have hdone : PrintersOk buf { s with returned := s.returned ++ [(p.call, p.sent)] } := by
        refine ⟨h.ready, h.printing, fun e he => ?_⟩
        rcases List.mem_append.1 he with he | he
        · exact h.returned e he
        · rw [List.mem_singleton.1 he]
          exact hok.sent_all hi
      exact hdone.setPrinting hdone.ready (by simp) fun _ _ _ _ _ _ => rfl

/-- An interrupt whose handler prints. -/
theorem PrintersOk.tick (h : PrintersOk buf s) {call : Call} (hshort : call.Short)
    (hspares : ∀ st ∈ call.stores buf, s.Spares buf none st) {next : Nat}
    (hstep : printStep buf (.irq (some call) next) s = some s') : PrintersOk buf s' := by
  obtain ⟨len, src, c, hprintk, hready, hmem, htext⟩ := printk_ready buf hshort h.ready
  simp only [printStep, hprintk, Option.bind_eq_bind, Option.bind_some,
    Option.some.injEq] at hstep
  subst hstep
  refine ⟨hready, fun t p hp => ?_, fun e he => ?_⟩
  · refine (h.printing t p hp).of_mem fun x hx => ?_
    show c.mem x = s.console.mem x
    rw [hmem]
    refine storeAll_eq_self fun st hst hstx => ?_
    have hspare := hspares st hst t p (by simp) hp
    rw [hstx] at hspare
    exact hspare hx
  · rcases List.mem_append.1 he with he | he
    · exact h.returned e he
    · rw [List.mem_singleton.1 he]
      exact htext

/-- One step. -/
theorem PrintersOk.step (e : PrintEvent) (s s' : Printers) (h : PrintersOk buf s)
    (hapart : Apart buf e s) (hstep : printStep buf e s = some s') : PrintersOk buf s' := by
  match e with
  | .call call => exact h.call hapart hstep
  | .step =>
      obtain ⟨p, hp, rfl⟩ := Option.map_eq_some_iff.1 hstep
      exact h.advance hp (hapart p hp)
  | .irq none next =>
      obtain rfl := Option.some.inj hstep
      exact ⟨h.ready, h.printing, h.returned⟩
  | .irq (some call) next =>
      obtain ⟨hshort, hspares⟩ := hapart call rfl
      exact h.tick hshort hspares hstep

/-! ## Calls that are not interrupted -/

instance (call : Call) : Decidable call.Short :=
  decidable_of_iff (∃ n ∈ call.demand, n < printBufSize) Iff.rfl

theorem Printers.advance_setPrinting (s : Printers) (own : Option Printing) (p : Printing) :
    (s.setPrinting own).advance buf p = s.advance buf p := by
  unfold Printers.advance
  split
  · simp only [Printers.setPrinting, Function.update_idem]
  · simp only [Printers.setPrinting, Function.update_idem]

theorem printStep_step (s : Printers) (p : Printing) :
    printStep buf .step (s.setPrinting (some p)) = some (s.advance buf p) := by
  have hp : (s.setPrinting (some p)).printing (s.setPrinting (some p)).current = some p :=
    Function.update_self ..
  rw [printStep, hp, Option.map_some, Printers.advance_setPrinting]

/-- The stores of `myprintf`, with nothing in between. -/
theorem exec_stores (s : Printers) (p : Printing) :
    Run.exec (printStep buf) (List.replicate p.todo.length .step) (s.setPrinting (some p)) =
      some ({ s with
        console := { s.console with mem := storeAll p.todo s.console.mem } }.setPrinting
          (some { p with todo := [] })) := by
  obtain ⟨call, todo, len, i, sent⟩ := p
  induction todo generalizing s with
  | nil => rfl
  | cons st todo ih =>
      rw [List.length_cons, List.replicate_succ, Run.exec_cons, printStep_step]
      exact ih _

/-- `m` rounds of the loop, with nothing in between. -/
theorem exec_putchars (s : Printers) (call : Call) (len : Int) (i m : Nat) (sent : List Byte)
    (hm : i + m ≤ printedCount len) :
    Run.exec (printStep buf) (List.replicate m .step)
        (s.setPrinting (some ⟨call, [], len, i, sent⟩)) =
      some ({ s with
        console := { s.console with
          out := s.console.out ++
            (List.range' i m).map fun j => s.console.mem (buf.addr + BitVec.ofNat 64 j) } }.setPrinting
          (some ⟨call, [], len, i + m, sent ++
            (List.range' i m).map fun j => s.console.mem (buf.addr + BitVec.ofNat 64 j)⟩)) := by
  induction m generalizing s i sent with
  | zero => simp
  | succ m ih =>
      have hi : i < printedCount len := by omega
      rw [List.replicate_succ, Run.exec_cons, printStep_step]
      simp only [Printers.advance, if_pos hi, Option.bind_some]
      rw [ih _ _ _ (by omega)]
      simp [List.range'_succ, Nat.add_assoc, Nat.add_comm 1]

/-- **A call that is not interrupted** does what `printk` does. -/
theorem exec_printk {s : Printers} (hidle : s.printing s.current = none)
    (hready : s.console.status = .ready) {call : Call} {len : Int} {src : List U64} {c : Console}
    (hcall : printk buf call s.console = some (len, src, c)) :
    ∃ n, Run.exec (printStep buf) (.call call :: List.replicate n .step) s =
      some { s with console := c, returned := s.returned ++ [(call, src.map c.mem)] } := by
  obtain ⟨⟨len', r⟩, hmyprintf, hrest⟩ := Option.bind_eq_some_iff.1 hcall
  simp only [hready, Option.some.injEq, Prod.mk.injEq] at hrest
  obtain ⟨rfl, rfl, rfl⟩ := hrest
  refine ⟨r.stores.length + (printedCount len' + 1), ?_⟩
  have hbegin : printStep buf (.call call) s =
      some (s.setPrinting (some ⟨call, r.stores, len', 0, []⟩)) := by
    simp [printStep, hidle, hmyprintf]
  rw [Run.exec_cons, hbegin, Option.bind_some, List.replicate_add, Run.exec_append]
  have hprinted : 0 + printedCount len' ≤ printedCount len' := by omega
  have hstores := @exec_stores buf s ⟨call, r.stores, len', 0, []⟩
  rw [hstores, Option.bind_some, List.replicate_add, Run.exec_append,
    exec_putchars _ _ _ _ _ _ hprinted, Option.bind_some]
  show (printStep buf .step (Printers.setPrinting _ _)).bind _ = _
  rw [printStep_step]
  simp [Printers.advance, Printers.setPrinting, List.range_eq_range', offsets, hready, hidle]

/-- No task is switched away from while it is in `printk`, and a handler that prints spares the
cells that the interrupted call holds. -/
def Unswitched (buf : PrintBuf) : PrintEvent → Printers → Prop
  | .call call, _ => call.Short
  | .step, _ => True
  | .irq tick next, s =>
      (∀ call ∈ tick, call.Short ∧ ∀ p ∈ s.printing s.current, ∀ st ∈ call.stores buf,
        p.Holds buf st.1 → st.2 = s.console.mem st.1) ∧
      (next = s.current ∨ (s.printing s.current).isNone)

instance (p : Printing) (x : U64) : Decidable (p.Holds buf x) := by
  unfold Printing.Holds
  infer_instance

/-- Along the list: a cell and a byte also have finitely many values, but too many to go through. -/
instance (p : Printing) (stores : List (U64 × Byte)) (mem : U64 → Byte) :
    Decidable (∀ st ∈ stores, p.Holds buf st.1 → st.2 = mem st.1) :=
  List.decidableBAll _ stores

instance (e : PrintEvent) (s : Printers) : Decidable (Unswitched buf e s) := by
  unfold Unswitched
  split <;> infer_instance

/-- The other tasks are not in `printk`. -/
def Printers.Alone (s : Printers) : Prop := ∀ t, t ≠ s.current → s.printing t = none

theorem Printers.Alone.setPrinting (h : s.Alone) (p : Option Printing) :
    (s.setPrinting p).Alone := by
  intro t ht
  change t ≠ s.current at ht
  show Function.update s.printing s.current p t = none
  rw [Function.update_of_ne ht]
  exact h t ht

/-- Behind an interrupt another task runs only if the one before is not in `printk`. -/
theorem Printers.Alone.switch {s : Printers} (h : s.Alone) {next : Nat}
    (hnext : next = s.current ∨ (s.printing s.current).isNone) :
    ∀ t, t ≠ next → s.printing t = none := by
  intro t ht
  by_cases hcurrent : t = s.current
  · rcases hnext with rfl | hnone
    · exact absurd hcurrent ht
    · rw [hcurrent]
      exact Option.isNone_iff_eq_none.1 hnone
  · exact h t hcurrent

theorem Printers.Alone.step (e : PrintEvent) (s s' : Printers) (h : s.Alone)
    (hquiet : Unswitched buf e s) (hstep : printStep buf e s = some s') : s'.Alone := by
  match e with
  | .call call =>
      simp only [printStep] at hstep
      split at hstep
      · simp at hstep
      · obtain ⟨r, -, hr⟩ := Option.bind_eq_some_iff.1 hstep
        obtain rfl := Option.some.inj hr
        exact h.setPrinting _
  | .step =>
      obtain ⟨p, -, rfl⟩ := Option.map_eq_some_iff.1 hstep
      unfold Printers.advance
      split
      · exact h.setPrinting _
      · split
        · exact h.setPrinting _
        · exact h.setPrinting _
  | .irq none next =>
      obtain rfl := Option.some.inj hstep
      exact h.switch hquiet.2
  | .irq (some call) next =>
      obtain ⟨r, -, hr⟩ := Option.bind_eq_some_iff.1 hstep
      obtain rfl := Option.some.inj hr
      exact h.switch hquiet.2

/-- Where no task is switched away from in a call, the stores of each call are apart from the
others. -/
theorem apart_of_unswitched {c : Console} {events : List PrintEvent}
    (h : Run.Along (printStep buf) (Unswitched buf) events (Printers.init c)) :
    Run.Along (printStep buf) (Apart buf) events (Printers.init c) := by
  refine Run.along_of_invariant Printers.Alone.step ?_ (fun _ _ => rfl) h
  intro e s hs hquiet
  match e with
  | .call call => exact hquiet
  | .step =>
      intro p _ st _ t q ht hq
      rw [hs t (by simpa using ht)] at hq
      simp at hq
  | .irq tick next =>
      intro call hcall
      obtain ⟨hshort, hspares⟩ := hquiet.1 call hcall
      refine ⟨hshort, fun st hst t q _ hq => ?_⟩
      by_cases ht : t = s.current
      · exact hspares q (ht ▸ hq) st hst
      · rw [hs t ht] at hq
        simp at hq

/-! ## The messages -/

/-- **Messages that are not stored over come out whole.**  In every run after
`init_printk_done` in which the messages fit into `print_buf` and no call stores over a cell
that another one has still to print, a call that has returned has passed its own message to
`putchar`, and a call in progress the front of it. -/
theorem printed_exact (buf : PrintBuf) (c : Console) {events : List PrintEvent} {s : Printers}
    (hapart : Run.Along (printStep buf) (Apart buf) events (Printers.init c))
    (hrun : Run.exec (printStep buf) events (Printers.init c) = some s) :
    (∀ e ∈ s.returned, e.2 = e.1.formatted buf) ∧
      ∀ t p, s.printing t = some p → p.sent = (p.call.formatted buf).take p.i := by
  have hok := Run.exec_invariant PrintersOk.step (printersOk_init buf c) hapart hrun
  exact ⟨hok.returned, fun t p hp => (hok.printing t p hp).sent⟩

/-- `printk("pid %d need_resched\n", pid)` of `task_tick_nop`. -/
def Call.needResched (pid : Nat) : Call where
  fmt := CString.ofList ("pid %d need_resched\n".toList.map ch)
  args := ⟨fun _ => BitVec.ofNat 64 pid, fun _ => []⟩
  base := 0

/-- `printk("hello\n")`. -/
def Call.hello : Call where
  fmt := CString.ofList ("hello\n".toList.map ch)
  args := ⟨fun _ => 0, fun _ => []⟩
  base := 0

/-- An interrupt whose handler prints the same message comes in the middle of a call, the tick
behind its last `putchar`, and another task prints then. -/
def interruptedHello : List PrintEvent :=
  .call .hello :: List.replicate 10 .step ++ .irq (some .hello) 0 :: List.replicate 3 .step ++
    .irq (some (.needResched 1)) 0 :: .step :: .irq none 2 :: .call .hello :: List.replicate 9 .step

theorem printed_exact_sample :
    ∃ s, Run.exec (printStep .sample) interruptedHello
        (Printers.init (Console.boot fun _ => 0#8)) = some s ∧
      s.returned.length = 3 ∧ (∀ e ∈ s.returned, e.2 = e.1.formatted .sample) ∧
        ∀ t p, s.printing t = some p → p.sent = (p.call.formatted .sample).take p.i := by
  have hthree : (Run.exec (printStep .sample) interruptedHello
      (Printers.init (Console.boot fun _ => 0#8))).map (·.returned.length) = some 3 := by
    decide +kernel
  obtain ⟨s, hs, hlength⟩ := Option.map_eq_some_iff.1 hthree
  have hquiet : Run.Along (printStep .sample) (Unswitched .sample) interruptedHello
      (Printers.init (Console.boot fun _ => 0#8)) := by
    decide +kernel
  exact ⟨s, hs, hlength, printed_exact .sample _ (apart_of_unswitched hquiet) hs⟩

/-- A tick that comes before the first `putchar` stores its message over that of the task. -/
theorem tick_overwrites_message :
    ¬ ∀ events s, Run.exec (printStep .sample) events
        (Printers.init (Console.boot fun _ => 0#8)) = some s →
      ∀ e ∈ s.returned, e.2 = e.1.formatted .sample := by
  have hrun : (Run.exec (printStep .sample)
      (.call .hello :: List.replicate 7 .step ++ .irq (some (.needResched 1)) 0 ::
        List.replicate 7 .step)
      (Printers.init (Console.boot fun _ => 0#8))).map
        (fun s => s.returned.map fun e => (e.2, e.1.formatted .sample)) =
      some [("pid 1 need_resched\n".toList.map ch, "pid 1 need_resched\n".toList.map ch),
        ("pid 1 ".toList.map ch, "hello\n".toList.map ch)] := by
    decide +kernel
  intro hall
  obtain ⟨s, hs, hmap⟩ := Option.map_eq_some_iff.1 hrun
  have hpairs : ∀ r ∈ s.returned.map fun e => (e.2, e.1.formatted .sample), r.1 = r.2 := by
    intro r hr
    obtain ⟨e, he, rfl⟩ := List.mem_map.1 hr
    exact hall _ s hs e he
  rw [hmap] at hpairs
  exact absurd (hpairs _ (List.mem_cons_of_mem _ List.mem_cons_self)) (by decide)

end Arm64OS
