import Arm64OS.Printk.Bounds

/-!
# `printk` and its log buffer

`printk` formats into `print_buf`.  Before `init_printk_done` the message is recorded in
`log_buf`; afterwards it goes to `putchar`.  `init_printk_done` replays what was recorded.

The state keeps `log_buf` apart from the rest of memory, as a map from offsets, together
with the offsets that were accessed; offsets from `LOG_BUF_LEN` on are outside the array.
Pointers handed to `%n` do not point into it.
-/

namespace Arm64OS

/-- `LOG_BUF_LEN`. -/
def logBufLen : Nat := 1 <<< 17

/-- `CONSOLE_PRINT_BUFFER_SIZE`. -/
def printBufSize : Nat := 1024

/-- Where the linker puts `print_buf`. -/
structure PrintBuf where
  addr : U64
  ne_null : addr ≠ 0#64
  fits : addr.toNat + printBufSize ≤ 2 ^ 64

def PrintBuf.buffer (buf : PrintBuf) : Buffer where
  string := buf.addr
  size := printBufSize
  ne_null := buf.ne_null
  size_lt := by decide
  fits := buf.fits

/-- A call of `printk`, with the value that the uninitialised `base` of `myprintf` has. -/
structure Call where
  fmt : CString
  args : VaList
  base : Int

inductive PrintkStatus
  | down
  | ready
  deriving DecidableEq

/-- The variables of `printk.c`, memory, and what `putchar` was given so far. -/
structure Console where
  status : PrintkStatus
  mem : U64 → Byte
  log : U64 → Byte
  /-- `g_record - log_buf` -/
  record : U64
  recordLen : U64
  /-- the offsets from `log_buf` that were accessed -/
  touched : List U64
  out : List Byte

/-- Byte stores, oldest first. -/
def storeAll (stores : List (U64 × Byte)) (mem : U64 → Byte) : U64 → Byte :=
  stores.foldl (fun mem st => Function.update mem st.1 st.2) mem

/-- `n` addresses, or offsets, from `a` on. -/
def offsets (a : U64) (n : Nat) : List U64 := (List.range n).map fun i => a + BitVec.ofNat 64 i

/-- A length as the `size_t` of `memcpy`, which has 32 bits. -/
def sizeT (len : Int) : Nat := (BitVec.ofInt 32 len).toNat

/-- `memcpy(g_record, text, len)`, `g_record = log_buf + len` and `g_record_len += len`. -/
def recordText (len : Int) (text : List Byte) (c : Console) : Console :=
  { c with
    log := storeAll ((offsets c.record text.length).zip text) c.log
    record := BitVec.ofInt 64 len
    recordLen := c.recordLen + BitVec.ofInt 64 len
    touched := c.touched ++ offsets c.record text.length }

/-- How often the loop of `printk` calls `putchar`: it stops once `i > sizeof(print_buf)`. -/
def printedCount (len : Int) : Nat := min len.toNat (printBufSize + 2)

/-- `printk`: the value returned, the bytes of `print_buf` that are read, and the state. -/
def printk (buf : PrintBuf) (call : Call) (c : Console) : Option (Int × List U64 × Console) := do
  let (len, s) ← myprintf (call.fmt.length + 1) buf.addr call.fmt.byte call.args call.base
  let mem := storeAll s.stores c.mem
  let c := { c with mem := mem }
  match c.status with
  | .down =>
      let src := offsets buf.addr (sizeT len)
      some (0, src, recordText len (src.map mem) c)
  | .ready =>
      let src := offsets buf.addr (printedCount len)
      some (len, src, { c with out := c.out ++ src.map mem })

/-- `init_printk_done`. -/
def initPrintkDone (c : Console) : Console :=
  let src := offsets 0 c.recordLen.toNat
  { c with
    status := .ready
    out := c.out ++ src.map c.log
    touched := c.touched ++ src
    record := 0
    recordLen := 0 }

/-- A sequence of calls. -/
def printkAll (buf : PrintBuf) : List Call → Console → Option Console
  | [], c => some c
  | call :: calls, c => do
      let (_, _, c) ← printk buf call c
      printkAll buf calls c

/-- The state that the zeroed `.bss` and the initialisers leave; `mem` is the rest of memory. -/
def Console.boot (mem : U64 → Byte) : Console := ⟨.down, mem, fun _ => 0#8, 0, 0, [], []⟩

/-! ## One message -/

/-- The number of characters that the format of a call asks for. -/
def Call.demand (call : Call) : Option Nat :=
  Arm64OS.demand call.args (items (call.fmt.length + 1) call.fmt.chars) 0 call.base

/-- The message of the call is shorter than `print_buf`. -/
def Call.Short (call : Call) : Prop := ∃ n, call.demand = some n ∧ n < printBufSize

/-- The stores of `myprintf` in a call. -/
def Call.stores (buf : PrintBuf) (call : Call) : List (U64 × Byte) :=
  finalStores call.args buf.addr (items (call.fmt.length + 1) call.fmt.chars)
    (Printf.start buf.addr call.base)

/-- The formatted message: what the call leaves in `print_buf`. -/
def Call.formatted (buf : PrintBuf) (call : Call) : List Byte :=
  (offsets buf.addr (call.demand.getD 0)).map (storeAll (call.stores buf) fun _ => 0#8)

variable {args : VaList}

/-- An item that asks for `k` characters moves the cursor by `k`. -/
theorem Item.apply_pos (string : U64) {it : Item} {s : Printf} {k : Nat}
    (hk : it.length args s.arg s.base = some k) :
    ((it.outcome args s.arg s.base).apply string it.slots s).pos = s.pos + BitVec.ofNat 64 k ∧
      (it.outcome args s.arg s.base).text.length = k := by
  have hlength := (it.measures args s.arg s.base).length
  rw [hk] at hlength
  cases hnull : (it.outcome args s.arg s.base).null with
  | true => simp [hnull] at hlength
  | false =>
      have htext : (it.outcome args s.arg s.base).text.length = k := by
        simpa [hnull] using hlength.symm
      exact ⟨by simp [Outcome.apply, hnull, htext], htext⟩

theorem demand_cons (string : U64) {it : Item} {its : List Item} {s : Printf} {n : Nat}
    (hn : demand args (it :: its) s.arg s.base = some n) :
    ∃ k m, it.length args s.arg s.base = some k ∧ n = k + m ∧
      demand args its ((it.outcome args s.arg s.base).apply string it.slots s).arg
        ((it.outcome args s.arg s.base).apply string it.slots s).base = some m := by
  have hbase := (it.measures args s.arg s.base).base
  cases hlength : it.length args s.arg s.base with
  | none => simp [demand, hlength] at hn
  | some k =>
      cases hrest : demand args its (s.arg + it.slots) (it.base s.base) with
      | none => simp [demand, hlength, hrest] at hn
      | some m =>
          refine ⟨k, m, rfl, ?_, ?_⟩
          · simpa [demand, hlength, hrest] using hn.symm
          · rw [← hrest, ← hbase]
            rfl

/-- The place of the cursor behind a format. -/
theorem runItems_pos (string : U64) (its : List Item) {s : Printf} {n : Nat}
    (hn : demand args its s.arg s.base = some n) :
    (runItems args string its s).pos = s.pos + BitVec.ofNat 64 n := by
  induction its generalizing s n with
  | nil =>
      obtain rfl : 0 = n := Option.some.inj hn
      simp [runItems]
  | cons it its ih =>
      obtain ⟨k, m, hk, rfl, hm⟩ := demand_cons string hn
      have hrun : runItems args string (it :: its) s =
          runItems args string its ((it.outcome args s.arg s.base).apply string it.slots s) := by
        rw [← Item.run_eq]
        rfl
      rw [hrun, ih hm, (Item.apply_pos string hk).1, BitVec.ofNat_add, BitVec.add_assoc]

theorem exists_mem_layout {text : List Byte} {i : Nat} (hi : i < text.length) (a : U64) :
    ∃ b, (a + BitVec.ofNat 64 i, b) ∈ layout a text := by
  induction text generalizing a i with
  | nil => simp at hi
  | cons b text ih =>
      cases i with
      | zero => exact ⟨b, by simp⟩
      | succ i =>
          obtain ⟨b', hb'⟩ := ih (i := i) (by simpa using hi) (a + 1)
          refine ⟨b', List.mem_cons_of_mem _ ?_⟩
          rwa [BitVec.ofNat_add, BitVec.add_comm (BitVec.ofNat 64 i), ← BitVec.add_assoc]

/-- Every place of the message is stored to. -/
theorem exists_mem_finalStores (string : U64) (its : List Item) {s : Printf} {n i : Nat}
    (hn : demand args its s.arg s.base = some n) (hi : i < n) :
    ∃ b, (s.pos + BitVec.ofNat 64 i, b) ∈ finalStores args string its s := by
  induction its generalizing s n i with
  | nil =>
      obtain rfl : 0 = n := Option.some.inj hn
      omega
  | cons it its ih =>
      obtain ⟨k, m, hk, rfl, hm⟩ := demand_cons string hn
      obtain ⟨hpos, htext⟩ := Item.apply_pos string hk
      rw [finalStores_cons]
      by_cases hik : i < k
      · obtain ⟨b, hb⟩ := exists_mem_layout (htext ▸ hik) s.pos
        refine ⟨b, stores_subset_finalStores its _ ?_⟩
        simp [Outcome.apply, hb]
      · obtain ⟨b, hb⟩ := ih hm (i := i - k) (by omega)
        refine ⟨b, ?_⟩
        have hplace : k + (i - k) = i := by omega
        rwa [hpos, BitVec.add_assoc, ← BitVec.ofNat_add, hplace] at hb

/-- A place that is stored to has the same content whatever was there before. -/
theorem storeAll_congr {stores : List (U64 × Byte)} {a : U64} {b : Byte}
    (h : (a, b) ∈ stores) (mem mem' : U64 → Byte) : storeAll stores mem a = storeAll stores mem' a := by
  induction stores using List.reverseRecOn with
  | nil => simp at h
  | append_singleton stores st ih =>
      simp only [storeAll, List.foldl_append, List.foldl_cons, List.foldl_nil]
      by_cases hst : a = st.1
      · rw [hst, Function.update_self, Function.update_self]
      · rw [Function.update_of_ne hst, Function.update_of_ne hst]
        refine ih ?_
        rcases List.mem_append.1 h with h | h
        · exact h
        · exact absurd (congrArg Prod.fst (List.mem_singleton.1 h)) hst

theorem argInt_ofNat {n : Nat} (hn : n < 2 ^ 31) : argInt (BitVec.ofNat 64 n) = n := by
  have hlow : (BitVec.ofNat 32 n).toNat = n := by
    rw [BitVec.toNat_ofNat]
    omega
  rw [argInt, BitVec.setWidth_ofNat_of_le (by decide), BitVec.toInt_eq_toNat_cond, hlow]
  omega

/-- The value that `myprintf` returns for a short message. -/
theorem myprintf_short (buf : PrintBuf) {call : Call} {n : Nat} (hn : call.demand = some n)
    (hshort : n < printBufSize) :
    ∃ s, myprintf (call.fmt.length + 1) buf.addr call.fmt.byte call.args call.base =
        some ((n : Int), s) ∧ s.stores = call.stores buf := by
  have hpos := runItems_pos buf.addr _ (s := Printf.start buf.addr call.base) hn
  have hlen : (Printf.start buf.addr call.base).pos + BitVec.ofNat 64 n - buf.addr =
      BitVec.ofNat 64 n := by
    show buf.addr + BitVec.ofNat 64 n - buf.addr = BitVec.ofNat 64 n
    rw [BitVec.add_comm, BitVec.add_sub_cancel]
  have hint : argInt (BitVec.ofNat 64 n) = n := argInt_ofNat (by unfold printBufSize at hshort; omega)
  rw [myprintf_eq call.fmt call.args call.base (Nat.lt_succ_self _)]
  simp only [hpos, hlen, hint]
  exact ⟨_, rfl, by rw [← hpos]; rfl⟩

/-- What a short call leaves in `print_buf`, whatever was in memory before. -/
theorem map_storeAll_eq_formatted {buf : PrintBuf} {call : Call} {n : Nat}
    (hn : call.demand = some n) (mem : U64 → Byte) :
    (offsets buf.addr n).map (storeAll (call.stores buf) mem) = call.formatted buf := by
  rw [Call.formatted, hn, Option.getD_some]
  refine List.map_congr_left fun a ha => ?_
  obtain ⟨i, hi, rfl⟩ := List.mem_map.1 ha
  obtain ⟨b, hb⟩ := exists_mem_finalStores buf.addr _
    (s := Printf.start buf.addr call.base) hn (List.mem_range.1 hi)
  exact storeAll_congr hb _ _

theorem length_formatted (buf : PrintBuf) {call : Call} {n : Nat} (hn : call.demand = some n) :
    (call.formatted buf).length = n := by
  simp [Call.formatted, hn, offsets]

theorem sizeT_natCast {n : Nat} (hn : n < printBufSize) : sizeT n = n := by
  unfold printBufSize at hn
  rw [sizeT, BitVec.ofInt_natCast, BitVec.toNat_ofNat, Nat.mod_eq_of_lt (by omega)]

/-- **A short call before `init_printk_done`** records its message. -/
theorem printk_down (buf : PrintBuf) {call : Call} {n : Nat} {c : Console}
    (hn : call.demand = some n) (hshort : n < printBufSize) (hdown : c.status = .down) :
    ∃ src mem, printk buf call c = some (0, src, recordText n (call.formatted buf)
      { c with mem := mem }) := by
  obtain ⟨s, hmyprintf, hstores⟩ := myprintf_short buf hn hshort
  refine ⟨offsets buf.addr n, storeAll s.stores c.mem, ?_⟩
  rw [← map_storeAll_eq_formatted hn c.mem, ← hstores]
  simp [printk, hmyprintf, hdown, sizeT_natCast hshort]

/-! ## `print_buf` is not left -/

/-- All that a call of `printk` writes and reads through `print_buf` is inside it. -/
def PrintkInBuffer (buf : PrintBuf) (call : Call) (c : Console) : Prop :=
  StoresInBuffer buf.buffer call.fmt call.args call.base ∧
  ∃ ret src c', printk buf call c = some (ret, src, c') ∧ ∀ a ∈ src, InBuffer buf.buffer a

theorem printkInBuffer_iff (buf : PrintBuf) (call : Call) (c : Console) :
    PrintkInBuffer buf call c ↔ Fits buf.buffer call.fmt call.args call.base := by
  rw [PrintkInBuffer, storesInBuffer_iff]
  constructor
  · rintro ⟨hfits, -⟩
    exact hfits
  · intro hfits
    obtain ⟨n, hn, hshort, -⟩ := id hfits
    obtain ⟨s, hmyprintf, -⟩ := myprintf_short buf hn hshort
    have hcount : sizeT n = n := sizeT_natCast hshort
    have hprinted : printedCount n = n := by
      have hlt : n < printBufSize := hshort
      simp only [printedCount, Int.toNat_natCast]
      omega
    have hsrc : ∀ a ∈ offsets buf.addr n, InBuffer buf.buffer a := by
      intro a ha
      obtain ⟨i, hi, rfl⟩ := List.mem_map.1 ha
      have hlt : i < printBufSize := (List.mem_range.1 hi).trans hshort
      have hoffset := inBuffer_offset (n := i) (show i ≤ buf.buffer.size from hlt.le)
      exact hoffset.2 hlt
    refine ⟨hfits, ?_⟩
    cases hstatus : c.status with
    | down =>
        refine ⟨0, offsets buf.addr n, ?_, ?_, hsrc⟩
        rotate_left
        · simp only [printk, hmyprintf, hstatus, hcount, Option.bind_eq_bind, Option.bind_some]
          rfl
    | ready =>
        refine ⟨n, offsets buf.addr n, ?_, ?_, hsrc⟩
        rotate_left
        · simp only [printk, hmyprintf, hstatus, hprinted, Option.bind_eq_bind, Option.bind_some]
          rfl

/-- **Nothing but the number of characters keeps `myprintf` in its buffer.**  All its stores
are inside the buffer if and only if the format asks for fewer characters than the buffer
has bytes and every `%n` is given a pointer into the buffer; and the same condition decides
for `printk` and `print_buf`. -/
theorem inBuffer_iff (buf : Buffer) (printBuf : PrintBuf) (call : Call) (c : Console) :
    (StoresInBuffer buf call.fmt call.args call.base ↔ Fits buf call.fmt call.args call.base) ∧
      (PrintkInBuffer printBuf call c ↔ Fits printBuf.buffer call.fmt call.args call.base) :=
  ⟨storesInBuffer_iff buf call.fmt call.args call.base, printkInBuffer_iff printBuf call c⟩

/-- `print_buf` at an address of the kernel's `.bss`. -/
def PrintBuf.sample : PrintBuf := ⟨0xffff0000000b0000#64, by decide, by decide⟩

/-- `printk("%1024d", 7)`. -/
def Call.wide : Call where
  fmt := CString.ofList (['%', '1', '0', '2', '4', 'd'].map ch)
  args := ⟨fun _ => 7#64, fun _ => []⟩
  base := 0

/-- A number of 1024 characters fills `print_buf`, and the NUL is stored behind it. -/
theorem wide_leaves_print_buf :
    ¬ StoresInBuffer PrintBuf.sample.buffer Call.wide.fmt Call.wide.args Call.wide.base ∧
      ¬ PrintkInBuffer PrintBuf.sample Call.wide (Console.boot fun _ => 0#8) := by
  have hdemand : Call.wide.demand = some 1024 := by decide +kernel
  have hfits : ¬ Fits PrintBuf.sample.buffer Call.wide.fmt Call.wide.args Call.wide.base := by
    rintro ⟨n, hn, hshort, -⟩
    rw [Call.demand] at hdemand
    rw [hdemand] at hn
    obtain rfl : 1024 = n := Option.some.inj hn
    exact absurd hshort (by decide)
  exact ⟨fun h => hfits ((storesInBuffer_iff _ _ _ _).1 h),
    fun h => hfits ((printkInBuffer_iff _ _ _).1 h)⟩

end Arm64OS
