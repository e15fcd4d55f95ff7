import Mathlib.Tactic
import Arm64OS.Lib.Run
import Arm64OS.Kernel.Irq
import Arm64OS.Printk.Number

/-!
# Lines from the UART

`uart_recv` and `uart_recv_string` of `arch/arm64/mach-rpi/pl_uart.c`, and the calls of
the latter that `start_kernel` makes one after the other.  A line that is ended in time is
returned as it was received; where the buffer fills first, or with the line end, the last
byte gives way to the NUL.  With a buffer of length 0 the NUL is stored in front of it.
-/

namespace Arm64OS

def uartFrRxfe : U32 := 1#32 <<< 4

/-- The receiving side of the UART. -/
structure Uart where
  /-- What the next looks at `UART_FR_REG` find, each with the word that is in
  `UART_DATA_REG` then. -/
  polls : List (U32 × U32)
  /-- The bytes read from `UART_DATA_REG` so far. -/
  taken : List Byte

/-- The `while` loop of `uart_recv`; the read behind it takes a byte off the FIFO. -/
def uartPoll : List (U32 × U32) → Option (Byte × List (U32 × U32))
  | [] => none
  | (fr, data) :: polls =>
      if fr &&& uartFrRxfe = 0#32 then some ((data &&& 0xFF#32).setWidth 8, polls)
      else uartPoll polls

def uartRecv (u : Uart) : Option (Byte × Uart) :=
  (uartPoll u.polls).map fun (c, polls) => (c, ⟨polls, u.taken ++ [c]⟩)

/-- `c == '\r' || c == '\n'`. -/
def isLineEnd (c : Byte) : Bool := c = ch '\r' || c = ch '\n'

/-- The loop of `uart_recv_string`; `left` is `len - index`. -/
def recvLoop : (left index : Nat) → (Int → Byte) → Uart → Option (Nat × (Int → Byte) × Uart)
  | 0, index, buf, u => some (index, buf, u)
  | left + 1, index, buf, u =>
      (uartRecv u).bind fun (c, u) =>
        if isLineEnd c then some (index + 1, Function.update buf index c, u)
        else recvLoop left (index + 1) (Function.update buf index c) u

/-- The index returned, the memory around `buf` and the UART. -/
def uartRecvString (buf : Int → Byte) (len : Int) (u : Uart) :
    Option (Int × (Int → Byte) × Uart) :=
  (recvLoop len.toNat 0 buf u).map fun (index, buf, u) =>
    let index : Int := if index = len then index - 1 else index
    (index, Function.update buf index 0#8, u)

/-! ## One call -/

/-- The bytes that the looks at the flags find. -/
def bytesOf : List (U32 × U32) → List Byte
  | [] => []
  | (fr, data) :: polls =>
      if fr &&& uartFrRxfe = 0#32 then (data &&& 0xFF#32).setWidth 8 :: bytesOf polls
      else bytesOf polls

/-- The line at the head of the input: up to a line end, and `left` bytes at most. -/
def lineOf : (left : Nat) → List Byte → List Byte
  | 0, _ => []
  | _, [] => []
  | left + 1, c :: cs => if isLineEnd c then [c] else c :: lineOf left cs

/-- Bytes stored from place `index` on. -/
def storeAt (index : Nat) (line : List Byte) (buf : Int → Byte) (j : Int) : Byte :=
  if index ≤ j ∧ j < index + line.length then line.getD (j - index).toNat 0#8 else buf j

variable {u u' : Uart} {buf buf' : Int → Byte} {len : Int} {left index index' : Nat} {c : Byte}

theorem uartPoll_eq (polls : List (U32 × U32)) :
    match uartPoll polls with
    | none => bytesOf polls = []
    | some (c, rest) => bytesOf polls = c :: bytesOf rest := by
  induction polls with
  | nil => rfl
  | cons poll polls ih =>
      obtain ⟨fr, data⟩ := poll
      by_cases hready : fr &&& uartFrRxfe = 0#32
      · simp [uartPoll, bytesOf, hready]
      · simpa [uartPoll, bytesOf, hready] using ih

/-- `uart_recv` waits for as long as no byte comes. -/
theorem uartRecv_eq_none (h : bytesOf u.polls = []) : uartRecv u = none := by
  have hpoll := uartPoll_eq u.polls
  cases hp : uartPoll u.polls with
  | none => rw [uartRecv, hp, Option.map_none]
  | some next => simp [hp, h] at hpoll

theorem uartRecv_eq_some {cs : List Byte} (h : bytesOf u.polls = c :: cs) :
    ∃ polls, uartRecv u = some (c, ⟨polls, u.taken ++ [c]⟩) ∧ bytesOf polls = cs := by
  have hpoll := uartPoll_eq u.polls
  cases hp : uartPoll u.polls with
  | none => simp [hp, h] at hpoll
  | some next =>
      obtain ⟨c', polls⟩ := next
      obtain ⟨rfl, rfl⟩ : c = c' ∧ cs = bytesOf polls := by simpa [hp, h] using hpoll
      exact ⟨polls, by rw [uartRecv, hp, Option.map_some], rfl⟩

theorem storeAt_nil (index : Nat) (buf : Int → Byte) : storeAt index [] buf = buf := by
  ext1 j
  exact if_neg (by simp)

theorem storeAt_cons (index : Nat) (c : Byte) (line : List Byte) (buf : Int → Byte) :
    storeAt (index + 1) line (Function.update buf index c) = storeAt index (c :: line) buf := by
  ext1 j
  obtain hlt | rfl | hgt := lt_trichotomy j (index : Int)
  · have hout : ¬ ((index + 1 : Nat) : Int) ≤ j := by omega
    rw [storeAt, storeAt, if_neg fun h => hout h.1, if_neg fun h => not_le.mpr hlt h.1,
      Function.update_of_ne hlt.ne]
  · simp [storeAt]
  · have hsub : (j - index).toNat = (j - (index + 1 : Nat)).toNat + 1 := by omega
    have hrange : ((index + 1 : Nat) ≤ j ∧ j < (index + 1 : Nat) + (line.length : Int)) ↔
        (index ≤ j ∧ j < index + ((c :: line).length : Int)) := by
      rw [List.length_cons]
      omega
    simp only [storeAt, hrange, hsub, List.getD_cons_succ, Function.update_of_ne hgt.ne']

theorem lineOf_length_le (left : Nat) (cs : List Byte) : (lineOf left cs).length ≤ left := by
  induction cs generalizing left with
  | nil => cases left <;> simp [lineOf]
  | cons c cs ih =>
      cases left with
      | zero => simp [lineOf]
      | succ left =>
          by_cases hend : isLineEnd c
          · simp [lineOf, hend]
          · simpa [lineOf, hend] using ih left

/-- The loop stores the line that it takes from the UART. -/
theorem recvLoop_spec (h : recvLoop left index buf u = some (index', buf', u')) :
    index' = index + (lineOf left (bytesOf u.polls)).length ∧
      buf' = storeAt index (lineOf left (bytesOf u.polls)) buf ∧
      u'.taken = u.taken ++ lineOf left (bytesOf u.polls) ∧
      bytesOf u.polls = lineOf left (bytesOf u.polls) ++ bytesOf u'.polls := by
  induction left generalizing index buf u with
  | zero =>
      obtain ⟨rfl, rfl, rfl⟩ : index = index' ∧ buf = buf' ∧ u = u' := by
        simpa [recvLoop] using h
      simp [lineOf, storeAt_nil]
  | succ left ih =>
      cases hbytes : bytesOf u.polls with
      | nil => simp [recvLoop, uartRecv_eq_none hbytes] at h
      | cons c cs =>
          obtain ⟨polls, hrecv, rfl⟩ := uartRecv_eq_some hbytes
          rw [recvLoop, hrecv, Option.bind_some] at h
          by_cases hend : isLineEnd c
          · obtain ⟨rfl, rfl, rfl⟩ : index + 1 = index' ∧ Function.update buf index c = buf' ∧
                ⟨polls, u.taken ++ [c]⟩ = u' := by
              simpa [hend] using h
            simp [lineOf, hend, ← storeAt_cons, storeAt_nil]
          · have hrest : recvLoop left (index + 1) (Function.update buf index c)
                ⟨polls, u.taken ++ [c]⟩ = some (index', buf', u') := by
              simpa [hend] using h
            obtain ⟨hindex, hbuf, htaken, hsplit⟩ := ih hrest
            have hline : lineOf (left + 1) (c :: bytesOf polls) =
                c :: lineOf left (bytesOf polls) := by
              simp [lineOf, hend]
            rw [hline, ← storeAt_cons]
            refine ⟨?_, hbuf, ?_, ?_⟩
            · rw [hindex, List.length_cons, Nat.add_assoc, Nat.add_comm 1]
            · rw [htaken, List.append_assoc, List.singleton_append]
            · rw [List.cons_append, ← hsplit]

/-- The line, with its last byte off where the buffer has no room for the NUL behind it. -/
def keptOf (len : Nat) (line : List Byte) : List Byte :=
  if line.length = len then line.dropLast else line

/-- The string returned is the prefix of the buffer in front of the NUL. -/
def prefixOf (buf : Int → Byte) (index : Int) : List Byte :=
  (List.range index.toNat).map fun j : Nat => buf j

theorem prefixOf_storeAt {line : List Byte} (h : index ≤ line.length) :
    prefixOf (Function.update (storeAt 0 line buf) index 0#8) index = line.take index := by
  refine List.ext_getElem (by simp [prefixOf, h]) fun j hj _ => ?_
  have hlt : j < index := by simpa [prefixOf] using hj
  have hline : j < line.length := by omega
  simp [prefixOf, storeAt, hlt.ne, hline]

/-- What a call does with the line `lineOf len` that it takes from the UART. -/
theorem uartRecvString_spec {index : Int} (hlen : 1 ≤ len)
    (h : uartRecvString buf len u = some (index, buf', u')) :
    (∀ j, j < 0 ∨ len ≤ j → buf' j = buf j) ∧ 0 ≤ index ∧ index < len ∧ buf' index = 0#8 ∧
      prefixOf buf' index = keptOf len.toNat (lineOf len.toNat (bytesOf u.polls)) ∧
      u'.taken = u.taken ++ lineOf len.toNat (bytesOf u.polls) ∧
      bytesOf u.polls = lineOf len.toNat (bytesOf u.polls) ++ bytesOf u'.polls := by
  obtain ⟨n, rfl⟩ : ∃ n : Nat, len = n := Int.eq_ofNat_of_zero_le (by omega)
  rw [uartRecvString, Int.toNat_natCast] at h
  obtain ⟨⟨end_, stored, uart⟩, hloop, heq⟩ := Option.map_eq_some_iff.mp h
  obtain ⟨hend, rfl, htaken, hsplit⟩ := recvLoop_spec hloop
  have hle := lineOf_length_le n (bytesOf u.polls)
  rw [Int.toNat_natCast]
  generalize lineOf n (bytesOf u.polls) = line at *
  obtain rfl : end_ = line.length := by omega
  -- the place of the NUL is inside the buffer, whether it was moved back or not
  obtain ⟨k, hk⟩ : ∃ k : Nat, k = if line.length = n then line.length - 1 else line.length :=
    ⟨_, rfl⟩
  have hplace : (if (line.length : Int) = n then (line.length : Int) - 1 else line.length) = k := by
    rw [hk]
    split <;> split <;> omega
  have hin : k < n ∧ k ≤ line.length := by
    rw [hk]
    split <;> omega
  simp only [hplace, Prod.mk.injEq] at heq
  obtain ⟨rfl, rfl, rfl⟩ := heq
  refine ⟨fun j hj => ?_, by omega, by omega, Function.update_self .., ?_, htaken, hsplit⟩
  · rw [Function.update_of_ne (by omega), storeAt, if_neg (by omega)]
  · rw [prefixOf_storeAt hin.2, keptOf, hk]
    split
    · exact List.dropLast_eq_take.symm
    · exact List.take_length

/-- Without room the NUL goes in front of the buffer. -/
example (buf : Int → Byte) (u : Uart) :
    uartRecvString buf 0 u = some (-1, Function.update buf (-1) 0#8, u) := rfl

/-- The loop ends as soon as there is a line end, or as many bytes as the buffer holds. -/
theorem recvLoop_isSome_iff :
    (recvLoop left index buf u).isSome ↔
      left ≤ (bytesOf u.polls).length ∨ ∃ c ∈ bytesOf u.polls, isLineEnd c := by
  induction left generalizing index buf u with
  | zero => simp [recvLoop]
  | succ left ih =>
      cases hbytes : bytesOf u.polls with
      | nil => simp [recvLoop, uartRecv_eq_none hbytes]
      | cons c cs =>
          obtain ⟨polls, hrecv, rfl⟩ := uartRecv_eq_some hbytes
          rw [recvLoop, hrecv, Option.bind_some]
          by_cases hend : isLineEnd c
          · simp [hend]
          · simp [hend, ih]

/-- The line leaves room in the buffer where it ends among the first bytes. -/
theorem lineOf_length_lt_iff {cs : List Byte}
    (h : left + 1 ≤ cs.length ∨ ∃ c ∈ cs, isLineEnd c) :
    (lineOf (left + 1) cs).length < left + 1 ↔ ∃ c ∈ cs.take left, isLineEnd c := by
  induction cs generalizing left with
  | nil => simp at h
  | cons c cs ih =>
      by_cases hend : isLineEnd c
      · cases left <;> simp [lineOf, hend]
      · cases left with
        | zero => simp [lineOf, hend]
        | succ left =>
            have hrest := @ih left (by simpa [hend] using h)
            simpa [lineOf, hend] using hrest

/-! ## Calls in a row -/

/-- The UART, the memory around `buf`, and all that the calls have returned. -/
structure LineReader where
  uart : Uart
  buf : Int → Byte
  returned : List Byte

def recvStep (len : Int) (s : LineReader) : Option LineReader :=
  (uartRecvString s.buf len s.uart).map fun (index, buf, uart) =>
    ⟨uart, buf, s.returned ++ prefixOf buf index⟩

/-- The line end is among the first `len - 1` bytes that are still to come. -/
def LineFits (len : Int) (s : LineReader) : Prop :=
  ∃ c ∈ (bytesOf s.uart.polls).take (len - 1).toNat, isLineEnd c

/-- A call stores into the buffer only, and puts a NUL at the index that it returns. -/
def StoresInside (len : Int) (s : LineReader) : Prop :=
  ∀ index buf u, uartRecvString s.buf len s.uart = some (index, buf, u) →
    (∀ j, j < 0 ∨ len ≤ j → buf j = s.buf j) ∧ 0 ≤ index ∧ index < len ∧ buf index = 0#8

variable {s s' : LineReader} {lens : List Int}

theorem recvStep_storesInside (hlen : 1 ≤ len) (s : LineReader) : StoresInside len s := by
  intro index buf u h
  obtain ⟨hframe, hlo, hhi, hnul, -⟩ := uartRecvString_spec hlen h
  exact ⟨hframe, hlo, hhi, hnul⟩

theorem keptOf_length_le (len : Nat) (line : List Byte) :
    (keptOf len line).length ≤ line.length := by
  unfold keptOf
  split <;> simp

/-- One call adds the line it takes to the bytes taken, and what it keeps of it to the bytes
returned. -/
theorem recvStep_spec (hlen : 1 ≤ len) (h : recvStep len s = some s') :
    ∃ line : List Byte, s'.uart.taken = s.uart.taken ++ line ∧
      s'.returned = s.returned ++ keptOf len.toNat line ∧ line.length ≤ len.toNat ∧
      (line.length < len.toNat ↔ LineFits len s) := by
  obtain ⟨⟨index, buf, uart⟩, hcall, rfl⟩ := Option.map_eq_some_iff.mp h
  obtain ⟨-, -, -, -, hkept, htaken, -⟩ := uartRecvString_spec hlen hcall
  obtain ⟨r, hloop, -⟩ := Option.map_eq_some_iff.mp hcall
  obtain ⟨left, hleft⟩ : ∃ left, len.toNat = left + 1 := ⟨len.toNat - 1, by omega⟩
  have hpred : (len - 1).toNat = left := by omega
  rw [hleft] at hkept htaken hloop
  rw [hleft, LineFits, hpred]
  exact ⟨_, htaken, congrArg (s.returned ++ ·) hkept, lineOf_length_le _ _,
    lineOf_length_lt_iff (recvLoop_isSome_iff.mp (by rw [hloop]; rfl))⟩

/-- A byte that is dropped once is missing for good. -/
theorem returned_lt_run (hlens : ∀ len ∈ lens, 1 ≤ len)
    (hrun : Run.exec recvStep lens s = some s')
    (hs : s.returned.length < s.uart.taken.length) :
    s'.returned.length < s'.uart.taken.length := by
  induction lens generalizing s with
  | nil =>
      obtain rfl : s = s' := by simpa using hrun
      exact hs
  | cons len lens ih =>
      obtain ⟨t, ht, hrest⟩ := Option.bind_eq_some_iff.mp hrun
      obtain ⟨line, htaken, hreturned, -⟩ := recvStep_spec (hlens len List.mem_cons_self) ht
      have hkept := keptOf_length_le len.toNat line
      refine ih (fun n hn => hlens n (List.mem_cons_of_mem _ hn)) hrest ?_
      rw [htaken, hreturned, List.length_append, List.length_append]
      omega

/-- Calls that return store into the buffer only, and end it at the index returned; together
they return all bytes taken from the UART if and only if, at each of them, a line end is among
the first `len - 1` bytes still to come. -/
theorem recvString_run_iff (hlens : ∀ len ∈ lens, 1 ≤ len) (hs : s.returned = s.uart.taken)
    (hrun : Run.exec recvStep lens s = some s') :
    (Run.Along recvStep StoresInside lens s ∧ s'.returned = s'.uart.taken) ↔
      Run.Along recvStep LineFits lens s := by
  induction lens generalizing s with
  | nil =>
      obtain rfl : s = s' := by simpa using hrun
      simp [hs]
  | cons len lens ih =>
      obtain ⟨t, ht, hrest⟩ := Option.bind_eq_some_iff.mp hrun
      have hlen := hlens len List.mem_cons_self
      have hlens' : ∀ n ∈ lens, 1 ≤ n := fun n hn => hlens n (List.mem_cons_of_mem _ hn)
      obtain ⟨line, htaken, hreturned, hle, hfits⟩ := recvStep_spec hlen ht
      have hstores := recvStep_storesInside hlen s
      rw [Run.along_cons_of_step ht, Run.along_cons_of_step ht, ← hfits]
      by_cases hroom : line.length < len.toNat
      · -- the line is kept as a whole, and the calls that follow decide
        have hkept : keptOf len.toNat line = line := if_neg hroom.ne
        have hnext : t.returned = t.uart.taken := by rw [htaken, hreturned, hkept, hs]
        have hrec := ih hlens' hnext hrest
        simp only [hstores, hroom, true_and]
        exact hrec
      · -- the buffer fills: the last byte of the line is lost
        have hkept : keptOf len.toNat line = line.dropLast := if_pos (by omega)
        have hlost : t.returned.length < t.uart.taken.length := by
          rw [htaken, hreturned, hkept, hs, List.length_append, List.length_append,
            List.length_dropLast]
          omega
        have hmissing := returned_lt_run hlens' hrest hlost
        simp only [hroom, false_and, iff_false, not_and]
        intro _ heq
        exact absurd (congrArg List.length heq) hmissing.ne

/-- A start of the calls, with `text` on the line. -/
def LineReader.ofText (text : List Char) : LineReader :=
  ⟨⟨text.map fun c => (0#32, BitVec.ofNat 32 c.toNat), []⟩, fun _ => 0#8, []⟩

/-- Two lines that fit. -/
theorem recvString_run_two :
    ∃ s, Run.exec recvStep [4, 4] (LineReader.ofText ['h', 'i', '\r', 'o', '\n']) = some s ∧
      s.returned = s.uart.taken := by
  have hfits : Run.Along recvStep LineFits [4, 4]
      (LineReader.ofText ['h', 'i', '\r', 'o', '\n']) := by
    refine ⟨⟨ch '\r', by decide, by decide⟩, ?_⟩
    rintro s hs
    obtain rfl := Option.some.inj hs
    exact ⟨⟨ch '\n', by decide, by decide⟩, fun _ _ => trivial⟩
  exact ⟨_, rfl, ((recvString_run_iff (by decide) rfl rfl).mpr hfits).2⟩

/-- A line of two characters and its end, read into a buffer of two: the `b` is lost. -/
theorem recvString_drops :
    ∃ s, Run.exec recvStep [2, 2] (LineReader.ofText ['a', 'b', '\r']) = some s ∧
      s.uart.taken = [ch 'a', ch 'b', ch '\r'] ∧ s.returned ≠ s.uart.taken :=
  ⟨_, rfl, rfl, by decide⟩

end Arm64OS
