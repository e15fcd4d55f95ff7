import Arm64OS.Arch.PlUart

/-!
# The loop of `start_kernel`

`start_kernel` ends in a loop that sends a prompt, takes a line from the UART, sends it back and
sends a line end.  `uart_send` and `uart_recv` look at the flags and touch the data register in
two steps, and between any two steps bytes may arrive, bytes may leave the transmit FIFO, and an
interrupt may come whose handler prints, or another thread may run and print.

What the loop is to send is a function of what is typed, `transcript`.  `PromptLoop.Inv` says how
far it is with that, and `inv_promptStep` that every step keeps it, whoever makes it.
-/

namespace Arm64OS

def uartFrTxff : U32 := 1#32 <<< 5

/-- `sizeof(buffer)`. -/
def sizeofBuffer : Nat := 64

def promptText : List Byte := [ch '>', ch ' ']

def newlineText : List Byte := [ch '\r', ch '\n']

/-! ## The loop and the UART -/

/-- The strings that a turn of the loop sends. -/
inductive Text
  | prompt
  | buffer
  | newline
  deriving DecidableEq

/-- Where the loop is: in the `while` of `uart_send` or before its `writel`, or in the `while` of
`uart_recv` or before its second `readl`, each for the byte with an index. -/
inductive PromptPc
  | poll (text : Text) (i : Nat)
  | write (text : Text) (i : Nat)
  | wait (index : Nat)
  | read (index : Nat)
  deriving DecidableEq

def PromptPc.isWrite : PromptPc → Bool
  | .write _ _ => true
  | _ => false

/-- Who writes a byte: the loop, or the handler of an interrupt or another thread. -/
inductive Sender
  | loop
  | other
  deriving DecidableEq

structure PromptLoop where
  pc : PromptPc
  /-- `buffer` -/
  buf : Nat → Byte
  /-- the receive FIFO -/
  rx : List Byte
  /-- the transmit FIFO, and what has left it -/
  tx : List (Sender × Byte)
  wire : List (Sender × Byte)
  /-- the bytes that the loop has read from `UART_DATA_REG`, and those that it has written -/
  taken : List Byte
  sent : List Byte

inductive PromptEvent
  /-- the loop up to its next access to the UART -/
  | loop
  /-- the `writel` of somebody else, whose look at the flags may be long past -/
  | other (c : Byte)
  | arrive (c : Byte)
  | drain

namespace PromptLoop

/-- The memory behind a string; the strings of the source end in a NUL. -/
def text (s : PromptLoop) : Text → Nat → Byte
  | .prompt, i => promptText.getD i 0#8
  | .buffer, i => s.buf i
  | .newline, i => newlineText.getD i 0#8

/-- Where `uart_send_string` returns to. -/
def afterText : Text → PromptPc
  | .prompt => .wait 0
  | .buffer => .poll .newline 0
  | .newline => .poll .prompt 0

/-- `UART_FR_REG`, of which two flags are looked at; `depth` is the size of the FIFOs. -/
def flags (depth : Nat) (s : PromptLoop) : U32 :=
  (if s.rx = [] then uartFrRxfe else 0#32) ||| if depth ≤ s.tx.length then uartFrTxff else 0#32

/-- A write to `UART_DATA_REG`; a full FIFO takes no byte. -/
def put (depth : Nat) (who : Sender) (c : Byte) (s : PromptLoop) : PromptLoop :=
  if s.tx.length < depth then { s with tx := s.tx ++ [(who, c)] } else s

/-- The end of `uart_recv_string`, behind its loop. -/
def endLine (index : Nat) (s : PromptLoop) : PromptLoop :=
  let index := if index = sizeofBuffer then index - 1 else index
  { s with buf := Function.update s.buf index 0#8, pc := .poll .buffer 0 }

def loopStep (depth : Nat) (s : PromptLoop) : Option PromptLoop :=
  match s.pc with
  | .poll text i =>
      if s.text text i = 0#8 then some { s with pc := afterText text }
      else if s.flags depth &&& uartFrTxff ≠ 0#32 then some s
      else some { s with pc := .write text i }
  | .write text i =>
      some { s.put depth .loop (s.text text i) with
        sent := s.sent ++ [s.text text i], pc := .poll text (i + 1) }
  | .wait index =>
      if s.flags depth &&& uartFrRxfe ≠ 0#32 then some s else some { s with pc := .read index }
  | .read index =>
      match s.rx with
      | [] => none
      | c :: rx =>
          let s := { s with
            rx := rx, taken := s.taken ++ [c], buf := Function.update s.buf index c }
          if isLineEnd c ∨ index + 1 = sizeofBuffer then some (s.endLine (index + 1))
          else some { s with pc := .wait (index + 1) }

/-- The loop is reached: `buffer` is zero, some bytes have been typed, and some of those that
were printed before have not left the UART. -/
def boot (rx printed : List Byte) : PromptLoop :=
  ⟨.poll .prompt 0, fun _ => 0#8, rx, printed.map (Sender.other, ·), [], [], []⟩

end PromptLoop

/-- A byte that arrives when the receive FIFO is full is dropped. -/
def promptStep (depth : Nat) : PromptEvent → PromptLoop → Option PromptLoop
  | .loop, s => s.loopStep depth
  | .other c, s => some (s.put depth .other c)
  | .arrive c, s => some (if s.rx.length < depth then { s with rx := s.rx ++ [c] } else s)
  | .drain, s =>
      match s.tx with
      | [] => none
      | b :: tx => some { s with tx := tx, wire := s.wire ++ [b] }

/-! ## What comes out -/

/-- The answer to a line: what the buffer holds of it, up to the first NUL. -/
def echoOf (line : List Byte) : List Byte :=
  (keptOf sizeofBuffer line).takeWhile (· ≠ 0#8)

/-- A line ends here: with its line end, or because the buffer is full. -/
def LineDone (line : List Byte) (c : Byte) : Prop := isLineEnd c ∨ line.length + 1 = sizeofBuffer

instance (line : List Byte) (c : Byte) : Decidable (LineDone line c) := by
  unfold LineDone
  infer_instance

/-- What is sent for an input, where `line` has been typed of the current line. -/
def answers : (line input : List Byte) → List Byte
  | _, [] => []
  | line, c :: cs =>
      if LineDone line c then
        echoOf (line ++ [c]) ++ newlineText ++ promptText ++ answers [] cs
      else answers (line ++ [c]) cs

/-- What the input leaves of the current line. -/
def openLine : (line input : List Byte) → List Byte
  | line, [] => line
  | line, c :: cs => if LineDone line c then openLine [] cs else openLine (line ++ [c]) cs

/-- All that the loop sends for an input. -/
def transcript (input : List Byte) : List Byte := promptText ++ answers [] input

/-- The bytes that the loop wrote, among those on the line and in the FIFO. -/
def PromptLoop.shown (s : PromptLoop) : List Byte :=
  ((s.wire ++ s.tx).filter (·.1 = .loop)).map (·.2)

/-- What is typed in a run. -/
def typed : List PromptEvent → List Byte
  | [] => []
  | .arrive c :: evs => c :: typed evs
  | _ :: evs => typed evs

/-- Nobody else writes between the loop's look at the flags and its write, and no byte arrives at
a full FIFO. -/
def Undisturbed (depth : Nat) : PromptEvent → PromptLoop → Prop
  | .other _, s => ¬ s.pc.isWrite
  | .arrive _, s => s.rx.length < depth
  | _, _ => True

instance (depth : Nat) (ev : PromptEvent) (s : PromptLoop) :
    Decidable (Undisturbed depth ev s) := by
  unfold Undisturbed
  split <;> infer_instance

section Transcript

variable (line cs ds : List Byte) (c : Byte)

theorem answers_append :
    answers line (cs ++ ds) = answers line cs ++ answers (openLine line cs) ds := by
  induction cs generalizing line with
  | nil => rfl
  | cons c cs ih =>
      rw [List.cons_append]
      by_cases hdone : LineDone line c
      · simp only [answers, openLine, if_pos hdone, ih, List.append_assoc]
      · simp only [answers, openLine, if_neg hdone, ih]

theorem openLine_append : openLine line (cs ++ ds) = openLine (openLine line cs) ds := by
  induction cs generalizing line with
  | nil => rfl
  | cons c cs ih =>
      rw [List.cons_append]
      by_cases hdone : LineDone line c
      · simp only [openLine, if_pos hdone, ih]
      · simp only [openLine, if_neg hdone, ih]

theorem transcript_append :
    transcript (cs ++ ds) = transcript cs ++ answers (openLine [] cs) ds := by
  rw [transcript, answers_append, transcript, List.append_assoc]

/-- More input makes more output. -/
theorem transcript_mono : transcript cs <+: transcript (cs ++ ds) := by
  rw [transcript_append]
  exact List.prefix_append _ _

variable {cs c}

theorem transcript_concat_of_done (hdone : LineDone (openLine [] cs) c) :
    transcript (cs ++ [c]) =
        transcript cs ++ (echoOf (openLine [] cs ++ [c]) ++ newlineText ++ promptText) ∧
      openLine [] (cs ++ [c]) = [] := by
  rw [transcript_append, openLine_append]
  simp [answers, openLine, hdone]

theorem transcript_concat_of_open (hopen : ¬ LineDone (openLine [] cs) c) :
    transcript (cs ++ [c]) = transcript cs ∧
      openLine [] (cs ++ [c]) = openLine [] cs ++ [c] := by
  rw [transcript_append, openLine_append]
  simp [answers, openLine, hopen]

end Transcript

/-! ## Strings in memory -/

/-- `mem` holds `str` and a NUL behind it. -/
structure StringAt (mem : Nat → Byte) (str : List Byte) : Prop where
  byte : ∀ i, ∀ hi : i < str.length, mem i = str[i]
  ne_zero : ∀ c ∈ str, c ≠ 0#8
  nul : mem str.length = 0#8

section Strings

variable {mem : Nat → Byte} {str : List Byte} {i : Nat}

theorem StringAt.eq_zero_iff (h : StringAt mem str) (hi : i ≤ str.length) :
    mem i = 0#8 ↔ i = str.length := by
  constructor
  · intro hzero
    by_contra hne
    have hlt : i < str.length := by omega
    rw [h.byte i hlt] at hzero
    exact h.ne_zero _ (List.getElem_mem hlt) hzero
  · rintro rfl
    exact h.nul

theorem stringAt_getD (hne : ∀ c ∈ str, c ≠ 0#8) :
    StringAt (fun i => str.getD i 0#8) str where
  byte i hi := by simp [List.getD_eq_getElem?_getD, hi]
  ne_zero := hne
  nul := by simp [List.getD_eq_getElem?_getD]

/-- A NUL ends a string wherever it is. -/
theorem stringAt_takeWhile (hbyte : ∀ i, ∀ hi : i < str.length, mem i = str[i])
    (hnul : mem str.length = 0#8) : StringAt mem (str.takeWhile (· ≠ 0#8)) := by
  induction str generalizing mem with
  | nil => exact ⟨fun i hi => absurd hi (Nat.not_lt_zero i), by simp, hnul⟩
  | cons c str ih =>
      have hhead : mem 0 = c := hbyte 0 (Nat.zero_lt_succ _)
      by_cases hc : c = 0#8
      · rw [List.takeWhile_cons_of_neg (by simp [hc])]
        exact ⟨fun i hi => absurd hi (Nat.not_lt_zero i), by simp, hhead.trans hc⟩
      · have htail := @ih (fun i => mem (i + 1))
          (fun i hi => hbyte (i + 1) (Nat.succ_lt_succ hi)) hnul
        rw [List.takeWhile_cons_of_pos (by simp [hc])]
        refine ⟨fun i hi => ?_, ?_, htail.nul⟩
        · cases i with
          | zero => exact hhead
          | succ i => exact htail.byte i (Nat.lt_of_succ_lt_succ hi)
        · rintro d (_ | ⟨_, hd⟩)
          · exact hc
          · exact htail.ne_zero d hd

end Strings

/-! ## The invariant -/

namespace PromptLoop

/-- What the turn still sends behind a string. -/
def restOf : Text → List Byte
  | .prompt => []
  | .buffer => newlineText ++ promptText
  | .newline => promptText

/-- A string is being sent from byte `i` on. -/
def Sending (text : Text) (i : Nat) (s : PromptLoop) : Prop :=
  ∃ str, StringAt (s.text text) str ∧ i ≤ str.length ∧
    s.sent ++ (str.drop i ++ restOf text) = transcript s.taken ∧ openLine [] s.taken = []

/-- A line is being received, and `index` bytes of it are in the buffer. -/
structure Receiving (index : Nat) (s : PromptLoop) : Prop where
  sent : s.sent = transcript s.taken
  length : (openLine [] s.taken).length = index
  lt : index < sizeofBuffer
  byte : ∀ j, ∀ hj : j < (openLine [] s.taken).length, s.buf j = (openLine [] s.taken)[j]

def Inv (s : PromptLoop) : Prop :=
  match s.pc with
  | .poll text i => Sending text i s
  | .write text i => Sending text i s ∧ s.text text i ≠ 0#8
  | .wait index => Receiving index s
  | .read index => Receiving index s ∧ s.rx ≠ []

variable {depth : Nat} {s s' : PromptLoop} {text : Text} {i index : Nat} {ev : PromptEvent}

theorem flags_txff : s.flags depth &&& uartFrTxff ≠ 0#32 ↔ depth ≤ s.tx.length := by
  unfold flags
  split <;> split <;> simp_all [uartFrRxfe, uartFrTxff]

theorem flags_rxfe : s.flags depth &&& uartFrRxfe ≠ 0#32 ↔ s.rx = [] := by
  unfold flags
  split <;> split <;> simp_all [uartFrRxfe, uartFrTxff]

/-- A write to `UART_DATA_REG` touches the transmit FIFO only. -/
theorem put_eq (depth : Nat) (who : Sender) (c : Byte) (s : PromptLoop) :
    s.put depth who c = { s with tx := (s.put depth who c).tx } := by
  unfold put
  split <;> rfl

/-- The NUL that `uart_recv_string` writes makes a string of the line. -/
theorem stringAt_endLine {cs : List Byte} (hne : cs ≠ [])
    (hbyte : ∀ j, ∀ hj : j < cs.length, s.buf j = cs[j]) :
    StringAt (s.endLine cs.length).buf (echoOf cs) := by
  have hpos := List.length_pos_iff.mpr hne
  refine stringAt_takeWhile (fun j hj => ?_) ?_
  · by_cases hfull : cs.length = sizeofBuffer
    · have hj' : j < cs.length - 1 := by simpa [keptOf, hfull] using hj
      simp [endLine, keptOf, hfull, hbyte j (by omega), Function.update_of_ne,
        show j ≠ sizeofBuffer - 1 by omega]
    · have hj' : j < cs.length := by simpa [keptOf, hfull] using hj
      simp [endLine, keptOf, hfull, hbyte j hj', hj'.ne]
  · by_cases hfull : cs.length = sizeofBuffer <;> simp [endLine, keptOf, hfull]

theorem Sending.afterText (h : Sending text i s) (hnul : s.text text i = 0#8) :
    Inv { s with pc := afterText text } := by
  obtain ⟨str, hstr, hi, hsent, hopen⟩ := h
  obtain rfl : i = str.length := (hstr.eq_zero_iff hi).mp hnul
  rw [List.drop_length, List.nil_append] at hsent
  cases text with
  | prompt =>
      rw [restOf, List.append_nil] at hsent
      refine ⟨hsent, congrArg List.length hopen, by decide, fun j hj => ?_⟩
      simp [hopen] at hj
  | buffer => exact ⟨newlineText, stringAt_getD (by decide), Nat.zero_le _, hsent, hopen⟩
  | newline =>
      refine ⟨promptText, stringAt_getD (by decide), Nat.zero_le _, ?_, hopen⟩
      rw [List.drop_zero, restOf, List.append_nil]
      exact hsent

theorem Sending.write (h : Sending text i s) (hne : s.text text i ≠ 0#8)
    (tx : List (Sender × Byte)) :
    Sending text (i + 1) { s with
      tx := tx, sent := s.sent ++ [s.text text i], pc := .poll text (i + 1) } := by
  obtain ⟨str, hstr, hi, hsent, hopen⟩ := h
  have hlt : i < str.length := by
    refine lt_of_le_of_ne hi fun heq => hne ((hstr.eq_zero_iff hi).mpr heq)
  refine ⟨str, ?_, hlt, ?_, hopen⟩
  · cases text <;> exact hstr
  · calc s.sent ++ [s.text text i] ++ (str.drop (i + 1) ++ restOf text)
        = s.sent ++ (str[i] :: str.drop (i + 1) ++ restOf text) := by
          rw [hstr.byte i hlt, List.append_assoc, List.singleton_append, List.cons_append]
      _ = transcript s.taken := by rw [List.cons_getElem_drop_succ, hsent]

theorem Receiving.byte_concat (h : Receiving index s) (c : Byte) :
    ∀ j, ∀ hj : j < (openLine [] s.taken ++ [c]).length,
      Function.update s.buf index c j = (openLine [] s.taken ++ [c])[j] := by
  intro j hj
  have hlength := h.length
  have hle : j ≤ index := by simpa [hlength, Nat.lt_succ_iff] using hj
  obtain rfl | hlt := hle.eq_or_lt
  · simp [← hlength]
  · rw [Function.update_of_ne hlt.ne, h.byte j (by omega), List.getElem_append_left]

/-- A byte that does not end the line goes to the end of it. -/
theorem Receiving.more {c : Byte} (h : Receiving index s)
    (hopen : ¬ (isLineEnd c ∨ index + 1 = sizeofBuffer)) (rx : List Byte) :
    Receiving (index + 1) { s with
      rx := rx, taken := s.taken ++ [c], buf := Function.update s.buf index c,
      pc := .wait (index + 1) } := by
  have hdone : ¬ LineDone (openLine [] s.taken) c := by rwa [LineDone, h.length]
  obtain ⟨hsame, hline⟩ := transcript_concat_of_open hdone
  have hlt := h.lt
  refine ⟨h.sent.trans hsame.symm, ?_, by omega, fun j hj => ?_⟩
  · simp [hline, h.length]
  · have hbyte := h.byte_concat c j
    simp only [← hline] at hbyte
    exact hbyte hj

/-- The byte that ends a line makes a string of it. -/
theorem Receiving.done {c : Byte} (h : Receiving index s)
    (hdone : isLineEnd c ∨ index + 1 = sizeofBuffer) (rx : List Byte) :
    Sending .buffer 0 (endLine (index + 1) { s with
      rx := rx, taken := s.taken ++ [c], buf := Function.update s.buf index c }) := by
  rw [← h.length] at hdone
  have hends : LineDone (openLine [] s.taken) c := hdone
  obtain ⟨hanswer, hline⟩ := transcript_concat_of_done hends
  have hstr := stringAt_endLine (s := { s with
    rx := rx, taken := s.taken ++ [c], buf := Function.update s.buf index c })
    (List.concat_ne_nil c _) (h.byte_concat c)
  rw [List.length_append, h.length] at hstr
  refine ⟨_, hstr, Nat.zero_le _, ?_, hline⟩
  calc s.sent ++ (echoOf (openLine [] s.taken ++ [c]) ++ (newlineText ++ promptText))
      = transcript s.taken ++
          (echoOf (openLine [] s.taken ++ [c]) ++ newlineText ++ promptText) := by
        rw [h.sent, List.append_assoc (echoOf _)]
    _ = transcript (s.taken ++ [c]) := hanswer.symm

/-! ## One step -/

/-- What one step of the loop does. -/
inductive LoopMove (depth : Nat) (s : PromptLoop) : PromptLoop → Prop
  | busy : LoopMove depth s s
  | textEnd {text : Text} {i : Nat} (hpc : s.pc = .poll text i) (hnul : s.text text i = 0#8) :
      LoopMove depth s { s with pc := afterText text }
  | room {text : Text} {i : Nat} (hpc : s.pc = .poll text i) (hne : s.text text i ≠ 0#8)
      (hroom : s.tx.length < depth) : LoopMove depth s { s with pc := .write text i }
  | write {text : Text} {i : Nat} (hpc : s.pc = .write text i) :
      LoopMove depth s { s with
        tx := (s.put depth .loop (s.text text i)).tx, sent := s.sent ++ [s.text text i],
        pc := .poll text (i + 1) }
  | ready {index : Nat} (hpc : s.pc = .wait index) (hrx : s.rx ≠ []) :
      LoopMove depth s { s with pc := .read index }
  | more {index : Nat} {c : Byte} {rx : List Byte}
      (hpc : s.pc = .read index) (hrx : s.rx = c :: rx)
      (hopen : ¬ (isLineEnd c ∨ index + 1 = sizeofBuffer)) :
      LoopMove depth s { s with
        rx := rx, taken := s.taken ++ [c], buf := Function.update s.buf index c,
        pc := .wait (index + 1) }
  | done {index : Nat} {c : Byte} {rx : List Byte}
      (hpc : s.pc = .read index) (hrx : s.rx = c :: rx)
      (hdone : isLineEnd c ∨ index + 1 = sizeofBuffer) :
      LoopMove depth s (endLine (index + 1) { s with
        rx := rx, taken := s.taken ++ [c], buf := Function.update s.buf index c })

theorem loopStep_move (hstep : s.loopStep depth = some s') : LoopMove depth s s' := by
  cases hpc : s.pc with
  | poll text i =>
      simp only [loopStep, hpc, flags_txff] at hstep
      split_ifs at hstep with hnul hfull <;> obtain rfl := Option.some.inj hstep
      · exact .textEnd hpc hnul
      · exact .busy
      · exact .room hpc hnul (Nat.not_le.mp hfull)
  | write text i =>
      simp only [loopStep, hpc] at hstep
      obtain rfl := Option.some.inj hstep
      rw [put_eq]
      exact .write hpc
  | wait index =>
      simp only [loopStep, hpc, flags_rxfe] at hstep
      split_ifs at hstep with hnone <;> obtain rfl := Option.some.inj hstep
      · exact .busy
      · exact .ready hpc hnone
  | read index =>
      cases hrx : s.rx with
      | nil => simp [loopStep, hpc, hrx] at hstep
      | cons c rx =>
          simp only [loopStep, hpc, hrx] at hstep
          split_ifs at hstep with hdone <;> obtain rfl := Option.some.inj hstep
          · exact .done hpc hrx hdone
          · exact .more hpc hrx hdone

/-- The loop reads a byte only where there is one. -/
theorem Inv.isSome_loopStep (h : s.Inv) (depth : Nat) : (s.loopStep depth).isSome := by
  cases hpc : s.pc with
  | poll text i =>
      simp only [loopStep, hpc]
      split_ifs <;> rfl
  | write text i => simp [loopStep, hpc]
  | wait index =>
      simp only [loopStep, hpc]
      split_ifs <;> rfl
  | read index =>
      simp only [Inv, hpc] at h
      obtain ⟨c, rx, hrx⟩ := List.exists_cons_of_ne_nil h.2
      simp only [loopStep, hpc, hrx]
      split_ifs <;> rfl

theorem LoopMove.inv (hmove : LoopMove depth s s') (h : s.Inv) : s'.Inv := by
  cases hmove with
  | busy => exact h
  | textEnd hpc hnul =>
      simp only [Inv, hpc] at h
      exact h.afterText hnul
  | room hpc hne hroom =>
      simp only [Inv, hpc] at h
      exact ⟨h, hne⟩
  | write hpc =>
      simp only [Inv, hpc] at h
      exact h.1.write h.2 _
  | ready hpc hrx =>
      simp only [Inv, hpc] at h
      exact ⟨⟨h.sent, h.length, h.lt, h.byte⟩, hrx⟩
  | more hpc hrx hopen =>
      simp only [Inv, hpc] at h
      exact h.1.more hopen _
  | done hpc hrx hdone =>
      simp only [Inv, hpc] at h
      exact h.1.done hdone _

/-- The other parties touch nothing that the loop relies on. -/
theorem Inv.frame (h : s.Inv) {rx : List Byte} (hrx : s.rx ≠ [] → rx ≠ [])
    (tx wire : List (Sender × Byte)) : Inv { s with rx := rx, tx := tx, wire := wire } := by
  obtain ⟨pc, buf, rx', tx', wire', taken, sent⟩ := s
  cases pc with
  | poll text i => cases text <;> exact h
  | write text i => cases text <;> exact h
  | wait index => exact ⟨h.sent, h.length, h.lt, h.byte⟩
  | read index => exact ⟨⟨h.1.sent, h.1.length, h.1.lt, h.1.byte⟩, hrx h.2⟩

/-- Every step keeps the invariant, whoever makes it. -/
theorem inv_promptStep (h : s.Inv) (hstep : promptStep depth ev s = some s') : s'.Inv := by
  cases ev with
  | loop => exact (loopStep_move hstep).inv h
  | other c =>
      obtain rfl := Option.some.inj hstep
      rw [put_eq]
      exact h.frame id _ _
  | arrive c =>
      obtain rfl := Option.some.inj hstep
      split_ifs
      · exact h.frame (fun _ => List.concat_ne_nil c _) _ _
      · exact h
  | drain =>
      cases htx : s.tx with
      | nil => simp [promptStep, htx] at hstep
      | cons b tx =>
          simp only [promptStep, htx] at hstep
          obtain rfl := Option.some.inj hstep
          exact h.frame id _ _

theorem inv_boot {rx printed : List Byte} : (boot rx printed).Inv :=
  ⟨promptText, stringAt_getD (by decide), Nat.zero_le _, rfl, rfl⟩

end PromptLoop

end Arm64OS
