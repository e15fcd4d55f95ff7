import Arm64OS.Printk.Printk

/-!
# Recording and replay

`printk` moves `g_record` to the length of the message it has just recorded, while
`g_record_len` counts all of them.  From the third message on the two disagree.  What
`log_buf` holds is followed through any number of calls, and `replays_iff` says exactly which
sequences of messages come out as they went in.
-/

namespace Arm64OS

/-! ## The contents of the log -/

/-- Where `g_record` stands behind the messages: the last one alone decides. -/
def cursorAfter (ms : List (List Byte)) : Nat := (ms.getLast?.map List.length).getD 0

/-- A message copied to place `p`. -/
def writeAt (p : Nat) (m : List Byte) (log : Nat → Byte) (q : Nat) : Byte :=
  if p ≤ q ∧ q < p + m.length then m.getD (q - p) 0#8 else log q

/-- `log_buf` behind the messages, if nothing ended it. -/
def recordedLog (ms : List (List Byte)) : Nat → Byte :=
  (ms.foldl (fun st m => (writeAt st.2 m st.1, m.length)) (fun _ => 0#8, 0)).1

/-- The byte at place `q` of the text that the replay owes. -/
def textAt (ms : List (List Byte)) (q : Nat) : Byte := ms.flatten.getD q 0#8

variable {ms pre post : List (List Byte)} {m : List Byte} {q : Nat}

@[simp] theorem cursorAfter_nil : cursorAfter [] = 0 := rfl

@[simp] theorem cursorAfter_snoc (ms : List (List Byte)) (m : List Byte) :
    cursorAfter (ms ++ [m]) = m.length := by
  simp [cursorAfter]

theorem cursorAfter_le (ms : List (List Byte)) : cursorAfter ms ≤ ms.flatten.length := by
  induction ms using List.reverseRecOn with
  | nil => simp
  | append_singleton ms m _ => simp

@[simp] theorem recordedLog_nil (q : Nat) : recordedLog [] q = 0#8 := rfl

theorem recordedLog_snoc (ms : List (List Byte)) (m : List Byte) :
    recordedLog (ms ++ [m]) = writeAt (cursorAfter ms) m (recordedLog ms) := by
  have hcursor : (ms.foldl (fun st m => (writeAt st.2 m st.1, m.length))
      ((fun _ => 0#8 : Nat → Byte), 0)).2 = cursorAfter ms := by
    cases ms using List.reverseRecOn with
    | nil => rfl
    | append_singleton ms m => simp
  simp [recordedLog, hcursor]

/-- A message that is not at its place stays a message too early, whatever comes between. -/
theorem cursorAfter_lt_append (h : cursorAfter pre < pre.flatten.length)
    (ms : List (List Byte)) : cursorAfter (pre ++ ms) < (pre ++ ms).flatten.length := by
  induction ms using List.reverseRecOn with
  | nil => simpa using h
  | append_singleton ms m ih =>
      rw [← List.append_assoc, cursorAfter_snoc]
      simp
      simp at ih
      omega

theorem textAt_of_lt (pre post : List (List Byte)) {j : Nat} (hj : j < m.length) :
    textAt (pre ++ m :: post) (pre.flatten.length + j) = m.getD j 0#8 := by
  simp [textAt, List.getElem?_append_right, List.getElem?_append_left, hj]

theorem textAt_of_le (h : ms.flatten.length ≤ q) : textAt ms q = 0#8 := by
  simp [textAt, List.getElem?_eq_none h]

/-- A byte of the log that is not NUL comes from a message. -/
theorem exists_of_recordedLog (h : recordedLog ms q ≠ 0#8) :
    ∃ pre m post j, ms = pre ++ m :: post ∧ j < m.length ∧ cursorAfter pre + j = q ∧
      m.getD j 0#8 = recordedLog ms q := by
  induction ms using List.reverseRecOn with
  | nil => simp at h
  | append_singleton ms w ih =>
      rw [recordedLog_snoc] at h ⊢
      by_cases hin : cursorAfter ms ≤ q ∧ q < cursorAfter ms + w.length
      · refine ⟨ms, w, [], q - cursorAfter ms, rfl, by omega, by omega, ?_⟩
        rw [writeAt, if_pos hin]
      · rw [writeAt, if_neg hin] at h ⊢
        obtain ⟨pre, m, post, j, rfl, hj, hq, hval⟩ := ih h
        exact ⟨pre, m, post ++ [w], j, by simp, hj, hq, hval⟩

/-- Messages of NULs leave a NUL a NUL. -/
theorem recordedLog_append_null (h : recordedLog ms q = 0#8)
    (hpost : ∀ m ∈ post, ∀ j, m.getD j 0#8 = 0#8) : recordedLog (ms ++ post) q = 0#8 := by
  induction post using List.reverseRecOn with
  | nil => simpa using h
  | append_singleton post w ih =>
      rw [← List.append_assoc, recordedLog_snoc, writeAt]
      split
      · exact hpost w (by simp) _
      · exact ih fun m hm => hpost m (by simp [hm])

/-! ## When the log is the text -/

/-- Each message is recorded at its place in the text, because all messages before the one in
front of it are empty; or it consists of NULs that happen to change nothing. -/
def WellPlaced (ms : List (List Byte)) : Prop :=
  ∀ pre m post, ms = pre ++ m :: post →
    cursorAfter pre = pre.flatten.length ∨
    ∀ j, j < m.length → m.getD j 0#8 = 0#8 ∧ textAt ms (cursorAfter pre + j) = 0#8

theorem wellPlaced_of_length_le_two (h : ms.length ≤ 2) : WellPlaced ms := by
  rintro pre m post rfl
  refine Or.inl ?_
  match pre, h with
  | [], _ => rfl
  | [w], _ => simp [cursorAfter]
  | _ :: _ :: _, h => simp at h

theorem recordedLog_of_wellPlaced (h : WellPlaced ms) (hms : ms = pre ++ post) (q : Nat) :
    recordedLog pre q = if q < pre.flatten.length then textAt ms q else 0#8 := by
  induction pre using List.reverseRecOn generalizing post q with
  | nil => simp
  | append_singleton pre m ih =>
      have hsplit : ms = pre ++ m :: post := by simpa using hms
      have hlength : (pre ++ [m]).flatten.length = pre.flatten.length + m.length := by simp
      have hbefore := ih hsplit
      have htext : ∀ j, j < m.length → textAt ms (pre.flatten.length + j) = m.getD j 0#8 := by
        intro j hj
        rw [hsplit, textAt_of_lt _ _ hj]
      rw [recordedLog_snoc, writeAt, hlength]
      rcases h pre m post hsplit with hplace | hnull
      · rw [hplace]
        by_cases hin : pre.flatten.length ≤ q ∧ q < pre.flatten.length + m.length
        · obtain ⟨j, rfl⟩ := Nat.exists_eq_add_of_le hin.1
          rw [if_pos hin, if_pos hin.2, htext j (by omega), Nat.add_sub_cancel_left]
        · rw [if_neg hin, hbefore]
          by_cases hq : q < pre.flatten.length
          · rw [if_pos hq, if_pos (by omega)]
          · rw [if_neg hq, if_neg (by omega)]
      · -- a byte behind the text so far is NUL before and after
        have hbehind : ¬ q < pre.flatten.length → q < pre.flatten.length + m.length →
            textAt ms q = 0#8 := by
          intro hge hlt
          obtain ⟨j, rfl⟩ := Nat.exists_eq_add_of_le (Nat.le_of_not_lt hge)
          rw [htext j (by omega)]
          exact (hnull j (by omega)).1
        by_cases hin : cursorAfter pre ≤ q ∧ q < cursorAfter pre + m.length
        · obtain ⟨j, rfl⟩ := Nat.exists_eq_add_of_le hin.1
          have hj : j < m.length := by omega
          rw [if_pos hin, Nat.add_sub_cancel_left, (hnull j hj).1, (hnull j hj).2, ite_self]
        · rw [if_neg hin, hbefore]
          by_cases hq : q < pre.flatten.length
          · rw [if_pos hq, if_pos (by omega)]
          · rw [if_neg hq]
            by_cases hq' : q < pre.flatten.length + m.length
            · rw [if_pos hq', hbehind hq hq']
            · rw [if_neg hq']

/-- Behind a message that is recorded too early nothing but NULs can come. -/
theorem textAt_behind (h : ∀ q, q < ms.flatten.length → recordedLog ms q = textAt ms q)
    (hms : ms = pre ++ m :: post) (hearly : cursorAfter pre < pre.flatten.length) :
    ∀ n q, ms.flatten.length ≤ q + n → pre.flatten.length ≤ q → textAt ms q = 0#8 := by
  intro n
  induction n with
  | zero => exact fun q hq _ => textAt_of_le hq
  | succ n ih =>
      intro q hn hq
      by_contra hne
      have hlt : q < ms.flatten.length := by
        by_contra hge
        exact hne (textAt_of_le (Nat.le_of_not_lt hge))
      have hlog := h q hlt
      obtain ⟨pre', w, post', j, hms', hj, hplace, hval⟩ :=
        exists_of_recordedLog (hlog ▸ hne)
      by_cases hearly' : cursorAfter pre' < pre'.flatten.length
      · -- the same byte has its place further behind
        have hbyte : textAt ms (pre'.flatten.length + j) = w.getD j 0#8 := by
          rw [hms', textAt_of_lt _ _ hj]
        refine hne ?_
        rw [← hlog, ← hval, ← hbyte]
        exact ih _ (by omega) (by omega)
      · -- `w` is at its place, so it comes before `m` and ends in front of `q`
        have hle := cursorAfter_le pre'
        rcases List.append_eq_append_iff.1 (hms'.symm.trans hms) with
          ⟨rest, hpre, hrest⟩ | ⟨rest, hpre', -⟩
        · cases rest with
          | nil =>
              obtain rfl : pre = pre' := by simpa using hpre
              exact hearly' hearly
          | cons w' rest =>
              obtain rfl : w = w' := by
                simp at hrest
                exact hrest.1
              rw [hpre] at hq
              simp at hq hearly' hle hplace
              omega
        · exact hearly' (hpre' ▸ cursorAfter_lt_append hearly rest)

theorem recordedLog_eq_text_iff (ms : List (List Byte)) :
    (∀ q, q < ms.flatten.length → recordedLog ms q = textAt ms q) ↔ WellPlaced ms := by
  constructor
  · intro h pre m post hms
    rcases Nat.lt_or_ge (cursorAfter pre) pre.flatten.length with hearly | hplace
    · refine Or.inr ?_
      have hbehind : ∀ q, pre.flatten.length ≤ q → textAt ms q = 0#8 :=
        fun q => textAt_behind h hms hearly ms.flatten.length q (Nat.le_add_left _ _)
      have hnull : ∀ w ∈ m :: post, ∀ j, w.getD j 0#8 = 0#8 := by
        intro w hw j
        by_cases hj : j < w.length
        · obtain ⟨front, back, hsplit⟩ := List.append_of_mem hw
          have hms' : ms = (pre ++ front) ++ w :: back := by rw [hms, hsplit, List.append_assoc]
          rw [← textAt_of_lt (pre ++ front) back hj, ← hms']
          exact hbehind _ (by simp; omega)
        · simp [Nat.le_of_not_lt hj]
      intro j hj
      refine ⟨hnull m (by simp) j, ?_⟩
      by_cases hq : cursorAfter pre + j < ms.flatten.length
      · rw [← h _ hq, hms, ← List.singleton_append, ← List.append_assoc]
        refine recordedLog_append_null ?_ fun w hw => hnull w (by simp [hw])
        rw [recordedLog_snoc, writeAt, if_pos (by omega), Nat.add_sub_cancel_left]
        exact hnull m (by simp) j
      · exact textAt_of_le (Nat.le_of_not_lt hq)
    · exact Or.inl (Nat.le_antisymm (cursorAfter_le pre) hplace)
  · intro h q hq
    have hms : ms = ms ++ [] := (List.append_nil ms).symm
    rw [recordedLog_of_wellPlaced h hms, if_pos hq]

/-! ## The calls -/

@[simp] theorem length_offsets (a : U64) (n : Nat) : (offsets a n).length = n := by
  simp [offsets]

theorem offsets_succ (a : U64) (n : Nat) : offsets a (n + 1) = a :: offsets (a + 1) n := by
  simp only [offsets, List.range_succ_eq_map, List.map_cons, List.map_map]
  congr 1
  · simp
  · refine List.map_congr_left fun i _ => ?_
    rw [Function.comp_apply, Nat.succ_eq_add_one, BitVec.ofNat_add,
      BitVec.add_comm (BitVec.ofNat 64 i), ← BitVec.add_assoc]
    rfl

theorem mem_offsets_toNat {a b : U64} {n : Nat} (hfits : a.toNat + n ≤ 2 ^ 64)
    (hb : b ∈ offsets a n) : b.toNat < a.toNat + n := by
  obtain ⟨i, hi, rfl⟩ := List.mem_map.1 hb
  have hi := List.mem_range.1 hi
  rw [BitVec.toNat_add, BitVec.toNat_ofNat]
  omega

/-- A message stored at consecutive addresses. -/
theorem storeAll_offsets (text : List Byte) {a : U64} (hfits : a.toNat + text.length < 2 ^ 64)
    (mem : U64 → Byte) (x : U64) :
    storeAll ((offsets a text.length).zip text) mem x =
      if a.toNat ≤ x.toNat ∧ x.toNat < a.toNat + text.length
      then text.getD (x.toNat - a.toNat) 0#8 else mem x := by
  induction text generalizing a mem with
  | nil => simp [storeAll]
  | cons b text ih =>
      simp only [List.length_cons] at hfits
      have hnext : (a + 1).toNat = a.toNat + 1 := by
        rw [BitVec.toNat_add]
        simp
        omega
      have hrest := ih (a := a + 1) (by omega) (Function.update mem a b)
      rw [List.length_cons, offsets_succ, List.zip_cons_cons]
      rw [storeAll, List.foldl_cons, ← storeAll, hrest, hnext]
      by_cases hx : x = a
      · rw [if_neg (by rw [hx]; omega), if_pos (by rw [hx]; omega), hx, Function.update_self]
        simp
      · have hne : x.toNat ≠ a.toNat := fun h => hx (BitVec.eq_of_toNat_eq h)
        rw [Function.update_of_ne hx]
        by_cases hin : a.toNat + 1 ≤ x.toNat ∧ x.toNat < a.toNat + 1 + text.length
        · have hplace : x.toNat - a.toNat = (x.toNat - (a.toNat + 1)) + 1 := by omega
          rw [if_pos hin, if_pos (by omega), hplace, List.getD_cons_succ]
        · rw [if_neg hin, if_neg (by omega)]

/-- The state behind the messages `ms` before `init_printk_done`. -/
structure Recorded (ms : List (List Byte)) (c : Console) : Prop where
  down : c.status = .down
  out : c.out = []
  cursor : c.record.toNat = cursorAfter ms
  cursor_lt : cursorAfter ms < printBufSize
  total : c.recordLen = BitVec.ofNat 64 ms.flatten.length
  log : ∀ a, c.log a = recordedLog ms a.toNat
  touched : ∀ a ∈ c.touched, a.toNat < logBufLen

theorem recorded_boot (mem : U64 → Byte) : Recorded [] (Console.boot mem) where
  down := rfl
  out := rfl
  cursor := rfl
  cursor_lt := by decide
  total := rfl
  log _ := rfl
  touched := by simp [Console.boot]

/-- **One message** recorded. -/
theorem Recorded.recordText {ms : List (List Byte)} {c : Console} (h : Recorded ms c)
    {m : List Byte} (hm : m.length < printBufSize) (mem : U64 → Byte) :
    Recorded (ms ++ [m]) (recordText m.length m { c with mem := mem }) := by
  have hcursor := h.cursor_lt
  have hsize : printBufSize = 1024 := rfl
  have hlog : logBufLen = 131072 := rfl
  have hfits : c.record.toNat + m.length < 2 ^ 64 := by
    rw [h.cursor]
    omega
  constructor
  · exact h.down
  · exact h.out
  · rw [cursorAfter_snoc]
    show (BitVec.ofInt 64 m.length).toNat = m.length
    rw [BitVec.ofInt_natCast, BitVec.toNat_ofNat, Nat.mod_eq_of_lt (by omega)]
  · rwa [cursorAfter_snoc]
  · show c.recordLen + BitVec.ofInt 64 m.length = _
    rw [h.total, BitVec.ofInt_natCast, ← BitVec.ofNat_add]
    simp
  · intro a
    show storeAll ((offsets c.record m.length).zip m) c.log a = _
    rw [storeAll_offsets m hfits, recordedLog_snoc, writeAt, h.cursor, h.log]
  · intro a ha
    rcases List.mem_append.1 ha with ha | ha
    · exact h.touched a ha
    · have hlt := mem_offsets_toNat (Nat.le_of_lt hfits) ha
      rw [h.cursor] at hlt
      omega

/-- **Any number of short calls** before `init_printk_done`. -/
theorem printkAll_recorded (buf : PrintBuf) (calls : List Call) {ms : List (List Byte)}
    {c : Console} (h : Recorded ms c) (hshort : ∀ call ∈ calls, call.Short) :
    ∃ c', printkAll buf calls c = some c' ∧ Recorded (ms ++ calls.map (Call.formatted buf)) c' := by
  induction calls generalizing ms c with
  | nil => exact ⟨c, rfl, by simpa using h⟩
  | cons call calls ih =>
      obtain ⟨n, hn, hlt⟩ := hshort call (by simp)
      have hlength := length_formatted buf hn
      obtain ⟨src, mem, hprintk⟩ := printk_down buf hn hlt h.down
      rw [← hlength] at hprintk
      have hnext := h.recordText (m := call.formatted buf) (by omega) mem
      obtain ⟨c', hrun, hrecorded⟩ := ih hnext fun call hcall => hshort call (by simp [hcall])
      refine ⟨c', ?_, by simpa using hrecorded⟩
      rw [printkAll, hprintk]
      exact hrun

/-! ## The replay -/

theorem Recorded.replayed {ms : List (List Byte)} {c : Console} (h : Recorded ms c)
    (htotal : ms.flatten.length ≤ logBufLen) :
    (initPrintkDone c).out = ms.flatten ↔ WellPlaced ms := by
  have hlog : logBufLen = 131072 := rfl
  have hlen : c.recordLen.toNat = ms.flatten.length := by
    rw [h.total, BitVec.toNat_ofNat, Nat.mod_eq_of_lt (by omega)]
  have hout : (initPrintkDone c).out =
      (List.range ms.flatten.length).map (recordedLog ms) := by
    show c.out ++ (offsets 0 c.recordLen.toNat).map c.log = _
    rw [h.out, hlen, List.nil_append, offsets, List.map_map]
    refine List.map_congr_left fun i hi => ?_
    have hi := List.mem_range.1 hi
    have haddr : (0 + BitVec.ofNat 64 i : U64).toNat = i := by
      rw [BitVec.toNat_add, BitVec.toNat_ofNat]
      simp
      omega
    rw [Function.comp_apply, h.log, haddr]
  rw [hout, ← recordedLog_eq_text_iff]
  constructor
  · intro heq q hq
    have hbyte := congrArg (fun l => l[q]?) heq
    simp only [List.getElem?_map, List.getElem?_range hq, Option.map_some] at hbyte
    rw [textAt, List.getD_eq_getElem?_getD, ← hbyte, Option.getD_some]
  · intro heq
    refine List.ext_getElem (by simp) fun q hq hq' => ?_
    rw [List.getElem_map, List.getElem_range, heq q hq', textAt, List.getD_eq_getElem?_getD,
      List.getElem?_eq_getElem hq', Option.getD_some]

/-- The replay reads `log_buf[0 .. g_record_len)`. -/
theorem Recorded.touched_replay {ms : List (List Byte)} {c : Console} (h : Recorded ms c) :
    (∀ a ∈ (initPrintkDone c).touched, a.toNat < logBufLen) ↔
      ms.flatten.length % 2 ^ 64 ≤ logBufLen := by
  have hlen : c.recordLen.toNat = ms.flatten.length % 2 ^ 64 := by
    rw [h.total, BitVec.toNat_ofNat]
  have htouched : (initPrintkDone c).touched =
      c.touched ++ offsets 0 (ms.flatten.length % 2 ^ 64) := by
    rw [← hlen]
    rfl
  have hlog : logBufLen = 131072 := rfl
  have hmod : ms.flatten.length % 2 ^ 64 < 2 ^ 64 := Nat.mod_lt _ (by decide)
  rw [htouched]
  constructor
  · intro hin
    by_contra hlong
    have hmem : BitVec.ofNat 64 logBufLen ∈ offsets 0 (ms.flatten.length % 2 ^ 64) :=
      List.mem_map.2 ⟨logBufLen, List.mem_range.2 (by omega), by simp⟩
    have hlt := hin _ (List.mem_append_right _ hmem)
    rw [BitVec.toNat_ofNat, hlog] at hlt
    omega
  · intro hle a ha
    rcases List.mem_append.1 ha with ha | ha
    · exact h.touched a ha
    · have hzero : (0 : U64).toNat = 0 := rfl
      have hlt := mem_offsets_toNat (by rw [hzero]; omega) ha
      rw [hzero] at hlt
      omega

/-- After the calls and `init_printk_done`, `putchar` was given exactly the messages in call
order, if they fit into `log_buf` together; and no byte outside `log_buf` was touched. -/
def Replays (buf : PrintBuf) (calls : List Call) (mem : U64 → Byte) : Prop :=
  ∃ c, printkAll buf calls (Console.boot mem) = some c ∧
    ((calls.map (Call.formatted buf)).flatten.length ≤ logBufLen →
      (initPrintkDone c).out = (calls.map (Call.formatted buf)).flatten) ∧
    ∀ a ∈ (initPrintkDone c).touched, a.toNat < logBufLen

/-- **Which sequences of messages are replayed**: those whose total length, as the counter
holds it, is at most the size of `log_buf`, and whose messages are all well placed. -/
theorem replays_iff (buf : PrintBuf) (mem : U64 → Byte) (calls : List Call)
    (hshort : ∀ call ∈ calls, call.Short) :
    Replays buf calls mem ↔
      (calls.map (Call.formatted buf)).flatten.length % 2 ^ 64 ≤ logBufLen ∧
      ((calls.map (Call.formatted buf)).flatten.length ≤ logBufLen →
        WellPlaced (calls.map (Call.formatted buf))) := by
  obtain ⟨c, hrun, hrecorded⟩ := printkAll_recorded buf calls (recorded_boot mem) hshort
  rw [List.nil_append] at hrecorded
  rw [← hrecorded.touched_replay]
  constructor
  · rintro ⟨c', hrun', hout, htouched⟩
    obtain rfl : c = c' := Option.some.inj (hrun.symm.trans hrun')
    exact ⟨htouched, fun htotal => (hrecorded.replayed htotal).1 (hout htotal)⟩
  · rintro ⟨htouched, hplaced⟩
    exact ⟨c, hrun, fun htotal => (hrecorded.replayed htotal).2 (hplaced htotal), htouched⟩

/-- `printk` of one character. -/
def Call.letter (c : Char) : Call where
  fmt := CString.ofList [ch c]
  args := ⟨fun _ => 0#64, fun _ => []⟩
  base := 0

theorem replays_two_letters :
    (∀ call ∈ [Call.letter 'a', Call.letter 'b'], call.Short) ∧
      Replays PrintBuf.sample [Call.letter 'a', Call.letter 'b'] fun _ => 0#8 := by
  have hdemand : ∀ call ∈ [Call.letter 'a', Call.letter 'b'], call.demand = some 1 := by
    decide +kernel
  have hshort : ∀ call ∈ [Call.letter 'a', Call.letter 'b'], call.Short :=
    fun call hcall => ⟨1, hdemand call hcall, by decide⟩
  exact ⟨hshort, (replays_iff _ _ _ hshort).2
    ⟨by decide +kernel, fun _ => wellPlaced_of_length_le_two (by decide)⟩⟩

/-- The third message overwrites the second one. -/
theorem third_letter_overwrites :
    (∀ call ∈ [Call.letter 'a', Call.letter 'b', Call.letter 'c'], call.Short) ∧
      ((printkAll PrintBuf.sample [Call.letter 'a', Call.letter 'b', Call.letter 'c']
        (Console.boot fun _ => 0#8)).map fun c => (initPrintkDone c).out) =
          some [ch 'a', ch 'c', 0#8] ∧
      ¬ Replays PrintBuf.sample [Call.letter 'a', Call.letter 'b', Call.letter 'c']
        fun _ => 0#8 := by
  have hdemand : ∀ call ∈ [Call.letter 'a', Call.letter 'b', Call.letter 'c'],
      call.demand = some 1 := by
    decide +kernel
  have hout : ((printkAll PrintBuf.sample [Call.letter 'a', Call.letter 'b', Call.letter 'c']
      (Console.boot fun _ => 0#8)).map fun c => (initPrintkDone c).out) =
        some [ch 'a', ch 'c', 0#8] := by
    decide +kernel
  have htext : ([Call.letter 'a', Call.letter 'b', Call.letter 'c'].map
      (Call.formatted PrintBuf.sample)).flatten = [ch 'a', ch 'b', ch 'c'] := by
    decide +kernel
  refine ⟨fun call hcall => ⟨1, hdemand call hcall, by decide⟩, hout, ?_⟩
  rintro ⟨c, hrun, hreplay, -⟩
  rw [htext] at hreplay
  rw [hrun, Option.map_some, hreplay (by decide)] at hout
  exact absurd hout (by decide)

end Arm64OS
