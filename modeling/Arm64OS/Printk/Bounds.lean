import Arm64OS.Printk.Outcome

/-!
# Where `myprintf` stores

The function is given the size of its buffer and never looks at it.  `stores_inBuffer_iff`
says for which formats and arguments its stores stay inside all the same: the number of
characters that the format asks for, a closed formula, has to be less than the size.
-/

namespace Arm64OS

open CInt

/-- A buffer in memory. -/
structure Buffer where
  string : U64
  size : Nat
  ne_null : string ≠ 0#64
  size_lt : size < 2 ^ 32
  fits : string.toNat + size ≤ 2 ^ 64

def InBuffer (buf : Buffer) (a : U64) : Prop :=
  buf.string.toNat ≤ a.toNat ∧ a.toNat < buf.string.toNat + buf.size

instance (buf : Buffer) (a : U64) : Decidable (InBuffer buf a) := by
  unfold InBuffer
  infer_instance

/-! ## Slots and lengths -/

def Field.slots : Field → Nat
  | .star => 1
  | _ => 0

/-- The number a field stands for, if the next slot is `arg`. -/
def Field.valueAt (args : VaList) (arg : Nat) : Field → Int
  | .absent => -1
  | .digits text => text.foldl scanDigit 0
  | .star => argInt (args.slot arg)

def precisionSlots : Option Field → Nat
  | none => 0
  | some field => field.slots

def precisionAt (args : VaList) (arg : Nat) : Option Field → Int
  | none => -1
  | some field => if field.valueAt args arg < 0 then 0 else field.valueAt args arg

/-- How many arguments a directive takes: one, and one for each `*`. -/
def Directive.slots (d : Directive) : Nat := d.width.slots + precisionSlots d.precision + 1

/-- The width and the flags of a directive. -/
def Directive.widthAt (args : VaList) (arg : Nat) (d : Directive) : Int × Flags :=
  widthFlags d.width (d.width.valueAt args arg) (d.flags.foldl addFlag Flags.zero)

def Directive.precisionAt (args : VaList) (arg : Nat) (d : Directive) : Int :=
  Arm64OS.precisionAt args (arg + d.width.slots) d.precision

/-- The argument that the conversion itself reads. -/
def Directive.valueAt (args : VaList) (arg : Nat) (d : Directive) : U64 :=
  args.slot (arg + d.width.slots + precisionSlots d.precision)

def Directive.outcome (args : VaList) (arg : Nat) (base : Int) (d : Directive) : Outcome :=
  convertOutcome args (d.widthAt args arg).2 (d.widthAt args arg).1 (d.precisionAt args arg)
    d.qualifier d.letter base (d.valueAt args arg)

def Item.slots : Item → Nat
  | .char _ => 0
  | .directive d => d.slots

def Item.outcome (args : VaList) (arg : Nat) (base : Int) : Item → Outcome
  | .char c => ⟨[c], false, base, none⟩
  | .directive d => d.outcome args arg base

/-- How much `%c` pads.  The first loop takes the width to 0 or below, where the second finds
nothing to do, unless its decrement wraps. -/
def charPad (flags : Flags) (fieldWidth : Int) : Nat :=
  (wrapInt (fieldWidth - 1)).toNat +
    if flags.left = false ∧ fieldWidth = intMin + 1 then intMax else 0

/-- How much `%s` pads. -/
def stringPad (flags : Flags) (fieldWidth len : Int) : Nat :=
  (fieldWidth - len).toNat +
    if flags.left = false ∧ min fieldWidth len = intMin then ((intMax : Int) - len).toNat else 0

/-- The number of characters that a conversion asks for, or nothing where `number` refuses
the base that an unknown conversion leaves it with. -/
def convertLength (args : VaList) (flags : Flags) (fieldWidth precision : Int)
    (qualifier : Qualifier) (c : Byte) (base : Int) (v : U64) : Option Nat :=
  if c = ch 'c' then some (charPad flags fieldWidth + 1)
  else if c = ch 's' then
    some (stringPad flags fieldWidth (stringLen (argString args v) precision) +
      (stringLen (argString args v) precision).toNat)
  else if c = ch 'n' then some 0
  else if c = ch 'p' then
    if fieldWidth = -1 then some (numberLength v 16 16 precision { flags with zeropad := true })
    else some (numberLength v 16 fieldWidth precision flags)
  else if c = ch 'o' then
    some (numberLength (integerArg qualifier flags v) 8 fieldWidth precision flags)
  else if c = ch 'x' ∨ c = ch 'X' then
    some (numberLength (integerArg qualifier flags v) 16 fieldWidth precision flags)
  else if c = ch 'd' ∨ c = ch 'i' then
    some (numberLength (integerArg qualifier { flags with sign := true } v) 10 fieldWidth
      precision { flags with sign := true })
  else if c = ch 'u' then
    some (numberLength (integerArg qualifier flags v) 10 fieldWidth precision flags)
  else if BaseOk base then
    some ((defaultText c).length +
      numberLength (integerArg qualifier flags v) base fieldWidth precision flags)
  else none

/-- The `base` that a conversion leaves behind. -/
def convertBase (c : Byte) (base : Int) : Int :=
  if c = ch 'o' then 8
  else if c = ch 'x' ∨ c = ch 'X' then 16
  else if c = ch 'd' ∨ c = ch 'i' ∨ c = ch 'u' then 10
  else base

def Item.length (args : VaList) (arg : Nat) (base : Int) : Item → Option Nat
  | .char _ => some 1
  | .directive d =>
      convertLength args (d.widthAt args arg).2 (d.widthAt args arg).1 (d.precisionAt args arg)
        d.qualifier d.letter base (d.valueAt args arg)

def Item.base (base : Int) : Item → Int
  | .char _ => base
  | .directive d => convertBase d.letter base

/-- The pointer that a `%n` is given. -/
def Item.count (args : VaList) (arg : Nat) : Item → Option U64
  | .char _ => none
  | .directive d => if d.letter = ch 'n' then some (d.valueAt args arg) else none

/-- The number of characters that a format asks for. -/
def demand (args : VaList) : List Item → (arg : Nat) → (base : Int) → Option Nat
  | [], _, _ => some 0
  | it :: its, arg, base => do
      let k ← it.length args arg base
      let n ← demand args its (arg + it.slots) (it.base base)
      some (k + n)

/-- The pointers that the `%n` of a format are given. -/
def countPointers (args : VaList) : List Item → (arg : Nat) → List U64
  | [], _ => []
  | it :: its, arg => (it.count args arg).toList ++ countPointers args its (arg + it.slots)

/-! ## Directives -/

theorem Field.value_eq (args : VaList) (field : Field) (s : Printf) :
    field.value args s = (field.valueAt args s.arg, s.setArg (s.arg + field.slots)) := by
  cases field <;> rfl

theorem precisionValue_eq (args : VaList) (precision : Option Field) (s : Printf) :
    precisionValue args precision s =
      (precisionAt args s.arg precision, s.setArg (s.arg + precisionSlots precision)) := by
  cases precision with
  | none => rfl
  | some field => simp [precisionValue, Field.value_eq, precisionAt, precisionSlots]

/-- `scan_number` leaves an `int`. -/
theorem isInt_foldl_scanDigit (text : List Byte) : IsInt (text.foldl scanDigit 0) := by
  induction text using List.reverseRecOn with
  | nil => decide
  | append_singleton text c ih =>
      rw [List.foldl_append, List.foldl_cons, List.foldl_nil]
      exact isInt_wrapInt _

theorem Field.isInt_valueAt (args : VaList) (arg : Nat) (field : Field) :
    IsInt (field.valueAt args arg) := by
  cases field with
  | absent =>
      change IsInt (-1)
      decide
  | digits text => exact isInt_foldl_scanDigit text
  | star =>
      have hlow : -2 ^ 31 ≤ ((args.slot arg).setWidth 32).toInt := BitVec.le_toInt _
      have hhigh : ((args.slot arg).setWidth 32).toInt < 2 ^ 31 := BitVec.toInt_lt
      exact ⟨hlow, hhigh⟩

theorem Directive.isInt_widthAt (args : VaList) (arg : Nat) (d : Directive) :
    IsInt (d.widthAt args arg).1 := by
  unfold Directive.widthAt widthFlags
  split
  · split
    · exact isInt_wrapInt _
    · exact Field.isInt_valueAt args arg _
  · exact Field.isInt_valueAt args arg _

theorem Directive.isInt_precisionAt (args : VaList) (arg : Nat) (d : Directive) :
    IsInt (d.precisionAt args arg) := by
  unfold Directive.precisionAt Arm64OS.precisionAt
  split
  · decide
  · split
    · decide
    · exact Field.isInt_valueAt args _ _

theorem Outcome.apply_setArg (string : U64) (o : Outcome) (slots n : Nat) (s : Printf) :
    o.apply string slots (s.setArg n) = (o.apply string 0 s).setArg (n + slots) := rfl

theorem Directive.run_eq (args : VaList) (string : U64) (d : Directive) (s : Printf) :
    d.run args string s = (d.outcome args s.arg s.base).apply string d.slots s := by
  have hconvert := fun n => convert_eq args string (s.setArg n) (d.widthAt args s.arg).2
    (d.isInt_widthAt args s.arg) (d.isInt_precisionAt args s.arg) d.qualifier d.letter
  simp only [Directive.widthAt, Directive.precisionAt] at hconvert
  simp [Directive.run, Field.value_eq, precisionValue_eq, hconvert, Directive.outcome,
    Directive.widthAt, Directive.precisionAt, Directive.valueAt, Directive.slots,
    Outcome.apply_setArg, Nat.add_assoc]
  rfl

theorem Item.run_eq (args : VaList) (string : U64) (it : Item) (s : Printf) :
    it.run args string s = (it.outcome args s.arg s.base).apply string it.slots s := by
  cases it with
  | char c => exact (Outcome.apply_keep string s 0 [c]).symm
  | directive d => exact d.run_eq args string s

/-! ## Lengths of texts -/

theorem stringLen_le (str : List Byte) (precision : Int) :
    (stringLen str precision).toNat ≤ str.length := by
  have hwrap : wrapInt str.length ≤ str.length := by
    unfold wrapInt
    rw [Int.bmod_def]
    split <;> omega
  simp only [stringLen]
  split_ifs <;> omega

theorem isInt_stringLen (str : List Byte) {precision : Int} (hprecision : IsInt precision) :
    IsInt (stringLen str precision) := by
  simp only [stringLen]
  split_ifs
  · exact isInt_wrapInt _
  · exact hprecision
  · exact isInt_wrapInt _

theorem length_padded (loop : Int → List Byte × Int) (flags : Flags) (fieldWidth : Int)
    (text : List Byte) :
    (padded loop flags fieldWidth text).length =
      (padBefore loop flags fieldWidth).1.length +
        (loop (padBefore loop flags fieldWidth).2).1.length + text.length := by
  rw [padded, List.length_append, List.length_append, Nat.add_right_comm]

theorem length_charText (flags : Flags) {fieldWidth : Int} (hwidth : IsInt fieldWidth) (v : U64) :
    (charText flags fieldWidth v).length = charPad flags fieldWidth + 1 := by
  -- the first loop leaves the least `int` if it begins right above it
  have hleast : wrapInt (fieldWidth - 1) = intMin ↔ fieldWidth = intMin + 1 := by
    rw [wrapInt_sub_one hwidth]
    unfold intMin intMax
    split <;> omega
  rw [charText, length_padded, charPad]
  cases hleft : flags.left with
  | true => simp [padBefore, hleft, padDown_eq]
  | false =>
      have hsecond := toNat_pad_zero (isInt_wrapInt (fieldWidth - 1))
      simp [padBefore, hleft, padDown_eq, hsecond, hleast]

theorem length_stringText (flags : Flags) {fieldWidth precision : Int} (hwidth : IsInt fieldWidth)
    (hprecision : IsInt precision) (str : List Byte) :
    (stringText flags fieldWidth precision str).length =
      stringPad flags fieldWidth (stringLen str precision) +
        (stringLen str precision).toNat := by
  have hlen := isInt_stringLen str hprecision
  have htaken := stringLen_le str precision
  rw [stringText, length_padded, List.length_take, Nat.min_eq_left htaken, stringPad]
  generalize stringLen str precision = len at hlen
  cases hleft : flags.left with
  | true => simp [padBefore, hleft, pad_eq, hlen, hwidth]
  | false =>
      have hmin : IsInt (min fieldWidth len) := by
        unfold IsInt at hwidth hlen ⊢
        omega
      have hsecond : (wrapInt (min fieldWidth len - 1) - len).toNat =
          if min fieldWidth len = intMin then ((intMax : Int) - len).toNat else 0 := by
        rw [wrapInt_sub_one hmin]
        split <;> omega
      simp [padBefore, hleft, pad_eq, hlen, hwidth, isInt_wrapInt, hsecond]

theorem numberLength_small (num : U64) (base size precision : Int) (flags : Flags) :
    numberLength num base size precision { flags with small := true } =
      numberLength num base size precision flags := by
  have hmark : (baseMark base { flags with small := true }).length = (baseMark base flags).length := by
    unfold baseMark
    split_ifs <;> rfl
  have hsign : signOf num size { flags with small := true } = signOf num size flags := rfl
  have hpads : ∀ room, pads room { flags with small := true } = pads room flags := fun _ => rfl
  simp only [numberLength, sizeLeft, hpads, hsign, hmark]

/-- The outcome of a conversion has the length and the base that the formulas give. -/
structure Outcome.Measures (o : Outcome) (length : Option Nat) (base : Int) (count : Option U64) :
    Prop where
  length : length = if o.null then none else some o.text.length
  base : o.base = base
  count : o.count = count

theorem integerOutcome_measures {base : Int} (hbase : BaseOk base) (num : U64)
    (fieldWidth precision : Int) (flags : Flags) :
    (integerOutcome [] num base fieldWidth precision flags).Measures
      (some (numberLength num base fieldWidth precision flags)) base none := by
  rw [integerOutcome, if_pos hbase]
  exact ⟨by simp [length_numberText], rfl, rfl⟩

theorem convertOutcome_measures (args : VaList) (flags : Flags) {fieldWidth precision : Int}
    (hwidth : IsInt fieldWidth) (hprecision : IsInt precision) (qualifier : Qualifier) (c : Byte)
    (base : Int) (v : U64) :
    (convertOutcome args flags fieldWidth precision qualifier c base v).Measures
      (convertLength args flags fieldWidth precision qualifier c base v) (convertBase c base)
      (if c = ch 'n' then some v else none) := by
  have hinteger := fun (b : Int) (hb : BaseOk b) flags =>
    integerOutcome_measures hb (integerArg qualifier flags v) fieldWidth precision flags
  unfold convertOutcome convertLength
  by_cases hc : c = ch 'c'
  · subst hc
    refine ⟨?_, rfl, rfl⟩
    simp [length_charText flags hwidth]
  rw [if_neg hc, if_neg hc]
  by_cases hs : c = ch 's'
  · subst hs
    refine ⟨?_, rfl, rfl⟩
    simp [length_stringText flags hwidth hprecision]
  rw [if_neg hs, if_neg hs]
  by_cases hn : c = ch 'n'
  · subst hn
    exact ⟨rfl, rfl, rfl⟩
  rw [if_neg hn, if_neg hn, if_neg hn]
  by_cases hp : c = ch 'p'
  · subst hp
    refine ⟨?_, rfl, rfl⟩
    by_cases hnone : fieldWidth = -1
    · simp [pointerText, hnone, length_numberText]
    · simp [pointerText, hnone, length_numberText]
  rw [if_neg hp, if_neg hp]
  by_cases ho : c = ch 'o'
  · subst ho
    exact hinteger 8 (by decide) flags
  rw [if_neg ho, if_neg ho]
  by_cases hx : c = ch 'x'
  · subst hx
    have hx := hinteger 16 (by decide) { flags with small := true }
    rw [numberLength_small] at hx
    exact hx
  rw [if_neg hx]
  by_cases hX : c = ch 'X'
  · subst hX
    exact hinteger 16 (by decide) flags
  have hxX : ¬ (c = ch 'x' ∨ c = ch 'X') := by
    rintro (h | h)
    · exact hx h
    · exact hX h
  rw [if_neg hX, if_neg hxX]
  by_cases hd : c = ch 'd' ∨ c = ch 'i'
  · rw [if_pos hd, if_pos hd]
    have hbase : convertBase c base = 10 := by
      rcases hd with rfl | rfl
      · rfl
      · rfl
    rw [hbase]
    exact hinteger 10 (by decide) { flags with sign := true }
  rw [if_neg hd, if_neg hd]
  by_cases hu : c = ch 'u'
  · subst hu
    exact hinteger 10 (by decide) flags
  rw [if_neg hu, if_neg hu]
  -- the default case keeps the base
  have hbase : convertBase c base = base := by
    simp only [not_or] at hd
    simp [convertBase, ho, hx, hX, hd, hu]
  rw [hbase]
  by_cases hok : BaseOk base
  · rw [integerOutcome, if_pos hok, if_pos hok]
    exact ⟨by simp [length_numberText], rfl, rfl⟩
  · rw [integerOutcome, if_neg hok, if_neg hok]
    exact ⟨rfl, rfl, rfl⟩

theorem Item.measures (args : VaList) (arg : Nat) (base : Int) (it : Item) :
    (it.outcome args arg base).Measures (it.length args arg base) (it.base base)
      (it.count args arg) := by
  cases it with
  | char c => exact ⟨rfl, rfl, rfl⟩
  | directive d =>
      exact convertOutcome_measures args _ (d.isInt_widthAt args arg)
        (d.isInt_precisionAt args arg) d.qualifier d.letter base _

/-! ## The stores -/

/-- All stores of `myprintf`, the one of the terminating NUL included, are inside the buffer. -/
def StoresInBuffer (buf : Buffer) (fmt : CString) (args : VaList) (base : Int) : Prop :=
  ∃ len s, myprintf (fmt.length + 1) buf.string fmt.byte args base = some (len, s) ∧
    ∀ st ∈ s.stores, InBuffer buf st.1

/-- There is room for the characters that the format asks for and for the NUL, and the
pointers given to `%n` point into the buffer. -/
def Fits (buf : Buffer) (fmt : CString) (args : VaList) (base : Int) : Prop :=
  let its := items (fmt.length + 1) fmt.chars
  ∃ n, demand args its 0 base = some n ∧ n < buf.size ∧
    ∀ ip ∈ countPointers args its 0, InBuffer buf ip

theorem inBuffer_offset {buf : Buffer} {n : Nat} (hn : n ≤ buf.size) :
    InBuffer buf (buf.string + BitVec.ofNat 64 n) ↔ n < buf.size := by
  have hfits := buf.fits
  have hsize := buf.size_lt
  have hpos : buf.string.toNat ≠ 0 := fun h => buf.ne_null (BitVec.eq_of_toNat_eq h)
  have haddr : (buf.string + BitVec.ofNat 64 n).toNat = (buf.string.toNat + n) % 2 ^ 64 := by
    rw [BitVec.toNat_add, BitVec.toNat_ofNat]
    omega
  unfold InBuffer
  rw [haddr]
  -- the sum wraps only at the very end of the address space, where it is 0
  by_cases hwrap : buf.string.toNat + n < 2 ^ 64
  · rw [Nat.mod_eq_of_lt hwrap]
    omega
  · have hzero : (buf.string.toNat + n) % 2 ^ 64 = 0 := by
      have heq : buf.string.toNat + n = 2 ^ 64 := by omega
      rw [heq, Nat.mod_self]
    rw [hzero]
    omega

theorem layout_inBuffer {buf : Buffer} {text : List Byte} {n : Nat} (hn : n ≤ buf.size) :
    (∀ st ∈ layout (buf.string + BitVec.ofNat 64 n) text, InBuffer buf st.1) ↔
      n + text.length ≤ buf.size := by
  induction text generalizing n with
  | nil => simpa using hn
  | cons b text ih =>
      have hnext : buf.string + BitVec.ofNat 64 n + 1 = buf.string + BitVec.ofNat 64 (n + 1) := by
        rw [BitVec.add_assoc, BitVec.ofNat_add]
        rfl
      rw [layout_cons, List.forall_mem_cons, inBuffer_offset hn, hnext, List.length_cons]
      by_cases hlt : n < buf.size
      · rw [ih hlt]
        omega
      · omega

variable {args : VaList} {string : U64}

/-- All the stores, from the variables `s` on to the terminating NUL. -/
def finalStores (args : VaList) (string : U64) (its : List Item) (s : Printf) :
    List (U64 × Byte) :=
  (runItems args string its s).stores ++ [((runItems args string its s).pos, 0#8)]

theorem finalStores_cons (it : Item) (its : List Item) (s : Printf) :
    finalStores args string (it :: its) s =
      finalStores args string its ((it.outcome args s.arg s.base).apply string it.slots s) := by
  rw [← Item.run_eq]
  rfl

theorem stores_subset_finalStores (its : List Item) (s : Printf) :
    s.stores ⊆ finalStores args string its s := by
  induction its generalizing s with
  | nil => exact List.subset_append_left _ _
  | cons it its ih =>
      rw [finalStores_cons]
      refine List.Subset.trans ?_ (ih _)
      rw [Outcome.apply, List.append_assoc]
      exact List.subset_append_left _ _

/-- Once `pos` is 0, the next byte goes to address 0. -/
theorem null_mem_finalStores (args : VaList) (string : U64) (its : List Item) {s : Printf}
    (hpos : s.pos = 0) :
    ∃ st ∈ finalStores args string its s, st.1 = 0#64 := by
  induction its generalizing s with
  | nil => exact ⟨_, List.mem_append_right _ (List.mem_singleton_self _), hpos⟩
  | cons it its ih =>
      rw [finalStores_cons]
      obtain ⟨o, ho⟩ : ∃ o, it.outcome args s.arg s.base = o := ⟨_, rfl⟩
      rw [ho]
      cases htext : o.text with
      | nil =>
          refine ih ?_
          simp [Outcome.apply, htext, hpos]
      | cons b text =>
          refine ⟨(s.pos, b), stores_subset_finalStores its _ ?_, hpos⟩
          simp [Outcome.apply, htext]

theorem not_inBuffer_null (buf : Buffer) : ¬ InBuffer buf 0#64 := by
  intro h
  have hpos : buf.string.toNat ≠ 0 := fun hz => buf.ne_null (BitVec.eq_of_toNat_eq hz)
  have hle := h.1
  simp at hle
  omega

/-- **The stores of a format**, from place `n` of the buffer on. -/
theorem finalStores_inBuffer (args : VaList) (buf : Buffer) (its : List Item) {s : Printf} {n : Nat}
    (hpos : s.pos = buf.string + BitVec.ofNat 64 n) (hn : n ≤ buf.size) :
    (∀ st ∈ finalStores args buf.string its s, InBuffer buf st.1) ↔
      (∀ st ∈ s.stores, InBuffer buf st.1) ∧
      ∃ m, demand args its s.arg s.base = some m ∧ n + m < buf.size ∧
        ∀ ip ∈ countPointers args its s.arg, InBuffer buf ip := by
  induction its generalizing s n with
  | nil =>
      have hend := inBuffer_offset hn
      rw [← hpos] at hend
      simp [finalStores, runItems, demand, countPointers, or_imp, forall_and, hend]
  | cons it its ih =>
      obtain ⟨o, ho⟩ : ∃ o, it.outcome args s.arg s.base = o := ⟨_, rfl⟩
      have hmeasures := it.measures args s.arg s.base
      rw [ho] at hmeasures
      rw [finalStores_cons, ho]
      cases hnull : o.null with
      | true =>
          have hlength : it.length args s.arg s.base = none := by
            rw [hmeasures.length, hnull]
            rfl
          constructor
          · intro h
            obtain ⟨st, hst, hzero⟩ := null_mem_finalStores args buf.string
              its (s := o.apply buf.string it.slots s) (by simp [Outcome.apply, hnull])
            have hin := h st hst
            rw [hzero] at hin
            exact absurd hin (not_inBuffer_null buf)
          · rintro ⟨-, m, hm, -⟩
            simp [demand, hlength] at hm
      | false =>
          have hlength : it.length args s.arg s.base = some o.text.length := by
            rw [hmeasures.length, hnull]
            rfl
          obtain ⟨s', hs'⟩ : ∃ s', o.apply buf.string it.slots s = s' := ⟨_, rfl⟩
          have harg : s'.arg = s.arg + it.slots := by rw [← hs']; rfl
          have hbase : s'.base = it.base s.base := by rw [← hs']; exact hmeasures.base
          have hpos' : s'.pos = buf.string + BitVec.ofNat 64 (n + o.text.length) := by
            simp [← hs', Outcome.apply, hnull, hpos, BitVec.ofNat_add, BitVec.add_assoc]
          -- the stores of this item
          have hstores : (∀ st ∈ s'.stores, InBuffer buf st.1) ↔
              (∀ st ∈ s.stores, InBuffer buf st.1) ∧ n + o.text.length ≤ buf.size ∧
                ∀ ip ∈ (it.count args s.arg).toList, InBuffer buf ip := by
            rw [← hs', Outcome.apply, List.forall_mem_append, List.forall_mem_append, hpos,
              layout_inBuffer hn, hmeasures.count, and_assoc]
            simp
          have hdemand : demand args (it :: its) s.arg s.base =
              (demand args its s'.arg s'.base).map (o.text.length + ·) := by
            rw [harg, hbase, demand, hlength]
            cases demand args its (s.arg + it.slots) (it.base s.base) <;> rfl
          have hpointers : countPointers args (it :: its) s.arg =
              (it.count args s.arg).toList ++ countPointers args its s'.arg := by
            rw [harg]
            rfl
          rw [hs', hdemand, hpointers]
          by_cases hroom : n + o.text.length ≤ buf.size
          · rw [ih hpos' hroom, hstores]
            constructor
            · rintro ⟨⟨hold, -, hcount⟩, m, hm, hlt, hrest⟩
              refine ⟨hold, o.text.length + m, by rw [hm]; rfl, by omega, ?_⟩
              exact List.forall_mem_append.2 ⟨hcount, hrest⟩
            · rintro ⟨hold, m, hm, hlt, hall⟩
              obtain ⟨hcount, hrest⟩ := List.forall_mem_append.1 hall
              obtain ⟨m', hm', rfl⟩ := Option.map_eq_some_iff.1 hm
              exact ⟨⟨hold, hroom, hcount⟩, m', hm', by omega, hrest⟩
          · constructor
            · intro h
              have hin := hstores.1 fun st hst => h st (stores_subset_finalStores its s' hst)
              exact absurd hin.2.1 hroom
            · rintro ⟨-, m, hm, hlt, -⟩
              obtain ⟨m', -, rfl⟩ := Option.map_eq_some_iff.1 hm
              omega

theorem myprintf_eq (fmt : CString) (args : VaList) (base : Int) {fuel : Nat}
    (hfuel : fmt.length < fuel) (string : U64) :
    myprintf fuel string fmt.byte args base =
      (let s := runItems args string (items fuel fmt.chars) (Printf.start string base)
       some (argInt (s.pos - string), { s with stores := s.stores ++ [(s.pos, 0#8)] })) := by
  rw [myprintf, formatLoop_eq fmt.suffix (by simpa using hfuel)]
  rfl

theorem storesInBuffer_iff (buf : Buffer) (fmt : CString) (args : VaList) (base : Int) :
    StoresInBuffer buf fmt args base ↔ Fits buf fmt args base := by
  have hstores := finalStores_inBuffer args buf
    (items (fmt.length + 1) fmt.chars) (s := Printf.start buf.string base) (n := 0)
    (by simp [Printf.start]) (Nat.zero_le _)
  unfold StoresInBuffer Fits
  rw [myprintf_eq fmt args base (Nat.lt_succ_self _)]
  simpa [Printf.start, finalStores] using hstores

end Arm64OS
