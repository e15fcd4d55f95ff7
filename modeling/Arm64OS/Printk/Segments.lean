import Arm64OS.Printk.Bounds

/-!
# Formats as their callers read them

A format is read as ordinary characters, `%%` pairs and conversions, each of which takes the
next argument.  `segmented_iff` says for which formats `myprintf` agrees with that reading:
those without a `%%`, because the `%%` case leaves the `switch` by the exit into the integer
code.
-/

namespace Arm64OS

/-- The letters of the conversions. -/
def letters : List Byte := ['c', 's', 'p', 'o', 'x', 'X', 'd', 'i', 'u'].map ch

/-- The spellings of the qualifiers. -/
def qualifiers : List (List Byte) :=
  [[], [ch 'h'], [ch 'l'], [ch 'l', ch 'l'], [ch 'L']]

/-- A complete conversion as it is written: `%`, flags, the digits of a width and of a
precision, a qualifier and a letter. -/
structure Conversion where
  flags : List Byte
  width : List Byte
  precision : Option (List Byte)
  qualifier : List Byte
  letter : Byte
  flags_ok : ∀ c ∈ flags, isFlag c
  width_ok : ∀ c ∈ width, isDigit c
  /-- a `0` in front of the width is a flag -/
  width_head : ∀ c ∈ width.head?, c ≠ ch '0'
  precision_ok : ∀ text ∈ precision, ∀ c ∈ text, isDigit c
  qualifier_ok : qualifier ∈ qualifiers
  letter_ok : letter ∈ letters

inductive Segment
  | char (c : Byte) (hc : c ≠ 0#8 ∧ c ≠ ch '%')
  | percent
  | conversion (conv : Conversion)

def precisionText : Option (List Byte) → List Byte
  | none => []
  | some text => ch '.' :: text

/-- The characters of a conversion behind its `%`. -/
def Conversion.tail (conv : Conversion) : List Byte :=
  conv.flags ++ (conv.width ++ (precisionText conv.precision ++ (conv.qualifier ++ [conv.letter])))

def Conversion.text (conv : Conversion) : List Byte := ch '%' :: conv.tail

def Segment.text : Segment → List Byte
  | .char c _ => [c]
  | .percent => [ch '%', ch '%']
  | .conversion conv => conv.text

/-- How many conversions there are. -/
def conversions (segs : List Segment) : Nat :=
  (segs.map fun
    | .conversion _ => 1
    | _ => 0).sum

/-- The arguments from place `i` on. -/
def VaList.drop (i : Nat) (args : VaList) : VaList := { args with slot := fun j => args.slot (i + j) }

/-- The output of a conversion that is a format of its own, on the arguments from place `i` on:
what it stores, without the NUL. -/
def Conversion.output (args : VaList) (string : U64) (base : Int) (i : Nat) (conv : Conversion) :
    Option (List Byte) := do
  let (_, s) ← myprintf (conv.text.length + 1) string (CString.ofList conv.text).byte
    (args.drop i) base
  some (s.stores.map Prod.snd).dropLast

/-- The outputs of the segments, the first conversion of which is given the argument `i`. -/
def outputs (args : VaList) (string : U64) (base : Int) :
    List Segment → (i : Nat) → Option (List Byte)
  | [], _ => some []
  | .char c _ :: segs, i => do
      let text ← outputs args string base segs i
      some (c :: text)
  | .percent :: segs, i => do
      let text ← outputs args string base segs i
      some (ch '%' :: text)
  | .conversion conv :: segs, i => do
      let front ← conv.output args string base i
      let text ← outputs args string base segs (i + 1)
      some (front ++ text)

/-- `myprintf` stores the outputs of the segments one behind the other, and takes as many
arguments as there are conversions. -/
def Segmented (string : U64) (fmt : CString) (args : VaList) (base : Int) (segs : List Segment) :
    Prop :=
  ∃ len s text, myprintf (fmt.length + 1) string fmt.byte args base = some (len, s) ∧
    outputs args string base segs 0 = some text ∧
    s.stores = layout string (text ++ [0#8]) ∧ s.arg = conversions segs

/-! ## Reading a conversion back -/

/-- The characters that can follow the flags and the width. -/
def afterWidth : List Byte := ch '.' :: ch 'h' :: ch 'l' :: ch 'L' :: letters

theorem afterWidth_plain {c : Byte} (hc : c ∈ afterWidth) :
    isFlag c = false ∧ isDigit c = false ∧ c ≠ ch '*' := by
  have hall : ∀ c ∈ afterWidth, isFlag c = false ∧ isDigit c = false ∧ c ≠ ch '*' := by decide
  exact hall c hc

theorem letters_plain {c : Byte} (hc : c ∈ letters) :
    c ≠ ch '.' ∧ c ≠ ch 'h' ∧ c ≠ ch 'l' ∧ c ≠ ch 'L' ∧ c ≠ 0#8 ∧ c ≠ ch '%' := by
  have hall : ∀ c ∈ letters,
      c ≠ ch '.' ∧ c ≠ ch 'h' ∧ c ≠ ch 'l' ∧ c ≠ ch 'L' ∧ c ≠ 0#8 ∧ c ≠ ch '%' := by decide
  exact hall c hc

def fieldOf (text : List Byte) : Field := if text = [] then .absent else .digits text

def qualifierOf (text : List Byte) : Qualifier :=
  if text = [ch 'h'] then .h
  else if text = [ch 'l'] then .l
  else if text = [] then .none
  else .L

def Conversion.directive (conv : Conversion) : Directive where
  flags := conv.flags
  width := fieldOf conv.width
  precision := conv.precision.map fieldOf
  qualifier := qualifierOf conv.qualifier
  letter := conv.letter

/-- What comes behind the characters that meet `p`. -/
theorem span_append {p : Byte → Bool} {l : List Byte} (hl : ∀ c ∈ l, p c) {c : Byte}
    (hc : p c = false) (rest : List Byte) :
    (l ++ c :: rest).takeWhile p = l ∧ (l ++ c :: rest).dropWhile p = c :: rest := by
  rw [List.takeWhile_append_of_pos hl, List.dropWhile_append_of_pos hl]
  simp [hc]

theorem parseField_append {text : List Byte} (htext : ∀ c ∈ text, isDigit c) {c : Byte}
    (hc : c ∈ afterWidth) (rest : List Byte) :
    parseField (text ++ c :: rest) = (fieldOf text, c :: rest) := by
  obtain ⟨-, hdigit, hstar⟩ := afterWidth_plain hc
  cases text with
  | nil => simp [parseField, hdigit, hstar, fieldOf]
  | cons d text =>
      have hspan := span_append htext hdigit rest
      have hd : isDigit d := htext d (by simp)
      rw [List.cons_append, parseField, if_pos hd, ← List.cons_append, hspan.1, hspan.2]
      simp [fieldOf]

theorem parsePrecision_append {precision : Option (List Byte)}
    (hprecision : ∀ text ∈ precision, ∀ c ∈ text, isDigit c) {c : Byte} (hc : c ∈ afterWidth)
    (hdot : c ≠ ch '.') (rest : List Byte) :
    parsePrecision (precisionText precision ++ c :: rest) =
      (precision.map fieldOf, c :: rest) := by
  cases precision with
  | none => simp [precisionText, parsePrecision, hdot]
  | some text =>
      have hfield := parseField_append (hprecision text rfl) hc rest
      simp [precisionText, parsePrecision, hfield]

theorem parseQualifier_append {qualifier : List Byte} (hqualifier : qualifier ∈ qualifiers)
    {c : Byte} (hc : c ∈ letters) (rest : List Byte) :
    parseQualifier (qualifier ++ c :: rest) = (qualifierOf qualifier, c :: rest) := by
  obtain ⟨-, hh, hl, hL, -⟩ := letters_plain hc
  simp only [qualifiers, List.mem_cons, List.not_mem_nil, or_false] at hqualifier
  rcases hqualifier with rfl | rfl | rfl | rfl | rfl
  · simp [parseQualifier, hh, hl, hL, qualifierOf]
  · simp [parseQualifier, qualifierOf]
  · simp [parseQualifier, hl, qualifierOf, show ch 'l' ≠ ch 'h' by decide]
  · simp [parseQualifier, qualifierOf, show ch 'l' ≠ ch 'h' by decide]
  · simp [parseQualifier, qualifierOf, show ch 'L' ≠ ch 'h' by decide,
      show ch 'L' ≠ ch 'l' by decide]

/-- What is read of the characters behind the `%`. -/
theorem parseDirective_tail (conv : Conversion) (rest : List Byte) :
    parseDirective (conv.tail ++ rest) = (conv.directive, rest) := by
  have hletter : conv.letter ∈ afterWidth := by simp [afterWidth, conv.letter_ok]
  have hletterDot := (letters_plain conv.letter_ok).1
  -- what follows the precision starts with one of these characters, and so on upwards
  obtain ⟨c₂, r₂, h₂, hc₂, hdot₂⟩ : ∃ c r, conv.qualifier ++ (conv.letter :: rest) = c :: r ∧
      c ∈ afterWidth ∧ c ≠ ch '.' := by
    have hqualifier := conv.qualifier_ok
    simp only [qualifiers, List.mem_cons, List.not_mem_nil, or_false] at hqualifier
    rcases hqualifier with h | h | h | h | h
    all_goals rw [h]
    · exact ⟨_, _, rfl, hletter, hletterDot⟩
    all_goals exact ⟨_, _, rfl, by decide, by decide⟩
  obtain ⟨c₁, r₁, h₁, hc₁⟩ : ∃ c r, precisionText conv.precision ++ c₂ :: r₂ = c :: r ∧
      c ∈ afterWidth := by
    cases conv.precision with
    | none => exact ⟨_, _, rfl, hc₂⟩
    | some text => exact ⟨_, _, rfl, by decide⟩
  obtain ⟨c₀, r₀, h₀, hc₀⟩ : ∃ c r, conv.width ++ c₁ :: r₁ = c :: r ∧ isFlag c = false := by
    have hwidth := conv.width_ok
    have hhead := conv.width_head
    cases hw : conv.width with
    | nil => exact ⟨_, _, rfl, (afterWidth_plain hc₁).1⟩
    | cons d width =>
        refine ⟨_, _, rfl, ?_⟩
        have hd : isDigit d := hwidth d (by simp [hw])
        have hzero : d ≠ ch '0' := hhead d (by simp [hw])
        have hall : ∀ d : Byte, isDigit d → d ≠ ch '0' → isFlag d = false := by decide +kernel
        exact hall d hd hzero
  have htail : conv.tail ++ rest = conv.flags ++ c₀ :: r₀ := by
    rw [← h₀, ← h₁, ← h₂, Conversion.tail]
    simp
  have hspan := span_append conv.flags_ok hc₀ r₀
  have hfield := parseField_append conv.width_ok hc₁ r₁
  have hprecision := parsePrecision_append conv.precision_ok hc₂ hdot₂ r₂
  have hqualifier := parseQualifier_append conv.qualifier_ok conv.letter_ok rest
  rw [h₀] at hfield
  rw [h₁] at hprecision
  rw [h₂] at hqualifier
  rw [htail]
  simp [parseDirective, hspan.1, hspan.2, hfield, hprecision, hqualifier, Conversion.directive]

/-! ## The items of a format -/

/-- The directive that a `%%` is read as. -/
def percentDirective : Directive := ⟨[], .absent, none, .none, ch '%'⟩

theorem parseDirective_percent (rest : List Byte) :
    parseDirective (ch '%' :: rest) = (percentDirective, rest) := by
  have hflag : isFlag (ch '%') = false := by decide
  have hdigit : isDigit (ch '%') = false := by decide
  simp [parseDirective, hflag, parseField, hdigit, parsePrecision, parseQualifier,
    percentDirective, show ch '%' ≠ ch '*' by decide, show ch '%' ≠ ch '.' by decide,
    show ch '%' ≠ ch 'h' by decide, show ch '%' ≠ ch 'l' by decide,
    show ch '%' ≠ ch 'L' by decide]

def Segment.item : Segment → Item
  | .char c _ => .char c
  | .percent => .directive percentDirective
  | .conversion conv => .directive conv.directive

theorem items_flatMap (segs : List Segment) {fuel : Nat}
    (hfuel : (segs.flatMap Segment.text).length < fuel) :
    items fuel (segs.flatMap Segment.text) = segs.map Segment.item := by
  induction segs generalizing fuel with
  | nil =>
      cases fuel with
      | zero => omega
      | succ fuel => rfl
  | cons seg segs ih =>
      cases fuel with
      | zero => omega
      | succ fuel =>
          rw [List.flatMap_cons, List.length_append] at hfuel
          rw [List.flatMap_cons, List.map_cons]
          cases seg with
          | char c hc =>
              simp only [Segment.text, List.length_singleton] at hfuel
              rw [Segment.text, List.singleton_append, items, if_pos hc.2, ih (by omega)]
              rfl
          | percent =>
              simp only [Segment.text, List.length_cons, List.length_nil] at hfuel
              simp only [Segment.text, List.cons_append, List.nil_append, items]
              rw [if_neg (by simp), parseDirective_percent, ih (by omega)]
              rfl
          | conversion conv =>
              simp only [Segment.text, Conversion.text, List.length_cons] at hfuel
              simp only [Segment.text, Conversion.text, List.cons_append, items]
              rw [if_neg (by simp), parseDirective_tail, ih (by omega)]
              rfl

/-! ## What a conversion comes to -/

theorem fieldOf_slots (text : List Byte) : (fieldOf text).slots = 0 := by
  unfold fieldOf
  split <;> rfl

theorem fieldOf_valueAt (args : VaList) (i : Nat) (text : List Byte) :
    (fieldOf text).valueAt args i = (fieldOf text).valueAt ⟨fun _ => 0, fun _ => []⟩ 0 := by
  unfold fieldOf
  split <;> rfl

theorem precisionSlots_fieldOf (precision : Option (List Byte)) :
    precisionSlots (precision.map fieldOf) = 0 := by
  cases precision with
  | none => rfl
  | some text => exact fieldOf_slots text

theorem Conversion.slots (conv : Conversion) : conv.directive.slots = 1 := by
  simp [Directive.slots, Conversion.directive, fieldOf_slots, precisionSlots_fieldOf]

theorem Conversion.valueAt_directive (conv : Conversion) (args : VaList) (i : Nat) :
    conv.directive.valueAt args i = args.slot i := by
  simp [Directive.valueAt, Conversion.directive, fieldOf_slots, precisionSlots_fieldOf]

theorem integerOutcome_text {b : Int} (hb : BaseOk b) (num : U64) (w p : Int) (flags : Flags) :
    integerOutcome [] num b w p flags = ⟨numberText num b w p flags, false, b, none⟩ := by
  rw [integerOutcome, if_pos hb, List.nil_append]

/-- A conversion by one of the letters does not look at the `base` it finds. -/
theorem convertOutcome_of_letter {c : Byte} (hc : c ∈ letters) (args : VaList) (flags : Flags)
    (w p : Int) (q : Qualifier) (v : U64) :
    ∃ text, ∀ base, ∃ base', convertOutcome args flags w p q c base v =
      ⟨text, false, base', none⟩ := by
  simp only [letters, List.map_cons, List.map_nil, List.mem_cons, List.not_mem_nil,
    or_false] at hc
  have hten := integerOutcome_text (b := 10) (by decide)
  have height := integerOutcome_text (b := 8) (by decide)
  have hsixteen := integerOutcome_text (b := 16) (by decide)
  rcases hc with rfl | rfl | rfl | rfl | rfl | rfl | rfl | rfl | rfl
  · exact ⟨_, fun base => ⟨base, rfl⟩⟩
  · exact ⟨_, fun base => ⟨base, rfl⟩⟩
  · exact ⟨_, fun base => ⟨base, rfl⟩⟩
  · exact ⟨_, fun base => ⟨8, height _ w p _⟩⟩
  · exact ⟨_, fun base => ⟨16, hsixteen _ w p _⟩⟩
  · exact ⟨_, fun base => ⟨16, hsixteen _ w p _⟩⟩
  · exact ⟨_, fun base => ⟨10, hten _ w p _⟩⟩
  · exact ⟨_, fun base => ⟨10, hten _ w p _⟩⟩
  · exact ⟨_, fun base => ⟨10, hten _ w p _⟩⟩

theorem Conversion.outcome_drop (conv : Conversion) (args : VaList) (i : Nat) (base : Int) :
    conv.directive.outcome (args.drop i) 0 base = conv.directive.outcome args i base := by
  have hwidth := fieldOf_slots conv.width
  have hprecision := precisionSlots_fieldOf conv.precision
  have hvalue : conv.directive.valueAt (args.drop i) 0 = conv.directive.valueAt args i := by
    simp [Directive.valueAt, Conversion.directive, hwidth, hprecision, VaList.drop]
  have hwidthAt : conv.directive.widthAt (args.drop i) 0 = conv.directive.widthAt args i := by
    rw [Directive.widthAt, Directive.widthAt]
    simp only [Conversion.directive]
    rw [fieldOf_valueAt, fieldOf_valueAt args]
  have hprecisionAt :
      conv.directive.precisionAt (args.drop i) 0 = conv.directive.precisionAt args i := by
    rw [Directive.precisionAt, Directive.precisionAt]
    simp only [Conversion.directive]
    cases conv.precision with
    | none => rfl
    | some text =>
        simp only [Option.map_some, Arm64OS.precisionAt]
        rw [fieldOf_valueAt, fieldOf_valueAt args]
  rw [Directive.outcome, Directive.outcome, hvalue, hwidthAt, hprecisionAt]
  rfl

theorem Conversion.exists_outcome (conv : Conversion) (args : VaList) (i : Nat) :
    ∃ text, ∀ base, ∃ base', conv.directive.outcome args i base = ⟨text, false, base', none⟩ :=
  convertOutcome_of_letter conv.letter_ok _ _ _ _ _ _

theorem Conversion.text_ne_nul (conv : Conversion) : ∀ c ∈ conv.text, c ≠ 0#8 := by
  have hflag : ∀ c : Byte, isFlag c → c ≠ 0#8 := by decide +kernel
  have hdigit : ∀ c : Byte, isDigit c → c ≠ 0#8 := by decide +kernel
  have hqualifier : ∀ text ∈ qualifiers, ∀ c ∈ text, c ≠ 0#8 := by decide
  intro c hc
  simp only [Conversion.text, Conversion.tail, List.mem_cons, List.mem_append,
    List.not_mem_nil, or_false] at hc
  rcases hc with rfl | hc | hc | hc | hc | rfl
  · decide
  · exact hflag c (conv.flags_ok c hc)
  · exact hdigit c (conv.width_ok c hc)
  · cases hprecision : conv.precision with
    | none => simp [hprecision, precisionText] at hc
    | some text =>
        simp only [hprecision, precisionText, List.mem_cons] at hc
        rcases hc with rfl | hc
        · decide
        · exact hdigit c (conv.precision_ok text hprecision c hc)
  · exact hqualifier _ conv.qualifier_ok c hc
  · exact (letters_plain conv.letter_ok).2.2.2.2.1

@[simp] theorem map_snd_layout (a : U64) (text : List Byte) :
    (layout a text).map Prod.snd = text := by
  induction text generalizing a with
  | nil => rfl
  | cons b text ih => simp [ih]

/-- The output of a conversion on its own is the text of its outcome. -/
theorem Conversion.output_eq (conv : Conversion) (args : VaList) (string : U64) (base : Int)
    (i : Nat) :
    conv.output args string base i = some (conv.directive.outcome args i base).text := by
  obtain ⟨text, htext⟩ := conv.exists_outcome args i
  obtain ⟨base', houtcome⟩ := htext base
  have hchars := CString.chars_ofList conv.text_ne_nul
  have hlength : (CString.ofList conv.text).length = conv.text.length := by
    rw [← CString.length_chars, hchars]
  have hfuel : ([Segment.conversion conv].flatMap Segment.text).length < conv.text.length + 1 := by
    simp [Segment.text]
  have hitems := items_flatMap [.conversion conv] hfuel
  simp only [List.flatMap_cons, List.flatMap_nil, List.append_nil, Segment.text, List.map_cons,
    List.map_nil, Segment.item] at hitems
  rw [Conversion.output, myprintf_eq _ _ _ (by rw [hlength]; exact Nat.lt_succ_self _), hchars,
    hitems]
  have hrun : runItems (args.drop i) string [.directive conv.directive]
      (Printf.start string base) =
        (conv.directive.outcome args i base).apply string conv.directive.slots
          (Printf.start string base) := by
    rw [← conv.outcome_drop args i base]
    exact Directive.run_eq _ _ _ _
  rw [hrun, houtcome]
  simp [Outcome.apply, Printf.start]

/-! ## What a format comes to -/

theorem runItems_cons (args : VaList) (string : U64) (it : Item) (its : List Item) (s : Printf) :
    runItems args string (it :: its) s =
      runItems args string its ((it.outcome args s.arg s.base).apply string it.slots s) := by
  rw [← Item.run_eq]
  rfl

theorem runItems_arg (args : VaList) (string : U64) (its : List Item) (s : Printf) :
    (runItems args string its s).arg = s.arg + (its.map Item.slots).sum := by
  induction its generalizing s with
  | nil => simp [runItems]
  | cons it its ih =>
      rw [runItems_cons, ih, List.map_cons, List.sum_cons, ← Nat.add_assoc]
      rfl

theorem conversions_cons (seg : Segment) (segs : List Segment) :
    conversions (seg :: segs) = conversions [seg] + conversions segs := by
  simp [conversions]

/-- A `%%` takes an argument that no conversion accounts for. -/
theorem sum_slots (segs : List Segment) :
    conversions segs ≤ ((segs.map Segment.item).map Item.slots).sum ∧
      (((segs.map Segment.item).map Item.slots).sum = conversions segs ↔
        Segment.percent ∉ segs) := by
  induction segs with
  | nil => simp [conversions]
  | cons seg segs ih =>
      obtain ⟨hle, hiff⟩ := ih
      rw [List.map_cons, List.map_cons, List.sum_cons, conversions_cons]
      cases seg with
      | char c hc =>
          simp only [Segment.item, Item.slots, Nat.zero_add, List.mem_cons, reduceCtorEq,
            false_or]
          exact ⟨by simpa [conversions] using hle, by simpa [conversions] using hiff⟩
      | percent =>
          have hslots : Segment.percent.item.slots = 1 := rfl
          have hnone : conversions [Segment.percent] = 0 := rfl
          rw [hslots, hnone]
          exact ⟨by omega, iff_of_false (by omega) (by simp)⟩
      | conversion conv =>
          have hslots : (Segment.conversion conv).item.slots = 1 := conv.slots
          have hone : conversions [Segment.conversion conv] = 1 := rfl
          rw [hslots, hone]
          refine ⟨by omega, ?_⟩
          simp only [List.mem_cons, reduceCtorEq, false_or, ← hiff]
          omega

theorem runItems_segments (args : VaList) (string : U64) (base : Int) (segs : List Segment)
    (hsegs : Segment.percent ∉ segs) (s : Printf) :
    ∃ text, outputs args string base segs s.arg = some text ∧
      (runItems args string (segs.map Segment.item) s).stores = s.stores ++ layout s.pos text ∧
      (runItems args string (segs.map Segment.item) s).pos =
        s.pos + BitVec.ofNat 64 text.length := by
  induction segs generalizing s with
  | nil => exact ⟨[], rfl, by simp [runItems], by simp [runItems]⟩
  | cons seg segs ih =>
      have hrest : Segment.percent ∉ segs := fun h => hsegs (List.mem_cons_of_mem _ h)
      rw [List.map_cons, runItems_cons]
      cases seg with
      | char c hc =>
          obtain ⟨text, houtputs, hstores, hpos⟩ :=
            ih hrest (Outcome.apply string 0 ⟨[c], false, s.base, none⟩ s)
          refine ⟨c :: text, ?_, ?_, ?_⟩
          · have hnext : outputs args string base segs s.arg = some text := houtputs
            rw [outputs, hnext]
            rfl
          · simpa [Segment.item, Item.outcome, Item.slots, Outcome.apply] using hstores
          · simpa [Segment.item, Item.outcome, Item.slots, Outcome.apply, BitVec.ofNat_add,
              BitVec.add_assoc, BitVec.add_comm 1#64] using hpos
      | percent => exact absurd List.mem_cons_self hsegs
      | conversion conv =>
          obtain ⟨front, hfront⟩ := conv.exists_outcome args s.arg
          obtain ⟨base', houtcome⟩ := hfront s.base
          obtain ⟨base'', houtcome'⟩ := hfront base
          have houtput := conv.output_eq args string base s.arg
          rw [houtcome'] at houtput
          obtain ⟨text, houtputs, hstores, hpos⟩ :=
            ih hrest (Outcome.apply string 1 ⟨front, false, base', none⟩ s)
          have hitem : (Segment.conversion conv).item.outcome args s.arg s.base =
              ⟨front, false, base', none⟩ := houtcome
          have hslots : (Segment.conversion conv).item.slots = 1 := conv.slots
          rw [hitem, hslots]
          refine ⟨front ++ text, ?_, ?_, ?_⟩
          · have hnext : outputs args string base segs (s.arg + 1) = some text := houtputs
            rw [outputs, houtput, hnext]
            rfl
          · rw [hstores, layout_append]
            simp [Outcome.apply]
          · rw [hpos, List.length_append, BitVec.ofNat_add, ← BitVec.add_assoc]
            rfl

/-- **`myprintf` on a format that is read as segments.**  It does what that reading says if and
only if there is no `%%`. -/
theorem segmented_iff (string : U64) (fmt : CString) (args : VaList) (base : Int)
    (segs : List Segment) (hfmt : fmt.chars = segs.flatMap Segment.text) :
    Segmented string fmt args base segs ↔ Segment.percent ∉ segs := by
  have hlength : (segs.flatMap Segment.text).length < fmt.length + 1 := by
    rw [← hfmt, CString.length_chars]
    exact Nat.lt_succ_self _
  have hrun := myprintf_eq fmt args base (Nat.lt_succ_self _) string
  rw [hfmt, items_flatMap segs hlength] at hrun
  have harg := runItems_arg args string (segs.map Segment.item) (Printf.start string base)
  constructor
  · rintro ⟨len, s, text, hprintf, -, -, hcount⟩
    rw [hprintf] at hrun
    have hs : s.arg = (runItems args string (segs.map Segment.item)
        (Printf.start string base)).arg := congrArg (fun r => r.2.arg) (Option.some.inj hrun)
    rw [← (sum_slots segs).2, ← hcount, hs, harg]
    exact (Nat.zero_add _).symm
  · intro hsegs
    obtain ⟨text, houtputs, hstores, hpos⟩ :=
      runItems_segments args string base segs hsegs (Printf.start string base)
    refine ⟨_, _, text, hrun, houtputs, ?_, ?_⟩
    · simp only [hstores, hpos, layout_append]
      rfl
    · simp only [harg, (sum_slots segs).2.2 hsegs]
      exact Nat.zero_add _

/-- The short conversions have no flags, no width, no precision and no qualifier. -/
theorem flags_ok_nil : ∀ c ∈ ([] : List Byte), isFlag c := by simp

theorem width_ok_nil : ∀ c ∈ ([] : List Byte), isDigit c := by simp

theorem width_head_nil : ∀ c ∈ ([] : List Byte).head?, c ≠ ch '0' := by simp

theorem precision_ok_none : ∀ text ∈ (none : Option (List Byte)), ∀ c ∈ text, isDigit c := by simp

theorem nil_mem_qualifiers : ([] : List Byte) ∈ qualifiers := by decide

theorem d_mem_letters : ch 'd' ∈ letters := by decide

theorem s_mem_letters : ch 's' ∈ letters := by decide

/-- `%d`. -/
def Conversion.decimal : Conversion where
  flags := []
  width := []
  precision := none
  qualifier := []
  letter := ch 'd'
  flags_ok := flags_ok_nil
  width_ok := width_ok_nil
  width_head := width_head_nil
  precision_ok := precision_ok_none
  qualifier_ok := nil_mem_qualifiers
  letter_ok := d_mem_letters

/-- `"a%d"` is written as it is read. -/
theorem segmented_char_decimal :
    Segmented 0xffff0000000b0000#64
      (CString.ofList ([.char (ch 'a') (by decide), .conversion .decimal].flatMap Segment.text))
      ⟨fun _ => 7#64, fun _ => []⟩ 0 [.char (ch 'a') (by decide), .conversion .decimal] :=
  (segmented_iff _ _ _ _ _ (CString.chars_ofList (by decide))).2 (by simp)

/-- `"%d%%"` prints an argument behind its `%`. -/
theorem percent_prints_argument :
    ((myprintf 5 0xffff0000000b0000#64
      (CString.ofList ([.conversion .decimal, .percent].flatMap Segment.text)).byte
      ⟨fun i => BitVec.ofNat 64 (i + 1), fun _ => []⟩ 0).map
        fun r => (r.2.stores.map Prod.snd, r.2.arg)) = some ([ch '1', ch '%', ch '2', 0#8], 2) ∧
    ¬ Segmented 0xffff0000000b0000#64
      (CString.ofList ([.conversion .decimal, .percent].flatMap Segment.text))
      ⟨fun i => BitVec.ofNat 64 (i + 1), fun _ => []⟩ 0 [.conversion .decimal, .percent] := by
  have hrun : ((myprintf 5 0xffff0000000b0000#64
      (CString.ofList ([.conversion .decimal, .percent].flatMap Segment.text)).byte
      ⟨fun i => BitVec.ofNat 64 (i + 1), fun _ => []⟩ 0).map
        fun r => (r.2.stores.map Prod.snd, r.2.arg)) = some ([ch '1', ch '%', ch '2', 0#8], 2) := by
    decide +kernel
  refine ⟨hrun, ?_⟩
  rintro ⟨len, s, text, hprintf, -, -, hcount⟩
  have hlength : (CString.ofList
      ([.conversion .decimal, .percent].flatMap Segment.text)).length = 4 := by decide
  rw [hlength] at hprintf
  rw [hprintf] at hrun
  have harg : s.arg = 2 := congrArg Prod.snd (Option.some.inj hrun)
  rw [harg] at hcount
  exact absurd hcount (by decide)

end Arm64OS
