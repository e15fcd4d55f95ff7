import Arm64OS.Printk.Star

/-!
# The fields of `%c` and `%s`

Both conversions pad with two loops that run one after the other on one `field_width`: the
first in front of the characters, unless there is a `-`, the second behind them with whatever
the first has left.  `caseChar` and `caseString` are these cases with all their loops counted;
`field_padded` says what they make of every width, precision and string that an `int` can
count.
-/

namespace Arm64OS

open CInt

/-! ## The cases, loop by loop -/

/-- `for (i = 0; i < len; i++) *pos++ = *s++`. -/
def copyLoop (str : Nat → Byte) (len : Int) : (fuel i : Nat) → Printf → Option Printf
  | 0, _, _ => none
  | fuel + 1, i, s =>
      if (i : Int) < len then copyLoop str len fuel (i + 1) (s.put (str i)) else some s

/-- `strlen`, from `sc` on.  Its `size_t` has 32 bits. -/
def strlen (str : Nat → Byte) : (fuel sc : Nat) → Option (BitVec 32)
  | 0, _ => none
  | fuel + 1, sc => if str sc = 0#8 then some (BitVec.ofNat 32 sc) else strlen str fuel (sc + 1)

/-- `case 'c'`. -/
def caseChar (args : VaList) (fuel : Nat) (flags : Flags) (fieldWidth : Int) (s : Printf) :
    Option Printf := do
  let (before, fieldWidth) ←
    if flags.left then some ([], fieldWidth) else padDownLoop (ch ' ') fuel fieldWidth
  let s := s.puts before
  let (v, s) := s.vaArg args
  let s := s.put (v.setWidth 8)
  let (behind, _) ← padDownLoop (ch ' ') fuel fieldWidth
  some (s.puts behind)

/-- `case 's'`, with what its pointer points to, or with `"<NULL>"`. -/
def caseString (args : VaList) (str : Nat → Byte) (fuel : Nat) (flags : Flags)
    (fieldWidth precision : Int) (s : Printf) : Option Printf := do
  let (_, s) := s.vaArg args
  let len := (← strlen str fuel 0).toInt
  let len := if precision < 0 then len else if len > precision then precision else len
  let (before, fieldWidth) ←
    if flags.left then some ([], fieldWidth) else padLoop (ch ' ') len fuel fieldWidth
  let s := s.puts before
  let s ← copyLoop str len fuel 0 s
  let (behind, _) ← padLoop (ch ' ') len fuel fieldWidth
  some (s.puts behind)

/-! ## What the loops store -/

theorem copyLoop_eq (str : Nat → Byte) (len : Int) {fuel i : Nat} (hfuel : len.toNat - i < fuel)
    (s : Printf) :
    copyLoop str len fuel i s = some (s.puts ((List.range' i (len.toNat - i)).map str)) := by
  induction fuel generalizing i s with
  | zero => omega
  | succ fuel ih =>
      rw [copyLoop]
      by_cases hmore : (i : Int) < len
      · obtain ⟨n, hn⟩ : ∃ n, len.toNat - i = n + 1 := ⟨len.toNat - i - 1, by omega⟩
        have hrest : len.toNat - (i + 1) = n := by omega
        rw [if_pos hmore, ih (by omega), hn, hrest]
        rfl
      · have hnone : len.toNat - i = 0 := by omega
        rw [if_neg hmore, hnone]
        rfl

theorem strlen_eq (str : CString) {fuel sc : Nat} (hsc : sc ≤ str.length)
    (hfuel : str.length - sc < fuel) :
    strlen str.byte fuel sc = some (BitVec.ofNat 32 str.length) := by
  induction fuel generalizing sc with
  | zero => omega
  | succ fuel ih =>
      rw [strlen]
      by_cases hmore : sc < str.length
      · have hne : str.byte sc ≠ 0#8 := str.ne_nul sc hmore
        rw [if_neg hne, ih (by omega) (by omega)]
      · obtain rfl : sc = str.length := by omega
        exact if_pos str.nul

/-- The loops of the case end, and come to what `convertChar` says. -/
theorem caseChar_eq (args : VaList) (flags : Flags) (w : Int) {fuel : Nat}
    (hfuel : intRounds ≤ fuel) (s : Printf) :
    caseChar args fuel flags w s = some (convertChar args flags w s) := by
  have hloop := fun w => padDownLoop_of_le (ch ' ') w hfuel
  cases hleft : flags.left with
  | true => simp [caseChar, convertChar, padBefore, hleft, hloop]
  | false => simp [caseChar, convertChar, padBefore, hleft, hloop]

theorem toInt_strlen (str : CString) :
    (BitVec.ofNat 32 str.length).toInt = wrapInt str.chars.length := by
  rw [BitVec.toInt_ofNat', CString.length_chars]
  rfl

theorem CString.take_chars (str : CString) {n : Nat} (hn : n ≤ str.length) :
    str.chars.take n = (List.range' 0 n).map str.byte := by
  rw [CString.chars, ← List.map_take, ← List.range_eq_range', ← List.range_eq_range',
    List.take_range, Nat.min_eq_left hn]

/-- The string is taken as an `int` counts it, and no further. -/
theorem stringLen_bounds {str : List Byte} (hstr : str.length < 2 ^ 31) (precision : Int) :
    0 ≤ stringLen str precision ∧ stringLen str precision ≤ str.length := by
  have hwrap : wrapInt str.length = str.length := wrapInt_of_isInt ⟨by omega, by omega⟩
  simp only [stringLen, hwrap]
  split_ifs <;> omega

theorem caseString_eq (args : VaList) (str : CString) (flags : Flags) {w precision : Int}
    (hw : IsInt w) (hprecision : IsInt precision) {fuel : Nat} (hfuel : intRounds ≤ fuel)
    (hlength : str.length < fuel) (s : Printf)
    (harg : str.chars = argString args (args.slot s.arg)) :
    caseString args str.byte fuel flags w precision s =
      some (convertString args flags w precision s) := by
  have hcount := strlen_eq str (Nat.zero_le _) (show str.length - 0 < fuel by omega)
  have hlen : (let len := (BitVec.ofNat 32 str.length).toInt
      if precision < 0 then len else if len > precision then precision else len) =
        stringLen str.chars precision := by
    rw [toInt_strlen]
    rfl
  have hint := isInt_stringLen str.chars hprecision
  have htaken := stringLen_le str.chars precision
  rw [CString.length_chars] at htaken
  have hcopy := @copyLoop_eq str.byte (stringLen str.chars precision) fuel 0 (by omega)
  rw [Nat.sub_zero, ← str.take_chars htaken] at hcopy
  simp only [caseString, convertString, Printf.vaArg, hcount, ← harg]
  simp only [Option.bind_eq_bind, Option.bind_some, hlen]
  generalize stringLen str.chars precision = len at hint hcopy
  have hloop := fun w hw => padLoop_of_le (ch ' ') (x := w) hint hw hfuel
  have hleast : IsInt (wrapInt (min w len - 1)) := isInt_wrapInt _
  cases hleft : flags.left with
  | true => simp [padBefore, hleft, hloop w hw, hcopy]
  | false => simp [padBefore, hleft, hloop w hw, pad_eq _ hint hw, hloop _ hleast, hcopy]

/-! ## What a conversion reads -/

def decimalStep (n : Nat) (c : Byte) : Nat := 10 * n + (c.toNat - 48)

/-- The number that digits are written for, whatever it is. -/
def decimalValue (text : List Byte) : Nat := text.foldl decimalStep 0

def Conversion.flagsRead (conv : Conversion) : Flags := conv.flags.foldl addFlag Flags.zero

/-- `field_width`. -/
def Conversion.widthRead (conv : Conversion) : Int :=
  if conv.width = [] then -1 else conv.width.foldl scanDigit 0

/-- `precision`. -/
def Conversion.precisionRead (conv : Conversion) : Int :=
  match conv.precision with
  | none => -1
  | some text => max (if text = [] then -1 else text.foldl scanDigit 0) 0

theorem left_foldl_addFlag (l : List Byte) (flags : Flags) :
    (l.foldl addFlag flags).left = true ↔ flags.left = true ∨ ch '-' ∈ l := by
  induction l generalizing flags with
  | nil => simp
  | cons c l ih =>
      rw [List.foldl_cons, ih, List.mem_cons, ← or_assoc]
      refine or_congr_left ?_
      by_cases hc : c = ch '-'
      · simp [addFlag, hc]
      · have hother : (addFlag flags c).left = flags.left := by
          unfold addFlag
          rw [if_neg hc]
          split_ifs <;> rfl
        simp [hother, Ne.symm hc]

theorem Conversion.left_flagsRead (conv : Conversion) :
    conv.flagsRead.left = true ↔ ch '-' ∈ conv.flags := by
  rw [Conversion.flagsRead, left_foldl_addFlag]
  simp [Flags.zero]

theorem isDigit_toNat {c : Byte} (hc : isDigit c) : 48 ≤ c.toNat ∧ c.toNat ≤ 57 := by
  simpa [isDigit, ch, BitVec.le_def] using hc

/-- The digits that are left make the number no smaller. -/
theorem le_foldl_decimal (text : List Byte) (n : Nat) :
    n ≤ text.foldl decimalStep n := by
  induction text generalizing n with
  | nil => exact le_rfl
  | cons c text ih => exact le_trans (by unfold decimalStep; omega) (ih _)

/-- What an `int` can hold is read as it is written. -/
theorem foldl_scanDigit {text : List Byte} (htext : ∀ c ∈ text, isDigit c) {n : Nat}
    (hn : text.foldl decimalStep n < 2 ^ 31) :
    text.foldl scanDigit n = text.foldl decimalStep n := by
  induction text generalizing n with
  | nil => rfl
  | cons c text ih =>
      rw [List.foldl_cons] at hn
      have hle := le_foldl_decimal text (decimalStep n c)
      have hdigit := isDigit_toNat (htext c (by simp))
      have hscan : scanDigit n c = (decimalStep n c : Nat) := by
        have hstep : decimalStep n c = 10 * n + (c.toNat - 48) := rfl
        rw [scanDigit, wrapInt_of_isInt ⟨by omega, by omega⟩]
        omega
      rw [List.foldl_cons, hscan, ih (fun d hd => htext d (by simp [hd])) hn, List.foldl_cons]

theorem foldl_scanDigit_decimal {text : List Byte} (htext : ∀ c ∈ text, isDigit c)
    (hfits : decimalValue text < 2 ^ 31) : text.foldl scanDigit 0 = decimalValue text :=
  foldl_scanDigit htext hfits

/-- What a width can be: the digits of an `int`, or -1 where there are none. -/
def IsWidth (w : Int) : Prop := -1 ≤ w ∧ w < 2147483648

theorem Conversion.widthRead_eq (conv : Conversion) (hfits : decimalValue conv.width < 2 ^ 31) :
    IsWidth conv.widthRead ∧ conv.widthRead.toNat = decimalValue conv.width := by
  have hscan := foldl_scanDigit_decimal conv.width_ok hfits
  unfold Conversion.widthRead IsWidth
  split
  · rename_i hnone
    rw [hnone]
    decide
  · rw [hscan]
    omega

theorem Conversion.precisionRead_eq (conv : Conversion)
    (hfits : ∀ text ∈ conv.precision, decimalValue text < 2 ^ 31) :
    conv.precisionRead = match conv.precision with
      | none => -1
      | some text => (decimalValue text : Int) := by
  unfold Conversion.precisionRead
  cases hprecision : conv.precision with
  | none => rfl
  | some text =>
      have hscan := foldl_scanDigit_decimal (conv.precision_ok text hprecision)
        (hfits text hprecision)
      simp only [hscan]
      split
      · rename_i hnone
        rw [hnone]
        rfl
      · omega

theorem Conversion.widthAt_directive (conv : Conversion) (args : VaList) (i : Nat) :
    conv.directive.widthAt args i = (conv.widthRead, conv.flagsRead) := by
  simp only [Directive.widthAt, Conversion.directive, Conversion.widthRead, fieldOf]
  split_ifs <;> rfl

theorem Conversion.precisionAt_directive (conv : Conversion) (args : VaList) (i : Nat) :
    conv.directive.precisionAt args i = conv.precisionRead := by
  simp only [Directive.precisionAt, Conversion.directive, Conversion.precisionRead]
  cases conv.precision with
  | none => rfl
  | some text =>
      have hvalue : ∀ i, (fieldOf text).valueAt args i =
          if text = [] then -1 else text.foldl scanDigit 0 := by
        intro i
        unfold fieldOf
        split <;> rfl
      simp only [Option.map_some, Arm64OS.precisionAt, hvalue]
      omega

theorem Conversion.isInt_widthRead (conv : Conversion) (args : VaList) : IsInt conv.widthRead := by
  have hint := conv.directive.isInt_widthAt args 0
  rwa [conv.widthAt_directive] at hint

theorem Conversion.isInt_precisionRead (conv : Conversion) (args : VaList) :
    IsInt conv.precisionRead := by
  have hint := conv.directive.isInt_precisionAt args 0
  rwa [conv.precisionAt_directive] at hint

/-- A conversion carried out, with the numbers that are read from its text. -/
theorem Conversion.run_directive (conv : Conversion) (args : VaList) (string : U64) (s : Printf) :
    conv.directive.run args string s =
      convert args string conv.flagsRead conv.widthRead conv.precisionRead
        conv.directive.qualifier conv.letter s := by
  rw [Directive.run_eq, Directive.outcome, conv.widthAt_directive, conv.precisionAt_directive,
    conv.valueAt_directive, conv.slots,
    convert_eq _ _ _ _ (conv.isInt_widthRead args) (conv.isInt_precisionRead args)]
  rfl

/-! ## Fields -/

/-- `text` in a field of the width of the conversion, with blanks in front of it, or behind it
where there is a `-`. -/
def Conversion.field (conv : Conversion) (text : List Byte) : List Byte :=
  let blanks := List.replicate (max (decimalValue conv.width) text.length - text.length) (ch ' ')
  if ch '-' ∈ conv.flags then text ++ blanks else blanks ++ text

/-- The first characters of a string, as many as the precision allows. -/
def Conversion.cut (conv : Conversion) (str : List Byte) : List Byte :=
  match conv.precision with
  | none => str
  | some text => str.take (min str.length (decimalValue text))

/-- What `%c` and `%s` are to emit of an argument. -/
def Conversion.fieldText (conv : Conversion) (args : VaList) (v : U64) : List Byte :=
  if conv.letter = ch 'c' then conv.field [v.setWidth 8]
  else conv.field (conv.cut (argString args v))

theorem Conversion.length_field (conv : Conversion) (text : List Byte) :
    (conv.field text).length = max (decimalValue conv.width) text.length := by
  simp only [Conversion.field]
  split_ifs <;> simp

/-- The conversion behind `before` emits its field and takes one argument, and so do the loops
of its case. -/
structure FieldPadded (conv : Conversion) (args : VaList) (string : U64) (s : Printf)
    (str fmt : CString) (before : List Byte) : Prop where
  emits : directive fmt.byte args string (fmt.length + 1) before.length s =
    some (before.length + conv.tail.length,
      (s.puts (conv.fieldText args (args.slot s.arg))).setArg (s.arg + 1))
  loops : ∃ n, ∀ fuel, n ≤ fuel →
    (if conv.letter = ch 'c' then caseChar args fuel conv.flagsRead conv.widthRead s
      else caseString args str.byte fuel conv.flagsRead conv.widthRead conv.precisionRead s) =
    some ((s.puts (conv.fieldText args (args.slot s.arg))).setArg (s.arg + 1))

/-- Where the loop in front leaves nothing to do, there is padding on one side only. -/
theorem Conversion.padded_eq (conv : Conversion) {loop : Int → List Byte × Int} {w : Int}
    (text : List Byte)
    (hfirst : (loop w).1 =
      List.replicate (max (decimalValue conv.width) text.length - text.length) (ch ' '))
    (hsecond : (loop (loop w).2).1 = []) :
    padded loop conv.flagsRead w text = conv.field text := by
  simp only [padded, padBefore, Conversion.field, conv.left_flagsRead]
  split_ifs
  · rw [hfirst]
    rfl
  · rw [hfirst, hsecond, List.append_nil]

theorem Conversion.charText_eq (conv : Conversion) (hwidth : decimalValue conv.width < 2 ^ 31)
    (v : U64) : charText conv.flagsRead conv.widthRead v = conv.field [v.setWidth 8] := by
  obtain ⟨⟨hlow, hhigh⟩, hw⟩ := conv.widthRead_eq hwidth
  have hnext : wrapInt (conv.widthRead - 1) = conv.widthRead - 1 :=
    wrapInt_of_isInt ⟨by omega, by omega⟩
  have hlast : wrapInt (min (conv.widthRead - 1) 0 - 1) = min (conv.widthRead - 1) 0 - 1 :=
    wrapInt_of_isInt ⟨by omega, by omega⟩
  refine conv.padded_eq _ ?_ ?_
  · rw [padDown_eq, hnext, List.length_singleton]
    exact congrArg (List.replicate · (ch ' ')) (by omega)
  · simp only [padDown_eq, hnext, hlast, List.replicate_eq_nil_iff]
    omega

/-- The characters that are taken are those that the precision allows. -/
theorem Conversion.take_stringLen (conv : Conversion)
    (hprecision : ∀ text ∈ conv.precision, decimalValue text < 2 ^ 31) {str : List Byte}
    (hstr : str.length < 2 ^ 31) :
    str.take (stringLen str conv.precisionRead).toNat = conv.cut str ∧
      (stringLen str conv.precisionRead).toNat = (conv.cut str).length := by
  have hwrap : wrapInt str.length = str.length := wrapInt_of_isInt ⟨by omega, by omega⟩
  have hread := conv.precisionRead_eq hprecision
  unfold Conversion.cut
  cases hcases : conv.precision with
  | none =>
      rw [hcases] at hread
      simp [hread, stringLen, hwrap]
  | some text =>
      rw [hcases] at hread
      have hmin : (stringLen str conv.precisionRead).toNat =
          min str.length (decimalValue text) := by
        simp only [hread, stringLen, hwrap]
        split_ifs <;> omega
      simp [hmin]

theorem Conversion.stringText_eq (conv : Conversion) (hwidth : decimalValue conv.width < 2 ^ 31)
    (hprecision : ∀ text ∈ conv.precision, decimalValue text < 2 ^ 31) {str : List Byte}
    (hstr : str.length < 2 ^ 31) :
    stringText conv.flagsRead conv.widthRead conv.precisionRead str =
      conv.field (conv.cut str) := by
  obtain ⟨⟨hlow, hhigh⟩, hw⟩ := conv.widthRead_eq hwidth
  obtain ⟨htake, hlength⟩ := conv.take_stringLen hprecision hstr
  obtain ⟨hpos, hle⟩ := stringLen_bounds hstr conv.precisionRead
  rw [stringText, htake]
  generalize stringLen str conv.precisionRead = len at hlength hpos hle
  have hwidth : IsInt conv.widthRead := ⟨by omega, by omega⟩
  have hlen : IsInt len := ⟨by omega, by omega⟩
  have hlast : wrapInt (min conv.widthRead len - 1) = min conv.widthRead len - 1 :=
    wrapInt_of_isInt ⟨by omega, by omega⟩
  refine conv.padded_eq _ ?_ ?_
  · rw [pad_eq _ hlen hwidth]
    exact congrArg (List.replicate · (ch ' ')) (by omega)
  · rw [pad_eq _ hlen hwidth, pad_eq _ hlen (isInt_wrapInt _), hlast]
    simp only [List.replicate_eq_nil_iff]
    omega

/-- **The field of a `%c` or a `%s`**, with any flags, width, precision and qualifier, anywhere in
a format. -/
theorem field_padded (conv : Conversion) (hletter : conv.letter = ch 'c' ∨ conv.letter = ch 's')
    (hwidth : decimalValue conv.width < 2 ^ 31)
    (hprecision : ∀ text ∈ conv.precision, decimalValue text < 2 ^ 31) (args : VaList)
    (string : U64) (s : Printf) (str : CString)
    (hstr : conv.letter = ch 's' →
      str.chars = argString args (args.slot s.arg) ∧ str.length < 2 ^ 31)
    {fmt : CString} {before rest : List Byte}
    (hfmt : fmt.chars = before ++ ch '%' :: (conv.tail ++ rest)) :
    FieldPadded conv args string s str fmt before := by
  have hw := conv.isInt_widthRead args
  have hne : ch 's' ≠ ch 'c' := by decide
  obtain ⟨j, hdirective, hj⟩ := directive_behind hfmt args string s
  rw [parseDirective_tail] at hdirective hj
  obtain rfl : j = before.length + conv.tail.length := by
    rw [List.length_append] at hj
    change j + rest.length = _ at hj
    omega
  simp only [conv.run_directive] at hdirective
  rcases hletter with hc | hc
  · have htext : conv.fieldText args (args.slot s.arg) =
        charText conv.flagsRead conv.widthRead (args.slot s.arg) := by
      rw [Conversion.fieldText, if_pos hc, conv.charText_eq hwidth]
    constructor
    · rw [hdirective, convert, if_pos hc, convertChar_eq, htext]
    · refine ⟨intRounds, fun fuel hfuel => ?_⟩
      rw [if_pos hc, caseChar_eq args _ _ hfuel, convertChar_eq, htext]
  · obtain ⟨hchars, hlength⟩ := hstr hc
    have harg : (argString args (args.slot s.arg)).length < 2 ^ 31 := by
      rwa [← hchars, CString.length_chars]
    have htext : conv.fieldText args (args.slot s.arg) =
        stringText conv.flagsRead conv.widthRead conv.precisionRead
          (argString args (args.slot s.arg)) := by
      rw [Conversion.fieldText, if_neg (hc ▸ hne), conv.stringText_eq hwidth hprecision harg]
    constructor
    · rw [hdirective, convert, if_neg (hc ▸ hne), if_pos hc, convertString_eq, htext]
    · refine ⟨intRounds + str.length, fun fuel hfuel => ?_⟩
      have hpos : 0 < intRounds := by decide
      rw [if_neg (hc ▸ hne), caseString_eq args str _ hw (conv.isInt_precisionRead args) (by omega)
        (by omega) s hchars, convertString_eq, htext]

/-- A conversion by `letter` without flags. -/
def Conversion.plain (width : List Byte) (precision : Option (List Byte)) (letter : Byte)
    (hwidth : ∀ c ∈ width, isDigit c) (hhead : ∀ c ∈ width.head?, c ≠ ch '0')
    (hprecision : ∀ text ∈ precision, ∀ c ∈ text, isDigit c) (hletter : letter ∈ letters) :
    Conversion :=
  ⟨[], width, precision, [], letter, flags_ok_nil, hwidth, hhead, hprecision,
    nil_mem_qualifiers, hletter⟩

/-- `%5.2s` -/
def Conversion.fiveTwo : Conversion :=
  .plain [ch '5'] (some [ch '2']) (ch 's') (by decide) (by decide) (by decide) s_mem_letters

/-- A null pointer as a `%5.2s`. -/
theorem field_padded_null :
    FieldPadded .fiveTwo ⟨fun _ => 0, fun _ => []⟩ 0x1000 (Printf.start 0x1000 0)
      (CString.ofList nullText) (CString.ofList (ch '%' :: Conversion.fiveTwo.tail)) [] :=
  @field_padded .fiveTwo (Or.inr rfl) (by decide) (by decide) ⟨fun _ => 0, fun _ => []⟩ 0x1000
    (Printf.start 0x1000 0) (CString.ofList nullText)
    (fun _ => ⟨CString.chars_ofList (by decide), by decide⟩) _ [] []
    (CString.chars_ofList (by decide))

/-! ## More than an `int` can count -/

theorem length_layout (a : U64) (text : List Byte) : (layout a text).length = text.length := by
  induction text generalizing a with
  | nil => rfl
  | cons b text ih => simp [ih]

section

variable {conv : Conversion} {args : VaList} {string : U64} {s : Printf} {str fmt : CString}
  {before rest : List Byte}

/-- The field has the length of what is stored. -/
theorem FieldPadded.length_eq (h : FieldPadded conv args string s str fmt before)
    (hfmt : fmt.chars = before ++ ch '%' :: (conv.tail ++ rest)) {text : List Byte}
    (htext : convert args string conv.flagsRead conv.widthRead conv.precisionRead
      conv.directive.qualifier conv.letter s = (s.puts text).setArg (s.arg + 1)) :
    (conv.fieldText args (args.slot s.arg)).length = text.length := by
  obtain ⟨j, hdirective, -⟩ := directive_behind hfmt args string s
  rw [parseDirective_tail] at hdirective
  simp only [conv.run_directive, htext] at hdirective
  have hsame := congrArg (fun t : Printf => t.stores.length)
    (Prod.mk.inj (Option.some.inj (h.emits.symm.trans hdirective))).2
  simpa [Printf.puts_eq, Printf.setArg, length_layout] using hsame

theorem FieldPadded.length_char (h : FieldPadded conv args string s str fmt before)
    (hfmt : fmt.chars = before ++ ch '%' :: (conv.tail ++ rest)) (hc : conv.letter = ch 'c') :
    max (decimalValue conv.width) 1 = charPad conv.flagsRead conv.widthRead + 1 := by
  have hconvert := convertChar_eq args s conv.flagsRead conv.widthRead
  have hlength := h.length_eq hfmt (by rw [convert, if_pos hc, hconvert])
  rwa [Conversion.fieldText, if_pos hc, Conversion.length_field,
    length_charText _ (conv.isInt_widthRead args)] at hlength

theorem FieldPadded.length_string (h : FieldPadded conv args string s str fmt before)
    (hfmt : fmt.chars = before ++ ch '%' :: (conv.tail ++ rest)) (hc : conv.letter = ch 's')
    {l : List Byte} (hl : argString args (args.slot s.arg) = l) :
    max (decimalValue conv.width) (conv.cut l).length =
      stringPad conv.flagsRead conv.widthRead (stringLen l conv.precisionRead) +
        (stringLen l conv.precisionRead).toNat := by
  have hne : ch 's' ≠ ch 'c' := by decide
  have hconvert := convertString_eq args s conv.flagsRead conv.widthRead conv.precisionRead
  have hlength := h.length_eq hfmt (by rw [convert, if_neg (hc ▸ hne), if_pos hc, hconvert])
  rwa [Conversion.fieldText, if_neg (hc ▸ hne), Conversion.length_field, hl,
    length_stringText _ (conv.isInt_widthRead args) (conv.isInt_precisionRead args)] at hlength

end

/-- `%4294967297c`. -/
def Conversion.wideChar : Conversion :=
  .plain (['4', '2', '9', '4', '9', '6', '7', '2', '9', '7'].map ch) none (ch 'c')
    (by decide) (by decide) precision_ok_none (by decide)

/-- `%.4294967296s`. -/
def Conversion.preciseString : Conversion :=
  .plain [] (some (['4', '2', '9', '4', '9', '6', '7', '2', '9', '6'].map ch)) (ch 's')
    width_ok_nil width_head_nil (by decide) s_mem_letters

/-- `%s`. -/
def Conversion.string : Conversion :=
  .plain [] none (ch 's') width_ok_nil width_head_nil precision_ok_none s_mem_letters

/-- A pointer to `str`. -/
def VaList.pointer (str : List Byte) : VaList := ⟨fun _ => 0x2000, fun _ => str⟩

theorem argString_pointer (l : List Byte) (i : Nat) :
    argString (.pointer l) ((VaList.pointer l).slot i) = l := by
  have hne : (0x2000 : U64) ≠ 0#64 := by decide
  exact if_neg hne

/-- A width of 2³² + 1 comes to 1, a precision of 2³² to 0, and a string of 2³² + 3 characters
to its first 3. -/
theorem field_wraps :
    (∀ str : CString, ¬ FieldPadded .wideChar (.pointer []) 0x1000 (Printf.start 0x1000 0) str
      (CString.ofList (ch '%' :: Conversion.wideChar.tail)) []) ∧
    (∀ str : CString, ¬ FieldPadded .preciseString (.pointer [ch 'a']) 0x1000
      (Printf.start 0x1000 0) str (CString.ofList (ch '%' :: Conversion.preciseString.tail)) []) ∧
    ∀ str : CString, ¬ FieldPadded .string (.pointer (List.replicate (2 ^ 32 + 3) (ch 'a'))) 0x1000
      (Printf.start 0x1000 0) str (CString.ofList (ch '%' :: Conversion.string.tail)) [] := by
  refine ⟨fun str h => ?_, fun str h => ?_, fun str h => ?_⟩
  · have hlength := @FieldPadded.length_char _ _ _ _ _ _ _ [] h
      (CString.chars_ofList (by decide)) rfl
    have hw : decimalValue Conversion.wideChar.width = 4294967297 := by decide
    have hread : charPad Conversion.wideChar.flagsRead Conversion.wideChar.widthRead = 0 := by
      decide
    rw [hw, hread] at hlength
    omega
  · have hlength := @FieldPadded.length_string _ _ _ _ _ _ _ [] h
      (CString.chars_ofList (by decide)) rfl _ (argString_pointer _ _)
    have hcut : (Conversion.preciseString.cut [ch 'a']).length = 1 := by decide
    have hread : Conversion.preciseString.precisionRead = 0 := by decide
    have hwidth : Conversion.preciseString.widthRead = -1 := rfl
    have hnone : stringLen [ch 'a'] 0 = 0 := rfl
    have hpad : stringPad Conversion.preciseString.flagsRead (-1) 0 = 0 := by decide
    rw [hcut, hread, hwidth, hnone, hpad] at hlength
    omega
  · have hlength := @FieldPadded.length_string _ _ _ _ _ _ _ [] h
      (CString.chars_ofList (by decide)) rfl _ (argString_pointer _ _)
    have hcut : ∀ l, Conversion.string.cut l = l := fun _ => rfl
    have hread : Conversion.string.precisionRead = -1 := rfl
    have hwidth : Conversion.string.widthRead = -1 := rfl
    have hwrap : wrapInt ((2 ^ 32 + 3 : Nat) : Int) = 3 := by decide
    have hlen : stringLen (List.replicate (2 ^ 32 + 3) (ch 'a')) (-1) = 3 := by
      rw [stringLen, List.length_replicate, hwrap]
      rfl
    have hpad : stringPad Conversion.string.flagsRead (-1) 3 = 0 := by decide
    rw [hcut, List.length_replicate, hread, hwidth, hlen, hpad] at hlength
    omega

end Arm64OS
