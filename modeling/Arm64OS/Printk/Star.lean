import Arm64OS.Printk.Decode

/-!
# Widths and precisions from arguments

With `*` in place of its digits, a width or a precision is an argument.  `myprintf` takes the
argument, but it leaves the cursor on the `*`: the `switch` finds that character where the
letter of the conversion should be, and all that was to come of the conversion is printed as
it stands.
-/

namespace Arm64OS

open CInt

/-- A field as it is written. -/
def Field.text : Field → List Byte
  | .absent => []
  | .digits text => text
  | .star => [ch '*']

/-- Digits where there are digits. -/
def Field.Written : Field → Prop
  | .digits text => text ≠ [] ∧ ∀ c ∈ text, isDigit c
  | _ => True

/-- A conversion as it is written, with a `*` for its width, for its precision, or for both. -/
structure StarConversion where
  flags : List Byte
  width : Field
  precision : Option Field
  qualifier : List Byte
  letter : Byte
  flags_ok : ∀ c ∈ flags, isFlag c
  width_ok : width.Written
  /-- a `0` in front of the width is a flag -/
  width_head : ∀ c ∈ width.text.head?, c ≠ ch '0'
  precision_ok : ∀ field ∈ precision, field.Written
  qualifier_ok : qualifier ∈ qualifiers
  letter_ok : letter ∈ ch 'n' :: letters
  star : width = .star ∨ precision = some .star

/-- The characters behind the `%`. -/
def StarConversion.tail (conv : StarConversion) : List Byte :=
  conv.flags ++ (conv.width.text ++ (precisionText (conv.precision.map Field.text) ++
    (conv.qualifier ++ [conv.letter])))

/-- How many arguments the `*` stand for. -/
def StarConversion.stars (conv : StarConversion) : Nat :=
  conv.width.slots + precisionSlots conv.precision

/-- A number as digits. -/
def numeral (n : Nat) : List Byte := digitText false 10 (BitVec.ofNat 64 n)

/-- A negative width is written as the flag `-` and its absolute value. -/
def widthNumeral (w : Int) : List Byte := (if w < 0 then [ch '-'] else []) ++ numeral w.natAbs

/-- A field with `text` in place of a `*`. -/
def Field.spell (text : List Byte) : Field → List Byte
  | .star => text
  | field => field.text

/-- The same conversion with digits for every `*`, where the next argument is `arg`.  A
negative precision is written as 0. -/
def StarConversion.asDigits (args : VaList) (arg : Nat) (conv : StarConversion) : List Byte :=
  let w := argInt (args.slot arg)
  let p := argInt (args.slot (arg + conv.width.slots))
  conv.flags ++ (conv.width.spell (widthNumeral w) ++
    (precisionText (conv.precision.map (Field.spell (numeral p.toNat))) ++
      (conv.qualifier ++ [conv.letter])))

/-- In two formats that differ in the conversion behind `before` only, `myprintf` does the same
with the `*` and with the digits: each conversion is carried out to its last character, the
output is the same, and so are the arguments that remain. -/
def ReadsAsDigits (conv : StarConversion) (args : VaList) (string : U64) (s : Printf)
    (fmt fmt' : CString) (before : List Byte) : Prop :=
  ∃ t t', directive fmt.byte args string (fmt.length + 1) before.length s =
      some (before.length + conv.tail.length, t) ∧
    directive fmt'.byte args string (fmt'.length + 1) before.length
        (s.setArg (s.arg + conv.stars)) =
      some (before.length + (conv.asDigits args s.arg).length, t') ∧
    t.stores = t'.stores ∧ t.pos = t'.pos ∧ t.arg = t'.arg

/-! ## The conversion with the `*` -/

theorem isFlag_star : isFlag (ch '*') = false := by decide

theorem isFlag_of_isDigit {c : Byte} (hc : isDigit c) (hzero : c ≠ ch '0') :
    isFlag c = false := by
  have hall : ∀ c : Byte, isDigit c → c ≠ ch '0' → isFlag c = false := by decide +kernel
  exact hall c hc hzero

/-- What stands behind the flags is none. -/
theorem exists_width_head {text : List Byte} (htext : ∀ c ∈ text, isDigit c)
    (hhead : ∀ c ∈ text.head?, c ≠ ch '0') {c : Byte} (hc : isFlag c = false)
    (rest : List Byte) : ∃ d l, text ++ c :: rest = d :: l ∧ isFlag d = false := by
  cases text with
  | nil => exact ⟨c, rest, rfl, hc⟩
  | cons d text =>
      exact ⟨d, text ++ c :: rest, rfl, isFlag_of_isDigit (htext d (by simp)) (hhead d rfl)⟩

/-- A `*` for the width ends the directive. -/
theorem parseDirective_width_star {flags : List Byte} (hflags : ∀ c ∈ flags, isFlag c)
    (behind : List Byte) :
    parseDirective (flags ++ ch '*' :: behind) =
      (⟨flags, .star, none, .none, ch '*'⟩, behind) := by
  have hspan := span_append hflags isFlag_star behind
  simp only [parseDirective, hspan.1, hspan.2]
  rfl

/-- So does one for the precision. -/
theorem parseDirective_precision_star {flags width : List Byte} (hflags : ∀ c ∈ flags, isFlag c)
    (hwidth : ∀ c ∈ width, isDigit c) (hhead : ∀ c ∈ width.head?, c ≠ ch '0')
    (behind : List Byte) :
    parseDirective (flags ++ (width ++ ch '.' :: ch '*' :: behind)) =
      (⟨flags, fieldOf width, some .star, .none, ch '*'⟩, behind) := by
  have hfield := @parseField_append width hwidth (ch '.') (by decide) (ch '*' :: behind)
  obtain ⟨d, l, hl, hd⟩ := @exists_width_head width hwidth hhead (ch '.') (by decide)
    (ch '*' :: behind)
  rw [hl] at hfield ⊢
  have hspan := span_append hflags hd l
  simp only [parseDirective, hspan.1, hspan.2, hfield]
  rfl

/-- The first `*` ends the conversion, and what is behind it remains. -/
theorem StarConversion.parse_tail (conv : StarConversion) (rest : List Byte) :
    ∃ width precision behind, rest.length < behind.length ∧
      parseDirective (conv.tail ++ rest) =
        (⟨conv.flags, width, precision, .none, ch '*'⟩, behind) := by
  by_cases hwidth : conv.width = .star
  · refine ⟨.star, none, precisionText (conv.precision.map Field.text) ++
      (conv.qualifier ++ conv.letter :: rest), ?_, ?_⟩
    · simp
      omega
    · simp only [StarConversion.tail, hwidth, Field.text, List.append_assoc, List.cons_append,
        List.nil_append]
      exact parseDirective_width_star conv.flags_ok _
  · have hprecision := conv.star.resolve_left hwidth
    have hdigits : ∀ c ∈ conv.width.text, isDigit c := by
      have hok := conv.width_ok
      cases hcases : conv.width with
      | absent => simp [Field.text]
      | digits text =>
          rw [hcases] at hok
          exact hok.2
      | star => exact absurd hcases hwidth
    refine ⟨fieldOf conv.width.text, some .star, conv.qualifier ++ conv.letter :: rest, ?_, ?_⟩
    · simp
      omega
    · simp only [StarConversion.tail, hprecision, Option.map_some, Field.text, precisionText,
        List.append_assoc, List.cons_append, List.nil_append]
      exact parseDirective_precision_star conv.flags_ok hdigits conv.width_head _

/-! ## The cursor -/

theorem Suffix.drop {fmt : Nat → Byte} {i : Nat} {l l' : List Byte} (h : Suffix fmt i (l ++ l')) :
    Suffix fmt (i + l.length) l' := by
  induction l generalizing i with
  | nil => exact h
  | cons c l ih =>
      have hrest := ih h.tail
      rwa [List.length_cons, Nat.add_comm l.length 1, ← Nat.add_assoc]

/-- The conversion behind `before` is carried out up to what the parser leaves. -/
theorem directive_behind {fmt : CString} {before l : List Byte}
    (hfmt : fmt.chars = before ++ ch '%' :: l) (args : VaList) (string : U64) (s : Printf) :
    ∃ j, directive fmt.byte args string (fmt.length + 1) before.length s =
        some (j, (parseDirective l).1.run args string s) ∧
      j + (parseDirective l).2.length = before.length + l.length := by
  have hsuffix := fmt.suffix
  rw [hfmt] at hsuffix
  have hl : Suffix fmt.byte (before.length + 1) l := by
    have htail := hsuffix.drop.tail
    rwa [Nat.zero_add] at htail
  have hlength := congrArg List.length hfmt
  rw [CString.length_chars, List.length_append, List.length_cons] at hlength
  have hfuel : l.length < fmt.length + 1 := by omega
  obtain ⟨j, hdirective, -, hreached⟩ := directive_eq hl hfuel args string s
  exact ⟨j, hdirective, by omega⟩

theorem not_readsAsDigits (conv : StarConversion) (args : VaList) (string : U64) (s : Printf)
    {fmt : CString} (fmt' : CString) {before rest : List Byte}
    (hfmt : fmt.chars = before ++ ch '%' :: (conv.tail ++ rest)) :
    ¬ ReadsAsDigits conv args string s fmt fmt' before := by
  rintro ⟨t, t', ht, -⟩
  obtain ⟨j, hdirective, hj⟩ := directive_behind hfmt args string s
  obtain ⟨width, precision, behind, hbehind, hparse⟩ := conv.parse_tail rest
  rw [hdirective] at ht
  obtain ⟨rfl, -⟩ := Prod.mk.inj (Option.some.inj ht)
  rw [hparse, List.length_append] at hj
  change before.length + conv.tail.length + behind.length = _ at hj
  omega

/-! ## The conversion with digits -/

/-- A numeral is made of digits, and only that of 0 begins with one. -/
theorem numeral_plain {n : Nat} (hpos : n ≠ 0) (hn : n < 2 ^ 64) :
    numeral n ≠ [] ∧ (∀ c ∈ numeral n, isDigit c) ∧ ∀ c ∈ (numeral n).head?, c ≠ ch '0' := by
  have hnum : (BitVec.ofNat 64 n).toNat = n := by rw [BitVec.toNat_ofNat, Nat.mod_eq_of_lt hn]
  have hne : BitVec.ofNat 64 n ≠ 0 := fun hzero => hpos (by rw [← hnum, hzero]; rfl)
  have htext : numeral n = ((Nat.digits 10 n).map (digitChar false)).reverse := by
    rw [numeral, digitText, if_neg hne, hnum]
  have hchar : ∀ d ∈ List.range 10, isDigit (digitChar false d) ∧
      (digitChar false d = ch '0' → d = 0) := by decide
  have hlt : ∀ d ∈ Nat.digits 10 n, d ∈ List.range 10 := fun d hd =>
    List.mem_range.mpr (Nat.digits_lt_base (by decide) hd)
  rw [htext]
  have hdigits : Nat.digits 10 n ≠ [] := Nat.digits_ne_nil_iff_ne_zero.mpr hpos
  refine ⟨by simpa using hdigits, fun c hc => ?_, fun c hc => ?_⟩
  · rw [List.mem_reverse, List.mem_map] at hc
    obtain ⟨d, hd, rfl⟩ := hc
    exact (hchar d (hlt d hd)).1
  · rw [List.head?_reverse, List.getLast?_map, Option.mem_def, Option.map_eq_some_iff] at hc
    obtain ⟨d, hd, rfl⟩ := hc
    intro hzero
    have hmem := List.mem_of_getLast? hd
    obtain rfl := (hchar d (hlt d hmem)).2 hzero
    rw [List.getLast?_eq_some_getLast hdigits] at hd
    exact Nat.getLast_digit_ne_zero 10 hpos (Option.some.inj hd)

theorem natAbs_argInt_lt (v : U64) : (argInt v).natAbs < 2 ^ 64 := by
  have hlow : -2 ^ 31 ≤ (v.setWidth 32).toInt := BitVec.le_toInt (v.setWidth 32)
  have hhigh : (v.setWidth 32).toInt < 2 ^ 31 := BitVec.toInt_lt
  unfold argInt
  omega

/-- A width in digits, with the flags in front of it: a `-` is one, and so is a 0. -/
theorem Field.exists_width {flags : List Byte} (hflags : ∀ c ∈ flags, isFlag c) {width : Field}
    (hwidth : width.Written) (hhead : ∀ c ∈ width.text.head?, c ≠ ch '0') (v : U64) :
    ∃ flags' text, flags ++ width.spell (widthNumeral (argInt v)) = flags' ++ text ∧
      (∀ c ∈ flags', isFlag c) ∧ (∀ c ∈ text, isDigit c) ∧ ∀ c ∈ text.head?, c ≠ ch '0' := by
  cases width with
  | absent => exact ⟨flags, [], rfl, hflags, by simp, by simp⟩
  | digits text => exact ⟨flags, text, rfl, hflags, hwidth.2, hhead⟩
  | star =>
      obtain ⟨w, hw⟩ : ∃ w, argInt v = w := ⟨_, rfl⟩
      have hbound := natAbs_argInt_lt v
      rw [hw] at hbound ⊢
      by_cases hzero : w = 0
      · refine ⟨flags ++ [ch '0'], [], ?_, ?_, by simp, by simp⟩
        · rw [hzero, List.append_nil]
          rfl
        · intro c hc
          obtain hc | hc := List.mem_append.mp hc
          · exact hflags c hc
          · rw [List.mem_singleton.mp hc]
            decide
      · obtain ⟨-, hdigits, hnumeral⟩ := numeral_plain (Int.natAbs_ne_zero.mpr hzero) hbound
        refine ⟨flags ++ (if w < 0 then [ch '-'] else []), numeral w.natAbs, ?_, ?_, hdigits,
          hnumeral⟩
        · rw [List.append_assoc]
          rfl
        · intro c hc
          obtain hc | hc := List.mem_append.mp hc
          · exact hflags c hc
          · split at hc
            · rw [List.mem_singleton.mp hc]
              decide
            · cases hc

theorem exists_precision {precision : Option Field} (hprecision : ∀ field ∈ precision, field.Written)
    (v : U64) :
    ∃ text, precisionText (precision.map (Field.spell (numeral (argInt v).toNat))) =
        precisionText text ∧ ∀ digits ∈ text, ∀ c ∈ digits, isDigit c := by
  cases precision with
  | none => exact ⟨none, rfl, by simp⟩
  | some field =>
      refine ⟨some (field.spell (numeral (argInt v).toNat)), rfl, ?_⟩
      intro digits hdigits
      obtain rfl := Option.some.inj hdigits
      have hfield := hprecision field rfl
      cases field with
      | absent => simp [Field.spell, Field.text]
      | digits text => exact hfield.2
      | star =>
          have hbound := natAbs_argInt_lt v
          obtain ⟨p, hp⟩ : ∃ p, (argInt v).toNat = p := ⟨_, rfl⟩
          rw [hp]
          by_cases hzero : p = 0
          · rw [hzero]
            decide
          · exact (numeral_plain hzero (by omega)).2.1

/-- With digits it is a conversion of the plain kind. -/
theorem StarConversion.exists_conversion (conv : StarConversion) (hletter : conv.letter ∈ letters)
    (args : VaList) (arg : Nat) :
    ∃ c : Conversion, c.tail = conv.asDigits args arg ∧ c.letter = conv.letter := by
  obtain ⟨flags, width, htext, hflags, hwidth, hhead⟩ :=
    Field.exists_width conv.flags_ok conv.width_ok conv.width_head (args.slot arg)
  obtain ⟨precision, hptext, hprecision⟩ :=
    exists_precision conv.precision_ok (args.slot (arg + conv.width.slots))
  refine ⟨⟨flags, width, precision, conv.qualifier, conv.letter, hflags, hwidth, hhead,
    hprecision, conv.qualifier_ok, hletter⟩, ?_, rfl⟩
  simp only [StarConversion.asDigits, Conversion.tail, hptext]
  rw [← List.append_assoc conv.flags, htext, List.append_assoc]

/-! ## The first character -/

theorem digitChar_ne_percent (small : Bool) {d : Nat} (hd : d < 36) :
    digitChar small d ≠ ch '%' := by
  have hall : ∀ small, ∀ e ∈ List.range 36, digitChar small e ≠ ch '%' := by decide
  exact hall small d (List.mem_range.mpr hd)

theorem valueText_ne_percent {b : Int} (hb : BaseOk b) (num : U64) (type : Flags) :
    ∀ c ∈ valueText num b type, c ≠ ch '%' := by
  have hlow : 2 ≤ b.toNat := by
    have := hb.1
    omega
  have hhigh : b.toNat ≤ 36 := by
    have := hb.2
    omega
  intro c hc
  rw [valueText, digitText_eq, digitChars, List.mem_map] at hc
  obtain ⟨d, hd, rfl⟩ := hc
  exact digitChar_ne_percent type.small ((digitsOf_lt hlow _ d hd).trans_le hhigh)

/-- No number has a `%`. -/
theorem numberText_ne_percent {b : Int} (hb : BaseOk b) (num : U64) {w : Int} (hw : IsInt w)
    (p : Int) (type : Flags) : ∀ c ∈ numberText num b w p type, c ≠ ch '%' := by
  have hsign : ∀ c ∈ signText num type, c ≠ ch '%' := by
    unfold signText
    split_ifs <;> decide
  have hmark : ∀ c ∈ baseMark b type, c ≠ ch '%' := by
    unfold baseMark
    cases type.small <;> split_ifs <;> decide
  have hinner : (if type.zeropad then ch '0' else ch ' ') ≠ ch '%' := by
    split <;> decide
  intro c hc
  rw [numberText_pads hw] at hc
  simp only [List.mem_append] at hc
  rcases hc with (((((hblank | hc) | hc) | hpad) | hzero) | hc) | hblank
  · rw [List.eq_of_mem_replicate hblank]
    decide
  · exact hsign c hc
  · exact hmark c hc
  · rw [List.eq_of_mem_replicate hpad]
    exact hinner
  · rw [List.eq_of_mem_replicate hzero]
    decide
  · exact valueText_ne_percent hb num type c hc
  · rw [List.eq_of_mem_replicate hblank]
    decide

/-- The text begins, and not with a `%`. -/
def Unmarked (text : List Byte) : Prop := ∃ c, text.head? = some c ∧ c ≠ ch '%'

theorem unmarked_numberText {b : Int} (hb : BaseOk b) (num : U64) {w : Int} (hw : IsInt w) (p : Int)
    (type : Flags) : Unmarked (numberText num b w p type) := by
  have hne : numberText num b w p type ≠ [] := by
    have hdigits : valueText num b type ≠ [] := by
      rw [valueText, digitText_eq]
      simpa [digitChars] using digitsOf_ne_nil b.toNat (magnitude num type)
    rw [numberText_pads hw]
    simp [hdigits]
  refine ⟨_, List.head?_eq_some_head hne, ?_⟩
  exact numberText_ne_percent hb num hw p type _ (List.head_mem hne)

theorem unmarked_convertOutcome {c : Byte} (hc : c ∈ numberLetters) (args : VaList)
    (flags : Flags) {w p : Int} (hw : IsInt w) (hp : IsInt p) (q : Qualifier) (base : Int)
    (v : U64) : Unmarked (convertOutcome args flags w p q c base v).text := by
  obtain ⟨hb, -⟩ := @numberArgs_base c flags w p hc q v
  obtain ⟨hsize, -⟩ := @numberArgs_isInt c flags w p hw hp q v
  rw [convertOutcome_number hc]
  exact unmarked_numberText hb _ hsize _ _

/-- What is stored begins with the first character of the text. -/
theorem Outcome.stores_prefix {o : Outcome} {c : Byte} (hc : o.text.head? = some c) (string : U64)
    (slots : Nat) (s : Printf) :
    s.stores ++ [(s.pos, c)] <+: (o.apply string slots s).stores := by
  obtain ⟨text, htext⟩ := List.head?_eq_some_iff.mp hc
  refine ⟨layout (s.pos + 1) text ++
    o.count.toList.map fun ip => (ip, (s.pos - string).setWidth 8), ?_⟩
  simp [Outcome.apply, htext]

/-- The first character that is stored for the conversion behind `before`. -/
def StoresFirst (fmt : CString) (before : List Byte) (args : VaList) (string : U64) (s : Printf)
    (c : Byte) : Prop :=
  ∃ j t, directive fmt.byte args string (fmt.length + 1) before.length s = some (j, t) ∧
    s.stores ++ [(s.pos, c)] <+: t.stores

theorem StarConversion.storesFirst (conv : StarConversion) {fmt : CString}
    {before rest : List Byte} (hfmt : fmt.chars = before ++ ch '%' :: (conv.tail ++ rest))
    (args : VaList) (string : U64) (s : Printf) :
    StoresFirst fmt before args string s (ch '%') := by
  obtain ⟨j, hdirective, -⟩ := directive_behind hfmt args string s
  obtain ⟨width, precision, behind, -, hparse⟩ := conv.parse_tail rest
  rw [hparse, Directive.run_eq] at hdirective
  refine ⟨j, _, hdirective, Outcome.stores_prefix ?_ string _ s⟩
  have hlead : ∀ num b w p flags,
      (integerOutcome (defaultText (ch '*')) num b w p flags).text.head? = some (ch '%') := by
    intro num b w p flags
    unfold integerOutcome
    split <;> rfl
  exact hlead _ _ _ _ _

theorem Conversion.storesFirst {conv : Conversion} (hletter : conv.letter ∈ numberLetters)
    {fmt : CString} {before rest : List Byte}
    (hfmt : fmt.chars = before ++ ch '%' :: (conv.tail ++ rest)) (args : VaList) (string : U64)
    (s : Printf) : ∃ c, c ≠ ch '%' ∧ StoresFirst fmt before args string s c := by
  obtain ⟨j, hdirective, -⟩ := directive_behind hfmt args string s
  rw [parseDirective_tail, Directive.run_eq] at hdirective
  obtain ⟨c, hhead, hc⟩ := unmarked_convertOutcome hletter args
    (conv.directive.widthAt args s.arg).2 (conv.directive.isInt_widthAt args s.arg)
    (conv.directive.isInt_precisionAt args s.arg) conv.directive.qualifier s.base
    (conv.directive.valueAt args s.arg)
  exact ⟨c, hc, j, _, hdirective, Outcome.stores_prefix hhead string _ s⟩

/-- **A `*` is not read as digits**, in no conversion and with no argument.  Where the
conversion prints a number the output differs in its first character already: a `%` stands
there. -/
theorem star_not_digits (conv : StarConversion) (args : VaList) (string : U64) (s : Printf)
    {fmt fmt' : CString} {before rest : List Byte}
    (hfmt : fmt.chars = before ++ ch '%' :: (conv.tail ++ rest))
    (hfmt' : fmt'.chars = before ++ ch '%' :: (conv.asDigits args s.arg ++ rest)) :
    ¬ ReadsAsDigits conv args string s fmt fmt' before ∧
      (conv.letter ∈ numberLetters → StoresFirst fmt before args string s (ch '%') ∧
        ∃ c, c ≠ ch '%' ∧
          StoresFirst fmt' before args string (s.setArg (s.arg + conv.stars)) c) := by
  refine ⟨not_readsAsDigits conv args string s fmt' hfmt, fun hletter => ?_⟩
  have hletters : ∀ c ∈ numberLetters, c ∈ letters := by decide
  obtain ⟨c, htail, hc⟩ := conv.exists_conversion (hletters _ hletter) args s.arg
  rw [← htail] at hfmt'
  rw [← hc] at hletter
  exact ⟨conv.storesFirst hfmt args string s, Conversion.storesFirst hletter hfmt' args string _⟩

/-- `%*d`. -/
def StarConversion.decimal : StarConversion where
  flags := []
  width := .star
  precision := none
  qualifier := []
  letter := ch 'd'
  flags_ok := flags_ok_nil
  width_ok := trivial
  width_head := by decide
  precision_ok := by simp
  qualifier_ok := nil_mem_qualifiers
  letter_ok := by decide
  star := Or.inl rfl

/-- The arguments 5 and 42. -/
def VaList.fiveFortyTwo : VaList := ⟨fun i => if i = 0 then 5 else 42, fun _ => []⟩

/-- `%*d` and `%5d`. -/
theorem star_not_digits_decimal :
    ¬ ReadsAsDigits StarConversion.decimal VaList.fiveFortyTwo 0x1000 (Printf.start 0x1000 10)
      (CString.ofList (['%', '*', 'd'].map ch)) (CString.ofList (['%', '5', 'd'].map ch)) [] :=
  (@star_not_digits StarConversion.decimal VaList.fiveFortyTwo 0x1000 (Printf.start 0x1000 10)
    _ _ [] [] (CString.chars_ofList (by decide)) (CString.chars_ofList (by decide))).1

/-- What the two formats print, where `base` happens to be 10. -/
theorem star_prints :
    ((myprintf 4 0x1000 (CString.ofList (['%', '*', 'd'].map ch)).byte VaList.fiveFortyTwo 10).map
        fun r => r.2.stores.map Prod.snd) =
      some (['%', '*', ' ', ' ', ' ', '4', '2', 'd'].map ch ++ [0#8]) ∧
    ((myprintf 4 0x1000 (CString.ofList (['%', '5', 'd'].map ch)).byte
        (VaList.fiveFortyTwo.drop 1) 10).map fun r => r.2.stores.map Prod.snd) =
      some ([' ', ' ', ' ', '4', '2'].map ch ++ [0#8]) ∧
    ¬ ReadsAsDigits StarConversion.decimal VaList.fiveFortyTwo 0x1000 (Printf.start 0x1000 10)
      (CString.ofList (['%', '*', 'd'].map ch)) (CString.ofList (['%', '5', 'd'].map ch)) [] := by
  refine ⟨by decide +kernel, by decide +kernel, ?_⟩
  exact not_readsAsDigits StarConversion.decimal VaList.fiveFortyTwo 0x1000
    (Printf.start 0x1000 10) _ (@CString.chars_ofList (['%', '*', 'd'].map ch) (by decide))

end Arm64OS
