import Arm64OS.Printk.Myprintf
import Mathlib.Data.List.TakeWhile

/-!
# Formats as lists of directives

What a format means apart from its bytes in memory: the ordinary characters and the
directives of it, in order, and what each of them does to the variables of `myprintf`.
`formatLoop_eq` says that the loop over the bytes is a fold over these items.
-/

namespace Arm64OS

open CInt

/-- The characters of the format from place `i` on are `l`, and a NUL follows. -/
def Suffix (fmt : Nat → Byte) : Nat → List Byte → Prop
  | i, [] => fmt i = 0#8
  | i, c :: l => fmt i = c ∧ c ≠ 0#8 ∧ Suffix fmt (i + 1) l

def isFlag (c : Byte) : Bool :=
  c = ch '-' || c = ch '+' || c = ch ' ' || c = ch '#' || c = ch '0'

def addFlag (flags : Flags) (c : Byte) : Flags :=
  if c = ch '-' then { flags with left := true }
  else if c = ch '+' then { flags with plus := true }
  else if c = ch ' ' then { flags with space := true }
  else if c = ch '#' then { flags with special := true }
  else { flags with zeropad := true }

/-- How a width or a precision is given.  The cursor stays on a `*`. -/
inductive Field
  | absent
  | digits (text : List Byte)
  | star
  deriving DecidableEq

structure Directive where
  flags : List Byte
  width : Field
  /-- behind a `.` -/
  precision : Option Field
  qualifier : Qualifier
  /-- the conversion character, or the NUL of a format that ends inside the directive -/
  letter : Byte

def parseField (l : List Byte) : Field × List Byte :=
  match l with
  | [] => (.absent, [])
  | c :: _ =>
      if isDigit c then (.digits (l.takeWhile isDigit), l.dropWhile isDigit)
      else if c = ch '*' then (.star, l)
      else (.absent, l)

def parsePrecision (l : List Byte) : Option Field × List Byte :=
  match l with
  | [] => (none, [])
  | c :: rest =>
      if c = ch '.' then
        let (field, rest) := parseField rest
        (some field, rest)
      else (none, l)

def parseQualifier (l : List Byte) : Qualifier × List Byte :=
  match l with
  | [] => (.none, [])
  | c :: rest =>
      if c = ch 'h' then (.h, rest)
      else if c = ch 'l' then
        if rest.headD 0#8 = ch 'l' then (.L, rest.tail) else (.l, rest)
      else if c = ch 'L' then (.L, rest)
      else (.none, l)

/-- The directive whose `%` is in front of `l`, and what follows it. -/
def parseDirective (l : List Byte) : Directive × List Byte :=
  let (width, l₁) := parseField (l.dropWhile isFlag)
  let (precision, l₂) := parsePrecision l₁
  let (qualifier, l₃) := parseQualifier l₂
  (⟨l.takeWhile isFlag, width, precision, qualifier, l₃.headD 0#8⟩, l₃.tail)

inductive Item
  | char (c : Byte)
  | directive (d : Directive)

/-- The items of a format with at most `fuel` characters. -/
def items : (fuel : Nat) → List Byte → List Item
  | 0, _ => []
  | _ + 1, [] => []
  | fuel + 1, c :: l =>
      if c ≠ ch '%' then .char c :: items fuel l
      else .directive (parseDirective l).1 :: items fuel (parseDirective l).2

/-! ## What an item does -/

/-- The number a field stands for. -/
def Field.value (args : VaList) (field : Field) (s : Printf) : Int × Printf :=
  match field with
  | .absent => (-1, s)
  | .digits text => (text.foldl scanDigit 0, s)
  | .star =>
      let (v, s) := s.vaArg args
      (argInt v, s)

/-- A negative width asks for `LEFT`. -/
def widthFlags (field : Field) (w : Int) (flags : Flags) : Int × Flags :=
  match field with
  | .star => if w < 0 then (wrapInt (-w), { flags with left := true }) else (w, flags)
  | _ => (w, flags)

def precisionValue (args : VaList) (precision : Option Field) (s : Printf) : Int × Printf :=
  match precision with
  | none => (-1, s)
  | some field =>
      let (p, s) := field.value args s
      (if p < 0 then 0 else p, s)

def Directive.run (args : VaList) (string : U64) (d : Directive) (s : Printf) : Printf :=
  let (w, s) := d.width.value args s
  let (w, flags) := widthFlags d.width w (d.flags.foldl addFlag Flags.zero)
  let (p, s) := precisionValue args d.precision s
  convert args string flags w p d.qualifier d.letter s

def Item.run (args : VaList) (string : U64) : Item → Printf → Printf
  | .char c, s => s.put c
  | .directive d, s => d.run args string s

def runItems (args : VaList) (string : U64) (its : List Item) (s : Printf) : Printf :=
  its.foldl (fun s it => it.run args string s) s

/-! ## The cursor -/

variable {fmt : Nat → Byte} {i : Nat} {l : List Byte}

theorem Suffix.head (h : Suffix fmt i l) : fmt i = l.headD 0#8 := by
  cases l with
  | nil => exact h
  | cons c l => exact h.1

theorem Suffix.tail {c : Byte} (h : Suffix fmt i (c :: l)) : Suffix fmt (i + 1) l := h.2.2

/-- Behind the characters that meet `p`. -/
theorem Suffix.dropWhile (p : Byte → Bool) (h : Suffix fmt i l) :
    Suffix fmt (i + (l.takeWhile p).length) (l.dropWhile p) := by
  induction l generalizing i with
  | nil => simpa using h
  | cons c l ih =>
      by_cases hp : p c
      · have hrest := ih h.tail
        simpa [hp, Nat.add_assoc, Nat.add_comm 1] using hrest
      · simpa [hp] using h

theorem suffix_map_range (s : CString) {k n : Nat} (hk : k + n = s.length) :
    Suffix s.byte k ((List.range' k n).map s.byte) := by
  induction n generalizing k with
  | zero =>
      obtain rfl : k = s.length := by omega
      exact s.nul
  | succ n ih => exact ⟨rfl, s.ne_nul k (by omega), ih (by omega)⟩

/-- The characters in front of the NUL. -/
def CString.chars (s : CString) : List Byte := (List.range' 0 s.length).map s.byte

@[simp] theorem CString.length_chars (s : CString) : s.chars.length = s.length := by
  simp [CString.chars]

theorem CString.suffix (s : CString) : Suffix s.byte 0 s.chars := suffix_map_range s (by omega)

/-- The string of the characters of `l` in front of its first NUL, if there is one. -/
def CString.ofList (l : List Byte) : CString where
  byte i := (l.takeWhile fun c => !decide (c = 0#8))[i]?.getD 0#8
  length := (l.takeWhile fun c => !decide (c = 0#8)).length
  nul := by simp
  ne_nul i hi := by
    have hmem := List.mem_takeWhile_imp (List.getElem_mem hi)
    simpa [List.getElem?_eq_getElem hi] using hmem

theorem CString.chars_ofList {l : List Byte} (hl : ∀ c ∈ l, c ≠ 0#8) :
    (CString.ofList l).chars = l := by
  have hwhole : (l.takeWhile fun c => !decide (c = 0#8)) = l := by
    rw [List.takeWhile_eq_self_iff]
    simpa using hl
  refine List.ext_getElem (by simp [CString.ofList, hwhole]) fun i hi hi' => ?_
  simp [CString.chars, CString.ofList, hwhole, hi']

/-- One round at `repeat`. -/
theorem flagLoop_succ (fuel : Nat) (flags : Flags) :
    flagLoop fmt (fuel + 1) flags i =
      if isFlag (fmt (i + 1)) then flagLoop fmt fuel (addFlag flags (fmt (i + 1))) (i + 1)
      else some (flags, i + 1) := by
  simp only [flagLoop, isFlag, addFlag, Bool.or_eq_true, decide_eq_true_eq]
  split_ifs <;> simp_all

theorem flagLoop_eq (h : Suffix fmt (i + 1) l) {fuel : Nat} (hfuel : l.length < fuel)
    (flags : Flags) :
    flagLoop fmt fuel flags i = some ((l.takeWhile isFlag).foldl addFlag flags,
      i + 1 + (l.takeWhile isFlag).length) := by
  induction fuel generalizing i l flags with
  | zero => omega
  | succ fuel ih =>
      rw [flagLoop_succ, h.head]
      cases l with
      | nil => rfl
      | cons c l =>
          by_cases hc : isFlag c
          · have hrest := ih h.tail (by simp at hfuel; omega) (addFlag flags c)
            simp [hc, hrest]
            omega
          · simp [hc]

theorem scanNumber_eq (h : Suffix fmt i l) {fuel : Nat} (hfuel : l.length < fuel) (tmp : Int) :
    scanNumber fmt fuel tmp i = some ((l.takeWhile isDigit).foldl scanDigit tmp,
      i + (l.takeWhile isDigit).length) := by
  induction fuel generalizing i l tmp with
  | zero => omega
  | succ fuel ih =>
      rw [scanNumber, h.head]
      cases l with
      | nil => rfl
      | cons c l =>
          by_cases hc : isDigit c
          · have hrest := ih h.tail (by simp at hfuel; omega) (scanDigit tmp c)
            simp [hc, hrest]
            omega
          · simp [hc]

/-- The cursor at `j` stands where `rest` begins, in the format that had `l` at `i`. -/
def Reached (fmt : Nat → Byte) (i : Nat) (l : List Byte) (j : Nat) (rest : List Byte) : Prop :=
  Suffix fmt j rest ∧ j + rest.length = i + l.length

theorem Reached.refl (h : Suffix fmt i l) : Reached fmt i l i l := ⟨h, rfl⟩

theorem Reached.trans {j k : Nat} {l₁ l₂ : List Byte} (h : Reached fmt i l j l₁)
    (h' : Reached fmt j l₁ k l₂) : Reached fmt i l k l₂ := ⟨h'.1, h'.2.trans h.2⟩

theorem Reached.dropWhile (p : Byte → Bool) (h : Suffix fmt i l) :
    Reached fmt i l (i + (l.takeWhile p).length) (l.dropWhile p) := by
  refine ⟨h.dropWhile p, ?_⟩
  have hlen := congrArg List.length (List.takeWhile_append_dropWhile (p := p) (l := l))
  rw [List.length_append] at hlen
  omega

/-- The three ways a width or a precision is read. -/
theorem parseField_cases (h : Suffix fmt i l) {fuel : Nat} (hfuel : l.length < fuel) :
    (∃ text j, isDigit (fmt i) = true ∧ parseField l = (.digits text, l.dropWhile isDigit) ∧
      scanNumber fmt fuel 0 i = some (text.foldl scanDigit 0, j) ∧
      Reached fmt i l j (l.dropWhile isDigit)) ∨
    (fmt i = ch '*' ∧ parseField l = (.star, l)) ∨
    (isDigit (fmt i) = false ∧ fmt i ≠ ch '*' ∧ parseField l = (.absent, l)) := by
  rw [h.head]
  cases l with
  | nil => exact Or.inr (Or.inr ⟨rfl, by decide, rfl⟩)
  | cons c l =>
      rw [List.headD_cons]
      cases hc : isDigit c with
      | true =>
          refine Or.inl ⟨_, _, rfl, ?_, scanNumber_eq h hfuel 0, Reached.dropWhile isDigit h⟩
          simp [parseField, hc]
      | false =>
          by_cases hstar : c = ch '*'
          · exact Or.inr (Or.inl ⟨hstar, by simp [parseField, hc, ← hstar]⟩)
          · exact Or.inr (Or.inr ⟨rfl, hstar, by simp [parseField, hc, hstar]⟩)

theorem isDigit_star : isDigit (ch '*') = false := by decide

theorem scanWidth_eq (h : Suffix fmt i l) {fuel : Nat} (hfuel : l.length < fuel) (args : VaList)
    (flags : Flags) (s : Printf) :
    ∃ j, scanWidth fmt args fuel flags i s =
        (let (w, s) := (parseField l).1.value args s
         let (w, flags) := widthFlags (parseField l).1 w flags
         some (w, flags, j, s)) ∧
      Reached fmt i l j (parseField l).2 := by
  rcases parseField_cases h hfuel with ⟨text, j, hdigit, hparse, hscan, hreached⟩ |
    ⟨hstar, hparse⟩ | ⟨hdigit, hstar, hparse⟩
  · exact ⟨j, by simp [scanWidth, hdigit, hscan, hparse, Field.value, widthFlags],
      by rw [hparse]; exact hreached⟩
  · refine ⟨i, ?_, by rw [hparse]; exact Reached.refl h⟩
    by_cases hneg : argInt (s.vaArg args).1 < 0
    · simp [scanWidth, hstar, isDigit_star, hparse, Field.value, widthFlags, hneg]
    · simp [scanWidth, hstar, isDigit_star, hparse, Field.value, widthFlags, hneg]
  · exact ⟨i, by simp [scanWidth, hdigit, hstar, hparse, Field.value, widthFlags],
      by rw [hparse]; exact Reached.refl h⟩

theorem scanPrecision_eq (h : Suffix fmt i l) {fuel : Nat} (hfuel : l.length < fuel)
    (args : VaList) (s : Printf) :
    ∃ j, scanPrecision fmt args fuel i s =
        (let (p, s) := precisionValue args (parsePrecision l).1 s
         some (p, j, s)) ∧
      Reached fmt i l j (parsePrecision l).2 := by
  cases l with
  | nil => exact ⟨i, by rw [scanPrecision, h.head]; rfl, Reached.refl h⟩
  | cons c l =>
      by_cases hdot : c = ch '.'
      · have hstep : Reached fmt i (c :: l) (i + 1) l := ⟨h.tail, by simp; omega⟩
        have hfuel' : l.length < fuel := by
          simp at hfuel
          omega
        have hi : fmt i = ch '.' := h.1.trans hdot
        rcases parseField_cases h.tail hfuel' with ⟨text, j, hdigit, hparse, hscan, hreached⟩ |
          ⟨hstar, hparse⟩ | ⟨hdigit, hstar, hparse⟩
        · refine ⟨j, ?_, ?_⟩
          · simp [scanPrecision, hi, hdigit, hscan, parsePrecision, hdot, hparse, precisionValue,
              Field.value]
            rfl
          · simpa [parsePrecision, hdot, hparse] using hstep.trans hreached
        · refine ⟨i + 1, ?_, ?_⟩
          · simp [scanPrecision, hi, hstar, isDigit_star, parsePrecision, hdot, hparse,
              precisionValue, Field.value]
            rfl
          · simpa [parsePrecision, hdot, hparse] using hstep
        · refine ⟨i + 1, ?_, ?_⟩
          · simp [scanPrecision, hi, hdigit, hstar, parsePrecision, hdot, hparse, precisionValue,
              Field.value]
          · simpa [parsePrecision, hdot, hparse] using hstep
      · have hi : fmt i ≠ ch '.' := by
          rw [h.1]
          exact hdot
        exact ⟨i, by simp [scanPrecision, hi, parsePrecision, hdot, precisionValue],
          by simpa [parsePrecision, hdot] using Reached.refl h⟩

theorem scanQualifier_eq (h : Suffix fmt i l) :
    ∃ j, scanQualifier fmt i = ((parseQualifier l).1, j) ∧
      Reached fmt i l j (parseQualifier l).2 := by
  cases l with
  | nil => exact ⟨i, by rw [scanQualifier, h.head]; rfl, Reached.refl h⟩
  | cons c l =>
      have hstep : Reached fmt i (c :: l) (i + 1) l := ⟨h.tail, by simp; omega⟩
      by_cases hh : c = ch 'h'
      · exact ⟨i + 1, by simp [scanQualifier, parseQualifier, h.1, hh],
          by simpa [parseQualifier, hh] using hstep⟩
      · by_cases hl : c = ch 'l'
        · have hne : ch 'l' ≠ ch 'h' := by decide
          have hnext := h.tail.head
          by_cases hll : l.headD 0#8 = ch 'l'
          · cases l with
            | nil => exact absurd hll (by decide)
            | cons c' l =>
                obtain rfl : c' = ch 'l' := hll
                have hstep' : Reached fmt i (c :: ch 'l' :: l) (i + 2) l :=
                  hstep.trans ⟨h.tail.tail, by simp; omega⟩
                exact ⟨i + 2, by simp [scanQualifier, parseQualifier, h.1, hl, hne, h.tail.1],
                  by simpa [parseQualifier, hl, hne] using hstep'⟩
          · rw [← hnext] at hll
            refine ⟨i + 1, ?_, ?_⟩
            · simp only [scanQualifier, parseQualifier, h.1, hl, hne, ← hnext, hll, if_true,
                if_false]
            · simpa only [parseQualifier, hl, hne, ← hnext, hll, if_true, if_false] using hstep
        · by_cases hL : c = ch 'L'
          · have hne : ch 'L' ≠ ch 'h' ∧ ch 'L' ≠ ch 'l' := by decide
            exact ⟨i + 1, by simp [scanQualifier, parseQualifier, h.1, hL, hne],
              by simpa [parseQualifier, hL, hne] using hstep⟩
          · exact ⟨i, by simp [scanQualifier, parseQualifier, h.1, hh, hl, hL],
              by simpa [parseQualifier, hh, hl, hL] using Reached.refl h⟩

theorem length_parseField_le (l : List Byte) : (parseField l).2.length ≤ l.length := by
  cases l with
  | nil => exact le_rfl
  | cons c l =>
      simp only [parseField]
      split_ifs
      · exact (List.dropWhile_sublist isDigit).length_le
      · exact le_rfl
      · exact le_rfl

theorem length_parsePrecision_le (l : List Byte) : (parsePrecision l).2.length ≤ l.length := by
  cases l with
  | nil => exact le_rfl
  | cons c l =>
      simp only [parsePrecision]
      split_ifs
      · exact (length_parseField_le l).trans (Nat.le_succ _)
      · exact le_rfl

theorem length_parseQualifier_le (l : List Byte) : (parseQualifier l).2.length ≤ l.length := by
  cases l with
  | nil => exact le_rfl
  | cons c l =>
      simp only [parseQualifier]
      split_ifs <;> simp
      omega

theorem length_parseDirective_le (l : List Byte) : (parseDirective l).2.length ≤ l.length := by
  have hflags := (List.dropWhile_sublist isFlag (l := l)).length_le
  have hwidth := length_parseField_le (l.dropWhile isFlag)
  have hprecision := length_parsePrecision_le (parseField (l.dropWhile isFlag)).2
  have hqualifier := length_parseQualifier_le (parsePrecision (parseField (l.dropWhile isFlag)).2).2
  simp only [parseDirective, List.length_tail]
  omega

/-- One directive: the loop over the format finds the cursor in front of what the parser
leaves, and the variables as `Directive.run` makes them. -/
theorem directive_eq (h : Suffix fmt (i + 1) l) {fuel : Nat} (hfuel : l.length < fuel)
    (args : VaList) (string : U64) (s : Printf) :
    ∃ j, directive fmt args string fuel i s = some (j, (parseDirective l).1.run args string s) ∧
      Reached fmt (i + 1) l (j + 1) (parseDirective l).2 := by
  have hflags := Reached.dropWhile isFlag h
  have hle := (List.dropWhile_sublist isFlag (l := l)).length_le
  obtain ⟨l₀, hl₀⟩ : ∃ l₀, l.dropWhile isFlag = l₀ := ⟨_, rfl⟩
  rw [hl₀] at hflags hle
  have hle₁ := length_parseField_le l₀
  have hfuel₀ : l₀.length < fuel := Nat.lt_of_le_of_lt hle hfuel
  obtain ⟨j₁, hwidth, hreached₁⟩ := scanWidth_eq hflags.1 hfuel₀ args
    ((l.takeWhile isFlag).foldl addFlag Flags.zero) s
  obtain ⟨field, l₁, hfield⟩ : ∃ field l₁, parseField l₀ = (field, l₁) := ⟨_, _, rfl⟩
  rw [hfield] at hle₁ hwidth hreached₁
  have hfuel₁ : l₁.length < fuel := Nat.lt_of_le_of_lt hle₁ (by omega)
  obtain ⟨w, s₁, hw⟩ : ∃ w s₁, field.value args s = (w, s₁) := ⟨_, _, rfl⟩
  obtain ⟨j₂, hprecision, hreached₂⟩ := scanPrecision_eq hreached₁.1 hfuel₁ args s₁
  obtain ⟨precision, l₂, hparse₂⟩ : ∃ precision l₂, parsePrecision l₁ = (precision, l₂) :=
    ⟨_, _, rfl⟩
  rw [hparse₂] at hprecision hreached₂
  obtain ⟨j₃, hqualifier, hreached₃⟩ := scanQualifier_eq hreached₂.1
  obtain ⟨qualifier, l₃, hparse₃⟩ : ∃ qualifier l₃, parseQualifier l₂ = (qualifier, l₃) :=
    ⟨_, _, rfl⟩
  rw [hparse₃] at hqualifier hreached₃
  have hreached := ((hflags.trans hreached₁).trans hreached₂).trans hreached₃
  refine ⟨if fmt j₃ = 0#8 then j₃ - 1 else j₃, ?_, ?_⟩
  · simp [directive, flagLoop_eq h hfuel, hwidth, hprecision, hqualifier, hw, parseDirective,
      Directive.run, hl₀, hfield, hparse₂, hparse₃, hreached₃.1.head]
  · have hend : (parseDirective l).2 = l₃.tail := by
      simp only [parseDirective, hl₀, hfield, hparse₂, hparse₃]
    rw [hend]
    cases l₃ with
    | nil =>
        -- the NUL comes after the `%`, so there is a place in front of it
        have hplace := hreached.2
        have hback : j₃ - 1 + 1 = j₃ := by
          simp at hplace
          omega
        simpa [hreached.1.head, hback] using hreached
    | cons c l₄ =>
        have hc : fmt j₃ ≠ 0#8 := by
          rw [hreached.1.1]
          exact hreached.1.2.1
        rw [if_neg hc]
        exact hreached.trans ⟨hreached.1.tail, by simp; omega⟩

/-- The loop over the format carries out its items, and ends at the NUL. -/
theorem formatLoop_eq (h : Suffix fmt i l) {fuel : Nat} (hfuel : l.length < fuel)
    (args : VaList) (string : U64) (s : Printf) :
    formatLoop fmt args string fuel i s =
      some (i + l.length, runItems args string (items fuel l) s) := by
  induction fuel generalizing i l s with
  | zero => omega
  | succ fuel ih =>
      cases l with
      | nil =>
          have hnul : fmt i = 0#8 := h
          rw [formatLoop, if_pos hnul]
          rfl
      | cons c l =>
          have hfuel' : l.length < fuel := by
            simp at hfuel
            omega
          have hne : fmt i ≠ 0#8 := by
            rw [h.1]
            exact h.2.1
          rw [formatLoop, if_neg hne, h.1, items]
          by_cases hc : c = ch '%'
          · rw [if_neg (by simpa using hc), if_neg (by simpa using hc)]
            obtain ⟨j, hdirective, hreached⟩ := directive_eq h.tail hfuel' args string s
            have hle := length_parseDirective_le l
            have hrest := ih hreached.1 (by omega) ((parseDirective l).1.run args string s)
            simp [hdirective, hrest, hreached.2, runItems, Item.run]
            omega
          · rw [if_pos hc, if_pos hc, ih h.tail hfuel']
            simp [runItems, Item.run]
            omega

end Arm64OS
