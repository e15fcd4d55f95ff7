import Arm64OS.Printk.Directive

/-!
# What a directive comes to

`Outcome` says what one item of a format does to the variables of `myprintf`: the text it
stores, and what becomes of `pos` and `base`.  `Directive.run_eq` is the specification of a
directive in these terms; the lengths of the texts are closed formulas of the flags, the
width, the precision and the argument.
-/

namespace Arm64OS

open CInt

/-- The stores of a text at `a` and behind. -/
def layout (a : U64) : List Byte → List (U64 × Byte)
  | [] => []
  | b :: text => (a, b) :: layout (a + 1) text

@[simp] theorem layout_nil (a : U64) : layout a [] = [] := rfl

@[simp] theorem layout_cons (a : U64) (b : Byte) (text : List Byte) :
    layout a (b :: text) = (a, b) :: layout (a + 1) text := rfl

theorem layout_append (a : U64) (t t' : List Byte) :
    layout a (t ++ t') = layout a t ++ layout (a + BitVec.ofNat 64 t.length) t' := by
  induction t generalizing a with
  | nil => simp
  | cons b t ih => simp [ih, BitVec.ofNat_add, BitVec.add_assoc, BitVec.add_comm 1#64]

theorem Printf.puts_eq (text : List Byte) (s : Printf) :
    s.puts text =
      { s with
        pos := s.pos + BitVec.ofNat 64 text.length
        stores := s.stores ++ layout s.pos text } := by
  induction text generalizing s with
  | nil => simp [Printf.puts]
  | cons b text ih =>
      have hstep : s.puts (b :: text) = (s.put b).puts text := rfl
      rw [hstep, ih]
      simp [Printf.put, BitVec.ofNat_add, BitVec.add_assoc, BitVec.add_comm 1#64]

theorem Printf.puts_append (t t' : List Byte) (s : Printf) :
    s.puts (t ++ t') = (s.puts t).puts t' := List.foldl_append

theorem Printf.put_eq (b : Byte) (s : Printf) : s.put b = s.puts [b] := rfl

@[simp] theorem Printf.puts_nil (s : Printf) : s.puts [] = s := rfl

@[simp] theorem Printf.setArg_arg (n : Nat) (s : Printf) : (s.setArg n).arg = n := rfl

@[simp] theorem Printf.setArg_base (n : Nat) (s : Printf) : (s.setArg n).base = s.base := rfl

@[simp] theorem Printf.setBase_arg (b : Int) (s : Printf) : (s.setBase b).arg = s.arg := rfl

@[simp] theorem Printf.setBase_base (b : Int) (s : Printf) : (s.setBase b).base = b := rfl

@[simp] theorem Printf.setArg_setArg (m n : Nat) (s : Printf) :
    (s.setArg m).setArg n = s.setArg n := rfl

@[simp] theorem Printf.setBase_self (s : Printf) : s.setBase s.base = s := rfl

/-- A text does not depend on the arguments still to come, nor on `base`. -/
@[simp] theorem Printf.puts_setArg (text : List Byte) (n : Nat) (s : Printf) :
    (s.setArg n).puts text = (s.puts text).setArg n := by
  simp [Printf.puts_eq, Printf.setArg]

@[simp] theorem Printf.puts_setBase (text : List Byte) (b : Int) (s : Printf) :
    (s.setBase b).puts text = (s.puts text).setBase b := by
  simp [Printf.puts_eq, Printf.setBase]

@[simp] theorem Printf.puts_arg (text : List Byte) (s : Printf) : (s.puts text).arg = s.arg := by
  simp [Printf.puts_eq]

@[simp] theorem Printf.puts_base (text : List Byte) (s : Printf) :
    (s.puts text).base = s.base := by
  simp [Printf.puts_eq]

/-- What an item does: the text it stores from `pos` on, whether `pos` is 0 afterwards, the
`base` it leaves, and the address that a `%n` is given. -/
structure Outcome where
  text : List Byte
  null : Bool
  base : Int
  count : Option U64

/-- An outcome carried out. -/
def Outcome.apply (string : U64) (slots : Nat) (o : Outcome) (s : Printf) : Printf where
  pos := if o.null then 0 else s.pos + BitVec.ofNat 64 o.text.length
  arg := s.arg + slots
  base := o.base
  stores := s.stores ++ layout s.pos o.text ++
    o.count.toList.map fun ip => (ip, (s.pos - string).setWidth 8)

/-- A text in its field: what the loop in front pads, unless there is a `-`, and what the loop
behind pads with the width that is left. -/
def padded (loop : Int → List Byte × Int) (flags : Flags) (fieldWidth : Int)
    (text : List Byte) : List Byte :=
  (padBefore loop flags fieldWidth).1 ++ text ++ (loop (padBefore loop flags fieldWidth).2).1

/-- `%c`. -/
def charText (flags : Flags) (fieldWidth : Int) (v : U64) : List Byte :=
  padded (padDown (ch ' ')) flags fieldWidth [v.setWidth 8]

/-- `%s`. -/
def stringText (flags : Flags) (fieldWidth precision : Int) (str : List Byte) : List Byte :=
  padded (pad (ch ' ') (stringLen str precision)) flags fieldWidth
    (str.take (stringLen str precision).toNat)

/-- `%p`. -/
def pointerText (flags : Flags) (fieldWidth precision : Int) (v : U64) : List Byte :=
  if fieldWidth = -1 then numberText v 16 16 precision { flags with zeropad := true }
  else numberText v 16 fieldWidth precision flags

/-- What `pos = number(…)` does, behind a text that is stored already. -/
def integerOutcome (lead : List Byte) (num : U64) (base fieldWidth precision : Int)
    (flags : Flags) : Outcome :=
  if BaseOk base then ⟨lead ++ numberText num base fieldWidth precision flags, false, base, none⟩
  else ⟨lead, true, base, none⟩

/-- What the `default` case stores before the number. -/
def defaultText (c : Byte) : List Byte :=
  (if c ≠ ch '%' then [ch '%'] else []) ++ if c ≠ 0#8 then [c] else []

/-- The outcome of a conversion by `c` of the slot value `v`. -/
def convertOutcome (args : VaList) (flags : Flags) (fieldWidth precision : Int)
    (qualifier : Qualifier) (c : Byte) (base : Int) (v : U64) : Outcome :=
  if c = ch 'c' then ⟨charText flags fieldWidth v, false, base, none⟩
  else if c = ch 's' then
    ⟨stringText flags fieldWidth precision (argString args v), false, base, none⟩
  else if c = ch 'n' then ⟨[], false, base, some v⟩
  else if c = ch 'p' then ⟨pointerText flags fieldWidth precision v, false, base, none⟩
  else if c = ch 'o' then
    integerOutcome [] (integerArg qualifier flags v) 8 fieldWidth precision flags
  else if c = ch 'x' then
    integerOutcome [] (integerArg qualifier { flags with small := true } v) 16 fieldWidth
      precision { flags with small := true }
  else if c = ch 'X' then
    integerOutcome [] (integerArg qualifier flags v) 16 fieldWidth precision flags
  else if c = ch 'd' ∨ c = ch 'i' then
    integerOutcome [] (integerArg qualifier { flags with sign := true } v) 10 fieldWidth
      precision { flags with sign := true }
  else if c = ch 'u' then
    integerOutcome [] (integerArg qualifier flags v) 10 fieldWidth precision flags
  else
    integerOutcome (defaultText c) (integerArg qualifier flags v) base fieldWidth precision flags

/-! ## The cases of the `switch` -/

variable (args : VaList) (string : U64) (s : Printf)

/-- An outcome that is a text only. -/
theorem Outcome.apply_text (slots : Nat) (text : List Byte) (base : Int) :
    Outcome.apply string slots ⟨text, false, base, none⟩ s =
      ((s.puts text).setBase base).setArg (s.arg + slots) := by
  simp [Outcome.apply, Printf.puts_eq, Printf.setArg, Printf.setBase]

theorem Outcome.apply_keep (slots : Nat) (text : List Byte) :
    Outcome.apply string slots ⟨text, false, s.base, none⟩ s =
      (s.puts text).setArg (s.arg + slots) := by
  simp [Outcome.apply, Printf.puts_eq, Printf.setArg]

theorem convertChar_eq (flags : Flags) (fieldWidth : Int) :
    convertChar args flags fieldWidth s =
      (s.puts (charText flags fieldWidth (args.slot s.arg))).setArg (s.arg + 1) := by
  simp [convertChar, Printf.vaArg, Printf.put_eq, charText, padded, ← Printf.puts_append]

theorem convertString_eq (flags : Flags) (fieldWidth precision : Int) :
    convertString args flags fieldWidth precision s =
      (s.puts (stringText flags fieldWidth precision
        (argString args (args.slot s.arg)))).setArg (s.arg + 1) := by
  simp [convertString, Printf.vaArg, stringText, padded, Printf.puts_append]

theorem convertPointer_eq (flags : Flags) {fieldWidth precision : Int} (hwidth : IsInt fieldWidth)
    (hprecision : IsInt precision) :
    convertPointer args flags fieldWidth precision s =
      (s.puts (pointerText flags fieldWidth precision (args.slot s.arg))).setArg (s.arg + 1) := by
  have hbase : BaseOk 16 := by decide
  by_cases hnone : fieldWidth = -1
  · have hwide : IsInt 16 := by decide
    have hsixteen := number_eq hbase (args.slot s.arg) hwide hprecision
      { flags with zeropad := true }
    simp [convertPointer, hnone, hsixteen, Printf.putNumber, Printf.vaArg, pointerText]
  · have hnumber := number_eq hbase (args.slot s.arg) hwidth hprecision flags
    simp [convertPointer, hnone, hnumber, Printf.putNumber, Printf.vaArg, pointerText]

/-- The number, behind a text that is stored already. -/
theorem convertInteger_eq (lead : List Byte) (flags : Flags) {fieldWidth precision : Int}
    (hwidth : IsInt fieldWidth) (hprecision : IsInt precision) (qualifier : Qualifier)
    (base : Int) :
    convertInteger args flags fieldWidth precision qualifier ((s.puts lead).setBase base) =
      Outcome.apply string 1 (integerOutcome lead
        (integerArg qualifier flags (args.slot s.arg)) base fieldWidth precision flags) s := by
  by_cases hbase : BaseOk base
  · have hnumber := number_eq hbase (integerArg qualifier flags (args.slot s.arg)) hwidth
      hprecision flags
    simp [convertInteger, Printf.vaArg, hnumber, Printf.putNumber, integerOutcome, hbase,
      Outcome.apply_text, Printf.puts_append]
  · simp [convertInteger, Printf.vaArg, number_of_not_baseOk hbase, Printf.putNumber,
      integerOutcome, hbase, Outcome.apply, Printf.setArg, Printf.setBase, Printf.puts_eq]

/-- What the `default` case stores. -/
theorem puts_defaultText (c : Byte) :
    (let s := if c ≠ ch '%' then s.put (ch '%') else s
     if c ≠ 0#8 then s.put c else s) = s.puts (defaultText c) := by
  unfold defaultText
  split_ifs <;> simp [Printf.put_eq, ← Printf.puts_append]

/-- The default case, with the `base` that happens to be there. -/
theorem convertDefault_eq (flags : Flags) {fieldWidth precision : Int} (hwidth : IsInt fieldWidth)
    (hprecision : IsInt precision) (qualifier : Qualifier) (c : Byte) :
    convertInteger args flags fieldWidth precision qualifier (s.puts (defaultText c)) =
      Outcome.apply string 1 (integerOutcome (defaultText c)
        (integerArg qualifier flags (args.slot s.arg)) s.base fieldWidth precision flags) s := by
  rw [← convertInteger_eq _ _ _ _ _ hwidth hprecision, ← Printf.puts_base (defaultText c) s,
    Printf.setBase_self]

/-- **One conversion**, whatever its character. -/
theorem convert_eq (flags : Flags) {fieldWidth precision : Int} (hwidth : IsInt fieldWidth)
    (hprecision : IsInt precision) (qualifier : Qualifier) (c : Byte) :
    convert args string flags fieldWidth precision qualifier c s =
      Outcome.apply string 1 (convertOutcome args flags fieldWidth precision qualifier c s.base
        (args.slot s.arg)) s := by
  have hinteger := fun flags =>
    convertInteger_eq args string s [] flags hwidth hprecision qualifier
  unfold convert convertOutcome
  by_cases hc : c = ch 'c'
  · rw [if_pos hc, if_pos hc, convertChar_eq, Outcome.apply_keep]
  rw [if_neg hc, if_neg hc]
  by_cases hs : c = ch 's'
  · rw [if_pos hs, if_pos hs, convertString_eq, Outcome.apply_keep]
  rw [if_neg hs, if_neg hs]
  by_cases hn : c = ch 'n'
  · rw [if_pos hn, if_pos hn]
    simp [convertCount, Printf.vaArg, Outcome.apply, Printf.setArg]
  rw [if_neg hn, if_neg hn]
  by_cases hp : c = ch 'p'
  · rw [if_pos hp, if_pos hp, convertPointer_eq _ _ _ hwidth hprecision, Outcome.apply_keep]
  rw [if_neg hp, if_neg hp]
  by_cases ho : c = ch 'o'
  · rw [if_pos ho, if_pos ho, ← hinteger, Printf.puts_nil]
  rw [if_neg ho, if_neg ho]
  by_cases hx : c = ch 'x'
  · rw [if_pos hx, if_pos hx, ← hinteger, Printf.puts_nil]
  rw [if_neg hx, if_neg hx]
  by_cases hX : c = ch 'X'
  · rw [if_pos hX, if_pos hX, ← hinteger, Printf.puts_nil]
  rw [if_neg hX, if_neg hX]
  by_cases hd : c = ch 'd' ∨ c = ch 'i'
  · rw [if_pos hd, if_pos hd, ← hinteger, Printf.puts_nil]
  rw [if_neg hd, if_neg hd]
  by_cases hu : c = ch 'u'
  · rw [if_pos hu, if_pos hu, ← hinteger, Printf.puts_nil]
  · rw [if_neg hu, if_neg hu, ← convertDefault_eq _ _ _ _ hwidth hprecision, ← puts_defaultText]

end Arm64OS
