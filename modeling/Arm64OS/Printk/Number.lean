import Mathlib.Data.Nat.Digits.Lemmas
import Mathlib.Tactic
import Arm64OS.Lib.CInt
import Arm64OS.Page

/-!
# `number` and `scan_number`

The two helpers of `lib/printk.c` that turn digits into a number and a number into text.

`number` stores its text at `str`, one byte after the other, and returns the place behind
it; here it returns the text.  Its `size` and its `precision`, and the accumulator of
`scan_number`, have the 32 bits of an `int`, and what goes beyond them wraps.
-/

namespace Arm64OS

open CInt

abbrev Byte := BitVec 8

/-- A character constant. -/
def ch (c : Char) : Byte := BitVec.ofNat 8 c.toNat

/-- `is_digit`. -/
def isDigit (c : Byte) : Bool := ch '0' ≤ c && c ≤ ch '9'

/-- The flags of a conversion: `ZEROPAD`, `SIGN`, `PLUS`, `SPACE`, `LEFT`, `SPECIAL` and
`SMALL`. -/
structure Flags where
  zeropad : Bool
  sign : Bool
  plus : Bool
  space : Bool
  left : Bool
  special : Bool
  small : Bool
  deriving DecidableEq

/-- `flags = 0`. -/
def Flags.zero : Flags := ⟨false, false, false, false, false, false, false⟩

/-- One round of the loop of `scan_number`. -/
def scanDigit (tmp : Int) (c : Byte) : Int := wrapInt (tmp * 10 + (c.toNat - 48))

/-- `digits[d]`, in the upper or in the lower case table. -/
def digitChar (small : Bool) (d : Nat) : Byte :=
  if d < 10 then BitVec.ofNat 8 (48 + d)
  else if small then BitVec.ofNat 8 (87 + d)
  else BitVec.ofNat 8 (55 + d)

/-- `while (num != 0) tmp[i++] = digits[do_div(num, base)]`: the values of the digits, least
significant first.  An `unsigned long` has at most 64 of them. -/
def doDivLoop (base : Nat) : (fuel : Nat) → Nat → List Nat
  | 0, _ => []
  | fuel + 1, num => if num = 0 then [] else num % base :: doDivLoop base fuel (num / base)

/-- The sign that `number` shows, the magnitude, and the field width that is left. -/
def signOf (num : U64) (size : Int) (type : Flags) : Option Byte × U64 × Int :=
  if type.sign then
    if num.toInt < 0 then (some (ch '-'), -num, size)
    else if type.plus then (some (ch '+'), num, wrapInt (size - 1))
    else if type.space then (some (ch ' '), num, wrapInt (size - 1))
    else (none, num, size)
  else (none, num, size)

/-- What `SPECIAL` puts in front of the digits. -/
def baseMark (base : Int) (type : Flags) : List Byte :=
  if type.special then
    if base = 8 then [ch '0']
    else if base = 16 then [ch '0', digitChar type.small 33]
    else []
  else []

/-- The room that `SPECIAL` takes from the field. -/
def specialSize (base size : Int) (type : Flags) : Int :=
  if type.special then
    if base = 16 then wrapInt (size - 2)
    else if base = 8 then wrapInt (size - 1)
    else size
  else size

/-- `tmp[0..i)`. -/
def tmpDigits (small : Bool) (base : Nat) (num : U64) : List Byte :=
  if num = 0 then [ch '0'] else (doDivLoop base 64 num.toNat).map (digitChar small)

/-- `number`: the text that it stores from `str` on, or nothing where it returns 0. -/
def number (num : U64) (base size precision : Int) (type : Flags) : Option (List Byte) :=
  let type := if type.left then { type with zeropad := false } else type
  if base < 2 ∨ 36 < base then none
  else
    let c := if type.zeropad then ch '0' else ch ' '
    let (sign, num, size) := signOf num size type
    let size := specialSize base size type
    let tmp := tmpDigits type.small base.toNat num
    let precision := max precision tmp.length
    let size := wrapInt (size - precision)
    let (blanks, size) := if type.zeropad || type.left then ([], size) else pad (ch ' ') 0 size
    let (inner, size) := if type.left then ([], size) else pad c 0 size
    let (zeros, _) := pad (ch '0') tmp.length precision
    let (rest, _) := pad (ch ' ') 0 size
    some (blanks ++ sign.toList ++ baseMark base type ++ inner ++ zeros ++ tmp.reverse ++ rest)

/-! ## The text in closed form -/

theorem doDivLoop_eq {base : Nat} (hbase : 2 ≤ base) {fuel num : Nat} (hnum : num < 2 ^ fuel) :
    doDivLoop base fuel num = Nat.digits base num := by
  induction fuel generalizing num with
  | zero =>
      obtain rfl : num = 0 := by simpa using hnum
      simp [doDivLoop]
  | succ fuel ih =>
      rw [doDivLoop]
      by_cases hzero : num = 0
      · simp [hzero]
      · have hquot : num / base < 2 ^ fuel := by
          have hle : num / base ≤ num / 2 := Nat.div_le_div_left hbase (by omega)
          rw [pow_succ] at hnum
          omega
        rw [if_neg hzero, ih hquot]
        exact (Nat.digits_def' hbase (Nat.pos_of_ne_zero hzero)).symm

/-- The digits of a magnitude, most significant first; 0 has one digit. -/
def digitText (small : Bool) (base : Nat) (num : U64) : List Byte :=
  if num = 0 then [ch '0'] else ((Nat.digits base num.toNat).map (digitChar small)).reverse

/-- How many digits `number` shows without a precision. -/
def digitCount (base : Nat) (num : U64) : Nat :=
  if num = 0 then 1 else (Nat.digits base num.toNat).length

@[simp] theorem length_digitText (small : Bool) (base : Nat) (num : U64) :
    (digitText small base num).length = digitCount base num := by
  unfold digitText digitCount
  split <;> simp

/-- What `size` comes to: what the width leaves after the sign (but not after a minus sign), the
base and the digits. -/
def sizeLeft (num : U64) (base size precision : Int) (type : Flags) : Int :=
  let (_, num, size) := signOf num size type
  wrapInt (size - (baseMark base type).length - max precision (digitCount base.toNat num))

/-- The padding in front, behind the sign and the base, and behind the digits. -/
structure Pads where
  front : Nat
  inner : Nat
  behind : Nat

/-- How far the loops of `number` fill the field up.  Where the decrement of one of them wraps,
the next begins at the greatest `int`. -/
def pads (size : Int) (type : Flags) : Pads :=
  if type.left then ⟨0, 0, size.toNat⟩
  else if type.zeropad then ⟨0, size.toNat, if size = intMin then intMax else 0⟩
  else
    ⟨size.toNat, if size = intMin then intMax else 0, if size = intMin + 1 then intMax else 0⟩

/-- The text of `number` in closed form: padding, sign, base, padding, zeros, digits, padding. -/
def numberText (num : U64) (base size precision : Int) (type : Flags) : List Byte :=
  let p := pads (sizeLeft num base size precision type) type
  let (sign, num, _) := signOf num size type
  let digits := digitText type.small base.toNat num
  List.replicate p.front (ch ' ') ++ sign.toList ++ baseMark base type ++
  List.replicate p.inner (if type.zeropad then ch '0' else ch ' ') ++
  List.replicate (precision - digits.length).toNat (ch '0') ++ digits ++
  List.replicate p.behind (ch ' ')

/-- The bases `number` accepts. -/
def BaseOk (base : Int) : Prop := 2 ≤ base ∧ base ≤ 36

instance (base : Int) : Decidable (BaseOk base) := by
  unfold BaseOk
  infer_instance

theorem number_of_not_baseOk {base : Int} (hbase : ¬ BaseOk base) (num : U64)
    (size precision : Int) (type : Flags) : number num base size precision type = none := by
  have hout : base < 2 ∨ 36 < base := by
    unfold BaseOk at hbase
    omega
  simp only [number, if_pos hout]

/-- The digits as the loop of `number` collects them. -/
theorem reverse_tmpDigits (small : Bool) {base : Int} (hbase : BaseOk base) (num : U64) :
    (tmpDigits small base.toNat num).reverse = digitText small base.toNat num := by
  have htwo : 2 ≤ base.toNat := by
    have := hbase.1
    omega
  unfold tmpDigits digitText
  split
  · rfl
  · rw [doDivLoop_eq htwo num.isLt]

theorem length_tmpDigits (small : Bool) {base : Int} (hbase : BaseOk base) (num : U64) :
    (tmpDigits small base.toNat num).length = digitCount base.toNat num := by
  rw [← length_digitText small, ← reverse_tmpDigits small hbase, List.length_reverse]

/-- An `unsigned long` has at most 64 digits. -/
theorem digitCount_le {base : Nat} (hbase : 2 ≤ base) (num : U64) : digitCount base num ≤ 64 := by
  unfold digitCount
  split
  · decide
  · have hlt : num.toNat < base ^ 64 := num.isLt.trans_le (Nat.pow_le_pow_left hbase 64)
    exact (Nat.digits_length_le_iff (by omega) _).mpr hlt

theorem digitCount_pos (base : Nat) (num : U64) : 0 < digitCount base num := by
  unfold digitCount
  split
  · exact Nat.one_pos
  · rename_i hzero
    have hpos : num.toNat ≠ 0 := fun h => hzero (BitVec.eq_of_toNat_eq h)
    exact List.length_pos_of_ne_nil (Nat.digits_ne_nil_iff_ne_zero.mpr hpos)

/-! ## The loops -/

@[simp] theorem isInt_zero : IsInt 0 := by decide

/-- What one loop leaves for the next. -/
theorem toNat_pad_zero {size : Int} (hsize : IsInt size) :
    (wrapInt (min size 0 - 1)).toNat = if size = intMin then intMax else 0 := by
  unfold IsInt at hsize
  rw [wrapInt_sub_one ⟨by omega, by omega⟩]
  unfold intMin intMax
  split_ifs <;> omega

/-- What two loops leave for the third. -/
theorem toNat_pad_pad_zero {size : Int} (hsize : IsInt size) :
    (wrapInt (min (wrapInt (min size 0 - 1)) 0 - 1)).toNat =
      if size = intMin + 1 then intMax else 0 := by
  unfold IsInt at hsize
  rw [toNat_pad_zero (isInt_wrapInt _), wrapInt_sub_one ⟨by omega, by omega⟩]
  unfold intMin intMax
  split_ifs <;> omega

theorem specialSize_eq {base size : Int} (hsize : IsInt size) (type : Flags) :
    specialSize base size type = wrapInt (size - (baseMark base type).length) := by
  unfold specialSize baseMark
  by_cases h8 : base = 8
  · subst h8
    split <;> simp [wrapInt_of_isInt hsize]
  · by_cases h16 : base = 16
    · subst h16
      split <;> simp [wrapInt_of_isInt hsize]
    · simp [h8, h16, wrapInt_of_isInt hsize]

theorem isInt_signOf (num : U64) {size : Int} (hsize : IsInt size) (type : Flags) :
    IsInt (signOf num size type).2.2 := by
  unfold signOf
  split_ifs
  · exact hsize
  · exact isInt_wrapInt _
  · exact isInt_wrapInt _
  · exact hsize
  · exact hsize

theorem number_eq {base : Int} (hbase : BaseOk base) (num : U64) {size precision : Int}
    (hsize : IsInt size) (hprecision : IsInt precision) (type : Flags) :
    number num base size precision type = some (numberText num base size precision type) := by
  have hlow : 1 < base := hbase.1
  have hhigh : base ≤ 36 := hbase.2
  obtain ⟨zeropad, sign, plus, space, left, special, small⟩ := type
  -- `ZEROPAD` decides about the padding only
  obtain ⟨⟨shown, mag, width⟩, hsign⟩ : ∃ r,
      ∀ z, signOf num size ⟨z, sign, plus, space, left, special, small⟩ = r :=
    ⟨signOf num size ⟨zeropad, sign, plus, space, left, special, small⟩, fun _ => rfl⟩
  obtain ⟨mark, hmark⟩ : ∃ mark,
      ∀ z, baseMark base ⟨z, sign, plus, space, left, special, small⟩ = mark :=
    ⟨baseMark base ⟨zeropad, sign, plus, space, left, special, small⟩, fun _ => rfl⟩
  have hwidth : IsInt width := by
    have hint := isInt_signOf num hsize ⟨zeropad, sign, plus, space, left, special, small⟩
    rwa [hsign] at hint
  have hbound : 2 ≤ base.toNat := by omega
  have hcount := digitCount_le hbound mag
  have hdigits : IsInt (digitCount base.toNat mag) := ⟨by omega, by omega⟩
  have hmax : IsInt (max precision (digitCount base.toNat mag)) := by
    unfold IsInt at hprecision hdigits ⊢
    omega
  have hzeros : (max precision (digitCount base.toNat mag : Int) -
      digitCount base.toNat mag).toNat = (precision - digitCount base.toNat mag).toNat := by
    omega
  obtain ⟨room, hroom⟩ : ∃ room,
      wrapInt (width - mark.length - max precision (digitCount base.toNat mag)) = room := ⟨_, rfl⟩
  have hint : IsInt room := by
    rw [← hroom]
    exact isInt_wrapInt _
  -- the room is padded once; what the later loops put is 0 unless a decrement has wrapped
  have hthird := toNat_pad_pad_zero hint
  have hsecond := toNat_pad_zero hint
  cases left
  · cases zeropad
    · simp [number, numberText, sizeLeft, pads, hlow, hhigh, hsign, hmark, specialSize_eq hwidth,
        reverse_tmpDigits _ hbase, length_tmpDigits _ hbase, pad_eq, hdigits, hmax, hroom, hint,
        isInt_wrapInt, hzeros, hsecond, hthird]
    · simp [number, numberText, sizeLeft, pads, hlow, hhigh, hsign, hmark, specialSize_eq hwidth,
        reverse_tmpDigits _ hbase, length_tmpDigits _ hbase, pad_eq, hdigits, hmax, hroom, hint,
        isInt_wrapInt, hzeros, hsecond]
  · simp [number, numberText, sizeLeft, pads, hlow, hhigh, hsign, hmark, specialSize_eq hwidth,
      reverse_tmpDigits _ hbase, length_tmpDigits _ hbase, pad_eq, hdigits, hmax, hroom, hint,
      hzeros]

/-- The length of the text: the sign, the base and the digits, and the padding. -/
def numberLength (num : U64) (base size precision : Int) (type : Flags) : Nat :=
  let p := pads (sizeLeft num base size precision type) type
  let (sign, mag, _) := signOf num size type
  p.front + p.inner + p.behind + sign.toList.length + (baseMark base type).length +
    (max precision (digitCount base.toNat mag)).toNat

theorem length_numberText (num : U64) (base size precision : Int) (type : Flags) :
    (numberText num base size precision type).length =
      numberLength num base size precision type := by
  obtain ⟨shown, mag, width, hsign⟩ : ∃ shown mag width, signOf num size type =
    (shown, mag, width) := ⟨_, _, _, rfl⟩
  have hzeros : (precision - digitCount base.toNat mag).toNat + digitCount base.toNat mag =
      (max precision (digitCount base.toNat mag)).toNat := by
    omega
  simp [numberText, numberLength, hsign]
  omega

end Arm64OS
