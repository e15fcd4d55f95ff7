import Arm64OS.Printk.Number

/-!
# The field of a number

`number` is asked for a text of a given width: padding, a sign, the mark of the base, zeros,
digits, padding.  It lays the text out like this for every value, base and combination of
flags, as long as what is left of `size` can be counted down in an `int`.  The width comes out
right then too, but for negative values that leave room in their field: the branch of the minus
sign is the only one that takes nothing from `size`.
-/

namespace Arm64OS

open CInt

/-- A value that is shown with a minus sign. -/
def Negative (num : U64) (type : Flags) : Prop := type.sign = true ∧ num.toInt < 0

instance (num : U64) (type : Flags) : Decidable (Negative num type) := by
  unfold Negative
  infer_instance

/-- The sign that a value is shown with. -/
def signText (num : U64) (type : Flags) : List Byte :=
  if Negative num type then [ch '-']
  else if type.sign && type.plus then [ch '+']
  else if type.sign && type.space then [ch ' ']
  else []

def magnitude (num : U64) (type : Flags) : U64 := if Negative num type then -num else num

/-- The digits of a value. -/
def valueText (num : U64) (base : Int) (type : Flags) : List Byte :=
  digitText type.small base.toNat (magnitude num type)

/-- How many characters a number needs: the sign, the mark, and the digits in their precision. -/
def contentLength (num : U64) (base precision : Int) (type : Flags) : Int :=
  (signText num type).length + (baseMark base type).length +
    max precision (valueText num base type).length

/-- The text is padding, sign, mark, zeros, digits and padding.  There are zeros up to the
precision, and more of them only as the padding that `ZEROPAD` asks for; blanks are in front, or
with `LEFT` behind. -/
structure FieldLayout (num : U64) (base precision : Int) (type : Flags) (text : List Byte)
    (before zeros behind : Nat) : Prop where
  text_eq : text = List.replicate before (ch ' ') ++ signText num type ++ baseMark base type ++
    List.replicate zeros (ch '0') ++ valueText num base type ++ List.replicate behind (ch ' ')
  precision_le : precision ≤ zeros + (valueText num base type).length
  before_eq : type.left = true ∨ type.zeropad = true → before = 0
  behind_eq : type.left = false → behind = 0
  zeros_eq : type.left = true ∨ type.zeropad = false →
    zeros = (precision - (valueText num base type).length).toNat

/-- What the sign takes from the field. -/
def signSize (num : U64) (type : Flags) : Nat :=
  if Negative num type then 0 else (signText num type).length

/-- What the width leaves for padding: a minus sign takes nothing from it. -/
def fieldRoom (num : U64) (base width precision : Int) (type : Flags) : Int :=
  width - signSize num type - (baseMark base type).length -
    max precision (valueText num base type).length

/-- The least that `size` may come to.  Each loop but the last decrements it once more than it
pads, and must not take it below the least `int`. -/
def leastSize (type : Flags) : Int :=
  if type.left then intMin else if type.zeropad then intMin + 1 else intMin + 2

/-- Either `size` does not come to less, or it has wrapped all the way to 0, -1 or -2. -/
def SizeFits (num : U64) (base width precision : Int) (type : Flags) : Prop :=
  leastSize type ≤ fieldRoom num base width precision type ∨
    fieldRoom num base width precision type ≤ 2 * intMin

instance (num : U64) (base width precision : Int) (type : Flags) :
    Decidable (SizeFits num base width precision type) := by
  unfold SizeFits
  infer_instance

/-- There are blanks between a sign or a mark and its digits: `size` has come to the least `int`,
and the loop in front has decremented it once. -/
structure Torn (num : U64) (base width precision : Int) (type : Flags) : Prop where
  left : type.left = false
  zeropad : type.zeropad = false
  room : fieldRoom num base width precision type = intMin
  shown : ∃ c ∈ signText num type ++ baseMark base type, c ≠ ch ' '

/-- `number` writes a text that is laid out so, exactly as wide as the field or as the number,
whichever is the wider. -/
def FillsField (num : U64) (base width precision : Int) (type : Flags) : Prop :=
  ∃ text before zeros behind, number num base width precision type = some text ∧
    FieldLayout num base precision type text before zeros behind ∧
    (text.length : Int) = max width (contentLength num base precision type)

/-! ## The sign -/

theorem signOf_eq (num : U64) {size : Int} (hsize : IsInt size) (type : Flags) :
    ∃ shown, signOf num size type =
        (shown, magnitude num type, wrapInt (size - signSize num type)) ∧
      shown.toList = signText num type := by
  unfold signOf magnitude signSize signText Negative
  by_cases hsign : type.sign = true
  · by_cases hneg : num.toInt < 0
    · exact ⟨some (ch '-'), by simp [hsign, hneg, wrapInt_of_isInt hsize]⟩
    · by_cases hplus : type.plus = true
      · exact ⟨some (ch '+'), by simp [hsign, hneg, hplus]⟩
      · by_cases hspace : type.space = true
        · exact ⟨some (ch ' '), by simp [hsign, hneg, hplus, hspace]⟩
        · exact ⟨none, by simp [hsign, hneg, hplus, hspace, wrapInt_of_isInt hsize]⟩
  · exact ⟨none, by simp [hsign, wrapInt_of_isInt hsize]⟩

theorem length_signText_of_negative {num : U64} {type : Flags} (h : Negative num type) :
    (signText num type).length = 1 := by
  unfold signText
  rw [if_pos h]
  rfl

theorem length_signText_le (num : U64) (type : Flags) : (signText num type).length ≤ 1 := by
  unfold signText
  split_ifs <;> decide

theorem length_baseMark_le (base : Int) (type : Flags) : (baseMark base type).length ≤ 2 := by
  unfold baseMark
  split_ifs <;> simp

/-! ## The padding -/

variable {num : U64} {base width precision : Int} {type : Flags}

theorem sizeLeft_eq (hwidth : IsInt width) :
    sizeLeft num base width precision type =
      wrapInt (fieldRoom num base width precision type) := by
  obtain ⟨shown, hsign, -⟩ := signOf_eq num hwidth type
  simp only [sizeLeft, hsign, fieldRoom, valueText, length_digitText]
  rw [sub_sub, wrapInt_wrapInt_sub, ← sub_sub]

/-- The padding is what is left of the width, and without end where a decrement wraps. -/
theorem sum_pads {size : Int} (hsize : IsInt size) (type : Flags) :
    (pads size type).front + (pads size type).inner + (pads size type).behind =
      size.toNat + if size < leastSize type then intMax else 0 := by
  unfold IsInt at hsize
  unfold pads leastSize intMin intMax
  split_ifs <;> simp <;> omega

theorem fieldRoom_ge (hbase : BaseOk base) (hwidth : IsInt width) (hprecision : IsInt precision) :
    2 * intMin - 2 ≤ fieldRoom num base width precision type := by
  have hlow : 2 ≤ base.toNat := by
    have := hbase.1
    omega
  have hdigits : (valueText num base type).length ≤ 64 := by
    rw [valueText, length_digitText]
    exact digitCount_le hlow _
  have hsign := length_signText_le num type
  have hmark := length_baseMark_le base type
  have hsize : signSize num type ≤ 1 := by
    unfold signSize
    split_ifs <;> omega
  unfold IsInt at hwidth hprecision
  unfold fieldRoom intMin
  omega

theorem fieldRoom_lt (hwidth : IsInt width) :
    fieldRoom num base width precision type < 2147483648 := by
  unfold IsInt at hwidth
  unfold fieldRoom
  omega

/-- The loops behind the sign do nothing but what `LEFT` and `ZEROPAD` ask them for. -/
theorem pads_of_sizeFits {size : Int} (hsize : leastSize type ≤ size) :
    (type.left = true ∨ type.zeropad = true → (pads size type).front = 0) ∧
      (type.left = true ∨ type.zeropad = false → (pads size type).inner = 0) ∧
      (type.left = false → (pads size type).behind = 0) := by
  unfold leastSize intMin at hsize
  unfold pads intMin intMax
  cases hleft : type.left with
  | true => simp
  | false =>
      cases hzeropad : type.zeropad with
      | true =>
          simp [hleft, hzeropad] at hsize ⊢
          omega
      | false =>
          simp [hleft, hzeropad] at hsize ⊢
          omega

theorem SizeFits.leastSize_le (hbase : BaseOk base) (hwidth : IsInt width)
    (hprecision : IsInt precision) (h : SizeFits num base width precision type) :
    leastSize type ≤ sizeLeft num base width precision type := by
  have hge := @fieldRoom_ge num _ _ _ type hbase hwidth hprecision
  have hlt := @fieldRoom_lt num base width precision type hwidth
  rw [sizeLeft_eq hwidth, wrapInt_def]
  rw [SizeFits] at h
  have hleast : intMin ≤ leastSize type ∧ leastSize type ≤ intMin + 2 := by
    unfold leastSize intMin
    split_ifs <;> omega
  unfold intMin at hleast h hge
  omega

theorem fieldRoom_of_sizeLeft (hbase : BaseOk base) (hwidth : IsInt width)
    (hprecision : IsInt precision) (h : sizeLeft num base width precision type = intMin) :
    fieldRoom num base width precision type = intMin := by
  have hge := @fieldRoom_ge num _ _ _ type hbase hwidth hprecision
  have hlt := @fieldRoom_lt num base width precision type hwidth
  rw [sizeLeft_eq hwidth, wrapInt_def] at h
  unfold intMin at *
  omega

/-! ## The layout -/

/-- The text with its three paddings. -/
theorem numberText_pads (hwidth : IsInt width) :
    numberText num base width precision type =
      (let p := pads (sizeLeft num base width precision type) type
       List.replicate p.front (ch ' ') ++ signText num type ++ baseMark base type ++
       List.replicate p.inner (if type.zeropad then ch '0' else ch ' ') ++
       List.replicate (precision - (valueText num base type).length).toNat (ch '0') ++
       valueText num base type ++ List.replicate p.behind (ch ' ')) := by
  obtain ⟨shown, hsign, hshown⟩ := signOf_eq num hwidth type
  rw [← hshown]
  simp only [numberText, hsign]
  rfl

theorem numberText_layout (hbase : BaseOk base) (hwidth : IsInt width)
    (hprecision : IsInt precision) (hfits : SizeFits num base width precision type) :
    ∃ before zeros behind, FieldLayout num base precision type
      (numberText num base width precision type) before zeros behind := by
  have hleast := hfits.leastSize_le hbase hwidth hprecision
  obtain ⟨hfront, hinner, hbehind⟩ := pads_of_sizeFits hleast
  rw [numberText_pads hwidth]
  obtain ⟨p, hp⟩ : ∃ p, pads (sizeLeft num base width precision type) type = p := ⟨_, rfl⟩
  obtain ⟨zeros, hzeros⟩ :
    ∃ zeros, (precision - (valueText num base type).length).toNat = zeros := ⟨_, rfl⟩
  rw [hp] at hfront hinner hbehind
  simp only [hp, hzeros]
  by_cases hnone : type.left = true ∨ type.zeropad = false
  · refine ⟨p.front, zeros, p.behind, ?_, by omega, hfront, hbehind, fun _ => hzeros.symm⟩
    rw [hinner hnone]
    simp
  · obtain ⟨hright, hzeropad⟩ : type.left = false ∧ type.zeropad = true := by simpa using hnone
    refine ⟨p.front, p.inner + zeros, p.behind, ?_, by omega, hfront, hbehind,
      fun h => absurd h hnone⟩
    rw [hzeropad]
    simp [List.replicate_add, -List.replicate_append_replicate]

/-- What the width leaves is what the number does not need, and one more for a minus sign. -/
theorem fieldRoom_eq :
    fieldRoom num base width precision type =
      width - contentLength num base precision type + if Negative num type then 1 else 0 := by
  unfold fieldRoom contentLength signSize
  split_ifs with hneg
  · have hone := length_signText_of_negative hneg
    omega
  · omega

theorem length_numberText_field (hwidth : IsInt width) :
    ((numberText num base width precision type).length : Int) =
      contentLength num base precision type +
        (sizeLeft num base width precision type).toNat +
        if sizeLeft num base width precision type < leastSize type then (intMax : Int) else 0 := by
  have hint : IsInt (sizeLeft num base width precision type) := by
    rw [sizeLeft_eq hwidth]
    exact isInt_wrapInt _
  have hsum := sum_pads hint type
  rw [numberText_pads hwidth]
  simp only [List.length_append, List.length_replicate, contentLength]
  split_ifs at hsum ⊢ <;> omega

/-- **The width of a number.**  The field is filled exactly, unless the value is negative and
its number is no wider than the field, or `size` is not to be counted down in an `int`. -/
theorem fillsField_iff (hbase : BaseOk base) (num : U64) (hwidth : IsInt width)
    (hprecision : IsInt precision) (type : Flags) :
    FillsField num base width precision type ↔
      ¬ (Negative num type ∧ contentLength num base precision type ≤ width) ∧
        SizeFits num base width precision type := by
  have hnumber := number_eq hbase num hwidth hprecision type
  have hlength := @length_numberText_field num base width precision type hwidth
  have hroom := @fieldRoom_eq num base width precision type
  have hge := @fieldRoom_ge num _ _ _ type hbase hwidth hprecision
  have hcontent : 0 < contentLength num base precision type := by
    have hdigits : (valueText num base type).length ≠ 0 := by
      rw [valueText, length_digitText]
      exact (digitCount_pos _ _).ne'
    unfold contentLength
    omega
  have hleast : intMin ≤ leastSize type ∧ leastSize type ≤ intMin + 2 := by
    unfold leastSize intMin
    split_ifs <;> omega
  -- what `size` comes to, in terms of the width
  have hsize := @sizeLeft_eq num base width precision type hwidth
  rw [wrapInt_def, hroom] at hsize
  rw [hroom] at hge
  unfold IsInt at hwidth
  unfold intMin at hleast hge
  constructor
  · rintro ⟨text, before, zeros, behind, htext, -, hexact⟩
    rw [hnumber] at htext
    obtain rfl := Option.some.inj htext
    rw [hexact] at hlength
    rw [SizeFits, hroom]
    unfold intMin
    unfold intMax at hlength
    by_cases hneg : Negative num type
    · simp only [hneg, if_true, true_and] at hsize hge ⊢
      split_ifs at hlength <;> omega
    · simp only [hneg, if_false, false_and, not_false_eq_true, true_and] at hsize hge ⊢
      split_ifs at hlength <;> omega
  · rintro ⟨hexact, hfits⟩
    obtain ⟨before, zeros, behind, hlayout⟩ :=
      numberText_layout hbase hwidth hprecision hfits
    have hnot := hfits.leastSize_le hbase hwidth hprecision
    refine ⟨_, before, zeros, behind, hnumber, hlayout, ?_⟩
    rw [if_neg (by omega)] at hlength
    rw [SizeFits, hroom] at hfits
    unfold intMin at hfits
    rw [hlength]
    by_cases hneg : Negative num type
    · simp only [hneg, if_true, true_and] at hsize hexact hfits
      omega
    · simp only [hneg, if_false] at hsize hfits
      omega

/-- 5 in a field of four characters. -/
theorem fillsField_five : FillsField 5 10 4 (-1) { Flags.zero with sign := true } :=
  (fillsField_iff (by decide) 5 (by decide) (by decide) { Flags.zero with sign := true }).mpr
    (by decide)

/-- -5 in the same field. -/
theorem minus_five_too_wide :
    number (-5) 10 4 (-1) { Flags.zero with sign := true } =
        some ([' ', ' ', ' ', '-', '5'].map ch) ∧
      ¬ FillsField (-5) 10 4 (-1) { Flags.zero with sign := true } := by
  have hnumber : number (-5) 10 4 (-1) { Flags.zero with sign := true } =
      some ([' ', ' ', ' ', '-', '5'].map ch) := by decide
  refine ⟨hnumber, ?_⟩
  rintro ⟨text, before, zeros, behind, htext, -, hexact⟩
  rw [hnumber] at htext
  obtain rfl := Option.some.inj htext
  exact absurd hexact (by decide)

end Arm64OS
