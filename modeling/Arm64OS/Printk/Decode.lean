import Arm64OS.Printk.NumberField
import Arm64OS.Printk.Segments

/-!
# Reading a printed number back

`decode` reads a numeral the way a reader of the log does: blanks, a sign, the mark of the
base, digits of that base, blanks.  `decode_numberText` says that it inverts `number`, and
`decode_output` that it gives back the argument of every conversion that prints a number.
-/

namespace Arm64OS

open CInt

/-- The value of a digit of either case, and 36 for a character that is none. -/
def digitValue (c : Byte) : Nat :=
  if isDigit c then c.toNat - 48
  else if ch 'a' ≤ c && c ≤ ch 'z' then c.toNat - 87
  else if ch 'A' ≤ c && c ≤ ch 'Z' then c.toNat - 55
  else 36

def isDigitOf (base : Nat) (c : Byte) : Bool := digitValue c < base

def isBlank (c : Byte) : Bool := c = ch ' '

/-- Behind a `0x` or a `0X`, where the base is 16.  The mark of base 8 is a digit. -/
def dropMark (base : Nat) : List Byte → List Byte
  | c :: d :: text =>
      if base = 16 ∧ c = ch '0' ∧ (d = ch 'x' ∨ d = ch 'X') then text else c :: d :: text
  | text => text

/-- Digits, at least one, with nothing but blanks behind them. -/
def readDigits (base : Nat) (text : List Byte) : Option Nat :=
  let digits := text.takeWhile (isDigitOf base)
  if digits ≠ [] ∧ (text.dropWhile (isDigitOf base)).all isBlank then
    some (Nat.ofDigits base (digits.map digitValue).reverse)
  else none

def decode (base : Nat) (text : List Byte) : Option Int :=
  let text := text.dropWhile isBlank
  if text.head? = some (ch '-') then
    (readDigits base (dropMark base text.tail)).map fun n => -(n : Int)
  else if text.head? = some (ch '+') then
    (readDigits base (dropMark base text.tail)).map fun n => (n : Int)
  else (readDigits base (dropMark base text)).map fun n => (n : Int)

/-! ## Digits -/

/-- What the characters of the digits are and are not. -/
theorem digitChar_plain (small : Bool) {d : Nat} (hd : d < 36) :
    digitValue (digitChar small d) = d ∧ isBlank (digitChar small d) = false ∧
      digitChar small d ≠ ch '-' ∧ digitChar small d ≠ ch '+' := by
  have hall : ∀ small, ∀ e ∈ List.range 36,
      digitValue (digitChar small e) = e ∧ isBlank (digitChar small e) = false ∧
        digitChar small e ≠ ch '-' ∧ digitChar small e ≠ ch '+' := by decide
  exact hall small d (List.mem_range.mpr hd)

theorem digitValue_digitChar (small : Bool) {d : Nat} (hd : d < 36) :
    digitValue (digitChar small d) = d := (digitChar_plain small hd).1

/-- The characters of a list of digits, most significant first. -/
def digitChars (small : Bool) (ds : List Nat) : List Byte := ds.map (digitChar small)

variable {base : Nat} {ds : List Nat}

theorem isDigitOf_digitChars (small : Bool) (hbase : base ≤ 36) (hds : ∀ d ∈ ds, d < base) :
    ∀ c ∈ digitChars small ds, isDigitOf base c := by
  intro c hc
  obtain ⟨d, hd, rfl⟩ := List.mem_map.1 hc
  have hlt := hds d hd
  simpa [isDigitOf, digitValue_digitChar small (hlt.trans_le hbase)] using hlt

theorem map_digitValue_digitChars (small : Bool) (hbase : base ≤ 36) (hds : ∀ d ∈ ds, d < base) :
    (digitChars small ds).map digitValue = ds := by
  rw [digitChars, List.map_map, List.map_congr_left, List.map_id]
  intro d hd
  exact digitValue_digitChar small ((hds d hd).trans_le hbase)

theorem isDigitOf_blank (hbase : base ≤ 36) : isDigitOf base (ch ' ') = false := by
  have hvalue : digitValue (ch ' ') = 36 := by decide
  simp [isDigitOf, hvalue, hbase]

theorem readDigits_digitChars (small : Bool) (hbase : base ≤ 36) (hds : ∀ d ∈ ds, d < base)
    (hne : ds ≠ []) (k : Nat) :
    readDigits base (digitChars small ds ++ List.replicate k (ch ' ')) =
      some (Nat.ofDigits base ds.reverse) := by
  have hdigits := isDigitOf_digitChars small hbase hds
  have hblanks : (List.replicate k (ch ' ')).takeWhile (isDigitOf base) = [] ∧
      (List.replicate k (ch ' ')).dropWhile (isDigitOf base) = List.replicate k (ch ' ') := by
    cases k with
    | zero => simp
    | succ k => simp [List.replicate_succ, isDigitOf_blank hbase]
  have hall : (List.replicate k (ch ' ')).all isBlank := by simp [isBlank]
  have hchars : digitChars small ds ≠ [] := by simpa [digitChars] using hne
  rw [readDigits, List.takeWhile_append_of_pos hdigits, List.dropWhile_append_of_pos hdigits,
    hblanks.1, hblanks.2, List.append_nil, if_pos ⟨hchars, hall⟩,
    map_digitValue_digitChars small hbase hds]

/-- A digit of base 16 is not the letter of the mark. -/
theorem dropMark_digitChars (small : Bool) (hbase : base ≤ 36) (hds : ∀ d ∈ ds, d < base)
    (k : Nat) :
    dropMark base (digitChars small ds ++ List.replicate k (ch ' ')) =
      digitChars small ds ++ List.replicate k (ch ' ') := by
  obtain ⟨text, htext⟩ : ∃ text, digitChars small ds ++ List.replicate k (ch ' ') = text :=
    ⟨_, rfl⟩
  rw [htext]
  match text with
  | [] => rfl
  | [c] => rfl
  | c :: d :: rest =>
      rw [dropMark, if_neg]
      rintro ⟨rfl, -, hletter⟩
      have hmem : d ∈ digitChars small ds ++ List.replicate k (ch ' ') := by simp [htext]
      have hnot : isDigitOf 16 d = false ∧ d ≠ ch ' ' := by
        have hboth : ∀ d ∈ [ch 'x', ch 'X'], isDigitOf 16 d = false ∧ d ≠ ch ' ' := by decide
        exact hboth d (by simpa using hletter)
      rcases List.mem_append.1 hmem with hd | hd
      · exact Bool.false_ne_true (hnot.1.symm.trans (isDigitOf_digitChars small hbase hds d hd))
      · exact hnot.2 (List.eq_of_mem_replicate hd)

/-! ## The text of `number` -/

/-- The digits of a magnitude, most significant first, as numbers. -/
def digitsOf (base : Nat) (num : U64) : List Nat :=
  if num = 0 then [0] else (Nat.digits base num.toNat).reverse

theorem digitText_eq (small : Bool) (base : Nat) (num : U64) :
    digitText small base num = digitChars small (digitsOf base num) := by
  unfold digitText digitsOf digitChars
  by_cases hzero : num = 0
  · rw [if_pos hzero, if_pos hzero]
    simp [digitChar, ch]
  · rw [if_neg hzero, if_neg hzero, List.map_reverse]

theorem digitsOf_lt (hbase : 2 ≤ base) (num : U64) : ∀ d ∈ digitsOf base num, d < base := by
  intro d hd
  unfold digitsOf at hd
  split at hd
  · obtain rfl := List.mem_singleton.1 hd
    omega
  · exact Nat.digits_lt_base hbase (List.mem_reverse.1 hd)

theorem digitsOf_ne_nil (base : Nat) (num : U64) : digitsOf base num ≠ [] := by
  unfold digitsOf
  split
  · simp
  · rename_i hzero
    have hpos : num.toNat ≠ 0 := fun h => hzero (BitVec.eq_of_toNat_eq h)
    simpa [Nat.digits_ne_nil_iff_ne_zero] using hpos

/-- Zeros in front do not change what is read. -/
theorem ofDigits_digitsOf (z : Nat) (num : U64) :
    Nat.ofDigits base (List.replicate z 0 ++ digitsOf base num).reverse = num.toNat := by
  rw [List.reverse_append, List.reverse_replicate, Nat.ofDigits_append_replicate_zero]
  unfold digitsOf
  split
  · rename_i hzero
    simp [hzero]
  · rw [List.reverse_reverse, Nat.ofDigits_digits]

/-- The mark of base 8 is one zero more, that of base 16 is dropped. -/
theorem readDigits_dropMark {b : Int} (hb : BaseOk b) (type : Flags) (num : U64) (z k : Nat) :
    readDigits b.toNat (dropMark b.toNat (baseMark b type ++
      (digitChars type.small (List.replicate z 0 ++ digitsOf b.toNat num) ++
        List.replicate k (ch ' ')))) = some num.toNat := by
  have hlow : 2 ≤ b.toNat := by
    have := hb.1
    omega
  have hhigh : b.toNat ≤ 36 := by
    have := hb.2
    omega
  have hds : ∀ z, ∀ d ∈ List.replicate z 0 ++ digitsOf b.toNat num, d < b.toNat := by
    intro z d hd
    rcases List.mem_append.1 hd with hd | hd
    · have := List.eq_of_mem_replicate hd
      omega
    · exact digitsOf_lt hlow num d hd
  have hne : ∀ z, List.replicate z 0 ++ digitsOf b.toNat num ≠ [] := by
    intro z h
    exact digitsOf_ne_nil _ _ (List.append_eq_nil_iff.1 h).2
  have hplain : ∀ z, readDigits b.toNat (dropMark b.toNat
      (digitChars type.small (List.replicate z 0 ++ digitsOf b.toNat num) ++
        List.replicate k (ch ' '))) = some num.toNat := by
    intro z
    rw [dropMark_digitChars _ hhigh (hds z), readDigits_digitChars _ hhigh (hds z) (hne z),
      ofDigits_digitsOf]
  unfold baseMark
  split_ifs with hspecial height hsixteen
  · have hzero : [ch '0'] = digitChars type.small [0] := by simp [digitChars, digitChar, ch]
    have hone := hplain (z + 1)
    rw [List.replicate_succ, List.cons_append, digitChars, List.map_cons] at hone
    rw [hzero]
    exact hone
  · obtain rfl : b = 16 := hsixteen
    have hletter : digitChar type.small 33 = ch 'x' ∨ digitChar type.small 33 = ch 'X' := by
      cases type.small <;> decide
    rw [List.cons_append, List.cons_append, List.nil_append, dropMark,
      if_pos ⟨rfl, rfl, hletter⟩, readDigits_digitChars _ hhigh (hds z) (hne z), ofDigits_digitsOf]
  · exact hplain z
  · exact hplain z

/-- Blanks, a sign and a numeral, which begins with a digit where no `-` or `+` is in front. -/
theorem decode_signed {body : List Byte} {r : Option Nat}
    (hbody : readDigits base (dropMark base body) = r) (pad : Nat) {sign : Option Byte}
    (hsign : sign ∈ [none, some (ch '-'), some (ch '+'), some (ch ' ')])
    (hhead : (∃ c, body.head? = some c ∧ isBlank c = false ∧ c ≠ ch '-' ∧ c ≠ ch '+') ∨
      sign = some (ch '-') ∨ sign = some (ch '+')) :
    decode base (List.replicate pad (ch ' ') ++ sign.toList ++ body) =
      r.map fun n : Nat => if sign = some (ch '-') then -(n : Int) else n := by
  have hblanks : ∀ text : List Byte,
      (List.replicate pad (ch ' ') ++ text).dropWhile isBlank = text.dropWhile isBlank := by
    intro text
    refine List.dropWhile_append_of_pos fun d hd => ?_
    rw [List.eq_of_mem_replicate hd]
    rfl
  have hbare : (∃ c, body.head? = some c ∧ isBlank c = false ∧ c ≠ ch '-' ∧ c ≠ ch '+') →
      body.dropWhile isBlank = body ∧ body.head? ≠ some (ch '-') ∧
        body.head? ≠ some (ch '+') := by
    rintro ⟨c, hc, hblank, hminus, hplus⟩
    cases body with
    | nil => cases hc
    | cons d rest =>
        obtain rfl : d = c := Option.some.inj hc
        exact ⟨by simp [hblank], by simpa using hminus, by simpa using hplus⟩
  have hplus : ch '+' ≠ ch '-' := by decide
  have hspace : ch ' ' ≠ ch '-' := by decide
  simp only [List.mem_cons, List.not_mem_nil, or_false] at hsign
  rw [decode, List.append_assoc, hblanks]
  rcases hsign with rfl | rfl | rfl | rfl
  · obtain ⟨hdrop, hhead⟩ := hbare (hhead.resolve_right (by simp))
    rw [Option.toList_none, List.nil_append, hdrop, if_neg hhead.1, if_neg hhead.2, hbody]
    cases r <;> simp
  · have hdrop : ([ch '-'] ++ body).dropWhile isBlank = ch '-' :: body := rfl
    rw [Option.toList_some, hdrop, if_pos List.head?_cons, List.tail_cons, hbody]
    cases r <;> simp
  · have hdrop : ([ch '+'] ++ body).dropWhile isBlank = ch '+' :: body := rfl
    rw [Option.toList_some, hdrop, if_neg (by simpa using hplus), if_pos List.head?_cons,
      List.tail_cons, hbody]
    cases r <;> simp [hplus]
  · have hskip : ([ch ' '] ++ body).dropWhile isBlank = body.dropWhile isBlank := rfl
    have hnot : some (ch ' ') ≠ some (ch '-') ∧ some (ch ' ') ≠ some (ch '+') := by decide
    obtain ⟨hdrop, hhead⟩ := hbare (hhead.resolve_right (by simpa using hnot))
    rw [Option.toList_some, hskip, hdrop, if_neg hhead.1, if_neg hhead.2, hbody]
    cases r <;> simp [hspace]

/-- The sign and the magnitude stand for the number, the most negative one included. -/
theorem signOf_value (num : U64) (size : Int) (type : Flags) :
    (signOf num size type).1 ∈ [none, some (ch '-'), some (ch '+'), some (ch ' ')] ∧
      (if (signOf num size type).1 = some (ch '-') then -((signOf num size type).2.1.toNat : Int)
        else (signOf num size type).2.1.toNat) =
          if type.sign then num.toInt else (num.toNat : Int) := by
  have hplus : ch '+' ≠ ch '-' := by decide
  have hspace : ch ' ' ≠ ch '-' := by decide
  have hpositive : ¬ num.toInt < 0 → num.toInt = (num.toNat : Int) := by
    intro hneg
    rw [BitVec.toInt_eq_toNat_cond] at hneg ⊢
    split at hneg <;> split <;> omega
  have hnegative : num.toInt < 0 → -((-num).toNat : Int) = num.toInt := by
    intro hneg
    have hlt := num.isLt
    rw [BitVec.toNat_neg]
    rw [BitVec.toInt_eq_toNat_cond] at hneg ⊢
    split at hneg <;> split <;> omega
  unfold signOf
  cases type.sign with
  | false => simp
  | true =>
      by_cases hneg : num.toInt < 0
      · simp only [if_true, if_pos hneg]
        exact ⟨by simp, hnegative hneg⟩
      · simp only [if_true, if_neg hneg]
        cases type.plus with
        | true => simp [hplus, hpositive hneg]
        | false =>
            cases type.space with
            | true => simp [hspace, hpositive hneg]
            | false => simp [hpositive hneg]

/-- Zeros and digits, and blanks behind them. -/
theorem digits_eq {b : Int} (num : U64) (type : Flags) (zeros behind : Nat) :
    digitChars type.small (List.replicate zeros 0 ++ digitsOf b.toNat num) ++
        List.replicate behind (ch ' ') =
      List.replicate zeros (ch '0') ++ digitText type.small b.toNat num ++
        List.replicate behind (ch ' ') := by
  have hzeros : List.replicate zeros (ch '0') = digitChars type.small (List.replicate zeros 0) := by
    simp [digitChars, digitChar, ch]
  rw [hzeros, digitText_eq, digitChars, List.map_append]
  rfl

variable {b size precision : Int} {num : U64} {type : Flags}

/-- The text of `number` as `decode` takes it apart: blanks between the sign and the digits stand
where nothing else does. -/
theorem numberText_eq (hb : BaseOk b) (hsize : IsInt size) (hprecision : IsInt precision)
    (htorn : ¬ Torn num b size precision type) :
    ∃ pad sign mark z k, numberText num b size precision type =
      List.replicate pad (ch ' ') ++ sign.toList ++ (mark ++
        (digitChars type.small (List.replicate z 0 ++
            digitsOf b.toNat (signOf num size type).2.1) ++
          List.replicate k (ch ' '))) ∧
      (sign = (signOf num size type).1 ∧ mark = baseMark b type ∨
        (signOf num size type).1 ≠ some (ch '-') ∧ sign = none ∧ mark = []) := by
  obtain ⟨shown, hsign, hshown⟩ := signOf_eq num hsize type
  obtain ⟨zeros, hzeros⟩ :
    ∃ zeros, (precision - (valueText num b type).length).toNat = zeros := ⟨_, rfl⟩
  obtain ⟨p, hp⟩ : ∃ p, pads (sizeLeft num b size precision type) type = p := ⟨_, rfl⟩
  rw [numberText_pads hsize, hsign]
  simp only [hp, hzeros, digits_eq]
  by_cases hblank : type.left = false ∧ type.zeropad = false ∧ p.inner ≠ 0
  · obtain ⟨hleft, hzeropad, hinner⟩ := hblank
    have hmin : sizeLeft num b size precision type = intMin := by
      by_contra hne
      rw [← hp] at hinner
      simp [pads, hleft, hzeropad, hne] at hinner
    have hroom := fieldRoom_of_sizeLeft hb hsize hprecision hmin
    -- what is shown is blank, and so are all the characters in front of the digits
    have hall : ∀ c ∈ signText num type ++ baseMark b type, c = ch ' ' := by
      by_contra hshow
      push Not at hshow
      exact htorn ⟨hleft, hzeropad, hroom, hshow⟩
    have hsame := List.eq_replicate_of_mem hall
    refine ⟨p.front + ((signText num type ++ baseMark b type).length + p.inner), none, [], zeros,
      p.behind, ?_, Or.inr ⟨?_, rfl, rfl⟩⟩
    · rw [List.replicate_add, List.replicate_add, ← hsame, hzeropad]
      simp [valueText]
    · rintro rfl
      have hminus := hall (ch '-') (by simp [← hshown])
      exact absurd hminus (by decide)
  · refine ⟨p.front, shown, baseMark b type, p.inner + zeros, p.behind, ?_, Or.inl ⟨rfl, rfl⟩⟩
    have hpad : List.replicate p.inner (if type.zeropad then ch '0' else ch ' ') =
        List.replicate p.inner (ch '0') := by
      cases hzeropad : type.zeropad with
      | true => rfl
      | false =>
          have hnone : p.inner = 0 := by
            cases hleft : type.left with
            | true => rw [← hp]; simp [pads, hleft]
            | false => simpa [hleft, hzeropad] using hblank
          rw [hnone]
          rfl
    rw [hpad, hshown, List.replicate_add]
    simp [valueText]

/-- The mark and the digits begin with a digit. -/
theorem head_mark_digits {b : Int} (hb : BaseOk b) (type : Flags) (num : U64) (z : Nat)
    (rest : List Byte) :
    ∃ c, (baseMark b type ++
        (digitChars type.small (List.replicate z 0 ++ digitsOf b.toNat num) ++ rest)).head? =
          some c ∧ isBlank c = false ∧ c ≠ ch '-' ∧ c ≠ ch '+' := by
  have hlow : 2 ≤ b.toNat := by
    have := hb.1
    omega
  have hhigh : b.toNat ≤ 36 := by
    have := hb.2
    omega
  have hzero := digitChar_plain type.small (d := 0) (by decide)
  have hch : digitChar type.small 0 = ch '0' := by simp [digitChar, ch]
  rw [hch] at hzero
  have hdigits : ∃ c, (digitChars type.small (List.replicate z 0 ++ digitsOf b.toNat num) ++
      rest).head? = some c ∧ isBlank c = false ∧ c ≠ ch '-' ∧ c ≠ ch '+' := by
    cases z with
    | succ z => exact ⟨_, rfl, by rw [hch]; exact hzero.2⟩
    | zero =>
        cases hds : digitsOf b.toNat num with
        | nil => exact absurd hds (digitsOf_ne_nil _ _)
        | cons d ds =>
            have hlt := digitsOf_lt hlow num d (by simp [hds])
            exact ⟨_, rfl, (digitChar_plain type.small (hlt.trans_le hhigh)).2⟩
  unfold baseMark
  split_ifs
  · exact ⟨_, rfl, hzero.2⟩
  · exact ⟨_, rfl, hzero.2⟩
  · exact hdigits
  · exact hdigits

/-- **What `number` prints can be read back.** -/
theorem decode_numberText (hb : BaseOk b) (hsize : IsInt size) (hprecision : IsInt precision)
    (htorn : ¬ Torn num b size precision type) :
    decode b.toNat (numberText num b size precision type) =
      some (if type.sign then num.toInt else num.toNat) := by
  obtain ⟨pad, sign, mark, z, k, htext, hshown⟩ := numberText_eq hb hsize hprecision htorn
  obtain ⟨hsign, hvalue⟩ := signOf_value num size type
  rcases hshown with ⟨rfl, rfl⟩ | ⟨hminus, rfl, rfl⟩
  · have hread := readDigits_dropMark hb type (signOf num size type).2.1 z k
    obtain ⟨c, hhead, hc⟩ := head_mark_digits hb type (signOf num size type).2.1 z
      (List.replicate k (ch ' '))
    rw [htext, decode_signed hread pad hsign (Or.inl ⟨c, hhead, hc⟩), Option.map_some, hvalue]
  · have hplain : baseMark b { type with special := false } = [] := rfl
    have hread := readDigits_dropMark hb { type with special := false }
      (signOf num size type).2.1 z k
    obtain ⟨c, hhead, hc⟩ := head_mark_digits hb { type with special := false }
      (signOf num size type).2.1 z (List.replicate k (ch ' '))
    rw [hplain] at hread hhead
    rw [if_neg hminus] at hvalue
    have hdecode := @decode_signed b.toNat _ _ hread pad none (by simp) (Or.inl ⟨c, hhead, hc⟩)
    rw [htext]
    simpa [hvalue] using hdecode

/-- Digits behind blanks are not read. -/
theorem readDigits_blank (hbase : base ≤ 36) (text : List Byte) :
    readDigits base (ch ' ' :: text) = none := by
  simp [readDigits, isDigitOf_blank hbase]

/-- The mark of a number that is torn apart has nothing but blanks behind it, and then digits. -/
theorem readDigits_torn (hb : BaseOk b) (type : Flags) (blanks : Nat) {rest : List Byte}
    (hrest : ∃ c ∈ rest, isBlank c = false) :
    readDigits b.toNat (dropMark b.toNat
      (baseMark b type ++ (ch ' ' :: List.replicate blanks (ch ' ') ++ rest))) = none := by
  have hhigh : b.toNat ≤ 36 := by
    have := hb.2
    omega
  have hspace : ch ' ' ≠ ch '0' := by decide
  have hplain : ∀ text, dropMark b.toNat (ch ' ' :: text) = ch ' ' :: text := by
    intro text
    cases text with
    | nil => rfl
    | cons d text => rw [dropMark, if_neg fun h => hspace h.2.1]
  unfold baseMark
  split_ifs with hspecial height hsixteen
  · -- the mark of base 8 is a digit by itself
    have hzero : isDigitOf b.toNat (ch '0') = true := by rw [height]; decide
    have hdrop : dropMark b.toNat
        ([ch '0'] ++ (ch ' ' :: List.replicate blanks (ch ' ') ++ rest)) =
          ch '0' :: ch ' ' :: (List.replicate blanks (ch ' ') ++ rest) := by
      rw [List.singleton_append, List.cons_append, dropMark]
      exact if_neg fun h => absurd h.2.2 (by decide)
    obtain ⟨c, hc, hne⟩ := hrest
    rw [hdrop, readDigits, if_neg]
    rintro ⟨-, hall⟩
    simp [hzero, isDigitOf_blank hhigh] at hall
    exact Bool.false_ne_true (hne.symm.trans (hall.2.2 c hc))
  · have hletter : digitChar type.small 33 = ch 'x' ∨ digitChar type.small 33 = ch 'X' := by
      cases type.small <;> decide
    have hbase : b.toNat = 16 := by rw [hsixteen]; rfl
    rw [List.cons_append, List.cons_append, List.nil_append, dropMark, if_pos ⟨hbase, rfl, hletter⟩]
    exact readDigits_blank hhigh _
  · rw [List.nil_append, List.cons_append, hplain]
    exact readDigits_blank hhigh _
  · rw [List.nil_append, List.cons_append, hplain]
    exact readDigits_blank hhigh _

/-- A number that is torn apart is not read back. -/
theorem decode_torn (hb : BaseOk b) (hsize : IsInt size) (h : Torn num b size precision type) :
    decode b.toNat (numberText num b size precision type) = none := by
  have hsizeLeft : sizeLeft num b size precision type = intMin := by
    rw [sizeLeft_eq hsize, h.room]
    decide
  have hpads : pads intMin type = ⟨0, intMax, 0⟩ := by
    simp [pads, h.left, h.zeropad, intMin]
  obtain ⟨blanks, hblanks⟩ : ∃ blanks, intMax = blanks + 1 := ⟨_, rfl⟩
  obtain ⟨rest, hrest⟩ : ∃ rest, List.replicate (precision - (valueText num b type).length).toNat
      (ch '0') ++ valueText num b type = rest := ⟨_, rfl⟩
  have hdigit : ∃ c ∈ rest, isBlank c = false := by
    obtain ⟨c, hhead, hc, -⟩ := head_mark_digits hb { type with special := false }
      (magnitude num type) 0 []
    refine ⟨c, ?_, hc⟩
    rw [← hrest, valueText, digitText_eq]
    exact List.mem_append_right _ (List.mem_of_mem_head? (by simpa [baseMark] using hhead))
  -- between the sign or the mark and the digits stand blanks
  have hbody := readDigits_torn hb type blanks hdigit
  have htext : numberText num b size precision type = signText num type ++
      (baseMark b type ++ (ch ' ' :: List.replicate blanks (ch ' ') ++ rest)) := by
    rw [numberText_pads hsize, hsizeLeft, hpads]
    simp [h.zeropad, hblanks, List.replicate_succ, ← hrest]
  obtain ⟨shown, hsign, hshown⟩ := signOf_eq num hsize type
  have hin := (signOf_value num size type).1
  rw [hsign] at hin
  have hdecode := @decode_signed b.toNat _ none hbody 0 shown hin
  rw [htext, ← hshown]
  refine hdecode ?_
  have hzero : isBlank (ch '0') = false ∧ ch '0' ≠ ch '-' ∧ ch '0' ≠ ch '+' := by decide
  obtain ⟨c, hc, hne⟩ := h.shown
  rcases List.mem_append.1 hc with hc | hc
  · rw [← hshown, Option.mem_toList] at hc
    obtain rfl : shown = some c := hc
    right
    simpa [hne] using hin
  · -- the mark begins with a zero
    left
    unfold baseMark at hc ⊢
    split_ifs at hc ⊢
    · exact ⟨_, rfl, hzero⟩
    · exact ⟨_, rfl, hzero⟩
    · cases hc
    · cases hc

/-! ## The conversions that print a number -/

/-- Their letters. -/
def numberLetters : List Byte := ['d', 'i', 'u', 'o', 'x', 'X', 'p'].map ch

/-- The base that a letter stands for. -/
def letterBase (c : Byte) : Nat :=
  if c = ch 'o' then 8
  else if c = ch 'x' ∨ c = ch 'X' ∨ c = ch 'p' then 16
  else 10

/-- An argument as the `int`, `short` or `long` that the qualifier names. -/
def Qualifier.toSigned (q : Qualifier) (v : U64) : Int :=
  match q with
  | .none => (v.setWidth 32).toInt
  | .h => (v.setWidth 16).toInt
  | .l | .L => v.toInt

/-- The same without a sign. -/
def Qualifier.toUnsigned (q : Qualifier) (v : U64) : Int :=
  match q with
  | .none => (v.setWidth 32).toNat
  | .h => (v.setWidth 16).toNat
  | .l | .L => v.toNat

/-- The argument after the C conversion that the qualifier names. -/
def namedValue (q : Qualifier) (c : Byte) (v : U64) : Int :=
  if c = ch 'd' ∨ c = ch 'i' then q.toSigned v else q.toUnsigned v

/-- What is printed of an argument: a pointer has no qualifier, all of it is printed. -/
def printedValue (q : Qualifier) (c : Byte) (v : U64) : Int :=
  if c = ch 'p' then v.toNat else namedValue q c v

theorem integerArg_signed (q : Qualifier) {flags : Flags} (hsign : flags.sign = true) (v : U64) :
    (integerArg q flags v).toInt = q.toSigned v := by
  cases q with
  | none => simp [integerArg, hsign, Qualifier.toSigned, BitVec.toInt_signExtend_of_le]
  | h => simp [integerArg, hsign, Qualifier.toSigned, BitVec.toInt_signExtend_of_le]
  | l => rfl
  | L => rfl

theorem integerArg_unsigned (q : Qualifier) {flags : Flags} (hsign : flags.sign = false)
    (v : U64) : ((integerArg q flags v).toNat : Int) = q.toUnsigned v := by
  have hmod : ∀ n : Nat, n % 65536 % 18446744073709551616 = n % 65536 := by
    intro n
    omega
  have hmod' : ∀ n : Nat, n % 4294967296 % 18446744073709551616 = n % 4294967296 := by
    intro n
    omega
  cases q with
  | none => simp [integerArg, hsign, Qualifier.toUnsigned, hmod']
  | h => simp [integerArg, hsign, Qualifier.toUnsigned, hmod]
  | l => rfl
  | L => rfl

/-- No flag of a format is `SIGN`. -/
theorem foldl_addFlag_sign (text : List Byte) (flags : Flags) :
    (text.foldl addFlag flags).sign = flags.sign := by
  induction text generalizing flags with
  | nil => rfl
  | cons c text ih =>
      have hadd : (addFlag flags c).sign = flags.sign := by
        unfold addFlag
        split_ifs <;> rfl
      rw [List.foldl_cons, ih, hadd]

theorem Conversion.widthAt_sign (conv : Conversion) (args : VaList) (i : Nat) :
    (conv.directive.widthAt args i).2.sign = false := by
  have hkeep : ∀ (field : Field) (w : Int) (flags : Flags),
      (widthFlags field w flags).2.sign = flags.sign := by
    intro field w flags
    unfold widthFlags
    split
    · split <;> rfl
    · rfl
  rw [Directive.widthAt, hkeep, foldl_addFlag_sign]
  rfl

/-- The arguments of a call of `number`. -/
structure NumberArgs where
  num : U64
  base : Int
  size : Int
  precision : Int
  type : Flags

/-- What a conversion that prints a number gives `number`. -/
def numberArgs (flags : Flags) (w p : Int) (q : Qualifier) (c : Byte) (v : U64) : NumberArgs :=
  if c = ch 'p' then
    if w = -1 then ⟨v, 16, 16, p, { flags with zeropad := true }⟩ else ⟨v, 16, w, p, flags⟩
  else if c = ch 'd' ∨ c = ch 'i' then
    ⟨integerArg q { flags with sign := true } v, 10, w, p, { flags with sign := true }⟩
  else if c = ch 'o' then ⟨integerArg q flags v, 8, w, p, flags⟩
  else if c = ch 'x' then
    ⟨integerArg q { flags with small := true } v, 16, w, p, { flags with small := true }⟩
  else if c = ch 'X' then ⟨integerArg q flags v, 16, w, p, flags⟩
  else ⟨integerArg q flags v, 10, w, p, flags⟩

def NumberArgs.text (a : NumberArgs) : List Byte :=
  numberText a.num a.base a.size a.precision a.type

def NumberArgs.Torn (a : NumberArgs) : Prop := Arm64OS.Torn a.num a.base a.size a.precision a.type

variable {c : Byte} {flags : Flags} {w p : Int}

theorem convertOutcome_number (hc : c ∈ numberLetters) (args : VaList) (q : Qualifier)
    (base : Int) (v : U64) :
    (convertOutcome args flags w p q c base v).text = (numberArgs flags w p q c v).text := by
  have hinteger := fun (b : Int) (hb : BaseOk b) num flags =>
    congrArg Outcome.text (integerOutcome_text hb num w p flags)
  simp only [numberLetters, List.map_cons, List.map_nil, List.mem_cons, List.not_mem_nil,
    or_false] at hc
  rcases hc with rfl | rfl | rfl | rfl | rfl | rfl | rfl
  · exact hinteger 10 (by decide) _ _
  · exact hinteger 10 (by decide) _ _
  · exact hinteger 10 (by decide) _ _
  · exact hinteger 8 (by decide) _ _
  · exact hinteger 16 (by decide) _ _
  · exact hinteger 16 (by decide) _ _
  · change pointerText flags w p v = NumberArgs.text (if w = -1 then _ else _)
    unfold pointerText
    split <;> rfl

theorem numberArgs_base (hc : c ∈ numberLetters) (q : Qualifier) (v : U64) :
    BaseOk (numberArgs flags w p q c v).base ∧
      (numberArgs flags w p q c v).base.toNat = letterBase c := by
  simp only [numberLetters, List.map_cons, List.map_nil, List.mem_cons, List.not_mem_nil,
    or_false] at hc
  have hten : BaseOk 10 := by decide
  have height : BaseOk 8 := by decide
  have hsixteen : BaseOk 16 := by decide
  rcases hc with rfl | rfl | rfl | rfl | rfl | rfl | rfl
  · exact ⟨hten, rfl⟩
  · exact ⟨hten, rfl⟩
  · exact ⟨hten, rfl⟩
  · exact ⟨height, rfl⟩
  · exact ⟨hsixteen, rfl⟩
  · exact ⟨hsixteen, rfl⟩
  · change BaseOk (NumberArgs.base (if w = -1 then _ else _)) ∧
      (NumberArgs.base (if w = -1 then _ else _)).toNat = 16
    split
    · exact ⟨hsixteen, rfl⟩
    · exact ⟨hsixteen, rfl⟩

theorem numberArgs_isInt (hw : IsInt w) (hp : IsInt p) (q : Qualifier) (v : U64) :
    IsInt (numberArgs flags w p q c v).size ∧ IsInt (numberArgs flags w p q c v).precision := by
  have hsixteen : IsInt 16 := by decide
  unfold numberArgs
  split_ifs
  · exact ⟨hsixteen, hp⟩
  all_goals exact ⟨hw, hp⟩

/-- The number is the argument as the letter and the qualifier read it. -/
theorem numberArgs_value (hc : c ∈ numberLetters) (hsign : flags.sign = false) (q : Qualifier)
    (v : U64) :
    (if (numberArgs flags w p q c v).type.sign then (numberArgs flags w p q c v).num.toInt
      else ((numberArgs flags w p q c v).num.toNat : Int)) = printedValue q c v := by
  have hsigned : (if (true : Bool) then (integerArg q { flags with sign := true } v).toInt
      else ((integerArg q { flags with sign := true } v).toNat : Int)) = q.toSigned v := by
    rw [if_pos rfl, integerArg_signed q rfl]
  have hunsigned : ∀ flags : Flags, flags.sign = false →
      (if flags.sign then (integerArg q flags v).toInt else ((integerArg q flags v).toNat : Int)) =
        q.toUnsigned v := by
    intro flags hsign
    rw [if_neg (by simp [hsign]), integerArg_unsigned q hsign]
  simp only [numberLetters, List.map_cons, List.map_nil, List.mem_cons, List.not_mem_nil,
    or_false] at hc
  rcases hc with rfl | rfl | rfl | rfl | rfl | rfl | rfl
  · exact hsigned
  · exact hsigned
  · exact hunsigned flags hsign
  · exact hunsigned flags hsign
  · exact hunsigned { flags with small := true } hsign
  · exact hunsigned flags hsign
  · by_cases hw : w = -1
    · simp [numberArgs, hw, hsign, printedValue]
    · simp [numberArgs, hw, hsign, printedValue]

theorem decode_numberArgs (hc : c ∈ numberLetters) (hsign : flags.sign = false) (hw : IsInt w)
    (hp : IsInt p) (q : Qualifier) (v : U64) (htorn : ¬ (numberArgs flags w p q c v).Torn) :
    decode (letterBase c) (numberArgs flags w p q c v).text = some (printedValue q c v) := by
  obtain ⟨hb, hbase⟩ := @numberArgs_base c flags w p hc q v
  obtain ⟨hsize, hprecision⟩ := @numberArgs_isInt c flags w p hw hp q v
  rw [← hbase, NumberArgs.text, decode_numberText hb hsize hprecision htorn,
    numberArgs_value hc hsign]

/-- What the conversion gives `number` of the argument `i`. -/
def Conversion.numberArgs (conv : Conversion) (args : VaList) (i : Nat) : NumberArgs :=
  Arm64OS.numberArgs (conv.directive.widthAt args i).2 (conv.directive.widthAt args i).1
    (conv.directive.precisionAt args i) (qualifierOf conv.qualifier) conv.letter (args.slot i)

/-- Its output on its own is the text of that call. -/
theorem Conversion.output_number (conv : Conversion) (hletter : conv.letter ∈ numberLetters)
    (args : VaList) (string : U64) (base : Int) (i : Nat) :
    conv.output args string base i = some (conv.numberArgs args i).text := by
  rw [conv.output_eq, Directive.outcome, conv.valueAt_directive]
  exact congrArg some (convertOutcome_number hletter args _ base _)

/-- **Every conversion that prints a number can be read back**, whatever its flags, its width,
its precision and its qualifier, unless the number is torn apart: what is read is the argument as
the qualifier names it, or the whole of a pointer. -/
theorem decode_output (conv : Conversion) (hletter : conv.letter ∈ numberLetters) (args : VaList)
    (string : U64) (base : Int) (i : Nat) (htorn : ¬ (conv.numberArgs args i).Torn) :
    ∃ text, conv.output args string base i = some text ∧
      decode (letterBase conv.letter) text =
        some (printedValue (qualifierOf conv.qualifier) conv.letter (args.slot i)) :=
  ⟨_, conv.output_number hletter args string base i,
    decode_numberArgs hletter (conv.widthAt_sign args i) (conv.directive.isInt_widthAt args i)
      (conv.directive.isInt_precisionAt args i) _ _ htorn⟩

/-- `%-+#8.3ld`. -/
def Conversion.signedLong : Conversion where
  flags := [ch '-', ch '+', ch '#']
  width := [ch '8']
  precision := some [ch '3']
  qualifier := [ch 'l']
  letter := ch 'd'
  flags_ok := by decide
  width_ok := by decide
  width_head := by decide
  precision_ok := by decide
  qualifier_ok := by decide
  letter_ok := d_mem_letters

/-- The most negative `long`. -/
theorem decode_output_min :
    Conversion.signedLong.letter ∈ numberLetters ∧
      ∃ text, Conversion.signedLong.output ⟨fun _ => 0x8000000000000000#64, fun _ => []⟩
          0xffff0000000b0000#64 0 0 = some text ∧
        decode 10 text = some (-9223372036854775808) :=
  ⟨by decide, decode_output .signedLong (by decide) _ _ _ _ fun h => absurd h.left (by decide)⟩

/-- `%hp`. -/
def Conversion.shortPointer : Conversion where
  flags := []
  width := []
  precision := none
  qualifier := [ch 'h']
  letter := ch 'p'
  flags_ok := flags_ok_nil
  width_ok := width_ok_nil
  width_head := width_head_nil
  precision_ok := precision_ok_none
  qualifier_ok := by decide
  letter_ok := by decide

/-- `%.2147483647d`. -/
def Conversion.greatPrecision : Conversion where
  flags := []
  width := []
  precision := some (['2', '1', '4', '7', '4', '8', '3', '6', '4', '7'].map ch)
  qualifier := []
  letter := ch 'd'
  flags_ok := flags_ok_nil
  width_ok := width_ok_nil
  width_head := width_head_nil
  precision_ok := by decide
  qualifier_ok := nil_mem_qualifiers
  letter_ok := d_mem_letters

/-- The argument -5. -/
def VaList.minusFive : VaList := ⟨fun _ => 0xfffffffffffffffb#64, fun _ => []⟩

theorem torn_minusFive : (Conversion.greatPrecision.numberArgs .minusFive 0).Torn where
  left := by decide
  zeropad := by decide
  room := by decide +kernel
  shown := ⟨ch '-', by decide, by decide⟩

/-- `%hp` prints more than the `unsigned short` of its argument; and `%.2147483647d` puts blanks
between the minus sign and the digits of -5. -/
theorem not_read_back :
    (¬ ∃ text, Conversion.shortPointer.output ⟨fun _ => 0x12345#64, fun _ => []⟩
        0xffff0000000b0000#64 0 0 = some text ∧
      decode (letterBase Conversion.shortPointer.letter) text =
        some (namedValue (qualifierOf Conversion.shortPointer.qualifier)
          Conversion.shortPointer.letter 0x12345#64)) ∧
    ¬ ∃ text, Conversion.greatPrecision.output .minusFive 0xffff0000000b0000#64 0 0 = some text ∧
      decode 10 text = some (-5) := by
  constructor
  · have hrun : Conversion.shortPointer.output ⟨fun _ => 0x12345#64, fun _ => []⟩
        0xffff0000000b0000#64 0 0 = some ("0000000000012345".toList.map ch) := by
      decide +kernel
    rintro ⟨text, htext, hdecode⟩
    rw [hrun] at htext
    obtain rfl := Option.some.inj htext
    exact absurd hdecode (by decide +kernel)
  · rintro ⟨text, htext, hdecode⟩
    rw [Conversion.output_number _ (by decide)] at htext
    obtain rfl := Option.some.inj htext
    have hnone := decode_torn (by decide) (by decide) torn_minusFive
    exact absurd (hnone.symm.trans hdecode) (by simp)

end Arm64OS
