import Mathlib.Tactic

/-!
# The `int` of C

An `int` has 32 bits, and its arithmetic wraps.  It is kept as the integer that it stands for,
and `wrapInt` takes a sum or a difference back to one.

Below that are the two loops that count an `int` down and put a value for each step.
`padLoop_eq` and `padDownLoop_eq` say what they put and what they leave of the `int`: once its
value is down at the least `int` the decrement wraps, and the loop behind starts from the
greatest.
-/

namespace CInt

/-- A value as it is kept in an `int`. -/
def wrapInt (x : Int) : Int := x.bmod 4294967296

def intMin : Int := -2147483648

def intMax : Nat := 2147483647

/-- `x` is the value of an `int`. -/
def IsInt (x : Int) : Prop := -2147483648 ≤ x ∧ x < 2147483648

instance (x : Int) : Decidable (IsInt x) := by
  unfold IsInt
  infer_instance

theorem wrapInt_def (x : Int) :
    wrapInt x = (x + 2147483648) % 4294967296 - 2147483648 := by
  rw [wrapInt, Int.bmod_def]
  split <;> omega

theorem isInt_wrapInt (x : Int) : IsInt (wrapInt x) := by
  rw [IsInt, wrapInt_def]
  omega

theorem wrapInt_of_isInt {x : Int} (hx : IsInt x) : wrapInt x = x := by
  rw [IsInt] at hx
  rw [wrapInt_def]
  omega

/-- It is enough to wrap the last difference. -/
@[simp] theorem wrapInt_wrapInt_sub (x y : Int) : wrapInt (wrapInt x - y) = wrapInt (x - y) := by
  simp only [wrapInt_def]
  omega

/-- One step below the least `int`. -/
theorem wrapInt_sub_one {x : Int} (hx : IsInt x) :
    wrapInt (x - 1) = if x = intMin then (intMax : Int) else x - 1 := by
  rw [IsInt] at hx
  rw [wrapInt_def]
  unfold intMin intMax
  split <;> omega

/-! ## Loops that count down -/

variable {α : Type*}

/-- `while (bound < x--) *p++ = c`: what is put, and `x` behind the loop. -/
def padLoop (c : α) (bound : Int) : (fuel : Nat) → (x : Int) → Option (List α × Int)
  | 0, _ => none
  | fuel + 1, x =>
      if bound < x then do
        let (text, x) ← padLoop c bound fuel (wrapInt (x - 1))
        some (c :: text, x)
      else some ([], wrapInt (x - 1))

/-- `while (--x > 0) *p++ = c`: what is put, and `x` behind the loop. -/
def padDownLoop (c : α) : (fuel : Nat) → (x : Int) → Option (List α × Int)
  | 0, _ => none
  | fuel + 1, x =>
      let x := wrapInt (x - 1)
      if x > 0 then do
        let (text, x) ← padDownLoop c fuel x
        some (c :: text, x)
      else some ([], x)

/-- More rounds than an `int` has values. -/
def intRounds : Nat := 4294967297

/-- The first loop, run to its end. -/
def pad (c : α) (bound x : Int) : List α × Int := (padLoop c bound intRounds x).getD ([], x)

/-- The second loop, run to its end. -/
def padDown (c : α) (x : Int) : List α × Int := (padDownLoop c intRounds x).getD ([], x)

theorem padLoop_eq (c : α) {bound : Int} (hbound : IsInt bound) {x : Int} (hx : IsInt x)
    {fuel : Nat} (hfuel : (x - bound).toNat < fuel) :
    padLoop c bound fuel x =
      some (List.replicate (x - bound).toNat c, wrapInt (min x bound - 1)) := by
  induction fuel generalizing x with
  | zero => omega
  | succ fuel ih =>
      rw [padLoop]
      by_cases hmore : bound < x
      · unfold IsInt at hbound hx
        have hnext : wrapInt (x - 1) = x - 1 := wrapInt_of_isInt ⟨by omega, by omega⟩
        have hrounds : (x - bound).toNat = (x - 1 - bound).toNat + 1 := by omega
        have hleft : min (x - 1) bound = min x bound := by omega
        have hrest := ih (x := x - 1) ⟨by omega, by omega⟩ (by omega)
        rw [if_pos hmore, hnext, hrest, hrounds, hleft]
        rfl
      · have hnone : (x - bound).toNat = 0 := by omega
        have hleft : min x bound = x := by omega
        rw [if_neg hmore, hnone, hleft]
        rfl

theorem padDownLoop_eq (c : α) {x : Int} {fuel : Nat} (hfuel : (wrapInt (x - 1)).toNat < fuel) :
    padDownLoop c fuel x =
      some (List.replicate (wrapInt (x - 1)).toNat c, min (wrapInt (x - 1)) 0) := by
  induction fuel generalizing x with
  | zero => omega
  | succ fuel ih =>
      simp only [padDownLoop]
      have hnext := isInt_wrapInt (x - 1)
      generalize wrapInt (x - 1) = y at hnext hfuel ⊢
      unfold IsInt at hnext
      by_cases hmore : y > 0
      · have hstep : wrapInt (y - 1) = y - 1 := wrapInt_of_isInt ⟨by omega, by omega⟩
        have hrounds : y.toNat = (y - 1).toNat + 1 := by omega
        have hleft : min (y - 1) 0 = min y 0 := by omega
        have hrest := @ih y (by rw [hstep]; omega)
        rw [hstep, hleft] at hrest
        rw [if_pos hmore, hrest, hrounds]
        rfl
      · have hnone : y.toNat = 0 := by omega
        have hleft : min y 0 = y := by omega
        rw [if_neg hmore, hnone, hleft]
        rfl

theorem rounds_lt_intRounds {bound x : Int} (hbound : IsInt bound) (hx : IsInt x) :
    (x - bound).toNat < intRounds := by
  unfold IsInt at hbound hx
  unfold intRounds
  omega

theorem toNat_lt_intRounds {x : Int} (hx : IsInt x) : x.toNat < intRounds := by
  unfold IsInt at hx
  unfold intRounds
  omega

/-- Any greater number of rounds comes to the same. -/
theorem padLoop_of_le (c : α) {bound x : Int} (hbound : IsInt bound) (hx : IsInt x) {fuel : Nat}
    (hfuel : intRounds ≤ fuel) : padLoop c bound fuel x = some (pad c bound x) := by
  have hrounds := rounds_lt_intRounds hbound hx
  rw [pad, padLoop_eq c hbound hx hrounds, padLoop_eq c hbound hx (hrounds.trans_le hfuel)]
  rfl

theorem padDownLoop_of_le (c : α) (x : Int) {fuel : Nat} (hfuel : intRounds ≤ fuel) :
    padDownLoop c fuel x = some (padDown c x) := by
  have hrounds := toNat_lt_intRounds (isInt_wrapInt (x - 1))
  rw [padDown, padDownLoop_eq c hrounds, padDownLoop_eq c (hrounds.trans_le hfuel)]
  rfl

theorem pad_eq (c : α) {bound x : Int} (hbound : IsInt bound) (hx : IsInt x) :
    pad c bound x = (List.replicate (x - bound).toNat c, wrapInt (min x bound - 1)) := by
  have hrounds := rounds_lt_intRounds hbound hx
  rw [pad, padLoop_eq c hbound hx hrounds]
  rfl

theorem padDown_eq (c : α) (x : Int) :
    padDown c x = (List.replicate (wrapInt (x - 1)).toNat c, min (wrapInt (x - 1)) 0) := by
  have hrounds := toNat_lt_intRounds (isInt_wrapInt (x - 1))
  rw [padDown, padDownLoop_eq c hrounds]
  rfl

end CInt
