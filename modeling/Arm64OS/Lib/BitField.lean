import Mathlib.Tactic

/-!
# Masks and bit fields as arithmetic

C code cuts machine words with constants of the shape `(1 << k) - 1` and
`~((1 << k) - 1)`, and glues them back together with `|`.  This file reads those
operations as `%`, `/` and `+` on the unsigned value, so that a proof about
addresses or descriptors is a proof about natural numbers.
-/

namespace BitField

variable {w k : Nat}

/-- The mask of the `k` low bits, spelled as C spells it. -/
theorem one_shiftLeft_sub_one (hk : k < w) :
    ((1#w <<< k) - 1#w) = BitVec.ofNat w (2 ^ k - 1) := by
  have hpow : 2 ^ k < 2 ^ w := Nat.pow_lt_pow_right (by omega) hk
  have hone : (1 : Nat) < 2 ^ w := Nat.one_lt_two_pow (by omega)
  have hle : 1 ≤ 2 ^ k := Nat.one_le_two_pow
  apply BitVec.eq_of_toNat_eq
  rw [BitVec.toNat_sub, BitVec.toNat_shiftLeft, BitVec.toNat_ofNat, BitVec.toNat_ofNat,
    Nat.mod_eq_of_lt hone, Nat.one_shiftLeft, Nat.mod_eq_of_lt hpow,
    Nat.mod_eq_of_lt (by omega : 2 ^ k - 1 < 2 ^ w)]
  have hsum : 2 ^ w - 1 + 2 ^ k = (2 ^ k - 1) + 2 ^ w := by omega
  rw [hsum, Nat.add_mod_right, Nat.mod_eq_of_lt (by omega)]

theorem getLsbD_lowMask (hk : k < w) (i : Nat) :
    ((1#w <<< k) - 1#w).getLsbD i = decide (i < k) := by
  rw [one_shiftLeft_sub_one hk, BitVec.getLsbD_ofNat, Nat.testBit_two_pow_sub_one]
  by_cases hi : i < k
  · simp [hi, Nat.lt_trans hi hk]
  · simp [hi]

/-- `x & ((1 << k) - 1)` is the remainder modulo `2 ^ k`. -/
theorem toNat_and_lowMask (x : BitVec w) (hk : k < w) :
    (x &&& ((1#w <<< k) - 1#w)).toNat = x.toNat % 2 ^ k := by
  have hpow : 2 ^ k < 2 ^ w := Nat.pow_lt_pow_right (by omega) hk
  rw [one_shiftLeft_sub_one hk, BitVec.toNat_and, BitVec.toNat_ofNat,
    Nat.mod_eq_of_lt (Nat.lt_of_le_of_lt (Nat.sub_le _ _) hpow), Nat.and_two_pow_sub_one_eq_mod]

/-- `x & ~((1 << k) - 1)` clears the `k` low bits. -/
theorem and_highMask (x : BitVec w) (hk : k < w) :
    x &&& ~~~((1#w <<< k) - 1#w) = (x >>> k) <<< k := by
  apply BitVec.eq_of_getLsbD_eq
  intro i hi
  rw [BitVec.getLsbD_and, BitVec.getLsbD_not, getLsbD_lowMask hk, BitVec.getLsbD_shiftLeft,
    BitVec.getLsbD_ushiftRight]
  by_cases hik : i < k
  · simp [hi, hik]
  · simp [hi, hik, Nat.add_sub_cancel' (Nat.le_of_not_lt hik)]

/-- `x & ~((1 << k) - 1)` rounds down to a multiple of `2 ^ k`. -/
theorem toNat_and_highMask (x : BitVec w) (hk : k < w) :
    (x &&& ~~~((1#w <<< k) - 1#w)).toNat = x.toNat / 2 ^ k * 2 ^ k := by
  have hle : x.toNat / 2 ^ k * 2 ^ k ≤ x.toNat := Nat.div_mul_le_self _ _
  rw [and_highMask x hk, BitVec.toNat_shiftLeft, BitVec.toNat_ushiftRight,
    Nat.shiftRight_eq_div_pow, Nat.shiftLeft_eq, Nat.mod_eq_of_lt (by omega)]

/-- `(x >> s) & ((1 << k) - 1)` is a field of `k` bits at position `s`. -/
theorem toNat_field (x : BitVec w) (s : Nat) (hk : k < w) :
    ((x >>> s) &&& ((1#w <<< k) - 1#w)).toNat = x.toNat / 2 ^ s % 2 ^ k := by
  rw [toNat_and_lowMask _ hk, BitVec.toNat_ushiftRight, Nat.shiftRight_eq_div_pow]

/-- `(x >> k) << k` rounds down to a multiple of `2 ^ k`. -/
theorem toNat_shiftRight_shiftLeft (x : BitVec w) (k : Nat) :
    ((x >>> k) <<< k).toNat = x.toNat / 2 ^ k * 2 ^ k := by
  have hle : x.toNat / 2 ^ k * 2 ^ k ≤ x.toNat := Nat.div_mul_le_self _ _
  rw [BitVec.toNat_shiftLeft, BitVec.toNat_ushiftRight, Nat.shiftRight_eq_div_pow,
    Nat.shiftLeft_eq, Nat.mod_eq_of_lt (by omega)]

/-- A word with `k` zero low bits and a word below `2 ^ k` are glued by addition. -/
theorem toNat_or_of_low (a b : BitVec w) (ha : a.toNat % 2 ^ k = 0) (hb : b.toNat < 2 ^ k) :
    (a ||| b).toNat = a.toNat + b.toNat := by
  have hmul : a.toNat = 2 ^ k * (a.toNat / 2 ^ k) := by
    have := Nat.div_add_mod a.toNat (2 ^ k)
    omega
  rw [BitVec.toNat_or, hmul, Nat.two_pow_add_eq_or_of_lt hb]

/-- Rounding a multiple of `2 ^ k` down changes nothing. -/
theorem and_highMask_of_aligned (x : BitVec w) (hk : k < w) (hx : x.toNat % 2 ^ k = 0) :
    x &&& ~~~((1#w <<< k) - 1#w) = x := by
  apply BitVec.eq_of_toNat_eq
  rw [toNat_and_highMask x hk]
  have := Nat.div_add_mod x.toNat (2 ^ k)
  rw [Nat.mul_comm]
  omega

end BitField
