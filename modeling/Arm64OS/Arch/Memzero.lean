import Arm64OS.Lib.A64
import Arm64OS.Page

/-!
# `memzero`

`memzero` of `arch/arm64/kernel/mm.S`, which `el1_entry` calls for the bss before there is a
stack.  It stores 8 bytes before it looks at the length, and the length is signed: what it
stores is a whole number of words, and never none.
-/

namespace Arm64OS

open ByteMem

/-- The loop of `memzero`; `x0` and `x1` are the registers.  `b.gt` looks at the flags of the
`subs` in front of it. -/
def memzeroLoop : (fuel : Nat) → (x0 x1 : Word) → Mem → Option Mem
  | 0, _, _, _ => none
  | fuel + 1, x0, x1, m =>
      let m := store x0 8 0 m
      if A64.gt (A64.compare x1 8 0) then memzeroLoop fuel (x0 + 8) (x1 - 8) m else some m

/-- `memzero`.  Every round but the last takes 8 off a positive `len`. -/
def memzero (src len : Word) (m : Mem) : Option Mem := memzeroLoop (len.toNat / 8 + 1) src len m

/-- The part of `el1_entry` that clears the bss. -/
def el1EntryBss (bssBegin bssEnd : Word) (m : Mem) : Option Mem :=
  let x0 := bssBegin
  let x1 := bssEnd - x0
  memzero x0 x1 m

/-! ## What the loop stores -/

theorem store_zero_eq (x0 : Word) (m : Mem) : store x0 8 0 m = fillBytes x0 8 0 m :=
  store_eq_fillBytes (n := 8) (fun _ _ => BitVec.extractLsb'_zero) x0 m

/-- The test: 8 is less as a signed word. -/
theorem gt_eight_iff (x1 : Word) :
    A64.gt (A64.compare x1 8 0) = true ↔ 8 < x1.toNat ∧ x1.toNat < 2 ^ 63 := by
  have hlt := x1.isLt
  have height : (8 : Word).toInt = 8 := by decide
  rw [A64.gt_compare, BitVec.slt_iff_toInt_lt, height, BitVec.toInt_eq_toNat_cond]
  split <;> omega

theorem memzeroLoop_succ (fuel : Nat) (x0 x1 : Word) (m : Mem) :
    memzeroLoop (fuel + 1) x0 x1 m =
      if 8 < x1.toNat ∧ x1.toNat < 2 ^ 63 then
        memzeroLoop fuel (x0 + 8) (x1 - 8) (fillBytes x0 8 0 m)
      else some (fillBytes x0 8 0 m) := by
  simp only [memzeroLoop, store_zero_eq, gt_eight_iff]

/-- `k + 1` rounds, where 8 bytes or less are left for the last. -/
theorem memzeroLoop_eq {fuel k : Nat} {x1 : Word} (hk : k < fuel) (hlo : 8 * k < x1.toNat)
    (hhi : x1.toNat ≤ 8 * (k + 1)) (hpos : x1.toNat < 2 ^ 63) (x0 : Word) (m : Mem) :
    memzeroLoop fuel x0 x1 m = some (fillBytes x0 (8 * (k + 1)) 0 m) := by
  induction k generalizing fuel x0 x1 m with
  | zero =>
      obtain ⟨fuel, rfl⟩ : ∃ f, fuel = f + 1 := ⟨fuel - 1, by omega⟩
      rw [memzeroLoop_succ, if_neg (by omega)]
  | succ k ih =>
      obtain ⟨fuel, rfl⟩ : ∃ f, fuel = f + 1 := ⟨fuel - 1, by omega⟩
      have hnext : (x1 - 8).toNat = x1.toNat - 8 :=
        BitVec.toNat_sub_of_le (show 8 ≤ x1.toNat by omega)
      have hsplit : 8 * (k + 1 + 1) = 8 + 8 * (k + 1) := by omega
      rw [memzeroLoop_succ, if_pos (by omega),
        ih (by omega) (by omega) (by omega) (by omega), hsplit]
      exact congrArg some (fillBytes_add x0 (n := 8) (by omega) 0 m)

/-- How many bytes `memzero` stores. -/
def zeroedLen (len : Word) : Nat :=
  if len.toNat < 2 ^ 63 then max 8 ((len.toNat + 7) / 8 * 8) else 8

/-- The loop ends, and more fuel than `memzero` has makes no difference. -/
theorem memzeroLoop_stores {fuel : Nat} {len : Word} (hfuel : len.toNat / 8 < fuel) (src : Word)
    (m : Mem) : memzeroLoop fuel src len m = some (fillBytes src (zeroedLen len) 0 m) := by
  by_cases hone : 0 < len.toNat ∧ len.toNat < 2 ^ 63
  · obtain ⟨k, hk⟩ : ∃ k, (len.toNat + 7) / 8 = k + 1 := ⟨(len.toNat + 7) / 8 - 1, by omega⟩
    have hlen : zeroedLen len = 8 * (k + 1) := by
      rw [zeroedLen, if_pos hone.2, hk]
      omega
    rw [hlen]
    exact memzeroLoop_eq (by omega) (by omega) (by omega) hone.2 src m
  · -- nothing or a negative length: the first round is the last
    obtain ⟨fuel, rfl⟩ : ∃ f, fuel = f + 1 := ⟨fuel - 1, by omega⟩
    have hlen : zeroedLen len = 8 := by
      rw [zeroedLen]
      split <;> omega
    rw [memzeroLoop_succ, if_neg (by omega), hlen]

theorem memzero_eq (src len : Word) (m : Mem) :
    memzero src len m = some (fillBytes src (zeroedLen len) 0 m) :=
  memzeroLoop_stores (Nat.lt_succ_self _) src m

/-- `el1_entry` computes the length of the section. -/
theorem el1EntryBss_add (src len : Word) (m : Mem) :
    el1EntryBss src (src + len) m = some (fillBytes src (zeroedLen len) 0 m) := by
  have hlen : src + len - src = len := by
    rw [BitVec.add_comm, BitVec.add_sub_cancel]
  rw [el1EntryBss, hlen, memzero_eq]

/-! ## When the bytes are zeroed -/

/-- What is asked of `memzero`: the bytes in `[src, src+len)` are 0, the others are as before. -/
def BytesZeroed (src len : Word) (m m' : Mem) : Prop :=
  ∀ b : Word, m' b = if (b - src).toNat < len.toNat then 0 else m b

/-- What lies between the end and the end of the last word stored is 0 already.  A negative
length is one word, and what lies behind that is 0 already. -/
def MemzeroSuits (src len : Word) (m : Mem) : Prop :=
  if len.toNat < 2 ^ 63 then
    ∀ b : Word, len.toNat ≤ (b - src).toNat →
      (b - src).toNat < max 8 ((len.toNat + 7) / 8 * 8) → m b = 0
  else ∀ b : Word, 8 ≤ (b - src).toNat → (b - src).toNat < len.toNat → m b = 0

/-- The range by its addresses, where it does not wrap. -/
theorem bytesZeroed_iff_interval {src len : Word} (h : src.toNat + len.toNat ≤ 2 ^ 64)
    (m m' : Mem) :
    BytesZeroed src len m m' ↔
      ∀ b : Word, m' b =
        if src.toNat ≤ b.toNat ∧ b.toNat < src.toNat + len.toNat then 0 else m b := by
  simp only [BytesZeroed, toNat_sub_lt_iff h]

theorem bytesZeroed_stored_iff (src len : Word) (m : Mem) :
    BytesZeroed src len m (fillBytes src (zeroedLen len) 0 m) ↔ MemzeroSuits src len m := by
  have hasked : BytesZeroed src len m (fillBytes src (zeroedLen len) 0 m) ↔
      fillBytes src (zeroedLen len) 0 m = fillBytes src len.toNat 0 m := funext_iff.symm
  rw [hasked, MemzeroSuits, zeroedLen]
  by_cases hpos : len.toNat < 2 ^ 63
  · rw [if_pos hpos, if_pos hpos, eq_comm]
    exact fillBytes_eq_fillBytes_iff src (by omega) 0 m
  · rw [if_neg hpos, if_neg hpos]
    exact fillBytes_eq_fillBytes_iff src (by omega) 0 m

theorem memzero_zeroes_iff (src len : Word) (m : Mem) :
    (∃ m', el1EntryBss src (src + len) m = some m' ∧ BytesZeroed src len m m') ↔
      MemzeroSuits src len m := by
  rw [el1EntryBss_add, ← bytesZeroed_stored_iff]
  simp only [Option.some.injEq, exists_eq_left']

/-- One byte that is not as asked is enough. -/
theorem not_zeroed_of_byte {src len : Word} {m : Mem} (b : Word)
    (hb : fillBytes src (zeroedLen len) 0 m b ≠
      if (b - src).toNat < len.toNat then 0 else m b) :
    ¬ ∃ m', el1EntryBss src (src + len) m = some m' ∧ BytesZeroed src len m m' := by
  rintro ⟨m', hrun, hzeroed⟩
  rw [el1EntryBss_add] at hrun
  obtain rfl := Option.some.inj hrun
  exact hb (hzeroed b)

/-- An empty section and one of 12 bytes, on memory that is not 0. -/
theorem memzero_overruns :
    (0x82008 : Word).toNat % 8 = 0 ∧
      (¬ ∃ m', el1EntryBss 0x82008 (0x82008 + 0) (fun _ => 0xff) = some m' ∧
        BytesZeroed 0x82008 0 (fun _ => 0xff) m') ∧
      ¬ ∃ m', el1EntryBss 0x82008 (0x82008 + 12) (fun _ => 0xff) = some m' ∧
        BytesZeroed 0x82008 12 (fun _ => 0xff) m' :=
  ⟨by decide, not_zeroed_of_byte 0x82008 (by decide), not_zeroed_of_byte 0x82014 (by decide)⟩

/-- The lengths that are right whatever the memory holds. -/
theorem memzeroSuits_all_iff (src len : Word) :
    (∀ m, MemzeroSuits src len m) ↔
      0 < len.toNat ∧ len.toNat % 8 = 0 ∧ len.toNat < 2 ^ 63 := by
  constructor
  · intro hall
    have hsuits := hall fun _ => 0xff
    have hne : ¬ (0xff : BitVec 8) = 0 := by decide
    rw [MemzeroSuits] at hsuits
    split_ifs at hsuits with hpos
    · -- the byte at the end
      have hend := hsuits (src + BitVec.ofNat 64 len.toNat)
      rw [toNat_offset src (by omega)] at hend
      refine ⟨?_, ?_, hpos⟩ <;>
        by_contra hlen <;> exact hne (hend (le_refl _) (by omega))
    · have hbehind := hsuits (src + BitVec.ofNat 64 8)
      rw [toNat_offset src (by omega)] at hbehind
      exact absurd (hbehind (le_refl _) (by omega)) hne
  · rintro ⟨hsome, hwords, hpos⟩ m
    rw [MemzeroSuits, if_pos hpos]
    intro b hlo hhi
    omega

/-! ## What the kernel needs of it -/

end Arm64OS
