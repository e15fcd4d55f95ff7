import Mathlib.Tactic
import Arm64OS.Lib.ByteMem

/-!
# `memcpy`

`memcpy` of `lib/string.c` copies byte by byte, from the lowest address on.  Where the
destination begins inside the source, the bytes in front of it are read again after they have
been copied, and what comes out is their repetition.  Addresses wrap around.
-/

namespace Arm64OS

open ByteMem

/-- The loop of `memcpy`. -/
def memcpyLoop : (count : Nat) → (tmp s : Word) → Mem → Mem
  | 0, _, _, m => m
  | count + 1, tmp, s, m => memcpyLoop count (tmp + 1) (s + 1) (Function.update m tmp (m s))

/-- The pointer returned and the memory; `size_t` has 32 bits. -/
def memcpy (dest src : Word) (count : BitVec 32) (m : Mem) : Word × Mem :=
  (dest, memcpyLoop count.toNat dest src m)

/-- The first `k` bytes have been copied.  The period is 0 where both ranges are the same. -/
structure CopiedUpTo (dest src : Word) (m₀ : Mem) (k : Nat) (m : Mem) : Prop where
  copied : ∀ i, i < k →
    m (dest + BitVec.ofNat 64 i) = m₀ (src + BitVec.ofNat 64 (i % (dest - src).toNat))
  frame : ∀ a, (∀ i, i < k → a ≠ dest + BitVec.ofNat 64 i) → m a = m₀ a

variable {dest src : Word} {m₀ m : Mem} {k : Nat}

theorem add_ofNat_succ (a : Word) (i : Nat) :
    a + BitVec.ofNat 64 i + 1 = a + BitVec.ofNat 64 (i + 1) := by
  rw [BitVec.ofNat_add, BitVec.add_assoc]
  rfl

theorem add_ofNat_ne {a : Word} {i j : Nat} (hi : i < 2 ^ 64) (hj : j < 2 ^ 64) (hne : i ≠ j) :
    a + BitVec.ofNat 64 i ≠ a + BitVec.ofNat 64 j := by
  rw [Ne, BitVec.add_right_inj]
  intro heq
  have hnat := congrArg BitVec.toNat heq
  simp only [BitVec.toNat_ofNat] at hnat
  omega

theorem CopiedUpTo.refl (dest src : Word) (m : Mem) : CopiedUpTo dest src m 0 m :=
  ⟨fun i hi => absurd hi (Nat.not_lt_zero i), fun _ _ => rfl⟩

/-- The next byte of the source is what it was, or one that has been copied before. -/
theorem CopiedUpTo.next (h : CopiedUpTo dest src m₀ k m) (hk : k < 2 ^ 64) :
    m (src + BitVec.ofNat 64 k) = m₀ (src + BitVec.ofNat 64 (k % (dest - src).toNat)) := by
  obtain ⟨d, hd⟩ : ∃ d, (dest - src).toNat = d := ⟨_, rfl⟩
  have hdest : dest = src + BitVec.ofNat 64 d := by
    rw [← hd, BitVec.ofNat_toNat, BitVec.setWidth_eq, BitVec.add_comm, BitVec.sub_add_cancel]
  rw [hd]
  by_cases hover : 0 < d ∧ d ≤ k
  · -- byte `k` of the source is byte `k - d` of the destination
    have hplace : src + BitVec.ofNat 64 k = dest + BitVec.ofNat 64 (k - d) := by
      rw [hdest, BitVec.add_assoc, ← BitVec.ofNat_add, Nat.add_sub_cancel' hover.2]
    rw [hplace, h.copied _ (by omega), hd, ← Nat.mod_eq_sub_mod hover.2]
  · have hmod : k % d = k := by
      rcases Nat.eq_zero_or_pos d with rfl | hpos
      · exact Nat.mod_zero k
      · exact Nat.mod_eq_of_lt (by omega)
    rw [hmod]
    refine h.frame _ fun i hi heq => hover ?_
    rw [hdest, BitVec.add_assoc, ← BitVec.ofNat_add, BitVec.add_right_inj] at heq
    have hnat := congrArg BitVec.toNat heq
    have hbound : d < 2 ^ 64 := hd ▸ (dest - src).isLt
    simp only [BitVec.toNat_ofNat] at hnat
    omega

/-- One round. -/
theorem CopiedUpTo.step (h : CopiedUpTo dest src m₀ k m) (hk : k < 2 ^ 64) :
    CopiedUpTo dest src m₀ (k + 1) (Function.update m (dest + BitVec.ofNat 64 k)
      (m (src + BitVec.ofNat 64 k))) := by
  constructor
  · intro i hi
    obtain rfl | hlt := (Nat.lt_succ_iff.mp hi).eq_or_lt
    · rw [Function.update_self, h.next hk]
    · rw [Function.update_of_ne (add_ofNat_ne (by omega) hk hlt.ne), h.copied i hlt]
  · intro a ha
    rw [Function.update_of_ne (ha k (Nat.lt_succ_self k))]
    exact h.frame a fun i hi => ha i (Nat.lt_succ_of_lt hi)

theorem CopiedUpTo.loop (n : Nat) (h : CopiedUpTo dest src m₀ k m) (hfits : k + n ≤ 2 ^ 64) :
    CopiedUpTo dest src m₀ (k + n)
      (memcpyLoop n (dest + BitVec.ofNat 64 k) (src + BitVec.ofNat 64 k) m) := by
  induction n generalizing k m with
  | zero => exact h
  | succ n ih =>
      have hrest := ih (h.step (by omega)) (by omega)
      rw [Nat.add_right_comm, Nat.add_assoc] at hrest
      rw [memcpyLoop, add_ofNat_succ, add_ofNat_succ]
      exact hrest

theorem copiedUpTo_memcpy (dest src : Word) (count : BitVec 32) (m : Mem) :
    CopiedUpTo dest src m count.toNat (memcpy dest src count m).2 := by
  have hcount := count.isLt
  have hall := (CopiedUpTo.refl dest src m).loop count.toNat (by omega)
  rw [Nat.zero_add, BitVec.add_zero, BitVec.add_zero] at hall
  exact hall

/-- What `memcpy` leaves, for any two ranges. -/
theorem memcpy_eq (dest src : Word) (count : BitVec 32) (m : Mem) :
    (memcpy dest src count m).1 = dest ∧
      (∀ i, i < count.toNat → (memcpy dest src count m).2 (dest + BitVec.ofNat 64 i) =
        m (src + BitVec.ofNat 64 (i % (dest - src).toNat))) ∧
      ∀ a, (∀ i, i < count.toNat → a ≠ dest + BitVec.ofNat 64 i) →
        (memcpy dest src count m).2 a = m a := by
  have hall := copiedUpTo_memcpy dest src count m
  exact ⟨rfl, hall.copied, hall.frame⟩

/-- It copies the bytes of every memory if and only if the destination does not begin inside the
source, behind its first byte. -/
theorem memcpy_copies_iff (dest src : Word) (count : BitVec 32) :
    (∀ m i, i < count.toNat → (memcpy dest src count m).2 (dest + BitVec.ofNat 64 i) =
        m (src + BitVec.ofNat 64 i)) ↔
      dest = src ∨ count.toNat ≤ (dest - src).toNat := by
  have hcount := count.isLt
  constructor
  · intro hcopies
    by_contra hover
    obtain ⟨hne, hlt⟩ := not_or.mp hover
    rw [Nat.not_le] at hlt
    have hpos : 0 < (dest - src).toNat := by
      rw [Nat.pos_iff_ne_zero]
      intro hzero
      have hsub : dest - src = 0#64 := BitVec.eq_of_toNat_eq hzero
      exact hne (by rw [← BitVec.sub_add_cancel dest src, hsub, BitVec.zero_add])
    -- the first byte of the destination is read again for the byte behind the period
    have hcopied :=
      (copiedUpTo_memcpy dest src count fun a => if a = src then 1 else 0).copied _ hlt
    rw [hcopies _ _ hlt, Nat.mod_self, BitVec.add_zero, if_pos rfl, if_neg] at hcopied
    · exact absurd hcopied (by decide)
    · have hbehind := add_ofNat_ne (a := src) (j := 0) (by omega : (dest - src).toNat < 2 ^ 64)
        (by omega) hpos.ne'
      rwa [BitVec.add_zero] at hbehind
  · intro hapart m i hi
    rw [(copiedUpTo_memcpy dest src count m).copied i hi]
    rcases hapart with rfl | hle
    · rw [BitVec.sub_self, BitVec.toNat_zero, Nat.mod_zero]
    · rw [Nat.mod_eq_of_lt (by omega)]

end Arm64OS
