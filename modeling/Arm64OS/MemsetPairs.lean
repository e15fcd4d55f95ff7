import Arm64OS.Memset

/-!
# The pairs that `memset` stores

With the MMU off all memory is Device memory, where an `stp` has to be aligned.  `memset`
stores single bytes first, so that its pairs start at a 16 byte boundary; `pairs_aligned_iff`
says for which calls they do.
-/

namespace Arm64OS

open ByteMem

/-- The addresses of the `stp` of `__memset_16bytes_asm`, from its label on. -/
def pairsLoop (count : BitVec 32) :
    (fuel : Nat) → (p : Word) → (i : BitVec 32) → Option (List Word)
  | 0, _, _ => none
  | fuel + 1, p, i =>
      let i := i + 16
      if i = count then some [p] else (pairsLoop count fuel (p + 16) i).map (p :: ·)

/-- `p` and `left` behind the head. -/
def memsetHead (s : Word) (count : BitVec 32) : Word × BitVec 32 :=
  let size : BitVec 32 := (s &&& 15).setWidth 32
  if s &&& 15 ≠ 0 then (s + size.setWidth 64, count - size) else (s, count)

/-- The pairs of `memset`, oldest first. -/
def memsetPairs (s : Word) (count : BitVec 32) : Option (List Word) :=
  let (p, left) := memsetHead s count
  if (16 : Word) < left.setWidth 64 then pairsLoop (16 * (left / 16)) (2 ^ 28) p 0 else some []

/-- The pairs stored. -/
def storePairs (data : Word) (pairs : List Word) (m : Mem) : Mem :=
  pairs.foldl (fun m p => store (p + 8) 8 data (store p 8 data m)) m

/-! ## They are the pairs of the code -/

theorem memset16bytesLoop_eq_pairs (data : Word) (count : BitVec 32) (fuel : Nat) (p : Word)
    (i : BitVec 32) (m : Mem) :
    memset16bytesLoop data count fuel p i m =
      (pairsLoop count fuel p i).map fun pairs => storePairs data pairs m := by
  induction fuel generalizing p i m with
  | zero => rfl
  | succ fuel ih =>
      simp only [memset16bytesLoop, pairsLoop]
      by_cases hlast : i + 16 = count
      · rw [if_pos hlast, if_pos hlast]
        rfl
      · rw [if_neg hlast, if_neg hlast, ih, Option.map_map]
        rfl

theorem pairsLoop_ne_nil {count : BitVec 32} {fuel : Nat} {p : Word} {i : BitVec 32}
    {pairs : List Word} (h : pairsLoop count fuel p i = some pairs) : pairs ≠ [] := by
  cases fuel with
  | zero => cases h
  | succ fuel =>
      simp only [pairsLoop] at h
      split_ifs at h with hlast
      · obtain rfl := Option.some.inj h
        exact List.cons_ne_nil _ _
      · obtain ⟨rest, -, rfl⟩ := Option.map_eq_some_iff.1 h
        exact List.cons_ne_nil _ _

/-- The memory that `memset` leaves is that of the bytes of the head, of its pairs, and of the
bytes behind them. -/
theorem memset_eq_pairs (s : Word) (c count : BitVec 32) (m : Mem) {p : Word} {left : BitVec 32}
    (hhead : memsetHead s count = (p, left)) :
    memset s c count m = (memsetPairs s count).map fun pairs =>
      let m := storePairs (memsetData c) pairs (memset1bytes c (s &&& 15).toNat s m)
      if pairs = [] then m
      else memset1bytes c (left % 16).toNat (p + (16 * (left / 16)).signExtend 64) m := by
  have hsize : ((s &&& 15).setWidth 32 : BitVec 32).toNat = (s &&& 15).toNat := by
    have hle : (s &&& 15).toNat ≤ 15 := by
      rw [BitVec.toNat_and]
      exact Nat.and_le_right
    rw [BitVec.toNat_setWidth]
    omega
  have hstart : (if s &&& 15 ≠ 0 then
      (s + ((s &&& 15).setWidth 32 : BitVec 32).setWidth 64,
        count - ((s &&& 15).setWidth 32 : BitVec 32),
        memset1bytes c ((s &&& 15).setWidth 32 : BitVec 32).toNat s m)
      else (s, count, m)) = (p, left, memset1bytes c (s &&& 15).toNat s m) := by
    rw [memsetHead] at hhead
    by_cases haligned : s &&& 15 ≠ 0
    · rw [if_pos haligned] at hhead ⊢
      rw [hsize, ← (Prod.mk.inj hhead).1, ← (Prod.mk.inj hhead).2]
    · rw [if_neg haligned] at hhead ⊢
      rw [not_not.1 haligned, ← (Prod.mk.inj hhead).1, ← (Prod.mk.inj hhead).2]
      rfl
  simp only [memset, hstart, memsetPairs, hhead]
  by_cases hlong : (16 : Word) < left.setWidth 64
  · rw [if_pos hlong, if_pos hlong, memset16bytesAsm, memset16bytesLoop_eq_pairs]
    cases hpairs : pairsLoop (16 * (left / 16)) (2 ^ 28) p 0 with
    | none => rfl
    | some pairs =>
        have hne := pairsLoop_ne_nil hpairs
        rw [Option.map_some, Option.map_some, if_neg hne]
        refine congrArg some ?_
        by_cases hzero : left % 16 = 0
        · rw [if_neg (not_not_intro hzero), hzero]
          rfl
        · rw [if_pos hzero]
  · rw [if_neg hlong, if_neg hlong]
    rfl

/-! ## Where they are -/

theorem pairsLoop_eq {fuel k : Nat} {count i : BitVec 32} (hk : k < fuel)
    (hend : i.toNat + 16 * (k + 1) = count.toNat) (p : Word) :
    pairsLoop count fuel p i =
      some ((List.range (k + 1)).map fun j => p + BitVec.ofNat 64 (16 * j)) := by
  induction k generalizing fuel i p with
  | zero =>
      obtain ⟨fuel, rfl⟩ : ∃ f, fuel = f + 1 := ⟨fuel - 1, by omega⟩
      have hlast : i + 16 = count := (toNat_add_16 hend).2.2 rfl
      rw [pairsLoop]
      simp only [if_pos hlast]
      simp
  | succ k ih =>
      obtain ⟨fuel, rfl⟩ : ∃ f, fuel = f + 1 := ⟨fuel - 1, by omega⟩
      obtain ⟨hnext, hlast⟩ := toNat_add_16 hend
      have hmore : i + 16 ≠ count := fun h => absurd (hlast.1 h) (Nat.succ_ne_zero k)
      rw [pairsLoop]
      simp only [if_neg hmore]
      rw [ih (by omega) (by omega), @List.range_succ_eq_map (k + 1), List.map_cons, List.map_map,
        Option.map_some]
      refine congrArg some (List.cons_eq_cons.2 ⟨(BitVec.add_zero p).symm, ?_⟩)
      refine List.map_congr_left fun j _ => ?_
      rw [Function.comp_apply, Nat.mul_succ, BitVec.ofNat_add, BitVec.add_assoc,
        BitVec.add_comm (BitVec.ofNat 64 (16 * j))]
      rfl

theorem memsetHead_eq (s : Word) (count : BitVec 32) :
    memsetHead s count =
      (s + BitVec.ofNat 64 (s.toNat % 16), count - BitVec.ofNat 32 (s.toNat % 16)) := by
  have hhead := congrArg (fun t => (t.1, t.2.1)) (memset_head s 0 count fun _ => 0)
  simpa only [memsetHead, apply_ite (fun t : Word × BitVec 32 × Mem => (t.1, t.2.1))] using hhead

/-- The pairs come one behind the other, from the end of the head on, in all 16 byte pieces of
what is left. -/
theorem memsetPairs_eq (s : Word) (count left : BitVec 32)
    (hleft : count - BitVec.ofNat 32 (s.toNat % 16) = left) :
    memsetPairs s count = some ((List.range (if left.toNat ≤ 16 then 0 else left.toNat / 16)).map
      fun j => s + BitVec.ofNat 64 (s.toNat % 16) + BitVec.ofNat 64 (16 * j)) := by
  have hbound := left.isLt
  have hn : (left / 16).toNat = left.toNat / 16 := BitVec.toNat_udiv
  simp only [memsetPairs, memsetHead_eq, hleft, lt_setWidth_iff]
  by_cases hshort : left.toNat ≤ 16
  · simp [hshort]
  · obtain ⟨k, hk⟩ : ∃ k, left.toNat / 16 = k + 1 := ⟨left.toNat / 16 - 1, by omega⟩
    have hround : (0 : BitVec 32).toNat + 16 * (k + 1) = (16 * (left / 16)).toNat := by
      rw [BitVec.toNat_mul, hn, hk]
      exact (Nat.zero_add _).trans (Nat.mod_eq_of_lt (show 16 * (k + 1) < 2 ^ 32 by omega)).symm
    rw [if_pos hshort, if_neg hshort, pairsLoop_eq (by omega) hround, hk]

/-! ## When they are aligned -/

/-- The code meets what the comment on the head asks for: it ends at a 16 byte boundary. -/
def HeadAligned (s : Word) (count : BitVec 32) : Prop := (memsetHead s count).1.toNat % 16 = 0

def PairsAligned (s : Word) (count : BitVec 32) : Prop :=
  ∃ pairs, memsetPairs s count = some pairs ∧ ∀ a ∈ pairs, a.toNat % 16 = 0

/-- The head is `s % 16` bytes long, and so takes `s` to twice its distance from the boundary
below. -/
theorem toNat_head_mod (s : Word) (j : Nat) :
    (s + BitVec.ofNat 64 (s.toNat % 16) + BitVec.ofNat 64 (16 * j)).toNat % 16 =
      2 * s.toNat % 16 := by
  rw [BitVec.toNat_add, BitVec.toNat_add, BitVec.toNat_ofNat, BitVec.toNat_ofNat]
  omega

theorem headAligned_iff (s : Word) (count : BitVec 32) :
    HeadAligned s count ↔ s.toNat % 8 = 0 := by
  have hmod := toNat_head_mod s 0
  rw [Nat.mul_zero, BitVec.add_zero] at hmod
  rw [HeadAligned, memsetHead_eq, hmod]
  omega

/-- **Every pair is aligned** if and only if the address is that of a word of eight bytes, or
there are no pairs at all; the head ends at a boundary in the first case only. -/
theorem pairs_aligned_iff (s : Word) (count : BitVec 32) :
    (PairsAligned s count ↔ s.toNat % 8 = 0 ∨
      s.toNat % 16 ≤ count.toNat ∧ count.toNat ≤ s.toNat % 16 + 16) ∧
    (HeadAligned s count ↔ s.toNat % 8 = 0) := by
  refine ⟨?_, headAligned_iff s count⟩
  have hlt : s.toNat % 16 < 16 := Nat.mod_lt _ (by decide)
  obtain ⟨left, hleft⟩ : ∃ left, count - BitVec.ofNat 32 (s.toNat % 16) = left := ⟨_, rfl⟩
  have hlen := @toNat_sub_head count _ hlt
  rw [hleft] at hlen
  have hbound := left.isLt
  have hcount := count.isLt
  rw [PairsAligned, memsetPairs_eq s count left hleft]
  simp only [Option.some.injEq, exists_eq_left', List.mem_map, List.mem_range,
    forall_exists_index, and_imp, forall_apply_eq_imp_iff₂, toNat_head_mod]
  by_cases hshort : left.toNat ≤ 16
  · -- no pair: the head does not reach behind the end, and at most 16 bytes follow
    rw [if_pos hshort]
    refine iff_of_true (fun j hj => absurd hj (Nat.not_lt_zero j)) (Or.inr ?_)
    split at hlen <;> omega
  · rw [if_neg hshort]
    constructor
    · intro hall
      have hfirst := hall 0 (by omega)
      omega
    · rintro (height | hcases)
      · intro j _
        omega
      · split at hlen <;> omega

/-- 100 bytes at 0x80001: the first pair is stored at 0x80002. -/
theorem pairs_not_aligned : ¬ PairsAligned 0x80001 100 ∧ ¬ HeadAligned 0x80001 100 := by
  refine ⟨?_, by rw [headAligned_iff]; decide⟩
  rintro ⟨pairs, hpairs, hall⟩
  rw [memsetPairs_eq 0x80001 100 99 (by decide)] at hpairs
  obtain rfl := Option.some.inj hpairs
  exact absurd (hall 0x80002 (by decide)) (by decide)

end Arm64OS
