import Mathlib.Tactic
import Arm64OS.Lib.ByteMem

/-!
# `memset`

`__memset` of `lib/string.c`: single bytes up to a 16 byte boundary, then 16 bytes at a time
in assembly, then single bytes again.
-/

namespace Arm64OS

open ByteMem

/-- `__memset_1bytes`. -/
def memset1bytes (c : BitVec 32) : (count : Nat) → (xs : Word) → Mem → Mem
  | 0, _, m => m
  | count + 1, xs, m => memset1bytes c count (xs + 1) (store xs 1 (c.setWidth 8) m)

/-- The loop of `__memset_16bytes_asm` from its label on.  It compares `i` only after a round,
in 32 bits. -/
def memset16bytesLoop (data : Word) (count : BitVec 32) :
    (fuel : Nat) → (p : Word) → (i : BitVec 32) → Mem → Option Mem
  | 0, _, _, _ => none
  | fuel + 1, p, i, m =>
      let m := store (p + 8) 8 data (store p 8 data m)
      let i := i + 16
      if i = count then some m else memset16bytesLoop data count fuel (p + 16) i m

/-- `__memset_16bytes_asm`.  After `2^28` rounds `i` is 0 again. -/
def memset16bytesAsm (p data : Word) (count : BitVec 32) (m : Mem) : Option Mem :=
  memset16bytesLoop data count (2 ^ 28) p 0 m

/-- `data` after the loop that puts the low byte of `c` into all its bytes. -/
def memsetData (c : BitVec 32) : Word :=
  (List.range 8).foldl (fun data i => data ||| (c.signExtend 64 &&& 0xff) <<< (i * 8)) 0

/-- `memset`, and `__memset` behind it.  `16*n` is an `int`: it wraps, and its sign is extended
where it is added to a pointer. -/
def memset (s : Word) (c count : BitVec 32) (m : Mem) : Option Mem :=
  let size : BitVec 32 := (s &&& 15).setWidth 32
  let (p, left, m) :=
    if s &&& 15 ≠ 0 then
      (s + size.setWidth 64, count - size, memset1bytes c size.toNat s m)
    else (s, count, m)
  if (16 : Word) < left.setWidth 64 then do
    let n := left / 16
    let left := left % 16
    let m ← memset16bytesAsm p (memsetData c) (16 * n) m
    return if left ≠ 0 then memset1bytes c left.toNat (p + (16 * n).signExtend 64) m else m
  else some m

/-! ## What the loops store -/

theorem and_ff_signExtend (c : BitVec 32) :
    c.signExtend 64 &&& 0xff = (c.setWidth 8).setWidth 64 := by
  have hmask : ∀ t, (0xff : Word).getLsbD t = decide (t < 8) := by
    intro t
    change Nat.testBit (2 ^ 8 - 1) t = _
    exact Nat.testBit_two_pow_sub_one 8 t
  refine BitVec.eq_of_getLsbD_eq fun t ht => ?_
  rw [BitVec.getLsbD_and, hmask, BitVec.getLsbD_signExtend]
  by_cases hlow : t < 8
  · have hin : t < 32 := by omega
    simp [hlow, ht, hin]
  · simp [hlow]

theorem getLsbD_memsetData_loop (v : BitVec 8) (n : Nat) {k : Nat} (hk : k < 64) :
    ((List.range n).foldl (fun data i => data ||| v.setWidth 64 <<< (i * 8))
      (0 : Word)).getLsbD k = (decide (k < 8 * n) && v.getLsbD (k % 8)) := by
  induction n with
  | zero => simp
  | succ n ih =>
      rw [List.range_succ, List.foldl_append, List.foldl_cons, List.foldl_nil,
        BitVec.getLsbD_or, ih, BitVec.getLsbD_shiftLeft]
      by_cases hlow : k < 8 * n
      · have hbelow : k < n * 8 := by omega
        have hnext : k < 8 * (n + 1) := by omega
        simp [hlow, hbelow, hnext]
      · have hnot : ¬ k < n * 8 := by omega
        by_cases hhere : k < 8 * (n + 1)
        · have hplace : k - n * 8 = k % 8 := by omega
          have hin : k % 8 < 64 := by omega
          simp [hlow, hnot, hk, hhere, hplace, hin]
        · have hplace : 8 ≤ k - n * 8 := by omega
          simp [hlow, hhere, BitVec.getLsbD_of_ge v _ hplace]

theorem byte_memsetData (c : BitVec 32) {i : Nat} (hi : i < 8) :
    (memsetData c).extractLsb' (8 * i) 8 = c.setWidth 8 := by
  refine BitVec.eq_of_getLsbD_eq fun j hj => ?_
  have hin : 8 * i + j < 64 := by omega
  have hplace : (8 * i + j) % 8 = j := by omega
  rw [memsetData, and_ff_signExtend, BitVec.getLsbD_extractLsb',
    getLsbD_memsetData_loop _ 8 hin, hplace]
  simp [hj, hin]

theorem memset1bytes_eq (c : BitVec 32) {count : Nat} (h : count ≤ 2 ^ 64) (xs : Word)
    (m : Mem) : memset1bytes c count xs m = fillBytes xs count (c.setWidth 8) m := by
  induction count generalizing xs m with
  | zero => simp [memset1bytes]
  | succ count ih =>
      have hone : store xs 1 (c.setWidth 8) m = fillBytes xs 1 (c.setWidth 8) m := by
        refine store_eq_fillBytes (n := 1) (fun i hi => ?_) xs m
        obtain rfl : i = 0 := by omega
        exact BitVec.extractLsb'_eq_self
      rw [memset1bytes, ih (by omega), hone, Nat.add_comm count 1]
      exact fillBytes_add xs (n := 1) (by omega) _ _

/-- One round: 16 bytes. -/
theorem store_pair_eq {data : Word} {v : BitVec 8}
    (hdata : ∀ i, i < 8 → data.extractLsb' (8 * i) 8 = v) (p : Word) (m : Mem) :
    store (p + 8) 8 data (store p 8 data m) = fillBytes p 16 v m := by
  rw [store_eq_fillBytes (n := 8) hdata, store_eq_fillBytes (n := 8) hdata]
  exact fillBytes_add p (n := 8) (k := 8) (by decide) v m

/-- With `k` rounds to come behind it, a round ends at `count` if there are none. -/
theorem toNat_add_16 {count i : BitVec 32} {k : Nat}
    (hend : i.toNat + 16 * (k + 1) = count.toNat) :
    (i + 16).toNat = i.toNat + 16 ∧ (i + 16 = count ↔ k = 0) := by
  have hcount := count.isLt
  have hnext : (i + 16).toNat = i.toNat + 16 := by
    rw [BitVec.toNat_add]
    exact Nat.mod_eq_of_lt (show i.toNat + 16 < 2 ^ 32 by omega)
  refine ⟨hnext, ?_⟩
  rw [← BitVec.toNat_inj, hnext]
  omega

theorem memset16bytesLoop_eq {data : Word} {v : BitVec 8}
    (hdata : ∀ i, i < 8 → data.extractLsb' (8 * i) 8 = v) {fuel k : Nat} {count i : BitVec 32}
    (hk : k < fuel) (hend : i.toNat + 16 * (k + 1) = count.toNat) (p : Word) (m : Mem) :
    memset16bytesLoop data count fuel p i m = some (fillBytes p (16 * (k + 1)) v m) := by
  induction k generalizing fuel i p m with
  | zero =>
      obtain ⟨fuel, rfl⟩ : ∃ f, fuel = f + 1 := ⟨fuel - 1, by omega⟩
      have hlast : i + 16 = count := (toNat_add_16 hend).2.2 rfl
      rw [memset16bytesLoop, store_pair_eq hdata]
      exact if_pos hlast
  | succ k ih =>
      obtain ⟨fuel, rfl⟩ : ∃ f, fuel = f + 1 := ⟨fuel - 1, by omega⟩
      obtain ⟨hnext, hlast⟩ := toNat_add_16 hend
      have hmore : i + 16 ≠ count := fun h => absurd (hlast.1 h) (Nat.succ_ne_zero k)
      rw [memset16bytesLoop, store_pair_eq hdata]
      simp only [if_neg hmore]
      rw [ih (by omega) (by omega)]
      have hlen : 16 * (k + 1 + 1) = 16 + 16 * (k + 1) := by omega
      rw [hlen]
      exact congrArg some (fillBytes_add p (n := 16) (by omega) v m)

/-- The bytes in front of the first 16 byte boundary. -/
theorem memset_head (s : Word) (c count : BitVec 32) (m : Mem) :
    (if s &&& 15 ≠ 0 then
      (s + ((s &&& 15).setWidth 32 : BitVec 32).setWidth 64,
        count - ((s &&& 15).setWidth 32 : BitVec 32),
        memset1bytes c ((s &&& 15).setWidth 32 : BitVec 32).toNat s m)
      else (s, count, m)) =
    (s + BitVec.ofNat 64 (s.toNat % 16), count - BitVec.ofNat 32 (s.toNat % 16),
      fillBytes s (s.toNat % 16) (c.setWidth 8) m) := by
  have hlow : (s &&& 15).toNat = s.toNat % 16 := by
    rw [BitVec.toNat_and]
    exact Nat.and_two_pow_sub_one_eq_mod s.toNat 4
  have hlt : s.toNat % 16 < 16 := Nat.mod_lt _ (by decide)
  have hsize : ((s &&& 15).setWidth 32 : BitVec 32) = BitVec.ofNat 32 (s.toNat % 16) := by
    refine BitVec.eq_of_toNat_eq ?_
    rw [BitVec.toNat_setWidth, hlow, BitVec.toNat_ofNat]
  by_cases hzero : s &&& 15 = 0
  · have haligned : s.toNat % 16 = 0 := by
      rw [← hlow, hzero]
      rfl
    rw [if_neg (not_not_intro hzero), haligned, fillBytes_zero]
    simp
  · have hwide : (BitVec.ofNat 32 (s.toNat % 16)).setWidth 64 = BitVec.ofNat 64 (s.toNat % 16) := by
      refine BitVec.eq_of_toNat_eq ?_
      rw [BitVec.toNat_setWidth, BitVec.toNat_ofNat, BitVec.toNat_ofNat]
      omega
    have hcount : (BitVec.ofNat 32 (s.toNat % 16)).toNat = s.toNat % 16 := by
      rw [BitVec.toNat_ofNat]
      omega
    rw [if_pos hzero, hsize, hwide, hcount, memset1bytes_eq c (by omega)]

theorem lt_setWidth_iff (left : BitVec 32) :
    (16 : Word) < left.setWidth 64 ↔ ¬ left.toNat ≤ 16 := by
  have hbound := left.isLt
  rw [BitVec.lt_def, BitVec.toNat_setWidth, Nat.mod_eq_of_lt (by omega), Nat.not_le]
  rfl

/-- Where the bytes behind the pairs go: from 2 GiB on `16*n` is negative. -/
theorem signExtend_pairs {left : BitVec 32} {k : Nat} (hk : left.toNat / 16 = k) :
    (16 * (left / 16)).signExtend 64 =
      BitVec.ofNat 64 (16 * k) - if left.toNat < 2 ^ 31 then 0#64 else 0x100000000#64 := by
  have hbound := left.isLt
  have hround : (16 * (left / 16)).toNat = 16 * k := by
    rw [BitVec.toNat_mul, BitVec.toNat_udiv]
    change 16 * (left.toNat / 16) % 2 ^ 32 = 16 * k
    omega
  have hmsb : (16 * (left / 16)).msb = decide (2 ^ 31 ≤ left.toNat) := by
    rw [BitVec.msb_eq_decide, hround, decide_eq_decide]
    change 2 ^ 31 ≤ 16 * k ↔ _
    omega
  refine BitVec.eq_of_toNat_eq ?_
  rw [BitVec.toNat_signExtend, BitVec.toNat_setWidth, hround, hmsb]
  by_cases hlong : left.toNat < 2 ^ 31
  · rw [if_pos hlong, decide_eq_false (by omega), BitVec.sub_zero, BitVec.toNat_ofNat]
    rfl
  · rw [if_neg hlong, decide_eq_true (by omega)]
    simp only [BitVec.toNat_sub, BitVec.toNat_ofNat, if_true]
    omega

/-- What `memset` stores behind the head: nothing at all in up to 16 bytes. -/
theorem memset_eq (s : Word) (c count left : BitVec 32) (m : Mem)
    (hleft : count - BitVec.ofNat 32 (s.toNat % 16) = left) :
    memset s c count m = some
      (if left.toNat ≤ 16 then fillBytes s (s.toNat % 16) (c.setWidth 8) m
      else if left.toNat < 2 ^ 31 then fillBytes s (s.toNat % 16 + left.toNat) (c.setWidth 8) m
      else
        fillBytes (s + BitVec.ofNat 64 (s.toNat % 16 + 16 * (left.toNat / 16)) - 0x100000000#64)
          (left.toNat % 16) (c.setWidth 8)
          (fillBytes s (s.toNat % 16 + 16 * (left.toNat / 16)) (c.setWidth 8) m)) := by
  have hlt : s.toNat % 16 < 16 := Nat.mod_lt _ (by decide)
  have hbound := left.isLt
  have hn : (left / 16).toNat = left.toNat / 16 := BitVec.toNat_udiv
  have hrest : (left % 16).toNat = left.toNat % 16 := BitVec.toNat_umod
  simp only [memset, memset_head, hleft, lt_setWidth_iff]
  by_cases hshort : left.toNat ≤ 16
  · simp [hshort]
  · obtain ⟨k, hk⟩ : ∃ k, left.toNat / 16 = k + 1 := ⟨left.toNat / 16 - 1, by omega⟩
    have hround : (16 * (left / 16)).toNat = 16 * (k + 1) := by
      rw [BitVec.toNat_mul, hn, hk]
      exact Nat.mod_eq_of_lt (show 16 * (k + 1) < 2 ^ 32 by omega)
    have hasm : memset16bytesAsm (s + BitVec.ofNat 64 (s.toNat % 16)) (memsetData c)
        (16 * (left / 16)) (fillBytes s (s.toNat % 16) (c.setWidth 8) m) =
        some (fillBytes s (s.toNat % 16 + 16 * (k + 1)) (c.setWidth 8) m) := by
      rw [memset16bytesAsm, memset16bytesLoop_eq (fun i => byte_memsetData c) (k := k)
        (by omega) (by rw [hround]; exact Nat.zero_add _)]
      exact congrArg some (fillBytes_add s (by omega) _ m)
    have htail : ∀ a m, (if left % 16 ≠ 0 then memset1bytes c (left % 16).toNat a m else m) =
        fillBytes a (left.toNat % 16) (c.setWidth 8) m := by
      intro a m
      by_cases hzero : left % 16 = 0
      · have hnone : left.toNat % 16 = 0 := by
          rw [← hrest, hzero]
          rfl
        rw [if_neg (not_not_intro hzero), hnone, fillBytes_zero]
      · rw [if_pos hzero, hrest, memset1bytes_eq c (by omega)]
    rw [if_pos hshort, if_neg hshort, hasm]
    simp only [Option.bind_eq_bind, Option.bind_some, htail, signExtend_pairs hk, hk]
    by_cases hlong : left.toNat < 2 ^ 31
    · have hsplit : s.toNat % 16 + left.toNat =
          s.toNat % 16 + 16 * (k + 1) + left.toNat % 16 := by omega
      rw [if_pos hlong, if_pos hlong, BitVec.sub_zero, BitVec.add_assoc, ← BitVec.ofNat_add, hsplit,
        ← fillBytes_add s (n := s.toNat % 16 + 16 * (k + 1)) (by omega)]
      rfl
    · have haddr : s + BitVec.ofNat 64 (s.toNat % 16) +
          (BitVec.ofNat 64 (16 * (k + 1)) - 0x100000000#64) =
            s + BitVec.ofNat 64 (s.toNat % 16 + 16 * (k + 1)) - 0x100000000#64 := by
        rw [BitVec.ofNat_add]
        bv_omega
      rw [if_neg hlong, if_neg hlong, haddr]
      rfl

/-! ## When the bytes are set -/

/-- What is asked of `memset`: the bytes in `[s, s+count)` are `c & 0xff`, the others are as
before. -/
def BytesSet (s : Word) (c count : BitVec 32) (m m' : Mem) : Prop :=
  ∀ b : Word, m' b =
    if s.toNat ≤ b.toNat ∧ b.toNat < s.toNat + count.toNat then c.setWidth 8 else m b

/-- What has to hold the value already.

- A head that reaches behind the end makes `left` wrap to nearly 4 GiB: all of that is stored
  behind the end, and the bytes behind the pairs come out in front of `s`.
- In up to 16 bytes behind the head nothing is stored.
- From 2 GiB on `16*n` is negative, and the bytes behind the pairs come out 4 GiB below their
  place. -/
def MemsetSuits (s : Word) (c count : BitVec 32) (m : Mem) : Prop :=
  let v := c.setWidth 8
  let head := s.toNat % 16
  let behind := (count.toNat - head) % 16
  if count.toNat < head then
    Holds (s + BitVec.ofNat 64 count.toNat) (head + (2 ^ 32 - 16) - count.toNat) v m ∧
      Holds (s + BitVec.ofNat 64 head - 16#64) (16 - head) v m
  else if count.toNat - head ≤ 16 then
    Holds (s + BitVec.ofNat 64 head) (count.toNat - head) v m
  else if count.toNat - head < 2 ^ 31 then True
  else
    Holds (s + BitVec.ofNat 64 (count.toNat - behind)) behind v m ∧
      Holds (s + BitVec.ofNat 64 (count.toNat - behind) - 0x100000000#64) behind v m

theorem bytesSet_iff {s : Word} {c count : BitVec 32} (h : s.toNat + count.toNat ≤ 2 ^ 64)
    (m m' : Mem) :
    BytesSet s c count m m' ↔ m' = fillBytes s count.toNat (c.setWidth 8) m := by
  simp only [BytesSet, funext_iff, fillBytes, toNat_sub_lt_iff h]

/-- A head that reaches behind the end wraps `left` to nearly 4 GiB. -/
theorem toNat_sub_head {count : BitVec 32} {n : Nat} (hn : n < 16) :
    (count - BitVec.ofNat 32 n).toNat =
      if n ≤ count.toNat then count.toNat - n else count.toNat + 2 ^ 32 - n := by
  have hcount := count.isLt
  rw [BitVec.toNat_sub, BitVec.toNat_ofNat]
  split <;> omega

theorem memset_sets_iff (s : Word) (c count : BitVec 32) (m : Mem)
    (hfits : s.toNat + count.toNat ≤ 2 ^ 64) :
    (∃ m', memset s c count m = some m' ∧ BytesSet s c count m m') ↔
      MemsetSuits s c count m := by
  have hlt : s.toNat % 16 < 16 := Nat.mod_lt _ (by decide)
  have hcount := count.isLt
  obtain ⟨left, hleft⟩ : ∃ left, count - BitVec.ofNat 32 (s.toNat % 16) = left := ⟨_, rfl⟩
  have hlen := @toNat_sub_head count _ hlt
  rw [hleft] at hlen
  rw [memset_eq s c count left m hleft]
  simp only [MemsetSuits, Option.some.injEq, exists_eq_left', bytesSet_iff hfits]
  by_cases hhead : count.toNat < s.toNat % 16
  · rw [if_neg (by omega)] at hlen
    have hfull : 16 * (left.toNat / 16) = 2 ^ 32 - 16 := by omega
    have htail : left.toNat % 16 = count.toNat + 16 - s.toNat % 16 := by omega
    have haddr := add_ofNat_sub s (s.toNat % 16 + (2 ^ 32 - 16)) (k := 0x100000000) (by decide)
    have hfront := add_ofNat_sub s (s.toNat % 16) (k := 16) (by decide)
    rw [if_pos hhead, if_neg (by omega), if_neg (by omega), hfull, htail, haddr, hfront,
      fillBytes_fillBytes_eq_iff, holds_add_iff s (by omega) (by omega),
      holds_add_iff s (by omega) (by omega), ← forall_and]
    refine forall_congr' fun b => ?_
    have hb := (b - s).isLt
    rw [toNat_sub_add s b (by omega), ← and_imp, ← and_imp, ← or_imp]
    refine imp_congr_left ?_
    split <;> omega
  · rw [if_pos (by omega)] at hlen
    rw [if_neg hhead, ← hlen]
    by_cases hshort : left.toNat ≤ 16
    · -- only the head is stored
      have hall : s.toNat % 16 + left.toNat = count.toNat := by omega
      rw [if_pos hshort, if_pos hshort, fillBytes_eq_fillBytes_iff s (by omega),
        holds_add_iff s (by omega) (by omega), hall]
    · rw [if_neg hshort, if_neg hshort]
      by_cases hlong : left.toNat < 2 ^ 31
      · have hall : s.toNat % 16 + left.toNat = count.toNat := by omega
        rw [if_pos hlong, if_pos hlong, hall]
        exact iff_of_true rfl trivial
      · have hend : count.toNat - left.toNat % 16 = s.toNat % 16 + 16 * (left.toNat / 16) := by
          omega
        have haddr := add_ofNat_sub s (s.toNat % 16 + 16 * (left.toNat / 16)) (k := 0x100000000)
          (by decide)
        rw [if_neg hlong, if_neg hlong, hend, haddr, fillBytes_fillBytes_eq_iff,
          holds_add_iff s (by omega) (by omega), holds_add_iff s (by omega) (by omega),
          ← forall_and]
        refine forall_congr' fun b => ?_
        have hb := (b - s).isLt
        rw [toNat_sub_add s b (by omega), ← and_imp, ← and_imp, ← or_imp]
        refine imp_congr_left ?_
        split <;> omega

/-- The call of `test_walk_pgtable`. -/
theorem memset_sets_readonly_page :
    ∃ m', memset 0x80000 0x55 100 (fun _ => 0) = some m' ∧
      BytesSet 0x80000 0x55 100 (fun _ => 0) m' :=
  (memset_sets_iff 0x80000 0x55 100 (fun _ => 0) (by decide)).2
    trivial

/-- Eight bytes at a 16 byte boundary: none of them is set. -/
theorem memset_short_not_set :
    ¬ ∃ m', memset 0x80000 0x55 8 (fun _ => 0) = some m' ∧
      BytesSet 0x80000 0x55 8 (fun _ => 0) m' := by
  rintro ⟨m', hrun, hset⟩
  rw [memset_eq 0x80000 0x55 8 8 (fun _ => 0) (by decide), if_pos (by decide)] at hrun
  obtain rfl := Option.some.inj hrun
  have hbyte := hset 0x80000
  revert hbyte
  decide

end Arm64OS
