import Arm64OS.Arch.Mmu

/-!
# Addresses and the ranges of the loops

The macros of `asm/pgtable.h` read as arithmetic on 48-bit addresses, and the pieces
into which the four loops cut a range.  `span k` is what a table of level `k` covers,
so an entry of level `k` covers `span (k + 1)`: 512 GiB, 1 GiB, 2 MiB and 4 KiB for
the levels `0` to `3`.
-/

namespace Arm64OS

/-- The bytes that a table of level `k` covers. -/
def span (k : Nat) : Nat := 2 ^ (48 - 9 * k)

theorem span_pos (k : Nat) : 0 < span k := Nat.two_pow_pos _

@[simp] theorem span_zero : span 0 = 281474976710656 := rfl

@[simp] theorem span_one : span 1 = 549755813888 := rfl

@[simp] theorem span_two : span 2 = 1073741824 := rfl

@[simp] theorem span_three : span 3 = 2097152 := rfl

@[simp] theorem span_four : span 4 = 4096 := rfl

/-- A boundary of one level is a boundary of the levels below it. -/
theorem mod_span_of_le {j k x : Nat} (hjk : j ≤ k) (hx : x % span j = 0) : x % span k = 0 := by
  have hdvd : span k ∣ span j := Nat.pow_dvd_pow 2 (by omega)
  exact Nat.mod_eq_zero_of_dvd (hdvd.trans (Nat.dvd_of_mod_eq_zero hx))

/-- The entry for the address `y` in a table of level `k`. -/
def tableIndex (k y : Nat) : Fin 512 := ⟨y / span (k + 1) % 512, Nat.mod_lt _ (by decide)⟩

theorem tableIndex_mod {k : Nat} (hk : k ≤ 3) (y : Nat) :
    tableIndex k (y % 2 ^ 48) = tableIndex k y := by
  apply Fin.ext
  obtain rfl | rfl | rfl | rfl : k = 0 ∨ k = 1 ∨ k = 2 ∨ k = 3 := by omega
  all_goals simp only [tableIndex, Nat.reduceAdd, span_one, span_two, span_three, span_four]
  all_goals omega

/-- Two addresses share their path down to level `k` when they lie in one span. -/
theorem span_eq_iff {k : Nat} (hk : k ≤ 4) {x y : Nat} (hx : x < 2 ^ 48) (hy : y < 2 ^ 48) :
    (∀ j < k, tableIndex j x = tableIndex j y) ↔ x / span k = y / span k := by
  -- One more index halves the distance nine times.
  have hstep : ∀ j ≤ 3, x / span (j + 1) = y / span (j + 1) ↔
      x / span j = y / span j ∧ tableIndex j x = tableIndex j y := by
    intro j hj
    simp only [Fin.ext_iff, tableIndex]
    obtain rfl | rfl | rfl | rfl : j = 0 ∨ j = 1 ∨ j = 2 ∨ j = 3 := by omega
    all_goals simp only [Nat.reduceAdd, span_zero, span_one, span_two, span_three, span_four]
    all_goals omega
  induction k with
  | zero =>
      rw [span_zero]
      simp only [Nat.not_lt_zero, false_implies, implies_true, true_iff]
      omega
  | succ k ih =>
      have hk' := hstep k (by omega)
      constructor
      · intro h
        exact hk'.mpr ⟨(ih (by omega)).mp fun j hj => h j (by omega), h k (by omega)⟩
      · intro h j hj
        rcases Nat.lt_succ_iff_lt_or_eq.mp hj with hlt | rfl
        · exact (ih (by omega)).mpr (hk'.mp h).1 j hlt
        · exact (hk'.mp h).2

/-! ### The macros -/

theorem toNat_entryIndex (shift : Nat) {bits : Nat} (hbits : bits < 64) (addr : U64) :
    (entryIndex shift bits addr).toNat = addr.toNat / 2 ^ shift % 2 ^ bits :=
  BitField.toNat_field addr shift hbits

theorem toNat_pgdIndex (addr : U64) : (pgdIndex addr).toNat = tableIndex 0 addr.toNat :=
  toNat_entryIndex 39 (by decide : 9 < 64) addr

theorem toNat_pudIndex (addr : U64) : (pudIndex addr).toNat = tableIndex 1 addr.toNat :=
  toNat_entryIndex 30 (by decide : 9 < 64) addr

theorem toNat_pmdIndex (addr : U64) : (pmdIndex addr).toNat = tableIndex 2 addr.toNat :=
  toNat_entryIndex 21 (by decide : 9 < 64) addr

theorem toNat_pteIndex (addr : U64) : (pteIndex addr).toNat = tableIndex 3 addr.toNat :=
  toNat_entryIndex 12 (by decide : 9 < 64) addr

/-- The end of a range, which is 0 where the range reaches the top of the address space. -/
def rangeEnd (end_ : U64) : Nat := if end_ = 0#64 then 2 ^ 64 else end_.toNat

theorem rangeEnd_of_ne {end_ : U64} (hne : end_ ≠ 0#64) : rangeEnd end_ = end_.toNat := if_neg hne

theorem rangeEnd_of_toNat_pos {end_ : U64} (hpos : 0 < end_.toNat) : rangeEnd end_ = end_.toNat :=
  rangeEnd_of_ne fun he => by simp [he] at hpos

theorem toNat_of_rangeEnd_lt {end_ : U64} (hlt : rangeEnd end_ < 2 ^ 64) :
    end_.toNat = rangeEnd end_ := by
  refine (rangeEnd_of_ne fun he => ?_).symm
  rw [he] at hlt
  exact absurd hlt (by decide)

/-- The decrement of an end wraps to the last address. -/
theorem toNat_sub_one (end_ : U64) : (end_ - 1#64).toNat = rangeEnd end_ - 1 := by
  have hlt := end_.isLt
  by_cases hzero : end_ = 0#64
  · subst hzero
    rfl
  · have hpos : end_.toNat ≠ 0 := fun he => hzero (BitVec.eq_of_toNat_eq he)
    rw [rangeEnd_of_ne hzero, BitVec.toNat_sub, BitVec.toNat_ofNat]
    omega

theorem rangeEnd_pos (end_ : U64) : 0 < rangeEnd end_ := by
  by_cases hzero : end_ = 0#64
  · subst hzero
    decide
  · rw [rangeEnd_of_ne hzero]
    exact Nat.pos_of_ne_zero fun he => hzero (BitVec.eq_of_toNat_eq he)

theorem rangeEnd_le (end_ : U64) : rangeEnd end_ ≤ 2 ^ 64 := by
  unfold rangeEnd
  split
  · exact le_rfl
  · exact end_.isLt.le

theorem rangeEnd_inj {e e' : U64} (h : rangeEnd e = rangeEnd e') : e = e' := by
  have hsub : e - 1#64 = e' - 1#64 :=
    BitVec.eq_of_toNat_eq (by rw [toNat_sub_one, toNat_sub_one, h])
  simpa using congrArg (· + 1#64) hsub

/-- The word `(addr + SIZE) & MASK` is the end of the block of `addr`. -/
theorem rangeEnd_boundary {shift : Nat} (hshift : shift < 64) (addr : U64) :
    rangeEnd ((addr + entrySize shift) &&& entryMask shift) =
      (addr.toNat / 2 ^ shift + 1) * 2 ^ shift := by
  have hpos : 0 < 2 ^ shift := Nat.two_pow_pos shift
  have hpow : 2 ^ (64 - shift) * 2 ^ shift = 2 ^ 64 := by
    rw [← pow_add, Nat.sub_add_cancel hshift.le]
  have hsize : (entrySize shift).toNat = 2 ^ shift := by
    rw [entrySize, BitVec.toNat_shiftLeft, BitVec.toNat_ofNat, Nat.shiftLeft_eq]
    have hlt : 2 ^ shift < 2 ^ 64 := Nat.pow_lt_pow_right (by decide) hshift
    omega
  have hquot : addr.toNat / 2 ^ shift < 2 ^ (64 - shift) := by
    rw [Nat.div_lt_iff_lt_mul hpos, hpow]
    exact addr.isLt
  have hrem := Nat.div_add_mod' addr.toNat (2 ^ shift)
  have hmod : addr.toNat % 2 ^ shift < 2 ^ shift := Nat.mod_lt _ hpos
  have hnat : ((addr + entrySize shift) &&& entryMask shift).toNat =
      (addr.toNat + 2 ^ shift) % 2 ^ 64 / 2 ^ shift * 2 ^ shift := by
    rw [entryMask, entrySize, BitField.toNat_and_highMask _ hshift, ← entrySize, BitVec.toNat_add,
      hsize]
  rcases Nat.lt_or_eq_of_le (Nat.succ_le_of_lt hquot) with hbelow | htop
  · have hle : (addr.toNat / 2 ^ shift + 2) * 2 ^ shift ≤ 2 ^ 64 :=
      hpow ▸ Nat.mul_le_mul_right _ hbelow
    rw [Nat.add_mul] at hle
    rw [Nat.mod_eq_of_lt (by omega), Nat.add_div_right _ hpos] at hnat
    rw [rangeEnd_of_toNat_pos (by rw [hnat]; exact Nat.mul_pos (Nat.succ_pos _) hpos), hnat]
  · -- the last block: the sum wraps, and what is left of it is below the mask
    have hblock : (addr.toNat / 2 ^ shift + 1) * 2 ^ shift = 2 ^ 64 := by rw [← hpow, ← htop]
    have hsum : addr.toNat + 2 ^ shift = addr.toNat % 2 ^ shift + 2 ^ 64 := by
      rw [Nat.add_mul, Nat.one_mul] at hblock
      omega
    have hlt : addr.toNat % 2 ^ shift < 2 ^ 64 := (Nat.mod_le _ _).trans_lt addr.isLt
    rw [hsum, Nat.add_mod_right, Nat.mod_eq_of_lt hlt, Nat.div_eq_of_lt hmod, Nat.zero_mul] at hnat
    rw [hblock, rangeEnd, if_pos (BitVec.eq_of_toNat_eq hnat)]

/-- The loops stop at the end of the block or of the range, whichever comes first. -/
theorem rangeEnd_addrEnd {shift : Nat} (hshift : shift < 64) (addr end_ : U64) :
    rangeEnd (addrEnd shift addr end_) =
      min (rangeEnd end_) ((addr.toNat / 2 ^ shift + 1) * 2 ^ shift) := by
  have hbound := rangeEnd_boundary hshift addr
  have hpos := rangeEnd_pos end_
  have hpos' := rangeEnd_pos ((addr + entrySize shift) &&& entryMask shift)
  have hlt : ((addr + entrySize shift) &&& entryMask shift) - 1#64 < end_ - 1#64 ↔
      (addr.toNat / 2 ^ shift + 1) * 2 ^ shift < rangeEnd end_ := by
    rw [BitVec.lt_def, toNat_sub_one, toNat_sub_one, ← hbound]
    omega
  simp only [addrEnd, hlt]
  split
  · rw [hbound]
    omega
  · omega

theorem toNat_addrEnd {shift : Nat} (hshift : shift ≤ 39) {addr end_ : U64}
    (hlt : addr.toNat < end_.toNat) (hend : end_.toNat ≤ 2 ^ 48) :
    (addrEnd shift addr end_).toNat =
      min end_.toNat ((addr.toNat / 2 ^ shift + 1) * 2 ^ shift) := by
  have hmin := @rangeEnd_addrEnd shift (by omega) addr end_
  rw [rangeEnd_of_toNat_pos (Nat.zero_lt_of_lt hlt)] at hmin
  rw [toNat_of_rangeEnd_lt (by omega), hmin]

theorem toNat_and_pteAddrMask (x : U64) :
    (x &&& pteAddrMask).toNat = x.toNat % 2 ^ 48 / 4096 * 4096 := by
  have hmask : pteAddrMask = ((1#64 <<< 48) - 1#64) &&& ~~~((1#64 <<< 12) - 1#64) := by decide
  rw [hmask, ← BitVec.and_assoc, BitField.toNat_and_highMask _ (by decide : 12 < 64),
    BitField.toNat_and_lowMask _ (by decide : 48 < 64)]
  rfl

/-- A page below `2 ^ 48` lies in the address field as it is. -/
theorem and_pteAddrMask_of_aligned {x : U64} (hx : x.toNat % 4096 = 0) (hlt : x.toNat < 2 ^ 48) :
    x &&& pteAddrMask = x := by
  apply BitVec.eq_of_toNat_eq
  rw [toNat_and_pteAddrMask]
  omega

/-! ### Pieces of a range -/

/-- The part of `[lo, hi)` that lies in one span of level `k`. -/
@[mk_iff]
structure Piece (lo hi k a e : Nat) : Prop where
  lo_le : lo ≤ a
  lt : a < e
  le_hi : e ≤ hi
  starts : a = lo ∨ a % span k = 0
  stops : e = hi ∨ e % span k = 0
  within : (e - 1) / span k = a / span k

/-- What is left of a piece of level `k` when the loop over its entries is at `a`. -/
@[mk_iff]
structure Rest (lo hi k a e : Nat) : Prop where
  lo_le : lo ≤ a
  lt : a < e
  le_hi : e ≤ hi
  starts : a = lo ∨ a % span (k + 1) = 0
  stops : e = hi ∨ e % span k = 0
  within : (e - 1) / span k = a / span k

variable {lo hi k a e : Nat}

theorem Piece.rest (h : Piece lo hi k a e) : Rest lo hi k a e := by
  obtain ⟨hlo, hlt, hhi, hstart, hstop, hwithin⟩ := h
  exact ⟨hlo, hlt, hhi, hstart.imp_right (mod_span_of_le (Nat.le_succ k)), hstop, hwithin⟩

/-- The whole range is a piece of level `0`. -/
theorem piece_zero (hlt : lo < hi) (hhi : hi ≤ 2 ^ 48) : Piece lo hi 0 lo hi := by
  refine ⟨le_rfl, hlt, le_rfl, Or.inl rfl, Or.inl rfl, ?_⟩
  rw [span_zero]
  omega

/-- Between page boundaries a range is cut at page boundaries only. -/
theorem Rest.aligned (hlo : lo % 4096 = 0) (hhi : hi % 4096 = 0) (hk : k ≤ 3)
    (h : Rest lo hi k a e) : a % 4096 = 0 ∧ e % 4096 = 0 := by
  rw [rest_iff] at h
  obtain rfl | rfl | rfl | rfl : k = 0 ∨ k = 1 ∨ k = 2 ∨ k = 3 := by omega
  all_goals
    simp only [Nat.reduceAdd, span_zero, span_one, span_two, span_three, span_four] at *
    omega

/-- One turn of a loop of level `k` gets a piece of the next level. -/
theorem Rest.piece (hk : k ≤ 3) (h : Rest lo hi k a e) {n : Nat}
    (hn : n = min e ((a / span (k + 1) + 1) * span (k + 1))) : Piece lo hi (k + 1) a n := by
  rw [rest_iff] at h
  rw [piece_iff]
  obtain rfl | rfl | rfl | rfl : k = 0 ∨ k = 1 ∨ k = 2 ∨ k = 3 := by omega
  all_goals
    simp only [Nat.reduceAdd, span_zero, span_one, span_two, span_three, span_four] at *
    omega

/-- Where a turn does not end the loop, the next one starts at the next entry of the
same table. -/
theorem Rest.step (hk : k ≤ 3) (h : Rest lo hi k a e) {n : Nat}
    (hn : n = min e ((a / span (k + 1) + 1) * span (k + 1))) (hne : n ≠ e) :
    Rest lo hi k n e ∧ a / span k = n / span k ∧
      (tableIndex k n : Nat) = tableIndex k a + 1 ∧
      n / span (k + 1) = a / span (k + 1) + 1 := by
  rw [rest_iff] at h ⊢
  simp only [tableIndex]
  obtain rfl | rfl | rfl | rfl : k = 0 ∨ k = 1 ∨ k = 2 ∨ k = 3 := by omega
  all_goals
    simp only [Nat.reduceAdd, span_zero, span_one, span_two, span_three, span_four] at *
    omega

/-- A loop takes at most 512 turns. -/
theorem Rest.turns (hk : k ≤ 3) (h : Rest lo hi k a e) :
    (e - 1) / span (k + 1) - a / span (k + 1) < 512 := by
  rw [rest_iff] at h
  obtain rfl | rfl | rfl | rfl : k = 0 ∨ k = 1 ∨ k = 2 ∨ k = 3 := by omega
  all_goals
    simp only [Nat.reduceAdd, span_zero, span_one, span_two, span_three, span_four] at *
    omega

end Arm64OS
