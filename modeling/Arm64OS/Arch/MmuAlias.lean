import Arm64OS.Arch.MmuRun

/-!
# Addresses of more than 48 bits

The four indices are fields of the low 48 bits of an address.  A call on a range inside one block
of `2 ^ 48` bytes does what the call does at the same place of the lowest block
(`mapStep_lower`).
-/

namespace Arm64OS

variable {d : U64} {k fuel : Nat} {f : U64 → U64 → U64 → U64 → PgState → Option PgState}
  {next : U64 → U64 → U64}

/-- The call on the addresses with the same low 48 bits. -/
def Mapping.lower (m : Mapping) : Mapping := { m with virt := m.virt &&& ((1#64 <<< 48) - 1#64) }

/-- Whole pages of the lowest block. -/
structure LowRange (a e : U64) : Prop where
  lt : a.toNat < e.toNat
  le : e.toNat ≤ 2 ^ 48
  start_aligned : a.toNat % 4096 = 0
  end_aligned : e.toNat % 4096 = 0

theorem LowRange.cut {a e : U64} (h : LowRange a e) (hk : k ≤ 3) (hnext : CutsAt k next) :
    LowRange a (next a e) ∧ (next a e ≠ e → LowRange (next a e) e) := by
  obtain ⟨hlt, hle, ha, he⟩ := h
  have hn := hnext a e hlt hle ha he
  have hcut : a.toNat < (next a e).toNat ∧ (next a e).toNat ≤ e.toNat ∧
      (next a e).toNat % 4096 = 0 := by
    obtain rfl | rfl | rfl | rfl : k = 0 ∨ k = 1 ∨ k = 2 ∨ k = 3 := by omega
    all_goals
      simp only [Nat.reduceAdd, span_one, span_two, span_three, span_four] at hn
      omega
  obtain ⟨hlt', hle', hmod⟩ := hcut
  refine ⟨⟨hlt', hle'.trans hle, ha, hmod⟩, fun hlast => ⟨?_, hle, hmod, he⟩⟩
  exact Nat.lt_of_le_of_ne hle' fun he => hlast (BitVec.eq_of_toNat_eq he)

/-! ### Addresses moved by whole blocks -/

section Moved

variable (hd : d.toNat % 2 ^ 48 = 0)

include hd

theorem toNat_add_block {a : U64} (ha : a.toNat < 2 ^ 48) :
    (a + d).toNat = a.toNat + d.toNat := by
  have hlt := d.isLt
  rw [BitVec.toNat_add]
  omega

theorem rangeEnd_add_block {e : U64} (hpos : 0 < e.toNat) (hle : e.toNat ≤ 2 ^ 48) :
    rangeEnd (e + d) = e.toNat + d.toNat := by
  have hlt := d.isLt
  have hsum : (e + d).toNat = (e.toNat + d.toNat) % 2 ^ 64 := BitVec.toNat_add e d
  by_cases hzero : e + d = 0#64
  · have hnat : (e + d).toNat = 0 := congrArg BitVec.toNat hzero
    rw [rangeEnd, if_pos hzero]
    omega
  · have hnat : (e + d).toNat ≠ 0 := fun h => hzero (BitVec.eq_of_toNat_eq h)
    rw [rangeEnd_of_ne hzero]
    omega

theorem tableIndex_add_block (hk : k ≤ 3) (a : U64) :
    tableIndex k (a + d).toNat = tableIndex k a.toNat := by
  have hmod : (a + d).toNat % 2 ^ 48 = a.toNat % 2 ^ 48 := by
    rw [BitVec.toNat_add]
    omega
  rw [← tableIndex_mod hk, hmod, tableIndex_mod hk]

theorem addrEnd_add_block {shift : Nat} (hshift : shift ≤ 39) {a e : U64} (h : LowRange a e) :
    addrEnd shift (a + d) (e + d) = addrEnd shift a e + d := by
  have hpos : 0 < 2 ^ shift := Nat.two_pow_pos shift
  have hdvd : 2 ^ shift ∣ d.toNat :=
    (Nat.pow_dvd_pow 2 (show shift ≤ 48 by omega)).trans (Nat.dvd_of_mod_eq_zero hd)
  obtain ⟨q, hq⟩ := hdvd
  have hmin := toNat_addrEnd hshift h.lt h.le
  have hblock : 0 < (a.toNat / 2 ^ shift + 1) * 2 ^ shift := Nat.mul_pos (Nat.succ_pos _) hpos
  have hquot : ((a.toNat + d.toNat) / 2 ^ shift + 1) * 2 ^ shift =
      (a.toNat / 2 ^ shift + 1) * 2 ^ shift + d.toNat := by
    rw [hq, Nat.add_mul_div_left _ _ hpos]
    ring
  have hlt := h.lt
  have hle := h.le
  apply rangeEnd_inj
  rw [rangeEnd_addrEnd (by omega), rangeEnd_add_block hd (by omega) h.le,
    toNat_add_block hd (by omega), hquot, rangeEnd_add_block hd (by omega) (by omega), hmin]
  omega

theorem and_pageMask_add_block (x : U64) : (x + d) &&& pageMask = (x &&& pageMask) + d := by
  apply BitVec.eq_of_toNat_eq
  rw [toNat_and_pageMask, BitVec.toNat_add, BitVec.toNat_add, toNat_and_pageMask]
  omega

theorem and_not_entryMask_add_block (x : U64) :
    (x + d) &&& ~~~entryMask pmdShift = 0#64 ↔ x &&& ~~~entryMask pmdShift = 0#64 := by
  rw [and_not_entryMask_eq_zero, and_not_entryMask_eq_zero, BitVec.toNat_add]
  simp only [span_three]
  omega

end Moved

/-! ### The calls -/

/-- A function that does not see by how many blocks its range is moved. -/
def BlockBlind (d : U64) (f : U64 → U64 → U64 → U64 → PgState → Option PgState) : Prop :=
  ∀ p a e phys s, LowRange a e → f p (a + d) (e + d) phys s = f p a e phys s

theorem mapLoop_blockBlind (hk : k ≤ 3) (hnext : CutsAt k next)
    (hcut : ∀ a e, LowRange a e → next (a + d) (e + d) = next a e + d) (hf : BlockBlind d f)
    {p a e phys : U64} {s : PgState} (h : LowRange a e) :
    mapLoop next f (e + d) fuel p (a + d) phys s = mapLoop next f e fuel p a phys s := by
  induction fuel generalizing p a phys s with
  | zero => rfl
  | succ fuel ih =>
      obtain ⟨hpiece, hmore⟩ := h.cut hk hnext
      rw [mapLoop, mapLoop, hcut a e h, hf p a _ phys s hpiece]
      refine congrArg (Option.bind _) (funext fun s' => ?_)
      by_cases hlast : next a e = e
      · rw [if_pos hlast, if_pos (by rw [hlast])]
      · have hne : next a e + d ≠ e + d := fun he => hlast ((BitVec.add_left_inj d).mp he)
        have hsize : next a e + d - (a + d) = next a e - a := by bv_omega
        rw [if_neg hlast, if_neg hne, hsize, ih (hmore hlast)]

theorem allocInit_blockBlind (alloc : Nat → U64) (hd : d.toNat % 2 ^ 48 = 0) (hk : k ≤ 3)
    (hnext : CutsAt k next) (hcut : ∀ a e, LowRange a e → next (a + d) (e + d) = next a e + d)
    (hf : BlockBlind d f) {index : U64 → U64}
    (hindex : ∀ a, (index a).toNat = tableIndex k a.toNat) :
    BlockBlind d (allocInit alloc (offsetPhys index) next f fuel) := by
  intro p a e phys s h
  have hsame : index (a + d) = index a := by
    apply BitVec.eq_of_toNat_eq
    rw [hindex, hindex, tableIndex_add_block hd hk]
  rw [allocInit, allocInit, offsetPhys, hsame]
  exact mapLoop_blockBlind hk hnext hcut hf h

theorem setPmd_blockBlind {alloc : Nat → U64} {prot flags : U64} (hd : d.toNat % 2 ^ 48 = 0)
    (hpte : BlockBlind d (allocInitPte alloc prot fuel)) :
    BlockBlind d (setPmd alloc prot flags fuel) := by
  intro p a e phys s h
  have htest : (a + d ||| e + d ||| phys) &&& ~~~entryMask pmdShift = 0#64 ↔
      (a ||| e ||| phys) &&& ~~~entryMask pmdShift = 0#64 := by
    simp only [BitVec.and_or_distrib_right, BitVec.or_eq_zero_iff,
      and_not_entryMask_add_block hd]
  simp only [setPmd, htest, hpte p a e phys s h]

/-- A call does the same wherever its range is moved to by whole blocks. -/
theorem createPgdMapping_blockBlind (alloc : Nat → U64) (hd : d.toNat % 2 ^ 48 = 0)
    {phys virt size prot flags : U64}
    (h : LowRange (virt &&& pageMask) (pageAlign (virt + size))) (pgdir : U64) (s : PgState) :
    createPgdMapping alloc fuel pgdir phys (virt + d) size prot flags s =
      createPgdMapping alloc fuel pgdir phys virt size prot flags s := by
  have hpte : BlockBlind d (allocInitPte alloc prot fuel) :=
    allocInit_blockBlind alloc hd le_rfl cutsAt_add_pageSize (fun a e _ => by bv_omega)
      (fun _ _ _ _ _ _ => rfl) toNat_pteIndex
  have hpmd : BlockBlind d (allocInitPmd alloc prot flags fuel) :=
    allocInit_blockBlind alloc hd (by decide) cutsAt_pmdAddrEnd
      (fun _ _ => addrEnd_add_block hd (by decide)) (setPmd_blockBlind hd hpte) toNat_pmdIndex
  have hpud : BlockBlind d (allocInitPud alloc prot flags fuel) :=
    allocInit_blockBlind alloc hd (by decide) cutsAt_pudAddrEnd
      (fun _ _ => addrEnd_add_block hd (by decide)) hpmd toNat_pudIndex
  have hindex : pgdIndex (virt + d) = pgdIndex virt := by
    apply BitVec.eq_of_toNat_eq
    rw [toNat_pgdIndex, toNat_pgdIndex, tableIndex_add_block hd (by decide)]
  have hend : pageAlign (virt + d + size) = pageAlign (virt + size) + d := by
    have hsum : virt + d + size + pageSize - 1#64 = virt + size + pageSize - 1#64 + d := by bv_omega
    exact (congrArg (· &&& pageMask) hsum).trans (and_pageMask_add_block hd _)
  rw [createPgdMapping, createPgdMapping, pgdOffsetRaw, hindex, and_pageMask_add_block hd, hend]
  exact mapLoop_blockBlind (by decide) cutsAt_pgdAddrEnd
    (fun _ _ => addrEnd_add_block hd (by decide)) hpud h

/-- A call is the call on the low 48 bits of its addresses. -/
theorem mapStep_lower (alloc : Nat → U64) {m : Mapping} (hm : m.lower.InRange) (pgdir : U64)
    (s : PgState) : mapStep alloc fuel pgdir m s = mapStep alloc fuel pgdir m.lower s := by
  have hlow : m.lower.virt.toNat = m.virt.toNat % 2 ^ 48 :=
    BitField.toNat_and_lowMask m.virt (by decide : 48 < 64)
  have hvirt : m.lower.virt + (m.virt - m.lower.virt) = m.virt := by bv_omega
  have hd : (m.virt - m.lower.virt).toNat % 2 ^ 48 = 0 := by
    rw [BitVec.toNat_sub, hlow]
    omega
  have h : LowRange m.lower.addr m.lower.end_ :=
    ⟨hm.1, hm.2, Mapping.addr_aligned, Mapping.end_aligned⟩
  rw [mapStep, ← hvirt]
  exact createPgdMapping_blockBlind alloc hd h pgdir s

end Arm64OS
