import Arm64OS.Arch.MmuSpec

/-!
# What the leaves of a mapping say

A leaf that a call writes translates every address of its page or section by the same
distance, `phys - addr`, and carries the attribute bits of `prot`.  An entry is the
physical address of the block and `prot` side by side: the address is inside the
address field and `prot` is outside.
-/

namespace Arm64OS

/-- The arguments of a proper mapping: the range and its image lie below `2 ^ 48`, and
`prot` has the type bits of a page and none inside the address field. -/
structure Mapping.Proper (m : Mapping) : Prop where
  inRange : m.InRange
  phys_below : (m.phys &&& pageMask).toNat + (m.end_.toNat - m.addr.toNat) ≤ 2 ^ 48
  prot_type : m.prot &&& typeMask = pteTypePage
  prot_addr : m.prot &&& pteAddrMask = 0#64

/-- The type bits of a leaf are those the MMU accepts. -/
def Leaf.valid : Leaf → Bool
  | .sect _ => true
  | .page e => e &&& typeMask = pteTypePage

/-! ### Entries -/

theorem attrs_or (a b : U64) : attrs (a ||| b) = attrs a ||| attrs b := by
  simp only [attrs, BitVec.and_or_distrib_right]

/-- An address has no attribute bits. -/
theorem attrs_of_addr {x : U64} (hx : x &&& pteAddrMask = x) : attrs x = 0#64 := by
  have hself : x &&& ~~~pteAddrMask = 0#64 := by
    rw [← hx, BitVec.and_assoc, show pteAddrMask &&& ~~~pteAddrMask = 0#64 by decide,
      BitVec.and_zero]
  rw [attrs, hself, BitVec.zero_and]

theorem attrs_mkSectProt (prot : U64) : attrs (mkSectProt prot) = attrs prot := by
  rw [attrs, attrs, mkSectProt, BitVec.and_assoc, BitVec.and_assoc, BitVec.and_assoc,
    BitVec.and_comm (~~~pteTableBit), BitVec.and_assoc, BitVec.and_self]

/-- Rounding an aligned address to its frame and back gives it back. -/
theorem frame_shift {x : U64} {k : Nat} (hx : x.toNat % 2 ^ k = 0) : (x >>> k) <<< k = x := by
  apply BitVec.eq_of_toNat_eq
  rw [BitField.toNat_shiftRight_shiftLeft, Nat.div_mul_cancel (Nat.dvd_of_mod_eq_zero hx)]

variable {m : Mapping} {y : Nat}

/-- The distance from `addr` to `phys` is the same for the block and for the address. -/
theorem toNat_mapped (h : m.Proper) {va : U64} (hva : m.Covers va.toNat) :
    ((m.phys &&& pageMask) + (va - m.addr)).toNat =
      (m.phys &&& pageMask).toNat + (va.toNat - m.addr.toNat) := by
  obtain ⟨hlo, hhi⟩ := hva
  have hphys := h.phys_below
  rw [BitVec.toNat_add, BitVec.toNat_sub]
  omega

/-- An aligned address and an offset inside its block are glued by addition. -/
theorem toNat_or_offset {x va mask : U64} {k : Nat} (hk : k < 64)
    (hmask : mask = ~~~((1#64 <<< k) - 1#64)) (hx : x.toNat % 2 ^ k = 0) :
    (x ||| (va &&& ~~~mask)).toNat = x.toNat + va.toNat % 2 ^ k := by
  have hlow : (va &&& ~~~mask).toNat = va.toNat % 2 ^ k := by
    rw [hmask, BitVec.not_not, BitField.toNat_and_lowMask va hk]
  have hlt : va.toNat % 2 ^ k < 2 ^ k := Nat.mod_lt _ (Nat.two_pow_pos k)
  rw [BitField.toNat_or_of_low (k := k) x _ hx (by omega), hlow]

/-- The physical address of a block that lies in the range from its start: it fits into
the address field, and with the offset of `va` in the block it is the image of `va`. -/
theorem physBase_spec (h : m.Proper) {va x : U64} (hva : m.Covers va.toNat) (mask : U64)
    {k : Nat} (hk : 12 ≤ k ∧ k < 64) (hmask : mask = ~~~((1#64 <<< k) - 1#64))
    (hx : x = BitVec.ofNat 64 (va.toNat / 2 ^ k * 2 ^ k) + m.offset)
    (hlo : m.addr.toNat ≤ va.toNat / 2 ^ k * 2 ^ k) (haligned : x.toNat % 2 ^ k = 0) :
    x &&& pteAddrMask = x ∧ x ||| (va &&& ~~~mask) = (m.phys &&& pageMask) + (va - m.addr) := by
  have hphys := h.phys_below
  have hend := h.inRange.2
  have hdiv : va.toNat / 2 ^ k * 2 ^ k + va.toNat % 2 ^ k = va.toNat := by
    rw [Nat.mul_comm]
    exact Nat.div_add_mod _ _
  have hpage : x.toNat % 4096 = 0 := by
    have hdvd : 2 ^ 12 ∣ 2 ^ k := Nat.pow_dvd_pow 2 hk.1
    exact Nat.mod_eq_zero_of_dvd (hdvd.trans (Nat.dvd_of_mod_eq_zero haligned))
  -- The sum does not wrap: the image of the range lies below `2 ^ 48`.
  have hnat : x.toNat =
      (m.phys &&& pageMask).toNat + (va.toNat / 2 ^ k * 2 ^ k - m.addr.toNat) := by
    rw [hx, Mapping.offset, BitVec.toNat_add, BitVec.toNat_sub, BitVec.toNat_ofNat]
    generalize va.toNat / 2 ^ k * 2 ^ k = base at *
    have hhi := hva.2
    have haddr := m.addr.isLt
    omega
  have hhi := hva.2
  refine ⟨and_pteAddrMask_of_aligned hpage (by omega), ?_⟩
  apply BitVec.eq_of_toNat_eq
  rw [toNat_or_offset hk.2 hmask haligned, toNat_mapped h hva]
  omega

/-! ### Leaves -/

/-- What the leaf of a covered address has to say. -/
def Leaf.MapsAs (m : Mapping) (va : U64) (l : Leaf) : Prop :=
  l.valid ∧ l.translate va = (m.phys &&& pageMask) + (va - m.addr) ∧ attrs l.entry = attrs m.prot

theorem page_mapsAs (h : m.Proper) {va : U64} (hva : m.Covers va.toNat) :
    ∃ l, pageLeaf (m.pageEntry va.toNat) = some l ∧ l.MapsAs m va := by
  have haligned := m.addr_aligned
  have hphys := and_pageMask_mod m.phys
  have hlo := hva.1
  obtain ⟨x, hx⟩ : ∃ x, x = BitVec.ofNat 64 (va.toNat / 2 ^ 12 * 2 ^ 12) + m.offset := ⟨_, rfl⟩
  have hx12 : x.toNat % 2 ^ 12 = 0 := by
    rw [hx, Mapping.offset, BitVec.toNat_add, BitVec.toNat_sub, BitVec.toNat_ofNat]
    omega
  obtain ⟨haddr, himage⟩ := physBase_spec (k := 12) h hva pageMask (by decide) rfl hx
    (by omega) hx12
  have hentry : m.pageEntry va.toNat = x ||| m.prot := by
    rw [Mapping.pageEntry, show span 4 = 2 ^ 12 from rfl, ← hx, pfnPte, pageShift,
      frame_shift hx12]
  have hlow : x &&& typeMask = 0#64 := by
    rw [← haddr, BitVec.and_assoc, show pteAddrMask &&& typeMask = 0#64 by decide, BitVec.and_zero]
  have htype : (x ||| m.prot) &&& typeMask = pteTypePage := by
    rw [BitVec.and_or_distrib_right, hlow, h.prot_type, BitVec.zero_or]
  have hne : x ||| m.prot ≠ 0#64 := by
    intro hzero
    rw [hzero] at htype
    exact absurd htype (by decide)
  refine ⟨.page (x ||| m.prot), ?_, ?_, ?_, ?_⟩
  · rw [hentry, pageLeaf, if_neg hne]
  · simp [Leaf.valid, htype]
  · have hfield : (x ||| m.prot) &&& pteAddrMask = x := by
      rw [BitVec.and_or_distrib_right, haddr, h.prot_addr, BitVec.or_zero]
    rw [Leaf.translate, hfield, himage]
  · rw [Leaf.entry, attrs_or, attrs_of_addr haddr, BitVec.zero_or]

theorem sect_mapsAs (h : m.Proper) {va : U64} (hva : m.Covers va.toNat)
    (huses : m.usesSection va.toNat) :
    (Leaf.sect (m.sectEntry va.toNat)).MapsAs m va := by
  obtain ⟨hlo, hhi, hphys, -⟩ := huses
  obtain ⟨x, hx⟩ : ∃ x, x = BitVec.ofNat 64 (va.toNat / 2 ^ 21 * 2 ^ 21) + m.offset := ⟨_, rfl⟩
  have hx21 : x.toNat % 2 ^ 21 = 0 := by
    rw [hx, BitVec.toNat_add, BitVec.toNat_ofNat]
    rw [span_three] at hphys
    omega
  obtain ⟨haddr, himage⟩ := physBase_spec (k := 21) h hva (entryMask pmdShift) (by decide)
    rfl hx hlo hx21
  have hentry : m.sectEntry va.toNat = x ||| (pmdTypeSect ||| mkSectProt m.prot) := by
    rw [Mapping.sectEntry, show span 3 = 2 ^ 21 from rfl, ← hx, pfnPmd, pmdShift,
      frame_shift hx21]
  refine ⟨rfl, ?_, ?_⟩
  · have hsect : pmdTypeSect &&& pteAddrMask = 0#64 := by decide
    have hprot : mkSectProt m.prot &&& pteAddrMask = 0#64 := by
      rw [mkSectProt, BitVec.and_assoc, BitVec.and_comm (~~~pteTableBit), ← BitVec.and_assoc,
        h.prot_addr, BitVec.zero_and]
    have hfield : m.sectEntry va.toNat &&& pteAddrMask = x := by
      rw [hentry, BitVec.and_or_distrib_right, BitVec.and_or_distrib_right, haddr, hsect, hprot,
        BitVec.or_zero, BitVec.or_zero]
    have hround : x &&& entryMask pmdShift = x :=
      BitField.and_highMask_of_aligned x (by decide : 21 < 64) hx21
    rw [Leaf.translate, hfield, hround, himage]
  · -- Bit 0 of `prot` is set already: the type bits of a page contain those of a section.
    have hone : m.prot &&& pmdTypeSect = pmdTypeSect := by
      rw [show pmdTypeSect = typeMask &&& pmdTypeSect by decide, ← BitVec.and_assoc, h.prot_type]
      decide
    have hbit : pmdTypeSect ||| m.prot = m.prot := by
      rw [← hone]
      apply BitVec.eq_of_getLsbD_eq
      intro i _
      cases hi : m.prot.getLsbD i <;> simp [hi]
    rw [Leaf.entry, hentry, attrs_or, attrs_or, attrs_of_addr haddr, BitVec.zero_or,
      attrs_mkSectProt, ← attrs_or, hbit]

/-- The leaf that a call wants for a covered address maps it as the call says. -/
theorem want_mapsAs (h : m.Proper) {va : U64} (hva : m.Covers va.toNat) :
    ∃ l, m.want va.toNat = some l ∧ l.MapsAs m va := by
  unfold Mapping.want
  by_cases huses : m.usesSection va.toNat
  · exact ⟨_, if_pos huses, sect_mapsAs h hva huses⟩
  · rw [if_neg huses]
    exact page_mapsAs h hva

end Arm64OS
