import Arm64OS.Arch.PgtableAddr

/-!
# The parts of a range

The loops of the mapping functions walk a range with `pgd_addr_end` and its siblings.  `cutRange`
is the walk by itself, and `mapLoop_eq_mapParts` says that a loop does its work on the parts that
the walk yields.  `addrEnd_cuts` is for every range of the address space, up to its top.
-/

namespace Arm64OS

variable {next : U64 → U64 → U64} {shift : Nat} {addr end_ : U64} {parts : List (U64 × U64)}

/-- The parts `[addr, next)` of `do { next = …; … } while (addr = next, addr != end)`. -/
def cutRange (next : U64 → U64 → U64) (end_ : U64) : Nat → U64 → Option (List (U64 × U64))
  | 0, _ => none
  | fuel + 1, addr =>
      if next addr end_ = end_ then some [(addr, next addr end_)]
      else (cutRange next end_ fuel (next addr end_)).map ((addr, next addr end_) :: ·)

/-- The body of a loop on the parts, one entry each. -/
def mapParts (body : U64 → U64 → U64 → U64 → PgState → Option PgState) :
    List (U64 × U64) → U64 → U64 → PgState → Option PgState
  | [], _, _, s => some s
  | (addr, next) :: parts, p, phys, s =>
      (body p addr next phys s).bind (mapParts body parts (p + 8#64) (phys + (next - addr)))

theorem mapLoop_eq_mapParts (body : U64 → U64 → U64 → U64 → PgState → Option PgState)
    {fuel : Nat} {p phys : U64} {s : PgState} (hcut : cutRange next end_ fuel addr = some parts) :
    mapLoop next body end_ fuel p addr phys s = mapParts body parts p phys s := by
  induction fuel generalizing addr parts p phys s with
  | zero => cases hcut
  | succ fuel ih =>
      unfold cutRange at hcut
      unfold mapLoop
      split at hcut
      · next hlast =>
          obtain rfl := Option.some.inj hcut
          simp [mapParts, hlast]
      · next hmore =>
          obtain ⟨rest, hrest, rfl⟩ := Option.map_eq_some_iff.1 hcut
          simp only [mapParts, if_neg hmore]
          exact congrArg _ (funext fun s' => ih hrest)

/-- `parts` cut `[addr, end)` into pieces of its blocks of `2 ^ shift` bytes. -/
structure Cuts (shift : Nat) (addr end_ : U64) (parts : List (U64 × U64)) : Prop where
  /-- the first part starts at `addr`, each other one where the one before it ends, and the last
  one ends at `end` -/
  contiguous : parts.map Prod.fst ++ [end_] = addr :: parts.map Prod.snd
  nonempty : ∀ c ∈ parts, c.1.toNat < rangeEnd c.2
  covers : ∀ x, addr.toNat ≤ x ∧ x < rangeEnd end_ ↔ ∃ c ∈ parts, c.1.toNat ≤ x ∧ x < rangeEnd c.2
  apart : parts.Pairwise fun c d => rangeEnd c.2 ≤ d.1.toNat
  within : ∀ c ∈ parts, (rangeEnd c.2 - 1) / 2 ^ shift = c.1.toNat / 2 ^ shift

/-- A range inside one block is its only part. -/
theorem cuts_singleton (hlt : addr.toNat < rangeEnd end_)
    (hwithin : (rangeEnd end_ - 1) / 2 ^ shift = addr.toNat / 2 ^ shift) :
    Cuts shift addr end_ [(addr, end_)] where
  contiguous := rfl
  nonempty := List.forall_mem_singleton.2 hlt
  covers x := by simp
  apart := List.pairwise_singleton _ _
  within := List.forall_mem_singleton.2 hwithin

/-- A part in front of the others. -/
theorem Cuts.cons {cut : U64} (h : Cuts shift cut end_ parts) (hlt : addr.toNat < rangeEnd cut)
    (hwithin : (rangeEnd cut - 1) / 2 ^ shift = addr.toNat / 2 ^ shift)
    (hcut : cut.toNat = rangeEnd cut) (hend : rangeEnd cut < rangeEnd end_) :
    Cuts shift addr end_ ((addr, cut) :: parts) where
  contiguous := congrArg (addr :: ·) h.contiguous
  nonempty := List.forall_mem_cons.2 ⟨hlt, h.nonempty⟩
  covers x := by
    rw [List.exists_mem_cons_iff, ← h.covers x]
    dsimp only
    omega
  apart := by
    refine List.pairwise_cons.2 ⟨fun d hd => ?_, h.apart⟩
    have hstart := (h.covers d.1.toNat).2 ⟨d, hd, le_rfl, h.nonempty d hd⟩
    rw [← hcut]
    exact hstart.1
  within := List.forall_mem_cons.2 ⟨hwithin, h.within⟩

/-- The address in front of the end of a part is in the block of its start. -/
theorem addrEnd_within (hshift : shift < 64) (hlt : addr.toNat < rangeEnd end_) :
    addr.toNat < rangeEnd (addrEnd shift addr end_) ∧
      (rangeEnd (addrEnd shift addr end_) - 1) / 2 ^ shift = addr.toNat / 2 ^ shift := by
  have hpos : 0 < 2 ^ shift := Nat.two_pow_pos shift
  have hblock : addr.toNat < (addr.toNat / 2 ^ shift + 1) * 2 ^ shift := by
    rw [← Nat.div_lt_iff_lt_mul hpos]
    exact Nat.lt_succ_self _
  have hmin := rangeEnd_addrEnd hshift addr end_
  have hnext : addr.toNat < rangeEnd (addrEnd shift addr end_) := by
    rw [hmin]
    exact lt_min hlt hblock
  refine ⟨hnext, le_antisymm ?_ (Nat.div_le_div_right (by omega))⟩
  refine Nat.le_of_lt_succ ((Nat.div_lt_iff_lt_mul hpos).2 ?_)
  rw [Nat.succ_eq_add_one]
  have hle := min_le_right (rangeEnd end_) ((addr.toNat / 2 ^ shift + 1) * 2 ^ shift)
  rw [← hmin] at hle
  omega

/-- Where a turn does not end the loop, the next one starts with the next block. -/
theorem addrEnd_more (hshift : shift < 64) (hne : addrEnd shift addr end_ ≠ end_) :
    (addrEnd shift addr end_).toNat = rangeEnd (addrEnd shift addr end_) ∧
      rangeEnd (addrEnd shift addr end_) < rangeEnd end_ ∧
      (addrEnd shift addr end_).toNat / 2 ^ shift = addr.toNat / 2 ^ shift + 1 := by
  have hmin := rangeEnd_addrEnd hshift addr end_
  have hcut : rangeEnd (addrEnd shift addr end_) ≠ rangeEnd end_ := fun he => hne (rangeEnd_inj he)
  have hend := rangeEnd_le end_
  have hlt : rangeEnd (addrEnd shift addr end_) < rangeEnd end_ := by omega
  have hnat := toNat_of_rangeEnd_lt (hlt.trans_le hend)
  refine ⟨hnat, hlt, ?_⟩
  have hblock : (addrEnd shift addr end_).toNat = (addr.toNat / 2 ^ shift + 1) * 2 ^ shift := by
    omega
  rw [hblock, Nat.mul_div_cancel _ (Nat.two_pow_pos shift)]

/-- The walk takes one turn for each block that the range meets. -/
theorem cutRange_spec (hshift : shift < 64) {n : Nat} (hlt : addr.toNat < rangeEnd end_)
    (hn : (rangeEnd end_ - 1) / 2 ^ shift = addr.toNat / 2 ^ shift + n) :
    ∃ parts, parts.length = n + 1 ∧ Cuts shift addr end_ parts ∧
      ∀ fuel, n < fuel → cutRange (addrEnd shift) end_ fuel addr = some parts := by
  obtain ⟨hnext, hwithin⟩ := addrEnd_within hshift hlt
  induction n generalizing addr with
  | zero =>
      -- a further turn would be in a further block
      have hlast : addrEnd shift addr end_ = end_ := by
        by_contra hne
        obtain ⟨hnat, hless, hblock⟩ := addrEnd_more hshift hne
        have hle : (addrEnd shift addr end_).toNat / 2 ^ shift ≤ (rangeEnd end_ - 1) / 2 ^ shift :=
          Nat.div_le_div_right (by omega)
        omega
      refine ⟨[(addr, end_)], rfl, cuts_singleton hlt hn, fun fuel hfuel => ?_⟩
      obtain ⟨fuel, rfl⟩ : ∃ f, fuel = f + 1 := ⟨fuel - 1, by omega⟩
      rw [cutRange, if_pos hlast, hlast]
  | succ n ih =>
      have hmore : addrEnd shift addr end_ ≠ end_ := by
        intro he
        rw [he] at hwithin
        omega
      obtain ⟨hnat, hless, hblock⟩ := addrEnd_more hshift hmore
      obtain ⟨hnext', hwithin'⟩ := addrEnd_within hshift (hnat ▸ hless)
      obtain ⟨parts, hlength, hcuts, hwalk⟩ := ih (hnat ▸ hless) (by omega) hnext' hwithin'
      refine ⟨(addr, addrEnd shift addr end_) :: parts, congrArg Nat.succ hlength,
        hcuts.cons hnext hwithin hnat hless, fun fuel hfuel => ?_⟩
      obtain ⟨fuel, rfl⟩ : ∃ f, fuel = f + 1 := ⟨fuel - 1, by omega⟩
      rw [cutRange, if_neg hmore, hwalk fuel (by omega)]
      rfl

/-- The loops that use the macro end, and work on the parts of the range. -/
def CutInto (next : U64 → U64 → U64) (shift : Nat) (addr end_ : U64) : Prop :=
  ∃ parts, Cuts shift addr end_ parts ∧ ∀ fuel, parts.length ≤ fuel →
    cutRange next end_ fuel addr = some parts ∧
    ∀ body p phys s, mapLoop next body end_ fuel p addr phys s = mapParts body parts p phys s

theorem cutInto_addrEnd (hshift : shift < 64) (hlt : addr.toNat < rangeEnd end_) :
    CutInto (addrEnd shift) shift addr end_ := by
  have hle : addr.toNat / 2 ^ shift ≤ (rangeEnd end_ - 1) / 2 ^ shift :=
    Nat.div_le_div_right (by omega)
  obtain ⟨n, hn⟩ := Nat.exists_eq_add_of_le hle
  obtain ⟨parts, hlength, hcuts, hwalk⟩ := cutRange_spec hshift hlt hn
  refine ⟨parts, hcuts, fun fuel hfuel => ?_⟩
  have hcut := hwalk fuel (by omega)
  exact ⟨hcut, fun body p phys s => mapLoop_eq_mapParts body hcut⟩

/-- **`pgd_addr_end`, `pud_addr_end` and `pmd_addr_end`** cut every range into parts that follow
one another from its start to its end, none of them empty and each inside one block, also where
the range ends at the top of the address space. -/
theorem addrEnd_cuts (hlt : addr.toNat < rangeEnd end_) :
    CutInto pgdAddrEnd pgdirShift addr end_ ∧ CutInto pudAddrEnd pudShift addr end_ ∧
      CutInto pmdAddrEnd pmdShift addr end_ :=
  ⟨cutInto_addrEnd (by decide) hlt, cutInto_addrEnd (by decide) hlt,
    cutInto_addrEnd (by decide) hlt⟩

/-- The last pages of the address space, across the start of its last section. -/
theorem addrEnd_cuts_top :
    CutInto pgdAddrEnd pgdirShift 0xffffffffffdff000 0 ∧
      CutInto pudAddrEnd pudShift 0xffffffffffdff000 0 ∧
      CutInto pmdAddrEnd pmdShift 0xffffffffffdff000 0 :=
  addrEnd_cuts (by decide)

example : cutRange pmdAddrEnd 0 2 0xffffffffffdff000 =
    some [(0xffffffffffdff000, 0xffffffffffe00000), (0xffffffffffe00000, 0)] := by decide

end Arm64OS
