import Arm64OS.Drivers.Gicv2Enable

/-!
# The distributor after `gic_dist_init`

The registers that `gic_dist_init` writes, as the hardware keeps them: 32, 16 or 4 interrupts
share a word, and some words are written through a pair of registers, one that sets the bits of
what is written and one that clears them.  `distInit_ready` says what the four loops make of
every interrupt, for every count that `gic_init` can find.
-/

namespace Arm64OS

/-- `GIC_DIST_ACTIVE_SET`. -/
def gicDistActiveSet : Nat := 0x300

/-! ## The hardware -/

/-- One write, seen by a register at `a` that keeps what is written. -/
def storeWord (a : U64) (wr : U64 × U32) (v : U32) : U32 := if wr.1 = a then wr.2 else v

/-- One write, seen by a word with a register for setting and one for clearing. -/
def setClearWord (set clear : U64) (wr : U64 × U32) (v : U32) : U32 :=
  if wr.1 = set then v ||| wr.2 else if wr.1 = clear then v &&& ~~~wr.2 else v

structure Distributor where
  ctrl : U32
  enable : Nat → U32
  active : Nat → U32
  target : Nat → U32
  config : Nat → U32

def Distributor.write (base : U64) (d : Distributor) (wr : U64 × U32) : Distributor where
  ctrl := storeWord (reg base gicDistCtrl) wr d.ctrl
  enable := distWrite base d.enable wr
  active w := setClearWord (reg base (gicDistActiveSet + w * 4))
    (reg base (gicDistActiveClear + w * 4)) wr (d.active w)
  target w := storeWord (reg base (gicDistTarget + w * 4)) wr (d.target w)
  config w := storeWord (reg base (gicDistConfig + w * 4)) wr (d.config w)

/-- Interrupt `n` is enabled. -/
def Distributor.isEnabled (d : Distributor) (n : Nat) : Bool :=
  (d.enable (n / 32)).getLsbD (n % 32)

def Distributor.isActive (d : Distributor) (n : Nat) : Bool :=
  (d.active (n / 32)).getLsbD (n % 32)

/-- The CPUs that interrupt `n` is routed to. -/
def Distributor.cpus (d : Distributor) (n : Nat) : BitVec 8 :=
  (d.target (n / 4)).extractLsb' (8 * (n % 4)) 8

/-- The upper bit of the two that an interrupt has: edge-triggered, or else level-triggered. -/
def Distributor.isEdge (d : Distributor) (n : Nat) : Bool :=
  (d.config (n / 16)).getLsbD (2 * (n % 16) + 1)

/-! ## What is asked of `gic_dist_init` -/

/-- The CPUs of the four interrupts of a target word. -/
def cpuBits (word : U32) : BitVec 8 :=
  word.extractLsb' 0 8 ||| word.extractLsb' 8 8 ||| word.extractLsb' 16 8 ||| word.extractLsb' 24 8

/-- The CPUs of the first target word that is not 0, of the first eight. -/
def firstCpus (readl : U64 → U32) (base : U64) : BitVec 8 :=
  match ((List.range 8).map fun w => readl (reg base (gicDistTarget + w * 4))).find? (· ≠ 0) with
  | some word => cpuBits word
  | none => 0

/-- The state the distributor is to be left in, with `irqs` interrupts. -/
structure DistReady (readl : U64 → U32) (base : U64) (irqs : Nat) (d : Distributor) : Prop where
  on : d.ctrl = gicdEnable
  routed : ∀ n, 32 ≤ n → n < irqs → d.cpus n = firstCpus readl base
  level : ∀ n, 32 ≤ n → n < irqs → d.isEdge n = false
  inactive : ∀ n, 32 ≤ n → n < irqs → d.isActive n = false
  disabled : ∀ n, 32 ≤ n → n < irqs → d.isEnabled n = false
  sgi : ∀ n, n < 16 → d.isEnabled n = true
  ppi : ∀ n, 16 ≤ n → n < 32 → d.isEnabled n = false

/-- The registers of interrupt `n` that `gic_dist_init` writes. -/
def irqRegs (base : U64) (n : Nat) : List U64 :=
  [reg base (gicDistTarget + n / 4 * 4), reg base (gicDistConfig + n / 16 * 4),
    reg base (gicDistActiveClear + n / 32 * 4), reg base (gicDistEnableClear + n / 32 * 4),
    reg base (gicDistEnableSet + n / 32 * 4)]

/-! ## The CPU mask -/

/-- The two steps of `gic_get_cpumask` that fold a word onto its low byte. -/
def foldBytes (word : U32) : U32 :=
  let mask := word ||| (word >>> 16)
  mask ||| (mask >>> 8)

/-- The two steps of `gic_dist_init` that spread the low byte. -/
def spreadByte (mask : U32) : U32 :=
  let mask := mask ||| (mask <<< 8)
  mask ||| (mask <<< 16)

theorem getLsbD_foldBytes (word : U32) (i : Nat) :
    (foldBytes word).getLsbD i = (word.getLsbD i || word.getLsbD (16 + i) ||
      (word.getLsbD (8 + i) || word.getLsbD (24 + i))) := by
  have hplace : 16 + (8 + i) = 24 + i := by omega
  simp [foldBytes, hplace]

theorem foldBytes_eq_zero {word : U32} : foldBytes word = 0 ↔ word = 0 := by
  constructor
  · intro h
    refine BitVec.eq_of_getLsbD_eq fun i hi => ?_
    have hbit := congrArg (BitVec.getLsbD · i) h
    simp only [getLsbD_foldBytes] at hbit
    simp at hbit
    simp [hbit]
  · rintro rfl
    rfl

theorem getLsbD_spreadByte (mask : U32) {i : Nat} (hi : i < 32) :
    (spreadByte mask).getLsbD i =
      ((mask.getLsbD i || !decide (i < 8) && mask.getLsbD (i - 8)) ||
        !decide (i < 16) && (mask.getLsbD (i - 16) ||
          !decide (i - 16 < 8) && mask.getLsbD (i - 16 - 8))) := by
  have hlow : i - 16 < 32 := by omega
  simp only [spreadByte, BitVec.getLsbD_or, BitVec.getLsbD_shiftLeft, hi, hlow, decide_true,
    Bool.true_and]

/-- Every byte of what is written is the union of the four. -/
theorem extractLsb'_spread_fold (word : U32) {k : Nat} (hk : k < 4) :
    (spreadByte (foldBytes word)).extractLsb' (8 * k) 8 = cpuBits word := by
  refine BitVec.eq_of_getLsbD_eq fun j hj => ?_
  have hout : ∀ i, 32 ≤ i → word.getLsbD i = false := fun i hi => BitVec.getLsbD_of_ge _ _ hi
  have hin : 8 * k + j < 32 := by omega
  simp only [BitVec.getLsbD_extractLsb', hj, decide_true, Bool.true_and,
    getLsbD_spreadByte _ hin, getLsbD_foldBytes, cpuBits, BitVec.getLsbD_or]
  rcases (by omega : k = 0 ∨ k = 1 ∨ k = 2 ∨ k = 3) with rfl | rfl | rfl | rfl
  · grind
  · grind
  · grind
  · grind

theorem cpumaskLoop_zero (readl : U64 → U32) (base : U64) (is : List Nat) :
    cpumaskLoop readl base is 0 =
      match (is.map fun i => readl (reg base (gicDistTarget + i))).find? (· ≠ 0) with
      | some word => foldBytes word
      | none => 0 := by
  induction is with
  | nil => rfl
  | cons i is ih =>
      obtain ⟨word, hword⟩ : ∃ word, readl (reg base (gicDistTarget + i)) = word := ⟨_, rfl⟩
      have hloop : cpumaskLoop readl base (i :: is) 0 =
          if foldBytes word ≠ 0 then foldBytes word
          else cpumaskLoop readl base is (foldBytes word) := by
        rw [← hword]
        rfl
      rw [hloop, List.map_cons, hword]
      by_cases hzero : word = 0
      · have hfold := foldBytes_eq_zero.2 hzero
        rw [if_neg (not_not_intro hfold), hfold, ih, List.find?_cons_of_neg (by simpa using hzero)]
      · have hfold : foldBytes word ≠ 0 := fun h => hzero (foldBytes_eq_zero.1 h)
        rw [if_pos hfold, List.find?_cons_of_pos (by simpa using hzero)]

/-- All four bytes that route the SPIs of a word are those of the first word that is not 0. -/
theorem extractLsb'_spiTargets (readl : U64 → U32) (gic : Gicv2) {k : Nat} (hk : k < 4) :
    (spiTargets readl gic).extractLsb' (8 * k) 8 = firstCpus readl gic.rawDistBase := by
  have hspread : spiTargets readl gic = spreadByte (gicGetCpumask readl gic) := rfl
  have hindices : loopIndices 0 32 4 = (List.range 8).map (· * 4) := by decide
  rw [hspread, gicGetCpumask, cpumaskLoop_zero, hindices, List.map_map, firstCpus]
  change (spreadByte (match ((List.range 8).map fun w =>
    readl (reg gic.rawDistBase (gicDistTarget + w * 4))).find? (· ≠ 0) with
      | some word => foldBytes word
      | none => 0)).extractLsb' (8 * k) 8 = _
  cases ((List.range 8).map fun w =>
    readl (reg gic.rawDistBase (gicDistTarget + w * 4))).find? (· ≠ 0) with
  | none =>
      have hzero : spreadByte 0 = 0 := by decide
      simp only [hzero]
      exact BitVec.extractLsb'_zero
  | some word => exact extractLsb'_spread_fold word hk

/-! ## The registers after a list of writes -/

variable {base : U64} {ws : List (U64 × U32)}

/-- A register holds the value that every write to it carries. -/
theorem stored_of_forall {a : U64} {v : U32} (hall : ∀ wr ∈ ws, wr.1 = a → wr.2 = v)
    (hmem : (a, v) ∈ ws) (reset : U32) : ws.foldl (fun x wr => storeWord a wr x) reset = v := by
  induction ws using List.reverseRecOn with
  | nil => cases hmem
  | append_singleton ws wr ih =>
      rw [List.foldl_append, List.foldl_cons, List.foldl_nil, storeWord]
      by_cases haddr : wr.1 = a
      · rw [if_pos haddr]
        exact hall wr (by simp) haddr
      · rw [if_neg haddr]
        refine ih (fun wr' hwr' => hall wr' (by simp [hwr'])) ?_
        obtain hfront | hlast := List.mem_append.1 hmem
        · exact hfront
        · exact absurd (congrArg Prod.fst (List.mem_singleton.1 hlast)).symm haddr

/-- A word that is only ever cleared, and once as a whole, is 0. -/
theorem cleared_of_forall {set clear : U64} (hset : ∀ wr ∈ ws, wr.1 ≠ set)
    (hmem : (clear, 0xffffffff) ∈ ws) (reset : U32) :
    ws.foldl (fun x wr => setClearWord set clear wr x) reset = 0 := by
  induction ws using List.reverseRecOn with
  | nil => cases hmem
  | append_singleton ws wr ih =>
      rw [List.foldl_append, List.foldl_cons, List.foldl_nil, setClearWord,
        if_neg (hset wr (by simp))]
      obtain hfront | hlast := List.mem_append.1 hmem
      · rw [ih (fun wr' hwr' => hset wr' (by simp [hwr'])) hfront]
        simp
      · rw [← List.mem_singleton.1 hlast]
        simp

/-- The registers of a distributor after the writes, one by one. -/
theorem foldl_write (base : U64) (ws : List (U64 × U32)) (d : Distributor) :
    (ws.foldl (Distributor.write base) d).ctrl =
        ws.foldl (fun x wr => storeWord (reg base gicDistCtrl) wr x) d.ctrl ∧
      (ws.foldl (Distributor.write base) d).enable = enableWords base d.enable ws ∧
      ∀ w, (ws.foldl (Distributor.write base) d).active w =
          ws.foldl (fun x wr => setClearWord (reg base (gicDistActiveSet + w * 4))
            (reg base (gicDistActiveClear + w * 4)) wr x) (d.active w) ∧
        (ws.foldl (Distributor.write base) d).target w =
          ws.foldl (fun x wr => storeWord (reg base (gicDistTarget + w * 4)) wr x) (d.target w) ∧
        (ws.foldl (Distributor.write base) d).config w =
          ws.foldl (fun x wr => storeWord (reg base (gicDistConfig + w * 4)) wr x)
            (d.config w) := by
  induction ws generalizing d with
  | nil => exact ⟨rfl, rfl, fun _ => ⟨rfl, rfl, rfl⟩⟩
  | cons wr ws ih => exact ih (d.write base wr)

/-! ## The writes of `gic_dist_init` -/

/-- Where a write goes, and what it carries. -/
theorem distInitWrites_cases {irqs : Nat} {cpumask : U32} {wr : U64 × U32}
    (h : wr ∈ distInitWrites base irqs cpumask) :
    ∃ off, wr.1 = reg base off ∧
      (off = gicDistCtrl ∨
        (∃ n, 32 ≤ n ∧ n < irqs ∧ n % 4 = 0 ∧ off = gicDistTarget + n ∧ wr.2 = cpumask) ∨
        (∃ n, 32 ≤ n ∧ n < irqs ∧ n % 16 = 0 ∧ off = gicDistConfig + n / 4 ∧ wr.2 = 0) ∨
        (∃ n, n < irqs ∧ n % 32 = 0 ∧
          (off = gicDistActiveClear + n / 8 ∨ off = gicDistEnableClear + n / 8)) ∨
        off = gicDistEnableSet) := by
  simp only [distInitWrites, List.mem_cons, List.mem_append, List.mem_map, List.mem_flatMap,
    List.not_mem_nil, or_false] at h
  rcases h with rfl | ((⟨i, hi, rfl⟩ | ⟨i, hi, rfl⟩) | ⟨i, hi, rfl | rfl⟩) | rfl | rfl
  · exact ⟨_, rfl, Or.inl rfl⟩
  · obtain ⟨hlow, hhigh, hmod⟩ := mem_loopIndices (by decide) hi
    exact ⟨_, rfl, Or.inr (Or.inl ⟨i, hlow, hhigh, by omega, by omega, rfl⟩)⟩
  · obtain ⟨hlow, hhigh, hmod⟩ := mem_loopIndices (by decide) hi
    exact ⟨_, rfl, Or.inr (Or.inr (Or.inl ⟨i, hlow, hhigh, by omega, rfl, rfl⟩))⟩
  · obtain ⟨-, hhigh, hmod⟩ := mem_loopIndices (by decide) hi
    exact ⟨_, rfl, Or.inr (Or.inr (Or.inr (Or.inl ⟨i, hhigh, by omega, Or.inl rfl⟩)))⟩
  · obtain ⟨-, hhigh, hmod⟩ := mem_loopIndices (by decide) hi
    exact ⟨_, rfl, Or.inr (Or.inr (Or.inr (Or.inl ⟨i, hhigh, by omega, Or.inr rfl⟩)))⟩
  · exact ⟨_, rfl, Or.inr (Or.inr (Or.inr (Or.inr rfl)))⟩
  · exact ⟨_, rfl, Or.inl rfl⟩

section

variable {irqs : Nat} {cpumask : U32}

/-- The ranges that the offset of a write can be in, and what is written in two of them. -/
theorem distInitWrites_at {wr : U64 × U32} (h : wr ∈ distInitWrites base irqs cpumask)
    (hirqs : irqs ≤ 1020) {off : Nat} (hoff : off < 2 ^ 32) (haddr : wr.1 = reg base off) :
    off = 0 ∨ off = 0x100 ∨ (0x180 ≤ off ∧ off < 0x200) ∨ (0x380 ≤ off ∧ off < 0x400) ∨
      (0x820 ≤ off ∧ off < 0xc00 ∧ wr.2 = cpumask) ∨ (0xc08 ≤ off ∧ wr.2 = 0) := by
  obtain ⟨off', haddr', hcases⟩ := distInitWrites_cases h
  unfold gicDistCtrl gicDistTarget gicDistConfig gicDistActiveClear gicDistEnableClear
    gicDistEnableSet at hcases
  obtain rfl : off = off' := (reg_inj hoff (by omega)).1 (haddr.symm.trans haddr')
  rcases hcases with h | ⟨n, hlow, hhigh, -, h, hv⟩ | ⟨n, hlow, -, -, h, hv⟩ | ⟨n, hhigh, -, h⟩ | h
  · exact Or.inl h
  · exact Or.inr (Or.inr (Or.inr (Or.inr (Or.inl ⟨by omega, by omega, hv⟩))))
  · exact Or.inr (Or.inr (Or.inr (Or.inr (Or.inr ⟨by omega, hv⟩))))
  · omega
  · exact Or.inr (Or.inl h)

/-- The words that route the SPIs. -/
theorem target_distInit (hirqs : irqs ≤ 1020) {w : Nat} (hlow : 8 ≤ w) (hhigh : w * 4 < irqs)
    (reset : U32) :
    (distInitWrites base irqs cpumask).foldl
      (fun x wr => storeWord (reg base (gicDistTarget + w * 4)) wr x) reset = cpumask := by
  refine stored_of_forall (fun wr hwr haddr => ?_) ?_ reset
  · unfold gicDistTarget at haddr
    rcases distInitWrites_at hwr hirqs (by omega) haddr with h | h | h | h | ⟨-, -, hv⟩ | ⟨h, -⟩
    · omega
    · omega
    · omega
    · omega
    · exact hv
    · omega
  · have hmem : 32 + 4 * (w - 8) ∈ loopIndices 32 irqs 4 :=
      mem_loopIndices_of_lt (by decide) (by omega)
    have hplace : (32 + 4 * (w - 8)) * 4 / 4 = w * 4 := by omega
    simp only [distInitWrites, List.mem_cons, List.mem_append, List.mem_map]
    exact Or.inr (Or.inl (Or.inl (Or.inl ⟨_, hmem, by rw [hplace]⟩)))

/-- The words that say how the SPIs are triggered. -/
theorem config_distInit (hirqs : irqs ≤ 1020) {w : Nat} (hlow : 2 ≤ w) (hhigh : w * 16 < irqs)
    (reset : U32) :
    (distInitWrites base irqs cpumask).foldl
      (fun x wr => storeWord (reg base (gicDistConfig + w * 4)) wr x) reset = 0 := by
  refine stored_of_forall (fun wr hwr haddr => ?_) ?_ reset
  · unfold gicDistConfig at haddr
    rcases distInitWrites_at hwr hirqs (by omega) haddr with h | h | h | h | ⟨-, h, -⟩ | ⟨-, hv⟩
    · omega
    · omega
    · omega
    · omega
    · omega
    · exact hv
  · have hmem : 32 + 16 * (w - 2) ∈ loopIndices 32 irqs 16 :=
      mem_loopIndices_of_lt (by decide) (by omega)
    have hplace : (32 + 16 * (w - 2)) / 4 = w * 4 := by omega
    simp only [distInitWrites, List.mem_cons, List.mem_append, List.mem_map]
    exact Or.inr (Or.inl (Or.inl (Or.inr ⟨_, hmem, by rw [hplace]; rfl⟩)))

/-- The words of the active bits. -/
theorem active_distInit (hirqs : irqs ≤ 1020) {w : Nat} (hhigh : w * 32 < irqs) (reset : U32) :
    (distInitWrites base irqs cpumask).foldl
      (fun x wr => setClearWord (reg base (gicDistActiveSet + w * 4))
        (reg base (gicDistActiveClear + w * 4)) wr x) reset = 0 := by
  refine cleared_of_forall (fun wr hwr haddr => ?_) ?_ reset
  · unfold gicDistActiveSet at haddr
    have hat := distInitWrites_at hwr hirqs (by omega) haddr
    omega
  · have hmem : 0 + 32 * w ∈ loopIndices 0 irqs 32 :=
      mem_loopIndices_of_lt (by decide) (by omega)
    have hplace : (0 + 32 * w) / 8 = w * 4 := by omega
    simp only [distInitWrites, List.mem_cons, List.mem_append, List.mem_flatMap]
    exact Or.inr (Or.inl (Or.inr ⟨_, hmem, Or.inl (by rw [hplace]; rfl)⟩))

end

theorem ctrl_distInit (base : U64) (irqs : Nat) (cpumask reset : U32) :
    (distInitWrites base irqs cpumask).foldl
      (fun x wr => storeWord (reg base gicDistCtrl) wr x) reset = gicdEnable := by
  rw [distInitWrites, List.foldl_cons, List.foldl_append]
  simp [storeWord]

theorem distReady_distInit (readl : U64 → U32) {gic : Gicv2} (hmany : 32 ≤ gic.gicIrqs)
    (hirqs : gic.gicIrqs ≤ 1020) (d : Distributor) :
    DistReady readl gic.rawDistBase gic.gicIrqs
      ((distInitWrites gic.rawDistBase gic.gicIrqs (spiTargets readl gic)).foldl
        (Distributor.write gic.rawDistBase) d) := by
  obtain ⟨hctrl, henable, hwords⟩ := foldl_write gic.rawDistBase
    (distInitWrites gic.rawDistBase gic.gicIrqs (spiTargets readl gic)) d
  constructor
  case on => rw [hctrl, ctrl_distInit]
  case routed =>
    intro n hlow hhigh
    rw [Distributor.cpus, (hwords _).2.1, target_distInit hirqs (by omega) (by omega),
      extractLsb'_spiTargets _ _ (Nat.mod_lt _ (by decide))]
  case level =>
    intro n hlow hhigh
    rw [Distributor.isEdge, (hwords _).2.2, config_distInit hirqs (by omega) (by omega)]
    exact BitVec.getLsbD_zero
  case inactive =>
    intro n hlow hhigh
    rw [Distributor.isActive, (hwords _).1, active_distInit hirqs (by omega)]
    exact BitVec.getLsbD_zero
  case disabled =>
    intro n hlow hhigh
    rw [Distributor.isEnabled, henable, enableWords_distInit _ _ hirqs _ (by omega) (by omega),
      if_neg (by omega)]
    exact BitVec.getLsbD_zero
  case sgi =>
    intro n hn
    have hsgi : ∀ n, n < 16 → gicdIntEnSetSgi.getLsbD n = true := by decide
    have hword : n / 32 = 0 := by omega
    rw [Distributor.isEnabled, henable, enableWords_distInit _ _ hirqs _ (by omega) (by omega),
      if_pos hword, Nat.mod_eq_of_lt (by omega)]
    exact hsgi n hn
  case ppi =>
    intro n hlow hhigh
    have hppi : ∀ n, n < 32 → 16 ≤ n → gicdIntEnSetSgi.getLsbD n = false := by decide
    have hword : n / 32 = 0 := by omega
    rw [Distributor.isEnabled, henable, enableWords_distInit _ _ hirqs _ (by omega) (by omega),
      if_pos hword, Nat.mod_eq_of_lt hhigh]
    exact hppi n hhigh hlow

/-- Besides the register that turns the distributor on, the writes go to interrupts below the
count. -/
theorem irqRegs_distInit {irqs : Nat} {cpumask : U32} (hmany : 32 ≤ irqs) (hirqs : irqs ≤ 1020)
    {wr : U64 × U32} (hwr : wr ∈ distInitWrites base irqs cpumask) :
    wr.1 = reg base gicDistCtrl ∨ ∃ n < irqs, n < 1024 ∧ wr.1 ∈ irqRegs base n := by
  obtain ⟨off, haddr, hoff⟩ := distInitWrites_cases hwr
  rw [haddr]
  rcases hoff with rfl | ⟨n, -, hn, hmod, rfl, -⟩ | ⟨n, -, hn, hmod, rfl, -⟩ |
    ⟨n, hn, hmod, rfl | rfl⟩ | rfl
  · exact Or.inl rfl
  · have hplace : n / 4 * 4 = n := by omega
    exact Or.inr ⟨n, hn, by omega, by simp [irqRegs, hplace]⟩
  · have hplace : n / 16 * 4 = n / 4 := by omega
    exact Or.inr ⟨n, hn, by omega, by simp [irqRegs, hplace]⟩
  · have hplace : n / 32 * 4 = n / 8 := by omega
    exact Or.inr ⟨n, hn, by omega, by simp [irqRegs, hplace]⟩
  · have hplace : n / 32 * 4 = n / 8 := by omega
    exact Or.inr ⟨n, hn, by omega, by simp [irqRegs, hplace]⟩
  · exact Or.inr ⟨0, by omega, by omega, by simp [irqRegs]⟩

/-- **The distributor after `gic_dist_init`**, for every count that `gic_init` can find and
whatever its registers held.  Besides the register that turns it on, only registers of the
interrupts below the count are written. -/
theorem distInit_ready (readl : U64 → U32) (ctr : U32) (gic : Gicv2) (d : Distributor) :
    let gic := { gic with gicIrqs := gicCtrIrqs ctr }
    let base := gic.rawDistBase
    let writes := gic.writesSince (gicDistInit readl gic)
    DistReady readl base gic.gicIrqs (writes.foldl (Distributor.write base) d) ∧
      ∀ wr ∈ writes, wr.1 = reg base gicDistCtrl ∨
        ∃ n < gic.gicIrqs, n < 1024 ∧ wr.1 ∈ irqRegs base n := by
  intro gic base writes
  have hwrites : writes = distInitWrites base gic.gicIrqs (spiTargets readl gic) := by
    simp only [writes, Gicv2.writesSince, gicDistInit_eq, List.drop_left]
    rfl
  obtain ⟨hmany, hirqs⟩ : 32 ≤ gic.gicIrqs ∧ gic.gicIrqs ≤ 1020 := gicCtrIrqs_bounds ctr
  rw [hwrites]
  exact ⟨distReady_distInit readl hmany hirqs d, fun wr hwr => irqRegs_distInit hmany hirqs hwr⟩

end Arm64OS
