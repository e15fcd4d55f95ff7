import Arm64OS.Kernel.Irq

/-!
# The GICv2 driver

`drivers/irqchip/gicv2.c`.  The driver's part of the state is `gic_data[0]` and the `writel`
calls made so far.  `readl` is a parameter of the functions that read the distributor; the
value that `GIC_CPU_INTACK` gives is an argument of `gicHandleIrq`.

Addresses are written as a base and an offset, as in `arm-gic.h`.
-/

namespace Arm64OS

/-! ## Registers -/

def gicCpuCtrl : Nat := 0x00
def gicCpuPrimask : Nat := 0x04
def gicCpuEoi : Nat := 0x10
def giccEnable : U32 := 0x1
def giccIntPriThreshold : U32 := 0xf0
def giccIarIntIdMask : U32 := 0x3ff

def gicDistCtrl : Nat := 0x000
def gicDistCtr : Nat := 0x004
def gicDistEnableSet : Nat := 0x100
def gicDistEnableClear : Nat := 0x180
def gicDistActiveClear : Nat := 0x380
def gicDistPri : Nat := 0x400
def gicDistTarget : Nat := 0x800
def gicDistConfig : Nat := 0xc00
def gicdEnable : U32 := 0x1
def gicdDisable : U32 := 0x0
def gicdIntActlowLvltrig : U32 := 0x0
def gicdIntEnClrX32 : U32 := 0xffffffff
def gicdIntEnSetSgi : U32 := 0x0000ffff

/-- `ARM_LOCAL_BASE`. -/
def armLocalBase : U64 := 0xff800000

def gicV2DistributorBase : U64 := armLocalBase + 0x00041000

def gicV2CpuInterfaceBase : U64 := armLocalBase + 0x00042000

/-- `HW_IRQ_START`. -/
def hwIrqStart : Nat := 16

/-- The register at an offset. -/
def reg (base : U64) (offset : Nat) : U64 := base + BitVec.ofNat 64 offset

/-- The values of `i` in `for (i = a; i < n; i += k)`. -/
def loopIndices (a n k : Nat) : List Nat := List.range' a ((n - a + (k - 1)) / k) k

/-! ## The chip -/

/-- `gic_data[0]`, and the calls of `writel` so far, oldest first. -/
structure Gicv2 where
  rawDistBase : U64
  rawCpuBase : U64
  gicIrqs : Nat
  writes : List (U64 × U32)

def Gicv2.writel (v : U32) (a : U64) (gic : Gicv2) : Gicv2 :=
  { gic with writes := gic.writes ++ [(a, v)] }

/-- `gic_set_irq`, for the descriptor of `hwirq`. -/
def gicSetIrq (hwirq : U32) (offset : Nat) (gic : Gicv2) : Gicv2 :=
  let mask := 1#32 <<< (hwirq.toNat % 32)
  gic.writel mask (reg gic.rawDistBase (offset + hwirq.toNat / 32 * 4))

/-- `gicv2_eoi_irq`. -/
def gicv2EoiIrq (hwirq : U32) (gic : Gicv2) : Gicv2 :=
  gic.writel hwirq (reg gic.rawCpuBase gicCpuEoi)

/-- `gicv2_mask_irq`. -/
def gicv2MaskIrq (hwirq : U32) (gic : Gicv2) : Gicv2 := gicSetIrq hwirq gicDistEnableClear gic

/-- `gicv2_unmask_irq`. -/
def gicv2UnmaskIrq (hwirq : U32) (gic : Gicv2) : Gicv2 := gicSetIrq hwirq gicDistEnableSet gic

def gicv2Chip : IrqChip Gicv2 where
  irqEnable := none
  irqDisable := none
  irqMask := some gicv2MaskIrq
  irqUnmask := some gicv2UnmaskIrq
  irqEoi := some gicv2EoiIrq

variable {W : Type}

/-- `gicv2_irq_map`. -/
def gicv2IrqMap (virq hwirq : U32) (s : IrqState Gicv2 W) : Int × IrqState Gicv2 W :=
  -- handle the SGIs
  if 16 ≤ hwirq.toNat then (0, (irqDomainSetHwirqChip virq hwirq gicv2Chip s).2) else (0, s)

/-! ## Start -/

/-- The loop of `gic_get_cpumask` over the offsets. -/
def cpumaskLoop (readl : U64 → U32) (base : U64) : List Nat → U32 → U32
  | [], mask => mask
  | i :: is, _ =>
      let mask := readl (reg base (gicDistTarget + i))
      let mask := mask ||| (mask >>> 16)
      let mask := mask ||| (mask >>> 8)
      if mask ≠ 0 then mask else cpumaskLoop readl base is mask

/-- `gic_get_cpumask`. -/
def gicGetCpumask (readl : U64 → U32) (gic : Gicv2) : U32 :=
  cpumaskLoop readl gic.rawDistBase (loopIndices 0 32 4) 0

/-- `gic_dist_init`. -/
def gicDistInit (readl : U64 → U32) (gic : Gicv2) : Gicv2 :=
  let base := gic.rawDistBase
  let gicIrqs := gic.gicIrqs
  -- disable interrupt
  let gic := gic.writel gicdDisable (reg base gicDistCtrl)
  -- set interrupt route
  let cpumask := gicGetCpumask readl gic
  let cpumask := cpumask ||| (cpumask <<< 8)
  let cpumask := cpumask ||| (cpumask <<< 16)
  let gic := (loopIndices 32 gicIrqs 4).foldl
    (fun gic i => gic.writel cpumask (reg base (gicDistTarget + i * 4 / 4))) gic
  -- level triggered, active low
  let gic := (loopIndices 32 gicIrqs 16).foldl
    (fun gic i => gic.writel gicdIntActlowLvltrig (reg base (gicDistConfig + i / 4))) gic
  -- deactivate and disable all irqs
  let gic := (loopIndices 0 gicIrqs 32).foldl
    (fun gic i => (gic.writel gicdIntEnClrX32 (reg base (gicDistActiveClear + i / 8))).writel
      gicdIntEnClrX32 (reg base (gicDistEnableClear + i / 8))) gic
  -- activate SGI
  let gic := gic.writel gicdIntEnSetSgi (reg base gicDistEnableSet)
  gic.writel gicdEnable (reg base gicDistCtrl)

/-- `gic_cpu_init`. -/
def gicCpuInit (gic : Gicv2) : Gicv2 :=
  let base := gic.rawCpuBase
  let distBase := gic.rawDistBase
  let gic := (loopIndices 0 32 4).foldl
    (fun gic i => gic.writel 0xA0A0A0A0#32 (reg distBase (gicDistPri + i * 4 / 4))) gic
  let gic := gic.writel giccIntPriThreshold (reg base gicCpuPrimask)
  gic.writel giccEnable (reg base gicCpuCtrl)

/-- How many interrupts the controller says it has. -/
def gicCtrIrqs (ctr : U32) : Nat :=
  let gicIrqs := ((ctr &&& 0x1f).toNat + 1) * 32
  if gicIrqs > 1020 then 1020 else gicIrqs

/-- `gic_init`, for chip 0, with the result of `get_free_page` for the domain. -/
def gicInit (readl : U64 → U32) (page distBase cpuBase : U64) (s : IrqState Gicv2 W) :
    Int × IrqState Gicv2 W :=
  let gicIrqs := gicCtrIrqs (readl (reg distBase gicDistCtr))
  let s := { s with dev :=
    { s.dev with rawDistBase := distBase, rawCpuBase := cpuBase, gicIrqs := gicIrqs } }
  -- allocate irqdesc, skip over SGIs and PPIs
  let count := gicIrqs - hwIrqStart
  let (virqBase, s) := irqAllocDescs (BitVec.ofNat 32 hwIrqStart) count s
  let (domain, s) := irqDomainAdd page gicv2IrqMap virqBase (BitVec.ofNat 32 hwIrqStart) count s
  if domain = 0 then (-1, s)
  else (0, { s with dev := gicCpuInit (gicDistInit readl s.dev) })

/-- `arch_irq_init`. -/
def archIrqInit (readl : U64 → U32) (page : U64) (s : IrqState Gicv2 W) : IrqState Gicv2 W :=
  (gicInit readl page gicV2DistributorBase gicV2CpuInterfaceBase s).2

/-- The zeroed `.bss`. -/
def IrqState.bss (world : W) : IrqState Gicv2 W :=
  ⟨fun _ => IrqDesc.zero Gicv2 W, ⟨0, 0, 0, []⟩, world, 0⟩

/-! ## Interrupts -/

/-- `gic_handle_irq`, where `GIC_CPU_INTACK` reads as `irqstat`. -/
def gicHandleIrq (irqstat : U32) (s : IrqState Gicv2 W) : Option (IrqState Gicv2 W) :=
  let irqnr := irqstat &&& giccIarIntIdMask
  if irqnr.toNat > 15 ∧ irqnr.toNat < 1021 then (handleDomainIrq irqnr s).map Prod.snd
  else some s

/-! ## What is written -/

/-- The writes behind those of an earlier state. -/
def Gicv2.writesSince (gic gic' : Gicv2) : List (U64 × U32) := gic'.writes.drop gic.writes.length

@[simp] theorem Gicv2.writel_writes (v : U32) (a : U64) (gic : Gicv2) :
    (gic.writel v a).writes = gic.writes ++ [(a, v)] := rfl

/-- The writes of a loop that writes once in each turn. -/
theorem foldl_writel (v : Nat → U32) (a : Nat → U64) (is : List Nat) (gic : Gicv2) :
    is.foldl (fun gic i => gic.writel (v i) (a i)) gic =
      { gic with writes := gic.writes ++ is.map fun i => (a i, v i) } := by
  induction is generalizing gic with
  | nil => simp
  | cons i is ih =>
      rw [List.foldl_cons, ih]
      simp [Gicv2.writel]

/-- The same of a loop that writes twice. -/
theorem foldl_writel_writel (v w : Nat → U32) (a b : Nat → U64) (is : List Nat) (gic : Gicv2) :
    is.foldl (fun gic i => (gic.writel (v i) (a i)).writel (w i) (b i)) gic =
      { gic with writes := gic.writes ++ is.flatMap fun i => [(a i, v i), (b i, w i)] } := by
  induction is generalizing gic with
  | nil => simp
  | cons i is ih =>
      rw [List.foldl_cons, ih]
      simp [Gicv2.writel]

/-- All that `gic_dist_init` writes. -/
def distInitWrites (base : U64) (gicIrqs : Nat) (cpumask : U32) : List (U64 × U32) :=
  (reg base gicDistCtrl, gicdDisable) ::
    ((loopIndices 32 gicIrqs 4).map (fun i => (reg base (gicDistTarget + i * 4 / 4), cpumask)) ++
    (loopIndices 32 gicIrqs 16).map
      (fun i => (reg base (gicDistConfig + i / 4), gicdIntActlowLvltrig)) ++
    (loopIndices 0 gicIrqs 32).flatMap
      (fun i => [(reg base (gicDistActiveClear + i / 8), gicdIntEnClrX32),
        (reg base (gicDistEnableClear + i / 8), gicdIntEnClrX32)]) ++
    [(reg base gicDistEnableSet, gicdIntEnSetSgi), (reg base gicDistCtrl, gicdEnable)])

/-- The word that routes four SPIs. -/
def spiTargets (readl : U64 → U32) (gic : Gicv2) : U32 :=
  let cpumask := gicGetCpumask readl gic
  let cpumask := cpumask ||| (cpumask <<< 8)
  cpumask ||| (cpumask <<< 16)

theorem gicDistInit_eq (readl : U64 → U32) (gic : Gicv2) :
    gicDistInit readl gic =
      { gic with writes := gic.writes ++
        distInitWrites gic.rawDistBase gic.gicIrqs (spiTargets readl gic) } := by
  simp only [gicDistInit, foldl_writel, foldl_writel_writel]
  simp only [Gicv2.writel, distInitWrites, List.append_assoc, List.cons_append, List.nil_append]
  rfl

/-- All that `gic_cpu_init` writes. -/
def cpuInitWrites (base distBase : U64) : List (U64 × U32) :=
  (loopIndices 0 32 4).map (fun i => (reg distBase (gicDistPri + i * 4 / 4), 0xA0A0A0A0#32)) ++
    [(reg base gicCpuPrimask, giccIntPriThreshold), (reg base gicCpuCtrl, giccEnable)]

theorem gicCpuInit_eq (gic : Gicv2) :
    gicCpuInit gic =
      { gic with writes := gic.writes ++ cpuInitWrites gic.rawCpuBase gic.rawDistBase } := by
  simp only [gicCpuInit, foldl_writel]
  simp [Gicv2.writel, cpuInitWrites]

/-! ## What `gic_init` leaves -/

/-- The members of `gic` that are known before the descriptors are asked for. -/
def gicStart (irqs : Nat) (distBase cpuBase : U64) (s : IrqState Gicv2 W) : IrqState Gicv2 W :=
  { s with dev := { s.dev with rawDistBase := distBase, rawCpuBase := cpuBase, gicIrqs := irqs } }

/-- `gic_init` by the states behind its two requests. -/
theorem gicInit_eq {readl : U64 → U32} {page distBase cpuBase : U64} {s : IrqState Gicv2 W}
    {irqs : Nat} (hirqs : gicCtrIrqs (readl (reg distBase gicDistCtr)) = irqs)
    {s₁ : IrqState Gicv2 W}
    (halloc : (irqAllocDescs 16 (irqs - hwIrqStart) (gicStart irqs distBase cpuBase s)).2 = s₁)
    {domain : U64} {s₂ : IrqState Gicv2 W}
    (hadd : irqDomainAdd page gicv2IrqMap 16 16 (irqs - hwIrqStart) s₁ = (domain, s₂)) :
    gicInit readl page distBase cpuBase s = if domain = 0 then (-1, s₂)
      else (0, { s₂ with dev := gicCpuInit (gicDistInit readl s₂.dev) }) := by
  subst hirqs halloc
  obtain ⟨rfl, rfl⟩ := Prod.mk.inj hadd
  rfl

/-- `irq_alloc_descs` changes reference counts only. -/
theorem irqAllocDescs_frame (start : U32) (count : Nat) (s : IrqState Gicv2 W) :
    ((irqAllocDescs start count s).2.dev = s.dev) ∧
      ∀ j, ((irqAllocDescs start count s).2.desc j).hwirq = (s.desc j).hwirq ∧
        ((irqAllocDescs start count s).2.desc j).chip = (s.desc j).chip ∧
        ((irqAllocDescs start count s).2.desc j).handler = (s.desc j).handler := by
  simp only [irqAllocDescs]
  generalize List.range count = is
  induction is generalizing s with
  | nil => simp
  | cons i is ih =>
      obtain ⟨hdev, hdesc⟩ := ih (s.storeDesc (start + BitVec.ofNat 32 i) fun d =>
        { d with refcount := d.refcount + 1 })
      refine ⟨by simpa using hdev, fun j => ?_⟩
      have hj := hdesc j
      simp only [List.foldl_cons]
      rw [hj.1, hj.2.1, hj.2.2]
      unfold IrqState.storeDesc
      cases hi : irqToDesc (start + BitVec.ofNat 32 i) with
      | none => exact ⟨rfl, rfl, rfl⟩
      | some i' =>
          by_cases hne : j = i'
          · subst hne
            simp
          · simp [IrqState.setDesc_of_ne hne]

/-- One turn of the loop of `irq_domain_add`. -/
theorem mapIrq_frame {v : U32} (hv : 16 ≤ v.toNat) (s : IrqState Gicv2 W) :
    (irqDomainMapIrq gicv2IrqMap v v s).2.dev = s.dev ∧
      ∀ j : Fin nrIrqs, (irqDomainMapIrq gicv2IrqMap v v s).2.desc j =
        if j.val = v.toNat then { s.desc j with hwirq := v, chip := some gicv2Chip }
        else s.desc j := by
  simp only [irqDomainMapIrq, gicv2IrqMap, if_pos hv, irqDomainSetHwirqChip, IrqState.storeDesc]
  cases hi : irqToDesc v with
  | none =>
      refine ⟨rfl, fun j => ?_⟩
      have hne : j.val ≠ v.toNat := by
        intro hj
        rw [irqToDesc_of_lt (hj ▸ j.isLt)] at hi
        cases hi
      simp [hne]
  | some i =>
      refine ⟨rfl, fun j => ?_⟩
      have hval := irqToDesc_eq_some hi
      by_cases hj : j = i
      · subst hj
        simp [hval]
      · have hne : j.val ≠ v.toNat := fun h => hj (Fin.ext (h.trans hval.symm))
        simp [hne, IrqState.setDesc_of_ne hj]

/-- The descriptors that `irq_domain_add` maps, of those in the table. -/
theorem irqDomainAdd_frame {page : U64} (hpage : page ≠ 0) {count : Nat} (hcount : count < 2 ^ 16)
    (s : IrqState Gicv2 W) :
    (irqDomainAdd page gicv2IrqMap 16 16 count s).1 = page ∧
      (irqDomainAdd page gicv2IrqMap 16 16 count s).2.dev = s.dev ∧
      ∀ j : Fin nrIrqs, (irqDomainAdd page gicv2IrqMap 16 16 count s).2.desc j =
        if 16 ≤ j.val ∧ j.val < 16 + count then
          { s.desc j with hwirq := BitVec.ofNat 32 j.val, chip := some gicv2Chip }
        else s.desc j := by
  simp only [irqDomainAdd, if_neg hpage]
  refine ⟨trivial, ?_⟩
  induction count with
  | zero =>
      refine ⟨rfl, fun j => ?_⟩
      rw [if_neg (by omega)]
      rfl
  | succ count ih =>
      obtain ⟨hdev, hdesc⟩ := ih (by omega)
      have hv : (16#32 + BitVec.ofNat 32 count).toNat = 16 + count := by
        rw [BitVec.toNat_add, BitVec.toNat_ofNat]
        simp
        omega
      rw [List.range_succ, List.foldl_append, List.foldl_cons, List.foldl_nil]
      obtain ⟨hdev', hdesc'⟩ := mapIrq_frame (v := 16#32 + BitVec.ofNat 32 count) (by omega)
        ((List.range count).foldl (fun s i => (irqDomainMapIrq gicv2IrqMap
          (16 + BitVec.ofNat 32 i) (16 + BitVec.ofNat 32 i) s).2) s)
      refine ⟨hdev'.trans hdev, fun j => ?_⟩
      refine (hdesc' j).trans ?_
      rw [hdesc j, hv]
      by_cases hj : j.val = 16 + count
      · have hnum : 16#32 + BitVec.ofNat 32 count = BitVec.ofNat 32 j.val :=
          BitVec.eq_of_toNat_eq (by rw [hv, BitVec.toNat_ofNat]; omega)
        rw [if_pos hj, if_neg (by omega), if_pos (by omega), hnum]
      · rw [if_neg hj]
        by_cases hin : 16 ≤ j.val ∧ j.val < 16 + count
        · rw [if_pos hin, if_pos (by omega)]
        · rw [if_neg hin, if_neg (by omega)]

theorem gicCtrIrqs_bounds (ctr : U32) : 32 ≤ gicCtrIrqs ctr ∧ gicCtrIrqs ctr ≤ 1020 := by
  simp only [gicCtrIrqs]
  split <;> omega

/-- The state after `arch_irq_init`, from the zeroed `.bss`. -/
structure Started (readl : U64 → U32) (s : IrqState Gicv2 W) : Prop where
  dist : s.dev.rawDistBase = gicV2DistributorBase
  cpu : s.dev.rawCpuBase = gicV2CpuInterfaceBase
  irqs : s.dev.gicIrqs = gicCtrIrqs (readl (reg gicV2DistributorBase gicDistCtr))
  writes : ∃ cpumask, s.dev.writes =
    distInitWrites gicV2DistributorBase s.dev.gicIrqs cpumask ++
      cpuInitWrites gicV2CpuInterfaceBase gicV2DistributorBase
  handler : ∀ j, (s.desc j).handler = none
  mapped : ∀ j : Fin nrIrqs, 16 ≤ j.val → j.val < s.dev.gicIrqs →
    (s.desc j).hwirq = BitVec.ofNat 32 j.val ∧ (s.desc j).chip = some gicv2Chip
  unmapped : ∀ j : Fin nrIrqs, ¬ (16 ≤ j.val ∧ j.val < s.dev.gicIrqs) → (s.desc j).chip = none

theorem started_archIrqInit (readl : U64 → U32) {page : U64} (hpage : page ≠ 0) (world : W) :
    Started readl (archIrqInit readl page (IrqState.bss world)) := by
  obtain ⟨irqs, hirqs⟩ :
      ∃ n, gicCtrIrqs (readl (reg gicV2DistributorBase gicDistCtr)) = n := ⟨_, rfl⟩
  have hbounds := gicCtrIrqs_bounds (readl (reg gicV2DistributorBase gicDistCtr))
  rw [hirqs] at hbounds
  obtain ⟨halloc, hallocDesc⟩ := irqAllocDescs_frame 16 (irqs - hwIrqStart)
    (gicStart irqs gicV2DistributorBase gicV2CpuInterfaceBase (IrqState.bss world))
  obtain ⟨s₁, hs₁⟩ : ∃ s₁, (irqAllocDescs 16 (irqs - hwIrqStart) (gicStart irqs
    gicV2DistributorBase gicV2CpuInterfaceBase (IrqState.bss world))).2 = s₁ := ⟨_, rfl⟩
  rw [hs₁] at halloc hallocDesc
  have hcount : irqs - hwIrqStart < 2 ^ 16 := by omega
  obtain ⟨hdomain, hadd, haddDesc⟩ := irqDomainAdd_frame hpage hcount s₁
  obtain ⟨s₂, hs₂⟩ :
      ∃ s₂, (irqDomainAdd page gicv2IrqMap 16 16 (irqs - hwIrqStart) s₁).2 = s₂ := ⟨_, rfl⟩
  rw [hs₂] at hadd haddDesc
  have hstate : archIrqInit readl page (IrqState.bss world) =
      { s₂ with dev := gicCpuInit (gicDistInit readl s₂.dev) } := by
    rw [archIrqInit, gicInit_eq hirqs hs₁ (Prod.ext hdomain hs₂), if_neg hpage]
  have hdev : s₂.dev = ⟨gicV2DistributorBase, gicV2CpuInterfaceBase, irqs, []⟩ :=
    hadd.trans halloc
  rw [hstate, hdev, gicDistInit_eq, gicCpuInit_eq]
  have hdesc : ∀ j : Fin nrIrqs, (s₂.desc j).handler = none ∧
      (16 ≤ j.val ∧ j.val < irqs →
        (s₂.desc j).hwirq = BitVec.ofNat 32 j.val ∧ (s₂.desc j).chip = some gicv2Chip) ∧
      (¬ (16 ≤ j.val ∧ j.val < irqs) → (s₂.desc j).chip = none) := by
    intro j
    have hsum : 16 + (irqs - hwIrqStart) = irqs := by
      show 16 + (irqs - 16) = irqs
      omega
    obtain ⟨-, hchip, hhandler⟩ := hallocDesc j
    rw [haddDesc j, hsum]
    by_cases hin : 16 ≤ j.val ∧ j.val < irqs
    · rw [if_pos hin]
      exact ⟨hhandler, fun _ => ⟨rfl, rfl⟩, fun h => absurd hin h⟩
    · rw [if_neg hin]
      exact ⟨hhandler, fun h => absurd h hin, fun _ => hchip⟩
  exact {
    dist := rfl
    cpu := rfl
    irqs := hirqs.symm
    writes := ⟨_, rfl⟩
    handler := fun j => (hdesc j).1
    mapped := fun j h h' => (hdesc j).2.1 ⟨h, h'⟩
    unmapped := fun j => (hdesc j).2.2 }

end Arm64OS
