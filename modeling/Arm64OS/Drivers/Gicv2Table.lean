import Arm64OS.Drivers.Gicv2Run

/-!
# What the descriptor table lacks

The table has `NR_IRQS` descriptors, the controller may have up to 1020 interrupts, and the
SGIs get no chip.  `irq_alloc_descs` and `irq_domain_add` do not look at what `irq_to_desc`
returns, and `request_irq` does not look at the chip.
-/

namespace Arm64OS

open Run

/-! ## Missing descriptors -/

section Descriptors

variable {D W : Type}

theorem storeDesc_nullStores (irq : U32) (f : IrqDesc D W → IrqDesc D W) (s : IrqState D W) :
    (s.storeDesc irq f).nullStores = s.nullStores + if NoDesc irq then 1 else 0 := by
  unfold IrqState.storeDesc
  cases hi : irqToDesc irq with
  | none => rw [if_pos (irqToDesc_eq_none_iff.mp hi)]
  | some i =>
      have hdesc : ¬ NoDesc irq := fun h => by
        rw [irqToDesc_eq_none_iff.mpr h] at hi
        cases hi
      rw [if_neg hdesc]
      rfl

/-- The stores through NULL of a loop add up. -/
theorem foldl_nullStores {step : IrqState D W → Nat → IrqState D W} {c : Nat → Prop}
    [DecidablePred c]
    (hstep : ∀ s i, (step s i).nullStores = s.nullStores + if c i then 1 else 0) (is : List Nat)
    (s : IrqState D W) :
    (is.foldl step s).nullStores = s.nullStores + is.countP fun i => decide (c i) := by
  induction is generalizing s with
  | nil => rfl
  | cons i is ih =>
      rw [List.foldl_cons, ih, hstep, List.countP_cons]
      simp only [decide_eq_true_eq]
      omega

/-- How many of the numbers from `start` on have no descriptor. -/
def missing (start : U32) (count : Nat) : Nat :=
  (List.range count).countP fun i => decide (NoDesc (start + BitVec.ofNat 32 i))

theorem irqAllocDescs_nullStores (start : U32) (count : Nat) (s : IrqState D W) :
    (irqAllocDescs start count s).2.nullStores = s.nullStores + missing start count :=
  foldl_nullStores (fun s i => storeDesc_nullStores (start + BitVec.ofNat 32 i) _ s) _ s

/-- The map function of a domain stores to descriptors that are there. -/
def MapSafe (map : U32 → U32 → IrqState D W → Int × IrqState D W) : Prop :=
  ∀ virq hwirq s, (map virq hwirq s).2.nullStores = s.nullStores

theorem irqDomainAdd_nullStores {map : U32 → U32 → IrqState D W → Int × IrqState D W}
    (hmap : MapSafe map) (page : U64) (virq hwirq : U32) (count : Nat) (s : IrqState D W) :
    (irqDomainAdd page map virq hwirq count s).2.nullStores =
      s.nullStores + if page = 0 then 0 else missing virq count := by
  unfold irqDomainAdd
  by_cases hpage : page = 0
  · rw [if_pos hpage, if_pos hpage]
    rfl
  · rw [if_neg hpage, if_neg hpage]
    refine foldl_nullStores (fun s i => ?_) _ s
    rw [irqDomainMapIrq, hmap, storeDesc_nullStores]

/-- None is missing if the numbers lie in the table. -/
theorem missing_eq_zero_iff {start : U32} {count : Nat} (hcount : count < 2 ^ 32) :
    missing start count = 0 ↔ count = 0 ∨ start.toNat + count ≤ nrIrqs := by
  have hnr : nrIrqs = 256 := rfl
  have hnum : ∀ i < count, (start + BitVec.ofNat 32 i).toNat = (start.toNat + i) % 2 ^ 32 := by
    intro i hi
    rw [BitVec.toNat_add, BitVec.toNat_ofNat, Nat.mod_eq_of_lt (Nat.lt_trans hi hcount)]
  have hnone : missing start count = 0 ↔ ∀ i < count, ¬ NoDesc (start + BitVec.ofNat 32 i) := by
    simp [missing]
  rw [hnone]
  unfold NoDesc
  constructor
  · intro hall
    by_contra hbad
    have hstart := start.isLt
    -- the first number that is not in the table
    obtain ⟨i, hi, hnone⟩ : ∃ i < count, nrIrqs ≤ (start.toNat + i) % 2 ^ 32 := by
      by_cases hin : start.toNat < nrIrqs
      · exact ⟨nrIrqs - start.toNat, by omega, by omega⟩
      · exact ⟨0, by omega, by omega⟩
    have hdesc := hall i hi
    rw [hnum i hi] at hdesc
    exact hdesc hnone
  · rintro (rfl | hfits) i hi
    · exact absurd hi (Nat.not_lt_zero i)
    · rw [hnum i hi]
      omega

/-- A request for the numbers from `start` on, as `gic_init` makes it: the results of
`irq_alloc_descs` and `irq_domain_add`, and the state behind them. -/
def requestDescs (map : U32 → U32 → IrqState D W → Int × IrqState D W) (page : U64)
    (start hwirq count : U32) (s : IrqState D W) : (Int × U64) × IrqState D W :=
  let (virqBase, s) := irqAllocDescs start count.toNat s
  let (domain, s) := irqDomainAdd page map virqBase hwirq count.toNat s
  ((virqBase.toInt, domain), s)

/-- The request goes through no NULL descriptor.  If the numbers exceed the table, it is
rejected, by a negative number or a NULL domain, and the table is as it was. -/
def RequestSafe (map : U32 → U32 → IrqState D W → Int × IrqState D W) (page : U64)
    (start hwirq count : U32) (s : IrqState D W) : Prop :=
  let ((virqBase, domain), s') := requestDescs map page start hwirq count s
  s'.nullStores = s.nullStores ∧
    (nrIrqs < start.toNat + count.toNat → (virqBase < 0 ∨ domain = 0) ∧ s'.desc = s.desc)

theorem requestDescs_nullStores {map : U32 → U32 → IrqState D W → Int × IrqState D W}
    (hmap : MapSafe map) (page : U64) (start hwirq count : U32) (s : IrqState D W) :
    (requestDescs map page start hwirq count s).2.nullStores = s.nullStores +
      missing start count.toNat + if page = 0 then 0 else missing start count.toNat := by
  unfold requestDescs
  show (irqDomainAdd page map start hwirq count.toNat _).2.nullStores = _
  rw [irqDomainAdd_nullStores hmap, irqAllocDescs_nullStores]

/-- An empty request does nothing. -/
theorem requestDescs_zero (map : U32 → U32 → IrqState D W → Int × IrqState D W) (page : U64)
    (start hwirq : U32) (s : IrqState D W) :
    requestDescs map page start hwirq 0 s = ((start.toInt, page), s) := by
  unfold requestDescs
  show ((start.toInt, (irqDomainAdd page map start hwirq 0 s).1),
    (irqDomainAdd page map start hwirq 0 s).2) = _
  unfold irqDomainAdd
  by_cases hpage : page = 0
  · rw [if_pos hpage, hpage]
  · rw [if_neg hpage]
    rfl

theorem requestSafe_iff {map : U32 → U32 → IrqState D W → Int × IrqState D W}
    (hmap : MapSafe map) (page : U64) (start hwirq count : U32) (s : IrqState D W) :
    RequestSafe map page start hwirq count s ↔
      start.toNat + count.toNat ≤ nrIrqs ∨ count = 0 ∧ (start.toInt < 0 ∨ page = 0) := by
  have hstores := requestDescs_nullStores hmap page start hwirq count s
  by_cases hcount : count = 0
  · subst hcount
    unfold RequestSafe
    rw [requestDescs_zero]
    simp only [true_and, and_true]
    have hzero : (0 : U32).toNat = 0 := rfl
    rw [hzero, ← Nat.not_lt]
    exact Decidable.imp_iff_not_or
  · obtain ⟨⟨⟨virqBase, domain⟩, s'⟩, hr⟩ : ∃ r, requestDescs map page start hwirq count s = r :=
      ⟨_, rfl⟩
    unfold RequestSafe
    rw [hr] at hstores ⊢
    change s'.nullStores = _ at hstores
    have hpos : count.toNat ≠ 0 := fun hzero => hcount (BitVec.eq_of_toNat_eq hzero)
    have hnone := @missing_eq_zero_iff start count.toNat count.isLt
    simp only [hpos, false_or] at hnone
    simp only [hcount, false_and, or_false]
    rw [← hnone]
    constructor
    · rintro ⟨hsame, -⟩
      change s'.nullStores = s.nullStores at hsame
      omega
    · intro hzero
      rw [hzero] at hstores
      refine ⟨?_, fun hbad => ?_⟩
      · rw [hstores]
        split <;> rfl
      · exact absurd (hnone.mp hzero) (Nat.not_le.mpr hbad)

end Descriptors

variable {W : Type}

theorem mapSafe_gicv2IrqMap : MapSafe (gicv2IrqMap (W := W)) := by
  intro virq hwirq s
  unfold gicv2IrqMap irqDomainSetHwirqChip
  split
  · split <;> rfl
  · rfl

/-- `gic_init` makes such a request. -/
theorem gicInit_nullStores (readl : U64 → U32) (page distBase cpuBase : U64)
    (s : IrqState Gicv2 W) :
    (gicInit readl page distBase cpuBase s).2.nullStores = s.nullStores +
      missing 16 (gicCtrIrqs (readl (reg distBase gicDistCtr)) - hwIrqStart) +
      if page = 0 then 0
      else missing 16 (gicCtrIrqs (readl (reg distBase gicDistCtr)) - hwIrqStart) := by
  obtain ⟨irqs, hirqs⟩ : ∃ n, gicCtrIrqs (readl (reg distBase gicDistCtr)) = n := ⟨_, rfl⟩
  obtain ⟨s₁, hs₁⟩ : ∃ s₁,
    (irqAllocDescs 16 (irqs - hwIrqStart) (gicStart irqs distBase cpuBase s)).2 = s₁ := ⟨_, rfl⟩
  obtain ⟨⟨domain, s₂⟩, hs₂⟩ : ∃ r, irqDomainAdd page gicv2IrqMap 16 16 (irqs - hwIrqStart) s₁ = r :=
    ⟨_, rfl⟩
  have halloc := irqAllocDescs_nullStores 16 (irqs - hwIrqStart) (gicStart irqs distBase cpuBase s)
  have hadd := irqDomainAdd_nullStores mapSafe_gicv2IrqMap page 16 16 (irqs - hwIrqStart) s₁
  rw [hs₁] at halloc
  rw [hs₂] at hadd
  change s₁.nullStores = s.nullStores + _ at halloc
  change s₂.nullStores = _ at hadd
  rw [gicInit_eq hirqs hs₁ hs₂, hirqs, ← halloc, ← hadd]
  split <;> rfl

theorem gicInit_safe_iff (readl : U64 → U32) (page distBase cpuBase : U64) (s : IrqState Gicv2 W) :
    (gicInit readl page distBase cpuBase s).2.nullStores = s.nullStores ↔
      gicCtrIrqs (readl (reg distBase gicDistCtr)) ≤ nrIrqs := by
  rw [gicInit_nullStores]
  obtain ⟨irqs, hirqs⟩ : ∃ n, gicCtrIrqs (readl (reg distBase gicDistCtr)) = n := ⟨_, rfl⟩
  have hbounds := gicCtrIrqs_bounds (readl (reg distBase gicDistCtr))
  rw [hirqs] at hbounds ⊢
  have hskip : hwIrqStart = 16 := rfl
  have hstart : (16 : U32).toNat = 16 := rfl
  have hnone := @missing_eq_zero_iff 16 (irqs - hwIrqStart) (by omega)
  constructor
  · intro hsame
    have hzero : missing 16 (irqs - hwIrqStart) = 0 := by omega
    have hfits := hnone.mp hzero
    omega
  · intro hfits
    rw [hnone.mpr (Or.inr (by omega))]
    split <;> rfl

/-- **Requests for descriptors.**  `irq_alloc_descs` and `irq_domain_add` do what is asked of them
exactly if the numbers lie in the table, but for empty requests that fail anyway; and
`gic_init` exactly if the controller has no more interrupts than the table has descriptors. -/
theorem requests_iff {D : Type} {map : U32 → U32 → IrqState D W → Int × IrqState D W}
    (hmap : MapSafe map) (page : U64) (start hwirq count : U32) (s : IrqState D W)
    (readl : U64 → U32) (distBase cpuBase : U64) (gic : IrqState Gicv2 W) :
    (RequestSafe map page start hwirq count s ↔
      start.toNat + count.toNat ≤ nrIrqs ∨ count = 0 ∧ (start.toInt < 0 ∨ page = 0)) ∧
    ((gicInit readl page distBase cpuBase gic).2.nullStores = gic.nullStores ↔
      gicCtrIrqs (readl (reg distBase gicDistCtr)) ≤ nrIrqs) :=
  ⟨requestSafe_iff hmap page start hwirq count s,
    gicInit_safe_iff readl page distBase cpuBase gic⟩

/-- A controller with 256 interrupts. -/
theorem requests_iff_256 :
    RequestSafe gicv2IrqMap 0x400000 16 16 240 (IrqState.bss ()) ∧
      (gicInit (fun _ => 7) 0x400000 gicV2DistributorBase gicV2CpuInterfaceBase
        (IrqState.bss ())).2.nullStores = 0 := by
  obtain ⟨hrequest, hinit⟩ := requests_iff mapSafe_gicv2IrqMap 0x400000 16 16 240 (IrqState.bss ())
    (fun _ => 7) gicV2DistributorBase gicV2CpuInterfaceBase (IrqState.bss ())
  exact ⟨hrequest.mpr (Or.inl (by decide)), hinit.mpr (by decide)⟩

/-- A controller with 288 interrupts. -/
theorem requests_288 :
    ¬ RequestSafe gicv2IrqMap 0x400000 16 16 272 (IrqState.bss ()) ∧
      (gicInit (fun _ => 8) 0x400000 gicV2DistributorBase gicV2CpuInterfaceBase
        (IrqState.bss ())).2.nullStores ≠ 0 := by
  constructor
  · rw [requestSafe_iff mapSafe_gicv2IrqMap]
    decide
  · intro hnone
    have hfits := (gicInit_safe_iff (fun _ => 8) 0x400000 gicV2DistributorBase
      gicV2CpuInterfaceBase (IrqState.bss ())).mp hnone
    exact absurd hfits (by decide)

/-! ## Missing chips -/

theorem gicHandleIrq_desc {irqstat : U32} {s s' : IrqState Gicv2 W}
    (h : gicHandleIrq irqstat s = some s') : s'.desc = s.desc := by
  simp only [gicHandleIrq] at h
  split at h
  · obtain ⟨⟨ret, t⟩, ht, rfl⟩ := Option.map_eq_some_iff.mp h
    obtain ⟨⟨ret', t'⟩, ht', hout⟩ := Option.bind_eq_some_iff.mp ht
    obtain ⟨-, rfl⟩ := Prod.mk.inj (Option.some.inj hout)
    exact genericHandleIrq_desc ht'
  · rw [← Option.some.inj h]

/-- A change of handlers where there is a chip. -/
theorem ChipsAt.frame {m : Fin nrIrqs → Prop} {s s' : IrqState Gicv2 W} (h : ChipsAt m s)
    (hdesc : ∀ j, (s'.desc j).hwirq = (s.desc j).hwirq ∧ (s'.desc j).chip = (s.desc j).chip)
    (hhandler : ∀ j, ¬ m j → (s'.desc j).handler = none) : ChipsAt m s' where
  chip j hj := by
    rw [(hdesc j).1, (hdesc j).2]
    exact h.chip j hj
  noChip j hj := by
    rw [(hdesc j).2]
    exact h.noChip j hj
  handler := hhandler

theorem ChipsAt.step {m : Fin nrIrqs → Prop} {l : IrqCall W} {s s' : IrqState Gicv2 W}
    (h : ChipsAt m s) (hstep : irqStep l s = some s') : ChipsAt m s' := by
  cases l with
  | request irq handler param =>
      obtain ⟨⟨ret, t⟩, hreq, rfl⟩ := Option.map_eq_some_iff.mp hstep
      obtain ⟨-, rfl⟩ | ⟨-, i, f, -, -, hm, rfl⟩ := h.requestIrq_returns hreq
      · exact h
      · refine h.frame (fun j => ?_) (fun j hj => ?_)
        · by_cases hne : j = i
          · subst hne
            simp
          · simp [IrqState.setDesc_of_ne hne]
        · have hne : j ≠ i := fun heq => hj (heq ▸ hm)
          simp only [IrqState.setDesc_of_ne hne]
          exact h.handler j hj
  | free irq =>
      obtain rfl : freeIrq irq s = s' := Option.some.inj hstep
      refine h.frame (fun j => ?_) (fun j hj => ?_)
      · rw [freeIrq_desc]
        split <;> exact ⟨rfl, rfl⟩
      · rw [freeIrq_desc]
        split
        · rfl
        · exact h.handler j hj
  | interrupt irqstat =>
      have hdesc := gicHandleIrq_desc hstep
      refine h.frame (fun j => ?_) (fun j hj => ?_)
      · rw [hdesc]
        exact ⟨rfl, rfl⟩
      · rw [hdesc]
        exact h.handler j hj

/-- The numbers that `gic_init` gives the chip to, if it has a page for the domain. -/
def GetsChip (readl : U64 → U32) (page : U64) (irq : Nat) : Prop :=
  page ≠ 0 ∧ 16 ≤ irq ∧ irq < gicCtrIrqs (readl (reg gicV2DistributorBase gicDistCtr))

instance (readl : U64 → U32) (page : U64) (irq : Nat) : Decidable (GetsChip readl page irq) := by
  unfold GetsChip
  infer_instance

theorem chipsAt_archIrqInit (readl : U64 → U32) (page : U64) (world : W) :
    ChipsAt (fun j => GetsChip readl page j.val) (archIrqInit readl page (IrqState.bss world)) := by
  by_cases hpage : page = 0
  · -- without a page `gic_init` stops where the chips would be stored
    obtain ⟨irqs, hirqs⟩ :
      ∃ n, gicCtrIrqs (readl (reg gicV2DistributorBase gicDistCtr)) = n := ⟨_, rfl⟩
    have hno : ∀ j : Fin nrIrqs, ¬ GetsChip readl page j.val := fun j h => h.1 hpage
    obtain ⟨-, halloc⟩ := irqAllocDescs_frame 16 (irqs - hwIrqStart)
      (gicStart irqs gicV2DistributorBase gicV2CpuInterfaceBase (IrqState.bss world))
    have hinit : archIrqInit readl page (IrqState.bss world) =
        (irqAllocDescs 16 (irqs - hwIrqStart) (gicStart irqs gicV2DistributorBase
          gicV2CpuInterfaceBase (IrqState.bss world))).2 := by
      rw [archIrqInit, gicInit_eq hirqs rfl (if_pos hpage), if_pos rfl]
    rw [hinit]
    refine ⟨fun j hj => absurd hj (hno j), fun j _ => ?_, fun j _ => ?_⟩
    · exact (halloc j).2.1
    · exact (halloc j).2.2
  · have hstart := started_archIrqInit readl hpage world
    have hin : ∀ j : Fin nrIrqs, GetsChip readl page j.val ↔ 16 ≤ j.val ∧
        j.val < (archIrqInit readl page (IrqState.bss world)).dev.gicIrqs := by
      intro j
      rw [hstart.irqs]
      exact and_iff_right hpage
    refine ⟨fun j hj => ?_, fun j hj => ?_, fun j _ => hstart.handler j⟩
    · obtain ⟨hlow, hhigh⟩ := (hin j).mp hj
      exact (hstart.mapped j hlow hhigh).symm
    · exact hstart.unmapped j fun h => hj ((hin j).mpr h)

/-- `request_irq` returns: with 0, the handler and its parameter in the table and the line
unmasked, or with another number and nothing changed. -/
def RequestDone (irq : U32) (handler : Option (IrqHandler W)) (param : U64)
    (s : IrqState Gicv2 W) : Prop :=
  ∃ ret s', requestIrq irq handler param s = some (ret, s') ∧
    ((ret = 0 ∧ ∃ i f, irqToDesc irq = some i ∧ handler = some f ∧
        s'.desc = Function.update s.desc i
          { s.desc i with handler := some f, param := param } ∧
        s'.dev = gicv2UnmaskIrq irq s.dev) ∨
      (ret ≠ 0 ∧ s'.desc = s.desc ∧ s'.dev = s.dev))

theorem ChipsAt.done_iff {m : Fin nrIrqs → Prop} {s : IrqState Gicv2 W} (h : ChipsAt m s)
    (irq : U32) (handler : Option (IrqHandler W)) (param : U64) :
    RequestDone irq handler param s ↔
      NoDesc irq ∨ handler = none ∨ ∃ i, irqToDesc irq = some i ∧ m i := by
  classical
  unfold RequestDone
  by_cases hrefused : NoDesc irq ∨ handler = none
  · rw [requestIrq_refused hrefused]
    refine iff_of_true ⟨-1, s, rfl, Or.inr ⟨by decide, rfl, rfl⟩⟩ ?_
    exact or_assoc.mp (Or.inl hrefused)
  · obtain ⟨hdesc, hhandler⟩ := not_or.mp hrefused
    obtain ⟨f, rfl⟩ := Option.ne_none_iff_exists'.mp hhandler
    have hi := irqToDesc_of_lt (Nat.not_le.mp hdesc)
    rw [h.requestIrq_eq hi, hi]
    by_cases hm : m ⟨irq.toNat, Nat.not_le.mp hdesc⟩
    · rw [if_pos hm]
      refine iff_of_true ⟨0, _, rfl, Or.inl ⟨rfl, _, f, rfl, rfl, rfl, rfl⟩⟩ ?_
      exact Or.inr (Or.inr ⟨_, rfl, hm⟩)
    · rw [if_neg hm]
      refine iff_of_false ?_ ?_
      · rintro ⟨ret, s', hret, -⟩
        cases hret
      · rintro (hno | hno | ⟨i, hno, hmi⟩)
        · exact hdesc hno
        · cases hno
        · obtain rfl := Option.some.inj hno
          exact hm hmi

/-- **Requests of interrupts.**  In every state after `gic_init`, `request_irq` does one of the
two things it should exactly if it refuses its arguments at once, or the number is one that
`gic_init` gave the chip to. -/
theorem requestDone_iff {readl : U64 → U32} {page : U64} {world : W} {s : IrqState Gicv2 W}
    (hs : Reachable irqStep (archIrqInit readl page (IrqState.bss world)) s) (irq : U32)
    (handler : Option (IrqHandler W)) (param : U64) :
    RequestDone irq handler param s ↔
      NoDesc irq ∨ handler = none ∨ GetsChip readl page irq.toNat := by
  have hchips : ChipsAt (fun j => GetsChip readl page j.val) s :=
    hs.invariant (fun l s s' h hstep => h.step hstep) (chipsAt_archIrqInit readl page world)
  rw [hchips.done_iff]
  by_cases hdesc : NoDesc irq
  · simp only [hdesc, true_or]
  · have hi := irqToDesc_of_lt (Nat.not_le.mp hdesc)
    simp only [hi, Option.some.injEq, exists_eq_left']

/-- The timer, where the controller has 256 interrupts. -/
theorem requestDone_timer : RequestDone 30 (some fun _ _ w => (0, w)) 0 IrqState.sample :=
  (requestDone_iff (Reachable.refl IrqState.sample) 30 _ 0).mpr (Or.inr (Or.inr (by decide)))

/-- An SGI has a descriptor and no chip. -/
theorem request_sgi :
    requestIrq 0 (some fun _ _ w => (0, w)) 0 IrqState.sample = none ∧
      ¬ RequestDone 0 (some fun _ _ w => (0, w)) 0 IrqState.sample := by
  have hchips : ChipsAt (fun j => GetsChip (fun _ => 7) 0x400000 j.val) IrqState.sample :=
    chipsAt_archIrqInit (fun _ => 7) 0x400000 ()
  have hnull : requestIrq 0 (some fun _ _ w => (0, w)) 0 IrqState.sample = none := by
    rw [hchips.requestIrq_eq (irqToDesc_of_lt (by decide))]
    exact if_neg (by decide)
  refine ⟨hnull, ?_⟩
  rintro ⟨ret, s', hret, -⟩
  rw [hnull] at hret
  cases hret

end Arm64OS
