import Arm64OS.Drivers.Gicv2Run

/-!
# The enable bits of the distributor

The hardware's side of `GIC_DIST_ENABLE_SET` and `GIC_DIST_ENABLE_CLEAR`: a one that is
written to the first sets its bit, a one written to the second clears it.  What they hold is
computed from the writes; `reset` is what they held before the first of them.
-/

namespace Arm64OS

open Run

variable {W : Type}

/-- One write, seen by the enable words. -/
def distWrite (base : U64) (word : Nat → U32) (wr : U64 × U32) (w : Nat) : U32 :=
  if wr.1 = reg base (gicDistEnableSet + w * 4) then word w ||| wr.2
  else if wr.1 = reg base (gicDistEnableClear + w * 4) then word w &&& ~~~wr.2
  else word w

/-- The enable words after the writes. -/
def enableWords (base : U64) (reset : Nat → U32) (writes : List (U64 × U32)) : Nat → U32 :=
  writes.foldl (distWrite base) reset

/-- Interrupt `n` is enabled. -/
def IrqState.enabled (reset : Nat → U32) (s : IrqState Gicv2 W) (n : Nat) : Bool :=
  (enableWords s.dev.rawDistBase reset s.dev.writes (n / 32)).getLsbD (n % 32)

/-- The enable bits of the mapped interrupts follow the handlers. -/
def EnabledIffHandler (reset : Nat → U32) (s : IrqState Gicv2 W) : Prop :=
  ∀ j : Fin nrIrqs, 16 ≤ j.val → j.val < s.dev.gicIrqs →
    (s.enabled reset j = true ↔ (s.desc j).handler.isSome)

/-- The number that a call is about. -/
def IrqCall.irq : IrqCall W → U32
  | .request irq _ _ => irq
  | .free irq => irq
  | .interrupt irqstat => irqstat &&& giccIarIntIdMask

/-- A call of `request_irq` with a handler, or of `free_irq`, on an interrupt that `gic_init`
mapped. -/
def IrqCall.Mapped (irqs : Nat) : IrqCall W → Prop
  | .request irq handler _ => handler.isSome ∧ 16 ≤ irq.toNat ∧ irq.toNat < min irqs nrIrqs
  | .free irq => 16 ≤ irq.toNat ∧ irq.toNat < min irqs nrIrqs
  | .interrupt _ => False

/-! ## Addresses -/

theorem reg_inj {base : U64} {m n : Nat} (hm : m < 2 ^ 32) (hn : n < 2 ^ 32) :
    reg base m = reg base n ↔ m = n := by
  unfold reg
  constructor
  · intro h
    have hsame : BitVec.ofNat 64 m = BitVec.ofNat 64 n := by
      have hsub := congrArg (fun a => a - base) h
      rwa [BitVec.add_comm, BitVec.add_sub_cancel, BitVec.add_comm, BitVec.add_sub_cancel] at hsub
    have hnat := congrArg BitVec.toNat hsame
    rw [BitVec.toNat_ofNat, BitVec.toNat_ofNat] at hnat
    omega
  · rintro rfl
    rfl

/-- The CPU interface follows the distributor. -/
theorem reg_cpu (n : Nat) : reg gicV2CpuInterfaceBase n = reg gicV2DistributorBase (0x1000 + n) := by
  unfold reg
  rw [BitVec.ofNat_add, ← BitVec.add_assoc]
  congr 1

/-! ## The writes -/

theorem enableWords_append (base : U64) (reset : Nat → U32) (ws ws' : List (U64 × U32)) :
    enableWords base reset (ws ++ ws') = enableWords base (enableWords base reset ws) ws' :=
  List.foldl_append

/-- Writes to other registers. -/
theorem enableWords_of_other {base : U64} (reset : Nat → U32) {ws : List (U64 × U32)} {w : Nat}
    (h : ∀ wr ∈ ws, wr.1 ≠ reg base (gicDistEnableSet + w * 4) ∧
      wr.1 ≠ reg base (gicDistEnableClear + w * 4)) :
    enableWords base reset ws w = reset w := by
  induction ws generalizing reset with
  | nil => rfl
  | cons wr ws ih =>
      have hwr := h wr List.mem_cons_self
      rw [enableWords, List.foldl_cons, ← enableWords,
        ih _ fun wr' hwr' => h wr' (List.mem_cons_of_mem _ hwr'), distWrite, if_neg hwr.1,
        if_neg hwr.2]

/-- The loop of `gic_dist_init` that disables everything. -/
theorem enableWords_clear (base : U64) (reset : Nat → U32) (is : List Nat) {w : Nat}
    (hw : w < 32) (his : ∀ i ∈ is, i % 32 = 0 ∧ i < 1024) :
    enableWords base reset (is.flatMap fun i =>
        [(reg base (gicDistActiveClear + i / 8), gicdIntEnClrX32),
          (reg base (gicDistEnableClear + i / 8), gicdIntEnClrX32)]) w =
      if w * 32 ∈ is then 0 else reset w := by
  induction is generalizing reset with
  | nil => rfl
  | cons i is ih =>
      obtain ⟨hmod, hlt⟩ := his i List.mem_cons_self
      rw [List.flatMap_cons, enableWords_append,
        ih _ fun i' hi' => his i' (List.mem_cons_of_mem _ hi')]
      have hactive : ∀ off, off < 0x380 →
          reg base (gicDistActiveClear + i / 8) ≠ reg base off := by
        intro off hoff h
        rw [reg_inj (by unfold gicDistActiveClear; omega) (by omega)] at h
        unfold gicDistActiveClear at h
        omega
      have hset : reg base (gicDistEnableClear + i / 8) ≠ reg base (gicDistEnableSet + w * 4) := by
        intro h
        rw [reg_inj (by unfold gicDistEnableClear; omega) (by unfold gicDistEnableSet; omega)] at h
        unfold gicDistEnableClear gicDistEnableSet at h
        omega
      have hclear : reg base (gicDistEnableClear + i / 8) = reg base (gicDistEnableClear + w * 4) ↔
          w * 32 = i := by
        rw [reg_inj (by unfold gicDistEnableClear; omega) (by unfold gicDistEnableClear; omega)]
        omega
      have hone : enableWords base reset
          [(reg base (gicDistActiveClear + i / 8), gicdIntEnClrX32),
            (reg base (gicDistEnableClear + i / 8), gicdIntEnClrX32)] w =
          if w * 32 = i then 0 else reset w := by
        simp only [enableWords, List.foldl_cons, List.foldl_nil, distWrite]
        rw [if_neg hset]
        simp only [hclear]
        rw [if_neg (hactive _ (by unfold gicDistEnableSet; omega)),
          if_neg (hactive _ (by unfold gicDistEnableClear; omega))]
        by_cases hi : w * 32 = i
        · rw [if_pos hi, if_pos hi]
          simp [gicdIntEnClrX32]
        · rw [if_neg hi, if_neg hi]
      rw [hone]
      by_cases hi : w * 32 = i
      · simp [hi]
      · simp [hi]

theorem mem_loopIndices {a n k i : Nat} (hk : 0 < k) (hi : i ∈ loopIndices a n k) :
    a ≤ i ∧ i < n ∧ (i - a) % k = 0 := by
  obtain ⟨j, hj, rfl⟩ := List.mem_range'.1 hi
  have hlt : k * j < n - a := by
    have hdiv := (Nat.lt_div_iff_mul_lt hk).1 hj
    rw [Nat.mul_comm] at hdiv
    omega
  refine ⟨Nat.le_add_right _ _, by omega, ?_⟩
  rw [Nat.add_sub_cancel_left]
  exact Nat.mul_mod_right k j

theorem mem_loopIndices_of_lt {a n k j : Nat} (hk : 0 < k) (h : a + k * j < n) :
    a + k * j ∈ loopIndices a n k := by
  refine List.mem_range'.2 ⟨j, ?_, rfl⟩
  rw [Nat.lt_div_iff_mul_lt hk, Nat.mul_comm]
  omega

/-- A write to the distributor outside its enable registers. -/
def OffEnables (base : U64) (wr : U64 × U32) : Prop :=
  ∃ off, wr.1 = reg base off ∧ off < 2 ^ 32 ∧
    (off < gicDistEnableSet ∨ gicDistEnableClear + 0x80 ≤ off)

theorem enableWords_of_offset {base : U64} (reset : Nat → U32) {ws : List (U64 × U32)} {w : Nat}
    (hw : w < 32) (h : ∀ wr ∈ ws, OffEnables base wr) :
    enableWords base reset ws w = reset w := by
  refine enableWords_of_other reset fun wr hwr => ?_
  obtain ⟨off, haddr, hlt, hout⟩ := h wr hwr
  unfold gicDistEnableSet gicDistEnableClear at *
  rw [haddr]
  refine ⟨fun heq => ?_, fun heq => ?_⟩
  · rw [reg_inj hlt (by omega)] at heq
    omega
  · rw [reg_inj hlt (by omega)] at heq
    omega

theorem offEnables_cpuInitWrites :
    ∀ wr ∈ cpuInitWrites gicV2CpuInterfaceBase gicV2DistributorBase,
      OffEnables gicV2DistributorBase wr := by
  intro wr hwr
  simp only [cpuInitWrites, List.mem_append, List.mem_map, List.mem_cons, List.not_mem_nil,
    or_false] at hwr
  rcases hwr with ⟨i, hi, rfl⟩ | rfl | rfl
  · have hlt := (mem_loopIndices (by decide) hi).2.1
    refine ⟨_, rfl, ?_, Or.inr ?_⟩
    · unfold gicDistPri
      omega
    · unfold gicDistPri gicDistEnableClear
      omega
  · exact ⟨_, reg_cpu _, by decide, Or.inr (by decide)⟩
  · exact ⟨_, reg_cpu _, by decide, Or.inr (by decide)⟩

/-- The last two writes: the SGIs, and the register that turns the distributor on. -/
theorem enableWords_sgi (base : U64) (word : Nat → U32) {w : Nat} (hw : w < 32) :
    enableWords base word
      [(reg base gicDistEnableSet, gicdIntEnSetSgi), (reg base gicDistCtrl, gicdEnable)] w =
      if w = 0 then word w ||| gicdIntEnSetSgi else word w := by
  have hctrl : ∀ word : Nat → U32, enableWords base word
      [(reg base gicDistCtrl, gicdEnable)] w = word w :=
    fun word => enableWords_of_offset word hw fun wr hwr =>
      ⟨_, congrArg Prod.fst (List.mem_singleton.1 hwr), by decide, Or.inl (by decide)⟩
  have hset : reg base gicDistEnableSet = reg base (gicDistEnableSet + w * 4) ↔ w = 0 := by
    rw [reg_inj (by decide) (by unfold gicDistEnableSet; omega)]
    omega
  have hclear : reg base gicDistEnableSet ≠ reg base (gicDistEnableClear + w * 4) := by
    intro h
    rw [reg_inj (by decide) (by unfold gicDistEnableClear; omega)] at h
    unfold gicDistEnableSet gicDistEnableClear at h
    omega
  rw [← List.singleton_append, enableWords_append, hctrl, enableWords, List.foldl_cons,
    List.foldl_nil, distWrite]
  simp only [hset, if_neg hclear]

/-- The enable words after `gic_dist_init`: everything is disabled but the SGIs. -/
theorem enableWords_distInit (base : U64) (reset : Nat → U32) {irqs : Nat} (hirqs : irqs ≤ 1020)
    (cpumask : U32) {w : Nat} (hw : w < 32) (hin : w * 32 < irqs) :
    enableWords base reset (distInitWrites base irqs cpumask) w =
      if w = 0 then gicdIntEnSetSgi else 0 := by
  have hmem : w * 32 ∈ loopIndices 0 irqs 32 := by
    have hlt : 0 + 32 * w < irqs := by omega
    have h := mem_loopIndices_of_lt (by decide) hlt
    rwa [Nat.zero_add, Nat.mul_comm] at h
  have hclears := fun reset => enableWords_clear base reset (loopIndices 0 irqs 32)
    hw fun i hi => by
      obtain ⟨-, hlt, hmod⟩ := mem_loopIndices (by decide) hi
      exact ⟨by simpa using hmod, by omega⟩
  -- what is written in front of the loop does not matter: the loop disables everything
  obtain ⟨front, hfront⟩ : ∃ front, distInitWrites base irqs cpumask = front ++
      (loopIndices 0 irqs 32).flatMap (fun i =>
        [(reg base (gicDistActiveClear + i / 8), gicdIntEnClrX32),
          (reg base (gicDistEnableClear + i / 8), gicdIntEnClrX32)]) ++
      [(reg base gicDistEnableSet, gicdIntEnSetSgi), (reg base gicDistCtrl, gicdEnable)] :=
    ⟨(reg base gicDistCtrl, gicdDisable) ::
      ((loopIndices 32 irqs 4).map (fun i => (reg base (gicDistTarget + i * 4 / 4), cpumask)) ++
      (loopIndices 32 irqs 16).map
        (fun i => (reg base (gicDistConfig + i / 4), gicdIntActlowLvltrig))),
      by simp [distInitWrites]⟩
  rw [hfront, enableWords_append, enableWords_sgi base _ hw, enableWords_append, hclears,
    if_pos hmem]
  simp

/-- The enable words after `gic_init`: `gic_cpu_init` leaves them. -/
theorem enableWords_start (reset : Nat → U32) {irqs : Nat} (hirqs : irqs ≤ 1020) (cpumask : U32)
    {w : Nat} (hw : w < 32) (hin : w * 32 < irqs) :
    enableWords gicV2DistributorBase reset
      (distInitWrites gicV2DistributorBase irqs cpumask ++
        cpuInitWrites gicV2CpuInterfaceBase gicV2DistributorBase) w =
      if w = 0 then gicdIntEnSetSgi else 0 := by
  rw [enableWords_append, enableWords_of_offset _ hw offEnables_cpuInitWrites,
    enableWords_distInit _ _ hirqs cpumask hw hin]

/-! ## The calls -/

theorem getLsbD_or_mask (x : U32) {k m : Nat} (hm : m < 32) :
    (x ||| (1#32 <<< k)).getLsbD m = (x.getLsbD m || decide (m = k)) := by
  rw [BitVec.getLsbD_or, BitVec.getLsbD_shiftLeft]
  by_cases hmk : m = k
  · subst hmk
    simp [hm]
  · have hbit : (1#32).getLsbD (m - k) = decide (m - k = 0) := by
      simp [BitVec.getLsbD_one]
    by_cases hlt : m < k
    · simp [hlt, hmk]
    · have hne : ¬ m - k = 0 := by omega
      rw [hbit]
      simp [hmk, hne]

/-- What a call of `gicv2_unmask_irq` enables. -/
theorem enabled_unmask (reset : Nat → U32) (s s' : IrqState Gicv2 W) {irq : U32}
    (hdev : s'.dev = gicv2UnmaskIrq irq s.dev) (hirq : irq.toNat < 1024) {n : Nat} (hn : n < 1024) :
    s'.enabled reset n = (s.enabled reset n || decide (n = irq.toNat)) := by
  have hset : reg s.dev.rawDistBase (gicDistEnableSet + irq.toNat / 32 * 4) =
      reg s.dev.rawDistBase (gicDistEnableSet + n / 32 * 4) ↔ n / 32 = irq.toNat / 32 := by
    unfold gicDistEnableSet
    rw [reg_inj (by omega) (by omega)]
    omega
  have hclear : reg s.dev.rawDistBase (gicDistEnableSet + irq.toNat / 32 * 4) ≠
      reg s.dev.rawDistBase (gicDistEnableClear + n / 32 * 4) := by
    unfold gicDistEnableSet gicDistEnableClear
    intro h
    rw [reg_inj (by omega) (by omega)] at h
    omega
  unfold IrqState.enabled
  rw [hdev]
  show (enableWords s.dev.rawDistBase reset (s.dev.writes ++ [_]) (n / 32)).getLsbD (n % 32) = _
  rw [enableWords_append]
  simp only [enableWords, List.foldl_cons, List.foldl_nil, distWrite]
  simp only [hset, if_neg hclear]
  by_cases hword : n / 32 = irq.toNat / 32
  · rw [if_pos hword, getLsbD_or_mask _ (by omega)]
    congr 1
    rw [decide_eq_decide]
    omega
  · rw [if_neg hword]
    have hne : n ≠ irq.toNat := fun h => hword (by rw [h])
    simp [hne]

/-- The operations on one interrupt leave the bits of all others. -/
def OthersKept (reset : Nat → U32) (l : IrqCall W) (s s' : IrqState Gicv2 W) : Prop :=
  ∀ n, n < 1024 → n ≠ l.irq.toNat → s'.enabled reset n = s.enabled reset n

/-- What a mapped call does: it is carried out, the bit of a requested interrupt is set, and
no other bit changes. -/
theorem mapped_step (reset : Nat → U32) {irqs : Nat} {s : IrqState Gicv2 W} (hw : Wired irqs s)
    {l : IrqCall W} (hl : l.Mapped irqs) :
    ∃ s', irqStep l s = some s' ∧ OthersKept reset l s s' ∧
      ∃ i, irqToDesc l.irq = some i ∧ i.val = l.irq.toNat ∧
        (∀ j, j ≠ i → (s'.desc j).handler = (s.desc j).handler) ∧
        match l with
        | .request _ _ _ => s'.enabled reset i = true ∧ (s'.desc i).handler.isSome
        | .free _ => s'.enabled reset i = s.enabled reset i ∧ (s'.desc i).handler = none
        | .interrupt _ => False := by
  cases l with
  | request irq handler param =>
      obtain ⟨hsome, hlow, hhigh⟩ := hl
      obtain ⟨f, rfl⟩ := Option.isSome_iff_exists.1 hsome
      have hlt : irq.toNat < nrIrqs := by omega
      have hsmall : irq.toNat < 1024 := Nat.lt_trans hlt (by decide)
      have hi := irqToDesc_of_lt hlt
      have hchip := hw.mapped ⟨irq.toNat, hlt⟩ hlow (by
        show irq.toNat < irqs
        omega)
      have hrun := requestIrq_of_chip hw hi hchip f param
      refine ⟨_, congrArg (Option.map Prod.snd) hrun, ?_, ⟨irq.toNat, hlt⟩, hi, rfl, ?_, ?_, ?_⟩
      · intro n hn hne
        have hother : n ≠ irq.toNat := hne
        rw [enabled_unmask reset s _ rfl hsmall hn, decide_eq_false hother, Bool.or_false]
      · intro j hj
        simp [IrqState.setDesc_of_ne hj]
      · rw [enabled_unmask reset s _ rfl hsmall hsmall, decide_eq_true rfl, Bool.or_true]
      · simp
  | free irq =>
      obtain ⟨hlow, hhigh⟩ := hl
      have hlt : irq.toNat < nrIrqs := by omega
      have hi := irqToDesc_of_lt hlt
      have hdev : (freeIrq irq s).dev = s.dev := by rw [freeIrq, IrqState.storeDesc_dev]
      have hsame : ∀ n, (freeIrq irq s).enabled reset n = s.enabled reset n := by
        intro n
        rw [IrqState.enabled, hdev]
        rfl
      refine ⟨_, rfl, fun n _ _ => hsame n, ⟨irq.toNat, hlt⟩, hi, rfl, ?_, hsame _, ?_⟩
      · intro j hj
        rw [freeIrq_desc, hi, if_neg fun h => hj (Option.some.inj h).symm]
      · rw [freeIrq_desc, if_pos hi]
  | interrupt irqstat => exact absurd hl id

/-- The call frees only what has no handler. -/
def IrqCall.FreesIdle (l : IrqCall W) (s : IrqState Gicv2 W) : Prop :=
  ∀ irq i, l = .free irq → irqToDesc irq = some i → (s.desc i).handler = none

theorem enabledIffHandler_step_iff {reset : Nat → U32} {irqs : Nat} {s s' : IrqState Gicv2 W}
    (hw : Wired irqs s) {l : IrqCall W} (hl : l.Mapped irqs) (henabled : EnabledIffHandler reset s)
    (hstep : irqStep l s = some s') : EnabledIffHandler reset s' ↔ l.FreesIdle s := by
  obtain ⟨t, hrun, hothers, i, hi, hval, hhandlers, hcase⟩ := mapped_step reset hw hl
  obtain rfl : t = s' := Option.some.inj (hrun.symm.trans hstep)
  have hirqs : t.dev.gicIrqs = s.dev.gicIrqs := by
    rw [(wired_step hw hstep).count, hw.count]
  -- the other descriptors agree with their bits as before
  have hrest : ∀ j : Fin nrIrqs, j ≠ i → 16 ≤ j.val → j.val < t.dev.gicIrqs →
      (t.enabled reset j = true ↔ (t.desc j).handler.isSome) := by
    intro j hj hlow hhigh
    have hne : j.val ≠ l.irq.toNat := fun h => hj (Fin.ext (h.trans hval.symm))
    have hlt : j.val < 1024 := Nat.lt_trans j.isLt (by decide)
    rw [hothers j hlt hne, hhandlers j hj]
    exact henabled j hlow (hirqs ▸ hhigh)
  have hmapped : 16 ≤ i.val ∧ i.val < s.dev.gicIrqs := by
    rw [hw.count, hval]
    cases l with
    | request irq handler param =>
        obtain ⟨-, hlow, hhigh⟩ := hl
        exact ⟨hlow, Nat.lt_of_lt_of_le hhigh (Nat.min_le_left _ _)⟩
    | free irq =>
        obtain ⟨hlow, hhigh⟩ := hl
        exact ⟨hlow, Nat.lt_of_lt_of_le hhigh (Nat.min_le_left _ _)⟩
    | interrupt irqstat => exact absurd hl id
  cases l with
  | request irq handler param =>
      refine iff_of_true (fun j hlow hhigh => ?_) (fun irq' i' h => by cases h)
      by_cases hj : j = i
      · rw [hj]
        exact iff_of_true hcase.1 hcase.2
      · exact hrest j hj hlow hhigh
  | free irq =>
      constructor
      · rintro hafter irq' i' ⟨⟩ hi'
        obtain rfl : i = i' := Option.some.inj (hi.symm.trans hi')
        have hbit := hafter i hmapped.1 (hirqs ▸ hmapped.2)
        rw [hcase.2, hcase.1, henabled i hmapped.1 hmapped.2] at hbit
        simpa using hbit
      · intro hidle j hlow hhigh
        by_cases hj : j = i
        · have hbit := henabled i hmapped.1 hmapped.2
          rw [hidle irq i rfl hi] at hbit
          rw [hj, hcase.1, hcase.2]
          exact hbit
        · exact hrest j hj hlow hhigh
  | interrupt irqstat => exact absurd hl id

theorem enabledIffHandler_start (reset : Nat → U32) {readl : U64 → U32} {s : IrqState Gicv2 W}
    (h : Started readl s) : EnabledIffHandler reset s := by
  intro j hlow hhigh
  obtain ⟨cpumask, hwrites⟩ := h.writes
  have hle : s.dev.gicIrqs ≤ 1020 := by
    rw [h.irqs]
    exact (gicCtrIrqs_bounds _).2
  have hbit : s.enabled reset j = false := by
    rw [IrqState.enabled, h.dist, hwrites, enableWords_start reset hle cpumask (by omega) (by omega)]
    by_cases hzero : j.val / 32 = 0
    · rw [if_pos hzero]
      have hsgi : ∀ m, 16 ≤ m → m < 32 → gicdIntEnSetSgi.getLsbD m = false := by decide
      exact hsgi _ (by omega) (by omega)
    · rw [if_neg hzero]
      simp
  rw [hbit, h.handler j]
  simp

theorem mapped_run (reset : Nat → U32) {irqs : Nat} {s : IrqState Gicv2 W} (hw : Wired irqs s)
    {ls : List (IrqCall W)} (hls : ∀ l ∈ ls, l.Mapped irqs) :
    (∃ s', exec irqStep ls s = some s') ∧
      Along irqStep (fun l s => ∀ s', irqStep l s = some s' → OthersKept reset l s s') ls s := by
  induction ls generalizing s with
  | nil => exact ⟨⟨s, rfl⟩, trivial⟩
  | cons l ls ih =>
      obtain ⟨t, hrun, hothers, -⟩ := mapped_step reset hw (hls l List.mem_cons_self)
      obtain ⟨⟨s', hexec⟩, halong⟩ :=
        ih (wired_step hw hrun) fun k hk => hls k (List.mem_cons_of_mem _ hk)
      refine ⟨⟨s', by rw [exec_cons, hrun]; exact hexec⟩, fun s' hs' => ?_, fun s' hs' => ?_⟩
      · obtain rfl : t = s' := Option.some.inj (hrun.symm.trans hs')
        exact hothers
      · obtain rfl : t = s' := Option.some.inj (hrun.symm.trans hs')
        exact halong

theorem enabledIffHandler_run_iff {reset : Nat → U32} {irqs : Nat} {s : IrqState Gicv2 W}
    (hw : Wired irqs s) (henabled : EnabledIffHandler reset s) {ls : List (IrqCall W)}
    (hls : ∀ l ∈ ls, l.Mapped irqs) :
    Along irqStep (fun l s => ∀ s', irqStep l s = some s' → EnabledIffHandler reset s') ls s ↔
      Along irqStep IrqCall.FreesIdle ls s := by
  induction ls generalizing s with
  | nil => exact Iff.rfl
  | cons l ls ih =>
      have hl := hls l List.mem_cons_self
      obtain ⟨t, hrun, -⟩ := mapped_step reset hw hl
      have hiff := enabledIffHandler_step_iff hw hl henabled hrun
      have hrest := fun ht : EnabledIffHandler reset t =>
        ih (wired_step hw hrun) ht fun k hk => hls k (List.mem_cons_of_mem _ hk)
      have hnext : ∀ {s'}, irqStep l s = some s' → t = s' :=
        fun hs' => Option.some.inj (hrun.symm.trans hs')
      constructor
      · rintro ⟨hafter, hls'⟩
        refine ⟨hiff.1 (hafter t hrun), fun s' hs' => ?_⟩
        rw [← hnext hs']
        exact (hrest (hafter t hrun)).1 (hls' t hrun)
      · rintro ⟨hidle, hls'⟩
        have ht := hiff.2 hidle
        refine ⟨fun s' hs' => hnext hs' ▸ ht, fun s' hs' => ?_⟩
        rw [← hnext hs']
        exact (hrest ht).2 (hls' t hrun)

/-- **Enable bits and handlers.**  For every sequence of successful calls on mapped interrupts
from the state that `gic_init` leaves: the calls are carried out and none of them changes
another interrupt's bit.  The bits agree with the handlers at first, and after each of the
calls, if and only if `free_irq` is only ever called for interrupts without a handler. -/
theorem enabled_run_iff (readl : U64 → U32) (reset : Nat → U32) {page : U64} (hpage : page ≠ 0)
    (world : W) (ls : List (IrqCall W))
    (hls : ∀ l ∈ ls, l.Mapped (gicCtrIrqs (readl (reg gicV2DistributorBase gicDistCtr)))) :
    (∃ s, exec irqStep ls (archIrqInit readl page (IrqState.bss world)) = some s) ∧
      Along irqStep (fun l s => ∀ s', irqStep l s = some s' → OthersKept reset l s s') ls
        (archIrqInit readl page (IrqState.bss world)) ∧
      EnabledIffHandler reset (archIrqInit readl page (IrqState.bss world)) ∧
      (Along irqStep (fun l s => ∀ s', irqStep l s = some s' → EnabledIffHandler reset s') ls
          (archIrqInit readl page (IrqState.bss world)) ↔
        Along irqStep IrqCall.FreesIdle ls (archIrqInit readl page (IrqState.bss world))) := by
  have hstarted := started_archIrqInit readl hpage world
  have hwired := hstarted.wired
  rw [hstarted.irqs] at hwired
  have hagree := enabledIffHandler_start reset hstarted
  obtain ⟨hrun, hothers⟩ := mapped_run reset hwired hls
  exact ⟨hrun, hothers, hagree, enabledIffHandler_run_iff hwired hagree hls⟩

/-- The timer requested. -/
theorem enabled_run_timer :
    (∃ s, exec irqStep [.request 30 (some fun _ _ w => (0, w)) 0] IrqState.sample = some s) ∧
      Along irqStep (fun l s => ∀ s', irqStep l s = some s' → EnabledIffHandler (fun _ => 0) s')
        [.request 30 (some fun _ _ w => (0, w)) 0] IrqState.sample := by
  have hpage : (0x400000 : U64) ≠ 0 := by decide
  obtain ⟨hrun, -, -, hiff⟩ := enabled_run_iff (fun _ => 7) (fun _ => 0) hpage ()
    [.request 30 (some fun _ _ w => (0, w)) 0] (by
      rintro l (_ | ⟨_, ⟨⟩⟩)
      exact ⟨rfl, by decide, by decide⟩)
  refine ⟨hrun, hiff.2 ⟨?_, fun _ _ => trivial⟩⟩
  rintro irq i ⟨⟩

theorem not_freesIdle_of_request {irqs : Nat} {s : IrqState Gicv2 W} (hw : Wired irqs s)
    {irq : U32} {i : Fin nrIrqs} (hi : irqToDesc irq = some i)
    (hc : (s.desc i).chip = some gicv2Chip) (f : IrqHandler W) (param : U64) :
    ¬ Along irqStep IrqCall.FreesIdle [.request irq (some f) param, .free irq] s := by
  rintro ⟨-, hrest⟩
  have hrun := requestIrq_of_chip hw hi hc f param
  obtain ⟨hidle, -⟩ := hrest _ (congrArg (Option.map Prod.snd) hrun)
  have hnone := hidle irq i rfl hi
  simp at hnone

/-- Requested and freed, the timer interrupt stays enabled. -/
theorem freed_timer_enabled :
    ¬ Along irqStep (fun l s => ∀ s', irqStep l s = some s' → EnabledIffHandler (fun _ => 0) s')
      [.request 30 (some fun _ _ w => (0, w)) 0, .free 30] IrqState.sample := by
  have hwired := started_sample.wired
  have hirqs : IrqState.sample.dev.gicIrqs = 256 := started_sample.irqs
  rw [hirqs] at hwired
  have hmapped : ∀ l ∈ [IrqCall.request 30 (some fun _ _ (w : Unit) => (0, w)) 0, .free 30],
      l.Mapped 256 := by
    rintro l (_ | ⟨_, _ | ⟨_, ⟨⟩⟩⟩)
    · exact ⟨rfl, by decide, by decide⟩
    · exact ⟨by decide, by decide⟩
  rw [enabledIffHandler_run_iff hwired (enabledIffHandler_start _ started_sample) hmapped]
  have hi : irqToDesc 30 = some ⟨30, by decide⟩ := rfl
  exact not_freesIdle_of_request hwired hi (hwired.mapped _ (by decide) (by decide)) _ 0

end Arm64OS
