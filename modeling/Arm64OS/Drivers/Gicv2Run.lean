import Arm64OS.Drivers.Gicv2
import Arm64OS.Lib.Run

/-!
# Requests, frees and interrupts over time

A run is a sequence of `request_irq` and `free_irq` calls and of interrupts, from the state
that `gic_init` leaves.  Two questions are asked of it: whether every interrupt that was
acknowledged is also ended, and whether the enable bits of the distributor follow the
descriptor table.
-/

namespace Arm64OS

open Run

variable {W : Type}

inductive IrqCall (W : Type)
  | request (irq : U32) (handler : Option (IrqHandler W)) (param : U64)
  | free (irq : U32)
  /-- `gic_handle_irq` reads this from `GIC_CPU_INTACK` -/
  | interrupt (irqstat : U32)

def irqStep : IrqCall W → IrqState Gicv2 W → Option (IrqState Gicv2 W)
  | .request irq handler param, s => (requestIrq irq handler param s).map Prod.snd
  | .free irq, s => some (freeIrq irq s)
  | .interrupt irqstat, s => gicHandleIrq irqstat s

/-! ## What the table keeps -/

/-- The descriptors of `m` have the driver's chip and their own number, the others have no
chip and no handler. -/
structure ChipsAt (m : Fin nrIrqs → Prop) (s : IrqState Gicv2 W) : Prop where
  chip : ∀ j, m j → (s.desc j).chip = some gicv2Chip ∧ (s.desc j).hwirq = BitVec.ofNat 32 j.val
  noChip : ∀ j, ¬ m j → (s.desc j).chip = none
  handler : ∀ j, ¬ m j → (s.desc j).handler = none

/-- With both, it is the chip that decides. -/
theorem ChipsAt.requestIrq_eq {m : Fin nrIrqs → Prop} [DecidablePred m] {s : IrqState Gicv2 W}
    (h : ChipsAt m s) {irq : U32} {i : Fin nrIrqs} (hi : irqToDesc irq = some i)
    (f : IrqHandler W) (param : U64) :
    requestIrq irq (some f) param s = if m i then some (0,
      { s.setDesc i (fun d => { d with handler := some f, param := param }) with
        dev := gicv2UnmaskIrq irq s.dev }) else none := by
  by_cases hm : m i
  · obtain ⟨hchip, hwirq⟩ := h.chip i hm
    have hnum : (s.desc i).hwirq = irq := by
      rw [hwirq, irqToDesc_eq_some hi]
      simp
    rw [if_pos hm]
    simp [requestIrq, hi, irqEnable, hchip, gicv2Chip, IrqState.callChip, hnum]
  · rw [if_neg hm]
    simp [requestIrq, hi, irqEnable, h.noChip i hm]

/-- What a call that returns has done. -/
theorem ChipsAt.requestIrq_returns {m : Fin nrIrqs → Prop} {s s' : IrqState Gicv2 W}
    (h : ChipsAt m s) {irq : U32} {handler : Option (IrqHandler W)} {param : U64} {ret : Int}
    (hreq : requestIrq irq handler param s = some (ret, s')) :
    (ret = -1 ∧ s' = s) ∨
    (ret = 0 ∧ ∃ i f, irqToDesc irq = some i ∧ handler = some f ∧ m i ∧
      s' = { s.setDesc i (fun d => { d with handler := some f, param := param }) with
        dev := gicv2UnmaskIrq irq s.dev }) := by
  classical
  by_cases hrefused : NoDesc irq ∨ handler = none
  · rw [requestIrq_refused hrefused] at hreq
    obtain ⟨rfl, rfl⟩ := Prod.mk.inj (Option.some.inj hreq)
    exact Or.inl ⟨rfl, rfl⟩
  · obtain ⟨hdesc, hhandler⟩ := not_or.mp hrefused
    obtain ⟨f, rfl⟩ := Option.ne_none_iff_exists'.mp hhandler
    have hi := irqToDesc_of_lt (Nat.not_le.mp hdesc)
    rw [h.requestIrq_eq hi] at hreq
    split at hreq
    case isTrue hm =>
      obtain ⟨rfl, rfl⟩ := Prod.mk.inj (Option.some.inj hreq)
      exact Or.inr ⟨rfl, _, f, hi, rfl, hm, rfl⟩
    case isFalse => cases hreq

/-- A descriptor with a handler has the chip, and every chip is the driver's and knows the
descriptor's own number. -/
structure Wired (irqs : Nat) (s : IrqState Gicv2 W) : Prop where
  dist : s.dev.rawDistBase = gicV2DistributorBase
  cpu : s.dev.rawCpuBase = gicV2CpuInterfaceBase
  count : s.dev.gicIrqs = irqs
  chip : ∀ j c, (s.desc j).chip = some c →
    c = gicv2Chip ∧ (s.desc j).hwirq = BitVec.ofNat 32 j.val
  handler : ∀ j, (s.desc j).handler.isSome → (s.desc j).chip = some gicv2Chip
  mapped : ∀ j : Fin nrIrqs, 16 ≤ j.val → j.val < irqs → (s.desc j).chip = some gicv2Chip

theorem Started.wired {readl : U64 → U32} {s : IrqState Gicv2 W} (h : Started readl s) :
    Wired s.dev.gicIrqs s where
  dist := h.dist
  cpu := h.cpu
  count := rfl
  chip j c hc := by
    by_cases hin : 16 ≤ j.val ∧ j.val < s.dev.gicIrqs
    · obtain ⟨hwirq, hchip⟩ := h.mapped j hin.1 hin.2
      rw [hchip] at hc
      exact ⟨(Option.some.inj hc).symm, hwirq⟩
    · rw [h.unmapped j hin] at hc
      cases hc
  handler j hj := by
    rw [h.handler j] at hj
    cases hj
  mapped j h₁ h₂ := (h.mapped j h₁ h₂).2

/-- A change of the handlers where there is a chip, and of the device's writes. -/
theorem Wired.frame {irqs : Nat} {s s' : IrqState Gicv2 W} (h : Wired irqs s)
    (hdev : s'.dev = { s.dev with writes := s'.dev.writes })
    (hdesc : ∀ j, (s'.desc j).hwirq = (s.desc j).hwirq ∧ (s'.desc j).chip = (s.desc j).chip)
    (hhandler : ∀ j, (s'.desc j).handler.isSome → (s.desc j).chip = some gicv2Chip) :
    Wired irqs s' where
  dist := by rw [hdev]; exact h.dist
  cpu := by rw [hdev]; exact h.cpu
  count := by rw [hdev]; exact h.count
  chip j c hc := by
    rw [(hdesc j).2] at hc
    rw [(hdesc j).1]
    exact h.chip j c hc
  handler j hj := by
    rw [(hdesc j).2]
    exact hhandler j hj
  mapped j h₁ h₂ := by
    rw [(hdesc j).2]
    exact h.mapped j h₁ h₂

theorem Wired.chipsAt {irqs : Nat} {s : IrqState Gicv2 W} (h : Wired irqs s) :
    ChipsAt (fun j => (s.desc j).chip = some gicv2Chip) s where
  chip j hj := ⟨hj, (h.chip j _ hj).2⟩
  noChip j hj := Option.eq_none_iff_forall_ne_some.mpr fun c hc =>
    hj (hc.trans (congrArg some (h.chip j c hc).1))
  handler j hj := Option.not_isSome_iff_eq_none.mp fun hsome => hj (h.handler j hsome)

/-- What `request_irq` does where the table is wired. -/
theorem requestIrq_cases {irqs : Nat} {s s' : IrqState Gicv2 W} (hw : Wired irqs s) {irq : U32}
    {handler : Option (IrqHandler W)} {param : U64} {ret : Int}
    (h : requestIrq irq handler param s = some (ret, s')) :
    (ret = -1 ∧ s' = s) ∨
    (ret = 0 ∧ ∃ i f, irqToDesc irq = some i ∧ handler = some f ∧
      (s.desc i).chip = some gicv2Chip ∧
      s' = { s.setDesc i (fun d => { d with handler := some f, param := param }) with
        dev := gicv2UnmaskIrq irq s.dev }) := hw.chipsAt.requestIrq_returns h

/-- On a wired descriptor `request_irq` succeeds. -/
theorem requestIrq_of_chip {irqs : Nat} {s : IrqState Gicv2 W} (hw : Wired irqs s) {irq : U32}
    {i : Fin nrIrqs} (hi : irqToDesc irq = some i) (hc : (s.desc i).chip = some gicv2Chip)
    (f : IrqHandler W) (param : U64) :
    requestIrq irq (some f) param s = some (0,
      { s.setDesc i (fun d => { d with handler := some f, param := param }) with
        dev := gicv2UnmaskIrq irq s.dev }) := by
  classical
  rw [hw.chipsAt.requestIrq_eq hi, if_pos hc]

/-- What an interrupt does where the table is wired. -/
theorem gicHandleIrq_eq {irqs : Nat} {s : IrqState Gicv2 W} (hw : Wired irqs s) (irqstat : U32) :
    ∃ world, gicHandleIrq irqstat s = some { s with
      world := world
      dev := if 15 < (irqstat &&& giccIarIntIdMask).toNat ∧
          ∃ i, irqToDesc (irqstat &&& giccIarIntIdMask) = some i ∧ (s.desc i).handler.isSome
        then gicv2EoiIrq (irqstat &&& giccIarIntIdMask) s.dev else s.dev } := by
  obtain ⟨irqnr, hnr⟩ : ∃ irqnr, irqstat &&& giccIarIntIdMask = irqnr := ⟨_, rfl⟩
  simp only [gicHandleIrq, hnr]
  by_cases hrange : irqnr.toNat > 15 ∧ irqnr.toNat < 1021
  · rw [if_pos hrange]
    simp only [handleDomainIrq, irqFindMapping, genericHandleIrq]
    cases hi : irqToDesc irqnr with
    | none => exact ⟨s.world, by simp⟩
    | some i =>
        cases hh : (s.desc i).handler with
        | none => exact ⟨s.world, by simp [hh]⟩
        | some f =>
            have hc := hw.handler i (by simp [hh])
            have hnum : (s.desc i).hwirq = irqnr := by
              rw [(hw.chip i _ hc).2, irqToDesc_eq_some hi]
              simp
            refine ⟨(f irqnr (s.desc i).param s.world).2, ?_⟩
            have hlow : 15 < irqnr.toNat := hrange.1
            simp [hh, hc, gicv2Chip, IrqState.callChip, hnum, hlow]
  · rw [if_neg hrange]
    refine ⟨s.world, ?_⟩
    have hno : ¬ (15 < irqnr.toNat ∧ ∃ i, irqToDesc irqnr = some i ∧
        (s.desc i).handler.isSome) := by
      rintro ⟨hlow, i, hi, -⟩
      have hval := irqToDesc_eq_some hi
      have hlt := i.isLt
      unfold nrIrqs at hlt
      omega
    rw [if_neg hno]

theorem freeIrq_desc (irq : U32) (s : IrqState Gicv2 W) (j : Fin nrIrqs) :
    (freeIrq irq s).desc j =
      if irqToDesc irq = some j then { s.desc j with handler := none, param := 0 }
      else s.desc j := by
  unfold freeIrq IrqState.storeDesc
  cases hi : irqToDesc irq with
  | none => simp
  | some i =>
      by_cases hj : j = i
      · subst hj
        simp
      · simp [IrqState.setDesc_of_ne hj, Ne.symm hj]

theorem wired_step {irqs : Nat} {l : IrqCall W} {s s' : IrqState Gicv2 W} (hw : Wired irqs s)
    (h : irqStep l s = some s') : Wired irqs s' := by
  cases l with
  | request irq handler param =>
      obtain ⟨⟨ret, s''⟩, hreq, rfl⟩ := Option.map_eq_some_iff.1 h
      obtain ⟨-, rfl⟩ | ⟨-, i, f, -, -, hc, rfl⟩ := requestIrq_cases hw hreq
      · exact hw
      · refine hw.frame rfl (fun j => ?_) (fun j hj => ?_)
        · by_cases hj : j = i
          · subst hj
            simp
          · simp [IrqState.setDesc_of_ne hj]
        · by_cases hne : j = i
          · rw [hne]
            exact hc
          · simp only [IrqState.setDesc_of_ne hne] at hj
            exact hw.handler j hj
  | free irq =>
      obtain rfl : freeIrq irq s = s' := Option.some.inj h
      refine hw.frame ?_ (fun j => ?_) (fun j hj => ?_)
      · rw [freeIrq, IrqState.storeDesc_dev]
      · rw [freeIrq_desc]
        split <;> exact ⟨rfl, rfl⟩
      · rw [freeIrq_desc] at hj
        split at hj
        · cases hj
        · exact hw.handler j hj
  | interrupt irqstat =>
      obtain ⟨world, hrun⟩ := gicHandleIrq_eq hw irqstat
      obtain rfl := Option.some.inj (hrun.symm.trans h)
      refine hw.frame ?_ (fun j => ⟨rfl, rfl⟩) hw.handler
      dsimp only
      split <;> rfl

/-! ## Ending interrupts -/

/-- The values written to `GIC_CPU_EOI` between two states. -/
def eoisSince (s s' : IrqState Gicv2 W) : List U32 :=
  (s.dev.writesSince s'.dev).filterMap fun w =>
    if w.1 = reg s.dev.rawCpuBase gicCpuEoi then some w.2 else none

/-- `gic_handle_irq` returns; if it acknowledged a real interrupt then it has written the
number of it to `GIC_CPU_EOI` once, and else it has written nothing there. -/
def EndsOnce (irqstat : U32) (s : IrqState Gicv2 W) : Prop :=
  ∃ s', gicHandleIrq irqstat s = some s' ∧
    eoisSince s s' = if (irqstat &&& giccIarIntIdMask).toNat < 1020
      then [irqstat &&& giccIarIntIdMask] else []

/-- The interrupt is a special one, or neither an SGI nor beyond the table, and has a
handler. -/
def Served (irqstat : U32) (s : IrqState Gicv2 W) : Prop :=
  1020 ≤ (irqstat &&& giccIarIntIdMask).toNat ∨
    15 < (irqstat &&& giccIarIntIdMask).toNat ∧
      ∃ i, irqToDesc (irqstat &&& giccIarIntIdMask) = some i ∧ (s.desc i).handler.isSome

theorem endsOnce_iff {irqs : Nat} {s : IrqState Gicv2 W} (hw : Wired irqs s) (irqstat : U32) :
    EndsOnce irqstat s ↔ Served irqstat s := by
  obtain ⟨world, hrun⟩ := gicHandleIrq_eq hw irqstat
  unfold EndsOnce Served
  obtain ⟨irqnr, hnr⟩ : ∃ irqnr, irqstat &&& giccIarIntIdMask = irqnr := ⟨_, rfl⟩
  rw [hnr] at hrun ⊢
  rw [hrun]
  by_cases hserved : 15 < irqnr.toNat ∧ ∃ i, irqToDesc irqnr = some i ∧ (s.desc i).handler.isSome
  · have hlow : irqnr.toNat < 1020 := by
      obtain ⟨-, i, hi, -⟩ := hserved
      have hval := irqToDesc_eq_some hi
      have hlt := i.isLt
      unfold nrIrqs at hlt
      omega
    refine iff_of_true ⟨_, rfl, ?_⟩ (Or.inr hserved)
    simp [eoisSince, Gicv2.writesSince, hserved, gicv2EoiIrq, hlow]
  · rw [if_neg hserved]
    by_cases hspecial : 1020 ≤ irqnr.toNat
    · refine iff_of_true ⟨_, rfl, ?_⟩ (Or.inl hspecial)
      simp [eoisSince, Gicv2.writesSince, Nat.not_lt.2 hspecial]
    · refine iff_of_false ?_ (by simp [hspecial, hserved])
      rintro ⟨s', hs', heois⟩
      obtain rfl := Option.some.inj hs'
      simp [eoisSince, Gicv2.writesSince, Nat.lt_of_not_le hspecial] at heois

/-- **Which interrupts are ended.**  Along every run from the state that `gic_init` leaves,
every acknowledged interrupt is ended once and no special one is, if and only if each
interrupt is a special one or has a handler in the table and is no SGI. -/
theorem endsOnce_run_iff (readl : U64 → U32) {page : U64} (hpage : page ≠ 0) (world : W)
    (ls : List (IrqCall W)) :
    Along irqStep (fun l s => ∀ irqstat, l = .interrupt irqstat → EndsOnce irqstat s) ls
        (archIrqInit readl page (IrqState.bss world)) ↔
      Along irqStep (fun l s => ∀ irqstat, l = .interrupt irqstat → Served irqstat s) ls
        (archIrqInit readl page (IrqState.bss world)) := by
  have hstart := (started_archIrqInit readl hpage world).wired
  refine along_congr_of_invariant (fun l s s' hw h => wired_step hw h) (fun l _ s hw => ?_) hstart
  exact forall_congr' fun irqstat => forall_congr' fun _ => endsOnce_iff hw irqstat

/-- The start on a controller with 256 interrupts. -/
def IrqState.sample : IrqState Gicv2 Unit :=
  archIrqInit (fun _ => 7) 0x400000 (IrqState.bss ())

theorem started_sample : Started (fun _ => 7) IrqState.sample :=
  started_archIrqInit _ (by decide) ()

theorem served_after_request {irqstat : U32} {f : IrqHandler Unit} {param : U64}
    {s : IrqState Gicv2 Unit}
    (h : irqStep (.request (irqstat &&& giccIarIntIdMask) (some f) param) IrqState.sample = some s)
    (hlow : 15 < (irqstat &&& giccIarIntIdMask).toNat)
    (hhigh : (irqstat &&& giccIarIntIdMask).toNat < nrIrqs) : Served irqstat s := by
  have hi := irqToDesc_of_lt hhigh
  have hchip := started_sample.wired.mapped ⟨_, hhigh⟩ hlow (by
    rw [started_sample.irqs]
    exact hhigh)
  have hrun := requestIrq_of_chip started_sample.wired hi hchip f param
  obtain rfl : _ = s := Option.some.inj ((congrArg (Option.map Prod.snd) hrun).symm.trans h)
  exact Or.inr ⟨hlow, _, hi, by simp⟩

/-- With a handler for the timer, its interrupt is ended. -/
theorem endsOnce_run_timer :
    Along irqStep (fun l s => ∀ irqstat, l = .interrupt irqstat → EndsOnce irqstat s)
      [.request 30 (some fun _ _ w => (0, w)) 0, .interrupt 30, .interrupt 1023]
      IrqState.sample := by
  refine (endsOnce_run_iff (fun _ => 7) (by decide) () _).2
    ⟨(fun _ h => by cases h), fun s hs => ⟨?_, fun s' _ => ⟨?_, fun _ _ => trivial⟩⟩⟩
  · rintro irqstat ⟨⟩
    exact served_after_request hs (by decide) (by decide)
  · rintro irqstat ⟨⟩
    exact Or.inl (by decide)

/-- Without one, the interrupt is acknowledged and stays active. -/
theorem timer_not_ended :
    (∃ s, gicHandleIrq 30 IrqState.sample = some s ∧ eoisSince IrqState.sample s = []) ∧
      ¬ Along irqStep (fun l s => ∀ irqstat, l = .interrupt irqstat → EndsOnce irqstat s)
        [.interrupt 30] IrqState.sample := by
  have hnone : ∀ i, (IrqState.sample.desc i).handler.isSome = false := by
    intro i
    rw [started_sample.handler i]
    rfl
  obtain ⟨world, hrun⟩ := gicHandleIrq_eq started_sample.wired 30
  simp only [hnone, Bool.false_eq_true, and_false, exists_false, if_false] at hrun
  refine ⟨⟨_, hrun, by simp [eoisSince, Gicv2.writesSince]⟩, ?_⟩
  rintro ⟨h, -⟩
  rcases (endsOnce_iff started_sample.wired 30).1 (h 30 rfl) with hspecial | ⟨-, i, -, hi⟩
  · exact absurd hspecial (by decide)
  · rw [hnone i] at hi
    cases hi

end Arm64OS
