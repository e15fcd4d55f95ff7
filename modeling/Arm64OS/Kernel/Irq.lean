import Arm64OS.Page

/-!
# Interrupt descriptors

`kernel/irq.c`: the table `irq_desc`, and what requests, frees and interrupts do to it.  The
file knows an interrupt controller by its `irq_chip` alone, so the device `D` behind the chip
is a parameter here.  So is the rest of the kernel `W` that a handler acts on.

A step that goes through a NULL chip, or calls a NULL member of one, has no next state.
Stores through a NULL descriptor land in the first bytes of memory and not in the table; they
are counted.
-/

namespace Arm64OS

/-- `unsigned int`. -/
abbrev U32 := BitVec 32

/-- `NR_IRQS`. -/
def nrIrqs : Nat := 256

/-- The members of `struct irq_chip` that are called.  They read nothing of their descriptor
but its `hwirq`. -/
structure IrqChip (D : Type) where
  irqEnable : Option (U32 → D → D)
  irqDisable : Option (U32 → D → D)
  irqMask : Option (U32 → D → D)
  irqUnmask : Option (U32 → D → D)
  irqEoi : Option (U32 → D → D)

/-- `irq_handler_t`: a function of the interrupt number and `param`. -/
abbrev IrqHandler (W : Type) := U32 → U64 → W → Int × W

structure IrqDesc (D W : Type) where
  hwirq : U32
  chip : Option (IrqChip D)
  refcount : U32
  handler : Option (IrqHandler W)
  param : U64

/-- A descriptor of the zeroed `.bss`. -/
def IrqDesc.zero (D W : Type) : IrqDesc D W := ⟨0, none, 0, none, 0⟩

structure IrqState (D W : Type) where
  desc : Fin nrIrqs → IrqDesc D W
  dev : D
  world : W
  /-- how many stores went through a NULL descriptor -/
  nullStores : Nat

variable {D W : Type}

def irqToDesc (irq : U32) : Option (Fin nrIrqs) :=
  if h : irq.toNat < nrIrqs then some ⟨irq.toNat, h⟩ else none

def IrqState.setDesc (i : Fin nrIrqs) (f : IrqDesc D W → IrqDesc D W) (s : IrqState D W) :
    IrqState D W :=
  { s with desc := Function.update s.desc i (f (s.desc i)) }

/-- Stores to members of `*irq_to_desc(irq)`. -/
def IrqState.storeDesc (irq : U32) (f : IrqDesc D W → IrqDesc D W) (s : IrqState D W) :
    IrqState D W :=
  match irqToDesc irq with
  | some i => s.setDesc i f
  | none => { s with nullStores := s.nullStores + 1 }

/-- A call of a member of the chip. -/
def IrqState.callChip (op : Option (U32 → D → D)) (i : Fin nrIrqs) (s : IrqState D W) :
    Option (IrqState D W) :=
  op.map fun f => { s with dev := f (s.desc i).hwirq s.dev }

/-- `irq_alloc_descs`. -/
def irqAllocDescs (start : U32) (count : Nat) (s : IrqState D W) : U32 × IrqState D W :=
  (start, (List.range count).foldl (fun s i =>
    s.storeDesc (start + BitVec.ofNat 32 i) fun d => { d with refcount := d.refcount + 1 }) s)

/-- `irq_find_mapping`. -/
def irqFindMapping (hwirq : U32) : U32 := hwirq

/-- `irq_enable`. -/
def irqEnable (i : Fin nrIrqs) (s : IrqState D W) : Option (IrqState D W) := do
  let chip ← (s.desc i).chip
  if chip.irqEnable.isSome then s.callChip chip.irqEnable i else s.callChip chip.irqUnmask i

/-- `irq_disable`. -/
def irqDisable (i : Fin nrIrqs) (s : IrqState D W) : Option (IrqState D W) := do
  let chip ← (s.desc i).chip
  if chip.irqDisable.isSome then s.callChip chip.irqDisable i else s.callChip chip.irqMask i

/-- `request_irq`. -/
def requestIrq (irq : U32) (handler : Option (IrqHandler W)) (param : U64) (s : IrqState D W) :
    Option (Int × IrqState D W) :=
  match irqToDesc irq, handler with
  | none, _ => some (-1, s)
  | some _, none => some (-1, s)
  | some i, some h => do
      let s := s.setDesc i fun d => { d with handler := some h, param := param }
      let s ← irqEnable i s
      some (0, s)

/-- `free_irq`. -/
def freeIrq (irq : U32) (s : IrqState D W) : IrqState D W :=
  s.storeDesc irq fun d => { d with handler := none, param := 0 }

/-- `irq_domain_set_hwirq_chip`. -/
def irqDomainSetHwirqChip (virq hwirq : U32) (chip : IrqChip D) (s : IrqState D W) :
    Int × IrqState D W :=
  match irqToDesc virq with
  | none => (-1, s)
  | some i => (0, s.setDesc i fun d => { d with hwirq := hwirq, chip := some chip })

/-- `irq_domain_map_irq`, for a domain whose `ops->map` is `map`. -/
def irqDomainMapIrq (map : U32 → U32 → IrqState D W → Int × IrqState D W) (virq hwirq : U32)
    (s : IrqState D W) : Int × IrqState D W :=
  let s := s.storeDesc virq fun d => { d with hwirq := hwirq }
  map virq hwirq s

/-- `irq_domain_add`, on a page that `get_free_page` handed out, or on 0. -/
def irqDomainAdd (page : U64) (map : U32 → U32 → IrqState D W → Int × IrqState D W)
    (virq hwirq : U32) (count : Nat) (s : IrqState D W) : U64 × IrqState D W :=
  if page = 0 then (0, s)
  else (page, (List.range count).foldl (fun s i =>
    (irqDomainMapIrq map (virq + BitVec.ofNat 32 i) (hwirq + BitVec.ofNat 32 i) s).2) s)

/-- `generic_handle_irq`. -/
def genericHandleIrq (virq : U32) (s : IrqState D W) : Option (Int × IrqState D W) :=
  match irqToDesc virq with
  | none => some (-1, s)
  | some i =>
      match (s.desc i).handler with
      | none => some (-1, s)
      | some handler => do
          let (ret, world) := handler virq (s.desc i).param s.world
          let s := { s with world := world }
          let chip ← (s.desc i).chip
          -- send eoi
          let s ← if chip.irqEoi.isSome then s.callChip chip.irqEoi i else some s
          some (ret, s)

/-- `handle_domain_irq`. -/
def handleDomainIrq (hwirq : U32) (s : IrqState D W) : Option (Int × IrqState D W) := do
  let virq := irqFindMapping hwirq
  let (_, s) ← genericHandleIrq virq s
  some (0, s)

/-! ## The table -/

theorem irqToDesc_of_lt {irq : U32} (h : irq.toNat < nrIrqs) :
    irqToDesc irq = some ⟨irq.toNat, h⟩ := dif_pos h

theorem irqToDesc_eq_some {irq : U32} {i : Fin nrIrqs} (h : irqToDesc irq = some i) :
    i.val = irq.toNat := by
  unfold irqToDesc at h
  split at h
  · exact congrArg Fin.val (Option.some.inj h).symm
  · cases h

/-- There is no descriptor for the number. -/
def NoDesc (irq : U32) : Prop := nrIrqs ≤ irq.toNat

instance (irq : U32) : Decidable (NoDesc irq) := by
  unfold NoDesc
  infer_instance

theorem irqToDesc_eq_none_iff {irq : U32} : irqToDesc irq = none ↔ NoDesc irq := by
  unfold irqToDesc NoDesc
  split
  case isTrue h => exact iff_of_false (by simp) (Nat.not_le.mpr h)
  case isFalse h => exact iff_of_true rfl (Nat.not_lt.mp h)

@[simp] theorem IrqState.setDesc_self (i : Fin nrIrqs) (f : IrqDesc D W → IrqDesc D W)
    (s : IrqState D W) : (s.setDesc i f).desc i = f (s.desc i) := Function.update_self ..

theorem IrqState.setDesc_of_ne {i j : Fin nrIrqs} (h : j ≠ i) (f : IrqDesc D W → IrqDesc D W)
    (s : IrqState D W) : (s.setDesc i f).desc j = s.desc j := Function.update_of_ne h ..

@[simp] theorem IrqState.setDesc_dev (i : Fin nrIrqs) (f : IrqDesc D W → IrqDesc D W)
    (s : IrqState D W) : (s.setDesc i f).dev = s.dev := rfl

@[simp] theorem IrqState.storeDesc_dev (irq : U32) (f : IrqDesc D W → IrqDesc D W)
    (s : IrqState D W) : (s.storeDesc irq f).dev = s.dev := by
  unfold IrqState.storeDesc
  split <;> rfl

/-! ## Calls -/

theorem callChip_desc {op : Option (U32 → D → D)} {i : Fin nrIrqs}
    {s s' : IrqState D W} (h : s.callChip op i = some s') : s'.desc = s.desc := by
  obtain ⟨f, -, rfl⟩ := Option.map_eq_some_iff.mp h
  rfl

/-- An interrupt changes no descriptor. -/
theorem genericHandleIrq_desc {virq : U32} {s s' : IrqState D W} {ret : Int}
    (h : genericHandleIrq virq s = some (ret, s')) : s'.desc = s.desc := by
  unfold genericHandleIrq at h
  cases hi : irqToDesc virq with
  | none =>
      rw [hi] at h
      obtain ⟨-, rfl⟩ := Prod.mk.inj (Option.some.inj h)
      rfl
  | some i =>
      simp only [hi] at h
      cases hh : (s.desc i).handler with
      | none =>
          rw [hh] at h
          obtain ⟨-, rfl⟩ := Prod.mk.inj (Option.some.inj h)
          rfl
      | some f =>
          simp only [hh, Option.bind_eq_bind] at h
          obtain ⟨chip, -, hout⟩ := Option.bind_eq_some_iff.mp h
          by_cases heoi : chip.irqEoi.isSome
          · rw [if_pos heoi] at hout
            obtain ⟨t, ht, hret⟩ := Option.bind_eq_some_iff.mp hout
            obtain ⟨-, rfl⟩ := Prod.mk.inj (Option.some.inj hret)
            have hdesc := callChip_desc ht
            exact hdesc
          · rw [if_neg heoi] at hout
            obtain ⟨-, rfl⟩ := Prod.mk.inj (Option.some.inj hout)
            rfl

/-- Without a descriptor or a handler nothing is done. -/
theorem requestIrq_refused {irq : U32} {handler : Option (IrqHandler W)}
    (h : NoDesc irq ∨ handler = none) (param : U64) (s : IrqState D W) :
    requestIrq irq handler param s = some (-1, s) := by
  unfold requestIrq
  cases hi : irqToDesc irq with
  | none => rfl
  | some i =>
      obtain hdesc | rfl := h
      · rw [irqToDesc_eq_none_iff.mpr hdesc] at hi
        cases hi
      · rfl

end Arm64OS
