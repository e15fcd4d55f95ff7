import Arm64OS.Arch.Memzero
import Arm64OS.Lib.Cores

/-!
# The first instructions

`arch/arm64/kernel/head.S`, with `memzero` of `mm.S`: what the cores do from `_start` on, one
instruction at a time and in any order, until one of them branches to `start_kernel`.

A core is at a place in the code of a label.  The code behind a `bl` is kept as the link
register; code that is not in these two files (`start_kernel`, the code that the loader ran, an
exception vector) is not executed further.
-/

namespace Arm64OS

namespace Head

open ByteMem A64

/-- The exception levels that a core can be in. -/
inductive El
  | el1
  | el2
  | el3
  deriving DecidableEq

/-- What `CurrentEL` reads as. -/
def El.currentEL : El → Word
  | .el1 => 1 <<< 2
  | .el2 => 2 <<< 2
  | .el3 => 3 <<< 2

/-- The exception level of a mode in `M`, the low bits of an SPSR, with either stack pointer. -/
def El.ofMode (spsr : Word) : Option El :=
  if spsr &&& 0x1e = El.el1.currentEL then some .el1
  else if spsr &&& 0x1e = El.el2.currentEL then some .el2
  else if spsr &&& 0x1e = El.el3.currentEL then some .el3
  else none

inductive Sym
  /-- `_start` -/
  | start
  | core0Proc
  | el3Entry
  | el2Entry
  | el1Entry
  | memzero
  | hangProc
  | startKernel
  deriving DecidableEq

def Sym.all : List Sym :=
  [.start, .core0Proc, .el3Entry, .el2Entry, .el1Entry, .memzero, .hangProc, .startKernel]

/-- The system registers. -/
inductive SysReg
  | mpidrEl1
  | currentEL
  | sctlrEl1
  | hcrEl2
  | spsrEl2
  | elrEl2
  | vbarEl1
  deriving DecidableEq

inductive Instr
  | mrs (d : Reg) (r : SysReg)
  | msr (r : SysReg) (n : Reg)
  | and (d n : Reg) (v : Word)
  | sub (d n m : Reg)
  | cmp (n : Reg) (v : Word)
  | subs (d n : Reg) (v : Word)
  /-- `ldr d, =v`, and `adr` -/
  | ldrLit (d : Reg) (v : Word)
  | ldr (d n : Reg)
  /-- `str xzr, [n], #8` -/
  | strZeroPost (n : Reg)
  /-- `mov sp, n` -/
  | movSp (n : Reg)
  | cbz (n : Reg) (l : Sym)
  | beq (l : Sym)
  | bgt (l : Sym)
  | b (l : Sym)
  | bl (l : Sym)
  | ret
  | eret
  deriving DecidableEq

/-- Where the linker puts things. -/
structure Layout where
  addr : Sym → Word
  addr_injective : Function.Injective addr
  vectors : Word
  bssBegin : Word
  bssEnd : Word
  /-- `sp_addr` -/
  spAddr : Word

/-- `HCR_HOST_NVHE_FLAGS`. -/
def hcrHostNvheFlags : Word := 1 <<< 31

/-- `SCTLR_VALUE_MMU_DISABLED`. -/
def sctlrValueMmuDisabled : Word := 0

/-- `SPSR_EL1`: `A`, `I` and `F` masked, EL1h. -/
def spsrEl1 : Word := (7 <<< 6) ||| 5

def body (ly : Layout) : Sym → List Instr
  | .start => [.mrs 0 .mpidrEl1, .and 0 0 0xff, .cbz 0 .core0Proc, .b .hangProc]
  | .core0Proc =>
      [.mrs 5 .currentEL, .mrs 1 .sctlrEl1, .cmp 5 El.el3.currentEL, .beq .el3Entry, .b .el2Entry]
  | .el3Entry => [.eret]
  | .el2Entry =>
      -- the execution state for EL1 is AArch64
      [.ldrLit 0 hcrHostNvheFlags, .msr .hcrEl2 0,
        -- the MMU is off
        .ldrLit 0 sctlrValueMmuDisabled, .msr .sctlrEl1 0,
        .ldrLit 0 spsrEl1, .msr .spsrEl2 0, .ldrLit 0 (ly.addr .el1Entry), .msr .elrEl2 0, .eret]
  | .el1Entry =>
      [.mrs 5 .currentEL, .ldrLit 5 ly.vectors, .msr .vbarEl1 5,
        .ldrLit 0 ly.bssBegin, .ldrLit 1 ly.bssEnd, .sub 1 1 0, .bl .memzero,
        .ldrLit 8 ly.spAddr, .ldr 9 8, .movSp 9, .bl .startKernel, .b .hangProc]
  | .memzero => [.strZeroPost 0, .subs 1 1 8, .bgt .memzero, .ret]
  | .hangProc => [.b .hangProc]
  | .startKernel => []

structure Core where
  mpidr : Word
  el : El
  pstate : Word
  sctlrEl1 : Word
  hcrEl2 : Word
  spsrEl2 : Word
  elrEl2 : Word
  spsrEl3 : Word
  elrEl3 : Word
  vbarEl1 : Word
  x : Reg → Word
  sp : Word
  /-- the label that was last branched to; none where the code is left -/
  label : Option Sym
  /-- the instructions from the current one on -/
  code : List Instr
  /-- the code that `x30` points to -/
  link : List Instr

def Core.setX (d : Reg) (v : Word) (c : Core) : Core := { c with x := Function.update c.x d v }

def Core.goto (ly : Layout) (l : Sym) (c : Core) : Core :=
  { c with label := some l, code := body ly l }

/-- An exception, or a return to code that is not here. -/
def Core.leave (c : Core) : Core := { c with label := none, code := [] }

def Core.getSys (c : Core) : SysReg → Word
  | .mpidrEl1 => c.mpidr
  | .currentEL => c.el.currentEL
  | .sctlrEl1 => c.sctlrEl1
  | .hcrEl2 => c.hcrEl2
  | .spsrEl2 => c.spsrEl2
  | .elrEl2 => c.elrEl2
  | .vbarEl1 => c.vbarEl1

/-- The registers of EL2 are not there at EL1, and two of them cannot be written. -/
def Core.setSys (r : SysReg) (v : Word) (c : Core) : Core :=
  match r with
  | .mpidrEl1 | .currentEL => c.leave
  | .sctlrEl1 => { c with sctlrEl1 := v }
  | .vbarEl1 => { c with vbarEl1 := v }
  | .hcrEl2 => if c.el = .el1 then c.leave else { c with hcrEl2 := v }
  | .spsrEl2 => if c.el = .el1 then c.leave else { c with spsrEl2 := v }
  | .elrEl2 => if c.el = .el1 then c.leave else { c with elrEl2 := v }

/-- An exception return to the mode of `spsr`, not of a level above, and to the address `elr`: to a
label of this code, or out of it.  EL0, where `_start` cannot read its registers, is out of it. -/
def Core.returnTo (ly : Layout) (spsr elr : Word) (c : Core) : Core :=
  match El.ofMode spsr, Sym.all.find? (ly.addr · = elr) with
  | some l, some target =>
      if l.currentEL ≤ c.el.currentEL then { c with el := l, pstate := spsr }.goto ly target
      else c.leave
  | _, _ => c.leave

/-- `eret`.  `SCR_EL3` and `HCR_EL2` are taken to allow the mode that is returned to; there are no
`SPSR_EL1` and `ELR_EL1` here, as this code does not return from EL1. -/
def Core.eret (ly : Layout) (c : Core) : Core :=
  match c.el with
  | .el1 => c.leave
  | .el2 => c.returnTo ly c.spsrEl2 c.elrEl2
  | .el3 => c.returnTo ly c.spsrEl3 c.elrEl3

/-- The effect of `i`; `c` is at the code behind it. -/
def execInstr (ly : Layout) (i : Instr) (c : Core) (m : Mem) : Core × Mem :=
  match i with
  | .mrs d r => (c.setX d (c.getSys r), m)
  | .msr r n => (c.setSys r (c.x n), m)
  | .and d n v => (c.setX d (c.x n &&& v), m)
  | .sub d n k => (c.setX d (c.x n - c.x k), m)
  | .cmp n v => ({ c with pstate := compare (c.x n) v c.pstate }, m)
  | .subs d n v =>
      ({ c with pstate := compare (c.x n) v c.pstate }.setX d (c.x n - v), m)
  | .ldrLit d v => (c.setX d v, m)
  | .ldr d n => (c.setX d (load m (c.x n) 8), m)
  | .strZeroPost n => (c.setX n (c.x n + 8), store (c.x n) 8 0 m)
  | .movSp n => ({ c with sp := c.x n }, m)
  | .cbz n l => (if c.x n = 0 then c.goto ly l else c, m)
  | .beq l => (if c.pstate.getLsbD 30 then c.goto ly l else c, m)
  | .bgt l => (if gt c.pstate then c.goto ly l else c, m)
  | .b l => (c.goto ly l, m)
  | .bl l => ({ c with link := c.code }.goto ly l, m)
  | .ret => ({ c with code := c.link }, m)
  | .eret => (c.eret ly, m)

/-- One instruction of a core. -/
def step (ly : Layout) (s : Core × Mem) : Core × Mem :=
  match s.1.code with
  | [] => s
  | i :: rest => execInstr ly i { s.1 with code := rest } s.2

/-- The core is to come up. -/
def Core.First (c : Core) : Prop := c.mpidr &&& 0xff = 0

instance (c : Core) : Decidable c.First := by
  unfold Core.First
  infer_instance

variable {ly : Layout} {c : Core} {m : Mem}

/-! ## The cores that wait -/

/-- A core that has written nothing but `x0`. -/
def Core.idle (c : Core) (l : Sym) (code : List Instr) (v : Word) : Core :=
  { c with x := Function.update c.x 0 v, label := some l, code := code }

/-- The places of a core that is not to come up: it looks at its number, and hangs. -/
inductive Waits (ly : Layout) (c : Core) : Core → Prop
  | start (v : Word) : Waits ly c (c.idle .start (body ly .start) v)
  | read : Waits ly c (c.idle .start ((body ly .start).drop 1) c.mpidr)
  | number : Waits ly c (c.idle .start ((body ly .start).drop 2) (c.mpidr &&& 0xff))
  | other (v : Word) : Waits ly c (c.idle .start ((body ly .start).drop 3) v)
  | hang (v : Word) : Waits ly c (c.idle .hangProc (body ly .hangProc) v)

@[simp] theorem idle_setX (c : Core) (l : Sym) (code rest : List Instr) (v w : Word) :
    Core.setX 0 w { c.idle l code v with code := rest } = c.idle l rest w := by
  simp [Core.setX, Core.idle]

/-- A step of a core that waits: it waits on, and the memory is as it was. -/
theorem Waits.step {c' : Core} (hother : ¬ c.First) (h : Waits ly c c') (m : Mem) :
    Waits ly c (step ly (c', m)).1 ∧ (Head.step ly (c', m)).2 = m := by
  cases h with
  | start v =>
      have hstep : Head.step ly (c.idle .start (body ly .start) v, m) =
          (Core.setX 0 c.mpidr { c.idle .start (body ly .start) v with
            code := (body ly .start).drop 1 }, m) := rfl
      rw [hstep, idle_setX]
      exact ⟨Waits.read, rfl⟩
  | read =>
      have hstep : Head.step ly (c.idle .start ((body ly .start).drop 1) c.mpidr, m) =
          (Core.setX 0 (Function.update c.x 0 c.mpidr 0 &&& 0xff)
            { c.idle .start ((body ly .start).drop 1) c.mpidr with
              code := (body ly .start).drop 2 }, m) := rfl
      rw [hstep, idle_setX, Function.update_self]
      exact ⟨Waits.number, rfl⟩
  | number =>
      have hx : Function.update c.x 0 (c.mpidr &&& 0xff) 0 ≠ 0 := by
        rw [Function.update_self]
        exact hother
      have hstep : Head.step ly (c.idle .start ((body ly .start).drop 2) (c.mpidr &&& 0xff), m) =
          (if Function.update c.x 0 (c.mpidr &&& 0xff) 0 = 0
            then (c.idle .start ((body ly .start).drop 3) (c.mpidr &&& 0xff)).goto ly .core0Proc
            else c.idle .start ((body ly .start).drop 3) (c.mpidr &&& 0xff), m) := rfl
      rw [hstep, if_neg hx]
      exact ⟨Waits.other _, rfl⟩
  | other v => exact ⟨Waits.hang v, rfl⟩
  | hang v => exact ⟨Waits.hang v, rfl⟩

section Machine

variable {κ : Type*} [DecidableEq κ] {machine : Cores.Machine κ Core Mem} {c₀ : κ}

end Machine

/-- A core as it comes out of reset, with the return state of EL3. -/
def Core.reset (ly : Layout) (mpidr : Word) (el : El) (spsrEl3 elrEl3 : Word) : Core :=
  ⟨mpidr, el, 0, 0, 0, 0, 0, spsrEl3, elrEl3, 0, fun _ => 0, 0, some .start, body ly .start, []⟩

def Sym.sampleAddr : Sym → Word
  | .start => 0x80000
  | .core0Proc => 0x80010
  | .el3Entry => 0x80024
  | .el2Entry => 0x80028
  | .el1Entry => 0x8004c
  | .hangProc => 0x8007c
  | .memzero => 0x80800
  | .startKernel => 0x82000

theorem Sym.sampleAddr_injective : Function.Injective Sym.sampleAddr := by
  intro k l h
  cases k <;> cases l <;> first | rfl | exact absurd h (by decide)

def Layout.sample : Layout :=
  ⟨Sym.sampleAddr, Sym.sampleAddr_injective, 0x81000, 0x94000, 0x98000, 0x83800⟩

end Head

end Arm64OS
