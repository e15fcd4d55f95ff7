import Arm64OS.Lib.ByteMem

/-!
# A piece of A64

The instructions that exception entry code is made of, over byte memory, and programs in
which labelled blocks lie one behind the other, so that code runs on from one block into the
next.  `L` is the type of the labels.  Symbols that no block of a program carries are outside
its text.

Alignment checks, address translation and the instructions' other forms are left out.
-/

namespace A64

open ByteMem

/-- `x0` to `x30`. -/
abbrev Reg := Fin 31

/-- There is an `x0`: the numerals of `Reg` rest on this. -/
instance neZero_regs : NeZero (31 : Nat) := ⟨by decide⟩

/-- A register in a place where the encoding allows the stack pointer. -/
inductive RegSp
  | x (r : Reg)
  | sp
  deriving DecidableEq

inductive SysReg
  | spEl0
  | elr
  | spsr
  | esr
  deriving DecidableEq

inductive Instr (L : Type)
  | movImm (d : Reg) (v : Word)
  | mov (d n : RegSp)
  | add (d n : RegSp) (v : Word)
  | sub (d n : RegSp) (v : Word)
  | mvn (d n : Reg)
  | and (d n m : Reg)
  | lsr (d n : Reg) (shift : Nat)
  | cmp (n : Reg) (v : Word)
  /-- `stp t, u, [n, #v]` -/
  | stp (t u : Reg) (n : RegSp) (v : Word)
  | ldp (t u : Reg) (n : RegSp) (v : Word)
  | str (t : Reg) (n : RegSp) (v : Word)
  | ldr (t : Reg) (n : RegSp) (v : Word)
  /-- `ldr` of the low half of a register -/
  | ldrW (t : Reg) (n : RegSp) (v : Word)
  /-- `stp t, u, [n], #v` -/
  | stpPost (t u n : Reg) (v : Word)
  | ldpPost (t u n : Reg) (v : Word)
  | mrs (d : Reg) (r : SysReg)
  | msr (r : SysReg) (n : Reg)
  /-- `msr daifset, #2` -/
  | maskIrq
  | b (l : L)
  | beq (l : L)
  | bl (l : L)
  | blr (n : Reg)
  | ret (n : Reg)
  | cbz (n : Reg) (l : L)
  /-- `cbz` of the low half of a register -/
  | cbzW (n : Reg) (l : L)
  | cbnzW (n : Reg) (l : L)
  | eret

/-- The processor at EL1: `sp` is `SP_EL1`, and `pstate` has the layout of an `SPSR`. -/
structure State where
  x : Reg → Word
  sp : Word
  pc : Word
  pstate : Word
  spEl0 : Word
  elr : Word
  spsr : Word
  esr : Word
  mem : Mem

variable {L : Type}

def State.get (s : State) : RegSp → Word
  | .x r => s.x r
  | .sp => s.sp

def State.setX (r : Reg) (v : Word) (s : State) : State := { s with x := Function.update s.x r v }

def State.set (r : RegSp) (v : Word) (s : State) : State :=
  match r with
  | .x r => s.setX r v
  | .sp => { s with sp := v }

def State.getSys (s : State) : SysReg → Word
  | .spEl0 => s.spEl0
  | .elr => s.elr
  | .spsr => s.spsr
  | .esr => s.esr

def State.setSys (r : SysReg) (v : Word) (s : State) : State :=
  match r with
  | .spEl0 => { s with spEl0 := v }
  | .elr => { s with elr := v }
  | .spsr => { s with spsr := v }
  | .esr => { s with esr := v }

def State.setPc (v : Word) (s : State) : State := { s with pc := v }

@[simp] theorem State.setPc_pc (v : Word) (s : State) : (s.setPc v).pc = v := rfl

@[simp] theorem State.setPc_setPc (v w : Word) (s : State) :
    (s.setPc w).setPc v = s.setPc v := rfl

@[simp] theorem State.setPc_x (v : Word) (s : State) : (s.setPc v).x = s.x := rfl

@[simp] theorem State.setPc_sp (v : Word) (s : State) : (s.setPc v).sp = s.sp := rfl

@[simp] theorem State.setPc_mem (v : Word) (s : State) : (s.setPc v).mem = s.mem := rfl

def State.store (a v : Word) (s : State) : State := { s with mem := ByteMem.store a 8 v s.mem }

def State.load (s : State) (a : Word) : Word := ByteMem.load s.mem a 8

/-- `PSTATE.I`. -/
def irqMask : Word := 0x80

def State.masked (s : State) : Bool := s.pstate.getLsbD 7

@[simp] theorem State.setPc_masked (v : Word) (s : State) : (s.setPc v).masked = s.masked := rfl

/-- The condition flags `N`, `Z`, `C` and `V`. -/
def withFlags (n z c v : Bool) (pstate : Word) : Word :=
  (pstate &&& ~~~0xf0000000#64) |||
    ((if n then 0x80000000#64 else 0) ||| (if z then 0x40000000#64 else 0) |||
      (if c then 0x20000000#64 else 0) ||| (if v then 0x10000000#64 else 0))

/-- The flags of a comparison. -/
def compare (a b : Word) (pstate : Word) : Word :=
  withFlags (a - b).msb (a = b) (b.toNat ≤ a.toNat)
    (a.msb != b.msb && (a - b).msb != a.msb) pstate

/-- The condition `gt`. -/
def gt (pstate : Word) : Bool :=
  !pstate.getLsbD 30 && pstate.getLsbD 31 == pstate.getLsbD 28

theorem gt_withFlags (n z c v : Bool) (pstate : Word) :
    gt (withFlags n z c v pstate) = (!z && n == v) := by
  unfold gt withFlags
  cases n <;> cases z <;> cases c <;> cases v <;> simp

/-- Words of one sign: the difference does not overflow. -/
theorem slt_eq_msb_sub {a b : Word} (h : a.msb = b.msb) : a.slt b = (a - b).msb := by
  have ha := a.isLt
  have hb := b.isLt
  have hsub := BitVec.toNat_sub a b
  rw [BitVec.slt_eq_ult_of_msb_eq h]
  simp only [BitVec.msb_eq_decide, decide_eq_decide] at h
  rw [BitVec.msb_eq_decide, BitVec.ult_eq_decide, decide_eq_decide]
  omega

theorem slt_eq_msb_of_ne {a b : Word} (h : a.msb ≠ b.msb) : a.slt b = a.msb := by
  rw [BitVec.slt_eq_decide, BitVec.toInt_eq_msb_cond, BitVec.toInt_eq_msb_cond]
  have ha := a.isLt
  have hb := b.isLt
  cases hma : a.msb <;> cases hmb : b.msb <;> simp [hma, hmb] at h ⊢ <;> omega

/-- After a comparison `gt` is the signed order, also where the difference overflows. -/
theorem gt_compare (a b pstate : Word) : gt (compare a b pstate) = b.slt a := by
  have hsigned : ((a - b).msb == (a.msb != b.msb && (a - b).msb != a.msb)) = b.sle a := by
    rw [BitVec.sle_eq_not_slt]
    by_cases hsign : a.msb = b.msb
    · rw [slt_eq_msb_sub hsign]
      simp [hsign]
    · have hother : b.msb = !a.msb := Bool.eq_not_of_ne (Ne.symm hsign)
      rw [slt_eq_msb_of_ne hsign, hother]
      cases (a - b).msb <;> cases a.msb <;> rfl
  rw [compare, gt_withFlags, hsigned, BitVec.sle_eq_slt_or_eq]
  by_cases heq : a = b
  · simp [heq, BitVec.slt]
  · simp [heq, Ne.symm heq]

/-- The effect of one instruction; `addr` gives the addresses of the labels. -/
def execInstr (addr : L → Word) (i : Instr L) (s : State) : State :=
  let next := s.setPc (s.pc + 4)
  match i with
  | .movImm d v => next.setX d v
  | .mov d n => next.set d (s.get n)
  | .add d n v => next.set d (s.get n + v)
  | .sub d n v => next.set d (s.get n - v)
  | .mvn d n => next.setX d (~~~s.x n)
  | .and d n m => next.setX d (s.x n &&& s.x m)
  | .lsr d n shift => next.setX d (s.x n >>> shift)
  | .cmp n v => { next with pstate := compare (s.x n) v s.pstate }
  | .stp t u n v => (next.store (s.get n + v) (s.x t)).store (s.get n + (v + 8)) (s.x u)
  | .ldp t u n v => (next.setX t (s.load (s.get n + v))).setX u (s.load (s.get n + (v + 8)))
  | .str t n v => next.store (s.get n + v) (s.x t)
  | .ldr t n v => next.setX t (s.load (s.get n + v))
  | .ldrW t n v => next.setX t ((ByteMem.load s.mem (s.get n + v) 4).setWidth 64)
  | .stpPost t u n v => ((next.store (s.x n) (s.x t)).store (s.x n + 8) (s.x u)).setX n (s.x n + v)
  | .ldpPost t u n v =>
      ((next.setX t (s.load (s.x n))).setX u (s.load (s.x n + 8))).setX n (s.x n + v)
  | .mrs d r => next.setX d (s.getSys r)
  | .msr r n => next.setSys r (s.x n)
  | .maskIrq => { next with pstate := s.pstate ||| irqMask }
  | .b l => s.setPc (addr l)
  | .beq l => if s.pstate.getLsbD 30 then s.setPc (addr l) else next
  | .bl l => (s.setX 30 (s.pc + 4)).setPc (addr l)
  | .blr n => (s.setX 30 (s.pc + 4)).setPc (s.x n)
  | .ret n => s.setPc (s.x n)
  | .cbz n l => if s.x n = 0 then s.setPc (addr l) else next
  | .cbzW n l => if (s.x n).setWidth 32 = 0#32 then s.setPc (addr l) else next
  | .cbnzW n l => if (s.x n).setWidth 32 = 0#32 then next else s.setPc (addr l)
  | .eret => { s with pc := s.elr, pstate := s.spsr }

/-- What an exception to EL1 does to `PSTATE`: `D`, `A`, `I` and `F` are set, and the mode is
EL1h. -/
def exceptionPstate (pstate : Word) : Word := (pstate &&& ~~~0x1f#64) ||| 0x3c5

/-- An exception to EL1, up to the code that its vector branches to. -/
def State.takeException (handler : Word) (s : State) : State :=
  { s with elr := s.pc, spsr := s.pstate, pstate := exceptionPstate s.pstate, pc := handler }

@[simp] theorem sp_takeException (handler : Word) (s : State) :
    (s.takeException handler).sp = s.sp := rfl

@[simp] theorem mem_takeException (handler : Word) (s : State) :
    (s.takeException handler).mem = s.mem := rfl

/-! ## Programs -/

/-- Blocks one behind the other from `base` on, and the addresses of the other symbols. -/
structure Program (L : Type) where
  blocks : List (L × List (Instr L))
  base : Word
  outer : L → Word

def Program.code (p : Program L) : List (Instr L) := p.blocks.flatMap Prod.snd

/-- How many instructions stand in front of a label. -/
def offset [DecidableEq L] (l : L) : List (L × List (Instr L)) → Option Nat
  | [] => none
  | (l', is) :: blocks => if l = l' then some 0 else (offset l blocks).map (is.length + ·)

/-- The address of the instruction with index `k`. -/
def Program.at (p : Program L) (k : Nat) : Word := p.base + BitVec.ofNat 64 (4 * k)

def Program.addr [DecidableEq L] (p : Program L) (l : L) : Word :=
  match offset l p.blocks with
  | some k => p.at k
  | none => p.outer l

def Program.fetch (p : Program L) (pc : Word) : Option (Instr L) :=
  let d := (pc - p.base).toNat
  if d % 4 = 0 then p.code[d / 4]? else none

/-- One instruction, if there is one at `pc`. -/
def Program.step [DecidableEq L] (p : Program L) (s : State) : Option State :=
  (p.fetch s.pc).map fun i => execInstr p.addr i s

/-- The instructions `is` stand from index `k` on. -/
def Program.CodeAt (p : Program L) (k : Nat) (is : List (Instr L)) : Prop :=
  ∀ j i, is[j]? = some i → p.code[k + j]? = some i

/-- Instructions that go on to the next one. -/
def Instr.straight : Instr L → Bool
  | .b _ | .beq _ | .bl _ | .blr _ | .ret _ | .cbz _ _ | .cbzW _ _ | .cbnzW _ _ | .eret => false
  | _ => true

/-- The returns from an exception and from a function. -/
def Instr.leaves : Instr L → Bool
  | .ret n => n = 30
  | .eret => true
  | _ => false

theorem Instr.leaves_of_straight {i : Instr L} (hi : i.straight) : i.leaves = false := by
  cases i with
  | ret _ | eret => cases hi
  | _ => rfl

/-- The effect of instructions in a row. -/
def execAll (addr : L → Word) (is : List (Instr L)) (s : State) : State :=
  is.foldl (fun s i => execInstr addr i s) s

@[simp] theorem execAll_nil (addr : L → Word) (s : State) : execAll addr [] s = s := rfl

@[simp] theorem execAll_cons (addr : L → Word) (i : Instr L) (is : List (Instr L)) (s : State) :
    execAll addr (i :: is) s = execAll addr is (execInstr addr i s) := rfl

theorem execAll_append (addr : L → Word) (is is' : List (Instr L)) (s : State) :
    execAll addr (is ++ is') s = execAll addr is' (execAll addr is s) := by
  simp [execAll, List.foldl_append]

theorem Program.at_succ (p : Program L) (k : Nat) : p.at (k + 1) = p.at k + 4 := by
  rw [Program.at, Program.at, Nat.mul_succ, BitVec.ofNat_add, ← BitVec.add_assoc]
  rfl

theorem Program.CodeAt.tail {p : Program L} {k : Nat} {i : Instr L} {is : List (Instr L)}
    (h : p.CodeAt k (i :: is)) : p.CodeAt (k + 1) is := by
  intro j i' hj
  have hplace : k + 1 + j = k + (j + 1) := by omega
  rw [hplace]
  exact h (j + 1) i' hj

theorem Program.CodeAt.append {p : Program L} {k : Nat} {is is' : List (Instr L)}
    (h : p.CodeAt k (is ++ is')) : p.CodeAt k is ∧ p.CodeAt (k + is.length) is' := by
  refine ⟨fun j i hj => ?_, fun j i hj => ?_⟩
  · have hlt : j < is.length := (List.getElem?_eq_some_iff.1 hj).1
    exact h j i (by rw [List.getElem?_append_left hlt, hj])
  · have hfound := h (is.length + j) i (by
      rw [List.getElem?_append_right (Nat.le_add_right _ _), Nat.add_sub_cancel_left, hj])
    rwa [← Nat.add_assoc] at hfound

/-- The code of a block stands behind the blocks in front of it. -/
theorem Program.codeAt_block {p : Program L} {pre post : List (L × List (Instr L))} {l : L}
    {is : List (Instr L)} (h : p.blocks = pre ++ (l, is) :: post) :
    p.CodeAt (pre.flatMap Prod.snd).length is := by
  intro j i hj
  have hlt : j < is.length := (List.getElem?_eq_some_iff.1 hj).1
  rw [Program.code, h, List.flatMap_append, List.flatMap_cons,
    List.getElem?_append_right (Nat.le_add_right _ _), Nat.add_sub_cancel_left,
    List.getElem?_append_left hlt, hj]

/-- The instruction at an index, in a program that fits into the address space. -/
theorem Program.CodeAt.fetch {p : Program L} (hfits : 4 * p.code.length < 2 ^ 64) {k : Nat}
    {i : Instr L} {is : List (Instr L)} (h : p.CodeAt k (i :: is)) : p.fetch (p.at k) = some i := by
  have hget : p.code[k]? = some i := h 0 i rfl
  have hk : k < p.code.length := (List.getElem?_eq_some_iff.1 hget).1
  rw [Program.fetch, Program.at, toNat_offset _ (by omega), Nat.mul_mod_right, if_pos rfl,
    Nat.mul_div_cancel_left _ (by decide), hget]

theorem execInstr_straight {addr : L → Word} {i : Instr L} (hi : i.straight) (s : State) :
    (execInstr addr i s).pc = s.pc + 4 := by
  cases i with
  | mov d n => cases d <;> rfl
  | add d n v => cases d <;> rfl
  | sub d n v => cases d <;> rfl
  | msr r n => cases r <;> rfl
  | b _ | beq _ | bl _ | blr _ | ret _ | cbz _ _ | cbzW _ _ | cbnzW _ _ | eret => cases hi
  | _ => rfl

/-- Only an `eret` takes the mask away. -/
theorem masked_execInstr {addr : L → Word} {i : Instr L} (hi : i.leaves = false) {s : State}
    (h : s.masked = true) : (execInstr addr i s).masked = true := by
  have hset : ∀ (r : RegSp) (v : Word) (t : State), (t.set r v).masked = t.masked := by
    intro r v t
    cases r <;> rfl
  cases i with
  | eret => cases hi
  | mov d n => exact (hset d _ _).trans h
  | add d n v => exact (hset d _ _).trans h
  | sub d n v => exact (hset d _ _).trans h
  | msr r n => cases r <;> exact h
  | cmp n v =>
      show (compare (s.x n) v s.pstate).getLsbD 7 = true
      have hbit : s.pstate.getLsbD 7 = true := h
      unfold compare withFlags
      simp [hbit]
  | maskIrq =>
      show (s.pstate ||| irqMask).getLsbD 7 = true
      simp [irqMask]
  | beq l =>
      show (if s.pstate.getLsbD 30 then s.setPc (addr l) else s.setPc (s.pc + 4)).masked = true
      split <;> exact h
  | cbz n l =>
      show (if s.x n = 0 then s.setPc (addr l) else s.setPc (s.pc + 4)).masked = true
      split <;> exact h
  | cbzW n l =>
      show (if (s.x n).setWidth 32 = 0#32 then s.setPc (addr l)
        else s.setPc (s.pc + 4)).masked = true
      split <;> exact h
  | cbnzW n l =>
      show (if (s.x n).setWidth 32 = 0#32 then s.setPc (s.pc + 4)
        else s.setPc (addr l)).masked = true
      split <;> exact h
  | _ => exact h

/-- Comparisons, the masking of interrupts and `eret`. -/
def Instr.writesPstate : Instr L → Bool
  | .cmp _ _ | .maskIrq | .eret => true
  | _ => false

theorem pstate_execInstr {addr : L → Word} {i : Instr L} (hi : i.writesPstate = false) (s : State) :
    (execInstr addr i s).pstate = s.pstate := by
  cases i with
  | mov d n | add d n v | sub d n v => cases d <;> rfl
  | msr r n => cases r <;> rfl
  | beq l =>
      show (if s.pstate.getLsbD 30 then s.setPc (addr l) else s.setPc (s.pc + 4)).pstate = _
      split <;> rfl
  | cbz n l =>
      show (if s.x n = 0 then s.setPc (addr l) else s.setPc (s.pc + 4)).pstate = _
      split <;> rfl
  | cbzW n l | cbnzW n l =>
      simp only [execInstr]
      split <;> rfl
  | cmp _ _ | maskIrq | eret => cases hi
  | _ => rfl

theorem pstate_execAll {addr : L → Word} {is : List (Instr L)}
    (his : ∀ i ∈ is, i.writesPstate = false) (s : State) :
    (execAll addr is s).pstate = s.pstate := by
  induction is generalizing s with
  | nil => rfl
  | cons i is ih =>
      rw [execAll_cons, ih fun j hj => his j (List.mem_cons_of_mem _ hj),
        pstate_execInstr (his i List.mem_cons_self)]

theorem masked_takeException (handler : Word) (s : State) :
    (s.takeException handler).masked = true := by
  show (exceptionPstate s.pstate).getLsbD 7 = true
  simp [exceptionPstate]

/-! ## Rows of registers -/

/-- `stp` of the pairs to consecutive places from cell `2 * i` of the row at `sp`. -/
def stpRow : (i : Nat) → List (Reg × Reg) → List (Instr L)
  | _, [] => []
  | i, (t, u) :: pairs => .stp t u .sp (BitVec.ofNat 64 (16 * i)) :: stpRow (i + 1) pairs

def ldpRow : (i : Nat) → List (Reg × Reg) → List (Instr L)
  | _, [] => []
  | i, (t, u) :: pairs => .ldp t u .sp (BitVec.ofNat 64 (16 * i)) :: ldpRow (i + 1) pairs

/-- The registers after loads from cell `i` of the row at `a` on. -/
def loadRegs (m : Mem) (a : Word) : (i : Nat) → List Reg → (Reg → Word) → Reg → Word
  | _, [], x => x
  | i, r :: rs, x =>
      loadRegs m a (i + 1) rs (Function.update x r (ByteMem.load m (a + BitVec.ofNat 64 (8 * i)) 8))

def flattenPairs (pairs : List (Reg × Reg)) : List Reg := pairs.flatMap fun p => [p.1, p.2]

theorem pair_place (i : Nat) : 16 * i = 8 * (2 * i) := by omega

theorem next_place (k : Nat) : BitVec.ofNat 64 (8 * k) + 8 = BitVec.ofNat 64 (8 * (k + 1)) := by
  rw [Nat.mul_succ, BitVec.ofNat_add]
  rfl

theorem next_pc (pc : Word) (n : Nat) :
    pc + 4 + BitVec.ofNat 64 (4 * n) = pc + BitVec.ofNat 64 (4 * (n + 1)) := by
  rw [Nat.mul_succ, BitVec.ofNat_add, BitVec.add_comm (BitVec.ofNat 64 (4 * n)),
    ← BitVec.add_assoc]
  rfl

theorem execAll_stpRow (addr : L → Word) (pairs : List (Reg × Reg)) (i : Nat) (s : State) :
    execAll addr (stpRow i pairs) s =
      { s with
        pc := s.pc + BitVec.ofNat 64 (4 * pairs.length)
        mem := storeCells s.sp (2 * i) ((flattenPairs pairs).map s.x) s.mem } := by
  induction pairs generalizing i s with
  | nil => simp [stpRow, flattenPairs, storeCells]
  | cons p pairs ih =>
      obtain ⟨t, u⟩ := p
      rw [stpRow, execAll_cons, ih]
      simp only [execInstr, State.get, State.store, State.setPc, pair_place, next_place, next_pc,
        flattenPairs, List.flatMap_cons, List.map_cons, List.length_cons, List.cons_append,
        List.nil_append, storeCells]
      rfl

theorem execInstr_ldp (addr : L → Word) (t u : Reg) (n : RegSp) (v : Word) (s : State) :
    execInstr addr (.ldp t u n v) s =
      { s with
        pc := s.pc + 4
        x := Function.update (Function.update s.x t (load s.mem (s.get n + v) 8)) u
          (load s.mem (s.get n + (v + 8)) 8) } := rfl

theorem execAll_ldpRow (addr : L → Word) (pairs : List (Reg × Reg)) (i : Nat) (s : State) :
    execAll addr (ldpRow i pairs) s =
      { s with
        pc := s.pc + BitVec.ofNat 64 (4 * pairs.length)
        x := loadRegs s.mem s.sp (2 * i) (flattenPairs pairs) s.x } := by
  induction pairs generalizing i s with
  | nil => simp [ldpRow, flattenPairs, loadRegs]
  | cons p pairs ih =>
      obtain ⟨t, u⟩ := p
      have hregs : flattenPairs ((t, u) :: pairs) = t :: u :: flattenPairs pairs := rfl
      rw [ldpRow, execAll_cons, ih, execInstr_ldp, pair_place, next_place, hregs, loadRegs, loadRegs,
        List.length_cons, ← next_pc]
      rfl

theorem loadRegs_of_notMem {m : Mem} {a : Word} {i : Nat} {rs : List Reg} {x : Reg → Word} {r : Reg}
    (hr : r ∉ rs) : loadRegs m a i rs x r = x r := by
  induction rs generalizing i x with
  | nil => rfl
  | cons r' rs ih =>
      rw [loadRegs, ih fun h => hr (List.mem_cons_of_mem _ h), Function.update_of_ne]
      rintro rfl
      exact hr List.mem_cons_self

theorem loadRegs_getElem {m : Mem} {a : Word} {i : Nat} {rs : List Reg} (hnodup : rs.Nodup)
    {j : Nat} (hj : j < rs.length) (x : Reg → Word) :
    loadRegs m a i rs x rs[j] = ByteMem.load m (a + BitVec.ofNat 64 (8 * (i + j))) 8 := by
  induction rs generalizing i j x with
  | nil => simp at hj
  | cons r rs ih =>
      obtain ⟨hr, hrest⟩ := List.nodup_cons.1 hnodup
      cases j with
      | zero =>
          rw [List.getElem_cons_zero, loadRegs, loadRegs_of_notMem hr, Function.update_self,
            Nat.add_zero]
      | succ j =>
          rw [List.getElem_cons_succ, loadRegs, ih hrest (by simpa using hj)]
          congr 4
          omega

/-- `stp` of the pairs with the base register moving on behind each of them. -/
def stpPostRow (n : Reg) (pairs : List (Reg × Reg)) : List (Instr L) :=
  pairs.map fun p => .stpPost p.1 p.2 n 16

def ldpPostRow (n : Reg) (pairs : List (Reg × Reg)) : List (Instr L) :=
  pairs.map fun p => .ldpPost p.1 p.2 n 16

theorem execAll_stpPostRow (addr : L → Word) {n : Reg} (pairs : List (Reg × Reg))
    (hn : n ∉ flattenPairs pairs) (s : State) :
    execAll addr (stpPostRow n pairs) s =
      { s with
        x := Function.update s.x n (s.x n + BitVec.ofNat 64 (8 * (2 * pairs.length)))
        pc := s.pc + BitVec.ofNat 64 (4 * pairs.length)
        mem := storeCells (s.x n) 0 ((flattenPairs pairs).map s.x) s.mem } := by
  induction pairs generalizing s with
  | nil => simp [stpPostRow, flattenPairs, storeCells]
  | cons p pairs ih =>
      obtain ⟨t, u⟩ := p
      have hrest : n ∉ flattenPairs pairs := fun h =>
        hn (List.mem_append_right [t, u] h)
      obtain ⟨s', hs'⟩ : ∃ s', execInstr addr (.stpPost t u n 16) s = s' := ⟨_, rfl⟩
      have hx : s'.x = Function.update s.x n (s.x n + BitVec.ofNat 64 (8 * 2)) := by
        rw [← hs']
        rfl
      have hmem : s'.mem = storeCells (s.x n) 0 [s.x t, s.x u] s.mem := by
        rw [← hs', storeCells, Nat.mul_zero, BitVec.add_zero]
        rfl
      have hkept : (flattenPairs pairs).map s'.x = (flattenPairs pairs).map s.x := by
        refine List.map_congr_left fun r hr => ?_
        rw [hx, Function.update_of_ne]
        rintro rfl
        exact hrest hr
      have hend : s'.x n = s.x n + BitVec.ofNat 64 (8 * 2) := by rw [hx, Function.update_self]
      have hcells : storeCells (s'.x n) 0 ((flattenPairs pairs).map s'.x) s'.mem =
          storeCells (s.x n) 0 ((flattenPairs ((t, u) :: pairs)).map s.x) s.mem := by
        have hsplit : (flattenPairs ((t, u) :: pairs)).map s.x =
            [s.x t, s.x u] ++ (flattenPairs pairs).map s.x := rfl
        rw [hend, hkept, hmem, storeCells_shift, hsplit, storeCells_append]
        rfl
      have hreg : Function.update s'.x n (s'.x n + BitVec.ofNat 64 (8 * (2 * pairs.length))) =
          Function.update s.x n (s.x n + BitVec.ofNat 64 (8 * (2 * (pairs.length + 1)))) := by
        rw [hend, hx, Function.update_idem, add_cells, Nat.mul_succ, Nat.add_comm 2]
      have hpc : s'.pc + BitVec.ofNat 64 (4 * pairs.length) =
          s.pc + BitVec.ofNat 64 (4 * (pairs.length + 1)) := by
        rw [← hs', ← next_pc]
        rfl
      show execAll addr (stpPostRow n pairs) (execInstr addr (.stpPost t u n 16) s) = _
      rw [hs', ih hrest s', hcells, hreg, hpc, ← hs']
      rfl

theorem loadRegs_congr {m : Mem} {a : Word} {i : Nat} {rs : List Reg} {x x' : Reg → Word} {r : Reg}
    (h : x r = x' r) : loadRegs m a i rs x r = loadRegs m a i rs x' r := by
  induction rs generalizing i x x' with
  | nil => exact h
  | cons r' rs ih =>
      refine ih ?_
      by_cases hr : r = r'
      · rw [hr, Function.update_self, Function.update_self]
      · rw [Function.update_of_ne hr, Function.update_of_ne hr, h]

theorem loadRegs_shift (m : Mem) (a : Word) (j i : Nat) (rs : List Reg) (x : Reg → Word) :
    loadRegs m (a + BitVec.ofNat 64 (8 * j)) i rs x = loadRegs m a (j + i) rs x := by
  induction rs generalizing i x with
  | nil => rfl
  | cons r rs ih =>
      rw [loadRegs, loadRegs, ih, add_cells]
      rfl

theorem execAll_ldpPostRow (addr : L → Word) {n : Reg} (pairs : List (Reg × Reg))
    (hn : n ∉ flattenPairs pairs) (s : State) :
    execAll addr (ldpPostRow n pairs) s =
      { s with
        x := Function.update (loadRegs s.mem (s.x n) 0 (flattenPairs pairs) s.x) n
          (s.x n + BitVec.ofNat 64 (8 * (2 * pairs.length)))
        pc := s.pc + BitVec.ofNat 64 (4 * pairs.length) } := by
  induction pairs generalizing s with
  | nil => simp [ldpPostRow, flattenPairs, loadRegs]
  | cons p pairs ih =>
      obtain ⟨t, u⟩ := p
      have hrest : n ∉ flattenPairs pairs := fun h =>
        hn (List.mem_append_right [t, u] h)
      obtain ⟨s', hs'⟩ : ∃ s', execInstr addr (.ldpPost t u n 16) s = s' := ⟨_, rfl⟩
      have hx : s'.x = Function.update (loadRegs s.mem (s.x n) 0 [t, u] s.x) n
          (s.x n + BitVec.ofNat 64 (8 * 2)) := by
        rw [← hs', loadRegs, Nat.mul_zero, BitVec.add_zero]
        rfl
      have hend : s'.x n = s.x n + BitVec.ofNat 64 (8 * 2) := by rw [hx, Function.update_self]
      have hregs : Function.update (loadRegs s'.mem (s'.x n) 0 (flattenPairs pairs) s'.x) n
            (s'.x n + BitVec.ofNat 64 (8 * (2 * pairs.length))) =
          Function.update (loadRegs s.mem (s.x n) 0 (flattenPairs ((t, u) :: pairs)) s.x) n
            (s.x n + BitVec.ofNat 64 (8 * (2 * (pairs.length + 1)))) := by
        have hplace : s.x n + BitVec.ofNat 64 (8 * 2) + BitVec.ofNat 64 (8 * (2 * pairs.length)) =
            s.x n + BitVec.ofNat 64 (8 * (2 * (pairs.length + 1))) := by
          rw [add_cells, Nat.mul_succ, Nat.add_comm 2]
        have hmem : s'.mem = s.mem := by
          rw [← hs']
          rfl
        rw [hend, hplace, hmem, loadRegs_shift]
        ext1 r
        by_cases hr : r = n
        · rw [hr, Function.update_self, Function.update_self]
        · rw [Function.update_of_ne hr, Function.update_of_ne hr]
          show _ = loadRegs s.mem (s.x n) 2 (flattenPairs pairs)
            (loadRegs s.mem (s.x n) 0 [t, u] s.x) r
          refine loadRegs_congr ?_
          rw [hx, Function.update_of_ne hr]
      have hpc : s'.pc + BitVec.ofNat 64 (4 * pairs.length) =
          s.pc + BitVec.ofNat 64 (4 * (pairs.length + 1)) := by
        rw [← hs', ← next_pc]
        rfl
      show execAll addr (ldpPostRow n pairs) (execInstr addr (.ldpPost t u n 16) s) = _
      rw [hs', ih hrest s', hregs, hpc, ← hs']
      rfl

/-! ## Runs -/

/-- The instruction at `pc` does not leave the program. -/
def Program.Stays (p : Program L) (s : State) : Prop :=
  ∃ i, p.fetch s.pc = some i ∧ i.leaves = false

theorem Program.not_stays_of_fetch {p : Program L} {s : State} {i : Instr L}
    (hfetch : p.fetch s.pc = some i) (hi : i.leaves = true) : ¬ p.Stays s := by
  rintro ⟨i', hfetch', hi'⟩
  obtain rfl := Option.some.inj (hfetch.symm.trans hfetch')
  rw [hi] at hi'
  cases hi'

theorem Program.not_stays_of_none {p : Program L} {s : State} (hfetch : p.fetch s.pc = none) :
    ¬ p.Stays s := by
  rintro ⟨i, hfetch', -⟩
  rw [hfetch] at hfetch'
  cases hfetch'

variable [DecidableEq L]

/-- Instructions that do not leave the program lead from `s` to `s'`. -/
abbrev Program.Leads (p : Program L) : State → State → Prop :=
  Relation.ReflTransGen fun s t => p.Stays s ∧ p.step s = some t

/-- A step on the way, as each state has one successor at most. -/
theorem Program.Leads.of_step {p : Program L} {s t u : State} (h : p.Leads s u)
    (hstep : p.step s = some t) : s = u ∨ p.Leads t u := by
  rcases h.cases_head with hend | ⟨t', ⟨-, ht'⟩, hrest⟩
  · exact Or.inl hend
  · obtain rfl : t = t' := Option.some.inj (hstep.symm.trans ht')
    exact Or.inr hrest

/-- The way ends where the program is left. -/
theorem Program.Leads.eq_of_not_stays {p : Program L} {s u : State} (h : p.Leads s u)
    (hleaves : ¬ p.Stays s) : s = u := by
  rcases h.cases_head with hend | ⟨t, ⟨hstays, -⟩, -⟩
  · exact hend
  · exact absurd hstays hleaves

/-- There is one way, and one end of it. -/
theorem Program.Leads.unique {p : Program L} {s u u' : State} (h : p.Leads s u)
    (h' : p.Leads s u') (hu : ¬ p.Stays u) (hu' : ¬ p.Stays u') : u = u' := by
  induction h using Relation.ReflTransGen.head_induction_on with
  | refl => exact h'.eq_of_not_stays hu
  | head hfirst _ ih =>
      rcases h'.of_step hfirst.2 with rfl | hrest
      · exact absurd hfirst.1 hu'
      · exact ih hrest

theorem Program.masked_step {p : Program L} {s t : State} (hstep : p.step s = some t)
    (hstays : p.Stays s) (h : s.masked = true) : t.masked = true := by
  obtain ⟨i, hi, hleaves⟩ := hstays
  rw [Program.step, hi] at hstep
  obtain rfl := Option.some.inj hstep
  exact masked_execInstr hleaves h

theorem Program.step_at {p : Program L} (hfits : 4 * p.code.length < 2 ^ 64) {k : Nat}
    {i : Instr L} {is : List (Instr L)} (h : p.CodeAt k (i :: is)) {s : State}
    (hpc : s.pc = p.at k) : p.step s = some (execInstr p.addr i s) := by
  rw [Program.step, hpc, h.fetch hfits, Option.map_some]

theorem Program.leads_one {p : Program L} (hfits : 4 * p.code.length < 2 ^ 64) {k : Nat}
    {i : Instr L} {is : List (Instr L)} (h : p.CodeAt k (i :: is)) (hi : i.leaves = false)
    {s : State} (hpc : s.pc = p.at k) : p.Leads s (execInstr p.addr i s) := by
  have hfetch : p.fetch s.pc = some i := by rw [hpc, h.fetch hfits]
  exact Relation.ReflTransGen.single ⟨⟨i, hfetch, hi⟩, p.step_at hfits h hpc⟩

/-- Straight-line code runs through. -/
theorem Program.leads_straight {p : Program L} (hfits : 4 * p.code.length < 2 ^ 64)
    (is : List (Instr L)) (hstraight : ∀ i ∈ is, i.straight) {k : Nat} (h : p.CodeAt k is)
    {s : State} (hpc : s.pc = p.at k) :
    p.Leads s (execAll p.addr is s) ∧ (execAll p.addr is s).pc = p.at (k + is.length) := by
  induction is generalizing k s with
  | nil => exact ⟨Relation.ReflTransGen.refl, hpc⟩
  | cons i is ih =>
      have hi := hstraight i List.mem_cons_self
      have hnext : (execInstr p.addr i s).pc = p.at (k + 1) := by
        rw [execInstr_straight hi, hpc, p.at_succ]
      obtain ⟨hleads, hend⟩ :=
        ih (fun j hj => hstraight j (List.mem_cons_of_mem _ hj)) h.tail hnext
      refine ⟨(p.leads_one hfits h (Instr.leaves_of_straight hi) hpc).trans hleads, ?_⟩
      rw [execAll_cons, hend, List.length_cons]
      congr 1
      omega

end A64
