import Arm64OS.Arch.Pgtable

/-!
# `__create_pgd_mapping`

The mapping functions of `arch/arm64/mach-rpi/mmu.c`.  The three `alloc_init_*`
functions have one shape: give the entry a table if it has none, find the first
entry in it, and run a `do … while` loop over the parts of the range that one entry
each covers.  They differ in the macros and in what the loop does with a part.
-/

namespace Arm64OS

/-- The `do … while` loop of all four functions: `body` maps one part of the range with
the entry at `p`.  `fuel` bounds the number of turns. -/
def mapLoop (next : U64 → U64 → U64) (body : U64 → U64 → U64 → U64 → PgState → Option PgState)
    (end_ : U64) : Nat → U64 → U64 → U64 → PgState → Option PgState
  | 0, _, _, _, _ => none
  | fuel + 1, p, addr, phys, s =>
    (body p addr (next addr end_) phys s).bind fun s' =>
      if next addr end_ = end_ then some s'
      else
        mapLoop next body end_ fuel (p + 8#64) (next addr end_)
          (phys + (next addr end_ - addr)) s'

/-- An entry that is zero gets a new table from `alloc_pgtable`. -/
def populate (alloc : Nat → U64) (p : U64) (s : PgState) : PgState :=
  if s.mem p = 0#64 then
    (s.allocPage (alloc s.allocs)).setEntry p (alloc s.allocs ||| typeTable)
  else s

/-- The shape of `alloc_init_pte`, `alloc_init_pmd` and `alloc_init_pud`. -/
def allocInit (alloc : Nat → U64) (offset : PgState → U64 → U64 → U64) (next : U64 → U64 → U64)
    (body : U64 → U64 → U64 → U64 → PgState → Option PgState) (fuel : Nat)
    (p addr end_ phys : U64) (s : PgState) : Option PgState :=
  let s' := populate alloc p s
  mapLoop next body end_ fuel (offset s' p addr) addr phys s'

/-- One turn of the loop of `alloc_init_pte`. -/
def setPage (prot : U64) (ptep _addr _next phys : U64) (s : PgState) : Option PgState :=
  some (s.setEntry ptep (pfnPte (phys >>> pageShift) prot))

/-- The loop steps by `PAGE_SIZE` and has no `addr_end` macro; it ends at equality. -/
def allocInitPte (alloc : Nat → U64) (prot : U64) (fuel : Nat) :
    U64 → U64 → U64 → U64 → PgState → Option PgState :=
  allocInit alloc pteOffsetPhys (fun addr _ => addr + pageSize) (setPage prot) fuel

def pmdSetSection (pmdp phys prot : U64) (s : PgState) : PgState :=
  s.setEntry pmdp (pfnPmd (phys >>> pmdShift) (pmdTypeSect ||| mkSectProt prot))

/-- One turn of the loop of `alloc_init_pmd`: a section where both ends and the physical
address lie on a section boundary and the flags allow it, else pages. -/
def setPmd (alloc : Nat → U64) (prot flags : U64) (fuel : Nat) (pmdp addr next phys : U64)
    (s : PgState) : Option PgState :=
  if (addr ||| next ||| phys) &&& ~~~entryMask pmdShift = 0#64 ∧
      flags &&& noBlockMappings = 0#64 then
    some (pmdSetSection pmdp phys prot s)
  else allocInitPte alloc prot fuel pmdp addr next phys s

def allocInitPmd (alloc : Nat → U64) (prot flags : U64) (fuel : Nat) :
    U64 → U64 → U64 → U64 → PgState → Option PgState :=
  allocInit alloc pmdOffsetPhys pmdAddrEnd (setPmd alloc prot flags fuel) fuel

def allocInitPud (alloc : Nat → U64) (prot flags : U64) (fuel : Nat) :
    U64 → U64 → U64 → U64 → PgState → Option PgState :=
  allocInit alloc pudOffsetPhys pudAddrEnd (allocInitPmd alloc prot flags fuel) fuel

def createPgdMapping (alloc : Nat → U64) (fuel : Nat)
    (pgdir phys virt size prot flags : U64) (s : PgState) : Option PgState :=
  let pgdp := pgdOffsetRaw pgdir virt
  let phys := phys &&& pageMask
  let addr := virt &&& pageMask
  let end_ := pageAlign (virt + size)
  mapLoop pgdAddrEnd (allocInitPud alloc prot flags fuel) end_ fuel pgdp addr phys s

end Arm64OS
