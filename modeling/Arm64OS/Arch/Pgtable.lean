import Arm64OS.Page

/-!
# Page-table entries

The definitions of `asm/pgtable_hwdef.h` and `asm/pgtable.h`, and `walk_pgtable` of
`dump_pgtable.c`.  The four tables have 512 entries of 8 bytes each; the macros for
their indices, sizes and boundaries differ only in the shift.  Entries are plain
words: `pgd_t`, `pud_t`, `pmd_t` and `pte_t` wrap an `u64` each.
-/

namespace Arm64OS

def vaBits : Nat := 48

def pgdirShift : Nat := 39

def pudShift : Nat := 30

def pmdShift : Nat := 21

/-- `PGDIR_SIZE`, `PUD_SIZE`, `PMD_SIZE` and `PG_SECTION_SIZE`: the bytes that one
entry covers. -/
def entrySize (shift : Nat) : U64 := 1#64 <<< shift

/-- `PGDIR_MASK`, `PUD_MASK`, `PMD_MASK` and `PG_SECTION_MASK`. -/
def entryMask (shift : Nat) : U64 := ~~~(entrySize shift - 1#64)

/-- The number of entries is `1 << bits`; the index is a field of the address. -/
def entryIndex (shift bits : Nat) (addr : U64) : U64 :=
  (addr >>> shift) &&& ((1#64 <<< bits) - 1#64)

def pgdIndex : U64 → U64 := entryIndex pgdirShift (vaBits - pgdirShift)

def pudIndex : U64 → U64 := entryIndex pudShift (pgdirShift - pudShift)

def pmdIndex : U64 → U64 := entryIndex pmdShift (pudShift - pmdShift)

def pteIndex : U64 → U64 := entryIndex pageShift (pmdShift - pageShift)

/-- `pgd_addr_end` and its siblings: the end of the part of `[addr, end)` that one
entry covers.  Both sides of the comparison are decremented, so that a boundary of
zero (the top of the address space) counts as the largest. -/
def addrEnd (shift : Nat) (addr end_ : U64) : U64 :=
  let boundary := (addr + entrySize shift) &&& entryMask shift
  if boundary - 1#64 < end_ - 1#64 then boundary else end_

def pgdAddrEnd : U64 → U64 → U64 := addrEnd pgdirShift

def pudAddrEnd : U64 → U64 → U64 := addrEnd pudShift

def pmdAddrEnd : U64 → U64 → U64 := addrEnd pmdShift

/-- `PTE_ADDR_MASK`: the address field `[47:12]` of an entry. -/
def pteAddrMask : U64 := ((1#64 <<< (48 - pageShift)) - 1#64) <<< pageShift

/-- `PUD_TYPE_MASK`, `PMD_TYPE_MASK` and `PTE_TYPE_MASK`. -/
def typeMask : U64 := 3#64

/-- `PUD_TYPE_TABLE` and `PMD_TYPE_TABLE`. -/
def typeTable : U64 := 3#64

def pmdTypeSect : U64 := 1#64

def pteTypePage : U64 := 3#64

def pteTableBit : U64 := 1#64 <<< 1

def noBlockMappings : U64 := 1#64 <<< 0

def pfnPte (pfn prot : U64) : U64 := (pfn <<< pageShift) ||| prot

def pfnPmd (pfn prot : U64) : U64 := (pfn <<< pmdShift) ||| prot

def mkSectProt (prot : U64) : U64 := prot &&& ~~~pteTableBit

/-! ### Memory -/

/-- What the page-table code reads and writes. -/
structure PgState where
  /-- The 8-byte word at an address. -/
  mem : U64 → U64
  /-- The number of calls of `alloc_pgtable` so far. -/
  allocs : Nat
  /-- The addresses stored to by `set_pgd`, `set_pud`, `set_pmd` and `set_pte`, the
  latest first, each with the number of pages allocated before the store. -/
  stores : List (U64 × Nat)

/-- `set_pgd`, `set_pud`, `set_pmd` and `set_pte`: one store and a barrier. -/
def PgState.setEntry (s : PgState) (p v : U64) : PgState :=
  { s with
    mem := fun a => if a = p then v else s.mem a
    stores := (p, s.allocs) :: s.stores }

/-- `alloc_pgtable` returns the page `page`, filled with zero bytes. -/
def PgState.allocPage (s : PgState) (page : U64) : PgState :=
  { s with
    mem := fun a => if a - page < pageSize then 0#64 else s.mem a
    allocs := s.allocs + 1 }

def pgdOffsetRaw (pgd addr : U64) : U64 := pgd + pgdIndex addr * 8#64

/-- `pgd_page_paddr`, `pud_page_paddr` and `pmd_page_paddr`. -/
def pagePaddr (entry : U64) : U64 := entry &&& pteAddrMask

/-- `pud_offset_phys` and its siblings: where the entry for `addr` lies in the table
that the entry at `dir` names. -/
def offsetPhys (index : U64 → U64) (s : PgState) (dir addr : U64) : U64 :=
  pagePaddr (s.mem dir) + index addr * 8#64

def pudOffsetPhys : PgState → U64 → U64 → U64 := offsetPhys pudIndex

def pmdOffsetPhys : PgState → U64 → U64 → U64 := offsetPhys pmdIndex

def pteOffsetPhys : PgState → U64 → U64 → U64 := offsetPhys pteIndex

/-- `walk_pgtable` on the table `pgdir`: the address of the leaf entry, `none` where
the source returns `NULL`. -/
def walkPgtable (s : PgState) (pgdir address : U64) : Option U64 :=
  let pgd := pgdOffsetRaw pgdir address
  if pgd = 0#64 ∨ s.mem pgd = 0#64 then none
  else
    let pud := pudOffsetPhys s pgd address
    if pud = 0#64 ∨ s.mem pud = 0#64 then none
    else
      let pmd := pmdOffsetPhys s pud address
      if pmd = 0#64 ∨ s.mem pmd = 0#64 then none
      else if s.mem pmd &&& typeMask = pmdTypeSect then some pmd
      else
        let pte := pteOffsetPhys s pmd address
        if pte = 0#64 ∨ s.mem pte = 0#64 then none
        else some pte

/-! ### The lookup of the MMU -/

/-- A leaf entry: a 2 MiB section of level 2 or a 4 KiB page of level 3. -/
inductive Leaf where
  | sect (entry : U64)
  | page (entry : U64)
deriving DecidableEq, Repr

def Leaf.entry : Leaf → U64
  | .sect e => e
  | .page e => e

/-- The physical address of `va`: the address field of the entry above the offset. -/
def Leaf.translate (va : U64) : Leaf → U64
  | .sect e => (e &&& pteAddrMask &&& entryMask pmdShift) ||| (va &&& ~~~entryMask pmdShift)
  | .page e => (e &&& pteAddrMask) ||| (va &&& ~~~pageMask)

/-- The attribute bits of an entry, without the bit that tells a page from a section. -/
def attrs (entry : U64) : U64 := entry &&& ~~~pteAddrMask &&& ~~~pteTableBit

/-- The four-level lookup of a 48-bit address: the type bits of each entry decide how
it goes on. -/
def lookup (s : PgState) (pgdir va : U64) : Option Leaf :=
  let pgd := s.mem (pgdir + pgdIndex va * 8#64)
  if pgd &&& typeMask = typeTable then
    let pud := s.mem (pagePaddr pgd + pudIndex va * 8#64)
    if pud &&& typeMask = typeTable then
      let pmd := s.mem (pagePaddr pud + pmdIndex va * 8#64)
      if pmd &&& typeMask = pmdTypeSect then some (.sect pmd)
      else if pmd &&& typeMask = typeTable then
        let pte := s.mem (pagePaddr pmd + pteIndex va * 8#64)
        if pte &&& typeMask = pteTypePage then some (.page pte) else none
      else none
    else none
  else none

end Arm64OS
