import Arm64OS.Lib.BitField

/-!
# Pages

The word type of the kernel and the constants of `include/page.h` and
`arch/arm64/include/asm/mm.h`.  `PAGE_SIZE` and the sizes built from it are `int`
expressions in C; every use below converts them to `unsigned long`, so they are
64-bit words here.
-/

namespace Arm64OS

/-- `unsigned long`, `u64` and every pointer. -/
abbrev U64 := BitVec 64

/-- Words are looked up in lists. -/
instance lawfulBEq_u64 : LawfulBEq U64 := inferInstance

def pageShift : Nat := 12

def tableShift : Nat := 9

def sectionShift : Nat := pageShift + tableShift

def pageSize : U64 := 1 <<< pageShift

def pageMask : U64 := ~~~(pageSize - 1)

def sectionSize : U64 := 1 <<< sectionShift

/-- `PAGE_ALIGN`: up to the next page boundary, modulo `2 ^ 64`. -/
def pageAlign (addr : U64) : U64 := (addr + pageSize - 1) &&& pageMask

/-- `LOW_MEMORY`: where the allocator's first page lies (4 MiB). -/
def lowMemory : U64 := 2 * sectionSize

/-- `TOTAL_MEMORY`: the end of the memory the kernel maps (512 MiB). -/
def totalMemory : U64 := 512 * 0x100000

def threadSize : U64 := 1 * pageSize

@[simp] theorem pageSize_toNat : pageSize.toNat = 4096 := rfl

@[simp] theorem lowMemory_toNat : lowMemory.toNat = 0x400000 := rfl

@[simp] theorem totalMemory_toNat : totalMemory.toNat = 0x20000000 := rfl

theorem toNat_and_pageMask (x : U64) : (x &&& pageMask).toNat = x.toNat / 4096 * 4096 :=
  BitField.toNat_and_highMask x (by decide : 12 < 64)

theorem and_pageMask_mod (x : U64) : (x &&& pageMask).toNat % 4096 = 0 := by
  rw [toNat_and_pageMask]
  exact Nat.mul_mod_left _ _

/-- Rounding a page boundary down gives it back. -/
theorem and_pageMask_of_aligned (x : U64) (hx : x.toNat % 4096 = 0) : x &&& pageMask = x :=
  BitField.and_highMask_of_aligned x (by decide : 12 < 64) hx

end Arm64OS
