import Arm64OS.Lib.RadixTree
import Arm64OS.Arch.PgtableAddr

/-!
# The tables as a tree

The memory that the page-table code works on, seen as a radix tree: tables are pages,
entries are words, and an entry of the levels `0` to `2` names a table when its type
bits say so.  `Inv` is what every store of the mapping functions keeps as long as
`alloc_pgtable` returns new pages: the tables form a tree, they are `pgdir` or pages
obtained from `alloc_pgtable`, every entry above the last level is empty, a table or a
section, and every store so far went into one of these tables.
-/

namespace Arm64OS

/-- A page that holds a table. -/
structure TablePage where
  base : U64
  aligned : base.toNat % 4096 = 0
deriving DecidableEq

namespace TablePage

/-- The address of an entry. -/
def cell (b : TablePage) (i : Fin 512) : U64 := b.base + BitVec.ofNat 64 (8 * i)

theorem toNat_cell (b : TablePage) (i : Fin 512) : (b.cell i).toNat = b.base.toNat + 8 * i := by
  have hb := b.aligned
  have hlt := b.base.isLt
  have hi := i.isLt
  rw [cell, BitVec.toNat_add, BitVec.toNat_ofNat]
  omega

theorem cell_inj {b b' : TablePage} {i i' : Fin 512} (h : b.cell i = b'.cell i') :
    b = b' ∧ i = i' := by
  have hnat := congrArg BitVec.toNat h
  rw [toNat_cell, toNat_cell] at hnat
  have hb := b.aligned
  have hb' := b'.aligned
  have hi := i.isLt
  have hi' := i'.isLt
  have hbase : b.base = b'.base := BitVec.eq_of_toNat_eq (by omega)
  refine ⟨?_, Fin.ext (by omega)⟩
  cases b
  cases b'
  simpa using hbase

@[simp] theorem cell_eq_iff {b b' : TablePage} {i i' : Fin 512} :
    b.cell i = b'.cell i' ↔ b = b' ∧ i = i' :=
  ⟨cell_inj, fun ⟨hb, hi⟩ => by rw [hb, hi]⟩

/-- The entries of a page are the words whose distance from its base is below the page
size. -/
theorem cell_sub_lt_iff (b p : TablePage) (i : Fin 512) :
    b.cell i - p.base < pageSize ↔ b = p := by
  have hb := b.aligned
  have hp := p.aligned
  have hb' := b.base.isLt
  have hp' := p.base.isLt
  have hi := i.isLt
  constructor
  · intro h
    rw [BitVec.lt_def, BitVec.toNat_sub, toNat_cell, pageSize_toNat] at h
    have hbase : b.base = p.base := BitVec.eq_of_toNat_eq (by omega)
    cases b
    cases p
    simpa using hbase
  · rintro rfl
    rw [BitVec.lt_def, BitVec.toNat_sub, toNat_cell, pageSize_toNat]
    omega

/-- The next pointer value is the next entry. -/
theorem cell_add_eight (b : TablePage) {i i' : Fin 512} (h : (i' : Nat) = i + 1) :
    b.cell i + 8#64 = b.cell i' := by
  apply BitVec.eq_of_toNat_eq
  have hb := b.aligned
  have hlt := b.base.isLt
  have hi' := i'.isLt
  rw [BitVec.toNat_add, toNat_cell, toNat_cell, BitVec.toNat_ofNat]
  omega

/-- `table + index * 8` for an index below 512. -/
theorem cell_of_index (b : TablePage) {i : Fin 512} {index : U64} (h : index.toNat = i) :
    b.base + index * 8#64 = b.cell i := by
  apply BitVec.eq_of_toNat_eq
  have hb := b.aligned
  have hlt := b.base.isLt
  have hi := i.isLt
  rw [toNat_cell, BitVec.toNat_add, BitVec.toNat_mul, h, BitVec.toNat_ofNat]
  omega

end TablePage

/-- The page in the address field of an entry. -/
def pageOf (e : U64) : TablePage where
  base := pagePaddr e
  aligned := by
    rw [pagePaddr, toNat_and_pteAddrMask]
    omega

/-- The table that an entry of level `k` names. -/
def tableChild (k : Nat) (e : U64) : Option TablePage :=
  if k ≤ 2 ∧ e &&& typeMask = typeTable then some (pageOf e) else none

/-- The tables below `root` as a radix tree. -/
def PgState.tree (s : PgState) (root : TablePage) :
    RadixTree.Tree TablePage (Fin 512) U64 Nat where
  idx := tableIndex
  child := tableChild
  root := root
  cells := fun b i => s.mem (b.cell i)

variable {root : TablePage} {s s' : PgState}

@[simp] theorem tree_idx : (s.tree root).idx = tableIndex := rfl

@[simp] theorem tree_child : (s.tree root).child = tableChild := rfl

@[simp] theorem tree_cells (b : TablePage) (i : Fin 512) :
    (s.tree root).cells b i = s.mem (b.cell i) := rfl

@[simp] theorem walk_tree_zero (x : Nat) : (s.tree root).walk 0 x = some root := rfl

theorem tree_setEntry (b : TablePage) (i : Fin 512) (v : U64) :
    (s.setEntry (b.cell i) v).tree root = (s.tree root).set b i v := by
  simp [PgState.tree, PgState.setEntry, RadixTree.Tree.set]

theorem tree_allocPage (p : TablePage) :
    (s.allocPage p.base).tree root = (s.tree root).clear p 0#64 := by
  simp [PgState.tree, PgState.allocPage, RadixTree.Tree.clear, TablePage.cell_sub_lt_iff]

/-- On 48-bit addresses a path is a span. -/
theorem samePath_iff {k x y : Nat} (hk : k ≤ 4) (hx : x < 2 ^ 48) (hy : y < 2 ^ 48) :
    (s.tree root).SamePath k x y ↔ x / span k = y / span k :=
  span_eq_iff hk hx hy

theorem tableChild_zero (k : Nat) : tableChild k 0#64 = none := by
  rw [tableChild, if_neg]
  rintro ⟨-, h⟩
  exact absurd h (by decide)

theorem typeTable_of_tableChild {k : Nat} {e : U64} {c : TablePage}
    (h : tableChild k e = some c) : e &&& typeMask = typeTable ∧ pageOf e = c := by
  unfold tableChild at h
  split at h
  · rename_i hc
    exact ⟨hc.2, Option.some.inj h⟩
  · cases h

theorem tableChild_eq_none {k : Nat} {e : U64} (h : k ≤ 2 → e &&& typeMask ≠ typeTable) :
    tableChild k e = none :=
  if_neg fun ⟨hk, he⟩ => h hk he

/-- The entry that names a new table. -/
theorem tableChild_populate {k : Nat} (hk : k ≤ 2) (p : TablePage) (hp : p.base.toNat < 2 ^ 48) :
    tableChild k (p.base ||| typeTable) = some p := by
  have haddr : p.base &&& pteAddrMask = p.base := and_pteAddrMask_of_aligned p.aligned hp
  -- The address field and the type bits do not overlap.
  have hlow : p.base &&& typeMask = 0#64 := by
    rw [← haddr, BitVec.and_assoc, show pteAddrMask &&& typeMask = 0#64 by decide,
      BitVec.and_zero]
  have htype : (p.base ||| typeTable) &&& typeMask = typeTable := by
    rw [BitVec.and_or_distrib_right, hlow, BitVec.zero_or]
    rfl
  have hpage : pageOf (p.base ||| typeTable) = p := by
    have hbase : pagePaddr (p.base ||| typeTable) = p.base := by
      rw [pagePaddr, BitVec.and_or_distrib_right, haddr,
        show typeTable &&& pteAddrMask = 0#64 by decide, BitVec.or_zero]
    cases p
    simpa [pageOf] using hbase
  rw [tableChild, if_pos ⟨hk, htype⟩, hpage]

/-! ### Leaves -/

/-- A page entry that is not zero. -/
def pageLeaf (e : U64) : Option Leaf := if e = 0#64 then none else some (.page e)

/-- The leaf that the entries of the levels `2` and `3` on a path give. -/
def leafOf : Option U64 → Option U64 → Option Leaf
  | none, _ => none
  | some e, e' => if e &&& typeMask = pmdTypeSect then some (.sect e) else e'.bind pageLeaf

/-- The leaf of the address `y`. -/
def PgState.leaf (s : PgState) (root : TablePage) (y : Nat) : Option Leaf :=
  leafOf ((s.tree root).entry 2 y) ((s.tree root).entry 3 y)

/-! ### The invariant -/

/-- The first `n` results of `alloc_pgtable`: new pages below `2 ^ 48`. -/
structure FreshPages (alloc : Nat → U64) (pgdir : U64) (n : Nat) : Prop where
  aligned : ∀ i < n, (alloc i).toNat % 4096 = 0
  below : ∀ i < n, (alloc i).toNat < 2 ^ 48
  ne_pgdir : ∀ i < n, alloc i ≠ pgdir
  inj : ∀ i < n, ∀ j < n, alloc i = alloc j → i = j

/-- The 8 bytes at `a` lie in the page at `base`. -/
def InPage (base a : U64) : Prop :=
  base.toNat ≤ a.toNat ∧ a.toNat + 8 ≤ base.toNat + 4096

/-- The 8 bytes at `a` lie in `pgdir` or in one of the first `n` allocated pages. -/
def InTables (alloc : Nat → U64) (pgdir : U64) (n : Nat) (a : U64) : Prop :=
  InPage pgdir a ∨ ∃ i < n, InPage (alloc i) a

theorem inPage_cell (b : TablePage) (i : Fin 512) : InPage b.base (b.cell i) := by
  have hi := i.isLt
  rw [InPage, TablePage.toNat_cell]
  omega

/-- What the mapping functions keep. -/
structure Inv (alloc : Nat → U64) (root : TablePage) (s : PgState) : Prop where
  separated : (s.tree root).Separated
  owned : ∀ k x b, (s.tree root).walk k x = some b →
    b = root ∨ ∃ i < s.allocs, alloc i = b.base
  form : ∀ k ≤ 2, ∀ x e, (s.tree root).entry k x = some e →
    e = 0#64 ∨ e &&& typeMask = typeTable ∨ k = 2 ∧ e &&& typeMask = pmdTypeSect
  stores : ∀ st ∈ s.stores, InTables alloc root.base st.2 st.1

variable {alloc : Nat → U64} {k a : Nat} {b : TablePage}

/-- The entry of a reached table lies in `pgdir` or in an allocated page. -/
theorem Inv.inTables (h : Inv alloc root s) (hb : (s.tree root).walk k a = some b)
    (i : Fin 512) : InTables alloc root.base s.allocs (b.cell i) := by
  have hcell := inPage_cell b i
  rcases h.owned k a b hb with rfl | ⟨n, hn, hpage⟩
  · exact Or.inl hcell
  · exact Or.inr ⟨n, hn, hpage ▸ hcell⟩

/-- An entry of the upper levels that is neither empty nor a section names a table. -/
theorem Inv.table_of_entry (h : Inv alloc root s) (hk : k ≤ 2) {e : U64}
    (hentry : (s.tree root).entry k a = some e) (hzero : e ≠ 0#64)
    (hsect : k = 2 → e &&& typeMask ≠ pmdTypeSect) : e &&& typeMask = typeTable := by
  rcases h.form k hk a e hentry with hz | htype | ⟨rfl, hs⟩
  · exact absurd hz hzero
  · exact htype
  · exact absurd hs (hsect rfl)

/-- A page with only zero entries is a tree without leaves. -/
theorem inv_zero (hzero : ∀ i, s.mem (root.cell i) = 0#64) (hstores : s.stores = []) :
    Inv alloc root s := by
  -- The root is the only table: every path ends at its first entry.
  have hwalk : ∀ k x, (s.tree root).walk (k + 1) x = none := by
    intro k x
    refine RadixTree.Tree.walk_eq_none_of_le (k := 1) ?_ (Nat.le_add_left 1 k)
    simp [RadixTree.Tree.walk_succ, RadixTree.Tree.entry, hzero, tableChild_zero]
  constructor
  case separated =>
    intro k k' x x' b h h'
    cases k with
    | succ k => simp [hwalk] at h
    | zero =>
        cases k' with
        | succ k' => simp [hwalk] at h'
        | zero => exact ⟨rfl, fun j hj => absurd hj (Nat.not_lt_zero j)⟩
  case owned =>
    intro k x b h
    cases k with
    | succ k => simp [hwalk] at h
    | zero => exact Or.inl (by simpa using h.symm)
  case form =>
    intro k _ x e h
    cases k with
    | succ k => simp [RadixTree.Tree.entry, hwalk] at h
    | zero =>
        left
        simpa [RadixTree.Tree.entry, hzero] using h.symm
  case stores => simp [hstores]

theorem leaf_zero (hzero : ∀ i, s.mem (root.cell i) = 0#64) (y : Nat) : s.leaf root y = none := by
  have hentry : (s.tree root).entry 2 y = none := by
    refine RadixTree.Tree.entry_eq_none_of_le (k := 1) ?_ (by decide)
    simp [RadixTree.Tree.walk_succ, RadixTree.Tree.entry, hzero, tableChild_zero]
  rw [PgState.leaf, hentry, leafOf]

end Arm64OS
