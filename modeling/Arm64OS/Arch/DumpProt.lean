import Arm64OS.Arch.DumpPgtable
import Arm64OS.Arch.PagingInit

/-!
# What the dump says about the MMU

`dump_prot`, `pg_level_init` and `dump_pgtable` of `arch/arm64/mach-rpi/dump_pgtable.c`.  A line
of the dump names an interval, a level and flags.  `readDump` is what a reader makes of the lines,
from their texts alone, and `dumpPgtable_tells` says that the MMU does just that.
-/

namespace Arm64OS

/-! ### The flags -/

def pteValid : U64 := 1#64 <<< 0

/-- `PTE_NG`. -/
def pteNg : U64 := 1#64 <<< 11

/-- `PTE_CONT`. -/
def pteCont : U64 := 1#64 <<< 52

/-- `struct prot_bits`; `none` is `NULL`. -/
structure ProtBits where
  mask : U64
  val : U64
  set : Option String
  clear : Option String

/-- `.mask` and `.val` are the same. -/
def ProtBits.flag (bits : U64) (set clear : Option String) : ProtBits := ⟨bits, bits, set, clear⟩

def ProtBits.attrindx (mt : U64) (set : Option String) : ProtBits :=
  ⟨pteAttrindxMask, pteAttrindx mt, set, none⟩

def pteBits : List ProtBits :=
  [.flag pteValid " " "F",
    .flag pteUser "USR" "   ",
    .flag pteRdonly "ro" "RW",
    .flag ptePxn "NX" "x ",
    .flag pteShared "SHD" "   ",
    .flag pteAf "AF" "  ",
    .flag pteNg "NG" "  ",
    .flag pteCont "CON" "   ",
    .flag pteTableBit "   " "BLK",
    .flag pteUxn "UXN" none,
    .attrindx mtDeviceNGnRnE "DEVICE/nGnRnE",
    .attrindx mtDeviceNGnRE "DEVICE/nGnRE",
    .attrindx mtDeviceGRE "DEVICE/GRE",
    .attrindx mtNormalNc "MEM/NORMAL-NC",
    .attrindx mtNormal "MEM/NORMAL"]

/-- What `dump_prot` prints for one of the bits. -/
def ProtBits.text (prot : U64) (b : ProtBits) : Option String :=
  if prot &&& b.mask = b.val then b.set else b.clear

/-- `dump_prot`: the texts that it prints. -/
def dumpProt (prot : U64) (bits : List ProtBits) : List String := bits.filterMap (·.text prot)

/-- `struct pg_level`; the first level has no bits. -/
structure PgLevel where
  name : String
  bits : List ProtBits
  mask : U64

/-- `pg_level`, as it is before `pg_level_init`. -/
def pgLevel : List PgLevel :=
  [⟨"", [], 0⟩, ⟨"PGD", pteBits, 0⟩, ⟨"PUD", pteBits, 0⟩, ⟨"PMD", pteBits, 0⟩, ⟨"PTE", pteBits, 0⟩]

def pgLevelInit (levels : List PgLevel) : List PgLevel :=
  levels.map fun l => { l with mask := l.bits.foldl (fun mask b => mask ||| b.mask) l.mask }

/-- The name of the level and the flags, which `print_pgtable` does not print of an empty entry. -/
def PrintCall.flags (levels : List PgLevel) (c : PrintCall) : Option (String × List String) :=
  if c.val = 0#64 then none
  else levels[c.level]?.map fun l => (l.name, dumpProt (c.val &&& l.mask) l.bits)

/-- `dump_pgtable`: the calls of `print_pgtable`, each with what it shows of its entry. -/
def dumpPgtable (fuel : Nat) (img : Layout) (board : Board) (levels : List PgLevel) (s : PgState) :
    Option (List (PrintCall × Option (String × List String))) := do
  let levels := pgLevelInit levels
  let memory ← walkPgd fuel s img.idmapPgdDir 0#64 totalMemory
  let devices ← walkPgd fuel s img.idmapPgdDir (pbase board) deviceSize
  some ((memory ++ devices).map fun c => (c, c.flags levels))

/-! ### A reader of the dump -/

/-- A section has to be marked as one, and a page must not be. -/
def showsLeaf (name : String) (flags : List String) : Bool :=
  " " ∈ flags && (name = "PMD" && "BLK" ∈ flags || name = "PTE" && "BLK" ∉ flags)

/-- What the flags allow. -/
def showsAccess (flags : List String) (el1 : Bool) : AccessKind → Bool
  | .fetch =>
      if el1 then "x " ∈ flags && !("USR" ∈ flags && "RW" ∈ flags) else "UXN" ∉ flags
  | .load => el1 || "USR" ∈ flags
  | .store => (el1 || "USR" ∈ flags) && "RW" ∈ flags

/-- The attributes that the memory types stand for. -/
def showsType (flags : List String) : Option (BitVec 8) :=
  [("DEVICE/nGnRnE", 0x00#8), ("DEVICE/nGnRE", 0x04#8), ("DEVICE/GRE", 0x0c#8),
    ("MEM/NORMAL-NC", 0x44#8), ("MEM/NORMAL", 0xff#8)].findSome? fun (text, attr) =>
      if text ∈ flags then some attr else none

/-- The memory type with which a line lets an access through. -/
def readLine (line : Option (String × List String)) (el1 : Bool) (kind : AccessKind) :
    Option (BitVec 8) :=
  line.bind fun (name, flags) =>
    if showsLeaf name flags ∧ "AF" ∈ flags ∧ showsAccess flags el1 kind then showsType flags
    else none

/-- The line of an address decides; an empty entry has none. -/
def readDump (lines : List (PrintCall × Option (String × List String))) (el1 : Bool)
    (kind : AccessKind) (va : U64) : Option (BitVec 8) :=
  (lines.find? fun (c, line) => line.isSome ∧ c.start ≤ va ∧ va < c.end_).bind fun (_, line) =>
    readLine line el1 kind

/-! ### The masks -/

/-- `pg_level_init` puts the mask of every bit into the mask of its level. -/
theorem foldl_mask_and {bits : List ProtBits} {b : ProtBits} (hb : b ∈ bits) (mask : U64) :
    bits.foldl (fun mask b => mask ||| b.mask) mask &&& b.mask = b.mask := by
  have hkeeps : ∀ (bits : List ProtBits) (mask : U64), mask &&& b.mask = b.mask →
      bits.foldl (fun mask b => mask ||| b.mask) mask &&& b.mask = b.mask := by
    intro bits
    induction bits with
    | nil => exact fun _ h => h
    | cons b' bits ih =>
        intro mask h
        refine ih _ ?_
        rw [BitVec.and_or_distrib_right, h]
        apply BitVec.eq_of_getLsbD_eq
        intro i _
        simp only [BitVec.getLsbD_or, BitVec.getLsbD_and]
        cases b.mask.getLsbD i <;> simp
  induction bits generalizing mask with
  | nil => cases hb
  | cons b' bits ih =>
      rcases List.mem_cons.mp hb with rfl | hb
      · refine hkeeps bits _ ?_
        apply BitVec.eq_of_getLsbD_eq
        intro i _
        simp only [BitVec.getLsbD_or, BitVec.getLsbD_and]
        cases b.mask.getLsbD i <;> simp
      · exact ih hb _

/-- With such a mask an entry is shown as it is. -/
theorem dumpProt_masked (val mask : U64) (bits : List ProtBits) :
    dumpProt (val &&& bits.foldl (fun mask b => mask ||| b.mask) mask) bits =
      dumpProt val bits := by
  refine List.filterMap_congr fun b hb => ?_
  rw [ProtBits.text, ProtBits.text, BitVec.and_assoc, foldl_mask_and hb]

/-! ### The flags of an entry -/

theorem mem_dumpProt {text : String} {prot : U64} {bits : List ProtBits} :
    text ∈ dumpProt prot bits ↔ ∃ b ∈ bits, b.text prot = some text := by
  rw [dumpProt, List.mem_filterMap]

theorem text_eq_some_iff {text : String} {prot : U64} {b : ProtBits} :
    b.text prot = some text ↔
      prot &&& b.mask = b.val ∧ b.set = some text ∨
        prot &&& b.mask ≠ b.val ∧ b.clear = some text := by
  unfold ProtBits.text
  split <;> simp [*]

/-- One bit is set, or it is not. -/
theorem and_bit_eq_iff (e : U64) {k : Nat} (hk : k < 64) :
    e &&& (1#64 <<< k) = 1#64 <<< k ↔ e &&& (1#64 <<< k) ≠ 0#64 := by
  have hbit : 1#64 <<< k ≠ 0#64 := by
    intro h
    have hzero := congrArg (fun b : U64 => b.getLsbD k) h
    simp [hk] at hzero
  rw [show (1#64 <<< k) = BitVec.twoPow 64 k from rfl, BitVec.and_twoPow]
  split
  · exact ⟨fun _ => hbit, fun _ => rfl⟩
  · exact ⟨fun h => absurd h.symm hbit, fun h => absurd rfl h⟩

/-- The texts among the flags of an entry, and its bits. -/
structure FlagsSay (e : U64) (flags : List String) : Prop where
  valid : " " ∈ flags ↔ e &&& pteValid ≠ 0#64
  user : "USR" ∈ flags ↔ e &&& pteUser ≠ 0#64
  writable : "RW" ∈ flags ↔ e &&& pteRdonly = 0#64
  execEl1 : "x " ∈ flags ↔ e &&& ptePxn = 0#64
  accessed : "AF" ∈ flags ↔ e &&& pteAf ≠ 0#64
  block : "BLK" ∈ flags ↔ e &&& pteTableBit = 0#64
  execEl0 : "UXN" ∈ flags ↔ e &&& pteUxn ≠ 0#64
  deviceNGnRnE : "DEVICE/nGnRnE" ∈ flags ↔ e &&& pteAttrindxMask = pteAttrindx mtDeviceNGnRnE
  deviceNGnRE : "DEVICE/nGnRE" ∈ flags ↔ e &&& pteAttrindxMask = pteAttrindx mtDeviceNGnRE
  deviceGRE : "DEVICE/GRE" ∈ flags ↔ e &&& pteAttrindxMask = pteAttrindx mtDeviceGRE
  normalNc : "MEM/NORMAL-NC" ∈ flags ↔ e &&& pteAttrindxMask = pteAttrindx mtNormalNc
  normal : "MEM/NORMAL" ∈ flags ↔ e &&& pteAttrindxMask = pteAttrindx mtNormal

/-- No two bits share a text, but for the blanks. -/
theorem flagsSay (e : U64) : FlagsSay e (dumpProt e pteBits) := by
  have hset : ∀ {k}, k < 64 → (e &&& (1#64 <<< k) = 1#64 <<< k ↔ e &&& (1#64 <<< k) ≠ 0#64) :=
    fun hk => and_bit_eq_iff e hk
  have hclear : ∀ {k}, k < 64 →
      (e &&& (1#64 <<< k) ≠ 1#64 <<< k ↔ e &&& (1#64 <<< k) = 0#64) :=
    fun hk => not_iff_comm.mp (hset hk).symm
  constructor <;>
    simp only [mem_dumpProt, text_eq_some_iff, pteBits, ProtBits.flag, ProtBits.attrindx,
      List.mem_cons, List.not_mem_nil, or_false, exists_eq_or_imp, exists_eq_left,
      Option.some.injEq, String.reduceEq, and_true, and_false, or_self, false_or, reduceCtorEq]
  case valid => exact hset (k := 0) (by decide)
  case user => exact hset (k := 6) (by decide)
  case writable => exact hclear (k := 7) (by decide)
  case execEl1 => exact hclear (k := 53) (by decide)
  case accessed => exact hset (k := 10) (by decide)
  case block => exact hclear (k := 1) (by decide)
  case execEl0 => exact hset (k := 54) (by decide)

variable {e : U64} {flags : List String}

/-- The memory type is that of `MAIR_EL1`, for each of the five that have a text. -/
theorem FlagsSay.type (h : FlagsSay e flags) {i : Nat} (hi : i < 5)
    (hindex : e &&& pteAttrindxMask = pteAttrindx (BitVec.ofNat 64 i)) :
    showsType flags = [0x00#8, 0x04#8, 0x0c#8, 0x44#8, 0xff#8][i]? := by
  simp only [showsType, List.findSome?_cons, h.deviceNGnRnE, h.deviceNGnRE, h.deviceGRE,
    h.normalNc, h.normal, hindex]
  interval_cases i <;> rfl

theorem FlagsSay.access {l : Leaf} (h : FlagsSay l.entry flags) (el1 : Bool) (kind : AccessKind) :
    showsAccess flags el1 kind = l.allows el1 kind := by
  cases kind with
  | fetch =>
      simp [showsAccess, Leaf.allows, Leaf.execEl1, Leaf.execEl0, Leaf.el0, Leaf.writable,
        h.execEl1, h.execEl0, h.user, h.writable]
  | load => simp [showsAccess, Leaf.allows, Leaf.el0, h.user]
  | store => simp [showsAccess, Leaf.allows, Leaf.el0, Leaf.writable, h.user, h.writable]

/-! ### The lines -/

/-- The leaf that an entry is at a level of the lookup. -/
def leafAt (level : Nat) (e : U64) : Option Leaf :=
  if level = 3 ∧ e &&& typeMask = pmdTypeSect then some (.sect e)
  else if level = 4 ∧ e &&& typeMask = pteTypePage then some (.page e)
  else none

theorem lookup_eq_leafAt (s : PgState) (pgdir va : U64) :
    lookup s pgdir va = leafAt (lastEntry s pgdir va).1 (lastEntry s pgdir va).2 := by
  unfold lookup lastEntry leafAt
  dsimp only
  split_ifs <;> simp_all [typeTable, pmdTypeSect, pteTypePage]

theorem leafAt_eq_some {level : Nat} {val : U64} {l : Leaf} (h : leafAt level val = some l) :
    val = l.entry ∧ (level = 3 ∧ val &&& typeMask = pmdTypeSect ∨
      level = 4 ∧ val &&& typeMask = pteTypePage) := by
  unfold leafAt at h
  split_ifs at h with hsect hpage
  · exact ⟨congrArg Leaf.entry (Option.some.inj h), Or.inl hsect⟩
  · exact ⟨congrArg Leaf.entry (Option.some.inj h), Or.inr hpage⟩

theorem leafAt_eq_none {level : Nat} {val : U64} (h : leafAt level val = none) :
    (level = 3 → val &&& typeMask ≠ pmdTypeSect) ∧
      (level = 4 → val &&& typeMask ≠ pteTypePage) := by
  unfold leafAt at h
  split_ifs at h with hsect hpage
  exact ⟨fun hlevel htype => hsect ⟨hlevel, htype⟩, fun hlevel htype => hpage ⟨hlevel, htype⟩⟩

theorem type_eq_iff (e : U64) :
    (e &&& typeMask = pmdTypeSect ↔ e &&& pteValid ≠ 0#64 ∧ e &&& pteTableBit = 0#64) ∧
      (e &&& typeMask = pteTypePage ↔ e &&& pteValid ≠ 0#64 ∧ e &&& pteTableBit ≠ 0#64) := by
  have hmask : typeMask = BitVec.twoPow 64 0 ||| BitVec.twoPow 64 1 := by decide
  have hvalid : pteValid = BitVec.twoPow 64 0 := rfl
  have htable : pteTableBit = BitVec.twoPow 64 1 := rfl
  rw [hmask, hvalid, htable, BitVec.and_or_distrib_left]
  simp only [BitVec.and_twoPow]
  cases e.getLsbD 0 <;> cases e.getLsbD 1 <;> decide

theorem FlagsSay.leaf (h : FlagsSay e flags) :
    (showsLeaf "PMD" flags = decide (e &&& typeMask = pmdTypeSect)) ∧
      (showsLeaf "PTE" flags = decide (e &&& typeMask = pteTypePage)) := by
  obtain ⟨hsect, hpage⟩ := type_eq_iff e
  constructor
  · simp [showsLeaf, h.valid, h.block, hsect]
  · simp [showsLeaf, h.valid, h.block, hpage]

theorem attr_cpuInit {l : Leaf} {i : Nat} (hi : i < 5)
    (hindex : l.attrIndx = pteAttrindx (BitVec.ofNat 64 i)) (mmfr0 : U64) (r : MmuRegs) :
    [0x00#8, 0x04#8, 0x0c#8, 0x44#8, 0xff#8][i]? = some ((cpuInit mmfr0 r).attr l) := by
  rw [MmuRegs.attr, mair_cpuInit, hindex]
  interval_cases i <;> rfl

/-- The five memory types that have a text. -/
def Leaf.TypeShown (l : Leaf) : Prop := ∃ i < 5, l.attrIndx = pteAttrindx (BitVec.ofNat 64 i)

theorem readLine_leaf {l : Leaf} {name : String} (htype : l.TypeShown)
    (hname : showsLeaf name (dumpProt l.entry pteBits)) (el1 : Bool) (kind : AccessKind)
    (mmfr0 : U64) (r : MmuRegs) :
    readLine (some (name, dumpProt l.entry pteBits)) el1 kind =
      if l.entry &&& pteAf ≠ 0#64 ∧ l.allows el1 kind then some ((cpuInit mmfr0 r).attr l)
      else none := by
  obtain ⟨i, hi, hindex⟩ := htype
  have hsay := flagsSay l.entry
  simp only [readLine, Option.bind_some, hname, hsay.accessed, hsay.access, true_and]
  rw [hsay.type hi hindex, attr_cpuInit hi hindex mmfr0 r]

/-- A line that shows no leaf lets nothing through. -/
theorem readLine_eq_none {name : String} (h : showsLeaf name flags = false) (el1 : Bool)
    (kind : AccessKind) : readLine (some (name, flags)) el1 kind = none := by
  simp [readLine, h]

theorem showsLeaf_other {name : String} (hpmd : name ≠ "PMD") (hpte : name ≠ "PTE")
    (flags : List String) : showsLeaf name flags = false := by
  simp [showsLeaf, hpmd, hpte]

/-- The levels are shown by their names, and the bits as they are. -/
theorem PrintCall.flags_eq (c : PrintCall) (hval : c.val ≠ 0#64)
    (hlevel : 1 ≤ c.level ∧ c.level ≤ 4) :
    c.flags (pgLevelInit pgLevel) =
      some (["", "PGD", "PUD", "PMD", "PTE"].getD c.level "", dumpProt c.val pteBits) := by
  obtain ⟨start, end_, level, val, shown⟩ := c
  obtain ⟨hpos, hle⟩ := hlevel
  rw [PrintCall.flags, if_neg hval]
  have hprot : dumpProt (val &&& pteBits.foldl (fun mask b => mask ||| b.mask) 0#64) pteBits =
      dumpProt val pteBits := dumpProt_masked val _ pteBits
  dsimp only at hpos hle ⊢
  rw [← hprot]
  interval_cases level <;> rfl

/-- A line says what its entry says. -/
theorem readLine_flags (c : PrintCall) (hlevel : 1 ≤ c.level ∧ c.level ≤ 4)
    (htype : ∀ l, leafAt c.level c.val = some l → l.TypeShown) (el1 : Bool) (kind : AccessKind)
    (mmfr0 : U64) (r : MmuRegs) :
    readLine (c.flags (pgLevelInit pgLevel)) el1 kind =
      (leafAt c.level c.val).bind fun l =>
        if l.entry &&& pteAf ≠ 0#64 ∧ l.allows el1 kind then some ((cpuInit mmfr0 r).attr l)
        else none := by
  obtain ⟨hsect, hpage⟩ := (flagsSay c.val).leaf
  cases hleaf : leafAt c.level c.val with
  | none =>
      obtain ⟨hnosect, hnopage⟩ := leafAt_eq_none hleaf
      rw [Option.bind_none]
      by_cases hzero : c.val = 0#64
      · rw [PrintCall.flags, if_pos hzero]
        rfl
      rw [c.flags_eq hzero hlevel]
      refine readLine_eq_none ?_ el1 kind
      obtain h | h | h | h : c.level = 1 ∨ c.level = 2 ∨ c.level = 3 ∨ c.level = 4 := by omega
      · rw [h]
        exact showsLeaf_other (by decide) (by decide) _
      · rw [h]
        exact showsLeaf_other (by decide) (by decide) _
      · rw [h]
        exact hsect.trans (decide_eq_false (hnosect h))
      · rw [h]
        exact hpage.trans (decide_eq_false (hnopage h))
  | some l =>
      obtain ⟨hval, hkind⟩ := leafAt_eq_some hleaf
      have hname : showsLeaf (["", "PGD", "PUD", "PMD", "PTE"].getD c.level "")
          (dumpProt c.val pteBits) = true := by
        rcases hkind with ⟨h, hbits⟩ | ⟨h, hbits⟩
        · rw [h]
          exact hsect.trans (decide_eq_true hbits)
        · rw [h]
          exact hpage.trans (decide_eq_true hbits)
      have hzero : c.val ≠ 0#64 := by
        rintro hzero
        rw [hzero] at hkind
        rcases hkind with ⟨-, h⟩ | ⟨-, h⟩
        · exact absurd h (by decide)
        · exact absurd h (by decide)
      rw [c.flags_eq hzero hlevel, Option.bind_some]
      rw [hval] at hname ⊢
      exact readLine_leaf (htype l hleaf) hname el1 kind mmfr0 r

variable {s : PgState} {pgdir va : U64} {lo hi : Nat} {calls : List PrintCall}

/-! ### The dump -/

theorem lastEntry_level (s : PgState) (pgdir va : U64) :
    1 ≤ (lastEntry s pgdir va).1 ∧ (lastEntry s pgdir va).1 ≤ 4 := by
  unfold lastEntry
  dsimp only
  split_ifs <;> simp

theorem Tiles.le (h : Tiles lo hi calls) : lo ≤ hi := by
  induction calls generalizing lo with
  | nil =>
      obtain rfl : lo = hi := h
      exact le_rfl
  | cons c cs ih =>
      obtain ⟨-, hlt, hrest⟩ := h
      exact hlt.le.trans (ih hrest)

/-- The intervals have exactly the addresses of the range. -/
theorem Tiles.covers_iff (h : Tiles lo hi calls) (y : Nat) :
    (∃ c ∈ calls, c.start.toNat ≤ y ∧ y < c.end_.toNat) ↔ lo ≤ y ∧ y < hi := by
  induction calls generalizing lo with
  | nil =>
      obtain rfl : lo = hi := h
      simp
  | cons c cs ih =>
      obtain ⟨hstart, hlt, hrest⟩ := h
      have hle := hrest.le
      rw [List.exists_mem_cons_iff, ih hrest, hstart]
      omega

/-- What an entry lets through, and with which attribute. -/
def Leaf.lets (mmfr0 : U64) (r : MmuRegs) (el1 : Bool) (kind : AccessKind) (l : Leaf) :
    Option (BitVec 8) :=
  if l.entry &&& pteAf ≠ 0#64 ∧ l.allows el1 kind then some ((cpuInit mmfr0 r).attr l) else none

theorem readDump_map (calls : List PrintCall) (levels : List PgLevel) (el1 : Bool)
    (kind : AccessKind) (va : U64) :
    readDump (calls.map fun c => (c, c.flags levels)) el1 kind va =
      (calls.find? fun c => (c.flags levels).isSome ∧ c.start ≤ va ∧ va < c.end_).bind fun c =>
        readLine (c.flags levels) el1 kind := by
  rw [readDump, List.find?_map, Option.bind_map]
  rfl

/-- Of an address that it covers, a dump says what the lookup says. -/
theorem readDump_on
    (hreads : ∀ c ∈ calls, ∀ va : U64, c.start.toNat ≤ va.toNat → va.toNat < c.end_.toNat →
      lastEntry s pgdir va = (c.level, c.val))
    (htype : ∀ l, lookup s pgdir va = some l → l.TypeShown)
    (hon : ∃ c ∈ calls, c.start.toNat ≤ va.toNat ∧ va.toNat < c.end_.toNat) (el1 : Bool)
    (kind : AccessKind) (mmfr0 : U64) (r : MmuRegs) :
    readDump (calls.map fun c => (c, c.flags (pgLevelInit pgLevel))) el1 kind va =
      (lookup s pgdir va).bind (Leaf.lets mmfr0 r el1 kind) := by
  have hline : ∀ c ∈ calls, c.start.toNat ≤ va.toNat → va.toNat < c.end_.toNat →
      readLine (c.flags (pgLevelInit pgLevel)) el1 kind =
        (lookup s pgdir va).bind (Leaf.lets mmfr0 r el1 kind) := by
    intro c hc hlow hhigh
    have hlookup := lookup_eq_leafAt s pgdir va
    have hlevel := lastEntry_level s pgdir va
    rw [hreads c hc va hlow hhigh] at hlookup hlevel
    rw [hlookup]
    exact readLine_flags c hlevel (fun l hl => htype l (hlookup.trans hl)) el1 kind mmfr0 r
  rw [readDump_map]
  cases hfind : calls.find? fun c =>
      (c.flags (pgLevelInit pgLevel)).isSome ∧ c.start ≤ va ∧ va < c.end_ with
  | none =>
      obtain ⟨c, hc, hlow, hhigh⟩ := hon
      have hempty : c.flags (pgLevelInit pgLevel) = none := by
        have hno := List.find?_eq_none.mp hfind c hc
        rw [decide_eq_true_eq] at hno
        exact Option.not_isSome_iff_eq_none.mp fun hsome => hno ⟨hsome, hlow, hhigh⟩
      rw [← hline c hc hlow hhigh, hempty]
      rfl
  | some c =>
      have hfound := List.find?_some hfind
      rw [decide_eq_true_eq] at hfound
      exact hline c (List.mem_of_find?_eq_some hfind) hfound.2.1 hfound.2.2

/-- Of any other address it says nothing. -/
theorem readDump_off {levels : List PgLevel}
    (hoff : ¬ ∃ c ∈ calls, c.start.toNat ≤ va.toNat ∧ va.toNat < c.end_.toNat) (el1 : Bool)
    (kind : AccessKind) :
    readDump (calls.map fun c => (c, c.flags levels)) el1 kind va = none := by
  have hnone :
      (calls.find? fun c => (c.flags levels).isSome ∧ c.start ≤ va ∧ va < c.end_) = none := by
    refine List.find?_eq_none.mpr fun c hc => ?_
    rw [decide_eq_true_eq]
    exact fun hcovers => hoff ⟨c, hc, hcovers.2⟩
  rw [readDump_map, hnone, Option.bind_none]

/-- The MMU lets an access through as the entry says, up to the width of an address. -/
theorem walk_cpuInit {mmfr0 : U64} {r : MmuRegs} (hbase : r.ttbr0 &&& pteAddrMask = pgdir)
    (hva : va >>> 48 = 0#64) (el1 : Bool) (kind : AccessKind) :
    (cpuInit mmfr0 r).walk s el1 kind va = (lookup s pgdir va).bind fun l =>
      (l.lets mmfr0 r el1 kind).bind fun attr =>
        if (l.translate va).toNat < 2 ^ paRangeBits mmfr0 then some (l.translate va, attr)
        else none := by
  rw [MmuRegs.walk, table_cpuInit mmfr0 r (by rw [hva]; decide), if_pos hva, Option.bind_some,
    hbase, paBits_cpuInit]
  refine congrArg _ (funext fun l => ?_)
  unfold Leaf.lets
  by_cases haf : l.entry &&& pteAf ≠ 0#64 <;> by_cases hallows : l.allows el1 kind <;>
    simp [haf, hallows]

section Kernel

variable {layout : Layout} {board : Board} {alloc : Nat → U64} {root : TablePage} {fuel : Nat}

theorem Region.type_shown (region : Region) {l : Leaf} (h : attrs l.entry = attrs region.prot) :
    l.TypeShown := by
  obtain ⟨-, -, hindex⟩ := Leaf.perms_of_attrs h
  cases region
  · exact ⟨4, by decide, hindex.trans (by decide)⟩
  · exact ⟨4, by decide, hindex.trans (by decide)⟩
  · exact ⟨0, by decide, hindex.trans (by decide)⟩

theorem Mapped.type_shown (h : Mapped alloc root (kernelMappings layout board) s) {l : Leaf}
    (hl : lookup s root.base va = some l) : l.TypeShown := by
  obtain ⟨m, hm, hattrs⟩ := h.of_lookup (kernelMappings_proper layout board) hl
  revert hattrs
  refine forall_kernelMappings (P := fun m => attrs l.entry = attrs m.prot → l.TypeShown)
    ?_ ?_ ?_ m hm
  · exact Region.type_shown .text
  · exact Region.type_shown .memory
  · exact Region.type_shown .devices

/-- `walk_pgd` shows a range between two boundaries of 1 GiB. -/
theorem Inv.walkPgd_block (h : Inv alloc root s) (hfuel : 512 ≤ fuel) (start size : U64)
    (hstart : start.toNat % 4096 = 0) (hsize : size.toNat % 4096 = 0) (hpos : 0 < size.toNat)
    (hbelow : start.toNat + size.toNat ≤ 2 ^ 48)
    (hblock : start.toNat / span 2 = (start.toNat + size.toNat - 1) / span 2) :
    ∃ calls, walkPgd fuel s root.base start size = some calls ∧
      Dumps s root.base start.toNat (start.toNat + size.toNat) calls := by
  have hend : (start + size).toNat = start.toNat + size.toNat := by
    rw [BitVec.toNat_add]
    omega
  have hno : ¬ ∃ b, PudCrossing s root.base start (start + size) b := by
    rintro ⟨b, hb⟩
    have hlow := hb.start_lt
    have hhigh := hb.lt_end
    have hboundary := hb.boundary
    rw [hend] at hhigh
    rw [span_two] at hblock hboundary
    omega
  obtain ⟨calls, hwalk, hdumps⟩ := walkPgd_dumps root hstart (by omega) (by omega)
    (by omega) h hno hfuel
  rw [hend] at hdumps
  exact ⟨calls, hwalk, hdumps⟩

/-- Both walks of `dump_pgtable` come to their ends. -/
theorem Mapped.exists_dump (h : Mapped alloc ⟨layout.idmapPgdDir, layout.pgd_aligned⟩
      (kernelMappings layout board) s) (hfuel : 512 ≤ fuel) :
    ∃ calls : List PrintCall, dumpPgtable fuel layout board pgLevel s =
        some (calls.map fun c => (c, c.flags (pgLevelInit pgLevel))) ∧
      (∀ c ∈ calls, ∀ va : U64, c.start.toNat ≤ va.toNat → va.toNat < c.end_.toNat →
        lastEntry s layout.idmapPgdDir va = (c.level, c.val)) ∧
      ∀ y, (∃ c ∈ calls, c.start.toNat ≤ y ∧ y < c.end_.toNat) ↔
        y < totalMemory.toNat ∨
          (pbase board).toNat ≤ y ∧ y < (pbase board).toNat + deviceSize.toNat := by
  obtain ⟨memory, hmemory, hdumps⟩ := h.inv.walkPgd_block hfuel 0#64 totalMemory rfl rfl
    (by decide) (by decide) (by decide)
  obtain ⟨devices, hdevices, hdumps'⟩ := h.inv.walkPgd_block hfuel (pbase board) deviceSize
    (by cases board <;> rfl) rfl (by decide) (by cases board <;> decide)
    (by cases board <;> decide)
  refine ⟨memory ++ devices, ?_, fun c hc => ?_, fun y => ?_⟩
  · rw [dumpPgtable, hmemory, hdevices]
    rfl
  · rcases List.mem_append.mp hc with hc | hc
    · exact hdumps.reads c hc
    · exact hdumps'.reads c hc
  · have hcovers := hdumps.tiles.covers_iff y
    have hcovers' := hdumps'.tiles.covers_iff y
    simp only [List.mem_append, or_and_right, exists_or]
    rw [hcovers, hcovers']
    simp

theorem Mapped.translate_eq (h : Mapped alloc root (kernelMappings layout board) s)
    (hva : va.toNat < 2 ^ 48) {l : Leaf} (hl : lookup s root.base va = some l) :
    l.translate va = va := by
  cases hregion : layout.region board va with
  | none => exact absurd (hl.symm.trans (h.no_region hva hregion)) (Option.some_ne_none l)
  | some region =>
      obtain ⟨l', hl', himage, -⟩ :=
        h.region ((layout.region_eq_some_iff board va region).mp hregion)
      obtain rfl : l = l' := Option.some.inj (hl.symm.trans hl')
      exact himage

/-- The regions lie in the memory and in the devices. -/
theorem Layout.region_eq_none
    (h : ¬ (va.toNat < totalMemory.toNat ∨
      (pbase board).toNat ≤ va.toNat ∧ va.toNat < (pbase board).toNat + deviceSize.toNat)) :
    layout.region board va = none := by
  have hend : layout.textEnd.toNat ≤ totalMemory.toNat := layout.end_le.trans (by decide)
  have hdevices : (pbase board + deviceSize).toNat = (pbase board).toNat + deviceSize.toNat := by
    cases board <;> rfl
  unfold Layout.region
  simp only [BitVec.le_def, BitVec.lt_def, hdevices]
  rw [if_neg (by omega), if_neg (by omega), if_neg (by omega)]

/-- **The dump tells what the MMU does.**  After `paging_init`, `dump_pgtable` returns, and a
reader of its lines knows of every access to every address, but for the upper ones, whether the
MMU lets it through and with which memory attribute; the address is the same, if it fits. -/
theorem dumpPgtable_tells (layout : Layout) (board : Board) {memMap : PageMap}
    (hfuel : 512 ≤ fuel) (hfree : enoughTables ≤ (freePages memMap).card) {mmfr0 : U64}
    (hpages : HasPages mmfr0) (mem : U64 → U64) (r : MmuRegs) :
    ∃ pg r' lines, pagingInit memMap fuel layout board mmfr0 mem r = some (pg, r') ∧
      dumpPgtable fuel layout board pgLevel pg = some lines ∧
      ∀ (el1 : Bool) (kind : AccessKind) (va : U64), va >>> 48 ≠ 0xffff#64 →
        r'.walk pg el1 kind va = (readDump lines el1 kind va).bind fun attr =>
          if va.toNat < 2 ^ paRangeBits mmfr0 then some (va, attr) else none := by
  obtain ⟨pg, hinit, hmapped, -⟩ := exists_pagingInit layout board hfuel hfree hpages mem r
  obtain ⟨calls, hdump, hreads, hcovers⟩ := hmapped.exists_dump hfuel
  refine ⟨pg, _, _, hinit, hdump, fun el1 kind va hva => ?_⟩
  have htotal : totalMemory.toNat = 0x20000000 := rfl
  have htop : (pbase board).toNat + deviceSize.toNat ≤ 2 ^ 48 := by cases board <;> decide
  by_cases hon : ∃ c ∈ calls, c.start.toNat ≤ va.toNat ∧ va.toNat < c.end_.toNat
  · have hbelow : va.toNat < 2 ^ 48 := by
      have hcovered := (hcovers va.toNat).mp hon
      omega
    rw [walk_cpuInit (layout.ttbr_base rfl) (shiftRight_of_toNat hbelow),
      readDump_on hreads (fun _ hl => hmapped.type_shown hl) hon el1 kind mmfr0 _,
      Option.bind_assoc]
    cases hlookup : lookup pg layout.idmapPgdDir va with
    | none => rfl
    | some l => rw [Option.bind_some, Option.bind_some, hmapped.translate_eq hbelow hlookup]
  · rw [readDump_off hon, Option.bind_none, MmuRegs.walk, table_cpuInit mmfr0 _ hva]
    by_cases hzero : va >>> 48 = 0#64
    · rw [if_pos hzero, Option.bind_some, layout.ttbr_base rfl,
        hmapped.no_region (toNat_of_shiftRight hzero)
          (Layout.region_eq_none fun h => hon ((hcovers _).mpr h)), Option.bind_none]
    · rw [if_neg hzero, Option.bind_none]

end Kernel

theorem dumpPgtable_tells_small :
    ∃ pg r' lines, pagingInit (fun _ => 0#8) 512 smallLayout .bcm2711 0x10305#64 (fun _ => 0#64)
        ⟨0, 0, 0, 0, 0, 0, 0⟩ = some (pg, r') ∧
      dumpPgtable 512 smallLayout .bcm2711 pgLevel pg = some lines ∧
      r'.walk pg true .fetch 0x80004#64 = (readDump lines true .fetch 0x80004#64).bind fun attr =>
        some (0x80004#64, attr) := by
  obtain ⟨pg, r', lines, hinit, hdump, htells⟩ := dumpPgtable_tells smallLayout .bcm2711 le_rfl
    (enoughTables_of_free fun _ => rfl) (show HasPages 0x10305#64 by decide) (fun _ => 0#64)
    ⟨0, 0, 0, 0, 0, 0, 0⟩
  exact ⟨pg, r', lines, hinit, hdump, htells true .fetch 0x80004#64 (by decide)⟩

end Arm64OS
