import Arm64OS.Page

/-!
# The caches of the processor

`init_cache_info` of `arch/arm64/kernel/cacheinfo.c`.  A report is a `printk` call with its
arguments; `read_sysreg` reads the registers that the processor has, of which `CCSIDR_EL1`
shows the cache that `CSSELR_EL1` selects.
-/

namespace Arm64OS

/-! ## Registers -/

/-- `CLIDR_EL1`, `CTR_EL0`, and `CCSIDR_EL1` by the selected cache. -/
structure CacheRegs where
  clidr : U64
  ctr : U64
  ccsidr : U64 → U64

/-- `CACHE_TYPE_NOCACHE` and its siblings. -/
def cacheTypeNocache : Nat := 0
def cacheTypeSeparate : Nat := 3
def cacheTypeUnified : Nat := 4

def cacheTypeString : List String :=
  ["nocache", "i-cache", "d-cache", "separate cache", "unifed cache"]

def icachePolicyStr : List String := ["VPIPT", "RESERVED/UNKNOWN", "VIPT", "PIPT"]

def maxCacheLevel : Nat := 7

/-- `CLIDR_CTYPE`. -/
def clidrCtype (clidr : U64) (level : Nat) : Nat :=
  ((clidr &&& (7 <<< (3 * (level - 1)))) >>> (3 * (level - 1))).toNat

/-- `CLIDR_ICB`, `CLIDR_LOUU`, `CLIDR_LOC` and `CLIDR_LOUIS`, of the lower half of the register. -/
def clidrField (shift : Nat) (clidr : BitVec 32) : BitVec 32 := (clidr >>> shift) &&& 7

/-- `get_cache_type`. -/
def getCacheType (regs : CacheRegs) (level : Nat) : Nat :=
  if level > maxCacheLevel then cacheTypeNocache else clidrCtype regs.clidr level

/-- `cache_line_size`. -/
def cacheLineSize (regs : CacheRegs) : BitVec 32 :=
  let cwg := ((regs.ctr >>> 24) &&& 15).setWidth 32
  4#32 <<< cwg

/-! ## Reports -/

inductive CacheReport
  | parse
  /-- the text is none where the table of texts has no such entry -/
  | level (level : Nat) (type : Option String) (lineSize : BitVec 32)
  | setWay (name : String) (set way lineSize size : BitVec 32)
  | boundaries (icb louu loc louis : BitVec 32)
  | policy (name : Option String)
  deriving DecidableEq

/-- The register that selects a cache, and the reports so far, oldest first. -/
structure CacheState where
  csselr : U64
  reports : List CacheReport

def CacheState.report (r : CacheReport) (s : CacheState) : CacheState :=
  { s with reports := s.reports ++ [r] }

/-- `get_cache_set_way`. -/
def getCacheSetWay (regs : CacheRegs) (level ind : Nat) (s : CacheState) : CacheState :=
  let tmp : BitVec 32 := ((BitVec.ofNat 32 level - 1) <<< 1) ||| BitVec.ofNat 32 ind
  let s := { s with csselr := tmp.signExtend 64 }
  let val := regs.ccsidr s.csselr
  let set : BitVec 32 := ((val &&& (0x1fff <<< 13)) >>> 13).setWidth 32 + 1
  let way : BitVec 32 := ((val &&& (0x3ff <<< 3)) >>> 3).setWidth 32 + 1
  let lineSize : BitVec 32 := 1#32 <<< ((val &&& 7).setWidth 32 + 4#32)
  s.report (.setWay (if ind ≠ 0 then "i-cache" else "d/u cache") set way lineSize
    (lineSize * way * set / 1024))

/-- The loop of `init_cache_info` over the levels. -/
def levelLoop (regs : CacheRegs) : (fuel level : Nat) → CacheState → Option (Nat × CacheState)
  | 0, _, _ => none
  | fuel + 1, level, s =>
      if level ≤ maxCacheLevel then
        let ctype := getCacheType regs level
        if ctype = cacheTypeNocache then some (level - 1, s)
        else
          let s := s.report (.level level cacheTypeString[ctype]? (cacheLineSize regs))
          let s :=
            if ctype = cacheTypeSeparate then
              getCacheSetWay regs level 0 (getCacheSetWay regs level 1 s)
            else if ctype = cacheTypeUnified then getCacheSetWay regs level 0 s
            else s
          levelLoop regs fuel (level + 1) s
      else some (level, s)

/-- `init_cache_info`: the value returned, and the state. -/
def initCacheInfo (regs : CacheRegs) (s : CacheState) : Option (Nat × CacheState) := do
  let (level, s) ← levelLoop regs (maxCacheLevel + 1) 1 (s.report .parse)
  let clidr : BitVec 32 := regs.clidr.setWidth 32
  let s := s.report (.boundaries (clidrField 30 clidr) (clidrField 27 clidr) (clidrField 24 clidr)
    (clidrField 21 clidr))
  let ctr : BitVec 32 := regs.ctr.setWidth 32
  some (level, s.report (.policy icachePolicyStr[((ctr >>> 14) &&& 3).toNat]?))

/-! ## What is asked of it -/

/-- How many levels have a cache, from the first on. -/
def leadingCaches (clidr : U64) : Nat :=
  ((List.range' 1 maxCacheLevel).takeWhile fun level => clidrCtype clidr level ≠ 0).length

def reportedLevels (reports : List CacheReport) : List Nat :=
  reports.filterMap fun
    | .level level _ _ => some level
    | _ => none

/-- The table of texts is read inside its bounds only. -/
def TypesInBounds (reports : List CacheReport) : Prop :=
  ∀ level type lineSize, .level level type lineSize ∈ reports → type.isSome

/-- The levels with caches are counted and reported, one after the other. -/
def CachesParsed (regs : CacheRegs) (csselr : U64) : Prop :=
  ∃ level s, initCacheInfo regs ⟨csselr, []⟩ = some (level, s) ∧
    level = leadingCaches regs.clidr ∧
    reportedLevels s.reports = List.range' 1 (leadingCaches regs.clidr) ∧ TypesInBounds s.reports

/-- Where the run of levels that meet `p` ends. -/
theorem takeWhile_range' (p : Nat → Bool) (a n : Nat) {k : Nat}
    (hk : ((List.range' a n).takeWhile p).length = k) :
    k ≤ n ∧ (∀ j, a ≤ j → j < a + k → p j = true) ∧ (k < n → p (a + k) = false) := by
  induction n generalizing a k with
  | zero =>
      obtain rfl : 0 = k := hk
      exact ⟨le_rfl, fun j hlow hhigh => by omega, fun h => absurd h (by omega)⟩
  | succ n ih =>
      rw [List.range'_succ, List.takeWhile_cons] at hk
      cases ha : p a with
      | false =>
          simp only [ha, Bool.false_eq_true, if_false, List.length_nil] at hk
          subst hk
          exact ⟨Nat.zero_le _, fun j hlow hhigh => by omega, fun _ => ha⟩
      | true =>
          simp only [ha, if_true, List.length_cons] at hk
          obtain ⟨hle, hbelow, hend⟩ := ih (a + 1) rfl
          subst hk
          refine ⟨by omega, fun j hlow hhigh => ?_, fun hlt => ?_⟩
          · by_cases hj : j = a
            · rw [hj, ha]
            · exact hbelow j (by omega) (by omega)
          · rw [← hend (by omega)]
            congr 1
            omega

/-! ## The loop over the levels -/

theorem reportedLevels_append (rs rs' : List CacheReport) :
    reportedLevels (rs ++ rs') = reportedLevels rs ++ reportedLevels rs' :=
  List.filterMap_append

theorem typesInBounds_append {rs rs' : List CacheReport} :
    TypesInBounds (rs ++ rs') ↔ TypesInBounds rs ∧ TypesInBounds rs' := by
  simp only [TypesInBounds, List.mem_append]
  constructor
  · intro h
    exact ⟨fun l t n hmem => h l t n (Or.inl hmem), fun l t n hmem => h l t n (Or.inr hmem)⟩
  · rintro ⟨h, h'⟩ l t n (hmem | hmem)
    · exact h l t n hmem
    · exact h' l t n hmem

theorem typesInBounds_level {level : Nat} {type : Option String} {lineSize : BitVec 32} :
    TypesInBounds [.level level type lineSize] ↔ type.isSome := by
  constructor
  · exact fun h => h _ _ _ List.mem_cons_self
  · intro h l t n hmem
    cases List.mem_singleton.1 hmem
    exact h

/-- The reports behind `rs` are about no level. -/
structure NoLevels (rs rs' : List CacheReport) : Prop where
  levels : reportedLevels rs' = reportedLevels rs
  types : TypesInBounds rs' ↔ TypesInBounds rs

theorem NoLevels.trans {rs rs' rs'' : List CacheReport} (h : NoLevels rs rs')
    (h' : NoLevels rs' rs'') : NoLevels rs rs'' :=
  ⟨h'.levels.trans h.levels, h'.types.trans h.types⟩

/-- A report that is not about a level. -/
theorem noLevels_report {r : CacheReport} (hr : ∀ l t n, r ≠ .level l t n) (s : CacheState) :
    NoLevels s.reports (s.report r).reports := by
  have hnone : reportedLevels [r] = [] := by
    cases r with
    | level l t n => exact absurd rfl (hr l t n)
    | parse => rfl
    | setWay => rfl
    | boundaries => rfl
    | policy => rfl
  have hin : TypesInBounds [r] := fun l t n hmem =>
    absurd (List.mem_singleton.1 hmem).symm (hr l t n)
  constructor
  · rw [CacheState.report, reportedLevels_append, hnone, List.append_nil]
  · rw [CacheState.report, typesInBounds_append]
    exact and_iff_left hin

theorem noLevels_getCacheSetWay (regs : CacheRegs) (level ind : Nat) (s : CacheState) :
    NoLevels s.reports (getCacheSetWay regs level ind s).reports :=
  noLevels_report (s := { s with csselr := _ }) (fun _ _ _ h => by cases h)

/-- The sizes that are reported for a level. -/
def reportSizes (regs : CacheRegs) (level : Nat) (s : CacheState) : CacheState :=
  if clidrCtype regs.clidr level = cacheTypeSeparate then
    getCacheSetWay regs level 0 (getCacheSetWay regs level 1 s)
  else if clidrCtype regs.clidr level = cacheTypeUnified then getCacheSetWay regs level 0 s
  else s

theorem noLevels_reportSizes (regs : CacheRegs) (level : Nat) (s : CacheState) :
    NoLevels s.reports (reportSizes regs level s).reports := by
  unfold reportSizes
  split_ifs
  · exact (noLevels_getCacheSetWay regs level 1 s).trans (noLevels_getCacheSetWay regs level 0 _)
  · exact noLevels_getCacheSetWay regs level 0 s
  · exact ⟨rfl, Iff.rfl⟩

theorem levelLoop_succ (regs : CacheRegs) {fuel level : Nat} (hlevel : level ≤ maxCacheLevel)
    (s : CacheState) :
    levelLoop regs (fuel + 1) level s =
      if clidrCtype regs.clidr level = 0 then some (level - 1, s)
      else levelLoop regs fuel (level + 1) (reportSizes regs level
        (s.report (.level level cacheTypeString[clidrCtype regs.clidr level]?
          (cacheLineSize regs)))) := by
  have htype : getCacheType regs level = clidrCtype regs.clidr level := if_neg (by omega)
  simp only [levelLoop, if_pos hlevel, htype]
  rfl

theorem isSome_cacheTypeString (n : Nat) : cacheTypeString[n]?.isSome ↔ n ≤ 4 := by
  rw [isSome_getElem?]
  exact Nat.lt_succ_iff

theorem levelLoop_spec (regs : CacheRegs) {fuel level n k : Nat} (hlevel : level + n = 8)
    (hpos : 1 ≤ level) (hfuel : n < fuel)
    (hk : ((List.range' level n).takeWhile fun l => clidrCtype regs.clidr l ≠ 0).length = k)
    (s : CacheState) :
    ∃ s', levelLoop regs fuel level s = some (if k = n then 8 else level - 1 + k, s') ∧
      reportedLevels s'.reports = reportedLevels s.reports ++ List.range' level k ∧
      (TypesInBounds s'.reports ↔
        TypesInBounds s.reports ∧ ∀ l ∈ List.range' level k, clidrCtype regs.clidr l ≤ 4) := by
  induction n generalizing fuel level k s with
  | zero =>
      obtain rfl : 0 = k := hk
      obtain ⟨fuel, rfl⟩ : ∃ f, fuel = f + 1 := ⟨fuel - 1, by omega⟩
      obtain rfl : level = 8 := hlevel
      exact ⟨s, rfl, by simp, by simp⟩
  | succ n ih =>
      obtain ⟨fuel, rfl⟩ : ∃ f, fuel = f + 1 := ⟨fuel - 1, by omega⟩
      rw [levelLoop_succ regs (show level ≤ 7 by omega)]
      rw [List.range'_succ, List.takeWhile_cons] at hk
      by_cases hzero : clidrCtype regs.clidr level = 0
      · simp only [hzero, ne_eq, not_true_eq_false, decide_false, Bool.false_eq_true, if_false,
          List.length_nil] at hk
        subst hk
        rw [if_pos hzero]
        exact ⟨s, by simp, by simp, by simp⟩
      · simp only [hzero, ne_eq, not_false_eq_true, decide_true, if_true, List.length_cons] at hk
        subst hk
        rw [if_neg hzero]
        obtain ⟨t, ht⟩ : ∃ t, reportSizes regs level (s.report (.level level
            cacheTypeString[clidrCtype regs.clidr level]? (cacheLineSize regs))) = t := ⟨_, rfl⟩
        have hnone := noLevels_reportSizes regs level (s.report (.level level
          cacheTypeString[clidrCtype regs.clidr level]? (cacheLineSize regs)))
        rw [ht] at hnone ⊢
        have hlevels : reportedLevels t.reports = reportedLevels s.reports ++ [level] :=
          hnone.levels.trans (reportedLevels_append _ _)
        have htypes : TypesInBounds t.reports ↔
            TypesInBounds s.reports ∧ clidrCtype regs.clidr level ≤ 4 := by
          rw [hnone.types, CacheState.report, typesInBounds_append, typesInBounds_level,
            isSome_cacheTypeString]
        obtain ⟨s', hloop, hlevels', htypes'⟩ := @ih fuel (level + 1) _ (by omega) (by omega)
          (by omega) rfl t
        obtain ⟨k, hk⟩ : ∃ k, ((List.range' (level + 1) n).takeWhile fun l =>
            clidrCtype regs.clidr l ≠ 0).length = k := ⟨_, rfl⟩
        rw [hk] at hloop hlevels' htypes' ⊢
        refine ⟨s', ?_, ?_, ?_⟩
        · rw [hloop]
          by_cases hall : k = n
          · simp [hall]
          · have hplace : level + k = level - 1 + (k + 1) := by omega
            simp [hall, hplace]
        · rw [hlevels', hlevels, List.range'_succ, List.append_assoc, List.singleton_append]
        · rw [htypes', htypes, List.range'_succ, List.forall_mem_cons, and_assoc]

/-! ## When the caches are parsed -/

/-- What comes behind the loop is about no level. -/
theorem initCacheInfo_levels (regs : CacheRegs) {s t : CacheState} {level : Nat}
    (hloop : levelLoop regs (maxCacheLevel + 1) 1 (s.report .parse) = some (level, t)) :
    ∃ s', initCacheInfo regs s = some (level, s') ∧ NoLevels t.reports s'.reports := by
  refine ⟨_, by rw [initCacheInfo, hloop]; rfl, ?_⟩
  have hbounds := noLevels_report (r := .boundaries (clidrField 30 (regs.clidr.setWidth 32))
    (clidrField 27 (regs.clidr.setWidth 32)) (clidrField 24 (regs.clidr.setWidth 32))
    (clidrField 21 (regs.clidr.setWidth 32))) (fun _ _ _ h => by cases h) t
  exact hbounds.trans (noLevels_report (fun _ _ _ h => by cases h) _)

theorem initCacheInfo_spec (regs : CacheRegs) (csselr : U64) {k : Nat}
    (hk : leadingCaches regs.clidr = k) :
    ∃ s, initCacheInfo regs ⟨csselr, []⟩ = some (if k = 7 then 8 else k, s) ∧
      reportedLevels s.reports = List.range' 1 k ∧
      (TypesInBounds s.reports ↔ ∀ l ∈ List.range' 1 k, clidrCtype regs.clidr l ≤ 4) := by
  obtain ⟨t, hloop, hlevels, htypes⟩ := levelLoop_spec regs (show 1 + 7 = 8 from rfl) le_rfl
    (show 7 < maxCacheLevel + 1 by decide) hk (CacheState.report .parse ⟨csselr, []⟩)
  rw [Nat.sub_self, Nat.zero_add] at hloop
  have hstart : NoLevels [] (CacheState.report .parse ⟨csselr, []⟩).reports :=
    noLevels_report (s := ⟨csselr, []⟩) fun _ _ _ h => by cases h
  have hempty : TypesInBounds [] := fun _ _ _ hmem => absurd hmem List.not_mem_nil
  obtain ⟨s, hrun, hend⟩ := initCacheInfo_levels regs hloop
  refine ⟨s, hrun, ?_⟩
  rw [hend.levels, hend.types, hlevels, htypes, hstart.levels, hstart.types]
  exact ⟨rfl, and_iff_right hempty⟩

/-- **`init_cache_info`** returns the number of the leading levels with caches, reports each of
them once and in order, and stays inside the table of texts, if and only if one of the seven
levels has no cache and those in front of it have one of the types that the table has a text
for. -/
theorem cachesParsed_iff (regs : CacheRegs) (csselr : U64) :
    CachesParsed regs csselr ↔
      ∃ level, 1 ≤ level ∧ level ≤ 7 ∧ clidrCtype regs.clidr level = 0 ∧
        ∀ l, 1 ≤ l → l < level → clidrCtype regs.clidr l ≤ 4 := by
  obtain ⟨k, hk⟩ : ∃ k, leadingCaches regs.clidr = k := ⟨_, rfl⟩
  obtain ⟨hle, hbelow, hend⟩ := takeWhile_range' _ 1 7 hk
  obtain ⟨s, hrun, hlevels, htypes⟩ := initCacheInfo_spec regs csselr hk
  constructor
  · rintro ⟨level, s', hrun', hlevel, -, hin⟩
    obtain ⟨rfl, rfl⟩ := Prod.mk.inj (Option.some.inj (hrun.symm.trans hrun'))
    have hlt : k < 7 := by
      rw [hk] at hlevel
      split at hlevel <;> omega
    refine ⟨1 + k, by omega, by omega, by simpa using hend hlt, fun l hlow hhigh => ?_⟩
    exact htypes.1 hin l (List.mem_range'_1.2 ⟨hlow, hhigh⟩)
  · rintro ⟨level, hlow, hhigh, hzero, hall⟩
    have hlt : k < level := by
      by_contra hge
      have hp := hbelow level hlow (by omega)
      simp [hzero] at hp
    refine ⟨_, s, hrun, by rw [hk, if_neg (by omega)], by rw [hk, hlevels], htypes.2 ?_⟩
    intro l hl
    have hrange := List.mem_range'_1.1 hl
    exact hall l hrange.1 (by omega)

/-- Seven unified caches: the result is 8.  A first level of type 5: its text is none of the
table. -/
theorem caches_not_parsed :
    ¬ CachesParsed ⟨0x124924, 0, fun _ => 0⟩ 0 ∧ ¬ CachesParsed ⟨5, 0, fun _ => 0⟩ 0 := by
  constructor
  · rintro ⟨level, s, hrun, hlevel, -⟩
    have hresult : (initCacheInfo ⟨0x124924, 0, fun _ => 0⟩ ⟨0, []⟩).map Prod.fst = some 8 := by
      decide +kernel
    rw [hrun] at hresult
    obtain rfl : level = 8 := Option.some.inj hresult
    exact absurd hlevel (by decide)
  · rintro ⟨level, s, hrun, -, -, hin⟩
    have hresult : (initCacheInfo ⟨5, 0, fun _ => 0⟩ ⟨0, []⟩).map (fun r => r.2.reports[1]?) =
        some (some (.level 1 none 4)) := by
      decide +kernel
    rw [hrun] at hresult
    have hmem := List.mem_of_getElem? (Option.some.inj hresult)
    exact absurd (hin _ _ _ hmem) (by decide)

end Arm64OS
