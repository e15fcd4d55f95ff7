import Arm64OS.Lib.ByteMem
import Arm64OS.Printk.Bounds

/-!
# The count that `%n` stores

A `%n` is given the address of an `int`, and `myprintf` stores through a `char *`: one byte of
the count goes to the first byte of the variable, and its other three bytes stay what they were.
The variable has the count in it if they were right already.
-/

namespace Arm64OS

open ByteMem

/-- The value of the `int` at an address. -/
def intAt (m : Mem) (ip : U64) : Int := (load m ip 4).toInt

def InInt (ip a : U64) : Prop := ip.toNat ≤ a.toNat ∧ a.toNat < ip.toNat + 4

/-- The pointers that the `%n` of a format are given, each with the number of characters
produced in front of it; `n` of them have been produced so far. -/
def countsFrom (args : VaList) : List Item → (arg : Nat) → (base : Int) → (n : Nat) →
    List (U64 × Nat)
  | [], _, _, _ => []
  | it :: its, arg, base, n =>
      (it.count args arg).toList.map (·, n) ++
        countsFrom args its (arg + it.slots) (it.base base)
          (n + (it.outcome args arg base).text.length)

def counts (fmt : CString) (args : VaList) (base : Int) : List (U64 × Nat) :=
  countsFrom args (items (fmt.length + 1) fmt.chars) 0 base 0

/-- Each `%n` is given an `int` of its own, outside the buffer. -/
structure OwnInts (buf : Buffer) (vars : List (U64 × Nat)) : Prop where
  ne_null : ∀ v ∈ vars, v.1 ≠ 0#64
  fits : ∀ v ∈ vars, v.1.toNat + 4 ≤ 2 ^ 64
  outside : ∀ v ∈ vars, ∀ a, InInt v.1 a → ¬ InBuffer buf a
  apart : vars.Pairwise fun v w => ∀ a, InInt v.1 a → ¬ InInt w.1 a

/-- What is asked of `%n`: every variable has its count, and nothing is stored outside the
buffer and the variables. -/
def CountsStored (buf : Buffer) (fmt : CString) (args : VaList) (base : Int) (m : Mem) : Prop :=
  ∃ len s, myprintf (fmt.length + 1) buf.string fmt.byte args base = some (len, s) ∧
    (∀ v ∈ counts fmt args base, intAt (storeBytes s.stores m) v.1 = v.2) ∧
    ∀ st ∈ s.stores, InBuffer buf st.1 ∨ ∃ v ∈ counts fmt args base, InInt v.1 st.1

/-- How many characters the format asks for, if it has no conversion with a bad base. -/
def produced (fmt : CString) (args : VaList) (base : Int) : Option Nat :=
  demand args (items (fmt.length + 1) fmt.chars) 0 base

/-! ## Where the stores go -/

/-- What the `%n` store: the low byte of each count. -/
def countStores (vars : List (U64 × Nat)) : List (U64 × Byte) :=
  vars.map fun v => (v.1, BitVec.ofNat 8 v.2)

theorem countStores_append (vars vars' : List (U64 × Nat)) :
    countStores (vars ++ vars') = countStores vars ++ countStores vars' := List.map_append

variable {args : VaList} {buf : Buffer} {its : List Item} {s : Printf} {n : Nat}

theorem demand_cons_eq_some {it : Item} {arg : Nat} {base : Int} {k : Nat}
    (h : demand args (it :: its) arg base = some k) :
    (it.outcome args arg base).null = false ∧
      ∃ r, demand args its (arg + it.slots) (it.base base) = some r ∧
        (it.outcome args arg base).text.length + r = k := by
  have hlength := (it.measures args arg base).length
  obtain ⟨m, hm, h⟩ := Option.bind_eq_some_iff.1 h
  obtain ⟨r, hr, h⟩ := Option.bind_eq_some_iff.1 h
  cases hnull : (it.outcome args arg base).null with
  | true =>
      rw [hm, hnull] at hlength
      cases hlength
  | false =>
      rw [hm, hnull] at hlength
      obtain rfl : m = _ := Option.some.inj hlength
      exact ⟨rfl, r, hr, Option.some.inj h⟩

/-- The variables behind an item that has not made `pos` 0. -/
theorem apply_outcome {it : Item} (hpos : s.pos = buf.string + BitVec.ofNat 64 n)
    (hnull : (it.outcome args s.arg s.base).null = false) :
    ∃ s', (it.outcome args s.arg s.base).apply buf.string it.slots s = s' ∧
      s'.arg = s.arg + it.slots ∧ s'.base = it.base s.base ∧
      s'.pos = buf.string +
        BitVec.ofNat 64 (n + (it.outcome args s.arg s.base).text.length) ∧
      s'.stores = s.stores ++ layout s.pos (it.outcome args s.arg s.base).text ++
        countStores ((it.count args s.arg).toList.map (·, n)) := by
  have hmeasures := it.measures args s.arg s.base
  refine ⟨_, rfl, rfl, hmeasures.base, ?_, ?_⟩
  · simp [Outcome.apply, hnull, hpos, BitVec.ofNat_add, BitVec.add_assoc]
  · have hcount : (s.pos - buf.string).setWidth 8 = BitVec.ofNat 8 n := by
      rw [hpos, BitVec.add_comm, BitVec.add_sub_cancel, BitVec.setWidth_ofNat_of_le (by decide)]
    simp [Outcome.apply, hmeasures.count, hcount, countStores]

/-- Outside the buffer there are the stores of the `%n` only. -/
theorem storeBytes_finalStores {k : Nat} (hpos : s.pos = buf.string + BitVec.ofNat 64 n)
    (hdemand : demand args its s.arg s.base = some k) (hroom : n + k < buf.size) {a : U64}
    (ha : ¬ InBuffer buf a) (m : Mem) :
    storeBytes (finalStores args buf.string its s) m a =
      storeBytes (countStores (countsFrom args its s.arg s.base n)) (storeBytes s.stores m) a := by
  induction its generalizing s n k with
  | nil =>
      obtain rfl : 0 = k := Option.some.inj hdemand
      have hend : buf.string + BitVec.ofNat 64 n ≠ a := by
        rintro rfl
        exact ha ((inBuffer_offset (by omega)).2 hroom)
      rw [finalStores, storeBytes_append]
      refine storeBytes_of_ne ?_ _
      simpa [runItems, hpos] using hend
  | cons it its ih =>
      obtain ⟨hnull, r, hr, rfl⟩ := demand_cons_eq_some hdemand
      obtain ⟨s', hs', harg, hbase, hpos', hstores⟩ := apply_outcome hpos hnull
      rw [← harg, ← hbase] at hr
      have htext : ∀ st ∈ layout s.pos (it.outcome args s.arg s.base).text, st.1 ≠ a := by
        have hin := (@layout_inBuffer buf (it.outcome args s.arg s.base).text n (by omega)).2
          (by omega)
        rw [← hpos] at hin
        rintro st hst rfl
        exact ha (hin st hst)
      rw [finalStores_cons, hs', ih hpos' hr (by omega), hstores, storeBytes_append,
        storeBytes_append, harg, hbase, countsFrom, countStores_append, storeBytes_append]
      refine storeBytes_congr _ (storeBytes_congr _ ?_)
      rw [storeBytes_of_ne htext]

theorem finalStores_outside {k : Nat} (hpos : s.pos = buf.string + BitVec.ofNat 64 n)
    (hdemand : demand args its s.arg s.base = some k) (hroom : n + k < buf.size)
    {st : U64 × Byte} (hst : st ∈ finalStores args buf.string its s) :
    st ∈ s.stores ∨ InBuffer buf st.1 ∨
      st ∈ countStores (countsFrom args its s.arg s.base n) := by
  induction its generalizing s n k with
  | nil =>
      obtain rfl : 0 = k := Option.some.inj hdemand
      rcases List.mem_append.1 hst with hold | hend
      · exact Or.inl hold
      · rw [List.mem_singleton.1 hend]
        change _ ∨ InBuffer buf s.pos ∨ _
        rw [hpos]
        exact Or.inr (Or.inl ((inBuffer_offset (by omega)).2 hroom))
  | cons it its ih =>
      obtain ⟨hnull, r, hr, rfl⟩ := demand_cons_eq_some hdemand
      obtain ⟨s', hs', harg, hbase, hpos', hstores⟩ := apply_outcome hpos hnull
      rw [← harg, ← hbase] at hr
      rw [finalStores_cons, hs'] at hst
      rw [countsFrom, countStores_append, List.mem_append]
      rcases ih hpos' hr (by omega) hst with hold | hin | hcount
      · rw [hstores, List.mem_append, List.mem_append] at hold
        rcases hold with (hold | htext) | hcount
        · exact Or.inl hold
        · rw [hpos] at htext
          exact Or.inr (Or.inl ((layout_inBuffer (by omega)).2 (by omega) st htext))
        · exact Or.inr (Or.inr (Or.inl hcount))
      · exact Or.inr (Or.inl hin)
      · rw [harg, hbase] at hcount
        exact Or.inr (Or.inr (Or.inr hcount))

/-- A conversion with a bad base is followed by a store to address 0. -/
theorem null_store_of_demand_eq_none (args : VaList) (string : U64) {its : List Item} {s : Printf}
    (hdemand : demand args its s.arg s.base = none) :
    ∃ st ∈ finalStores args string its s, st.1 = 0#64 := by
  induction its generalizing s with
  | nil => cases hdemand
  | cons it its ih =>
      have hmeasures := it.measures args s.arg s.base
      rw [finalStores_cons]
      cases hnull : (it.outcome args s.arg s.base).null with
      | true => exact null_mem_finalStores args string its (by simp [Outcome.apply, hnull])
      | false =>
          have hlength := hmeasures.length
          rw [hnull] at hlength
          refine ih ?_
          change demand args its (s.arg + it.slots) (it.outcome args s.arg s.base).base = none
          rw [hmeasures.base]
          rw [demand, hlength] at hdemand
          cases hrest : demand args its (s.arg + it.slots) (it.base s.base) with
          | none => rfl
          | some r =>
              rw [hrest] at hdemand
              cases hdemand

/-! ## The variables -/

variable {vars : List (U64 × Nat)}

theorem inInt_offset {ip : U64} (hfits : ip.toNat + 4 ≤ 2 ^ 64) {i : Nat} (hi : i < 4) :
    InInt ip (ip + BitVec.ofNat 64 i) := by
  rw [InInt, toNat_add_ofNat (by omega)]
  omega

theorem inInt_self (ip : U64) : InInt ip ip := ⟨le_rfl, by omega⟩

theorem OwnInts.mem_unique (h : OwnInts buf vars) {v w : U64 × Nat} (hv : v ∈ vars)
    (hw : w ∈ vars) {a : U64} (hav : InInt v.1 a) (haw : InInt w.1 a) : v = w := by
  have hsymm : Std.Symm fun v w : U64 × Nat => ∀ a, InInt v.1 a → ¬ InInt w.1 a :=
    ⟨fun _ _ hvw a hwa hva => hvw a hva hwa⟩
  by_contra hne
  exact h.apart.forall hv hw hne a hav haw

/-- The byte at the address of a variable becomes that of its count. -/
theorem OwnInts.first_byte (h : OwnInts buf vars) {v : U64 × Nat} (hv : v ∈ vars) (m : Mem) :
    storeBytes (countStores vars) m v.1 = BitVec.ofNat 8 v.2 := by
  refine @storeBytes_of_mem _ (v.1, BitVec.ofNat 8 v.2) (List.mem_map.2 ⟨v, hv, rfl⟩) ?_ m
  intro st hst haddr
  obtain ⟨w, hw, rfl⟩ := List.mem_map.1 hst
  have hself := inInt_self w.1
  have hsame : v = w := h.mem_unique hv hw (haddr ▸ hself) hself
  rw [hsame]

/-- The other three stay. -/
theorem OwnInts.other_byte (h : OwnInts buf vars) {v : U64 × Nat} (hv : v ∈ vars) {i : Nat}
    (hpos : 0 < i) (hi : i < 4) (m : Mem) :
    storeBytes (countStores vars) m (v.1 + BitVec.ofNat 64 i) = m (v.1 + BitVec.ofNat 64 i) := by
  refine storeBytes_of_ne (fun st hst haddr => ?_) m
  obtain ⟨w, hw, rfl⟩ := List.mem_map.1 hst
  have hin := inInt_offset (h.fits v hv) hi
  rw [← haddr] at hin
  obtain rfl : v = w := h.mem_unique hv hw hin (inInt_self w.1)
  have hnat : v.1.toNat = (v.1 + BitVec.ofNat 64 i).toNat := congrArg BitVec.toNat haddr
  have hfits := h.fits v hv
  rw [toNat_add_ofNat (by omega)] at hnat
  omega

/-- All the stores of a call, the terminating NUL included. -/
def callStores (fmt : CString) (args : VaList) (base : Int) (string : U64) : List (U64 × Byte) :=
  finalStores args string (items (fmt.length + 1) fmt.chars) (Printf.start string base)

theorem myprintf_callStores (fmt : CString) (args : VaList) (base : Int) (string : U64) :
    ∃ len s, myprintf (fmt.length + 1) string fmt.byte args base = some (len, s) ∧
      s.stores = callStores fmt args base string :=
  ⟨_, _, myprintf_eq fmt args base (Nat.lt_succ_self _) string, rfl⟩

variable {fmt : CString} {base : Int}

/-- A variable afterwards: the low byte of the count below what it held. -/
theorem intAt_callStores (hints : OwnInts buf (counts fmt args base)) {k : Nat}
    (hproduced : produced fmt args base = some k) (hroom : k < buf.size) (m : Mem)
    {v : U64 × Nat} (hv : v ∈ counts fmt args base) :
    intAt (storeBytes (callStores fmt args base buf.string) m) v.1 =
      256 * (intAt m v.1 / 256) + ((v.2 % 256 : Nat) : Int) := by
  obtain ⟨m', hm'⟩ : ∃ m', storeBytes (callStores fmt args base buf.string) m = m' := ⟨_, rfl⟩
  have hafter : ∀ a, InInt v.1 a → m' a = storeBytes (countStores (counts fmt args base)) m a := by
    intro a ha
    rw [← hm']
    exact storeBytes_finalStores (s := Printf.start buf.string base) (n := 0)
      (by simp [Printf.start]) hproduced (by omega) (hints.outside v hv a ha) m
  have hfirst : m' v.1 = BitVec.ofNat 8 v.2 :=
    (hafter v.1 (inInt_self v.1)).trans (hints.first_byte hv m)
  have hrest : load m' (v.1 + 1) 3 = load m (v.1 + 1) 3 := by
    refine load_congr fun i hi => ?_
    rw [← ofNat_succ_add, hafter _ (inInt_offset (hints.fits v hv) (by omega))]
    exact hints.other_byte hv (Nat.succ_pos i) (by omega) m
  have hbyte := (m v.1).isLt
  rw [hm', intAt, intAt, toInt_load_succ m' v.1 (n := 3) (by decide),
    toInt_load_succ m v.1 (n := 3) (by decide), hrest, hfirst, BitVec.toNat_ofNat]
  omega

/-- **The counts of `%n`.**  Where each `%n` has a variable of its own and the output fits into
the buffer, the variables have their counts afterwards, and nothing else has changed, if and only
if they agreed with them above the lowest byte before, and no conversion of the format has a base
that `number` refuses. -/
theorem countsStored_iff (hints : OwnInts buf (counts fmt args base))
    (hroom : ∀ k, produced fmt args base = some k → k < buf.size) (m : Mem) :
    CountsStored buf fmt args base m ↔
      (produced fmt args base).isSome ∧
        ∀ v ∈ counts fmt args base, intAt m v.1 / 256 = ((v.2 / 256 : Nat) : Int) := by
  obtain ⟨len, s, hrun, hstores⟩ := myprintf_callStores fmt args base buf.string
  constructor
  · rintro ⟨len', s', hrun', hvalue, hframe⟩
    obtain ⟨rfl, rfl⟩ := Prod.mk.inj (Option.some.inj (hrun.symm.trans hrun'))
    rw [hstores] at hvalue hframe
    cases hproduced : produced fmt args base with
    | none =>
        -- the text goes to address 0, where there is neither the buffer nor a variable
        obtain ⟨st, hst, hzero⟩ := null_store_of_demand_eq_none args buf.string
          (s := Printf.start buf.string base) hproduced
        rcases hframe st hst with hin | ⟨v, hv, hin⟩
        · rw [hzero] at hin
          exact absurd hin (not_inBuffer_null buf)
        · rw [hzero] at hin
          have hnull : v.1 = 0#64 := BitVec.eq_of_toNat_eq (Nat.le_zero.1 hin.1)
          exact absurd hnull (hints.ne_null v hv)
    | some k =>
        refine ⟨rfl, fun v hv => ?_⟩
        have hafter := intAt_callStores hints hproduced (hroom k hproduced) m hv
        rw [hvalue v hv] at hafter
        omega
  · rintro ⟨hsome, hhigh⟩
    obtain ⟨k, hproduced⟩ := Option.isSome_iff_exists.1 hsome
    refine ⟨len, s, hrun, fun v hv => ?_, fun st hst => ?_⟩
    · have hafter := intAt_callStores hints hproduced (hroom k hproduced) m hv
      rw [hstores, hafter, hhigh v hv]
      omega
    · rw [hstores] at hst
      rcases finalStores_outside (s := Printf.start buf.string base) (n := 0)
        (by simp [Printf.start]) hproduced (by have := hroom k hproduced; omega) hst with
        hold | hin | hcount
      · cases hold
      · exact Or.inl hin
      · obtain ⟨v, hv, rfl⟩ := List.mem_map.1 hcount
        exact Or.inr ⟨v, hv, inInt_self v.1⟩

/-- The variable at 0x3000. -/
def VaList.countVariable : VaList := ⟨fun _ => 0x3000, fun _ => []⟩

/-- A buffer of 1024 bytes, as `print_buf`. -/
def Buffer.sample : Buffer := ⟨0x1000, 1024, by decide, by decide, by decide⟩

theorem ownInts_singleton (n : Nat) : OwnInts Buffer.sample [(0x3000, n)] where
  ne_null := by simp
  fits := by simp
  outside := by
    simp only [List.mem_singleton, forall_eq]
    rintro a ⟨hlo, -⟩ ⟨-, hhi⟩
    have hvar : 0x3000 ≤ a.toNat := hlo
    have hbuf : a.toNat < 0x1400 := hhi
    omega
  apart := List.pairwise_singleton _ _

/-- `ab%n`, with a variable that is 0. -/
theorem countsStored_iff_two :
    CountsStored Buffer.sample (CString.ofList (['a', 'b', '%', 'n'].map ch)) VaList.countVariable
      0 fun _ => 0 := by
  have hcounts : counts (CString.ofList (['a', 'b', '%', 'n'].map ch)) VaList.countVariable 0 =
      [(0x3000, 2)] := by decide
  have hproduced : produced (CString.ofList (['a', 'b', '%', 'n'].map ch))
      VaList.countVariable 0 = some 2 := by decide
  have hints := ownInts_singleton 2
  rw [← hcounts] at hints
  refine (countsStored_iff hints (fun k hk => ?_) _).2 ⟨by rw [hproduced]; rfl, ?_⟩
  · obtain rfl : 2 = k := Option.some.inj (hproduced.symm.trans hk)
    decide
  · rw [hcounts]
    simp only [List.mem_singleton, forall_eq]
    decide

/-- `%300c%n`, with the same variable: 300 characters, and 44 is stored. -/
theorem count_of_300 :
    OwnInts Buffer.sample (counts (CString.ofList (['%', '3', '0', '0', 'c', '%', 'n'].map ch))
        VaList.countVariable 0) ∧
      ¬ CountsStored Buffer.sample (CString.ofList (['%', '3', '0', '0', 'c', '%', 'n'].map ch))
        VaList.countVariable 0 fun _ => 0 := by
  have hcounts : counts (CString.ofList (['%', '3', '0', '0', 'c', '%', 'n'].map ch))
      VaList.countVariable 0 = [(0x3000, 300)] := by decide +kernel
  have hproduced : produced (CString.ofList (['%', '3', '0', '0', 'c', '%', 'n'].map ch))
      VaList.countVariable 0 = some 300 := by decide +kernel
  have hints := ownInts_singleton 300
  rw [← hcounts] at hints
  refine ⟨hints, ?_⟩
  rintro ⟨len, s, hrun, hvalue, -⟩
  obtain ⟨len', s', hrun', hstores⟩ := myprintf_callStores
    (CString.ofList (['%', '3', '0', '0', 'c', '%', 'n'].map ch)) VaList.countVariable 0
    Buffer.sample.string
  obtain ⟨rfl, rfl⟩ := Prod.mk.inj (Option.some.inj (hrun.symm.trans hrun'))
  have hv : ((0x3000, 300) : U64 × Nat) ∈ counts
      (CString.ofList (['%', '3', '0', '0', 'c', '%', 'n'].map ch)) VaList.countVariable 0 := by
    rw [hcounts]
    exact List.mem_singleton_self _
  have hafter := intAt_callStores hints hproduced (by decide) (fun _ => 0) hv
  rw [← hstores, hvalue _ hv] at hafter
  revert hafter
  decide

end Arm64OS
