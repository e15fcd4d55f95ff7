import Mathlib.Tactic

/-!
# Byte memory

A memory of bytes with little-endian loads and stores of any size, and rows of 64-bit cells.
Which bytes a store leaves alone is said in terms of intervals of unsigned addresses.
-/

namespace ByteMem

abbrev Word := BitVec 64

abbrev Mem := Word → BitVec 8

/-- The `n` bytes from `a` on. -/
def load (m : Mem) (a : Word) : (n : Nat) → BitVec (8 * n)
  | 0 => 0
  | n + 1 => load m (a + 1) n ++ m a

def store (a : Word) (n : Nat) (v : BitVec (8 * n)) (m : Mem) : Mem := fun b =>
  if (b - a).toNat < n then v.extractLsb' (8 * (b - a).toNat) 8 else m b

theorem ofNat_succ_add (a : Word) (i : Nat) :
    a + BitVec.ofNat 64 (i + 1) = a + 1 + BitVec.ofNat 64 i := by
  rw [BitVec.ofNat_add, BitVec.add_comm (BitVec.ofNat 64 i), ← BitVec.add_assoc]
  rfl

theorem load_congr {m m' : Mem} {a : Word} {n : Nat}
    (h : ∀ i, i < n → m (a + BitVec.ofNat 64 i) = m' (a + BitVec.ofNat 64 i)) :
    load m a n = load m' a n := by
  induction n generalizing a with
  | zero => rfl
  | succ n ih =>
      have hhead := h 0 (by omega)
      simp only [BitVec.add_zero] at hhead
      rw [load, load, hhead, ih fun i hi => ?_]
      have htail := h (i + 1) (by omega)
      rwa [ofNat_succ_add] at htail

theorem load_eq_of_bytes {m : Mem} {a : Word} {n : Nat} {v : BitVec (8 * n)}
    (h : ∀ i, i < n → m (a + BitVec.ofNat 64 i) = v.extractLsb' (8 * i) 8) : load m a n = v := by
  induction n generalizing a with
  | zero => exact (BitVec.eq_nil _).trans (BitVec.eq_nil _).symm
  | succ n ih =>
      have htail : load m (a + 1) n = v.extractLsb' 8 (8 * n) := by
        refine ih fun i hi => ?_
        rw [← ofNat_succ_add, h (i + 1) (by omega)]
        refine BitVec.eq_of_getLsbD_eq fun j hj => ?_
        have hin : 8 * i + j < 8 * n := by omega
        have hplace : 8 * (i + 1) + j = 8 + (8 * i + j) := by omega
        simp only [BitVec.getLsbD_extractLsb', hj, hin, decide_true, Bool.true_and, hplace]
      have hhead := h 0 (by omega)
      simp only [BitVec.add_zero] at hhead
      rw [load, htail, hhead]
      refine BitVec.eq_of_getLsbD_eq fun j hj => ?_
      rw [BitVec.getLsbD_append]
      by_cases hlow : j < 8
      · simp [hlow]
      · have hplace : 8 + (j - 8) = j := by omega
        have hin : j - 8 < 8 * n := by omega
        simp [hlow, hin, hplace]

theorem byte_load (m : Mem) (a : Word) {n i : Nat} (hi : i < n) :
    (load m a n).extractLsb' (8 * i) 8 = m (a + BitVec.ofNat 64 i) := by
  induction n generalizing a i with
  | zero => omega
  | succ n ih =>
      refine BitVec.eq_of_getLsbD_eq fun j hj => ?_
      cases i with
      | zero => simp [load, BitVec.getLsbD_append, hj]
      | succ i =>
          have hbyte := congrArg (BitVec.getLsbD · j) (ih (a + 1) (i := i) (by omega))
          have hhigh : ¬ 8 * (i + 1) + j < 8 := by omega
          have hplace : 8 * (i + 1) + j - 8 = 8 * i + j := by omega
          rw [ofNat_succ_add]
          simpa [load, BitVec.getLsbD_append, hj, hhigh, hplace] using hbyte

/-- The first bytes of a longer load. -/
theorem load_of_longer (m : Mem) (a : Word) {n n' : Nat} (h : n ≤ n') :
    load m a n = (load m a n').setWidth (8 * n) := by
  refine load_eq_of_bytes fun i hi => ?_
  rw [← byte_load m a (n := n') (by omega)]
  refine BitVec.eq_of_getLsbD_eq fun j hj => ?_
  have hin : 8 * i + j < 8 * n := by omega
  simp [hj, hin]

theorem toNat_offset (a : Word) {i : Nat} (hi : i < 2 ^ 64) :
    (a + BitVec.ofNat 64 i - a).toNat = i := by
  rw [BitVec.add_comm, BitVec.add_sub_cancel, BitVec.toNat_ofNat, Nat.mod_eq_of_lt hi]

theorem load_store_self (a : Word) (n : Nat) (hn : n ≤ 2 ^ 64) (v : BitVec (8 * n)) (m : Mem) :
    load (store a n v m) a n = v := by
  refine load_eq_of_bytes fun i hi => ?_
  rw [store, toNat_offset a (by omega), if_pos hi]

/-! ## Intervals -/

/-- The two memories agree on the addresses from `lo` to below `hi`. -/
def SameOn (lo hi : Nat) (m m' : Mem) : Prop :=
  ∀ a : Word, lo ≤ a.toNat → a.toNat < hi → m' a = m a

theorem SameOn.refl (lo hi : Nat) (m : Mem) : SameOn lo hi m m := fun _ _ _ => rfl

theorem SameOn.trans {lo hi : Nat} {m m' m'' : Mem} (h : SameOn lo hi m m')
    (h' : SameOn lo hi m' m'') : SameOn lo hi m m'' :=
  fun a hlo hhi => (h' a hlo hhi).trans (h a hlo hhi)

theorem SameOn.mono {lo hi lo' hi' : Nat} {m m' : Mem} (h : SameOn lo hi m m') (hlo : lo ≤ lo')
    (hhi : hi' ≤ hi) : SameOn lo' hi' m m' :=
  fun a h₁ h₂ => h a (hlo.trans h₁) (h₂.trans_le hhi)

theorem toNat_add_ofNat {a : Word} {i : Nat} (h : a.toNat + i < 2 ^ 64) :
    (a + BitVec.ofNat 64 i).toNat = a.toNat + i := by
  rw [BitVec.toNat_add, BitVec.toNat_ofNat]
  omega

theorem SameOn.load {lo hi : Nat} {m m' : Mem} (h : SameOn lo hi m m') {a : Word} {n : Nat}
    (hfits : a.toNat + n ≤ 2 ^ 64) (hlo : lo ≤ a.toNat) (hhi : a.toNat + n ≤ hi) :
    load m' a n = load m a n := by
  refine load_congr fun i hi' => ?_
  have haddr := toNat_add_ofNat (a := a) (i := i) (by omega)
  exact h _ (by omega) (by omega)

theorem sameOn_store {a : Word} {n : Nat} (hfits : a.toNat + n ≤ 2 ^ 64) {lo hi : Nat}
    (happart : hi ≤ a.toNat ∨ a.toNat + n ≤ lo) (v : BitVec (8 * n)) (m : Mem) :
    SameOn lo hi m (store a n v m) := by
  intro b hlo hhi
  refine if_neg fun hin => ?_
  rw [BitVec.toNat_sub] at hin
  omega

/-! ## Rows of cells -/

/-- Stores of 64-bit words from cell `i` of the row at `a` on. -/
def storeCells (a : Word) : (i : Nat) → List Word → Mem → Mem
  | _, [], m => m
  | i, v :: vs, m => storeCells a (i + 1) vs (store (a + BitVec.ofNat 64 (8 * i)) 8 v m)

/-- The row of cells at `a` holds the words. -/
def Cells (m : Mem) (a : Word) (vs : List Word) : Prop :=
  ∀ i (h : i < vs.length), load m (a + BitVec.ofNat 64 (8 * i)) 8 = vs[i]

theorem sameOn_storeCells (vs : List Word) {a : Word} {i : Nat}
    (hfits : a.toNat + 8 * (i + vs.length) ≤ 2 ^ 64) {lo hi : Nat}
    (happart : hi ≤ a.toNat + 8 * i ∨ a.toNat + 8 * (i + vs.length) ≤ lo) (m : Mem) :
    SameOn lo hi m (storeCells a i vs m) := by
  induction vs generalizing i m with
  | nil => exact SameOn.refl _ _ _
  | cons v vs ih =>
      simp only [List.length_cons] at hfits happart
      have haddr := toNat_add_ofNat (a := a) (i := 8 * i) (by omega)
      have hfirst : SameOn lo hi m (store (a + BitVec.ofNat 64 (8 * i)) 8 v m) :=
        sameOn_store (n := 8) (by omega) (by omega) v m
      exact hfirst.trans (ih (i := i + 1) (by omega) (by omega) _)

theorem load_storeCells (vs : List Word) {a : Word} {i j : Nat}
    (hfits : a.toNat + 8 * (i + vs.length) ≤ 2 ^ 64) (hj : j < vs.length) (m : Mem) :
    load (storeCells a i vs m) (a + BitVec.ofNat 64 (8 * (i + j))) 8 = vs[j] := by
  induction vs generalizing i j m with
  | nil => simp at hj
  | cons v vs ih =>
      simp only [List.length_cons] at hfits hj
      cases j with
      | zero =>
          -- the stores behind it leave the first cell alone
          have haddr := toNat_add_ofNat (a := a) (i := 8 * i) (by omega)
          obtain ⟨m', hm'⟩ : ∃ m', store (a + BitVec.ofNat 64 (8 * i)) 8 v m = m' := ⟨_, rfl⟩
          have hself : load m' (a + BitVec.ofNat 64 (8 * i)) 8 = v := by
            rw [← hm']
            exact load_store_self _ 8 (by decide) v m
          have hsame : SameOn 0 (a.toNat + 8 * (i + 1)) m' (storeCells a (i + 1) vs m') :=
            sameOn_storeCells vs (i := i + 1) (by omega) (by omega) _
          rw [storeCells, hm', List.getElem_cons_zero, ← hself]
          simp only [Nat.add_zero]
          exact hsame.load (n := 8) (by omega) (Nat.zero_le _) (by omega)
      | succ j =>
          have hplace : i + (j + 1) = i + 1 + j := by omega
          rw [hplace, List.getElem_cons_succ]
          exact ih (i := i + 1) (by omega) (by omega) _

theorem storeCells_append (a : Word) (i : Nat) (vs ws : List Word) (m : Mem) :
    storeCells a i (vs ++ ws) m = storeCells a (i + vs.length) ws (storeCells a i vs m) := by
  induction vs generalizing i m with
  | nil => rfl
  | cons v vs ih =>
      rw [List.cons_append, storeCells, ih, storeCells, List.length_cons, Nat.add_right_comm,
        Nat.add_assoc]

theorem add_cells (a : Word) (j i : Nat) :
    a + BitVec.ofNat 64 (8 * j) + BitVec.ofNat 64 (8 * i) = a + BitVec.ofNat 64 (8 * (j + i)) := by
  rw [BitVec.add_assoc, ← BitVec.ofNat_add, ← Nat.mul_add]

/-- The same row, counted from its cell `j` on. -/
theorem storeCells_shift (a : Word) (j i : Nat) (vs : List Word) (m : Mem) :
    storeCells (a + BitVec.ofNat 64 (8 * j)) i vs m = storeCells a (j + i) vs m := by
  induction vs generalizing i m with
  | nil => rfl
  | cons v vs ih =>
      rw [storeCells, storeCells, ih, add_cells]
      rfl

theorem cells_storeCells (vs : List Word) {a : Word} (hfits : a.toNat + 8 * vs.length ≤ 2 ^ 64)
    (m : Mem) : Cells (storeCells a 0 vs m) a vs := by
  intro j hj
  have hload := load_storeCells vs (a := a) (i := 0) (by omega) hj m
  rwa [Nat.zero_add] at hload

theorem Cells.sameOn {m m' : Mem} {a : Word} {vs : List Word} (h : Cells m a vs) {lo hi : Nat}
    (hsame : SameOn lo hi m m') (hfits : a.toNat + 8 * vs.length ≤ 2 ^ 64) (hlo : lo ≤ a.toNat)
    (hhi : a.toNat + 8 * vs.length ≤ hi) : Cells m' a vs := by
  intro i hi'
  have haddr := toNat_add_ofNat (a := a) (i := 8 * i) (by omega)
  rw [hsame.load (by omega) (by omega) (by omega)]
  exact h i hi'

/-! ## Runs of one byte -/

/-- `n` bytes of one value from `a` on. -/
def fillBytes (a : Word) (n : Nat) (v : BitVec 8) (m : Mem) : Mem := fun b =>
  if (b - a).toNat < n then v else m b

@[simp] theorem fillBytes_zero (a : Word) (v : BitVec 8) (m : Mem) : fillBytes a 0 v m = m := by
  funext b
  exact if_neg (Nat.not_lt_zero _)

/-- Where a run does not wrap, it is an interval. -/
theorem toNat_sub_lt_iff {s b : Word} {n : Nat} (h : s.toNat + n ≤ 2 ^ 64) :
    (b - s).toNat < n ↔ s.toNat ≤ b.toNat ∧ b.toNat < s.toNat + n := by
  have hb := b.isLt
  rw [BitVec.toNat_sub]
  omega

/-- How far a place lies behind the end of the first of two runs. -/
theorem toNat_sub_add (a b : Word) {n : Nat} (hn : n < 2 ^ 64) :
    (b - (a + BitVec.ofNat 64 n)).toNat =
      if n ≤ (b - a).toNat then (b - a).toNat - n else (b - a).toNat + 2 ^ 64 - n := by
  have hlt := (b - a).isLt
  have hsub : b - (a + BitVec.ofNat 64 n) = b - a - BitVec.ofNat 64 n := by
    rw [BitVec.sub_eq_add_neg, BitVec.sub_eq_add_neg, BitVec.sub_eq_add_neg, BitVec.neg_add,
      BitVec.sub_eq_add_neg, BitVec.add_assoc]
  rw [hsub, BitVec.toNat_sub, BitVec.toNat_ofNat, Nat.mod_eq_of_lt hn]
  split <;> omega

/-- A place below is one far behind. -/
theorem add_ofNat_sub (a : Word) (n : Nat) {k : Nat} (hk : k ≤ 2 ^ 64) :
    a + BitVec.ofNat 64 n - BitVec.ofNat 64 k = a + BitVec.ofNat 64 (n + (2 ^ 64 - k)) := by
  refine BitVec.eq_of_toNat_eq ?_
  simp only [BitVec.toNat_sub, BitVec.toNat_add, BitVec.toNat_ofNat]
  omega

theorem fillBytes_add (a : Word) {n k : Nat} (h : n + k ≤ 2 ^ 64) (v : BitVec 8) (m : Mem) :
    fillBytes (a + BitVec.ofNat 64 n) k v (fillBytes a n v m) = fillBytes a (n + k) v m := by
  funext b
  simp only [fillBytes]
  by_cases hall : n = 2 ^ 64
  · obtain rfl : k = 0 := by omega
    simp
  · rw [toNat_sub_add a b (by omega)]
    have hlt := (b - a).isLt
    split_ifs <;> first | rfl | omega

/-- `n` bytes from `a` on are `v`. -/
def Holds (a : Word) (n : Nat) (v : BitVec 8) (m : Mem) : Prop := ∀ b, (b - a).toNat < n → m b = v

theorem holds_add_iff (a : Word) {n k : Nat} (h : n + k ≤ 2 ^ 64) (hn : n < 2 ^ 64) (v : BitVec 8)
    (m : Mem) :
    Holds (a + BitVec.ofNat 64 n) k v m ↔
      ∀ b, n ≤ (b - a).toNat → (b - a).toNat < n + k → m b = v := by
  refine forall_congr' fun b => ?_
  have hlt := (b - a).isLt
  rw [toNat_sub_add a b hn, ← and_imp]
  refine imp_congr_left ?_
  split <;> omega

/-- Two runs instead of one: what they leave out, and what they store besides, has to hold the
value already. -/
theorem fillBytes_fillBytes_eq_iff (a a' : Word) (n n' k : Nat) (v : BitVec 8) (m : Mem) :
    fillBytes a' n' v (fillBytes a n v m) = fillBytes a k v m ↔
      ∀ b, ¬ ((b - a').toNat < n' ∨ (b - a).toNat < n ↔ (b - a).toNat < k) → m b = v := by
  rw [funext_iff]
  refine forall_congr' fun b => ?_
  simp only [fillBytes]
  generalize (b - a).toNat = x
  generalize (b - a').toNat = y
  by_cases hnew : y < n'
  · by_cases hall : x < k <;> simp [hnew, hall, eq_comm]
  · by_cases hold : x < n
    · by_cases hall : x < k <;> simp [hnew, hold, hall, eq_comm]
    · by_cases hall : x < k <;> simp [hnew, hold, hall]

/-- A shorter run is as good where the rest holds the value already. -/
theorem fillBytes_eq_fillBytes_iff (a : Word) {n k : Nat} (h : n ≤ k) (v : BitVec 8) (m : Mem) :
    fillBytes a n v m = fillBytes a k v m ↔
      ∀ b, n ≤ (b - a).toNat → (b - a).toNat < k → m b = v := by
  constructor
  · intro heq b hlo hhi
    have hbyte := congrFun heq b
    rwa [fillBytes, fillBytes, if_neg (by omega), if_pos hhi] at hbyte
  · intro hrest
    funext b
    simp only [fillBytes]
    split_ifs with hshort hlong hlong
    · rfl
    · omega
    · exact hrest b (by omega) hlong
    · rfl

/-- A store of a word whose bytes are all the same. -/
theorem store_eq_fillBytes {n : Nat} {v : BitVec (8 * n)} {c : BitVec 8}
    (hv : ∀ i, i < n → v.extractLsb' (8 * i) 8 = c) (a : Word) (m : Mem) :
    store a n v m = fillBytes a n c m := by
  funext b
  simp only [store, fillBytes]
  split
  · exact hv _ ‹_›
  · rfl

/-! ## Lists of byte stores -/

/-- The memory after the stores of a list, the first of them first. -/
def storeBytes (stores : List (Word × BitVec 8)) (m : Mem) : Mem :=
  stores.foldl (fun m st => Function.update m st.1 st.2) m

@[simp] theorem storeBytes_nil (m : Mem) : storeBytes [] m = m := rfl

@[simp] theorem storeBytes_cons (st : Word × BitVec 8) (stores : List (Word × BitVec 8)) (m : Mem) :
    storeBytes (st :: stores) m = storeBytes stores (Function.update m st.1 st.2) := rfl

theorem storeBytes_append (stores stores' : List (Word × BitVec 8)) (m : Mem) :
    storeBytes (stores ++ stores') m = storeBytes stores' (storeBytes stores m) :=
  List.foldl_append

/-- What a byte is afterwards depends on the stores and on that byte alone. -/
theorem storeBytes_congr (stores : List (Word × BitVec 8)) {m m' : Mem} {a : Word}
    (h : m a = m' a) : storeBytes stores m a = storeBytes stores m' a := by
  induction stores generalizing m m' with
  | nil => exact h
  | cons st stores ih =>
      refine ih ?_
      by_cases ha : a = st.1
      · simp [ha]
      · simp [ha, h]

theorem storeBytes_of_ne {stores : List (Word × BitVec 8)} {a : Word}
    (h : ∀ st ∈ stores, st.1 ≠ a) (m : Mem) : storeBytes stores m a = m a := by
  induction stores generalizing m with
  | nil => rfl
  | cons st stores ih =>
      obtain ⟨hne, hrest⟩ := List.forall_mem_cons.1 h
      rw [storeBytes_cons, ih hrest, Function.update_of_ne (Ne.symm hne)]

/-- A byte that all stores to its address agree on. -/
theorem storeBytes_of_mem {stores : List (Word × BitVec 8)} {st : Word × BitVec 8}
    (hst : st ∈ stores) (h : ∀ st' ∈ stores, st'.1 = st.1 → st'.2 = st.2) (m : Mem) :
    storeBytes stores m st.1 = st.2 := by
  induction stores generalizing m with
  | nil => cases hst
  | cons st' stores ih =>
      obtain ⟨hhead, hrest⟩ := List.forall_mem_cons.1 h
      rw [storeBytes_cons]
      by_cases hmem : st ∈ stores
      · exact ih hmem hrest _
      · obtain rfl := (List.mem_cons.1 hst).resolve_right hmem
        by_cases hagain : ∃ st' ∈ stores, st'.1 = st.1
        · obtain ⟨st', hst', haddr⟩ := hagain
          have hsame : st' = st := Prod.ext haddr (hrest st' hst' haddr)
          exact absurd (hsame ▸ hst') hmem
        · push Not at hagain
          rw [storeBytes_of_ne hagain, Function.update_self]

/-- A signed word by its lowest byte and the rest of it. -/
theorem toInt_load_succ (m : Mem) (a : Word) {n : Nat} (hn : 0 < n) :
    (load m a (n + 1)).toInt = 256 * (load m (a + 1) n).toInt + (m a).toNat := by
  have hwide : ¬ 8 * n = 0 := by omega
  have happend : load m a (n + 1) = load m (a + 1) n ++ m a := rfl
  rw [happend, BitVec.toInt_append]
  simp [hwide]

end ByteMem
