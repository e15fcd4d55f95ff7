import Mathlib.Logic.Relation
import Arm64OS.Printk.Bounds

/-!
# The cursor of the format

`myprintf` moves its cursor in the header of the loop, at `repeat`, in `scan_number`, behind a
`.`, behind the letters of a qualifier, and back by one where the format ends inside a
directive.  Here it is followed move by move.  What the arguments are and what is stored makes
no difference to it; `formatLoop_leads` says that these are the moves of the loop, and
`formatLoop_congr` that the loop reads nothing of the format but what is under the cursor.
-/

namespace Arm64OS

/-- Where `myprintf` stands when it looks at its cursor next, or moves it. -/
inductive Point
  /-- the test of the loop -/
  | head
  /-- `repeat` -/
  | flags
  | width
  /-- the loop of `scan_number`, for `field_width` -/
  | widthNumber
  | precision
  /-- behind the `.` -/
  | dot
  /-- the loop of `scan_number`, for `precision` -/
  | precisionNumber
  | qualifier
  /-- behind the first letter of a qualifier -/
  | qualifierNext (qualifier : Byte)
  /-- the `switch` on the conversion letter -/
  | letter
  /-- the `fmt++` of the loop -/
  | advance
  deriving DecidableEq

structure Cursor where
  point : Point
  place : Nat
  deriving DecidableEq

/-- The next move; none where the loop has ended. -/
def cursorStep (fmt : Nat → Byte) (c : Cursor) : Option Cursor :=
  let i := c.place
  match c.point with
  | .head =>
      if fmt i = 0#8 then none
      else if fmt i ≠ ch '%' then some ⟨.advance, i⟩
      else some ⟨.flags, i⟩
  | .flags =>
      if isFlag (fmt (i + 1)) then some ⟨.flags, i + 1⟩ else some ⟨.width, i + 1⟩
  | .width => if isDigit (fmt i) then some ⟨.widthNumber, i⟩ else some ⟨.precision, i⟩
  | .widthNumber =>
      if isDigit (fmt i) then some ⟨.widthNumber, i + 1⟩ else some ⟨.precision, i⟩
  | .precision => if fmt i = ch '.' then some ⟨.dot, i + 1⟩ else some ⟨.qualifier, i⟩
  | .dot => if isDigit (fmt i) then some ⟨.precisionNumber, i⟩ else some ⟨.qualifier, i⟩
  | .precisionNumber =>
      if isDigit (fmt i) then some ⟨.precisionNumber, i + 1⟩ else some ⟨.qualifier, i⟩
  | .qualifier =>
      if fmt i = ch 'h' ∨ fmt i = ch 'l' ∨ fmt i = ch 'L' then
        some ⟨.qualifierNext (fmt i), i + 1⟩
      else some ⟨.letter, i⟩
  | .qualifierNext qualifier =>
      if qualifier = ch 'l' ∧ fmt i = ch 'l' then some ⟨.letter, i + 1⟩ else some ⟨.letter, i⟩
  | .letter => if fmt i = 0#8 then some ⟨.advance, i - 1⟩ else some ⟨.advance, i⟩
  | .advance => some ⟨.head, i + 1⟩

/-- Everything the cursor goes through from `c` on until the loop ends. -/
def cursorTrace (fmt : Nat → Byte) : (fuel : Nat) → Cursor → Option (List Cursor)
  | 0, _ => none
  | fuel + 1, c =>
      match cursorStep fmt c with
      | none => some [c]
      | some c' => (cursorTrace fmt fuel c').map (c :: ·)

/-! ## The moves stay in the format -/

/-- The cursor is not behind the NUL.  Where a move forward comes next without a look at the
character it is in front of it, and where it may move back there is a character to move to. -/
def Cursor.InFormat (fmt : CString) (c : Cursor) : Prop :=
  match c.point with
  | .flags | .advance => c.place < fmt.length
  | .head => c.place ≤ fmt.length
  | _ => 0 < c.place ∧ c.place ≤ fmt.length

theorem Cursor.InFormat.place_le {fmt : CString} {c : Cursor} (h : c.InFormat fmt) :
    c.place ≤ fmt.length := by
  obtain ⟨point, i⟩ := c
  cases point <;> simp only [Cursor.InFormat] at h ⊢ <;> omega

/-- A character that is not the NUL has a place behind it. -/
theorem CString.lt_of_ne_nul (fmt : CString) {i : Nat} (hi : i ≤ fmt.length)
    (hne : fmt.byte i ≠ 0#8) : i < fmt.length := by
  refine Nat.lt_of_le_of_ne hi ?_
  rintro rfl
  exact hne fmt.nul

theorem ne_nul_of_isDigit {c : Byte} (h : isDigit c) : c ≠ 0#8 := by
  rintro rfl
  exact absurd h (by decide)

theorem ne_nul_of_isFlag {c : Byte} (h : isFlag c) : c ≠ 0#8 := by
  rintro rfl
  exact absurd h (by decide)

/-- A move that depends on a test. -/
theorem Cursor.InFormat.of_ite {fmt : CString} {p : Prop} [Decidable p] {c c₁ c₂ : Cursor}
    (hstep : (if p then some c₁ else some c₂) = some c) (h₁ : p → c₁.InFormat fmt)
    (h₂ : ¬ p → c₂.InFormat fmt) : c.InFormat fmt := by
  split_ifs at hstep with hp
  · obtain rfl := Option.some.inj hstep
    exact h₁ hp
  · obtain rfl := Option.some.inj hstep
    exact h₂ hp

theorem Cursor.InFormat.step {fmt : CString} {c c' : Cursor} (h : c.InFormat fmt)
    (hstep : cursorStep fmt.byte c = some c') : c'.InFormat fmt := by
  obtain ⟨point, i⟩ := c
  have hmore := fmt.lt_of_ne_nul h.place_le
  cases point with
  | head =>
      have hnul : fmt.byte i ≠ 0#8 := by
        intro hnul
        simp [cursorStep, hnul] at hstep
      simp only [cursorStep, if_neg hnul] at hstep
      exact .of_ite hstep (fun _ => hmore hnul) fun _ => hmore hnul
  | flags =>
      have hlt : i < fmt.length := h
      refine .of_ite hstep (fun hflag => ?_) fun _ => ?_
      · exact fmt.lt_of_ne_nul (Nat.succ_le_of_lt hlt) (ne_nul_of_isFlag hflag)
      · exact ⟨Nat.succ_pos i, Nat.succ_le_of_lt hlt⟩
  | width => exact .of_ite hstep (fun _ => h) fun _ => h
  | widthNumber =>
      refine .of_ite hstep (fun hdigit => ?_) fun _ => h
      exact ⟨Nat.succ_pos i, hmore (ne_nul_of_isDigit hdigit)⟩
  | precision =>
      refine .of_ite hstep (fun hdot => ?_) fun _ => h
      exact ⟨Nat.succ_pos i, hmore (hdot ▸ by decide)⟩
  | dot => exact .of_ite hstep (fun _ => h) fun _ => h
  | precisionNumber =>
      refine .of_ite hstep (fun hdigit => ?_) fun _ => h
      exact ⟨Nat.succ_pos i, hmore (ne_nul_of_isDigit hdigit)⟩
  | qualifier =>
      refine .of_ite hstep (fun hletter => ⟨Nat.succ_pos i, hmore ?_⟩) fun _ => h
      rcases hletter with hc | hc | hc
      all_goals
        rw [hc]
        decide
  | qualifierNext qualifier =>
      refine .of_ite hstep (fun hletter => ?_) fun _ => h
      exact ⟨Nat.succ_pos i, hmore (hletter.2 ▸ by decide)⟩
  | letter =>
      obtain ⟨hpos, hle⟩ : 0 < i ∧ i ≤ fmt.length := h
      refine .of_ite hstep (fun _ => ?_) fun hnul => hmore hnul
      exact Nat.lt_of_lt_of_le (Nat.sub_one_lt_of_lt hpos) hle
  | advance =>
      obtain rfl := Option.some.inj hstep
      exact Nat.succ_le_of_lt h

theorem Cursor.InFormat.trace {fmt : CString} {fuel : Nat} {c : Cursor} {trace : List Cursor}
    (h : c.InFormat fmt) (htrace : cursorTrace fmt.byte fuel c = some trace) :
    ∀ d ∈ trace, d.InFormat fmt := by
  induction fuel generalizing c trace with
  | zero => cases htrace
  | succ fuel ih =>
      rw [cursorTrace] at htrace
      cases hstep : cursorStep fmt.byte c with
      | none =>
          rw [hstep] at htrace
          obtain rfl := Option.some.inj htrace
          simpa using h
      | some c' =>
          rw [hstep] at htrace
          obtain ⟨rest, hrest, rfl⟩ := Option.map_eq_some_iff.1 htrace
          exact List.forall_mem_cons.2 ⟨h, ih (h.step hstep) hrest⟩

/-! ## The moves are those of the loop -/

/-- The cursor comes from `c` to `d`. -/
def CursorLeads (fmt : Nat → Byte) : Cursor → Cursor → Prop :=
  Relation.ReflTransGen fun c d => cursorStep fmt c = some d

section Leads

variable {fmt : Nat → Byte} {fuel i j : Nat} {c d : Cursor}

theorem cursorLeads_one (h : cursorStep fmt c = some d) : CursorLeads fmt c d :=
  Relation.ReflTransGen.single h

theorem flagLoop_leads {flags flags' : Flags} (h : flagLoop fmt fuel flags i = some (flags', j)) :
    CursorLeads fmt ⟨.flags, i⟩ ⟨.width, j⟩ := by
  induction fuel generalizing flags i with
  | zero => cases h
  | succ fuel ih =>
      rw [flagLoop_succ] at h
      split_ifs at h with hflag
      · exact (cursorLeads_one (by simp [cursorStep, hflag])).trans (ih h)
      · obtain ⟨-, rfl⟩ := Prod.mk.inj (Option.some.inj h)
        exact cursorLeads_one (by simp [cursorStep, hflag])

/-- `scan_number`, in front of `behind`. -/
theorem scanNumber_leads (number : Point) {behind : Point}
    (hnumber : ∀ i, cursorStep fmt ⟨number, i⟩ =
      if isDigit (fmt i) then some ⟨number, i + 1⟩ else some ⟨behind, i⟩)
    {tmp n : Int} (h : scanNumber fmt fuel tmp i = some (n, j)) :
    CursorLeads fmt ⟨number, i⟩ ⟨behind, j⟩ := by
  induction fuel generalizing tmp i with
  | zero => cases h
  | succ fuel ih =>
      rw [scanNumber] at h
      split_ifs at h with hdigit
      · exact (cursorLeads_one (by rw [hnumber, if_pos hdigit])).trans (ih h)
      · obtain ⟨-, rfl⟩ := Prod.mk.inj (Option.some.inj h)
        exact cursorLeads_one (by rw [hnumber, if_neg hdigit])

theorem scanWidth_leads {args : VaList} {flags flags' : Flags} {w : Int} {s s' : Printf}
    (h : scanWidth fmt args fuel flags i s = some (w, flags', j, s')) :
    CursorLeads fmt ⟨.width, i⟩ ⟨.precision, j⟩ := by
  by_cases hdigit : isDigit (fmt i)
  · rw [scanWidth, if_pos hdigit] at h
    obtain ⟨⟨n, k⟩, hscan, hrest⟩ := Option.bind_eq_some_iff.1 h
    obtain ⟨-, -, rfl, -⟩ := by simpa using hrest
    exact (cursorLeads_one (by simp [cursorStep, hdigit])).trans
      (scanNumber_leads .widthNumber (fun _ => rfl) hscan)
  · have hj : i = j := by
      rw [scanWidth, if_neg hdigit] at h
      split_ifs at h with hstar
      · dsimp only at h
        split_ifs at h
        · simpa using (congrArg (fun r => r.2.2.1) (Option.some.inj h))
        · simpa using (congrArg (fun r => r.2.2.1) (Option.some.inj h))
      · simpa using (congrArg (fun r => r.2.2.1) (Option.some.inj h))
    rw [← hj]
    exact cursorLeads_one (by simp [cursorStep, hdigit])

theorem scanPrecision_leads {args : VaList} {p : Int} {s s' : Printf}
    (h : scanPrecision fmt args fuel i s = some (p, j, s')) :
    CursorLeads fmt ⟨.precision, i⟩ ⟨.qualifier, j⟩ := by
  by_cases hdot : fmt i = ch '.'
  · refine (cursorLeads_one (d := ⟨.dot, i + 1⟩) (by simp [cursorStep, hdot])).trans ?_
    by_cases hdigit : isDigit (fmt (i + 1))
    · simp only [scanPrecision, if_pos hdot, if_pos hdigit] at h
      obtain ⟨⟨n, k⟩, hnumber, hrest⟩ := Option.bind_eq_some_iff.1 h
      obtain rfl : k = j := by simpa using congrArg (fun r => r.2.1) (Option.some.inj hrest)
      exact (cursorLeads_one (by simp [cursorStep, hdigit])).trans
        (scanNumber_leads .precisionNumber (fun _ => rfl) hnumber)
    · have hj : i + 1 = j := by
        simp only [scanPrecision, if_pos hdot, if_neg hdigit] at h
        split_ifs at h
        all_goals exact congrArg (fun r => r.2.1) (Option.some.inj h)
      rw [← hj]
      exact cursorLeads_one (by simp [cursorStep, hdigit])
  · rw [scanPrecision, if_neg hdot] at h
    obtain rfl : i = j := congrArg (fun r => r.2.1) (Option.some.inj h)
    exact cursorLeads_one (by simp [cursorStep, hdot])

theorem scanQualifier_leads (fmt : Nat → Byte) (i : Nat) :
    CursorLeads fmt ⟨.qualifier, i⟩ ⟨.letter, (scanQualifier fmt i).2⟩ := by
  have hne : ch 'h' ≠ ch 'l' ∧ ch 'L' ≠ ch 'h' ∧ ch 'L' ≠ ch 'l' := by decide
  have hletter : ∀ q, fmt i = q → (q = ch 'h' ∨ q = ch 'l' ∨ q = ch 'L') →
      CursorLeads fmt ⟨.qualifier, i⟩ ⟨.qualifierNext q, i + 1⟩ := by
    rintro q rfl hq
    exact cursorLeads_one (by simp [cursorStep, hq])
  by_cases hh : fmt i = ch 'h'
  · refine (hletter _ hh (by simp)).trans (cursorLeads_one ?_)
    simp [cursorStep, scanQualifier, hh, hne]
  by_cases hl : fmt i = ch 'l'
  · refine (hletter _ hl (by simp)).trans (cursorLeads_one ?_)
    by_cases hll : fmt (i + 1) = ch 'l'
    · simp [cursorStep, scanQualifier, hl, hll, hne.1.symm]
    · simp [cursorStep, scanQualifier, hl, hll, hne.1.symm]
  by_cases hL : fmt i = ch 'L'
  · refine (hletter _ hL (by simp)).trans (cursorLeads_one ?_)
    simp [cursorStep, scanQualifier, hL, hne]
  · exact cursorLeads_one (by simp [cursorStep, scanQualifier, hh, hl, hL])

/-- From the `%` of a directive to the `fmt++` behind it. -/
theorem directive_leads {args : VaList} {string : U64} {s t : Printf}
    (h : directive fmt args string fuel i s = some (j, t)) :
    CursorLeads fmt ⟨.flags, i⟩ ⟨.advance, j⟩ := by
  unfold directive at h
  obtain ⟨⟨flags, i₁⟩, hflags, h⟩ := Option.bind_eq_some_iff.1 h
  obtain ⟨⟨w, flags', i₂, s₂⟩, hwidth, h⟩ := Option.bind_eq_some_iff.1 h
  obtain ⟨⟨p, i₃, s₃⟩, hprecision, h⟩ := Option.bind_eq_some_iff.1 h
  have hlast : (if fmt (scanQualifier fmt i₃).2 = 0#8 then (scanQualifier fmt i₃).2 - 1
      else (scanQualifier fmt i₃).2) = j := congrArg Prod.fst (Option.some.inj h)
  refine ((((flagLoop_leads hflags).trans (scanWidth_leads hwidth)).trans
    (scanPrecision_leads hprecision)).trans (scanQualifier_leads fmt i₃)).trans
      (cursorLeads_one ?_)
  rw [← hlast]
  simp only [cursorStep]
  split_ifs <;> rfl

/-- The loop takes the cursor from one test to the last, which finds the NUL. -/
theorem formatLoop_leads {args : VaList} {string : U64} {s t : Printf}
    (h : formatLoop fmt args string fuel i s = some (j, t)) :
    CursorLeads fmt ⟨.head, i⟩ ⟨.head, j⟩ ∧ cursorStep fmt ⟨.head, j⟩ = none := by
  induction fuel generalizing i s with
  | zero => cases h
  | succ fuel ih =>
      rw [formatLoop] at h
      split_ifs at h with hnul hchar
      · obtain ⟨rfl, -⟩ := Prod.mk.inj (Option.some.inj h)
        exact ⟨Relation.ReflTransGen.refl, by simp [cursorStep, hnul]⟩
      · obtain ⟨hleads, hend⟩ := ih h
        have hstep : cursorStep fmt ⟨.head, i⟩ = some ⟨.advance, i⟩ := by
          simp [cursorStep, hnul, hchar]
        exact ⟨((cursorLeads_one hstep).trans (cursorLeads_one rfl)).trans hleads, hend⟩
      · obtain ⟨⟨k, t'⟩, hdirective, h⟩ := Option.bind_eq_some_iff.1 h
        obtain ⟨hleads, hend⟩ := ih h
        have hstep : cursorStep fmt ⟨.head, i⟩ = some ⟨.flags, i⟩ := by
          simp [cursorStep, hnul, hchar]
        exact ⟨(((cursorLeads_one hstep).trans (directive_leads hdirective)).trans
          (cursorLeads_one rfl)).trans hleads, hend⟩

/-- The trace of a cursor that comes to the end of the loop. -/
theorem CursorLeads.exists_trace (h : CursorLeads fmt c d) (hend : cursorStep fmt d = none) :
    ∃ fuel trace, cursorTrace fmt fuel c = some trace ∧ trace.getLast? = some d := by
  induction h using Relation.ReflTransGen.head_induction_on with
  | refl => exact ⟨1, [d], by simp [cursorTrace, hend], rfl⟩
  | @head c _ hstep _ ih =>
      obtain ⟨fuel, trace, htrace, hlast⟩ := ih
      refine ⟨fuel + 1, c :: trace, by simp [cursorTrace, hstep, htrace], ?_⟩
      rw [List.getLast?_cons, hlast]
      rfl

theorem mem_cursorTrace (h : CursorLeads fmt c d) {trace : List Cursor}
    (htrace : cursorTrace fmt fuel c = some trace) : d ∈ trace := by
  induction fuel generalizing c trace with
  | zero => cases htrace
  | succ fuel ih =>
      rw [cursorTrace] at htrace
      rcases h.cases_head with rfl | ⟨c', hstep, hrest⟩
      · cases hstep : cursorStep fmt c with
        | none =>
            rw [hstep] at htrace
            obtain rfl := Option.some.inj htrace
            exact List.mem_singleton_self c
        | some c' =>
            rw [hstep] at htrace
            obtain ⟨rest, -, rfl⟩ := Option.map_eq_some_iff.1 htrace
            exact List.mem_cons_self
      · rw [hstep] at htrace
        obtain ⟨rest, htail, rfl⟩ := Option.map_eq_some_iff.1 htrace
        exact List.mem_cons_of_mem _ (ih hrest htail)

end Leads

/-! ## Nothing else is read -/

/-- `fmt'` has the characters that the cursor finds in `fmt` from `c` on. -/
def AgreesFrom (fmt fmt' : Nat → Byte) (c : Cursor) : Prop :=
  ∀ d, CursorLeads fmt c d → fmt' d.place = fmt d.place

section Reads

variable {fmt fmt' : Nat → Byte} {fuel i : Nat} {c d : Cursor} {args : VaList}

theorem AgreesFrom.here (h : AgreesFrom fmt fmt' c) : fmt' c.place = fmt c.place :=
  h c Relation.ReflTransGen.refl

theorem AgreesFrom.leads (h : AgreesFrom fmt fmt' c) (hleads : CursorLeads fmt c d) :
    AgreesFrom fmt fmt' d :=
  fun e he => h e (hleads.trans he)

theorem AgreesFrom.step (h : AgreesFrom fmt fmt' c) (hstep : cursorStep fmt c = some d) :
    AgreesFrom fmt fmt' d :=
  h.leads (cursorLeads_one hstep)

theorem flagLoop_congr (h : AgreesFrom fmt fmt' ⟨.flags, i⟩) (flags : Flags) :
    flagLoop fmt' fuel flags i = flagLoop fmt fuel flags i := by
  induction fuel generalizing flags i with
  | zero => rfl
  | succ fuel ih =>
      rw [flagLoop_succ, flagLoop_succ]
      by_cases hflag : isFlag (fmt (i + 1))
      · have hnext := h.step (d := ⟨.flags, i + 1⟩) (by simp [cursorStep, hflag])
        rw [show fmt' (i + 1) = fmt (i + 1) from hnext.here, if_pos hflag, if_pos hflag, ih hnext]
      · have hnext := h.step (d := ⟨.width, i + 1⟩) (by simp [cursorStep, hflag])
        rw [show fmt' (i + 1) = fmt (i + 1) from hnext.here, if_neg hflag, if_neg hflag]

theorem scanNumber_congr (number : Point) {behind : Point}
    (hnumber : ∀ i, cursorStep fmt ⟨number, i⟩ =
      if isDigit (fmt i) then some ⟨number, i + 1⟩ else some ⟨behind, i⟩)
    (h : AgreesFrom fmt fmt' ⟨number, i⟩) (tmp : Int) :
    scanNumber fmt' fuel tmp i = scanNumber fmt fuel tmp i := by
  induction fuel generalizing tmp i with
  | zero => rfl
  | succ fuel ih =>
      rw [scanNumber, scanNumber, show fmt' i = fmt i from h.here]
      split_ifs with hdigit
      · exact ih (h.step (by rw [hnumber, if_pos hdigit])) _
      · rfl

theorem scanWidth_congr (h : AgreesFrom fmt fmt' ⟨.width, i⟩) (flags : Flags) (s : Printf) :
    scanWidth fmt' args fuel flags i s = scanWidth fmt args fuel flags i s := by
  have hhere : fmt' i = fmt i := h.here
  simp only [scanWidth, hhere]
  split_ifs with hdigit
  · have hnext := h.step (d := ⟨.widthNumber, i⟩) (by simp [cursorStep, hdigit])
    rw [scanNumber_congr .widthNumber (fun _ => rfl) hnext]
  all_goals rfl

theorem scanPrecision_congr (h : AgreesFrom fmt fmt' ⟨.precision, i⟩) (s : Printf) :
    scanPrecision fmt' args fuel i s = scanPrecision fmt args fuel i s := by
  have hhere : fmt' i = fmt i := h.here
  by_cases hdot : fmt i = ch '.'
  · have hnext := h.step (d := ⟨.dot, i + 1⟩) (by simp [cursorStep, hdot])
    have hhere' : fmt' (i + 1) = fmt (i + 1) := hnext.here
    simp only [scanPrecision, hhere, hhere', if_pos hdot]
    by_cases hdigit : isDigit (fmt (i + 1))
    · have hnumber := hnext.step (d := ⟨.precisionNumber, i + 1⟩) (by simp [cursorStep, hdigit])
      rw [scanNumber_congr .precisionNumber (fun _ => rfl) hnumber]
    · simp only [if_neg hdigit]
  · simp only [scanPrecision, hhere, if_neg hdot]

theorem scanQualifier_congr (h : AgreesFrom fmt fmt' ⟨.qualifier, i⟩) :
    scanQualifier fmt' i = scanQualifier fmt i := by
  have hhere : fmt' i = fmt i := h.here
  by_cases hl : fmt i = ch 'l'
  · have hnext := h.step (d := ⟨.qualifierNext (fmt i), i + 1⟩) (by simp [cursorStep, hl])
    rw [scanQualifier, scanQualifier, hhere, show fmt' (i + 1) = fmt (i + 1) from hnext.here]
  · simp only [scanQualifier, hhere, if_neg hl]

theorem directive_congr (h : AgreesFrom fmt fmt' ⟨.flags, i⟩) (string : U64) (s : Printf) :
    directive fmt' args string fuel i s = directive fmt args string fuel i s := by
  unfold directive
  rw [flagLoop_congr h]
  refine Option.bind_congr ?_
  rintro ⟨flags, i₁⟩ hflags
  dsimp only
  have h₁ := h.leads (flagLoop_leads hflags)
  rw [scanWidth_congr h₁]
  refine Option.bind_congr ?_
  rintro ⟨w, flags', i₂, s₂⟩ hwidth
  dsimp only
  have h₂ := h₁.leads (scanWidth_leads hwidth)
  rw [scanPrecision_congr h₂]
  refine Option.bind_congr ?_
  rintro ⟨p, i₃, s₃⟩ hprecision
  have h₃ := h₂.leads (scanPrecision_leads hprecision)
  have hletter := (h₃.leads (scanQualifier_leads fmt i₃)).here
  simp only [scanQualifier_congr h₃, show fmt' (scanQualifier fmt i₃).2 = _ from hletter]

theorem formatLoop_congr (h : AgreesFrom fmt fmt' ⟨.head, i⟩) (string : U64) (s : Printf) :
    formatLoop fmt' args string fuel i s = formatLoop fmt args string fuel i s := by
  induction fuel generalizing i s with
  | zero => rfl
  | succ fuel ih =>
      rw [formatLoop, formatLoop, show fmt' i = fmt i from h.here]
      split_ifs with hnul hchar
      · rfl
      · have hnext := h.step (d := ⟨.advance, i⟩) (by simp [cursorStep, hnul, hchar])
        exact ih (hnext.step rfl) _
      · have hnext := h.step (d := ⟨.flags, i⟩) (by simp [cursorStep, hnul, hchar])
        rw [directive_congr hnext]
        refine Option.bind_congr ?_
        rintro ⟨j, t⟩ hdirective
        exact ih ((hnext.leads (directive_leads hdirective)).step rfl) t

end Reads

/-- More fuel than a format has characters makes no difference. -/
theorem items_fuel {fuel fuel' : Nat} {l : List Byte} (h : l.length < fuel)
    (h' : l.length < fuel') : items fuel l = items fuel' l := by
  induction fuel generalizing fuel' l with
  | zero => omega
  | succ fuel ih =>
      obtain ⟨fuel', rfl⟩ : ∃ n, fuel' = n + 1 := ⟨fuel' - 1, by omega⟩
      cases l with
      | nil => rfl
      | cons c l =>
          have hle := length_parseDirective_le l
          rw [List.length_cons] at h h'
          rw [items, items, @ih fuel' _ (by omega) (by omega),
            @ih fuel' (parseDirective l).2 (by omega) (by omega)]

theorem formatLoop_fuel (fmt : CString) (args : VaList) (string : U64) (s : Printf) :
    ∃ t, ∀ fuel, fmt.length < fuel →
      formatLoop fmt.byte args string fuel 0 s = some (fmt.length, t) := by
  have hshort : fmt.chars.length < fmt.length + 1 := by simp
  refine ⟨runItems args string (items (fmt.length + 1) fmt.chars) s, fun fuel hfuel => ?_⟩
  have hlong : fmt.chars.length < fuel := by simpa using hfuel
  rw [formatLoop_eq fmt.suffix hlong, items_fuel hlong hshort, Nat.zero_add, CString.length_chars]

theorem myprintf_fuel (fmt : CString) (args : VaList) (string : U64) (base : Int) :
    ∃ r, ∀ fuel, fmt.length < fuel → myprintf fuel string fmt.byte args base = some r := by
  obtain ⟨t, ht⟩ := formatLoop_fuel fmt args string (Printf.start string base)
  refine ⟨(argInt (t.pos - string), { t with stores := t.stores ++ [(t.pos, 0#8)] }), ?_⟩
  intro fuel hfuel
  rw [myprintf, ht fuel hfuel]
  rfl

/-- **The cursor of the format.**  For every format and whatever the arguments are, `myprintf`
returns.  The moves of its cursor come to an end and none of them leads behind the NUL, the loop
leaves the cursor on it, and the loop reads no character of the format that is not under the
cursor in one of these moves: in any memory that has the same characters there it does the
same. -/
theorem cursor_stays (fmt : CString) (args : VaList) (string : U64) (base : Int) :
    (∃ r, ∀ fuel, fmt.length < fuel → myprintf fuel string fmt.byte args base = some r) ∧
      ∃ fuel trace, cursorTrace fmt.byte fuel ⟨.head, 0⟩ = some trace ∧
        trace.getLast? = some ⟨.head, fmt.length⟩ ∧ (∀ c ∈ trace, c.place ≤ fmt.length) ∧
        (∃ t, ∀ fuel, fmt.length < fuel →
          formatLoop fmt.byte args string fuel 0 (Printf.start string base) =
            some (fmt.length, t)) ∧
        ∀ fmt' : Nat → Byte, (∀ c ∈ trace, fmt' c.place = fmt.byte c.place) → ∀ fuel,
          formatLoop fmt' args string fuel 0 (Printf.start string base) =
              formatLoop fmt.byte args string fuel 0 (Printf.start string base) ∧
            myprintf fuel string fmt' args base = myprintf fuel string fmt.byte args base := by
  refine ⟨myprintf_fuel fmt args string base, ?_⟩
  have hloop := formatLoop_eq fmt.suffix (show _ < fmt.length + 1 by simp) args string
    (Printf.start string base)
  obtain ⟨hleads, hend⟩ := formatLoop_leads hloop
  rw [Nat.zero_add, CString.length_chars] at hleads hend
  obtain ⟨fuel, trace, htrace, hlast⟩ := hleads.exists_trace hend
  have hstart : Cursor.InFormat fmt ⟨.head, 0⟩ := Nat.zero_le _
  refine ⟨fuel, trace, htrace, hlast, fun c hc => (hstart.trace htrace c hc).place_le,
    formatLoop_fuel fmt args string _, fun fmt' hsame fuel' => ?_⟩
  have hagrees : AgreesFrom fmt.byte fmt' ⟨.head, 0⟩ :=
    fun d hd => hsame d (mem_cursorTrace hd htrace)
  have hsameLoop : formatLoop fmt' args string fuel' 0 (Printf.start string base) =
      formatLoop fmt.byte args string fuel' 0 (Printf.start string base) :=
    formatLoop_congr hagrees string _
  exact ⟨hsameLoop, by rw [myprintf, myprintf, hsameLoop]⟩

end Arm64OS
