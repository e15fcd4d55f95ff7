import Arm64OS.Kernel.PromptLoop

/-!
# Runs of the loop of `start_kernel`

`promptLoop_run` says what the loop sends in every run, as a function of the bytes that it has
taken, `promptLoop_undisturbed` when all of it gets out, and `promptLoop_settles` that the loop
always gets to where everything is answered.
-/

namespace Arm64OS

/-! ## Input and output -/

namespace PromptLoop

variable {depth : Nat} {s s' : PromptLoop} {ev : PromptEvent}

/-- The bytes taken and those in the receive FIFO are what has been typed, but for the bytes
that came to a full FIFO. -/
theorem promptStep_input (hstep : promptStep depth ev s = some s') :
    (s'.taken ++ s'.rx).Sublist (s.taken ++ s.rx ++ typed [ev]) ∧
      (Undisturbed depth ev s → s'.taken ++ s'.rx = s.taken ++ s.rx ++ typed [ev]) := by
  suffices hsame : typed [ev] = [] → s'.taken ++ s'.rx = s.taken ++ s.rx by
    cases ev with
    | arrive c =>
        obtain rfl := Option.some.inj hstep
        by_cases hroom : s.rx.length < depth <;> simp [hroom, typed, Undisturbed]
    | loop => simp [hsame rfl, typed]
    | other c => simp [hsame rfl, typed]
    | drain => simp [hsame rfl, typed]
  intro hnone
  cases ev with
  | loop =>
      cases loopStep_move hstep with
      | more hpc hrx hopen => simp [hrx]
      | done hpc hrx hdone => simp [hrx, endLine]
      | _ => rfl
  | other c =>
      obtain rfl := Option.some.inj hstep
      rw [put_eq]
  | arrive c => simp [typed] at hnone
  | drain =>
      cases htx : s.tx with
      | nil => simp [promptStep, htx] at hstep
      | cons b tx =>
          simp only [promptStep, htx] at hstep
          obtain rfl := Option.some.inj hstep
          rfl

/-- The loop is not in front of a write that a full FIFO would not take. -/
def Room (depth : Nat) (s : PromptLoop) : Prop :=
  ∀ text i, s.pc = .write text i → s.tx.length < depth

/-- What a step sends, and what of it the FIFO takes. -/
def Outputs (depth : Nat) (ev : PromptEvent) (s s' : PromptLoop) : Prop :=
  ∃ out kept, s'.sent = s.sent ++ out ∧ s'.shown = s.shown ++ kept ∧ kept.Sublist out ∧
    (Room depth s → Undisturbed depth ev s → kept = out ∧ Room depth s')

theorem outputs_of_same (hsent : s'.sent = s.sent) (hshown : s'.shown = s.shown)
    (hroom : Room depth s → Undisturbed depth ev s → Room depth s') :
    Outputs depth ev s s' := by
  refine ⟨[], [], ?_, ?_, List.Sublist.refl _, fun h hquiet => ⟨rfl, hroom h hquiet⟩⟩
  · rw [hsent, List.append_nil]
  · rw [hshown, List.append_nil]

/-- Only the loop's write sends anything. -/
theorem promptStep_output (hstep : promptStep depth ev s = some s') : Outputs depth ev s s' := by
  cases ev with
  | loop =>
      cases loopStep_move hstep with
      | busy => exact outputs_of_same rfl rfl fun h _ => h
      | textEnd hpc hnul =>
          rename_i text i
          refine outputs_of_same rfl rfl fun _ _ => ?_
          cases text <;> exact fun text i hwrite => by cases hwrite
      | room hpc hne hroom => exact outputs_of_same rfl rfl fun _ _ _ _ _ => hroom
      | write hpc =>
          rename_i text i
          by_cases hroom : s.tx.length < depth
          · refine ⟨_, _, rfl, ?_, List.Sublist.refl _, fun _ _ => ⟨rfl, by simp [Room]⟩⟩
            simp [shown, put, hroom]
          · refine ⟨_, [], rfl, ?_, List.nil_sublist _, fun h => absurd (h _ _ hpc) hroom⟩
            simp [shown, put, hroom]
      | ready hpc hrx => exact outputs_of_same rfl rfl fun _ _ => by simp [Room]
      | more hpc hrx hopen => exact outputs_of_same rfl rfl fun _ _ => by simp [Room]
      | done hpc hrx hdone => exact outputs_of_same rfl rfl fun _ _ => by simp [Room, endLine]
  | other c =>
      obtain rfl := Option.some.inj hstep
      have hshown : (s.put depth .other c).shown = s.shown := by
        unfold put
        split_ifs <;> simp [shown]
      rw [put_eq] at hshown ⊢
      refine outputs_of_same rfl hshown fun _ hquiet text i hpc => ?_
      simp [Undisturbed, show s.pc = .write text i from hpc, PromptPc.isWrite] at hquiet
  | arrive c =>
      obtain rfl := Option.some.inj hstep
      split_ifs <;> exact outputs_of_same rfl rfl fun h _ => h
  | drain =>
      cases htx : s.tx with
      | nil => simp [promptStep, htx] at hstep
      | cons b tx =>
          simp only [promptStep, htx] at hstep
          obtain rfl := Option.some.inj hstep
          refine outputs_of_same rfl (by simp [shown, htx]) fun h _ text i hpc => ?_
          have hlt := h text i hpc
          rw [htx, List.length_cons] at hlt
          exact Nat.lt_of_succ_lt hlt

theorem Inv.sent_transcript (h : s.Inv) : s.sent <+: transcript s.taken := by
  cases hpc : s.pc with
  | poll text i =>
      simp only [Inv, hpc] at h
      obtain ⟨str, -, -, hsent, -⟩ := h
      exact ⟨_, hsent⟩
  | write text i =>
      simp only [Inv, hpc] at h
      obtain ⟨⟨str, -, -, hsent, -⟩, -⟩ := h
      exact ⟨_, hsent⟩
  | wait index =>
      simp only [Inv, hpc] at h
      exact h.sent ▸ List.prefix_rfl
  | read index =>
      simp only [Inv, hpc] at h
      exact h.1.sent ▸ List.prefix_rfl

end PromptLoop

/-! ## Runs -/

open PromptLoop

variable {depth : Nat} {s s' : PromptLoop} {evs : List PromptEvent} {rx printed : List Byte}

theorem typed_cons (ev : PromptEvent) (evs : List PromptEvent) :
    typed (ev :: evs) = typed [ev] ++ typed evs := by
  cases ev <;> rfl

theorem exec_input (hrun : Run.exec (promptStep depth) evs s = some s') :
    (s'.taken ++ s'.rx).Sublist (s.taken ++ s.rx ++ typed evs) ∧
      (Run.Along (promptStep depth) (Undisturbed depth) evs s →
        s'.taken ++ s'.rx = s.taken ++ s.rx ++ typed evs) := by
  induction evs generalizing s with
  | nil =>
      obtain rfl : s = s' := by simpa using hrun
      simp [typed]
  | cons ev evs ih =>
      cases hstep : promptStep depth ev s with
      | none => simp [hstep] at hrun
      | some t =>
          have hrest : Run.exec (promptStep depth) evs t = some s' := by simpa [hstep] using hrun
          obtain ⟨hsub, heq⟩ := promptStep_input hstep
          obtain ⟨hsubs, heqs⟩ := ih hrest
          rw [typed_cons, ← List.append_assoc]
          refine ⟨hsubs.trans (hsub.append_right _), fun hquiet => ?_⟩
          rw [heqs (hquiet.2 t hstep), heq hquiet.1]

theorem exec_inv (hs : s.Inv) (hrun : Run.exec (promptStep depth) evs s = some s') : s'.Inv :=
  Run.Reachable.invariant (fun _ _ _ => inv_promptStep) ⟨evs, hrun⟩ hs

/-- In an undisturbed run the FIFO takes every byte. -/
theorem exec_output (hroom : Room depth s)
    (hquiet : Run.Along (promptStep depth) (Undisturbed depth) evs s)
    (hrun : Run.exec (promptStep depth) evs s = some s') :
    ∃ out, s'.sent = s.sent ++ out ∧ s'.shown = s.shown ++ out := by
  have hkept := Run.exec_invariant
    (I := fun t => (∃ out, t.sent = s.sent ++ out ∧ t.shown = s.shown ++ out) ∧ Room depth t)
    (fun ev t t' ⟨⟨out, hsent, hshown⟩, hroom⟩ hquiet hstep => ?_)
    ⟨⟨[], by simp, by simp⟩, hroom⟩ hquiet hrun
  · exact hkept.1
  · obtain ⟨out', kept, hsent', hshown', -, heq⟩ := promptStep_output hstep
    obtain ⟨rfl, hroom'⟩ := heq hroom hquiet
    refine ⟨⟨out ++ kept, ?_, ?_⟩, hroom'⟩
    · rw [hsent', hsent, List.append_assoc]
    · rw [hshown', hshown, List.append_assoc]

theorem shown_boot : (boot rx printed).shown = [] := by
  simp [boot, shown, List.filter_map, Function.comp_def]

/-- What the loop has sent is what the bytes that it has been given ask for, as far as it has got;
and bytes of it may be lost, but none comes twice, out of turn or from elsewhere. -/
theorem promptLoop_run (hrun : Run.exec (promptStep depth) evs (boot rx printed) = some s) :
    s.shown.Sublist s.sent ∧ s.sent <+: transcript (s.taken ++ s.rx) ∧
      (s.taken ++ s.rx).Sublist (rx ++ typed evs) ∧
      (∀ i, s.pc = .wait i → s.sent = transcript s.taken) ∧ (s.loopStep depth).isSome := by
  have hinv := exec_inv inv_boot hrun
  refine ⟨?_, ?_, (exec_input hrun).1, fun i hpc => ?_, hinv.isSome_loopStep depth⟩
  · refine Run.Reachable.invariant (I := fun t => t.shown.Sublist t.sent)
      (fun ev t t' hsub hstep => ?_) ⟨evs, hrun⟩ ?_
    · obtain ⟨out, kept, hsent, hshown, hkept, -⟩ := promptStep_output hstep
      rw [hsent, hshown]
      exact hsub.append hkept
    · rw [shown_boot]
      exact List.nil_sublist _
  · exact hinv.sent_transcript.trans (transcript_mono ..)
  · simp only [PromptLoop.Inv, hpc] at hinv
    exact hinv.sent

/-- Somebody else fills the FIFO behind the look that found room. -/
def lostEvents : List PromptEvent :=
  [.loop, .drain, .loop, .other (ch 'y'), .loop, .arrive (ch 'b'), .loop]

theorem promptLoop_run_lost :
    ∃ s, Run.exec (promptStep 1) lostEvents (boot [ch 'a'] [ch 'x']) = some s ∧
      s.shown.Sublist s.sent ∧ s.sent <+: transcript (s.taken ++ s.rx) ∧
      (s.taken ++ s.rx).Sublist ([ch 'a'] ++ typed lostEvents) ∧
      (∀ i, s.pc = .wait i → s.sent = transcript s.taken) ∧ (s.loopStep 1).isSome ∧
      s.sent = [ch '>'] ∧ s.shown = [] := by
  obtain ⟨s, hrun, hsent, hshown⟩ : ∃ s,
      Run.exec (promptStep 1) lostEvents (boot [ch 'a'] [ch 'x']) = some s ∧
        s.sent = [ch '>'] ∧ s.shown = [] := ⟨_, rfl, rfl, rfl⟩
  obtain ⟨hlost, hsends, hinput, hwait, hsome⟩ := promptLoop_run hrun
  exact ⟨s, hrun, hlost, hsends, hinput, hwait, hsome, hsent, hshown⟩

/-- Where nothing disturbs the loop, its bytes on the line are exactly what was typed asks for. -/
theorem promptLoop_undisturbed
    (hrun : Run.exec (promptStep depth) evs (boot rx printed) = some s)
    (hquiet : Run.Along (promptStep depth) (Undisturbed depth) evs (boot rx printed)) :
    s.shown <+: transcript (rx ++ typed evs) ∧
      ∀ i, s.pc = .wait i → s.rx = [] → s.shown = transcript (rx ++ typed evs) := by
  have hinv := exec_inv inv_boot hrun
  have hinput : s.taken ++ s.rx = rx ++ typed evs := (exec_input hrun).2 hquiet
  obtain ⟨out, hsent, hshown⟩ := exec_output (by simp [Room, boot]) hquiet hrun
  have heq : s.shown = s.sent := by rw [hsent, hshown, shown_boot]; rfl
  rw [← hinput, heq]
  refine ⟨hinv.sent_transcript.trans (transcript_mono ..), fun i hpc hrx => ?_⟩
  simp only [PromptLoop.Inv, hpc] at hinv
  rw [hrx, List.append_nil]
  exact hinv.sent

/-- Somebody else fills the FIFO in front of a look, and the loop waits. -/
def keptEvents : List PromptEvent :=
  [.loop, .loop, .drain, .other (ch 'y'), .loop, .drain, .loop, .loop, .arrive (ch 'a'), .loop]

theorem promptLoop_undisturbed_prompt :
    ∃ s, Run.exec (promptStep 1) keptEvents (boot [] []) = some s ∧
      s.shown <+: transcript [ch 'a'] ∧
      (∀ i, s.pc = .wait i → s.rx = [] → s.shown = transcript [ch 'a']) ∧
      s.shown = promptText := by
  obtain ⟨s, hrun, hshown⟩ : ∃ s, Run.exec (promptStep 1) keptEvents (boot [] []) = some s ∧
      s.shown = promptText := ⟨_, rfl, rfl⟩
  obtain ⟨hbegins, hwait⟩ := promptLoop_undisturbed hrun (by decide)
  exact ⟨s, hrun, hbegins, hwait, hshown⟩

/-! ## The loop gets through -/

namespace PromptLoop

/-- The loop and the line, left to themselves, get from `s` to `s'`. -/
def Settles (depth : Nat) (s s' : PromptLoop) : Prop :=
  ∃ evs, (∀ ev ∈ evs, ev = .loop ∨ ev = .drain) ∧ Run.exec (promptStep depth) evs s = some s'

variable {t : PromptLoop} {text : Text} {i index : Nat} {c : Byte} {cs : List Byte}

theorem Settles.refl : Settles depth s s := ⟨[], by simp, rfl⟩

theorem Settles.trans (h : Settles depth s t) (h' : Settles depth t s') : Settles depth s s' := by
  obtain ⟨evs, hevs, hrun⟩ := h
  obtain ⟨evs', hevs', hrun'⟩ := h'
  refine ⟨evs ++ evs', List.forall_mem_append.mpr ⟨hevs, hevs'⟩, ?_⟩
  rw [Run.exec_append, hrun, Option.bind_some, hrun']

theorem Settles.loop (hstep : s.loopStep depth = some s') : Settles depth s s' :=
  ⟨[.loop], by simp, by simp [promptStep, hstep]⟩

theorem Settles.inv (h : Settles depth s s') (hs : s.Inv) : s'.Inv := by
  obtain ⟨evs, -, hrun⟩ := h
  exact exec_inv hs hrun

/-- Nothing disturbs the loop, and nothing is typed. -/
theorem quiet_of_forall (hevs : ∀ ev ∈ evs, ev = .loop ∨ ev = .drain) (s : PromptLoop) :
    typed evs = [] ∧ Run.Along (promptStep depth) (Undisturbed depth) evs s := by
  induction evs generalizing s with
  | nil => exact ⟨rfl, trivial⟩
  | cons ev evs ih =>
      have hrest := ih fun ev' hev' => hevs ev' (List.mem_cons_of_mem _ hev')
      obtain rfl | rfl := hevs ev List.mem_cons_self <;>
        exact ⟨(hrest s).1, trivial, fun s' _ => (hrest s').2⟩

theorem Settles.input (h : Settles depth s s') : s'.taken ++ s'.rx = s.taken ++ s.rx := by
  obtain ⟨evs, hevs, hrun⟩ := h
  obtain ⟨htyped, hquiet⟩ := quiet_of_forall hevs s
  rw [(exec_input hrun).2 hquiet, htyped, List.append_nil]

/-- The line takes all that is in the FIFO. -/
theorem settles_drained (s : PromptLoop) :
    Settles depth s { s with tx := [], wire := s.wire ++ s.tx } := by
  obtain ⟨pc, buf, rx, tx, wire, taken, sent⟩ := s
  induction tx generalizing wire with
  | nil => simpa using Settles.refl
  | cons b tx ih =>
      have hdrain : Settles depth ⟨pc, buf, rx, b :: tx, wire, taken, sent⟩
          ⟨pc, buf, rx, tx, wire ++ [b], taken, sent⟩ := ⟨[.drain], by simp, rfl⟩
      simpa using hdrain.trans (ih (wire ++ [b]))

/-- The loop sends the byte that it is at. -/
theorem settles_write (depth : Nat) (hpc : s.pc = .write text i) :
    ∃ s', Settles depth s s' ∧ s'.pc = .poll text (i + 1) ∧ s'.rx = s.rx ∧ s'.buf = s.buf := by
  have hstep : s.loopStep depth = some { s.put depth .loop (s.text text i) with
      sent := s.sent ++ [s.text text i], pc := .poll text (i + 1) } := by simp [loopStep, hpc]
  rw [put_eq] at hstep
  exact ⟨_, .loop hstep, rfl, rfl, rfl⟩

/-- Where the FIFO is full, the line drains it. -/
theorem settles_poll (hdepth : 0 < depth) (hpc : s.pc = .poll text i)
    (hne : s.text text i ≠ 0#8) :
    ∃ s', Settles depth s s' ∧ s'.pc = .poll text (i + 1) ∧ s'.rx = s.rx ∧ s'.buf = s.buf := by
  let t : PromptLoop := { s with tx := [], wire := s.wire ++ s.tx }
  have hstep : t.loopStep depth = some { t with pc := .write text i } := by
    have hne' : t.text text i ≠ 0#8 := by cases text <;> exact hne
    have hroom : ¬ t.flags depth &&& uartFrTxff ≠ 0#32 := by
      rw [flags_txff]
      exact Nat.not_le.mpr hdepth
    simp only [loopStep, show t.pc = .poll text i from hpc]
    rw [if_neg hne', if_neg hroom]
  have hat : PromptLoop.pc { t with pc := .write text i } = .write text i := rfl
  obtain ⟨s', hwrite, hpc', hrx, hbuf⟩ := settles_write depth hat
  exact ⟨s', (settles_drained s).trans ((Settles.loop hstep).trans hwrite), hpc', hrx, hbuf⟩

/-- `uart_send_string` gets to the NUL. -/
theorem settles_text (hdepth : 0 < depth) {left : Nat} (hnul : s.text text (i + left) = 0#8)
    (hpc : s.pc = .poll text i) :
    ∃ s', Settles depth s s' ∧ s'.pc = afterText text ∧ s'.rx = s.rx := by
  induction left generalizing s i with
  | zero =>
      have hstep : s.loopStep depth = some { s with pc := afterText text } := by
        simp only [loopStep, hpc]
        exact if_pos hnul
      exact ⟨_, .loop hstep, rfl, rfl⟩
  | succ left ih =>
      by_cases hend : s.text text i = 0#8
      · have hstep : s.loopStep depth = some { s with pc := afterText text } := by
          simp only [loopStep, hpc]
          exact if_pos hend
        exact ⟨_, .loop hstep, rfl, rfl⟩
      · obtain ⟨t, hbyte, hpc', hrx, hbuf⟩ := settles_poll hdepth hpc hend
        have hnul' : t.text text (i + 1 + left) = 0#8 := by
          rw [← hnul, Nat.add_right_comm, Nat.add_assoc]
          cases text with
          | buffer => exact congrFun hbuf _
          | _ => rfl
        obtain ⟨s', hrest, hpc'', hrx'⟩ := ih hnul' hpc'
        exact ⟨s', hbyte.trans hrest, hpc'', hrx'.trans hrx⟩

theorem Inv.settles_afterText (hdepth : 0 < depth) (h : s.Inv) (hpc : s.pc = .poll text i) :
    ∃ s', Settles depth s s' ∧ s'.pc = afterText text ∧ s'.rx = s.rx := by
  simp only [Inv, hpc] at h
  obtain ⟨str, hstr, hi, -⟩ := h
  have hnul : s.text text (i + (str.length - i)) = 0#8 := by
    rw [Nat.add_sub_cancel' hi]
    exact hstr.nul
  exact settles_text hdepth hnul hpc

/-- Behind any string, the loop gets to where it takes a line. -/
theorem Inv.settles_wait (hdepth : 0 < depth) (h : s.Inv) (hpc : s.pc = .poll text i) :
    ∃ s', Settles depth s s' ∧ (∃ k, s'.pc = .wait k) ∧ s'.rx = s.rx := by
  have hprompt : ∀ s : PromptLoop, s.Inv → s.pc = .poll .prompt 0 →
      ∃ s', Settles depth s s' ∧ (∃ k, s'.pc = .wait k) ∧ s'.rx = s.rx := by
    intro s h hpc
    obtain ⟨s', hsettles, hpc', hrx⟩ := h.settles_afterText hdepth hpc
    exact ⟨s', hsettles, ⟨0, hpc'⟩, hrx⟩
  have hnewline : ∀ s : PromptLoop, s.Inv → s.pc = .poll .newline 0 →
      ∃ s', Settles depth s s' ∧ (∃ k, s'.pc = .wait k) ∧ s'.rx = s.rx := by
    intro s h hpc
    obtain ⟨t, hsettles, hpc', hrx⟩ := h.settles_afterText hdepth hpc
    obtain ⟨s', hrest, hwait, hrx'⟩ := hprompt t (hsettles.inv h) hpc'
    exact ⟨s', hsettles.trans hrest, hwait, hrx'.trans hrx⟩
  obtain ⟨t, hsettles, hpc', hrx⟩ := h.settles_afterText hdepth hpc
  cases text with
  | prompt => exact ⟨t, hsettles, ⟨0, hpc'⟩, hrx⟩
  | buffer =>
      obtain ⟨s', hrest, hwait, hrx'⟩ := hnewline t (hsettles.inv h) hpc'
      exact ⟨s', hsettles.trans hrest, hwait, hrx'.trans hrx⟩
  | newline =>
      obtain ⟨s', hrest, hwait, hrx'⟩ := hprompt t (hsettles.inv h) hpc'
      exact ⟨s', hsettles.trans hrest, hwait, hrx'.trans hrx⟩

/-- The loop takes a byte, and gets to where it takes the next one. -/
theorem Inv.settles_read (hdepth : 0 < depth) (h : s.Inv) (hpc : s.pc = .read index)
    (hrx : s.rx = c :: cs) :
    ∃ s', Settles depth s s' ∧ (∃ k, s'.pc = .wait k) ∧ s'.rx = cs := by
  obtain ⟨t, hstep⟩ := Option.isSome_iff_exists.mp (h.isSome_loopStep depth)
  have hloop := Settles.loop hstep
  simp only [loopStep, hpc, hrx] at hstep
  split_ifs at hstep with hdone <;> obtain rfl := Option.some.inj hstep
  · obtain ⟨s', hrest, hwait, hrx'⟩ := (hloop.inv h).settles_wait hdepth rfl
    exact ⟨s', hloop.trans hrest, hwait, hrx'⟩
  · exact ⟨_, hloop, ⟨index + 1, rfl⟩, rfl⟩

theorem Inv.settles_input (hdepth : 0 < depth) (h : s.Inv) (hpc : ∃ k, s.pc = .wait k) :
    ∃ s', Settles depth s s' ∧ (∃ k, s'.pc = .wait k) ∧ s'.rx = [] := by
  generalize hcs : s.rx = cs
  induction cs generalizing s with
  | nil => exact ⟨s, .refl, hpc, hcs⟩
  | cons c cs ih =>
      obtain ⟨index, hpc⟩ := hpc
      have hstep : s.loopStep depth = some { s with pc := .read index } := by
        simp only [loopStep, hpc, flags_rxfe]
        exact if_neg (by simp [hcs])
      have hready := Settles.loop hstep
      obtain ⟨t, hread, hwait, hrx⟩ := (hready.inv h).settles_read hdepth rfl hcs
      have hloop := hready.trans hread
      obtain ⟨s', hrest, hwait', hrx'⟩ := ih (hloop.inv h) hwait hrx
      exact ⟨s', hloop.trans hrest, hwait', hrx'⟩

theorem Inv.settles (hdepth : 0 < depth) (h : s.Inv) :
    ∃ s', Settles depth s s' ∧ (∃ k, s'.pc = .wait k) ∧ s'.rx = [] := by
  have hwait : ∃ t, Settles depth s t ∧ ∃ k, t.pc = .wait k := by
    cases hpc : s.pc with
    | poll text i =>
        obtain ⟨t, hsettles, hwait, -⟩ := h.settles_wait hdepth hpc
        exact ⟨t, hsettles, hwait⟩
    | write text i =>
        obtain ⟨t, hwrite, hpc', -⟩ := settles_write depth hpc
        obtain ⟨t', hsettles, hwait, -⟩ := (hwrite.inv h).settles_wait hdepth hpc'
        exact ⟨t', hwrite.trans hsettles, hwait⟩
    | wait index => exact ⟨s, .refl, index, hpc⟩
    | read index =>
        have hrx := h
        simp only [Inv, hpc] at hrx
        obtain ⟨c, cs, hrx⟩ := List.exists_cons_of_ne_nil hrx.2
        obtain ⟨t, hsettles, hwait, -⟩ := h.settles_read hdepth hpc hrx
        exact ⟨t, hsettles, hwait⟩
  obtain ⟨t, hsettles, hwait⟩ := hwait
  obtain ⟨s', hrest, hwait', hrx⟩ := (hsettles.inv h).settles_input hdepth hwait
  exact ⟨s', hsettles.trans hrest, hwait', hrx⟩

end PromptLoop

/-- From every state the loop and the line alone get to where all that was typed is answered: all
that the loop still sends gets out, and it waits. -/
theorem promptLoop_settles (hdepth : 0 < depth)
    (hrun : Run.exec (promptStep depth) evs (boot rx printed) = some s) :
    ∃ evs' s', (∀ ev ∈ evs', ev = .loop ∨ ev = .drain) ∧
      Run.exec (promptStep depth) evs' s = some s' ∧ (∃ k, s'.pc = .wait k) ∧ s'.rx = [] ∧
      s'.tx = [] ∧ s'.sent = transcript (s.taken ++ s.rx) ∧
      ∃ out, s'.sent = s.sent ++ out ∧ s'.shown = s.shown ++ out := by
  have hinv := exec_inv inv_boot hrun
  -- the FIFO is drained first, for the loop may be in front of a write
  let t : PromptLoop := { s with tx := [], wire := s.wire ++ s.tx }
  have hdrained : Settles depth s t := settles_drained s
  obtain ⟨u, hsettles, hwait, hrx⟩ := (hdrained.inv hinv).settles hdepth
  have hlast : Settles depth u { u with tx := [], wire := u.wire ++ u.tx } := settles_drained u
  have hall := hdrained.trans (hsettles.trans hlast)
  have hinput : u.taken ++ u.rx = s.taken ++ s.rx := (hdrained.trans hsettles).input
  have hu := (hdrained.trans hsettles).inv hinv
  obtain ⟨k, hpc⟩ := hwait
  simp only [PromptLoop.Inv, hpc] at hu
  obtain ⟨evs', hevs', hexec⟩ := hsettles.trans hlast
  obtain ⟨out, hsent, hshown⟩ :=
    exec_output (fun _ _ _ => hdepth) (quiet_of_forall hevs' t).2 hexec
  obtain ⟨evs'', hevs'', hexec'⟩ := hall
  refine ⟨evs'', _, hevs'', hexec', ⟨k, hpc⟩, hrx, rfl, ?_, out, hsent, ?_⟩
  · rw [← hinput, hrx, List.append_nil]
    exact hu.sent
  · have hsame : t.shown = s.shown := by simp [t, shown]
    rw [hshown, hsame]

theorem promptLoop_settles_typed : ∃ evs s', (∀ ev ∈ evs, ev = .loop ∨ ev = .drain) ∧
    Run.exec (promptStep 1) evs (boot [ch 'a', ch '\r'] [ch 'x']) = some s' ∧
      (∃ k, s'.pc = .wait k) ∧ s'.rx = [] ∧ s'.tx = [] ∧
      s'.sent = transcript [ch 'a', ch '\r'] ∧
      ∃ out, s'.sent = [] ++ out ∧ s'.shown = (boot [ch 'a', ch '\r'] [ch 'x']).shown ++ out :=
  promptLoop_settles Nat.zero_lt_one (Run.exec_nil _)

end Arm64OS
