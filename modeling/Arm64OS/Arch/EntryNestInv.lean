import Arm64OS.Arch.EntryNest

/-!
# The invariant of nested interrupts

In the machine of `EntryNest`, every open interruption has its frame where its
`eret` will look for it, on the stack of the running task and on those of the tasks that are
switched out.  While the processor is in the entry code, the invariant speaks about the state
that the code is heading for.
-/

namespace Arm64OS

open A64 ByteMem

/-! ## The mask -/

/-- The mask in front of the statements that a C function has yet to do. -/
def maskedBefore : List CStmt → Bool
  | .irqDisable :: _ => false
  | _ => true

/-- Each statement leads to the mask that the next one expects. -/
def Disciplined : List CStmt → Prop
  | [] => True
  | .irqEnable :: todo => maskedBefore todo = false ∧ Disciplined todo
  | .irqDisable :: todo => maskedBefore todo = true ∧ Disciplined todo
  | .switchTo :: todo => maskedBefore todo = true ∧ Disciplined todo

theorem disciplined_stmts (f : CFunction) :
    Disciplined f.stmts ∧ maskedBefore f.stmts = true := by
  cases f with
  | irqHandler => exact ⟨trivial, rfl⟩
  | preemptScheduleIrq => exact ⟨⟨rfl, rfl, rfl, rfl, rfl, trivial⟩, rfl⟩

theorem masked_irqDisable (s : State) :
    ({ s with pstate := s.pstate ||| irqMask } : State).masked = true := by
  show (s.pstate ||| irqMask).getLsbD 7 = true
  simp [irqMask]

theorem masked_irqEnable (s : State) :
    ({ s with pstate := s.pstate &&& ~~~irqMask } : State).masked = false := by
  show (s.pstate &&& ~~~irqMask).getLsbD 7 = false
  simp [irqMask]

/-! ## Stacks -/

/-- C code, or the code at the bottom, runs with these activations and that mask. -/
def Runs : List Activation → Bool → Prop
  | [], _ => True
  | .call _ todo :: _, mask => mask = maskedBefore todo
  | .irq _ :: _, _ => False

/-- Where a C function goes when it returns: behind its call in `el1_irq`, or through
`el1_preempt`, which has its own return address in `x24`. -/
def ReturnsTo (img : EntryImage) (entry : State) : Prop :=
  entry.x lr = img.text.at 73 ∨
    entry.x lr = img.text.at 106 ∧ entry.x 24 = img.text.addr .el1IrqOut

/-- The frames of the open interruptions are in place. -/
def StackOk (img : EntryImage) (mem : Mem) (t : Word) : List Activation → Prop
  | [] => True
  | .irq found :: rest =>
      t.toNat + taskSize + 320 ≤ found.sp.toNat ∧ found.sp.toNat ≤ lowest t rest ∧
        Cells mem (found.sp - sFrameSize) found.words ∧ Runs rest (found.pstate.getLsbD 7) ∧
        StackOk img mem t rest
  | .call entry todo :: rest =>
      (∃ found rest', rest = .irq found :: rest' ∧ entry.sp = found.sp - sFrameSize) ∧
        ReturnsTo img entry ∧ Disciplined todo ∧ StackOk img mem t rest

theorem toNat_frame {t sp : Word} (h : t.toNat + taskSize + 320 ≤ sp.toNat) :
    (sp - sFrameSize).toNat = sp.toNat - 320 := by
  have hsize : sFrameSize.toNat = 320 := rfl
  have hlt := sp.isLt
  rw [BitVec.toNat_sub, hsize]
  omega

theorem StackOk.lowest_le {img : EntryImage} {mem : Mem} {t : Word} {acts : List Activation}
    (h : StackOk img mem t acts) : lowest t acts ≤ t.toNat + 4096 := by
  induction acts with
  | nil => exact Nat.le_refl _
  | cons a rest ih =>
      cases a with
      | irq found =>
          obtain ⟨hroom, hle, -, -, hrest⟩ := h
          have hframe := toNat_frame hroom
          have hrest' := ih hrest
          show (found.sp - sFrameSize).toNat ≤ _
          omega
      | call entry todo =>
          obtain ⟨⟨found, rest', hrest, hsp⟩, -, -, hsound⟩ := h
          have hrest' := ih hsound
          rw [hrest] at hrest'
          show entry.sp.toNat ≤ _
          rw [hsp]
          exact hrest'

/-- Only the part of the stack that the activations own matters. -/
theorem StackOk.sameOn {img : EntryImage} {mem mem' : Mem} {t : Word} {acts : List Activation}
    (haligned : t.toNat % 4096 = 0) (h : StackOk img mem t acts) {lo : Nat} (hlo : lo ≤ lowest t acts)
    (hsame : SameOn lo (t.toNat + 4096) mem mem') : StackOk img mem' t acts := by
  have hlt := t.isLt
  induction acts with
  | nil => trivial
  | cons a rest ih =>
      cases a with
      | irq found =>
          obtain ⟨hroom, hle, hcells, hruns, hrest⟩ := h
          have hframe := toNat_frame hroom
          have hbound := hrest.lowest_le
          have hlo' : lo ≤ found.sp.toNat - 320 := hframe ▸ hlo
          have hcells' : Cells mem' (found.sp - sFrameSize) found.words :=
            hcells.sameOn hsame (by rw [found.length_words]; omega) (by omega)
              (by rw [found.length_words]; omega)
          exact ⟨hroom, hle, hcells', hruns, ih hrest (by omega)⟩
      | call entry todo =>
          obtain ⟨⟨found, rest', hrest, hsp⟩, hreturns, htodo, hsound⟩ := h
          refine ⟨⟨found, rest', hrest, hsp⟩, hreturns, htodo, ih hsound ?_⟩
          rw [hrest]
          show lo ≤ (found.sp - sFrameSize).toNat
          rw [← hsp]
          exact hlo

/-- A task that is switched out: its context is in place, and so are its frames. -/
structure AwayOk (img : EntryImage) (mem : Mem) (u : Word) (acts : List Activation)
    (c : CpuContext) : Prop where
  aligned : u.toNat % 4096 = 0
  context : Cells mem (u + threadCpuContext) c.words
  low : u.toNat + taskSize ≤ c.sp.toNat
  high : c.sp.toNat ≤ lowest u acts
  runs : Runs acts true
  sound : StackOk img mem u acts

theorem toNat_context {u : Word} (haligned : u.toNat % 4096 = 0) :
    (u + threadCpuContext).toNat = u.toNat + 16 := by
  have hlt := u.isLt
  exact toNat_add_ofNat (i := 16) (by omega)

theorem AwayOk.sameOn {img : EntryImage} {mem mem' : Mem} {u : Word} {acts : List Activation}
    {c : CpuContext} (h : AwayOk img mem u acts c)
    (hcontext : SameOn (u.toNat + 16) (u.toNat + 120) mem mem')
    (hstack : SameOn c.sp.toNat (u.toNat + 4096) mem mem') : AwayOk img mem' u acts c := by
  have hlt := u.isLt
  have haligned := h.aligned
  have haddr := toNat_context haligned
  refine ⟨haligned, h.context.sameOn hcontext ?_ (by omega) ?_, h.low, h.high, h.runs,
    h.sound.sameOn haligned h.high hstack⟩
  · rw [c.length_words]
    omega
  · rw [c.length_words]
    omega

/-- Stores into the page of another task do not matter. -/
theorem AwayOk.otherPage {img : EntryImage} {mem mem' : Mem} {u : Word} {acts : List Activation}
    {c : CpuContext} (h : AwayOk img mem u acts c)
    (hpage : SameOn u.toNat (u.toNat + 4096) mem mem') : AwayOk img mem' u acts c := by
  have hlow := h.low
  exact h.sameOn (hpage.mono (by omega) (by omega)) (hpage.mono (by omega) (Nat.le_refl _))

theorem pages_apart {t u : Word} (ht : t.toNat % 4096 = 0) (hu : u.toNat % 4096 = 0) (hne : u ≠ t) :
    t.toNat + 4096 ≤ u.toNat ∨ u.toNat + 4096 ≤ t.toNat := by
  have hval : u.toNat ≠ t.toNat := fun h => hne (BitVec.eq_of_toNat_eq h)
  omega

/-! ## The invariant -/

/-- Where the entry code is heading: for the call of a C function, or for the `eret` of the
innermost interruption. -/
def Heads (img : EntryImage) (t : Word) (acts : List Activation) (u : State) : Prop :=
  ∃ found rest, acts = .irq found :: rest ∧ StackOk img u.mem t acts ∧
    ((∃ f : CFunction, u.pc = img.text.addr f.label) ∧ u.sp = found.sp - sFrameSize ∧
        ReturnsTo img u ∨
      img.text.fetch u.pc = some .eret ∧ u.x = found.x ∧ u.sp = found.sp ∧ u.elr = found.pc ∧
        u.spsr = found.pstate)

/-- The tasks that are switched out. -/
def OthersOk (img : EntryImage) (m : NestState) (mem : Mem) : Prop :=
  ∀ v c, m.away v = some c → AwayOk img mem v (m.activations v) c

structure InCode (img : EntryImage) (m : NestState) : Prop where
  aligned : m.current.toNat % 4096 = 0
  home : m.away m.current = none
  low : m.current.toNat + taskSize ≤ m.cpu.sp.toNat
  high : m.cpu.sp.toNat ≤ lowest m.current (m.activations m.current)
  runs : Runs (m.activations m.current) m.cpu.masked
  sound : StackOk img m.cpu.mem m.current (m.activations m.current)
  others : OthersOk img m m.cpu.mem

structure InEntry (img : EntryImage) (m : NestState) (u : State) : Prop where
  aligned : m.current.toNat % 4096 = 0
  home : m.away m.current = none
  masked : m.cpu.masked = true
  leads : img.text.Leads m.cpu u
  heads : Heads img m.current (m.activations m.current) u
  others : OthersOk img m u.mem

structure InSwitch (img : EntryImage) (m : NestState) (next : Word) (u : State) : Prop where
  masked : m.cpu.masked = true
  leads : img.text.Leads m.cpu u
  fetch : img.text.fetch u.pc = some (.ret lr)
  back : m.away next = some (cpuContextOf u)
  others : OthersOk img m u.mem

inductive NestInv (img : EntryImage) (m : NestState) : Prop
  | code (hmode : m.mode = .code) (h : InCode img m)
  | entry {u : State} (hmode : m.mode = .entry) (h : InEntry img m u)
  | switching {next : Word} {u : State} (hmode : m.mode = .switching next)
      (h : InSwitch img m next u)

theorem NestState.Initial.inv (img : EntryImage) {m : NestState} (h : m.Initial) :
    NestInv img m := by
  refine NestInv.code h.mode ⟨h.aligned, h.away _, h.low, ?_, ?_, ?_, ?_⟩
  · rw [h.activations]
    exact h.high
  · rw [h.activations]
    trivial
  · rw [h.activations]
    trivial
  · intro v c hv
    rw [h.away] at hv
    cases hv

/-- C functions are not part of the text. -/
theorem EntryImage.fetch_function (img : EntryImage) (f : CFunction) :
    img.text.fetch (img.text.addr f.label) = none := by
  cases f with
  | irqHandler => exact img.outside .irqHandler rfl
  | preemptScheduleIrq => exact img.outside .preemptScheduleIrq rfl

theorem InCode.ne_of_away {img : EntryImage} {m : NestState} (h : InCode img m) {v : Word}
    {c : CpuContext} (hv : m.away v = some c) : v ≠ m.current := by
  rintro rfl
  rw [h.home] at hv
  cases hv

theorem activations_setActivations (m : NestState) (acts : List Activation) :
    (m.setActivations acts).activations m.current = acts :=
  Function.update_self ..

theorem OthersOk.setActivations {img : EntryImage} {m : NestState} {mem : Mem}
    (h : OthersOk img m mem) (hhome : m.away m.current = none) (acts : List Activation) :
    OthersOk img (m.setActivations acts) mem := by
  intro v c hv
  have hne : v ≠ m.current := by
    rintro rfl
    rw [show m.away m.current = some c from hv] at hhome
    cases hhome
  have hacts : (m.setActivations acts).activations v = m.activations v :=
    Function.update_of_ne hne ..
  rw [hacts]
  exact h v c hv

/-- Code that goes on with other activations open. -/
theorem InCode.of_activations {img : EntryImage} {m : NestState} {acts : List Activation} {s : State}
    (haligned : m.current.toNat % 4096 = 0) (hhome : m.away m.current = none)
    (hlow : m.current.toNat + taskSize ≤ s.sp.toNat) (hhigh : s.sp.toNat ≤ lowest m.current acts)
    (hruns : Runs acts s.masked) (hsound : StackOk img s.mem m.current acts)
    (hothers : OthersOk img m s.mem) :
    InCode img { m.setActivations acts with cpu := s, mode := .code } := by
  have hacts := activations_setActivations m acts
  refine ⟨haligned, hhome, hlow, ?_, ?_, ?_, hothers.setActivations hhome acts⟩
  · show s.sp.toNat ≤ lowest m.current ((m.setActivations acts).activations m.current)
    rw [hacts]
    exact hhigh
  · show Runs ((m.setActivations acts).activations m.current) s.masked
    rw [hacts]
    exact hruns
  · show StackOk img s.mem m.current ((m.setActivations acts).activations m.current)
    rw [hacts]
    exact hsound

/-! ## Steps -/

/-- An interrupt. -/
theorem InCode.irq {img : EntryImage} {m : NestState} (h : InCode img m)
    (hroom : m.current.toNat + taskSize + 320 ≤ m.cpu.sp.toNat) :
    ∃ u, InEntry img (m.interrupted img) u := by
  obtain ⟨u, hleads, hpc, hsp, hlr, hmem⟩ := img.leads_irqHandler m.cpu
  have hlt := m.current.isLt
  have haligned := h.aligned
  have hframe := toNat_frame hroom
  have hhigh := h.high
  have hbound := h.sound.lowest_le
  have hlength : (kernelContext m.cpu).words.length = 34 := rfl
  have hcells : Cells u.mem (m.cpu.sp - sFrameSize) (kernelContext m.cpu).words := by
    rw [hmem]
    exact cells_storeCells _ (by omega) _
  have hsame : SameOn m.cpu.sp.toNat (m.current.toNat + 4096) m.cpu.mem u.mem := by
    rw [hmem]
    exact sameOn_storeCells _ (by omega) (by omega) _
  have hsound : StackOk img u.mem m.current
      (.irq (kernelContext m.cpu) :: m.activations m.current) :=
    ⟨hroom, hhigh, hcells, h.runs, h.sound.sameOn haligned hhigh hsame⟩
  have hothers : OthersOk img m u.mem := by
    intro v c hv
    have haway := h.others v c hv
    have hapart := pages_apart haligned haway.aligned (h.ne_of_away hv)
    refine haway.otherPage ?_
    rw [hmem]
    exact sameOn_storeCells _ (by omega) (by omega) _
  have hheads : Heads img m.current (.irq (kernelContext m.cpu) :: m.activations m.current) u :=
    ⟨_, _, rfl, hsound, Or.inl ⟨⟨.irqHandler, hpc⟩, hsp, Or.inl hlr⟩⟩
  refine ⟨u, haligned, h.home, masked_takeException _ _, hleads, ?_,
    hothers.setActivations h.home _⟩
  exact (activations_setActivations m _).symm ▸ hheads

/-- An instruction on the way. -/
theorem InEntry.instr {img : EntryImage} {m : NestState} {u s : State} (h : InEntry img m u)
    (hstays : img.text.Stays m.cpu) (hstep : img.text.step m.cpu = some s) :
    InEntry img { m with cpu := s } u := by
  have hleads : img.text.Leads s u := by
    rcases h.leads.of_step hstep with hend | hrest
    · exfalso
      obtain ⟨found, rest, -, -, ⟨⟨f, hpc⟩, -, -⟩ | ⟨hfetch, -⟩⟩ := h.heads
      · rw [← hend] at hpc
        exact Program.not_stays_of_none (hpc ▸ img.fetch_function f) hstays
      · rw [← hend] at hfetch
        exact Program.not_stays_of_fetch hfetch rfl hstays
    · exact hrest
  exact ⟨h.aligned, h.home, img.text.masked_step hstep hstays h.masked, hleads, h.heads, h.others⟩

theorem InSwitch.instr {img : EntryImage} {m : NestState} {next : Word} {u s : State}
    (h : InSwitch img m next u) (hstays : img.text.Stays m.cpu)
    (hstep : img.text.step m.cpu = some s) : InSwitch img { m with cpu := s } next u := by
  have hleads : img.text.Leads s u := by
    rcases h.leads.of_step hstep with rfl | hrest
    · exact absurd hstays (Program.not_stays_of_fetch h.fetch rfl)
    · exact hrest
  exact ⟨img.text.masked_step hstep hstays h.masked, hleads, h.fetch, h.back, h.others⟩

/-- The call of a C function. -/
theorem InEntry.call {img : EntryImage} {m : NestState} {u : State} (h : InEntry img m u)
    {f : CFunction} (hpc : m.cpu.pc = img.text.addr f.label) :
    InCode img { m.setActivations (.call m.cpu f.stmts :: m.activations m.current) with
      mode := .code } := by
  have hfetch : img.text.fetch m.cpu.pc = none := by rw [hpc, img.fetch_function f]
  obtain rfl := h.leads.eq_of_not_stays (Program.not_stays_of_none hfetch)
  obtain ⟨hdisciplined, hmask⟩ := disciplined_stmts f
  obtain ⟨found, rest, hacts, hsound, ⟨-, hsp, hreturns⟩ | ⟨heret, -⟩⟩ := h.heads
  · have hlow : m.current.toNat + taskSize ≤ m.cpu.sp.toNat := by
      rw [hacts] at hsound
      obtain ⟨hroom, -⟩ := hsound
      rw [hsp, toNat_frame hroom]
      omega
    exact InCode.of_activations h.aligned h.home hlow (Nat.le_refl _) (h.masked.trans hmask.symm)
      ⟨⟨found, rest, hacts, hsp⟩, hreturns, hdisciplined, hsound⟩ h.others
  · rw [hfetch] at heret
    cases heret

/-- What the `eret` of an interruption finds: everything is as the interruption found it. -/
theorem InEntry.at_eret {img : EntryImage} {m : NestState} {u s : State} (h : InEntry img m u)
    (hfetch : img.text.fetch m.cpu.pc = some .eret) (hstep : img.text.step m.cpu = some s)
    {found : Context} {rest : List Activation} (hacts : m.activations m.current = .irq found :: rest) :
    s.x = found.x ∧ s.sp = found.sp ∧ s.pc = found.pc ∧ s.pstate = found.pstate ∧
      s.mem = m.cpu.mem ∧ m.cpu = u := by
  obtain rfl := h.leads.eq_of_not_stays (Program.not_stays_of_fetch hfetch rfl)
  rw [Program.step, hfetch] at hstep
  obtain rfl := Option.some.inj hstep
  obtain ⟨found', rest', hacts', -, ⟨⟨f, hpc⟩, -, -⟩ | ⟨-, hx, hsp, helr, hspsr⟩⟩ := h.heads
  · rw [hpc, img.fetch_function f] at hfetch
    cases hfetch
  · rw [hacts] at hacts'
    obtain ⟨hirq, -⟩ := List.cons.inj hacts'
    obtain rfl : found = found' := Activation.irq.inj hirq
    exact ⟨hx, hsp, helr, hspsr, rfl, rfl⟩

theorem InEntry.eret {img : EntryImage} {m : NestState} {u s : State} (h : InEntry img m u)
    (hfetch : img.text.fetch m.cpu.pc = some .eret) (hstep : img.text.step m.cpu = some s)
    {found : Context} {rest : List Activation} (hacts : m.activations m.current = .irq found :: rest) :
    InCode img { m.setActivations rest with cpu := s, mode := .code } := by
  obtain ⟨hx, hsp, hpc, hpstate, hmem, rfl⟩ := h.at_eret hfetch hstep hacts
  obtain ⟨found', rest', hacts', hsound, -⟩ := h.heads
  rw [hacts] at hsound
  obtain ⟨hroom, hle, -, hruns, hrest⟩ := hsound
  have hmask : s.masked = found.pstate.getLsbD 7 := congrArg (BitVec.getLsbD · 7) hpstate
  rw [← hmask] at hruns
  rw [← hmem] at hrest
  refine InCode.of_activations h.aligned h.home ?_ ?_ hruns hrest (hmem ▸ h.others)
  · rw [hsp]
    omega
  · rw [hsp]
    exact hle

theorem OthersOk.keeps {img : EntryImage} {m : NestState} {mem : Mem}
    (h : OthersOk img m m.cpu.mem) (hkeeps : KeepsStacks m mem) : OthersOk img m mem := by
  intro v c hv
  exact (h v c hv).sameOn (hkeeps.contexts v c hv) (hkeeps.others v c hv)

theorem InCode.work {img : EntryImage} {m : NestState} {s : State} (h : InCode img m)
    (hworks : Works m s) : InCode img { m with cpu := s } := by
  refine ⟨h.aligned, h.home, hworks.low, hworks.high, ?_,
    h.sound.sameOn h.aligned (Nat.le_refl _) hworks.own, h.others.keeps hworks.toKeepsStacks⟩
  have hruns := h.runs
  show Runs (m.activations m.current) s.masked
  cases hacts : m.activations m.current with
  | nil => trivial
  | cons a rest =>
      rw [hworks.mask (by simp [hacts]), ← hacts]
      exact hruns

/-- The next statement of a C function. -/
theorem StackOk.statement {img : EntryImage} {mem : Mem} {t : Word} {entry : State} {stmt : CStmt}
    {todo : List CStmt} {rest : List Activation}
    (h : StackOk img mem t (.call entry (stmt :: todo) :: rest)) :
    StackOk img mem t (.call entry todo :: rest) ∧
      (stmt = .irqEnable → maskedBefore todo = false) ∧
      (stmt ≠ .irqEnable → maskedBefore todo = true) := by
  obtain ⟨hframe, hreturns, htodo, hsound⟩ := h
  cases stmt with
  | irqEnable =>
      refine ⟨⟨hframe, hreturns, htodo.2, hsound⟩, fun _ => htodo.1, ?_⟩
      intro hne
      exact absurd rfl hne
  | irqDisable => exact ⟨⟨hframe, hreturns, htodo.2, hsound⟩, nofun, fun _ => htodo.1⟩
  | switchTo => exact ⟨⟨hframe, hreturns, htodo.2, hsound⟩, nofun, fun _ => htodo.1⟩

/-- A statement that sets the mask. -/
theorem InCode.setMask {img : EntryImage} {m : NestState} (h : InCode img m) {entry : State}
    {stmt : CStmt} {todo : List CStmt} {rest : List Activation}
    (hacts : m.activations m.current = .call entry (stmt :: todo) :: rest) {pstate : Word}
    (hmask : pstate.getLsbD 7 = maskedBefore todo) :
    InCode img { m.setActivations (.call entry todo :: rest) with
      cpu := { m.cpu with pstate := pstate }
      mode := .code } := by
  have hhigh := h.high
  have hsound := h.sound
  rw [hacts] at hhigh hsound
  exact InCode.of_activations h.aligned h.home h.low hhigh hmask hsound.statement.1 h.others

theorem behindSwitch_cases {acts acts' : List Activation} (h : behindSwitch acts = some acts') :
    (acts = [] ∧ acts' = []) ∨ ∃ entry todo rest,
      acts = .call entry (.switchTo :: todo) :: rest ∧ acts' = .call entry todo :: rest := by
  unfold behindSwitch at h
  split at h
  · exact Or.inl ⟨rfl, (Option.some.inj h).symm⟩
  · exact Or.inr ⟨_, _, _, rfl, (Option.some.inj h).symm⟩
  · cases h

theorem behindSwitch_keeps {img : EntryImage} {mem : Mem} {t : Word} {acts acts' : List Activation}
    {mask : Bool} (h : behindSwitch acts = some acts') (hsound : StackOk img mem t acts)
    (hruns : Runs acts mask) :
    lowest t acts' = lowest t acts ∧ Runs acts' mask ∧ StackOk img mem t acts' := by
  rcases behindSwitch_cases h with ⟨rfl, rfl⟩ | ⟨entry, todo, rest, rfl, rfl⟩
  · exact ⟨rfl, hruns, hsound⟩
  · obtain ⟨hsound', -, htodo⟩ := hsound.statement
    refine ⟨rfl, ?_, hsound'⟩
    have hmask : mask = true := hruns
    exact hmask.trans (htodo nofun).symm

theorem InCode.stay {img : EntryImage} {m : NestState} (h : InCode img m) {acts : List Activation}
    (hacts : behindSwitch (m.activations m.current) = some acts) :
    InCode img { m.setActivations acts with mode := .code } := by
  obtain ⟨hlowest, hruns, hsound⟩ := behindSwitch_keeps hacts h.sound h.runs
  exact InCode.of_activations h.aligned h.home h.low (hlowest ▸ h.high) hruns hsound h.others

/-- The call of `cpu_switch_to`. -/
theorem InCode.switchTo {img : EntryImage} {m : NestState} (h : InCode img m) {next : Word}
    {acts : List Activation} (hmask : m.cpu.masked = true)
    (hacts : behindSwitch (m.activations m.current) = some acts)
    (hprev : m.cpu.x 0 = m.current) (hnext : m.cpu.x 1 = next) (hne : next ≠ m.current)
    (haway : (m.away next).isSome) :
    ∃ u, InSwitch img
      { m.setActivations acts with
        cpu := m.cpu.setPc (img.text.addr .cpuSwitchTo)
        mode := .switching next
        away := Function.update m.away m.current (some (cpuContextOf m.cpu)) } next u := by
  obtain ⟨c, hc⟩ := Option.isSome_iff_exists.1 haway
  have hlt := m.current.isLt
  have haligned := h.aligned
  have hlow := h.low
  have htask : taskSize = 168 := rfl
  have haddr := toNat_context haligned
  have hbound := h.sound.lowest_le
  have hhigh := h.high
  have hruns := h.runs
  rw [hmask] at hruns
  obtain ⟨hlowest, hruns', hsound'⟩ := behindSwitch_keeps hacts h.sound hruns
  -- the stores of `cpu_switch_to` stay in the `task_struct` of the task
  obtain ⟨mem, hmem⟩ : ∃ mem, storeCells (m.current + threadCpuContext) 0 (cpuContextOf m.cpu).words
    m.cpu.mem = mem := ⟨_, rfl⟩
  have hlength : (cpuContextOf m.cpu).words.length = 13 := rfl
  have hcontext : Cells mem (m.current + threadCpuContext) (cpuContextOf m.cpu).words := by
    rw [← hmem]
    exact cells_storeCells _ (by omega) _
  have hstack : SameOn m.cpu.sp.toNat (m.current.toNat + 4096) m.cpu.mem mem := by
    rw [← hmem]
    exact sameOn_storeCells _ (by omega) (by omega) _
  have hothers : OthersOk img m mem := by
    intro v c' hv
    have hv' := h.others v c' hv
    have hapart := pages_apart haligned hv'.aligned (h.ne_of_away hv)
    refine hv'.otherPage ?_
    rw [← hmem]
    exact sameOn_storeCells _ (by omega) (by omega) _
  obtain ⟨s, hs, hpc, hx, hsmem, hsaved⟩ : ∃ s,
      m.cpu.setPc (img.text.addr .cpuSwitchTo) = s ∧ s.pc = img.text.addr .cpuSwitchTo ∧
      s.x = m.cpu.x ∧ s.mem = m.cpu.mem ∧ cpuContextOf s = cpuContextOf m.cpu :=
    ⟨_, rfl, State.setPc_pc _ _, State.setPc_x _ _, State.setPc_mem _ _, cpuContextOf_setPc _ _⟩
  have hstored : storeCells (s.x 0 + threadCpuContext) 0 (cpuContextOf s).words s.mem = mem := by
    rw [hsaved, hx, hsmem, hprev, hmem]
  have hnextCells : Cells mem (s.x 1 + threadCpuContext) c.words := by
    rw [hx, hnext]
    exact (hothers next c hc).context
  obtain ⟨u, hleads, hfetch, hback, -, humem⟩ := img.leads_cpuSwitchTo hpc (hstored ▸ hnextCells)
  rw [hstored] at humem
  rw [← hs] at hleads
  refine ⟨u, (State.setPc_masked _ _).trans hmask, hleads, hfetch, ?_, ?_⟩
  · rw [hback, ← hc]
    exact Function.update_of_ne hne ..
  · rw [humem]
    intro v c' hv
    by_cases hcurrent : v = m.current
    · subst hcurrent
      have hc' : cpuContextOf m.cpu = c' := by
        have hself : (Function.update m.away m.current (some (cpuContextOf m.cpu))) m.current =
            some c' := hv
        rw [Function.update_self] at hself
        exact Option.some.inj hself
      have hactivations := activations_setActivations m acts
      show AwayOk img mem m.current ((m.setActivations acts).activations m.current) c'
      rw [hactivations, ← hc']
      exact ⟨haligned, hcontext, hlow, hlowest ▸ hhigh, hruns',
        hsound'.sameOn haligned (hlowest ▸ hhigh) hstack⟩
    · have hv' : m.away v = some c' := by
        rw [← hv]
        exact (Function.update_of_ne hcurrent ..).symm
      exact hothers.setActivations h.home acts v c' hv'

/-- `cpu_switch_to` returns on the stack of the next task, with the registers that this task
had when it called `cpu_switch_to`. -/
theorem InSwitch.at_return {img : EntryImage} {m : NestState} {next : Word} {u s : State}
    (h : InSwitch img m next u) (hfetch : img.text.fetch m.cpu.pc = some (.ret lr))
    (hstep : img.text.step m.cpu = some s) :
    m.cpu = u ∧ s = u.setPc (u.x lr) ∧ m.away next = some (cpuContextOf s) ∧
      s.pc = (cpuContextOf s).pc := by
  obtain rfl := h.leads.eq_of_not_stays (Program.not_stays_of_fetch hfetch rfl)
  rw [Program.step, hfetch] at hstep
  have hs : s = m.cpu.setPc (m.cpu.x lr) := (Option.some.inj hstep).symm
  rw [hs, cpuContextOf_setPc]
  exact ⟨rfl, rfl, h.back, rfl⟩

theorem InSwitch.switched {img : EntryImage} {m : NestState} {next : Word} {u s : State}
    (h : InSwitch img m next u) (hfetch : img.text.fetch m.cpu.pc = some (.ret lr))
    (hstep : img.text.step m.cpu = some s) :
    InCode img
      { m with
        cpu := s
        mode := .code
        current := next
        away := Function.update m.away next none } := by
  have hmasked := h.masked
  obtain ⟨hend, hs, hback, -⟩ := h.at_return hfetch hstep
  have hmem : s.mem = u.mem := by rw [hs, State.setPc_mem]
  have hnext := h.others next _ hback
  have hmask : s.masked = true := by rw [hs, State.setPc_masked, ← hend, hmasked]
  refine ⟨hnext.aligned, Function.update_self .., hnext.low, hnext.high, ?_, ?_, ?_⟩
  · show Runs (m.activations next) s.masked
    rw [hmask]
    exact hnext.runs
  · show StackOk img s.mem next (m.activations next)
    rw [hmem]
    exact hnext.sound
  · intro v c hv
    have hne : v ≠ next := by
      rintro rfl
      have hself : Function.update m.away v none v = some c := hv
      rw [Function.update_self] at hself
      cases hself
    have hv' : m.away v = some c := by
      rw [← hv]
      exact (Function.update_of_ne hne ..).symm
    show AwayOk img s.mem v (m.activations v) c
    rw [hmem]
    exact h.others v c hv'

/-- The return of a C function: straight to the `eret`, or to the call of the next one. -/
theorem InCode.returns {img : EntryImage} {m : NestState} (h : InCode img m) {entry s : State}
    {rest : List Activation} (hacts : m.activations m.current = .call entry [] :: rest)
    (habi : Aapcs64 entry s) (hkeeps : KeepsStacks m s.mem) (hmask : s.masked = m.cpu.masked) :
    ∃ u, InEntry img { m.setActivations rest with cpu := s, mode := .entry } u := by
  have hruns := h.runs
  have hsound := h.sound.sameOn h.aligned (Nat.le_refl _) hkeeps.own
  rw [hacts] at hruns hsound
  obtain ⟨⟨found, rest', hrest, hsp⟩, hreturns, -, hstack⟩ := hsound
  have hframe : Cells s.mem s.sp found.words := by
    rw [hrest] at hstack
    rw [habi.sp, hsp]
    exact hstack.2.2.1
  have hmasked : s.masked = true := hmask.trans hruns
  have hothers := h.others.keeps hkeeps
  -- the way to the `eret`, from where the frame is restored
  have hout : ∀ t, img.Passes s t → t.pc = img.text.addr .el1IrqOut →
      ∃ u, img.text.Leads s u ∧ u.mem = s.mem ∧ Heads img m.current rest u := by
    intro t ht hpc
    obtain ⟨u, hu, hfetch, hx, husp, helr, hspsr, humem⟩ :=
      img.leads_el1IrqOut (c := found) hpc (by rw [ht.2.2, ht.2.1]; exact hframe)
    have hmem : u.mem = s.mem := humem.trans ht.2.2
    have hback : u.sp = found.sp := by
      rw [husp, ht.2.1, habi.sp, hsp, BitVec.sub_add_cancel]
    exact ⟨u, ht.1.trans hu, hmem, found, rest', hrest, hmem ▸ hstack,
      Or.inr ⟨hfetch, hx, hback, helr, hspsr⟩⟩
  obtain ⟨u, hleads, hmem, hheads⟩ :
      ∃ u, img.text.Leads s u ∧ u.mem = s.mem ∧ Heads img m.current rest u := by
    rcases hreturns with hlr | ⟨hlr, hx24⟩
    · obtain ⟨t, ht, ⟨-, hpc⟩ | ⟨-, hpc, htlr, htx⟩⟩ := img.passes_el1IrqTail (habi.pc.trans hlr)
      · exact hout t ht hpc
      · refine ⟨t, ht.1, ht.2.2, found, rest', hrest, ht.2.2 ▸ hstack, Or.inl ?_⟩
        exact ⟨⟨.preemptScheduleIrq, hpc⟩, ht.2.1.trans (habi.sp.trans hsp), Or.inr ⟨htlr, htx⟩⟩
    · have hx : s.x 24 = img.text.addr .el1IrqOut :=
        (habi.saved 24 (by decide) (by decide)).trans hx24
      obtain ⟨t, ht, hpc⟩ := img.passes_el1PreemptReturn (habi.pc.trans hlr) hx
      exact hout t ht hpc
  refine ⟨u, h.aligned, h.home, hmasked, hleads, ?_, ?_⟩
  · exact (activations_setActivations m rest).symm ▸ hheads
  · show OthersOk img (m.setActivations rest) u.mem
    rw [hmem]
    exact hothers.setActivations h.home rest

theorem InCode.fork {img : EntryImage} {m : NestState} {s : State} (h : InCode img m)
    (hworks : Works m s) {p : Word} {c : CpuContext} (haligned : p.toNat % 4096 = 0)
    (hne : p ≠ m.current) (hcontext : Cells s.mem (p + threadCpuContext) c.words)
    (hlow : p.toNat + taskSize ≤ c.sp.toNat) (hhigh : c.sp.toNat ≤ p.toNat + 4096) :
    InCode img
      { m with
        cpu := s
        activations := Function.update m.activations p []
        away := Function.update m.away p (some c) } := by
  have hworked := h.work hworks
  have hcurrent : Function.update m.activations p [] m.current = m.activations m.current :=
    Function.update_of_ne hne.symm ..
  refine ⟨h.aligned, ?_, hworks.low, ?_, ?_, ?_, ?_⟩
  · show Function.update m.away p (some c) m.current = none
    rw [Function.update_of_ne hne.symm]
    exact h.home
  · show s.sp.toNat ≤ lowest m.current (Function.update m.activations p [] m.current)
    rw [hcurrent]
    exact hworks.high
  · show Runs (Function.update m.activations p [] m.current) s.masked
    rw [hcurrent]
    exact hworked.runs
  · show StackOk img s.mem m.current (Function.update m.activations p [] m.current)
    rw [hcurrent]
    exact hworked.sound
  · intro v c' hv
    show AwayOk img s.mem v (Function.update m.activations p [] v) c'
    by_cases hp : v = p
    · subst hp
      have hc : Function.update m.away v (some c) v = some c' := hv
      rw [Function.update_self] at hc
      obtain rfl := Option.some.inj hc
      rw [Function.update_self]
      exact ⟨haligned, hcontext, hlow, hhigh, trivial, trivial⟩
    · have hv' : m.away v = some c' := by
        rw [← hv]
        exact (Function.update_of_ne hp ..).symm
      rw [Function.update_of_ne hp]
      exact hworked.others v c' hv'

theorem NestInv.inCode {img : EntryImage} {m : NestState} (h : NestInv img m)
    (hmode : m.mode = .code) : InCode img m := by
  cases h with
  | code _ hcode => exact hcode
  | entry hentry _ => rw [hmode] at hentry; cases hentry
  | switching hswitch _ => rw [hmode] at hswitch; cases hswitch

theorem NestInv.inEntry {img : EntryImage} {m : NestState} (h : NestInv img m)
    (hmode : m.mode = .entry) : ∃ u, InEntry img m u := by
  cases h with
  | code hcode _ => rw [hmode] at hcode; cases hcode
  | entry _ hentry => exact ⟨_, hentry⟩
  | switching hswitch _ => rw [hmode] at hswitch; cases hswitch

/-- Every step keeps the invariant. -/
theorem NestInv.step {img : EntryImage} {m m' : NestState} (h : NestInv img m)
    (hstep : NestStep img m m') : NestInv img m' := by
  cases hstep with
  | irq hmask hroom =>
      cases h with
      | code _ hcode =>
          obtain ⟨u, hu⟩ := hcode.irq hroom
          exact NestInv.entry rfl hu
      | entry _ hentry =>
          rw [hentry.masked] at hmask
          cases hmask
      | switching _ hswitch =>
          rw [hswitch.masked] at hmask
          cases hmask
  | instr hmode hstays hstep =>
      cases h with
      | code hcode _ => exact absurd hcode hmode
      | entry hentry hu => exact NestInv.entry hentry (hu.instr hstays hstep)
      | switching hswitch hu => exact NestInv.switching hswitch (hu.instr hstays hstep)
  | call f hmode hpc =>
      obtain ⟨u, hu⟩ := h.inEntry hmode
      exact NestInv.code rfl (hu.call hpc)
  | eret hmode hfetch hacts hstep =>
      obtain ⟨u, hu⟩ := h.inEntry hmode
      exact NestInv.code rfl (hu.eret hfetch hstep hacts)
  | work hmode hworks => exact NestInv.code hmode ((h.inCode hmode).work hworks)
  | irqEnable hmode hacts =>
      have hsound := (h.inCode hmode).sound
      rw [hacts] at hsound
      have hmask := (masked_irqEnable m.cpu).trans (hsound.statement.2.1 rfl).symm
      exact NestInv.code rfl ((h.inCode hmode).setMask hacts hmask)
  | irqDisable hmode hacts =>
      have hsound := (h.inCode hmode).sound
      rw [hacts] at hsound
      have hmask := (masked_irqDisable m.cpu).trans (hsound.statement.2.2 nofun).symm
      exact NestInv.code rfl ((h.inCode hmode).setMask hacts hmask)
  | stay hmode hacts => exact NestInv.code rfl ((h.inCode hmode).stay hacts)
  | switchTo hmode hmask hacts hprev hnext hne haway =>
      obtain ⟨u, hu⟩ := (h.inCode hmode).switchTo hmask hacts hprev hnext hne haway
      exact NestInv.switching rfl hu
  | switched hmode hfetch hstep =>
      cases h with
      | code hcode _ => rw [hmode] at hcode; cases hcode
      | entry hentry _ => rw [hmode] at hentry; cases hentry
      | switching hswitch hu =>
          rw [hmode] at hswitch
          obtain rfl := Mode.switching.inj hswitch
          exact NestInv.code rfl (hu.switched hfetch hstep)
  | returns hmode hacts habi hkeeps hmask =>
      obtain ⟨u, hu⟩ := (h.inCode hmode).returns hacts habi hkeeps hmask
      exact NestInv.entry rfl hu
  | fork hmode hworks haligned hne hfresh hcontext hlow hhigh =>
      exact NestInv.code hmode ((h.inCode hmode).fork hworks haligned hne hcontext hlow hhigh)

end Arm64OS
