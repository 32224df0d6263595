import RvEmu.StatusStack
import RvEmu.StepAnatomy

/-!
# Nested traps

A supervisor handler may itself be interrupted by a machine handler. The two
levels keep their saved state in the bits of one status word, and each of the
four transitions rewrites that word with its own masks. Handlers run arbitrary
code in between, as long as it leaves the saved registers alone.

What a level saved is then still there when its handler returns: the machine
episode changes the machine's bits and gives back the supervisor's, and the
supervisor return restores the program of before.
-/

namespace RvEmu.NestedTraps

open StatusStack StepAnatomy ExecOutcome

/-! ## Disciplined handlers -/

/-- The registers a supervisor handler must preserve. -/
def supervisorGuard : List CsrName := [.mstatus, .sstatus, .sepc, .scause, .stval]

/-- The registers a machine handler must preserve. -/
def machineGuard : List CsrName := .mepc :: supervisorGuard

/-- The instruction does not write the register: if it is a CSR instruction for it,
    the value it stores is the value it read. -/
def Spares (emu : Emulator) (inst : DecodedInst) (name : CsrName) : Prop :=
  ∀ val, inst.opcode = .system → name.number = inst.imm →
    csrOperand inst (csrValue emu.csr name) (regRead emu.rf inst.rs1) = some val →
    val = csrValue emu.csr name

/-- A step of a handler's own code: no trap, no return, and no write to a guarded
    register. -/
structure Disciplined (host : HostFloat) (guarded : List CsrName) (emu : Emulator) : Prop where
  calm : ¬ TakesTrap (emuStep host emu).1
  inside : ∀ ready inst, issued emu = some (ready, inst) → inst.raw ≠ rawMret ∧ inst.raw ≠ rawSret
  spares : ∀ ready inst name, issued emu = some (ready, inst) → name ∈ guarded →
    Spares ready inst name

/-- The step takes a trap into the handler of a level. -/
def Enters (host : HostFloat) (emu : Emulator) (level : Word) : Prop :=
  TakesTrap (emuStep host emu).1 ∧ (emuStep host emu).2.priv = level

/-- The step issues the instruction with this encoding. -/
def Issues (emu : Emulator) (raw : Word) : Prop :=
  ∃ ready inst, issued emu = some (ready, inst) ∧ inst.raw = raw

/-- A supervisor trap whose handler is interrupted once by a machine trap: the
    supervisor trap is the first step, the machine trap the step at `a`, its `mret`
    the step at `b`, and the `sret` the step at `c`. -/
structure NestedRun (host : HostFloat) (start : Emulator) (a b c : Nat) : Prop where
  lower : start.priv = privU ∨ start.priv = privS
  ordered : 0 < a ∧ a < b ∧ b < c
  trap : Enters host start privS
  before : ∀ k, 0 < k → k < a → Disciplined host supervisorGuard (stateAfter host start k)
  interrupted : Enters host (stateAfter host start a) privM
  handler : ∀ k, a < k → k < b → Disciplined host machineGuard (stateAfter host start k)
  mret : Issues (stateAfter host start b) rawMret
  after : ∀ k, b < k → k < c → Disciplined host supervisorGuard (stateAfter host start k)
  sret : Issues (stateAfter host start c) rawSret

/-- A machine trap, its handler and its `mret` at `b`. -/
structure MachineRun (host : HostFloat) (start : Emulator) (b : Nat) : Prop where
  level : Level start.priv
  ordered : 0 < b
  trap : Enters host start privM
  handler : ∀ k, 0 < k → k < b → Disciplined host machineGuard (stateAfter host start k)
  mret : Issues (stateAfter host start b) rawMret

/-- The supervisor's record of its trap. -/
structure Recorded (record : Csr) (emu : Emulator) : Prop where
  sepc : emu.csr.sepc = record.sepc
  scause : emu.csr.scause = record.scause
  stval : emu.csr.stval = record.stval

/-- The state after a return is at the saved pc, with the level and the two enable
    bits of the state that trapped. -/
structure Restored (trapped returned : Emulator) (pc : Word) : Prop where
  pc : returned.rf.pc = pc
  priv : returned.priv = trapped.priv
  sie : returned.csr.mstatus &&& mstatusSie = trapped.csr.mstatus &&& mstatusSie
  mie : returned.csr.mstatus &&& mstatusMie = trapped.csr.mstatus &&& mstatusMie

/-- What a nested run preserves. -/
structure NestedKept (host : HostFloat) (start : Emulator) (a b c : Nat) : Prop where
  recorded : ∀ k, 0 < k → k ≤ c + 1 →
    Recorded (stateAfter host start 1).csr (stateAfter host start k)
  mepc : (stateAfter host start b).csr.mepc = (stateAfter host start (a + 1)).csr.mepc
  mret : (stateAfter host start (b + 1)).rf.pc = (stateAfter host start b).csr.mepc ∧
    (stateAfter host start (b + 1)).priv = privS
  sret : Restored start (stateAfter host start (c + 1)) (stateAfter host start 1).csr.sepc

/-- What a machine trap and its return preserve. -/
structure MachineKept (host : HostFloat) (start : Emulator) (b : Nat) : Prop where
  mepc : ∀ k, 0 < k → k ≤ b →
    (stateAfter host start k).csr.mepc = (stateAfter host start 1).csr.mepc
  mret : Restored start (stateAfter host start (b + 1)) (stateAfter host start 1).csr.mepc

/-! ## One step of a handler -/

/-- What a disciplined step does to the CSRs: it changes the floating-point flags at
    most, or stores one register, a guarded one with the value it had. -/
inductive ControlStep (guarded : List CsrName) (before : Csr) : Csr → Prop where
  | flags (mip flags : Word) (mcycle : DWord) :
      ControlStep guarded before { before with mip := mip, fflags := flags, mcycle := mcycle }
  | stored (mip : Word) (name : CsrName) (val : Word) (mcycle : DWord)
      (spared : name ∈ guarded → val = csrValue { before with mip := mip } name) :
      ControlStep guarded before
        { csrStored { before with mip := mip } val name with mcycle := mcycle }

/-- A disciplined step stays at its level. -/
theorem disciplined_step (host : HostFloat) (guarded : List CsrName) (emu : Emulator)
    (disciplined : Disciplined host guarded emu) :
    (emuStep host emu).2.priv = emu.priv ∧
      ControlStep guarded emu.csr (emuStep host emu).2.csr := by
  have calm := disciplined.calm
  have shape := step_shape host emu
  generalize emuStep host emu = result at shape calm
  cases shape with
  | interrupted after taken => exact absurd (Or.inl rfl) calm
  | trapped mem cause tval after touched code raised =>
    exact absurd (Or.inr ⟨cause, tval, rfl⟩) calm
  | failed mem touched =>
    obtain ⟨mip, csr⟩ := ticked_csr emu mem
    constructor
    · exact ticked_priv emu mem
    · change ControlStep guarded emu.csr (ticked emu mem).csr
      rw [csr]
      exact .flags mip emu.csr.fflags emu.csr.mcycle
  | retired mem inst after nextPc effect came touched outcome =>
    obtain ⟨mip, csr⟩ := ticked_csr emu mem
    obtain ⟨noMret, noSret⟩ := disciplined.inside _ inst came
    change after.priv = emu.priv ∧ ControlStep guarded emu.csr
      { after.csr with mcycle := after.csr.mcycle + 1 }
    rcases outcome_control (ticked emu mem) after inst nextPc effect outcome with
      ⟨samePriv, flags, same⟩ | ⟨name, val, -, ⟨kind, addressed, operand⟩, samePriv, same⟩ |
        ⟨raw, -, -⟩ | ⟨raw, -, -⟩
    · constructor
      · rw [samePriv, ticked_priv]
      · rw [same, csr]
        exact .flags mip flags (emu.csr.mcycle + 1)
    · constructor
      · rw [samePriv, ticked_priv]
      · rw [same, csr]
        apply ControlStep.stored mip name val
        intro member
        have spared := disciplined.spares _ inst name came member val kind addressed operand
        rw [csr] at spared
        exact spared
    · exact absurd raw noMret
    · exact absurd raw noSret

/-- Storing a field back into the status word leaves the word as it was. -/
theorem field_back (word mask : Word) : (word &&& ~~~mask) ||| (word &&& mask &&& mask) = word := by
  apply BitVec.eq_of_getLsbD_eq
  intro i inside
  simp only [BitVec.getLsbD_or, BitVec.getLsbD_and, BitVec.getLsbD_not, inside, decide_true,
    Bool.true_and]
  cases word.getLsbD i <;> cases mask.getLsbD i <;> rfl

/-- The status word survives a disciplined step. -/
theorem control_status (guarded : List CsrName) (before after : Csr)
    (step : ControlStep guarded before after) (whole : .mstatus ∈ guarded)
    (view : .sstatus ∈ guarded) : after.mstatus = before.mstatus := by
  cases step with
  | flags => rfl
  | stored mip name val mcycle spared =>
    cases name with
    | mstatus => exact spared whole
    | sstatus =>
      rw [spared view]
      exact field_back before.mstatus sstatusMask
    | _ => rfl

/-- The registers that no other name stores to. -/
def separate : List CsrName := [.sepc, .scause, .stval, .mepc]

theorem stored_separate (csr : Csr) (val : Word) (name other : CsrName) (own : name ∈ separate)
    (distinct : other ≠ name) : csrValue (csrStored csr val other) name = csrValue csr name := by
  simp only [separate, List.mem_cons, List.not_mem_nil, or_false] at own
  rcases own with rfl | rfl | rfl | rfl
  · cases other <;> first | rfl | exact absurd rfl distinct
  · cases other <;> first | rfl | exact absurd rfl distinct
  · cases other <;> first | rfl | exact absurd rfl distinct
  · cases other <;> first | rfl | exact absurd rfl distinct

/-- The register stores its own value unchanged: a saved pc must be a multiple of
    four for that. -/
def Settled (csr : Csr) (name : CsrName) : Prop :=
  csrValue (csrStored csr (csrValue csr name) name) name = csrValue csr name

/-- So does a guarded register of its own that holds a value it can store. -/
theorem control_value (guarded : List CsrName) (before after : Csr) (name : CsrName)
    (step : ControlStep guarded before after) (own : name ∈ separate) (member : name ∈ guarded)
    (settled : Settled before name) : csrValue after name = csrValue before name := by
  have apart (csr : Csr) (mip flags : Word) (mcycle : DWord) :
      csrValue { csr with mip := mip, fflags := flags, mcycle := mcycle } name =
        csrValue csr name := by
    simp only [separate, List.mem_cons, List.not_mem_nil, or_false] at own
    rcases own with rfl | rfl | rfl | rfl <;> rfl
  cases step with
  | flags mip flags mcycle => exact apart before mip flags mcycle
  | stored mip other val mcycle spared =>
    have ticked := apart before mip before.fflags before.mcycle
    rw [apart (csrStored { before with mip := mip } val other) _ _ mcycle]
    by_cases same : other = name
    · subst same
      rw [spared member]
      simp only [separate, List.mem_cons, List.not_mem_nil, or_false] at own
      rcases own with rfl | rfl | rfl | rfl <;> exact settled
    · rw [stored_separate _ val name other own same]
      exact ticked

/-! ## A stretch of a handler -/

/-- The machine is at the level, with this status word. -/
structure At (level status : Word) (emu : Emulator) : Prop where
  priv : emu.priv = level
  status : emu.csr.mstatus = status

/-- A disciplined stretch stays at its level with its status word. -/
theorem stretch_at (host : HostFloat) (start : Emulator) (guarded : List CsrName)
    (level status : Word) (first last : Nat) (ordered : first ≤ last)
    (whole : .mstatus ∈ guarded) (view : .sstatus ∈ guarded)
    (disciplined : ∀ k, first ≤ k → k < last → Disciplined host guarded (stateAfter host start k))
    (entry : At level status (stateAfter host start first)) :
    At level status (stateAfter host start last) := by
  apply Runs.carried (emuStep host) (At level status) start first last ordered entry
  intro k above below here
  obtain ⟨priv, control⟩ := disciplined_step host guarded _ (disciplined k above below)
  constructor
  · exact priv.trans here.priv
  · exact (control_status guarded _ _ control whole view).trans here.status

/-- A disciplined stretch keeps each guarded register of its own. -/
theorem stretch_value (host : HostFloat) (start : Emulator) (guarded : List CsrName)
    (name : CsrName) (first last : Nat) (ordered : first ≤ last) (own : name ∈ separate)
    (member : name ∈ guarded)
    (disciplined : ∀ k, first ≤ k → k < last → Disciplined host guarded (stateAfter host start k))
    (settled : ∀ csr, csrValue csr name = csrValue (stateAfter host start first).csr name →
      Settled csr name) :
    csrValue (stateAfter host start last).csr name =
      csrValue (stateAfter host start first).csr name := by
  apply Runs.carried (emuStep host)
    (fun emu => csrValue emu.csr name = csrValue (stateAfter host start first).csr name)
    start first last ordered rfl
  intro k above below here
  obtain ⟨-, control⟩ := disciplined_step host guarded _ (disciplined k above below)
  exact (control_value guarded _ _ name control own member (settled _ here)).trans here

/-- The saved pc is one that a handler stores back unchanged. -/
theorem settled_pc (csr : Csr) (pc : Word) (aligned : pc &&& ~~~(0x3 : Word) = pc) :
    (csrValue csr .sepc = pc → Settled csr .sepc) ∧
      (csrValue csr .mepc = pc → Settled csr .mepc) := by
  constructor
  · rintro rfl
    exact aligned
  · rintro rfl
    exact aligned

/-- A disciplined stretch keeps the supervisor's record. -/
theorem stretch_recorded (host : HostFloat) (start : Emulator) (guarded : List CsrName)
    (record : Csr) (first last : Nat) (ordered : first ≤ last)
    (members : ∀ name ∈ supervisorGuard, name ∈ guarded)
    (disciplined : ∀ k, first ≤ k → k < last → Disciplined host guarded (stateAfter host start k))
    (aligned : record.sepc &&& ~~~(0x3 : Word) = record.sepc)
    (entry : Recorded record (stateAfter host start first)) :
    Recorded record (stateAfter host start last) := by
  have kept (name : CsrName) (own : name ∈ separate) (member : name ∈ supervisorGuard)
      (settled : ∀ csr, csrValue csr name = csrValue (stateAfter host start first).csr name →
        Settled csr name) :=
    stretch_value host start guarded name first last ordered own (members name member) disciplined
      settled
  constructor
  · have settled : ∀ csr, csrValue csr .sepc = csrValue (stateAfter host start first).csr .sepc →
        Settled csr .sepc := by
      intro csr same
      exact (settled_pc csr record.sepc aligned).1 (same.trans entry.sepc)
    exact (kept .sepc (by decide) (by decide) settled).trans entry.sepc
  · exact (kept .scause (by decide) (by decide) (fun _ _ => rfl)).trans entry.scause
  · exact (kept .stval (by decide) (by decide) (fun _ _ => rfl)).trans entry.stval

/-! ## Entries and returns -/

/-- An entry into the supervisor handler comes from one of the lower levels. -/
theorem enters_supervisor (host : HostFloat) (emu : Emulator) (enters : Enters host emu privS) :
    ∃ mem cause tval, (emuStep host emu).2 =
      counted (enterSupervisor (ticked emu mem) cause tval emu.rf.pc) := by
  obtain ⟨takes, level⟩ := enters
  obtain ⟨mem, cause, tval, after, -, raised, state⟩ := trap_step host emu takes
  rcases trapRaise_cases _ after cause tval _ raised with ⟨-, -, rfl⟩ | ⟨-, -, rfl⟩
  · exact ⟨mem, cause, tval, state⟩
  · rw [state] at level
    exact absurd (show privM = privS from level) (by decide)

theorem enters_machine (host : HostFloat) (emu : Emulator) (enters : Enters host emu privM) :
    ∃ mem cause tval, (emuStep host emu).2 =
      counted (enterMachine (ticked emu mem) cause tval emu.rf.pc) := by
  obtain ⟨takes, level⟩ := enters
  obtain ⟨mem, cause, tval, after, -, raised, state⟩ := trap_step host emu takes
  rcases trapRaise_cases _ after cause tval _ raised with ⟨-, -, rfl⟩ | ⟨-, -, rfl⟩
  · rw [state] at level
    exact absurd (show privS = privM from level) (by decide)
  · exact ⟨mem, cause, tval, state⟩

/-- Until an instruction completes, the supervisor's record stands. -/
theorem ticked_recorded (emu : Emulator) (mem : Memory) : Recorded emu.csr (ticked emu mem) := by
  obtain ⟨mip, csr⟩ := ticked_csr emu mem
  constructor
  · rw [csr]
  · rw [csr]
  · rw [csr]

/-- A saved pc is a multiple of four. -/
theorem cleared_twice (pc : Word) :
    (pc &&& ~~~(0x3 : Word)) &&& ~~~(0x3 : Word) = pc &&& ~~~(0x3 : Word) := by
  rw [BitVec.and_assoc, BitVec.and_self]

/-- Entry into the machine handler records nothing of the supervisor's. -/
theorem machine_entered (host : HostFloat) (emu : Emulator) (level status : Word)
    (enters : Enters host emu privM) (here : At level status emu) :
    At privM (machineEntry status level) (emuStep host emu).2 ∧
      Recorded emu.csr (emuStep host emu).2 ∧
      (emuStep host emu).2.csr.mepc &&& ~~~(0x3 : Word) = (emuStep host emu).2.csr.mepc := by
  obtain ⟨mem, cause, tval, state⟩ := enters_machine host emu enters
  obtain ⟨sepc, scause, stval⟩ := ticked_recorded emu mem
  rw [state]
  refine ⟨⟨rfl, ?_⟩, ⟨sepc, scause, stval⟩, cleared_twice emu.rf.pc⟩
  change machineEntry (ticked emu mem).csr.mstatus (ticked emu mem).priv = _
  rw [ticked_mstatus, ticked_priv, here.status, here.priv]

/-- Entry into the supervisor handler. -/
theorem supervisor_entered (host : HostFloat) (emu : Emulator) (enters : Enters host emu privS) :
    At privS (supervisorEntry emu.csr.mstatus emu.priv) (emuStep host emu).2 ∧
      (emuStep host emu).2.csr.sepc &&& ~~~(0x3 : Word) = (emuStep host emu).2.csr.sepc := by
  obtain ⟨mem, cause, tval, state⟩ := enters_supervisor host emu enters
  rw [state]
  refine ⟨⟨rfl, ?_⟩, cleared_twice emu.rf.pc⟩
  change supervisorEntry (ticked emu mem).csr.mstatus (ticked emu mem).priv = _
  rw [ticked_mstatus, ticked_priv]

/-- The timer and the tables leave the level and the status alone. -/
theorem ticked_at (emu : Emulator) (mem : Memory) (level status : Word)
    (here : At level status emu) : At level status (ticked emu mem) where
  priv := (ticked_priv emu mem).trans here.priv
  status := (ticked_mstatus emu mem).trans here.status

/-- `mret` from the machine handler. -/
theorem machine_returned (host : HostFloat) (emu : Emulator) (status : Word)
    (issues : Issues emu rawMret) (here : At privM status emu) :
    (emuStep host emu).2.rf.pc = emu.csr.mepc ∧
      At (savedLevel status) (machineReturn status) (emuStep host emu).2 ∧
      Recorded emu.csr (emuStep host emu).2 := by
  obtain ⟨ready, inst, came, raw⟩ := issues
  obtain ⟨-, -, -, -, mem, rfl, -⟩ := issued_front emu ready inst came
  obtain ⟨sepc, scause, stval⟩ := ticked_recorded emu mem
  obtain ⟨mip, csr⟩ := ticked_csr emu mem
  have there := ticked_at emu mem privM status here
  rw [mret_step host emu _ inst came raw there.priv]
  refine ⟨?_, ⟨?_, ?_⟩, ⟨sepc, scause, stval⟩⟩
  · change (ticked emu mem).csr.mepc = emu.csr.mepc
    rw [csr]
  · change (trapMret (ticked emu mem)).2.priv = savedLevel status
    rw [trapMret_priv, there.status]
  · change machineReturn (ticked emu mem).csr.mstatus = machineReturn status
    rw [there.status]

/-- `sret` from the supervisor handler. -/
theorem supervisor_returned (host : HostFloat) (emu : Emulator) (status : Word)
    (issues : Issues emu rawSret) (here : At privS status emu) :
    (emuStep host emu).2.rf.pc = emu.csr.sepc ∧
      At (if status &&& mstatusSpp ≠ 0 then privS else privU) (supervisorReturn status)
        (emuStep host emu).2 ∧
      Recorded emu.csr (emuStep host emu).2 := by
  obtain ⟨ready, inst, came, raw⟩ := issues
  obtain ⟨-, -, -, -, mem, rfl, -⟩ := issued_front emu ready inst came
  obtain ⟨sepc, scause, stval⟩ := ticked_recorded emu mem
  have there := ticked_at emu mem privS status here
  rw [sret_step host emu _ inst came raw there.priv]
  refine ⟨sepc, ⟨?_, ?_⟩, ⟨sepc, scause, stval⟩⟩
  · change (trapSret (ticked emu mem)).2.priv = _
    rw [trapSret_priv, there.status]
  · change supervisorReturn (ticked emu mem).csr.mstatus = supervisorReturn status
    rw [there.status]

/-! ## Whole runs -/

/-- The record carries over from a state with the same record. -/
theorem recorded_trans (first second third : Emulator) (earlier : Recorded first.csr second)
    (later : Recorded second.csr third) : Recorded first.csr third :=
  ⟨later.sepc.trans earlier.sepc, later.scause.trans earlier.scause,
    later.stval.trans earlier.stval⟩

/-- A supervisor trap interrupted by a machine trap returns as if it had not been. -/
theorem nested_kept (host : HostFloat) (start : Emulator) (a b c : Nat)
    (run : NestedRun host start a b c) : NestedKept host start a b c := by
  obtain ⟨early, middle, late⟩ := run.ordered
  -- The supervisor trap and its handler up to the machine trap.
  obtain ⟨entered, aligned⟩ := supervisor_entered host start run.trap
  have recordFirst : ∀ k, 1 ≤ k → k ≤ a →
      Recorded (stateAfter host start 1).csr (stateAfter host start k) := by
    intro k above below
    exact stretch_recorded host start supervisorGuard _ 1 k above (fun _ member => member)
      (fun j from1 within => run.before j from1 (by omega)) aligned ⟨rfl, rfl, rfl⟩
  have before := stretch_at host start supervisorGuard _ _ 1 a early (by decide) (by decide)
    (fun k above below => run.before k above below) entered
  -- The machine trap, its handler and its return.
  obtain ⟨trapped, recordTrap, mepcAligned⟩ :=
    machine_entered host _ _ _ run.interrupted before
  have recordHandler : ∀ k, a + 1 ≤ k → k ≤ b →
      Recorded (stateAfter host start 1).csr (stateAfter host start k) := by
    intro k above below
    exact stretch_recorded host start machineGuard _ (a + 1) k above
      (fun _ member => List.mem_cons_of_mem _ member)
      (fun j past within => run.handler j past (by omega)) aligned
      (recorded_trans _ _ _ (recordFirst a early (Nat.le_refl a)) recordTrap)
  have handling := stretch_at host start machineGuard _ _ (a + 1) b middle (by decide) (by decide)
    (fun k above below => run.handler k above below) trapped
  have mepc := stretch_value host start machineGuard .mepc (a + 1) b middle (by decide) (by decide)
    (fun k above below => run.handler k above below)
    (fun csr same => (settled_pc csr _ mepcAligned).2 same)
  obtain ⟨returnPc, returned, recordReturn⟩ :=
    machine_returned host _ _ run.mret handling
  rw [machineEntry_level _ privS (Or.inl (by decide))] at returned
  -- The rest of the supervisor handler and its return.
  have recordSecond : ∀ k, b + 1 ≤ k → k ≤ c →
      Recorded (stateAfter host start 1).csr (stateAfter host start k) := by
    intro k above below
    exact stretch_recorded host start supervisorGuard _ (b + 1) k above (fun _ member => member)
      (fun j past within => run.after j past (by omega)) aligned
      (recorded_trans _ _ _ (recordHandler b middle (Nat.le_refl b)) recordReturn)
  have after := stretch_at host start supervisorGuard _ _ (b + 1) c late (by decide) (by decide)
    (fun k above below => run.after k above below) returned
  obtain ⟨finalPc, final, recordFinal⟩ := supervisor_returned host _ _ run.sret after
  have recordLast := recordSecond c late (Nat.le_refl c)
  constructor
  · intro k above below
    rcases Nat.lt_or_ge a k with pastTrap | first
    · rcases Nat.lt_or_ge b k with pastReturn | second
      · rcases Nat.lt_or_ge c k with last | third
        · have same : k = c + 1 := by omega
          subst same
          exact recorded_trans _ _ _ recordLast recordFinal
        · exact recordSecond k pastReturn third
      · exact recordHandler k pastTrap second
    · exact recordFirst k above first
  · exact mepc
  · exact ⟨returnPc, returned.priv⟩
  · constructor
    · exact finalPc.trans recordLast.sepc
    · exact final.priv.trans (supervisor_level _ _ _ run.lower
        (machineEpisode_keeps _ _ _ (by decide) (by decide) (by decide)))
    · rw [show (stateAfter host start (c + 1)).csr.mstatus = _ from final.status]
      exact supervisor_unwinds _ _ _
        (machineEpisode_keeps _ _ _ (by decide) (by decide) (by decide))
    · rw [show (stateAfter host start (c + 1)).csr.mstatus = _ from final.status,
        supervisorReturn_keeps _ _ (by decide) (by decide) (by decide), machine_restores]
      exact supervisorEntry_keeps _ _ _ (by decide) (by decide) (by decide)

/-- A machine trap returns to the program it interrupted. -/
theorem machine_kept (host : HostFloat) (start : Emulator) (b : Nat)
    (run : MachineRun host start b) : MachineKept host start b := by
  obtain ⟨entered, -, aligned⟩ :=
    machine_entered host start start.priv start.csr.mstatus run.trap ⟨rfl, rfl⟩
  have mepc : ∀ k, 1 ≤ k → k ≤ b →
      (stateAfter host start k).csr.mepc = (stateAfter host start 1).csr.mepc := by
    intro k above below
    exact stretch_value host start machineGuard .mepc 1 k above (by decide) (by decide)
      (fun j past within => run.handler j past (by omega))
      (fun csr same => (settled_pc csr _ aligned).2 same)
  have handling := stretch_at host start machineGuard _ _ 1 b run.ordered (by decide) (by decide)
    (fun k above below => run.handler k above below) entered
  obtain ⟨returnPc, returned, -⟩ := machine_returned host _ _ run.mret handling
  constructor
  · exact mepc
  · constructor
    · exact returnPc.trans (mepc b run.ordered (Nat.le_refl b))
    · exact returned.priv.trans (machineEntry_level _ _ (Or.inl run.level))
    · rw [show (stateAfter host start (b + 1)).csr.mstatus = _ from returned.status]
      exact machineEpisode_keeps _ _ _ (by decide) (by decide) (by decide)
    · rw [show (stateAfter host start (b + 1)).csr.mstatus = _ from returned.status]
      exact machine_restores _ _

/-- Trap handling over whole runs: nested traps and single machine traps give back
    what they interrupted, and a trap that is not taken changes nothing. -/
structure TrapsNest (host : HostFloat) : Prop where
  nested : ∀ start a b c, NestedRun host start a b c → NestedKept host start a b c
  machine : ∀ start b, MachineRun host start b → MachineKept host start b
  refused : ∀ emu cause tval epc after, trapRaise emu cause tval epc = (false, after) → after = emu

/-- Traps nest. -/
theorem traps_nest (host : HostFloat) : TrapsNest host := by
  constructor
  · exact nested_kept host
  · exact machine_kept host
  · intro emu cause tval epc after refused
    exact trapRaise_refused emu after cause tval epc refused

/-- A completed instruction that is no system instruction is disciplined. -/
theorem disciplined_plain (host : HostFloat) (guarded : List CsrName) (emu : Emulator) (raw : Word)
    (completed : (emuStep host emu).1 = .retired .quiet)
    (word : (issued emu).map (fun front => front.2.raw) = some raw)
    (plain : opcodeOf raw ≠ .system) : Disciplined host guarded emu := by
  have same : ∀ ready inst, issued emu = some (ready, inst) → inst.raw = raw := by
    intro ready inst came
    rw [came] at word
    exact Option.some.inj word
  constructor
  · rw [completed]
    rintro (taken | ⟨cause, tval, taken⟩)
    · cases taken
    · cases taken
  · intro ready inst came
    constructor
    · intro return'
      rw [← same ready inst came, return'] at plain
      exact plain (by decide)
    · intro return'
      rw [← same ready inst came, return'] at plain
      exact plain (by decide)
  · intro ready inst name came _ val kind
    rw [issued_opcode emu ready inst came, same ready inst came] at kind
    exact absurd kind plain

/-- The encoding of the issued instruction tells what the step issues. -/
theorem issues_of (emu : Emulator) (raw : Word)
    (word : (issued emu).map (fun front => front.2.raw) = some raw) : Issues emu raw := by
  obtain ⟨⟨ready, inst⟩, came, same⟩ := Option.map_eq_some_iff.mp word
  exact ⟨ready, inst, came, same⟩

/-- A user program about to make a delegated call, with the timer due two steps
    later for the machine handler. -/
def timedCall : Emulator :=
  { emuInit (fun _ => 0) with
    mem :=
      { data := fun index =>
          if index < 0x2000 then (programImage 0x1000 [0x00000073]).data index -- ecall
          else if index < 0x3000 then
            (programImage 0x2000
              [0x00130313, -- addi x6, x6, 1
                0x00130313, -- addi x6, x6, 1
                0x10200073]).data index -- sret
          else
            (programImage 0x3000
              [0x0002A023, -- sw x0, 0(x5)
                0x30200073]).data index -- mret
        size := memSize
        sized := rfl }
    rf := { regWrite regfileInit 5 0x02004000 with pc := 0x1000 }
    csr := { csrInit with stvec := 0x2000, mtvec := 0x3000, medeleg := 0x100, mie := 0x80 }
    mtimecmp := 3
    priv := privU
    state := .running }

/-- The timer interrupts the supervisor handler of the call, and both return. -/
theorem timedCall_kept : NestedKept idleHost timedCall 2 4 6 := by
  apply (traps_nest idleHost).nested
  constructor
  · exact Or.inl rfl
  · decide
  · exact ⟨Or.inr ⟨8, 0, by decide +kernel⟩, by decide +kernel⟩
  · intro k above below
    have first : k = 1 := by omega
    subst first
    exact disciplined_plain _ _ _ 0x00130313 (by decide +kernel) (by decide +kernel) (by decide)
  · exact ⟨Or.inl (by decide +kernel), by decide +kernel⟩
  · intro k above below
    have only : k = 3 := by omega
    subst only
    exact disciplined_plain _ _ _ 0x0002A023 (by decide +kernel) (by decide +kernel) (by decide)
  · exact issues_of _ _ (by decide +kernel)
  · intro k above below
    have last : k = 5 := by omega
    subst last
    exact disciplined_plain _ _ _ 0x00130313 (by decide +kernel) (by decide +kernel) (by decide)
  · exact issues_of _ _ (by decide +kernel)

end RvEmu.NestedTraps
