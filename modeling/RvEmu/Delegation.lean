import RvEmu.StatusStack
import RvEmu.StepAnatomy

/-!
# Delegation of exceptions

Exceptions are raised at a dozen places in `emu_step` and `execute`, most of
which hand the cause to `trap_raise` at once. The environment call first asks
whether any vector is installed. The breakpoint asks about the machine vector
alone, and halts the machine when that is zero, although a supervisor handler may
be waiting for it. That is the one way a delegated exception misses its handler.

What an instruction raises is stated independently of those tests: a breakpoint
instruction is a breakpoint and an environment call is one from its level.
-/

namespace RvEmu.Delegation

open StatusStack ExecOutcome StepAnatomy

/-- The synchronous exception of the next step, from its fetch, its decoding or its
    execution, when no interrupt is taken first. -/
def syncException (host : HostFloat) (emu : Emulator) : Option Word :=
  match frontEnd emu with
  | .interrupted _ => none
  | .refused _ cause _ => some cause
  | .issued after inst =>
    if inst.raw = rawEbreak then some excBreakpoint
    else if inst.raw = rawEcall then some (ecallCause after.priv)
    else
      match execSwitch host after inst with
      | .unknown _ => some excIllegalInst
      | .except _ cause _ => some cause
      | .raised _ cause => some cause
      | .next _ _ _ => none
      | .stopped _ => none

/-- The exception of this cause is delegated to supervisor level. -/
def Delegates (emu : Emulator) (cause : Word) : Prop := (emu.csr.medeleg >>> cause) &&& 1 ≠ 0

/-- The step ended in the supervisor handler, with the cause and the old level
    recorded there and the machine's trap registers untouched. -/
structure EntersSupervisor (emu after : Emulator) (cause : Word) : Prop where
  pc : after.rf.pc = emu.csr.stvec
  level : after.priv = privS
  recorded : after.csr.scause = cause
  previous : after.csr.mstatus &&& mstatusSpp ≠ 0 ↔ emu.priv = privS
  mepc : after.csr.mepc = emu.csr.mepc
  mcause : after.csr.mcause = emu.csr.mcause
  mtval : after.csr.mtval = emu.csr.mtval
  status : after.csr.mstatus &&& machineBits = emu.csr.mstatus &&& machineBits
  running : after.state = .running

/-- The next step executes a breakpoint with no machine vector installed. -/
def UnguardedBreakpoint (emu : Emulator) : Prop :=
  emu.csr.mtvec = 0 ∧ ∃ after inst, issued emu = some (after, inst) ∧ inst.raw = rawEbreak

/-- Exception codes are below sixteen and are their own code part. -/
theorem exception_code (cause : Word) (small : cause < 16) :
    cause &&& ~~~mcauseIrqBit = cause ∧ cause &&& mcauseIrqBit = 0 := by
  have all : ∀ k, k < 16 → BitVec.ofNat 32 k &&& ~~~mcauseIrqBit = BitVec.ofNat 32 k ∧
      BitVec.ofNat 32 k &&& mcauseIrqBit = 0 := by decide
  have bound : cause.toNat < 16 := BitVec.lt_def.mp small
  have same : BitVec.ofNat 32 cause.toNat = cause :=
    PageTables.ofNat_toNat cause cause.toNat rfl
  have result := all cause.toNat bound
  rw [same] at result
  exact result

/-- From a lower level an exception with its delegation bit set is delegated. -/
theorem exception_sent (emu : Emulator) (cause : Word) (small : cause < 16)
    (lower : emu.priv ≤ privS) (sent : Delegates emu cause) : delegated emu cause = true := by
  obtain ⟨code, irq⟩ := exception_code cause small
  have noInterrupt : ¬ (0 : Word) ≠ 0 := not_not.mpr rfl
  simp only [delegated, code, irq, noInterrupt, decide_eq_true_eq]
  exact ⟨lower, small, sent⟩

/-- Raising a delegated exception enters the supervisor handler. -/
theorem raise_delegated (emu : Emulator) (mem : Memory) (cause tval epc : Word)
    (small : cause < 16) (running : emu.state = .running)
    (lower : emu.priv = privU ∨ emu.priv = privS) (installed : emu.csr.stvec ≠ 0)
    (sent : Delegates emu cause) :
    EntersSupervisor emu (countCycle (raiseOrStop (ticked emu mem) cause tval epc)).2 cause := by
  obtain ⟨mip, csr⟩ := ticked_csr emu mem
  have bound : (ticked emu mem).priv ≤ privS := by
    rw [ticked_priv]
    exact (lower_iff emu.priv).mpr lower
  have chosen : delegated (ticked emu mem) cause = true := by
    apply exception_sent _ cause small bound
    rw [Delegates, csr]
    exact sent
  have vector : (ticked emu mem).csr.stvec ≠ 0 := by
    rw [csr]
    exact installed
  have raised : raiseOrStop (ticked emu mem) cause tval epc =
      (.trapped cause tval, enterSupervisor (ticked emu mem) cause tval epc) := by
    rw [raiseOrStop, trapRaise, if_pos chosen, if_neg vector]
  rw [raised]
  have entry : (enterSupervisor (ticked emu mem) cause tval epc).csr.mstatus =
      supervisorEntry emu.csr.mstatus emu.priv := by
    rw [enterSupervisor_mstatus, ticked_mstatus, ticked_priv]
  refine ⟨?_, rfl, rfl, ?_, ?_, ?_, ?_, ?_, ?_⟩
  · change (ticked emu mem).csr.stvec = emu.csr.stvec
    rw [csr]
  · change (enterSupervisor (ticked emu mem) cause tval epc).csr.mstatus &&& mstatusSpp ≠ 0 ↔ _
    rw [entry]
    exact supervisorEntry_level emu.csr.mstatus emu.priv
  · change (ticked emu mem).csr.mepc = emu.csr.mepc
    rw [csr]
  · change (ticked emu mem).csr.mcause = emu.csr.mcause
    rw [csr]
  · change (ticked emu mem).csr.mtval = emu.csr.mtval
    rw [csr]
  · change (enterSupervisor (ticked emu mem) cause tval epc).csr.mstatus &&& machineBits = _
    rw [entry]
    exact supervisorEntry_keeps _ _ _ (by decide) (by decide) (by decide)
  · obtain ⟨mip, frame⟩ := timerTick_frame emu
    change (timerTick emu).state = .running
    rw [frame]
    exact running

/-- The exit of the switch raises an exception of this cause. -/
def Raises (cause : Word) : Exec → Prop
  | .unknown _ => cause = excIllegalInst
  | .except _ code _ => cause = code
  | .raised _ code => cause = code
  | .next _ _ _ => False
  | .stopped _ => False

/-- An instruction that ends in an exception is handed to `trap_raise` with its
    cause, in a touched state. -/
theorem issued_raises (host : HostFloat) (emu : Emulator) (mem : Memory) (inst : DecodedInst)
    (cause : Word) (came : issued emu = some (ticked emu mem, inst))
    (touched : Touched emu (fetchAccesses (timerTick emu)) mem)
    (raises : Raises cause (execSwitch host (ticked emu mem) inst)) :
    cause < 16 ∧ ∃ later tval, execute host (ticked emu mem) inst =
      raiseOrStop (ticked emu later) cause tval emu.rf.pc := by
  have outcome := execSwitch_outcome host (ticked emu mem) inst
  have samePc : (ticked emu mem).rf.pc = emu.rf.pc := by rw [ticked_rf]
  simp only [execute, samePc]
  rcases faulted_state emu mem inst _ came touched outcome with
    ⟨after, nextPc, effect, exit⟩ | ⟨later, -, exit⟩
  · rw [exit] at raises
    exact raises.elim
  · rcases exit with exit | ⟨code, addr, small, exit⟩ | ⟨code, small, exit⟩ | exit
    · rw [exit] at raises ⊢
      obtain rfl : cause = excIllegalInst := raises
      exact ⟨by decide, later, inst.raw, rfl⟩
    · rw [exit] at raises ⊢
      obtain rfl : cause = code := raises
      exact ⟨small, later, _, rfl⟩
    · rw [exit] at raises ⊢
      obtain rfl : cause = code := raises
      exact ⟨small, later, 0, rfl⟩
    · rw [exit] at raises
      exact raises.elim

/-- How the switch treats the two instructions that raise exceptions themselves. -/
theorem ecall_raised (host : HostFloat) (emu : Emulator) (inst : DecodedInst)
    (kind : inst.opcode = .system) (raw : inst.raw = rawEcall) (installed : emu.csr.stvec ≠ 0) :
    execSwitch host emu inst = .raised emu (ecallCause emu.priv) := by
  rw [ecall_switch host emu inst kind raw, execEcall, if_pos (Or.inr installed)]

theorem ebreak_switch (host : HostFloat) (emu : Emulator) (inst : DecodedInst)
    (kind : inst.opcode = .system) (raw : inst.raw = rawEbreak) :
    execSwitch host emu inst = execEbreak emu inst := by
  have notMret : ¬ rawEbreak = rawMret := by decide
  have notSret : ¬ rawEbreak = rawSret := by decide
  have notFence : ¬ rawEbreak &&& 0xFE007FFF = 0x12000073 := by decide
  have notEcall : ¬ rawEbreak = rawEcall := by decide
  simp only [execSwitch, kind, execSystem, raw, notMret, notSret, notFence, notEcall, if_false,
    if_true]

/-- The exception of an issued instruction is the one its exit raises, apart from the
    breakpoint without a machine vector. -/
theorem issued_exception (host : HostFloat) (emu : Emulator) (mem : Memory) (inst : DecodedInst)
    (cause : Word) (front : frontEnd emu = .issued (ticked emu mem) inst)
    (installed : emu.csr.stvec ≠ 0) (raises : syncException host emu = some cause)
    (guarded : ¬ UnguardedBreakpoint emu) :
    Raises cause (execSwitch host (ticked emu mem) inst) := by
  have came : issued emu = some (ticked emu mem, inst) := by
    rw [issued, front]
  have opcode := issued_opcode emu (ticked emu mem) inst came
  obtain ⟨mip, csr⟩ := ticked_csr emu mem
  simp only [syncException, front] at raises
  by_cases breakpoint : inst.raw = rawEbreak
  · have kind : inst.opcode = .system := by
      rw [opcode, breakpoint]
      decide
    have vector : (ticked emu mem).csr.mtvec ≠ 0 := by
      intro missing
      rw [csr] at missing
      exact guarded ⟨missing, _, inst, came, breakpoint⟩
    rw [if_pos breakpoint] at raises
    cases raises
    rw [ebreak_switch host _ inst kind breakpoint, execEbreak, if_pos vector]
    exact rfl
  · rw [if_neg breakpoint] at raises
    by_cases call : inst.raw = rawEcall
    · have kind : inst.opcode = .system := by
        rw [opcode, call]
        decide
      have vector : (ticked emu mem).csr.stvec ≠ 0 := by
        rw [csr]
        exact installed
      rw [if_pos call] at raises
      cases raises
      rw [ecall_raised host _ inst kind call vector]
      exact rfl
    · rw [if_neg call] at raises
      cases exit : execSwitch host (ticked emu mem) inst with
      | unknown after =>
        rw [exit] at raises
        exact (Option.some.inj raises).symm
      | except after code addr =>
        rw [exit] at raises
        exact (Option.some.inj raises).symm
      | raised after code =>
        rw [exit] at raises
        exact (Option.some.inj raises).symm
      | next after nextPc effect =>
        rw [exit] at raises
        cases raises
      | stopped after =>
        rw [exit] at raises
        cases raises

/-- Every synchronous exception reaches `trap_raise`, apart from the breakpoint
    without a machine vector. -/
theorem exception_raised (host : HostFloat) (emu : Emulator) (cause : Word)
    (installed : emu.csr.stvec ≠ 0) (raises : syncException host emu = some cause)
    (guarded : ¬ UnguardedBreakpoint emu) :
    cause < 16 ∧ ∃ mem tval,
      emuStep host emu = countCycle (raiseOrStop (ticked emu mem) cause tval emu.rf.pc) := by
  rw [emuStep_halves]
  cases front : frontEnd emu with
  | interrupted after =>
    simp only [syncException, front] at raises
    cases raises
  | refused after code tval =>
    simp only [syncException, front] at raises
    obtain ⟨small, mem, same, -⟩ := refused_front emu after code tval front
    cases raises
    subst same
    exact ⟨small, mem, tval, rfl⟩
  | issued after inst =>
    have came : issued emu = some (after, inst) := by
      rw [issued, front]
    obtain ⟨-, -, -, -, mem, same, touched⟩ := issued_front emu after inst came
    subst same
    obtain ⟨small, later, tval, executed⟩ :=
      issued_raises host emu mem inst cause came touched
        (issued_exception host emu mem inst cause front installed raises guarded)
    exact ⟨small, later, tval, congrArg countCycle executed⟩

/-- The breakpoint without a machine vector halts the machine. -/
theorem unguarded_halts (host : HostFloat) (emu : Emulator)
    (unguarded : UnguardedBreakpoint emu) : (emuStep host emu).2.state = .halted := by
  obtain ⟨missing, after, inst, came, raw⟩ := unguarded
  have kind : inst.opcode = .system := by
    rw [issued_opcode emu after inst came, raw]
    decide
  obtain ⟨-, -, -, -, mem, same, -⟩ := issued_front emu after inst came
  subst same
  obtain ⟨mip, csr⟩ := ticked_csr emu mem
  have vector : ¬ (ticked emu mem).csr.mtvec ≠ 0 := by
    rw [csr]
    exact not_not.mpr missing
  rw [issued_step host emu _ inst came, execute, ebreak_switch host _ inst kind raw, execEbreak,
    if_neg vector]
  rfl

/-- In a running state at user or supervisor level with a supervisor vector, every
    delegated synchronous exception enters the supervisor handler exactly when it
    is not a breakpoint without a machine vector. -/
theorem delegation_iff (host : HostFloat) (emu : Emulator) (cause : Word)
    (running : emu.state = .running) (lower : emu.priv = privU ∨ emu.priv = privS)
    (installed : emu.csr.stvec ≠ 0) (raises : syncException host emu = some cause)
    (sent : Delegates emu cause) :
    EntersSupervisor emu (emuStep host emu).2 cause ↔ ¬ UnguardedBreakpoint emu := by
  constructor
  · intro enters unguarded
    have halted := unguarded_halts host emu unguarded
    rw [enters.running] at halted
    cases halted
  · intro guarded
    obtain ⟨small, mem, tval, step⟩ :=
      exception_raised host emu cause installed raises guarded
    rw [step]
    exact raise_delegated emu mem cause tval emu.rf.pc small running lower installed sent

/-- A machine program that installs a supervisor vector at 16, delegates the
    breakpoint, and returns to supervisor level at an `ebreak`. -/
def breakpointProgram : Emulator :=
  loadImage (emuInit fun _ => 0) (programImage 0x1000
    [0x10585073, -- csrrwi x0, stvec, 16
      0x00800093, -- addi x1, x0, 8
      0x30209073, -- csrrw x0, medeleg, x1
      0x10000213, -- addi x4, x0, 0x100
      0x30021073, -- csrrw x0, mstatus, x4
      0x00000297, -- auipc x5, 0
      0x01028293, -- addi x5, x5, 16
      0x14129073, -- csrrw x0, sepc, x5
      0x10200073, -- sret
      0x00100073]) -- ebreak

/-- The exact condition for its `ebreak`. -/
theorem breakpointProgram_delegation :
    EntersSupervisor (stateAfter idleHost breakpointProgram 9)
        (emuStep idleHost (stateAfter idleHost breakpointProgram 9)).2 excBreakpoint ↔
      ¬ UnguardedBreakpoint (stateAfter idleHost breakpointProgram 9) :=
  delegation_iff idleHost (stateAfter idleHost breakpointProgram 9) excBreakpoint
    (by decide +kernel) (Or.inr (by decide +kernel)) (by decide +kernel) (by decide +kernel)
    (by unfold Delegates; decide +kernel)

/-- Its `ebreak`, delegated and with a supervisor handler installed, halts the
    machine. -/
theorem breakpoint_halts :
    ((stateAfter idleHost breakpointProgram 9).priv = privS ∧
        (stateAfter idleHost breakpointProgram 9).csr.stvec = 16 ∧
        (stateAfter idleHost breakpointProgram 10).state = .halted) ∧
      ¬ ∀ host emu cause, emu.state = .running → (emu.priv = privU ∨ emu.priv = privS) →
        emu.csr.stvec ≠ 0 → syncException host emu = some cause → Delegates emu cause →
        EntersSupervisor emu (emuStep host emu).2 cause := by
  have running : (stateAfter idleHost breakpointProgram 9).state = .running := by decide +kernel
  have level : (stateAfter idleHost breakpointProgram 9).priv = privS := by decide +kernel
  have vector : (stateAfter idleHost breakpointProgram 9).csr.stvec = 16 := by decide +kernel
  have installed : (stateAfter idleHost breakpointProgram 9).csr.stvec ≠ 0 := by decide +kernel
  have halted : (stateAfter idleHost breakpointProgram 10).state = .halted := by decide +kernel
  have raises : syncException idleHost (stateAfter idleHost breakpointProgram 9) =
      some excBreakpoint := by decide +kernel
  have sent : Delegates (stateAfter idleHost breakpointProgram 9) excBreakpoint := by
    simp only [Delegates]
    decide +kernel
  refine ⟨⟨level, vector, halted⟩, ?_⟩
  intro always
  have enters := always idleHost (stateAfter idleHost breakpointProgram 9) excBreakpoint running
    (Or.inr level) installed raises sent
  have next : stateAfter idleHost breakpointProgram 10 =
      (emuStep idleHost (stateAfter idleHost breakpointProgram 9)).2 :=
    Runs.stateAt_succ (emuStep idleHost) breakpointProgram 9
  rw [next, enters.running] at halted
  cases halted

end RvEmu.Delegation
