import RvEmu.StepAnatomy

/-!
# Reporting a failed step

The debugger and the run loop trust the value `emu_step` returns: false is meant
to say that the machine has stopped with an exception at the instruction that the
pc still points to. Every step that returns false keeps this promise. One exit
breaks the converse: the host system call with an unknown number sets the run
state and then falls out of the switch, so the step advances the pc, counts a
cycle and returns true.
-/

namespace RvEmu.FailureReports

open PageWalk StepAnatomy ExecOutcome

/-- What a failed step leaves as it was. Memory may have gained accessed and dirty
    bits in the leaf entries the step visited. -/
structure Unadvanced (emu after : Emulator) : Prop where
  pc : after.rf.pc = emu.rf.pc
  regs : after.rf.regs = emu.rf.regs
  fregs : after.rf.fregs = emu.rf.fregs
  csr : ∃ mip, after.csr = { emu.csr with mip := mip }
  mcycle : after.csr.mcycle = emu.csr.mcycle
  memory : Touched emu (stepAccesses emu) after.mem

/-- The step returns false exactly when it stops the machine with an exception, and
    then the instruction has done nothing. -/
structure ReportsExactly (host : HostFloat) (emu : Emulator) : Prop where
  verdict : (emuStep host emu).1 = .failed ↔ (emuStep host emu).2.state = .exception
  frame : (emuStep host emu).1 = .failed → Unadvanced emu (emuStep host emu).2

/-- The step issues an environment call in machine mode, no handler is installed,
    and the host knows no call of this number. -/
structure UnknownCall (emu : Emulator) : Prop where
  noHandler : emu.csr.mtvec = 0 ∧ emu.csr.stvec = 0
  level : emu.priv = privM
  unassigned : ¬ (regRead emu.rf 17 = 0 ∨ regRead emu.rf 17 = 93) ∧ regRead emu.rf 17 ≠ 64
  issues : ∃ after inst, issued emu = some (after, inst) ∧ inst.raw = rawEcall

/-- A failed step has done nothing but tick the timer and walk the tables. -/
theorem failed_unadvanced (host : HostFloat) (emu : Emulator)
    (failed : (emuStep host emu).1 = .failed) : Unadvanced emu (emuStep host emu).2 := by
  obtain ⟨mem, touched, state⟩ := failed_state host emu failed
  have sameRf := ticked_rf emu mem
  have csr := ticked_csr emu mem
  have mcycle : (ticked emu mem).csr.mcycle = emu.csr.mcycle := by
    obtain ⟨mip, same⟩ := csr
    rw [same]
  rw [state]
  exact ⟨congrArg Regfile.pc sameRf, congrArg Regfile.regs sameRf,
    congrArg Regfile.fregs sameRf, csr, mcycle, touched⟩

/-- A trap keeps the run state. -/
theorem trapRaise_state (emu after : Emulator) (cause tval epc : Word)
    (raised : trapRaise emu cause tval epc = (true, after)) : after.state = emu.state := by
  rcases trapRaise_cases emu after cause tval epc raised with ⟨-, -, rfl⟩ | ⟨-, -, rfl⟩
  · rfl
  · rfl

theorem ticked_state (emu : Emulator) (mem : Memory) : (ticked emu mem).state = emu.state := by
  rw [ticked, timerTick_eq]
  rfl

/-- The host system calls stop the machine with an exception on an unknown number
    alone. -/
theorem hostCall_state (emu : Emulator) (running : emu.state = .running) :
    (hostCall emu).state = .exception ↔
      ¬ (regRead emu.rf 17 = 0 ∨ regRead emu.rf 17 = 93) ∧ regRead emu.rf 17 ≠ 64 := by
  simp only [hostCall]
  split
  · rename_i exits
    simp only [exits, not_true_eq_false, false_and, iff_false]
    decide
  · rename_i stays
    split
    · rename_i writes
      simp only [running, writes, ne_eq, not_true_eq_false, and_false, iff_false]
      decide
    · rename_i other
      exact iff_of_true rfl ⟨stays, other⟩

/-- A data access keeps the run state. -/
theorem access_state (inst : DecodedInst) (addr pa nextPc : Word) (acc : Access)
    (emu after : Emulator) (effect : Effect)
    (rest : AccessOutcome inst addr acc pa emu (.next after nextPc effect)) :
    after.state = emu.state := by
  cases rest with
  | loaded => rfl
  | reserved => rfl
  | timerSet => rfl
  | stored width mem rf =>
    obtain ⟨valid, dropped⟩ :=
      dropReservation_frame { emu with mem := mem, rf := rf } pa
    rw [dropped]
  | conditional => rfl
  | lost => rfl

/-- An instruction that completes with an exception is a host call of an unknown
    number. -/
theorem completed_exception (emu after : Emulator) (inst : DecodedInst) (nextPc : Word)
    (effect : Effect) (running : emu.state = .running)
    (outcome : Outcome emu inst (.next after nextPc effect))
    (stopped : after.state = .exception) :
    inst.raw = rawEcall ∧ (emu.csr.mtvec = 0 ∧ emu.csr.stvec = 0) ∧ emu.priv = privM ∧
      ¬ (regRead emu.rf 17 = 0 ∨ regRead emu.rf 17 = 93) ∧ regRead emu.rf 17 ≠ 64 := by
  have other : ∀ kept : Emulator, kept.state = emu.state → kept.state ≠ .exception := by
    intro kept same
    rw [same, running]
    decide
  cases outcome with
  | registers => exact absurd stopped (other _ rfl)
  | floating => exact absurd stopped (other _ rfl)
  | csrWritten => exact absurd stopped (other _ rfl)
  | mret => exact absurd stopped (other _ rfl)
  | sret => exact absurd stopped (other _ rfl)
  | hostCalled raw noHandler level =>
    exact ⟨raw, noHandler, level, (hostCall_state emu running).mp stopped⟩
  | halted => cases stopped
  | accessed addr acc pa middle exit asks translated rest =>
    obtain ⟨mem, same⟩ := mmuTranslate_frame emu middle addr pa acc translated
    have kept := access_state inst addr pa nextPc acc middle after effect rest
    rw [same] at kept
    exact absurd stopped (other after kept)

/-- A host call of an unknown number stops the machine, and the step still completes
    as if it had succeeded. -/
theorem unknownCall_completes (host : HostFloat) (emu : Emulator) (call : UnknownCall emu) :
    (emuStep host emu).1 = .retired .quiet ∧ (emuStep host emu).2.state = .exception := by
  obtain ⟨noHandler, level, unassigned, after, inst, came, raw⟩ := call
  have kind : inst.opcode = .system := by
    rw [issued_opcode emu after inst came, raw]
    decide
  obtain ⟨-, -, -, -, mem, same, -⟩ := issued_front emu after inst came
  subst same
  obtain ⟨mip, csr⟩ := ticked_csr emu mem
  have vectors : ¬ ((ticked emu mem).csr.mtvec ≠ 0 ∨ (ticked emu mem).csr.stvec ≠ 0) := by
    rw [csr]
    exact not_or.mpr ⟨not_not.mpr noHandler.1, not_not.mpr noHandler.2⟩
  have machine : ¬ (ticked emu mem).priv ≠ privM := by
    rw [ticked_priv]
    exact not_not.mpr level
  have stopped : hostCall (ticked emu mem) = { ticked emu mem with state := .exception } := by
    have number : (ticked emu mem).rf = emu.rf := ticked_rf emu mem
    simp only [hostCall, number]
    rw [if_neg unassigned.1, if_neg unassigned.2]
  rw [issued_step host emu _ inst came, execute, ecall_switch host _ inst kind raw, execEcall,
    if_neg vectors, if_neg machine, stopped]
  exact ⟨rfl, rfl⟩

/-- A step of a running machine that stops it with an exception failed, or made a
    host call of an unknown number. -/
theorem exception_reported (host : HostFloat) (emu : Emulator) (running : emu.state = .running)
    (stopped : (emuStep host emu).2.state = .exception) :
    (emuStep host emu).1 = .failed ∨ UnknownCall emu := by
  have started : emu.state ≠ .exception := by
    rw [running]
    decide
  have shape := step_shape host emu
  generalize emuStep host emu = result at shape stopped ⊢
  cases shape with
  | interrupted after taken =>
    obtain ⟨raised, -⟩ := taken_state emu after _ taken
    have kept : after.state = (timerTick emu).state := trapRaise_state _ _ _ _ _ raised
    rw [timerTick_eq] at kept
    exact absurd (kept.symm.trans stopped) started
  | trapped mem cause tval after touched code raised =>
    have kept := trapRaise_state _ _ _ _ _ raised
    rw [ticked_state] at kept
    exact absurd (kept.symm.trans stopped) started
  | failed => exact Or.inl rfl
  | retired mem inst after nextPc effect came touched outcome =>
    have still : (ticked emu mem).state = .running := (ticked_state emu mem).trans running
    obtain ⟨raw, noHandler, level, unassigned⟩ :=
      completed_exception (ticked emu mem) after inst nextPc effect still outcome stopped
    obtain ⟨mip, csr⟩ := ticked_csr emu mem
    rw [csr] at noHandler
    rw [ticked_priv] at level
    rw [ticked_rf] at unassigned
    exact Or.inr ⟨noHandler, level, unassigned, _, inst, came, raw⟩

/-- In a running state, failure is reported exactly when the step makes no host call
    of an unknown number. -/
theorem reports_iff (host : HostFloat) (emu : Emulator) (running : emu.state = .running) :
    ReportsExactly host emu ↔ ¬ UnknownCall emu := by
  constructor
  · intro reports call
    obtain ⟨event, stopped⟩ := unknownCall_completes host emu call
    have failed := reports.verdict.mpr stopped
    rw [event] at failed
    cases failed
  · intro known
    refine ⟨⟨?_, ?_⟩, ?_⟩
    · exact failed_exception host emu
    · intro stopped
      exact (exception_reported host emu running stopped).resolve_right known
    · exact failed_unadvanced host emu

/-- `addi x17, x0, 1` and `ecall`: a host call that does not exist. -/
def unknownCallProgram : Emulator :=
  loadImage (emuInit fun _ => 0) (programImage 0x1000 [0x00100893, 0x00000073])

/-- The exact condition for its `ecall`. -/
theorem unknownCallProgram_reports :
    ReportsExactly idleHost (stateAfter idleHost unknownCallProgram 1) ↔
      ¬ UnknownCall (stateAfter idleHost unknownCallProgram 1) :=
  reports_iff idleHost (stateAfter idleHost unknownCallProgram 1) (by decide +kernel)

/-- Its `ecall` stops the machine with an exception, and the step returns true with
    the pc after it and the cycle counted. -/
theorem unknown_call_succeeds :
    ((stateAfter idleHost unknownCallProgram 1).rf.pc = 0x1004 ∧
        (stateAfter idleHost unknownCallProgram 2).state = .exception ∧
        (stateAfter idleHost unknownCallProgram 2).rf.pc = 0x1008 ∧
        (stateAfter idleHost unknownCallProgram 2).csr.mcycle = 2) ∧
      ¬ ∀ host emu, emu.state = .running → ReportsExactly host emu := by
  have running : (stateAfter idleHost unknownCallProgram 1).state = .running := by
    decide +kernel
  have stopped : (stateAfter idleHost unknownCallProgram 2).state = .exception := by
    decide +kernel
  have event : (emuStep idleHost (stateAfter idleHost unknownCallProgram 1)).1 =
      .retired .quiet := by
    decide +kernel
  refine ⟨⟨by decide +kernel, stopped, by decide +kernel, by decide +kernel⟩, ?_⟩
  intro always
  have reports := always idleHost (stateAfter idleHost unknownCallProgram 1) running
  have next : stateAfter idleHost unknownCallProgram 2 =
      (emuStep idleHost (stateAfter idleHost unknownCallProgram 1)).2 :=
    Runs.stateAt_succ (emuStep idleHost) unknownCallProgram 1
  rw [next] at stopped
  have failed := reports.verdict.mpr stopped
  rw [event] at failed
  cases failed

end RvEmu.FailureReports
