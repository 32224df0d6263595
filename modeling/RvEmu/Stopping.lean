import Mathlib.Data.Nat.Find
import RvEmu.Confinement
import RvEmu.Delegation
import RvEmu.FailureReports
import RvEmu.RunSplitting

/-!
# How a run ends

A machine leaves the running state in few ways: an exception finds no vector at the level
that it goes to, a breakpoint finds no machine vector, or a program without any handler
calls the host to exit. The condition is read off the state before the step, and with it
the loop of `emu_run` without a limit returns exactly when the run reaches such a step.
-/

namespace RvEmu.Stopping

open PageWalk ExecOutcome StepAnatomy Delegation RunSplitting

/-- The vector of the handler that an exception of this cause goes to. -/
def vectorFor (emu : Emulator) (cause : Word) : Word :=
  if delegated emu cause then emu.csr.stvec else emu.csr.mtvec

/-- The step makes the host's `write` call, which alone of the host's calls returns. -/
structure HostWrite (emu : Emulator) : Prop where
  noHandler : emu.csr.mtvec = 0 ∧ emu.csr.stvec = 0
  level : emu.priv = privM
  number : regRead emu.rf 17 = 64
  issues : ∃ after inst, issued emu = some (after, inst) ∧ inst.raw = rawEcall

/-- The next step stops the machine. -/
def Stops (host : HostFloat) (emu : Emulator) : Prop :=
  UnguardedBreakpoint emu ∨
    ∃ cause, syncException host emu = some cause ∧ vectorFor emu cause = 0 ∧ ¬ HostWrite emu

/-! ## Raising an exception -/

/-- The timer and the tables have no say in where an exception goes. -/
theorem ticked_vector (emu : Emulator) (mem : Memory) (cause : Word) :
    vectorFor (ticked emu mem) cause = vectorFor emu cause := by
  obtain ⟨mip, csr⟩ := ticked_csr emu mem
  have sent : delegated (ticked emu mem) cause = delegated emu cause := by
    simp only [delegated, csr, ticked_priv]
  simp only [vectorFor, sent, csr]

/-- The two run states outside the running one. -/
theorem halted_stops : EmuState.halted ≠ .running := by decide

theorem exception_stops : EmuState.exception ≠ .running := by decide

theorem countCycle_state (result : Event × Emulator) :
    (countCycle result).2.state = result.2.state := by
  simp only [countCycle]
  split
  · rfl
  · rfl

/-- An exception stops the machine exactly when its vector is zero. -/
theorem raiseOrStop_stops (emu : Emulator) (cause tval epc : Word)
    (running : emu.state = .running) :
    (raiseOrStop emu cause tval epc).2.state ≠ .running ↔ vectorFor emu cause = 0 := by
  simp only [raiseOrStop, trapRaise, vectorFor]
  have stays : (enterSupervisor emu cause tval epc).state = .running ∧
      (enterMachine emu cause tval epc).state = .running := ⟨running, running⟩
  cases delegated emu cause with
  | true =>
    simp only [if_true]
    by_cases missing : emu.csr.stvec = 0
    · simp only [missing, if_true, iff_true]
      decide
    · simp only [missing, if_false, stays.1, ne_eq, not_true_eq_false]
  | false =>
    simp only [Bool.false_eq_true, if_false]
    by_cases missing : emu.csr.mtvec = 0
    · simp only [missing, if_true, iff_true]
      decide
    · simp only [missing, if_false, stays.2, ne_eq, not_true_eq_false]

/-! ## Completing an instruction -/

/-- The exit leaves the machine running, as far as the switch has its say. -/
def GoesOn : Exec → Prop
  | .next emu _ _ => emu.state = .running
  | .stopped _ => False
  | _ => True

/-- A data access leaves it running. -/
theorem access_goesOn (inst : DecodedInst) (addr pa : Word) (acc : Access) (emu : Emulator)
    (exit : Exec) (running : emu.state = .running)
    (rest : AccessOutcome inst addr acc pa emu exit) : GoesOn exit := by
  cases exit with
  | next after nextPc effect =>
    exact (FailureReports.access_state inst addr pa nextPc acc emu after effect rest).trans running
  | stopped after => cases rest
  | unknown after => trivial
  | except after cause at' => trivial
  | raised after cause => trivial

/-- So does a memory instruction. -/
theorem memory_goesOn (host : HostFloat) (emu : Emulator) (inst : DecodedInst)
    (running : emu.state = .running) (memory : inst.opcode ∈ memoryOpcodes) :
    GoesOn (execSwitch host emu inst) := by
  cases asked : dataAccess emu inst with
  | none =>
    rcases refused_exit host emu inst memory asked with exit | ⟨cause, addr, -, exit⟩
    · rw [exit emu rfl]
      trivial
    · rw [exit emu rfl]
      trivial
  | some request =>
    obtain ⟨addr, acc⟩ := request
    rw [execSwitch_access host emu inst addr acc asked, translateThen]
    rcases translated : mmuTranslate emu addr acc with ⟨result, after⟩
    cases result with
    | error cause => trivial
    | ok pa =>
      obtain ⟨mem, rfl⟩ := mmuTranslate_frame emu after addr pa acc translated
      exact access_goesOn inst addr pa acc (withMem emu mem) _ running
        (accessOf_outcome emu (withMem emu mem) inst addr pa acc asked)

/-- Of the system instructions, only the environment call and the breakpoint stop it. -/
theorem system_goesOn (emu : Emulator) (inst : DecodedInst) (running : emu.state = .running)
    (call : inst.raw ≠ rawEcall) (breakpoint : inst.raw ≠ rawEbreak) :
    GoesOn (execSystem emu inst) := by
  simp only [execSystem, if_neg call, if_neg breakpoint]
  split
  · split
    · trivial
    · exact running
  · split
    · split
      · trivial
      · exact running
    · split
      · split
        · trivial
        · exact running
      · simp only [execCsr, writeBack]
        split
        · trivial
        · split
          · trivial
          · split
            · trivial
            · split
              · trivial
              · split
                · exact running
                · trivial

/-- Every other instruction leaves the machine running. -/
theorem execSwitch_goesOn (host : HostFloat) (emu : Emulator) (inst : DecodedInst)
    (running : emu.state = .running) (call : inst.raw ≠ rawEcall)
    (breakpoint : inst.raw ≠ rawEbreak) : GoesOn (execSwitch host emu inst) := by
  by_cases memory : inst.opcode ∈ memoryOpcodes
  · exact memory_goesOn host emu inst running memory
  · simp only [execSwitch, writeBack]
    cases kind : inst.opcode with
    | system => exact system_goesOn emu inst running call breakpoint
    | branch =>
      simp only [execBranch]
      split
      · trivial
      · exact running
    | fp =>
      simp only [execFp]
      split
      · trivial
      · exact running
    | other => trivial
    | load => exact absurd (by simp [memoryOpcodes, kind]) memory
    | loadFp => exact absurd (by simp [memoryOpcodes, kind]) memory
    | store => exact absurd (by simp [memoryOpcodes, kind]) memory
    | storeFp => exact absurd (by simp [memoryOpcodes, kind]) memory
    | amo => exact absurd (by simp [memoryOpcodes, kind]) memory
    | _ => exact running

/-! ## One step -/

/-- A state whose front end ended in this way issues nothing else. -/
theorem issued_only (emu ready after : Emulator) (inst other : DecodedInst)
    (front : frontEnd emu = .issued ready inst) (came : issued emu = some (after, other)) :
    after = ready ∧ other = inst := by
  rw [issued, front] at came
  cases came
  exact ⟨rfl, rfl⟩

/-- The environment call stops the machine when its vector is zero, unless the host writes. -/
theorem ecall_stops (host : HostFloat) (emu : Emulator) (mem : Memory) (inst : DecodedInst)
    (running : emu.state = .running) (came : issued emu = some (ticked emu mem, inst))
    (raw : inst.raw = rawEcall) :
    (execute host (ticked emu mem) inst).2.state ≠ .running ↔
      vectorFor emu (ecallCause emu.priv) = 0 ∧ ¬ HostWrite emu := by
  have kind : inst.opcode = .system := by
    rw [issued_opcode emu _ inst came, raw]
    decide
  have still : (ticked emu mem).state = .running :=
    (FailureReports.ticked_state emu mem).trans running
  obtain ⟨mip, csr⟩ := ticked_csr emu mem
  have vectors : (ticked emu mem).csr.mtvec = emu.csr.mtvec ∧
      (ticked emu mem).csr.stvec = emu.csr.stvec := by
    rw [csr]
    exact ⟨rfl, rfl⟩
  rw [execute, ecall_switch host _ inst kind raw, execEcall, vectors.1, vectors.2, ticked_priv]
  by_cases installed : emu.csr.mtvec ≠ 0 ∨ emu.csr.stvec ≠ 0
  · have silent : ¬ HostWrite emu := by
      intro write
      rcases installed with machine | supervisor
      · exact machine write.noHandler.1
      · exact supervisor write.noHandler.2
    rw [if_pos installed]
    dsimp only
    rw [raiseOrStop_stops _ _ _ _ still, ticked_vector]
    exact ⟨fun missing => ⟨missing, silent⟩, fun both => both.1⟩
  · have noHandler : emu.csr.mtvec = 0 ∧ emu.csr.stvec = 0 := by
      obtain ⟨machine, supervisor⟩ := not_or.mp installed
      exact ⟨not_not.mp machine, not_not.mp supervisor⟩
    have missing : vectorFor emu (ecallCause emu.priv) = 0 := by
      rw [vectorFor, noHandler.1, noHandler.2, ite_self]
    rw [if_neg installed]
    by_cases level : emu.priv = privM
    · rw [if_neg (not_not.mpr level)]
      have writes : HostWrite emu ↔ regRead emu.rf 17 = 64 :=
        ⟨HostWrite.number, fun number => ⟨noHandler, level, number, _, inst, came, raw⟩⟩
      rw [writes]
      have number : (ticked emu mem).rf = emu.rf := ticked_rf emu mem
      simp only [hostCall, number]
      split
      · rename_i exits
        have other : regRead emu.rf 17 ≠ 64 := by
          rcases exits with zero | ninetyThree
          · rw [zero]
            decide
          · rw [ninetyThree]
            decide
        exact iff_of_true halted_stops ⟨missing, other⟩
      · split
        · rename_i write
          exact iff_of_false (fun stopped => stopped still) (fun both => both.2 write)
        · rename_i other
          exact iff_of_true exception_stops ⟨missing, other⟩
    · rw [if_pos level]
      exact iff_of_true exception_stops ⟨missing, fun write => level write.level⟩

/-- An issued instruction stops the machine as the condition says. -/
theorem issued_stops (host : HostFloat) (emu : Emulator) (mem : Memory) (inst : DecodedInst)
    (running : emu.state = .running) (front : frontEnd emu = .issued (ticked emu mem) inst)
    (touched : Touched emu (fetchAccesses (timerTick emu)) mem) :
    (execute host (ticked emu mem) inst).2.state ≠ .running ↔ Stops host emu := by
  have came : issued emu = some (ticked emu mem, inst) := by
    rw [issued, front]
  have kind := issued_opcode emu _ inst came
  have still : ∀ later, (ticked emu later).state = .running := fun later =>
    (FailureReports.ticked_state emu later).trans running
  obtain ⟨mip, csr⟩ := ticked_csr emu mem
  have unguarded : UnguardedBreakpoint emu ↔ emu.csr.mtvec = 0 ∧ inst.raw = rawEbreak := by
    constructor
    · rintro ⟨missing, after, other, same, raw⟩
      obtain ⟨-, rfl⟩ := issued_only emu _ after inst other front same
      exact ⟨missing, raw⟩
    · rintro ⟨missing, raw⟩
      exact ⟨missing, _, inst, came, raw⟩
  have write : HostWrite emu → inst.raw = rawEcall := by
    rintro ⟨-, -, -, after, other, same, raw⟩
    obtain ⟨-, rfl⟩ := issued_only emu _ after inst other front same
    exact raw
  have different : rawEcall ≠ rawEbreak := by decide
  simp only [Stops, syncException, front, unguarded, ticked_priv]
  by_cases breakpoint : inst.raw = rawEbreak
  · have silent : ¬ HostWrite emu := fun call => different ((write call).symm.trans breakpoint)
    rw [breakpoint] at kind
    rw [execute, ebreak_switch host _ inst kind breakpoint, execEbreak, csr]
    simp only [if_pos breakpoint]
    by_cases missing : emu.csr.mtvec = 0
    · rw [if_neg (not_not.mpr missing)]
      exact iff_of_true halted_stops (Or.inl ⟨missing, breakpoint⟩)
    · rw [if_pos missing]
      dsimp only
      rw [raiseOrStop_stops _ _ _ _ (still mem), ticked_vector]
      constructor
      · intro empty
        exact Or.inr ⟨excBreakpoint, rfl, empty, silent⟩
      · rintro (⟨absent, -⟩ | ⟨cause, raises, empty, -⟩)
        · exact absurd absent missing
        · cases raises
          exact empty
  · have guarded : ¬ (emu.csr.mtvec = 0 ∧ inst.raw = rawEbreak) := fun both => breakpoint both.2
    simp only [if_neg breakpoint, guarded, false_or]
    by_cases call : inst.raw = rawEcall
    · rw [ecall_stops host emu mem inst running came call]
      simp only [if_pos call, Option.some.injEq, exists_eq_left']
    · have silent : ¬ HostWrite emu := fun calls => call (write calls)
      simp only [if_neg call, silent, not_false_eq_true, and_true]
      have goesOn := execSwitch_goesOn host (ticked emu mem) inst (still mem) call breakpoint
      rw [execute]
      rcases faulted_state emu mem inst _ came touched (execSwitch_outcome host _ inst) with
        ⟨after, nextPc, effect, exit⟩ | ⟨later, -, exit | ⟨cause, addr, -, exit⟩ |
          ⟨cause, -, exit⟩ | exit⟩
      · rw [exit] at goesOn ⊢
        refine iff_of_false (fun stopped => stopped goesOn) ?_
        rintro ⟨cause, raises, -⟩
        cases raises
      · rw [exit]
        simp only [raiseOrStop_stops _ _ _ _ (still later), ticked_vector, Option.some.injEq,
          exists_eq_left']
      · rw [exit]
        simp only [raiseOrStop_stops _ _ _ _ (still later), ticked_vector, Option.some.injEq,
          exists_eq_left']
      · rw [exit]
        simp only [raiseOrStop_stops _ _ _ _ (still later), ticked_vector, Option.some.injEq,
          exists_eq_left']
      · rw [exit] at goesOn
        exact goesOn.elim

/-- A step takes a running machine out of the running state exactly on that condition. -/
theorem step_stops (host : HostFloat) (emu : Emulator) (running : emu.state = .running) :
    (emuStep host emu).2.state ≠ .running ↔ Stops host emu := by
  rw [emuStep_halves, countCycle_state]
  cases front : frontEnd emu with
  | interrupted after =>
    obtain ⟨raised, -⟩ := taken_state emu after _ (interrupted_front emu after front)
    have kept := FailureReports.trapRaise_state _ _ _ _ _ raised
    rw [timerTick_eq] at kept
    refine iff_of_false (fun stopped => stopped (kept.trans running)) ?_
    rintro (⟨-, ready, inst, came, -⟩ | ⟨cause, raises, -⟩)
    · rw [issued, front] at came
      cases came
    · rw [syncException, front] at raises
      cases raises
  | refused after cause tval =>
    obtain ⟨-, mem, rfl, -⟩ := refused_front emu after cause tval front
    have still : (ticked emu mem).state = .running :=
      (FailureReports.ticked_state emu mem).trans running
    simp only [backEnd]
    rw [raiseOrStop_stops _ _ _ _ still, ticked_vector]
    constructor
    · intro missing
      refine Or.inr ⟨cause, by rw [syncException, front], missing, ?_⟩
      rintro ⟨-, -, -, ready, inst, came, -⟩
      rw [issued, front] at came
      cases came
    · rintro (⟨-, ready, inst, came, -⟩ | ⟨code, raises, missing, -⟩)
      · rw [issued, front] at came
        cases came
      · rw [syncException, front] at raises
        cases raises
        exact missing
  | issued after inst =>
    have came : issued emu = some (after, inst) := by
      rw [issued, front]
    obtain ⟨-, -, -, -, mem, rfl, touched⟩ := issued_front emu after inst came
    exact issued_stops host emu mem inst running front touched

/-! ## Whole runs -/

/-- The states of a run keep running exactly as long as no step stops the machine. -/
theorem run_stops (host : HostFloat) (emu : Emulator) (running : emu.state = .running) (n : Nat) :
    (∀ k, k ≤ n → (stateAfter host emu k).state = .running) ↔
      ∀ k, k < n → ¬ Stops host (stateAfter host emu k) := by
  apply Runs.invariant_iff (emuStep host) (fun emu => emu.state = .running)
    (fun emu => ¬ Stops host emu) ?_ emu running n
  intro emu goes
  rw [← step_stops host emu goes]
  exact not_not.symm

/-- The first state of a run outside the running state ends a loop without a limit. The
    induction is on the number of steps up to it. -/
theorem unlimited_ends (host : HostFloat) (n fuel : Nat) (now : RunResult)
    (goes : ∀ k, k < n → (stateAfter host now.emu k).state = .running)
    (ended : (stateAfter host now.emu n).state ≠ .running) (enough : n < fuel) :
    emuRunWhile host 0 fuel now = some (afterCalls host now n) := by
  have unlimited : ¬ ((0 : DWord) > 0 ∧ now.steps ≥ 0) := by
    rintro ⟨positive, -⟩
    exact absurd positive (by decide)
  obtain ⟨left, rfl⟩ : ∃ left, fuel = left + 1 := ⟨fuel - 1, by omega⟩
  induction n generalizing now left with
  | zero =>
    have stopped : now.emu.state ≠ .running := ended
    rw [emuRunWhile, if_pos stopped, afterCalls_zero]
  | succ n inductionHypothesis =>
    have running : now.emu.state = .running := goes 0 (Nat.succ_pos n)
    rw [emuRunWhile, if_neg (not_not.mpr running), if_neg unlimited, afterCalls_succ]
    rcases step : emuStep host now.emu with ⟨event, next⟩
    have sameNext : ∀ k, stateAfter host next k = stateAfter host now.emu (k + 1) := by
      intro k
      rw [stateAfter, stateAfter, ← Runs.stateAt_step, step]
    by_cases failed : event = .failed
    · -- A failed step leaves the running state, so it was the last one.
      subst failed
      have stopped : next.state = .exception := by
        have exception := failed_exception host now.emu (by rw [step])
        rw [step] at exception
        exact exception
      have last : n = 0 := by
        by_contra more
        have going := goes 1 (by omega)
        rw [← sameNext 0] at going
        exact exception_stops (stopped.symm.trans going)
      subst last
      have counts : RunSplitting.succeeds .failed = false := rfl
      rw [afterCalls_zero, counts, Bool.toNat_false, BitVec.ofNat_eq_ofNat, BitVec.add_zero]
    · have counts : RunSplitting.succeeds event = true := decide_eq_true failed
      obtain ⟨rest, rfl⟩ : ∃ rest, left = rest + 1 := ⟨left - 1, by omega⟩
      have goesOn := inductionHypothesis
        { steps := now.steps + 1, calls := now.calls + 1, emu := next }
        (fun k below => by rw [sameNext]; exact goes (k + 1) (by omega))
        (by rw [sameNext]; exact ended)
        (fun both => absurd both.1 (by decide)) rest (by omega)
      simp only [counts, Bool.toNat_true]
      cases event with
      | failed => exact absurd rfl failed
      | interrupted => exact goesOn
      | trapped cause tval => exact goesOn
      | retired effect => exact goesOn

/-- A loop without a limit does not end while the machine runs. -/
theorem unlimited_runs (host : HostFloat) (fuel : Nat) (now : RunResult)
    (goes : ∀ k, (stateAfter host now.emu k).state = .running) :
    emuRunWhile host 0 fuel now = none := by
  induction fuel generalizing now with
  | zero => rfl
  | succ fuel inductionHypothesis =>
    have unlimited : ¬ ((0 : DWord) > 0 ∧ now.steps ≥ 0) := by
      rintro ⟨positive, -⟩
      exact absurd positive (by decide)
    have running : now.emu.state = .running := goes 0
    rw [emuRunWhile, if_neg (not_not.mpr running), if_neg unlimited]
    rcases step : emuStep host now.emu with ⟨event, next⟩
    have later : ∀ k, (stateAfter host next k).state = .running := by
      intro k
      have going := goes (k + 1)
      rw [stateAfter, ← Runs.stateAt_step, step] at going
      exact going
    have goesOn := inductionHypothesis
      { steps := now.steps + 1, calls := now.calls + 1, emu := next } later
    cases event with
    | failed =>
      have exception := failed_exception host now.emu (by rw [step])
      rw [step] at exception
      exact absurd ((exception.symm.trans (later 0))) exception_stops
    | interrupted => exact goesOn
    | trapped cause tval => exact goesOn
    | retired effect => exact goesOn

/-- A loop under a limit makes this many calls. -/
theorem callsWithin_exact (host : HostFloat) (limit n : Nat) (emu : Emulator)
    (goes : ∀ k, k < n → (stateAfter host emu k).state = .running)
    (ended : n = limit ∨ (n < limit ∧ (stateAfter host emu n).state ≠ .running)) :
    callsWithin host limit emu = n := by
  have bound : callsWithin host limit emu ≤ limit :=
    Runs.stepsWhile_le (emuStep host) isRunning limit emu
  rcases Nat.lt_trichotomy (callsWithin host limit emu) n with few | same | many
  · have early : callsWithin host limit emu < limit := by
      rcases ended with rfl | ⟨below, -⟩
      · exact few
      · omega
    have stays := Runs.stepsWhile_ended (emuStep host) isRunning limit emu early
    exact absurd (goes _ few) (of_decide_eq_false stays)
  · exact same
  · rcases ended with rfl | ⟨-, stopped⟩
    · omega
    · have going := Runs.stepsWhile_going (emuStep host) isRunning limit emu n many
      exact absurd (of_decide_eq_true going) stopped

/-- A call of `emu_run` on a running machine ends after this number of steps: with the first
    step that stops the machine, or at its limit. -/
inductive EndsAfter (host : HostFloat) (limit : DWord) (emu : Emulator) : Nat → Prop where
  | stopped (last : Nat) (within : limit = 0 ∨ last < limit.toNat)
      (before : ∀ k, k < last → ¬ Stops host (stateAfter host emu k))
      (stops : Stops host (stateAfter host emu last)) : EndsAfter host limit emu (last + 1)
  | limited (positive : 0 < limit)
      (before : ∀ k, k < limit.toNat → ¬ Stops host (stateAfter host emu k)) :
      EndsAfter host limit emu limit.toNat

/-- It makes that many calls of `emu_step`, counts those that did not fail, and leaves the
    state that the last of them left. -/
theorem endsAfter_returns (host : HostFloat) (limit : DWord) (emu : Emulator)
    (running : emu.state = .running) (n : Nat) (ends : EndsAfter host limit emu n) :
    RunReturns host limit emu (afterCalls host { steps := 0, calls := 0, emu := emu } n) := by
  cases ends with
  | stopped last within before stops =>
    have going := (run_stops host emu running last).mpr before
    have goes : ∀ k, k < last + 1 → (stateAfter host emu k).state = .running :=
      fun k below => going k (by omega)
    have stopped : (stateAfter host emu (last + 1)).state ≠ .running :=
      (step_stops host _ (going last (Nat.le_refl last))).mpr stops
    by_cases unlimited : limit = 0
    · subst unlimited
      exact ⟨last + 2, fun fuel enough =>
        unlimited_ends host (last + 1) fuel _ goes stopped (by omega)⟩
    · have below : last < limit.toNat := within.resolve_left unlimited
      have positive : 0 < limit := by bv_omega
      have ended : last + 1 = limit.toNat ∨
          (last + 1 < limit.toNat ∧ (stateAfter host emu (last + 1)).state ≠ .running) :=
        (Nat.eq_or_lt_of_le below).imp_right (fun early => ⟨early, stopped⟩)
      rw [runReturns_iff host limit positive, runResult,
        callsWithin_exact host limit.toNat (last + 1) emu goes ended]
  | limited positive before =>
    have going := (run_stops host emu running limit.toNat).mpr before
    rw [runReturns_iff host limit positive, runResult,
      callsWithin_exact host limit.toNat limit.toNat emu (fun k below => going k (by omega))
        (Or.inl rfl)]

/-- A call of `emu_run` with this limit has a single result. -/
theorem returns_unique (host : HostFloat) (limit : DWord) (emu : Emulator)
    (one other : RunResult) (first : RunReturns host limit emu one)
    (second : RunReturns host limit emu other) : one = other := by
  obtain ⟨enough, returns⟩ := first
  obtain ⟨bound, again⟩ := second
  have both := returns (max enough bound) (Nat.le_max_left _ _)
  rw [again _ (Nat.le_max_right _ _)] at both
  exact (Option.some.inj both).symm

/-- What returns has reached such a number of calls. -/
theorem returns_ends (host : HostFloat) (limit : DWord) (emu : Emulator)
    (running : emu.state = .running) (result : RunResult)
    (returns : RunReturns host limit emu result) :
    ∃ n, EndsAfter host limit emu n ∧
      result = afterCalls host { steps := 0, calls := 0, emu := emu } n := by
  have some : ∃ n, EndsAfter host limit emu n := by
    by_cases ever : ∃ last, (limit = 0 ∨ last < limit.toNat) ∧
        Stops host (stateAfter host emu last)
    · classical
      obtain ⟨within, stops⟩ := Nat.find_spec ever
      refine ⟨_, .stopped (Nat.find ever) within ?_ stops⟩
      intro k below early
      have inside : limit = 0 ∨ k < limit.toNat := within.imp_right (by omega)
      exact Nat.find_min ever below ⟨inside, early⟩
    · by_cases unlimited : limit = 0
      · subst unlimited
        obtain ⟨enough, ended⟩ := returns
        have always : ∀ k, (stateAfter host emu k).state = .running := by
          intro k
          apply (run_stops host emu running k).mpr ?_ k (Nat.le_refl k)
          intro j _ stops
          exact ever ⟨j, Or.inl rfl, stops⟩
        have none := ended enough (Nat.le_refl enough)
        rw [unlimited_runs host enough _ always] at none
        cases none
      · refine ⟨_, .limited (by bv_omega) ?_⟩
        intro k below stops
        exact ever ⟨k, Or.inr below, stops⟩
  obtain ⟨n, ends⟩ := some
  exact ⟨n, ends, returns_unique host limit emu _ _ returns
    (endsAfter_returns host limit emu running n ends)⟩

/-- A call of `emu_run` on a running machine returns exactly when it reaches a step that
    stops the machine, or its limit; without a limit it returns in no other way. -/
theorem run_ends_iff (host : HostFloat) (limit : DWord) (emu : Emulator)
    (running : emu.state = .running) (result : RunResult) :
    RunReturns host limit emu result ↔
      ∃ n, EndsAfter host limit emu n ∧
        result = afterCalls host { steps := 0, calls := 0, emu := emu } n := by
  constructor
  · exact returns_ends host limit emu running result
  · rintro ⟨n, ends, rfl⟩
    exact endsAfter_returns host limit emu running n ends

/-- A program without handlers that exits through the host: `addi x17, x0, 93` and an
    environment call. -/
def exitProgram : Emulator :=
  loadImage (emuInit fun _ => 0) (programImage 0x1000 [0x05D00893, 0x00000073])

/-- Without a limit `emu_run` returns after its second step. -/
theorem exitProgram_returns :
    RunReturns idleHost 0 exitProgram
      (afterCalls idleHost { steps := 0, calls := 0, emu := exitProgram } 2) := by
  refine (run_ends_iff idleHost 0 exitProgram (by decide +kernel) _).mpr
    ⟨2, .stopped 1 (Or.inl rfl) ?_ ?_, rfl⟩
  · intro k below
    obtain rfl : k = 0 := by omega
    rw [← step_stops idleHost _ (by decide +kernel)]
    decide +kernel
  · rw [← step_stops idleHost _ (by decide +kernel)]
    decide +kernel

/-! ## Code that cannot stop the machine -/

/-- The exceptions of a step have small codes. -/
theorem syncException_small (host : HostFloat) (emu : Emulator) (cause : Word)
    (raises : syncException host emu = some cause) : cause < 16 := by
  cases front : frontEnd emu with
  | interrupted after =>
    rw [syncException, front] at raises
    cases raises
  | refused after code tval =>
    rw [syncException, front] at raises
    cases raises
    exact (refused_front emu after cause tval front).1
  | issued after inst =>
    have came : issued emu = some (after, inst) := by
      rw [issued, front]
    obtain ⟨-, -, -, -, mem, rfl, touched⟩ := issued_front emu after inst came
    simp only [syncException, front] at raises
    split at raises
    · cases raises
      decide
    · split at raises
      · cases raises
        simp only [ecallCause]
        split
        · decide
        · split
          · decide
          · decide
      · rcases faulted_state emu mem inst _ came touched (execSwitch_outcome host _ inst) with
          ⟨after, nextPc, effect, exit⟩ | ⟨later, -, exit | ⟨code, addr, small, exit⟩ |
            ⟨code, small, exit⟩ | exit⟩
        · rw [exit] at raises
          cases raises
        · rw [exit] at raises
          cases raises
          decide
        · rw [exit] at raises
          cases raises
          exact small
        · rw [exit] at raises
          cases raises
          exact small
        · rw [exit] at raises
          cases raises

/-- The machine has a vector, and so has the supervisor where an exception is delegated. -/
structure Handled (emu : Emulator) : Prop where
  machine : emu.csr.mtvec ≠ 0
  supervisor : emu.csr.medeleg = 0 ∨ emu.csr.stvec ≠ 0

/-- A step from such a state does not stop the machine. -/
theorem handled_goesOn (host : HostFloat) (emu : Emulator) (handled : Handled emu) :
    ¬ Stops host emu := by
  rintro (⟨missing, -⟩ | ⟨cause, raises, missing, -⟩)
  · exact handled.machine missing
  · obtain ⟨code, irq⟩ := exception_code cause (syncException_small host emu cause raises)
    rw [vectorFor] at missing
    cases sent : delegated emu cause with
    | false =>
      rw [sent] at missing
      exact handled.machine missing
    | true =>
      rw [sent, if_pos rfl] at missing
      rcases handled.supervisor with none | vector
      · have noInterrupt : ¬ (0 : Word) ≠ 0 := not_not.mpr rfl
        simp only [delegated, code, irq, noInterrupt, if_false, none, decide_eq_true_eq] at sent
        exact absurd sent.2.2 (by simp)
      · exact vector missing

/-- Every step of a run that stays running is counted. -/
theorem countEvents_running (host : HostFloat) (emu : Emulator) (n : Nat)
    (goes : ∀ k, k ≤ n → (stateAfter host emu k).state = .running) :
    Runs.countEvents (emuStep host) RunSplitting.succeeds emu n = n := by
  induction n with
  | zero => rfl
  | succ n inductionHypothesis =>
    have counts : RunSplitting.succeeds (Runs.eventAt (emuStep host) emu n) = true := by
      refine decide_eq_true fun failed => ?_
      have exception := failed_exception host _ failed
      exact exception_stops (exception.symm.trans (goes (n + 1) (Nat.le_refl _)))
    rw [Runs.countEvents, inductionHypothesis (fun k below => goes k (by omega)), counts]
    rfl

/-- While every state reached before the limit has a machine vector and, where it delegates an
    exception, a supervisor vector, `emu_run` uses up the limit, and without a limit it does
    not return. A vector for each of its exceptions is not enough: a delegated breakpoint
    stops a machine without a machine vector. -/
theorem handled_runs_on (host : HostFloat) (limit : DWord) (emu : Emulator)
    (running : emu.state = .running)
    (handled : ∀ k, limit = 0 ∨ k < limit.toNat → Handled (stateAfter host emu k))
    (result : RunResult) :
    RunReturns host limit emu result ↔
      0 < limit ∧ result.steps = limit ∧ result.calls = limit.toNat ∧
        result.emu = stateAfter host emu limit.toNat := by
  have goesOn : ∀ k, limit = 0 ∨ k < limit.toNat → ¬ Stops host (stateAfter host emu k) :=
    fun k inside => handled_goesOn host _ (handled k inside)
  by_cases positive : 0 < limit
  · have going := (run_stops host emu running limit.toNat).mpr
      (fun k below => goesOn k (Or.inr below))
    have full : callsWithin host limit.toNat emu = limit.toNat :=
      callsWithin_exact host limit.toNat limit.toNat emu (fun k below => going k (by omega))
        (Or.inl rfl)
    have steps : (0 : DWord) + BitVec.ofNat 64
        (Runs.countEvents (emuStep host) RunSplitting.succeeds emu limit.toNat) = limit := by
      rw [countEvents_running host emu limit.toNat going]
      refine (BitVec.zero_add _).trans ?_
      rw [BitVec.ofNat_toNat, BitVec.setWidth_eq]
    rw [runReturns_iff host limit positive, runResult, full, afterCalls]
    cases result with
    | mk count calls after =>
      simp only [RunResult.mk.injEq, steps, Nat.zero_add, positive, true_and]
  · have unlimited : limit = 0 := by bv_omega
    refine iff_of_false ?_ (fun all => positive all.1)
    rintro ⟨enough, ended⟩
    have always : ∀ k, (stateAfter host emu k).state = .running := fun k =>
      (run_stops host emu running k).mpr (fun j _ => goesOn j (Or.inl unlimited)) k
        (Nat.le_refl k)
    have none := ended enough (Nat.le_refl enough)
    rw [unlimited, unlimited_runs host enough _ always] at none
    cases none

/-- `addi x1, x0, 5` and an environment call, at user level under a machine vector. -/
def userCaller : Emulator :=
  let loaded := loadImage (emuInit fun _ => 0) (programImage 0x1000 [0x00500093, 0x00000073])
  { loaded with priv := privU, csr := { loaded.csr with mtvec := 0x100 } }

/-- Two steps of it, the second of which enters the handler, are counted as two. -/
theorem userCaller_counted :
    RunReturns idleHost 2 userCaller
      { steps := 2, calls := 2, emu := stateAfter idleHost userCaller 2 } := by
  refine (handled_runs_on idleHost 2 userCaller (by decide +kernel) ?_ _).mpr
    ⟨by decide, rfl, rfl, rfl⟩
  rintro k (zero | below)
  · cases zero
  · have few : k < 2 := below
    obtain rfl | rfl : k = 0 ∨ k = 1 := by omega
    · exact ⟨by decide +kernel, Or.inl (by decide +kernel)⟩
    · exact ⟨by decide +kernel, Or.inl (by decide +kernel)⟩

/-- The machine is at user or supervisor level. -/
def Lower (emu : Emulator) : Prop := emu.priv = privU ∨ emu.priv = privS

/-- The machine's registers that say where traps go and which interrupts come, and its scratch
    register. -/
structure SameVectors (before after : Csr) : Prop where
  mtvec : after.mtvec = before.mtvec
  medeleg : after.medeleg = before.medeleg
  mideleg : after.mideleg = before.mideleg
  mie : after.mie = before.mie
  mscratch : after.mscratch = before.mscratch

/-- What code below machine level leaves as it was: the machine runs on, with these registers. -/
structure Undisturbed (start after : Emulator) : Prop where
  running : after.state = .running
  vectors : SameVectors start.csr after.csr

/-- A confined step leaves them alone, trap or not. -/
theorem confined_vectors (emu : Emulator) (result : Event × Emulator)
    (confined : Confinement.Confined emu result) : SameVectors emu.csr result.2.csr := by
  by_cases trap : TakesTrap result.1 ∧ result.2.priv = privM
  · have same := confined.machineTrap trap
    exact ⟨same.mtvec, same.medeleg, same.mideleg, same.mie, same.mscratch⟩
  · have same := confined.machine trap
    exact ⟨same.mtvec, same.medeleg, same.mideleg, same.mie, same.mscratch⟩

theorem sameVectors_trans (first second third : Csr) (earlier : SameVectors first second)
    (later : SameVectors second third) : SameVectors first third where
  mtvec := later.mtvec.trans earlier.mtvec
  medeleg := later.medeleg.trans earlier.medeleg
  mideleg := later.mideleg.trans earlier.mideleg
  mie := later.mie.trans earlier.mie
  mscratch := later.mscratch.trans earlier.mscratch

/-- A step from a lower level to machine level goes to the machine's vector. -/
theorem confined_entry (emu : Emulator) (result : Event × Emulator) (lower : Lower emu)
    (confined : Confinement.Confined emu result) (machine : result.2.priv = privM) :
    result.2.rf.pc = emu.csr.mtvec := by
  have rises : emu.priv < result.2.priv := by
    rw [machine]
    rcases lower with user | supervisor
    · rw [user]
      decide
    · rw [supervisor]
      decide
  rcases (confined.rises rises).2 with ⟨level, -⟩ | ⟨-, vector⟩
  · rw [machine] at level
    cases level
  · exact vector

/-- User code without a trap leaves the supervisor's vector alone. -/
theorem user_vector (host : HostFloat) (emu : Emulator) (user : emu.priv = privU)
    (stays : (emuStep host emu).2.priv = privU) :
    (emuStep host emu).2.csr.stvec = emu.csr.stvec := by
  refine ((Confinement.step_confined host emu (Or.inl user)).supervisor user ?_).stvec
  intro takes
  obtain ⟨mem, cause, tval, after, -, raised, state⟩ := trap_step host emu takes
  rw [state] at stays
  rcases trapRaise_cases _ after cause tval _ raised with ⟨-, -, rfl⟩ | ⟨-, -, rfl⟩
  · exact absurd stays (show privS ≠ privU by decide)
  · exact absurd stays (show privM ≠ privU by decide)

/-- No delegated exception of the first `n` steps lacks a supervisor vector: none is delegated,
    or the vector is there in every state, or it is there at the start and the steps are all
    made at user level, where it cannot be changed. -/
inductive Covered (host : HostFloat) (start : Emulator) (n : Nat) : Prop where
  | undelegated (none : start.csr.medeleg = 0) : Covered host start n
  | vectored (installed : ∀ k, k < n → (stateAfter host start k).csr.stvec ≠ 0) :
      Covered host start n
  | user (installed : start.csr.stvec ≠ 0)
      (level : ∀ k, k < n → (stateAfter host start k).priv = privU) : Covered host start n

/-- In a user run the supervisor's vector is that of the start. -/
theorem user_run_vector (host : HostFloat) (start : Emulator) (n : Nat)
    (level : ∀ k, k < n → (stateAfter host start k).priv = privU) (k : Nat) (below : k < n) :
    (stateAfter host start k).csr.stvec = start.csr.stvec := by
  induction k with
  | zero => rfl
  | succ k inductionHypothesis =>
    have same := user_vector host _ (level k (by omega)) (level (k + 1) below)
    exact same.trans (inductionHypothesis (by omega))

/-- Code below machine level cannot stop a machine that has a machine vector and no delegated
    exception without a supervisor vector: it runs until it enters the machine's handler, and
    nowhere else does it reach machine level. -/
theorem lower_runs_on (host : HostFloat) (start : Emulator) (running : start.state = .running)
    (vector : start.csr.mtvec ≠ 0) (n : Nat)
    (lower : ∀ k, k < n → Lower (stateAfter host start k)) (covered : Covered host start n) :
    Undisturbed start (stateAfter host start n) ∧
      (0 < n → (stateAfter host start n).priv = privM →
        (stateAfter host start n).rf.pc = start.csr.mtvec) := by
  have handled : ∀ k, k < n → SameVectors start.csr (stateAfter host start k).csr →
      Handled (stateAfter host start k) := by
    intro k below same
    refine ⟨?_, ?_⟩
    · rw [same.mtvec]
      exact vector
    · rw [same.medeleg]
      cases covered with
      | undelegated none => exact Or.inl none
      | vectored installed => exact Or.inr (installed k below)
      | user installed level =>
        rw [user_run_vector host start n level k below]
        exact Or.inr installed
  have kept : ∀ k, k ≤ n → Undisturbed start (stateAfter host start k) := by
    intro k
    induction k with
    | zero => exact fun _ => ⟨running, rfl, rfl, rfl, rfl, rfl⟩
    | succ k inductionHypothesis =>
      intro bound
      have undisturbed := inductionHypothesis (by omega)
      have confined := Confinement.step_confined host _ (lower k (by omega))
      have goesOn : (stateAfter host start (k + 1)).state = .running :=
        not_not.mp ((step_stops host _ undisturbed.running).not.mpr
          (handled_goesOn host _ (handled k (by omega) undisturbed.vectors)))
      exact ⟨goesOn, sameVectors_trans _ _ _ undisturbed.vectors (confined_vectors _ _ confined)⟩
  refine ⟨kept n (Nat.le_refl n), ?_⟩
  intro positive machine
  obtain ⟨last, rfl⟩ : ∃ last, n = last + 1 := ⟨n - 1, by omega⟩
  have entered := confined_entry _ _ (lower last (Nat.lt_succ_self last))
    (Confinement.step_confined host _ (lower last (Nat.lt_succ_self last))) machine
  exact entered.trans (kept last (Nat.le_succ last)).vectors.mtvec

/-- The user program reaches machine level at the handler. -/
theorem userCaller_enters :
    (stateAfter idleHost userCaller 2).priv = privM ∧
      (stateAfter idleHost userCaller 2).rf.pc = 0x100 := by
  have machine : (stateAfter idleHost userCaller 2).priv = privM := by decide +kernel
  have user : ∀ k, k < 2 → Lower (stateAfter idleHost userCaller k) := by
    intro k below
    obtain rfl | rfl : k = 0 ∨ k = 1 := by omega
    · exact Or.inl (by decide +kernel)
    · exact Or.inl (by decide +kernel)
  exact ⟨machine, (lower_runs_on idleHost userCaller (by decide +kernel) (by decide +kernel) 2
    user (.undelegated (by decide +kernel))).2 (by decide) machine⟩

end RvEmu.Stopping
