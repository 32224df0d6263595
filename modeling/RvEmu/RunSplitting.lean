import RvEmu.StepAnatomy

/-!
# Splitting a run

A debugger runs a program in pieces, and the pieces have to add up to the run. The
loop of `emu_run` leaves on three conditions: the run state, the step limit, and a
step that fails. The third is no condition of its own, because a failed step
always leaves the run state at exception, so a later call does not repeat it. The
loop is therefore a bounded run of the machine while its state is running, and
such runs split at any limit.
-/

namespace RvEmu.RunSplitting

open StepAnatomy

/-- The loop condition of `emu_run`. -/
def isRunning (emu : Emulator) : Bool := emu.state = .running

/-- The steps that `emu_run` counts: those that did not fail. -/
def succeeds (event : Event) : Bool := event ≠ .failed

/-- The loop condition fails after a failed step. -/
theorem failed_stays (host : HostFloat) (emu : Emulator)
    (failed : (emuStep host emu).1 = .failed) : isRunning (emuStep host emu).2 = false := by
  rw [isRunning, failed_exception host emu failed]
  rfl

/-- The calls of `emu_step` that `emu_run` makes under a limit. -/
def callsWithin (host : HostFloat) (limit : Nat) (emu : Emulator) : Nat :=
  Runs.stepsWhile (emuStep host) isRunning limit emu

/-- The result of going on from a point of the loop for a number of calls. -/
def afterCalls (host : HostFloat) (now : RunResult) (calls : Nat) : RunResult where
  steps := now.steps +
    BitVec.ofNat 64 (Runs.countEvents (emuStep host) succeeds now.emu calls)
  calls := now.calls + calls
  emu := stateAfter host now.emu calls

theorem afterCalls_zero (host : HostFloat) (now : RunResult) :
    afterCalls host now 0 = now := by
  simp [afterCalls, Runs.countEvents]

/-- The first call of a stretch adds its own event. -/
theorem afterCalls_succ (host : HostFloat) (now : RunResult) (calls : Nat) :
    afterCalls host now (calls + 1) =
      afterCalls host
        { steps := now.steps + BitVec.ofNat 64 (succeeds (emuStep host now.emu).1).toNat
          calls := now.calls + 1
          emu := (emuStep host now.emu).2 } calls := by
  simp only [afterCalls, RunResult.mk.injEq, Runs.countEvents_succ, BitVec.ofNat_add]
  refine ⟨?_, ?_, ?_⟩
  · rw [BitVec.add_assoc]
  · omega
  · rw [stateAfter, stateAfter, Runs.stateAt_step]

/-- From every point below its limit the loop of `emu_run` ends after the calls of
    a bounded run. The induction is on the fuel, which outlasts the steps left. -/
theorem emuRunWhile_ends (host : HostFloat) (limit : DWord) (positive : 0 < limit)
    (fuel : Nat) (now : RunResult) (below : now.steps.toNat ≤ limit.toNat)
    (enough : limit.toNat - now.steps.toNat < fuel) :
    emuRunWhile host limit fuel now =
      some (afterCalls host now
        (callsWithin host (limit.toNat - now.steps.toNat) now.emu)) := by
  induction fuel generalizing now with
  | zero => exact absurd enough (Nat.not_lt_zero _)
  | succ fuel inductionHypothesis =>
    rw [emuRunWhile]
    by_cases running : now.emu.state = .running
    · rw [if_neg (not_not.mpr running)]
      have goes : isRunning now.emu = true := decide_eq_true running
      by_cases reached : now.steps ≥ limit
      · have spent : limit.toNat - now.steps.toNat = 0 := by bv_omega
        rw [if_pos ⟨positive, reached⟩, spent]
        exact congrArg some (afterCalls_zero host now).symm
      · obtain ⟨left, counted⟩ : ∃ left, limit.toNat - now.steps.toNat = left + 1 :=
          ⟨limit.toNat - now.steps.toNat - 1, by bv_omega⟩
        rw [if_neg (fun both => reached both.2), counted, callsWithin, Runs.stepsWhile,
          if_pos goes, afterCalls_succ]
        rcases step : emuStep host now.emu with ⟨event, next⟩
        by_cases failed : event = .failed
        · -- The failed step leaves the loop, and its state would have left it too.
          subst failed
          have stays : isRunning next = false := by
            simpa only [step] using failed_stays host now.emu (by rw [step])
          rw [Runs.stepsWhile_stays _ _ _ _ stays, afterCalls_zero]
          simp [succeeds]
        · have counts : succeeds event = true := decide_eq_true failed
          have advanced : (now.steps + 1).toNat = now.steps.toNat + 1 := by bv_omega
          have goesOn := inductionHypothesis
            { steps := now.steps + 1, calls := now.calls + 1, emu := next }
            (by dsimp only; omega) (by dsimp only; omega)
          dsimp only at goesOn
          have rest : limit.toNat - (now.steps + 1).toNat = left := by omega
          rw [rest, callsWithin] at goesOn
          simp only [counts, Bool.toNat_true]
          cases event with
          | failed => exact absurd rfl failed
          | interrupted => exact goesOn
          | trapped cause tval => exact goesOn
          | retired effect => exact goesOn
    · have stays : isRunning now.emu = false := decide_eq_false running
      rw [if_pos running, callsWithin, Runs.stepsWhile_stays _ _ _ _ stays, afterCalls_zero]

/-- What a call of `emu_run` with a positive limit leaves. -/
def runResult (host : HostFloat) (limit : DWord) (emu : Emulator) : RunResult :=
  afterCalls host { steps := 0, calls := 0, emu := emu } (callsWithin host limit.toNat emu)

/-- `emu_run` returns, and with nothing but this result. -/
theorem runReturns_iff (host : HostFloat) (limit : DWord) (positive : 0 < limit)
    (emu : Emulator) (result : RunResult) :
    RunReturns host limit emu result ↔ result = runResult host limit emu := by
  have ends : ∀ fuel, limit.toNat + 1 ≤ fuel →
      emuRunWhile host limit fuel { steps := 0, calls := 0, emu := emu } =
        some (runResult host limit emu) := by
    intro fuel enough
    exact emuRunWhile_ends host limit positive fuel _ (Nat.zero_le _) enough
  constructor
  · rintro ⟨bound, returns⟩
    have both := returns (max bound (limit.toNat + 1)) (Nat.le_max_left _ _)
    rw [ends _ (Nat.le_max_right _ _)] at both
    exact (Option.some.inj both).symm
  · intro same
    rw [same]
    exact ⟨limit.toNat + 1, ends⟩

/-- The count `emu_run` returns is the number of its calls that did not fail. -/
theorem runResult_steps (host : HostFloat) (limit : DWord) (emu : Emulator) :
    (runResult host limit emu).steps.toNat =
      Runs.countEvents (emuStep host) succeeds emu (callsWithin host limit.toNat emu) := by
  have few := Runs.countEvents_le (emuStep host) succeeds emu (callsWithin host limit.toNat emu)
  have calls : callsWithin host limit.toNat emu ≤ limit.toNat :=
    Runs.stepsWhile_le (emuStep host) isRunning limit.toNat emu
  have bound := limit.isLt
  have same : (runResult host limit emu).steps = BitVec.ofNat 64
      (Runs.countEvents (emuStep host) succeeds emu (callsWithin host limit.toNat emu)) :=
    BitVec.zero_add _
  rw [same, BitVec.toNat_ofNat, Nat.mod_eq_of_lt (by omega)]

theorem runResult_calls (host : HostFloat) (limit : DWord) (emu : Emulator) :
    (runResult host limit emu).calls = callsWithin host limit.toNat emu := Nat.zero_add _

/-- The recursive form of the loop counts and reaches the same, from any count. -/
theorem emuRunLoop_eq (host : HostFloat) (fuel : Nat) (emu : Emulator) (steps : Nat) :
    emuRunLoop host fuel emu steps =
      (steps + Runs.countEvents (emuStep host) succeeds emu (callsWithin host fuel emu),
        stateAfter host emu (callsWithin host fuel emu)) := by
  induction fuel generalizing emu steps with
  | zero => rfl
  | succ fuel inductionHypothesis =>
    rw [emuRunLoop, callsWithin, Runs.stepsWhile]
    by_cases running : emu.state = .running
    · have goes : isRunning emu = true := decide_eq_true running
      rw [if_neg (not_not.mpr running), if_pos goes, Runs.countEvents_succ, stateAfter,
        ← Runs.stateAt_step]
      rcases step : emuStep host emu with ⟨event, next⟩
      by_cases failed : event = .failed
      · subst failed
        have stays : isRunning next = false := by
          simpa only [step] using failed_stays host emu (by rw [step])
        rw [Runs.stepsWhile_stays _ _ _ _ stays]
        rfl
      · have counts : succeeds event = true := decide_eq_true failed
        have goesOn := inductionHypothesis next (steps + 1)
        rw [Nat.add_assoc] at goesOn
        simp only [counts, Bool.toNat_true]
        cases event with
        | failed => exact absurd rfl failed
        | interrupted => exact goesOn
        | trapped cause tval => exact goesOn
        | retired effect => exact goesOn
    · have stays : isRunning emu = false := decide_eq_false running
      rw [if_pos running, if_neg (Bool.eq_false_iff.mp stays)]
      rfl

/-- `emu_run` in recursive form returns the count and the machine of its loop. -/
theorem emuRun_eq (host : HostFloat) (emu : Emulator) (limit : DWord) :
    emuRun host emu limit.toNat =
      ((runResult host limit emu).steps.toNat, (runResult host limit emu).emu) := by
  rw [emuRun, emuRunLoop_eq, runResult_steps, Nat.zero_add]
  rfl

/-- What is promised of one call of `emu_run`: it makes at most `limit` calls of
    `emu_step`, each from a running state, leaves the state those calls reach, and
    stops early exactly when a state before the limit is not running. -/
structure BoundedRun (host : HostFloat) (limit : DWord) (emu : Emulator) (result : RunResult) :
    Prop where
  returns : ∀ other, RunReturns host limit emu other ↔ other = result
  bounded : result.calls ≤ limit.toNat
  reaches : result.emu = stateAfter host emu result.calls
  wasRunning : ∀ k, k < result.calls → (stateAfter host emu k).state = .running
  stopsEarly : result.calls < limit.toNat ↔
    ∃ k, k < limit.toNat ∧ (stateAfter host emu k).state ≠ .running
  stopped : result.calls < limit.toNat → result.emu.state ≠ .running

/-- Every call of `emu_run` with a positive limit is a bounded run. -/
theorem runResult_bounded (host : HostFloat) (limit : DWord) (positive : 0 < limit)
    (emu : Emulator) : BoundedRun host limit emu (runResult host limit emu) := by
  have calls := runResult_calls host limit emu
  have reaches : (runResult host limit emu).emu =
      stateAfter host emu (callsWithin host limit.toNat emu) := rfl
  refine ⟨runReturns_iff host limit positive emu, ?_, ?_, ?_, ?_, ?_⟩
  · rw [calls]
    exact Runs.stepsWhile_le (emuStep host) isRunning limit.toNat emu
  · rw [calls, reaches]
  · intro k before
    rw [calls] at before
    exact of_decide_eq_true
      (Runs.stepsWhile_going (emuStep host) isRunning limit.toNat emu k before)
  · rw [calls, callsWithin, Runs.stepsWhile_lt_iff]
    simp only [isRunning, decide_eq_false_iff_not, ne_eq]
  · intro early
    rw [calls] at early
    rw [reaches]
    exact of_decide_eq_false
      (Runs.stepsWhile_ended (emuStep host) isRunning limit.toNat emu early)

/-- Running `n` steps and then `m` is running `n + m` steps: the same machine, and
    counts that add up. -/
theorem run_splits (host : HostFloat) (emu : Emulator) (n m : DWord) (positive : 0 < n)
    (further : 0 < m) (fits : n.toNat + m.toNat < 2 ^ 64) :
    ∃ first second whole, BoundedRun host n emu first ∧ BoundedRun host m first.emu second ∧
      BoundedRun host (n + m) emu whole ∧ second.emu = whole.emu ∧
      first.steps.toNat + second.steps.toNat = whole.steps.toNat ∧
      first.calls + second.calls = whole.calls := by
  have sum : (n + m).toNat = n.toNat + m.toNat := by bv_omega
  have together : 0 < n + m := by bv_omega
  have calls : callsWithin host (n + m).toNat emu =
      callsWithin host n.toNat emu +
        callsWithin host m.toNat (stateAfter host emu (callsWithin host n.toNat emu)) := by
    rw [sum]
    exact Runs.stepsWhile_add (emuStep host) isRunning n.toNat m.toNat emu
  refine ⟨runResult host n emu, runResult host m (runResult host n emu).emu,
    runResult host (n + m) emu, runResult_bounded host n positive
      emu, runResult_bounded host m further _, runResult_bounded host (n + m) together emu, ?_, ?_, ?_⟩
  · change stateAfter host (stateAfter host emu _) _ = stateAfter host emu _
    rw [calls]
    exact (Runs.stateAt_add (emuStep host) emu _ _).symm
  · rw [runResult_steps, runResult_steps, runResult_steps, calls, Runs.countEvents_add]
    rfl
  · rw [runResult_calls, runResult_calls, runResult_calls, calls]
    rfl

/-- `addi x1, x0, 1` and `ebreak`, which halts a machine without a handler. -/
def haltingProgram : Emulator :=
  loadImage (emuInit fun _ => 0) (programImage 0x1000 [0x00100093, 0x00100073])

/-- A call of one step and a call of two, of which the second makes one step, against a
    call of three. -/
theorem haltingProgram_splits :
    ∃ first second whole, BoundedRun idleHost 1 haltingProgram first ∧
      BoundedRun idleHost 2 first.emu second ∧ BoundedRun idleHost (1 + 2) haltingProgram whole ∧
      second.emu = whole.emu ∧ first.steps.toNat + second.steps.toNat = whole.steps.toNat ∧
      first.calls + second.calls = whole.calls :=
  run_splits idleHost haltingProgram 1 2 (by decide) (by decide) (by decide)

end RvEmu.RunSplitting
