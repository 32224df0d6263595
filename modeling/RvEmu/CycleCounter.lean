import RvEmu.BaseInstructions
import RvEmu.Stopping
import RvEmu.TimerLaw

/-!
# The cycle counter and the timer

Three counts run along a call of `emu_run`: the number it returns, `mcycle`, and the timer.
The first two leave out a step that fails, the third does not. No instruction can set `mcycle`:
its number is above 0x7FF, so the sign extension in the decoder makes another number of it.
Whatever the guest does, `mcycle` therefore advances by what the host is told.
-/

namespace RvEmu.CycleCounter

open ExecOutcome StepAnatomy RunSplitting Stopping

/-! ## One step -/

/-- No twelve bits extend to the number of the counter. -/
theorem extended_other (field : BitVec 12) : field.signExtend 32 ≠ CsrName.mcycle.number := by
  intro same
  have back : field = (field.signExtend 32).setWidth 12 := by
    apply BitVec.eq_of_getLsbD_eq
    intro i small
    rw [BitVec.getLsbD_setWidth, BitVec.getLsbD_signExtend, decide_eq_true small,
      decide_eq_true (by omega : i < 32), if_pos small]
    rfl
  have number : field = 0xB00#12 := by
    rw [back, same]
    decide
  rw [number] at same
  exact absurd same (by decide)

/-- So no system instruction addresses it. -/
theorem issued_number (emu ready : Emulator) (inst : DecodedInst)
    (came : issued emu = some (ready, inst)) (kind : inst.opcode = .system) :
    inst.imm ≠ CsrName.mcycle.number := by
  obtain ⟨-, -, -, ⟨raw, compressed, decoded, -, known, rfl⟩, -⟩ := issued_front emu ready inst came
  have fields : (withLength decoded compressed).opcode = decoded.opcode ∧
      (withLength decoded compressed).imm = decoded.imm := by
    simp only [withLength]
    split
    · exact ⟨rfl, rfl⟩
    · exact ⟨rfl, rfl⟩
  rw [fields.1] at kind
  rw [fields.2]
  obtain ⟨-, -, opcode⟩ := decode_fields raw decoded known
  rw [opcode] at kind
  have imm : decoded.imm = immI raw := by
    simp only [decode, kind, getFmt, Option.some.injEq] at known
    rw [← known]
    rfl
  rw [imm, BaseInstructions.immI_field, InstructionSet.immediateI]
  exact extended_other _

/-- A write to any other register leaves the counter alone. -/
theorem stored_other (csr : Csr) (val : Word) (name : CsrName) (other : name ≠ .mcycle) :
    (csrStored csr val name).mcycle = csr.mcycle := by
  cases name with
  | mcycle => exact absurd rfl other
  | _ => rfl

/-- A trap leaves the counter alone. -/
theorem trapRaise_cycles (emu after : Emulator) (cause tval epc : Word)
    (raised : trapRaise emu cause tval epc = (true, after)) :
    after.csr.mcycle = emu.csr.mcycle := by
  rcases trapRaise_cases emu after cause tval epc raised with ⟨-, -, rfl⟩ | ⟨-, -, rfl⟩
  · rfl
  · rfl

theorem ticked_cycles (emu : Emulator) (mem : Memory) :
    (ticked emu mem).csr.mcycle = emu.csr.mcycle := by
  obtain ⟨mip, csr⟩ := ticked_csr emu mem
  rw [csr]

/-- So does every completed instruction. -/
theorem outcome_cycles (emu after : Emulator) (mem : Memory) (inst : DecodedInst)
    (nextPc : Word) (effect : Effect) (came : issued emu = some (ticked emu mem, inst))
    (outcome : Outcome (ticked emu mem) inst (.next after nextPc effect)) :
    after.csr.mcycle = emu.csr.mcycle := by
  have before := ticked_cycles emu mem
  rcases outcome_control _ after inst nextPc effect outcome with
    ⟨-, flags, same⟩ | ⟨name, val, -, ⟨kind, addressed, -⟩, -, same⟩ | ⟨-, -, same⟩ | ⟨-, -, same⟩
  · rw [same]
    exact before
  · have other : name ≠ .mcycle := by
      rintro rfl
      exact issued_number emu _ inst came kind addressed.symm
    rw [same, stored_other _ val name other]
    exact before
  · rw [same]
    exact before
  · rw [same]
    exact before

/-- A step adds one to the counter, unless the step fails. -/
theorem step_cycles (host : HostFloat) (emu : Emulator) :
    (emuStep host emu).2.csr.mcycle =
      emu.csr.mcycle + BitVec.ofNat 64 (RunSplitting.succeeds (emuStep host emu).1).toNat := by
  have shape := step_shape host emu
  generalize emuStep host emu = result at shape ⊢
  cases shape with
  | interrupted after taken =>
    obtain ⟨raised, -⟩ := taken_state emu after _ taken
    have same := trapRaise_cycles _ after _ _ _ raised
    rw [← ticked_same, ticked_cycles] at same
    exact congrArg (· + 1) same
  | trapped mem cause tval after touched code raised =>
    have same := trapRaise_cycles _ after _ _ _ raised
    rw [ticked_cycles] at same
    exact congrArg (· + 1) same
  | failed mem touched =>
    refine (ticked_cycles emu mem).trans ?_
    exact (BitVec.add_zero emu.csr.mcycle).symm
  | retired mem inst after nextPc effect came touched outcome =>
    exact congrArg (· + 1) (outcome_cycles emu after mem inst nextPc effect came outcome)

/-! ## Whole runs -/

section Run

variable (host : HostFloat) (start : Emulator)

/-- Along a run the counter counts the steps that did not fail, and the timer all of them. -/
theorem run_clocks (n : Nat) :
    (stateAfter host start n).csr.mcycle =
        start.csr.mcycle +
          BitVec.ofNat 64 (Runs.countEvents (emuStep host) RunSplitting.succeeds start n) ∧
      (stateAfter host start n).mtime = start.mtime + BitVec.ofNat 64 n := by
  induction n with
  | zero => exact ⟨(BitVec.add_zero _).symm, (BitVec.add_zero _).symm⟩
  | succ n inductionHypothesis =>
    obtain ⟨cycles, time⟩ := inductionHypothesis
    constructor
    · have counts := step_cycles host (stateAfter host start n)
      rw [stateAfter, Runs.stateAt_succ, counts, cycles, Runs.countEvents, BitVec.ofNat_add,
        ← BitVec.add_assoc]
      rfl
    · have ticks := (TimerLaw.step_timer host (stateAfter host start n)).1
      rw [stateAfter, Runs.stateAt_succ, ticks, time, BitVec.ofNat_add, ← BitVec.add_assoc]
      rfl

/-- The count and the two clocks of a call of `emu_run` agree. -/
structure ClocksAgree (result : RunResult) : Prop where
  cycles : result.emu.csr.mcycle = start.csr.mcycle + result.steps
  time : result.emu.mtime = start.mtime + BitVec.ofNat 64 result.calls
  uncounted : BitVec.ofNat 64 result.calls = result.steps ∨
    (BitVec.ofNat 64 result.calls = result.steps + 1 ∧ result.emu.state = .exception)

/-- Of a run that was running before its last step, that step alone may go uncounted. -/
theorem last_uncounted (n : Nat)
    (goes : ∀ k, k < n → (stateAfter host start k).state = .running) :
    Runs.countEvents (emuStep host) RunSplitting.succeeds start n = n ∨
      (Runs.countEvents (emuStep host) RunSplitting.succeeds start n + 1 = n ∧
        (stateAfter host start n).state = .exception) := by
  cases n with
  | zero => exact Or.inl rfl
  | succ n =>
    have before := countEvents_running host start n (fun k below => goes k (by omega))
    rw [Runs.countEvents, before]
    cases counts : RunSplitting.succeeds (Runs.eventAt (emuStep host) start n) with
    | true => exact Or.inl rfl
    | false =>
      have failed : stepEvent host start n = .failed := not_not.mp (of_decide_eq_false counts)
      exact Or.inr ⟨rfl, failed_exception host _ failed⟩

end Run

end RvEmu.CycleCounter
