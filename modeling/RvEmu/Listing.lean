import RvEmu.DebuggerFetch
import RvEmu.DebuggerTalks

/-!
# Listings and transcripts

The debugger prints code in two ways. `cmd_disasm` lists it from an address on, without
running it, and `cmd_step` prints the instruction at the pc before each step. A transcript
goes as the run goes, and a listing as the code lies in memory; where the run goes straight
through code that it does not overwrite, the listing is what it executes.
-/

namespace RvEmu.Listing

open LittleEndian StepAnatomy DebuggerFetch RunSplitting

/-! ## One line -/

/-- The line of the instruction that a step issues. -/
def issuedLine (emu : Emulator) : String :=
  match issued emu with
  | some (_, inst) => instLine emu.rf.pc (inst.len = 2) inst
  | none => ""

/-- A compressed instruction is decoded from a halfword and any other from a word, and the
    line tells which. -/
theorem fetchDecoded_found (emu : Emulator) (addr raw : Word) (inst : DecodedInst)
    (compressed : Bool) (shown : fetchDecoded emu addr = .decoded inst raw compressed) :
    ∃ lo, memoryRead16 emu.mem addr = some lo ∧
      (lo &&& 3 ≠ 3 ∧ inst.len = 2 ∧ compressed = true ∨
        lo &&& 3 = 3 ∧ inst.len = 4 ∧ compressed = false) := by
  rw [fetchDecoded] at shown
  split at shown
  next => cases shown
  next lo half =>
    refine ⟨lo, half, ?_⟩
    split at shown
    next short =>
      split at shown
      next => cases shown
      next =>
        split at shown
        next => cases shown
        next =>
          cases shown
          exact .inl ⟨short, rfl, rfl⟩
    next full =>
      split at shown
      next => cases shown
      next =>
        split at shown
        next => cases shown
        next known =>
          cases shown
          obtain ⟨-, length, -⟩ := decode_fields _ _ known
          exact .inr ⟨not_not.mp full, length, rfl⟩

theorem fetchDecoded_length (emu : Emulator) (addr raw : Word) (inst : DecodedInst)
    (compressed : Bool) (shown : fetchDecoded emu addr = .decoded inst raw compressed) :
    compressed = decide (inst.len = 2) ∧ inst.len.setWidth 32 = instLen inst := by
  obtain ⟨-, -, ⟨-, length, rfl⟩ | ⟨-, length, rfl⟩⟩ :=
    fetchDecoded_found emu addr raw inst compressed shown
  · rw [instLen, length]
    exact ⟨rfl, rfl⟩
  · rw [instLen, length]
    exact ⟨rfl, rfl⟩

/-- It is decoded alike from every memory with the bytes that it is long. -/
theorem fetchDecoded_agree (emu other : Emulator) (addr raw : Word) (inst : DecodedInst)
    (compressed : Bool) (shown : fetchDecoded emu addr = .decoded inst raw compressed)
    (agree : Agrees (Spans addr inst.len.toNat) emu.mem other.mem) :
    fetchDecoded other addr = .decoded inst raw compressed := by
  rw [← shown]
  obtain ⟨lo, half, length⟩ := fetchDecoded_found emu addr raw inst compressed shown
  have long : 2 ≤ inst.len.toNat := by
    rcases length with ⟨-, length, -⟩ | ⟨-, length, -⟩ <;> rw [length] <;> decide
  apply DisplayBounds.fetchDecoded_same
  · exact read16_agree _ _ _ addr agree fun index inside => Nat.lt_of_lt_of_le inside long
  · intro found read full
    rw [half] at read
    cases read
    rcases length with ⟨short, -⟩ | ⟨-, length, -⟩
    · exact absurd full short
    · rw [length] at agree
      exact read32_agree _ _ _ addr agree fun _ inside => inside

/-- In place, the debugger decodes what the step issues. -/
theorem inPlace_issued (emu after : Emulator) (inst : DecodedInst) (inPlace : InPlace emu)
    (came : issued emu = some (after, inst)) :
    ∃ raw, fetchDecoded emu emu.rf.pc = .decoded inst raw (inst.len = 2) := by
  obtain ⟨front, passed, even, -⟩ := issued_front emu after inst came
  have quiet : (trapCheckInterrupt emu emu.rf.pc).1 = false := by rw [passed]
  obtain ⟨raw, compressed, shown⟩ := (inPlace_shows emu quiet even inPlace).issued after inst front
  obtain ⟨rfl, -⟩ := fetchDecoded_length emu emu.rf.pc raw inst compressed shown
  exact ⟨raw, shown⟩

/-- So its line is shown. -/
theorem showInst_issued (emu : Emulator) (inPlace : InPlace emu) (issues : issued emu ≠ none) :
    showInst emu emu.rf.pc = issuedLine emu := by
  obtain ⟨⟨after, inst⟩, came⟩ := Option.ne_none_iff_exists'.mp issues
  obtain ⟨raw, shown⟩ := inPlace_issued emu after inst inPlace came
  rw [showInst, shown, issuedLine, came]

/-! ## Listings -/

/-- The first steps of a run go straight through code that stays: each issues an
    instruction whose fetch finds it in place, continues behind it, and finds the bytes of it
    as they were at the start. -/
structure Straight (host : HostFloat) (emu : Emulator) (n : Nat) : Prop where
  issues : ∀ k, k < n → ∃ after inst, issued (stateAfter host emu k) = some (after, inst) ∧
    (stateAfter host emu (k + 1)).rf.pc = (stateAfter host emu k).rf.pc + instLen inst
  inPlace : ∀ k, k < n → InPlace (stateAfter host emu k)
  kept : ∀ k, k < n → ∀ after inst, issued (stateAfter host emu k) = some (after, inst) →
    Agrees (Spans (stateAfter host emu k).rf.pc inst.len.toNat) (stateAfter host emu k).mem emu.mem

/-- From each step on the listing of the first state goes as the run does. The induction is
    on the lines that are left. -/
theorem listing_from (host : HostFloat) (emu : Emulator) (n left k : Nat)
    (straight : Straight host emu n) (inside : k + left ≤ n) :
    cmdDisasm emu left (stateAfter host emu k).rf.pc =
      (List.range' k left).map fun k => issuedLine (stateAfter host emu k) := by
  induction left generalizing k with
  | zero => rfl
  | succ left inductionHypothesis =>
    have before : k < n := by omega
    obtain ⟨after, inst, came, next⟩ := straight.issues k before
    obtain ⟨raw, shown⟩ := inPlace_issued _ after inst (straight.inPlace k before) came
    have listed :=
      fetchDecoded_agree _ emu _ raw inst _ shown (straight.kept k before after inst came)
    have length := (fetchDecoded_length _ _ _ _ _ shown).2
    have rest := inductionHypothesis (k + 1) (by omega)
    rw [next] at rest
    rw [cmdDisasm, listed]
    dsimp only
    rw [length, rest, List.range'_succ, List.map_cons, issuedLine, came]

/-- The listing of straight code is what its run executes, instruction by instruction. -/
theorem listing_runs (host : HostFloat) (emu : Emulator) (n : Nat)
    (straight : Straight host emu n) :
    cmdDisasm emu n emu.rf.pc =
      (List.range n).map fun k => issuedLine (stateAfter host emu k) := by
  rw [List.range_eq_range']
  exact listing_from host emu n n 0 straight (by omega)

/-- A running machine at `addi ra, zero, 1` and two compressed instructions that do
    nothing. -/
def straightProgram : Emulator :=
  loadImage (emuInit fun _ => 0) (programImage 0x1000 [0x00100093, 0x00010001])

theorem straightProgram_straight : Straight idleHost straightProgram 3 where
  issues := by
    intro k before
    match k, before with
    | 0, _ => exact ⟨_, _, rfl, rfl⟩
    | 1, _ => exact ⟨_, _, rfl, rfl⟩
    | 2, _ => exact ⟨_, _, rfl, rfl⟩
  inPlace := by
    intro k before
    apply bare_inPlace
    match k, before with
    | 0, _ => exact .inl rfl
    | 1, _ => exact .inl rfl
    | 2, _ => exact .inl rfl
  kept := by
    intro k before
    match k, before with
    | 0, _ => exact fun _ _ _ _ _ => rfl
    | 1, _ => exact fun _ _ _ _ _ => rfl
    | 2, _ => exact fun _ _ _ _ _ => rfl

theorem straightProgram_listed :
    cmdDisasm straightProgram 3 0x1000 =
      (List.range 3).map fun k => issuedLine (stateAfter idleHost straightProgram k) :=
  listing_runs idleHost straightProgram 3 straightProgram_straight

/-! ## Transcripts -/

/-- What is printed when `cmd_step` returns: it was told to go on and the machine had
    stopped, or it ended with its last step. -/
def endLines (host : HostFloat) (n : Nat) (emu : Emulator) : List String :=
  let made := callsWithin host n emu
  let final := stateAfter host emu made
  if made < n ∧ (made = 0 ∨ stepEvent host emu (made - 1) ≠ .failed) then
    ["emulator is not running", showStatus final]
  else stepsEnd final

/-- A loop that starts with a completed step ends as the rest of it does. -/
theorem endLines_succ (host : HostFloat) (n : Nat) (emu : Emulator)
    (running : isRunning emu = true) (completes : (emuStep host emu).1 ≠ .failed) :
    endLines host (n + 1) emu = endLines host n (emuStep host emu).2 := by
  have calls : callsWithin host (n + 1) emu = callsWithin host n (emuStep host emu).2 + 1 := by
    rw [callsWithin, Runs.stepsWhile, if_pos running]
    rfl
  have stopped : (callsWithin host n (emuStep host emu).2 + 1 < n + 1 ∧
      (callsWithin host n (emuStep host emu).2 + 1 = 0 ∨
        stepEvent host emu (callsWithin host n (emuStep host emu).2 + 1 - 1) ≠ .failed)) ↔
      (callsWithin host n (emuStep host emu).2 < n ∧
        (callsWithin host n (emuStep host emu).2 = 0 ∨
          stepEvent host (emuStep host emu).2 (callsWithin host n (emuStep host emu).2 - 1) ≠
            .failed)) := by
    cases callsWithin host n (emuStep host emu).2 with
    | zero =>
      constructor
      · rintro ⟨below, -⟩
        exact ⟨Nat.lt_of_succ_lt_succ below, .inl rfl⟩
      · rintro ⟨below, -⟩
        exact ⟨Nat.succ_lt_succ below, .inr completes⟩
    | succ made =>
      have same : stepEvent host (emuStep host emu).2 made = stepEvent host emu (made + 1) := by
        rw [stepEvent, stepEvent, Runs.eventAt, Runs.eventAt, Runs.stateAt_step]
      rw [Nat.add_sub_cancel, Nat.add_sub_cancel, same]
      constructor
      · rintro ⟨below, last⟩
        exact ⟨Nat.lt_of_succ_lt_succ below, .inr (last.resolve_left (Nat.succ_ne_zero _))⟩
      · rintro ⟨below, last⟩
        exact ⟨Nat.succ_lt_succ below, .inr (last.resolve_left (Nat.succ_ne_zero _))⟩
  simp only [endLines, calls, stopped, stateAfter, ← Runs.stateAt_step]

/-- One round of the loop prints its lines, and goes on where the step has not failed. -/
theorem output_round (host : HostFloat) (n : Nat) (emu : Emulator)
    (running : isRunning emu = true) :
    cmdStepOutput host (n + 1) emu =
      stepLines emu ++
        if (emuStep host emu).1 = .failed then stepsEnd (emuStep host emu).2
        else cmdStepOutput host n (emuStep host emu).2 := by
  rw [cmdStepOutput, if_neg (not_not.mpr (of_decide_eq_true running))]
  rcases emuStep host emu with ⟨event, next⟩
  cases event with
  | failed => rfl
  | interrupted => rfl
  | trapped cause tval => rfl
  | retired effect => rfl

/-- The output of `cmd_step` for every run: the lines of each step it makes, in order, and
    how it ended. -/
theorem output_lines (host : HostFloat) (n : Nat) (emu : Emulator) :
    cmdStepOutput host n emu =
      ((List.range (callsWithin host n emu)).flatMap fun k =>
        stepLines (stateAfter host emu k)) ++ endLines host n emu := by
  induction n generalizing emu with
  | zero => rfl
  | succ n inductionHypothesis =>
    by_cases running : isRunning emu = true
    · have calls : callsWithin host (n + 1) emu =
          callsWithin host n (emuStep host emu).2 + 1 := by
        rw [callsWithin, Runs.stepsWhile, if_pos running]
        rfl
      rw [output_round host n emu running, calls, List.range_succ_eq_map, List.flatMap_cons,
        List.flatMap_map, List.append_assoc]
      apply congrArg (stepLines emu ++ ·)
      by_cases failed : (emuStep host emu).1 = .failed
      · have none : callsWithin host n (emuStep host emu).2 = 0 :=
          Runs.stepsWhile_stays _ _ _ _ (failed_stays host emu failed)
        have last : ¬ (1 < n + 1 ∧ ((1 : Nat) = 0 ∨ stepEvent host emu 0 ≠ .failed)) := by
          rintro ⟨-, zero | completes⟩
          · exact absurd zero (by decide)
          · exact completes failed
        rw [if_pos failed, none, endLines, calls, none]
        exact (if_neg last).symm
      · have rest := inductionHypothesis (emuStep host emu).2
        simp only [stateAfter, Runs.stateAt_step] at rest
        rw [if_neg failed, endLines_succ host n emu running failed, rest]
    · have stays := Bool.eq_false_iff.mpr running
      have stopped : emu.state ≠ .running := of_decide_eq_false stays
      have none : callsWithin host (n + 1) emu = 0 := Runs.stepsWhile_stays _ _ _ _ stays
      have unmade : 0 < n + 1 ∧ ((0 : Nat) = 0 ∨ stepEvent host emu (0 - 1) ≠ .failed) :=
        ⟨Nat.succ_pos n, .inl rfl⟩
      have ends : endLines host (n + 1) emu = ["emulator is not running", showStatus emu] := by
        rw [endLines, none, if_pos unmade]
        rfl
      rw [cmdStepOutput, if_pos stopped, ends, none]
      rfl

/-- Whatever the machine does, `cmd_step` prints the lines of the steps that it makes, in
    order, and how they ended; and where fetches are in place, the line before a step is that
    of the instruction which the step issues. -/
theorem transcript_exact (host : HostFloat) (n : Nat) (emu : Emulator) :
    (∃ made, made ≤ n ∧ cmdStep host n emu = stateAfter host emu made ∧
      (∀ k, k < made → (stateAfter host emu k).state = .running) ∧
      (made < n → (stateAfter host emu made).state ≠ .running) ∧
      cmdStepOutput host n emu =
        ((List.range made).flatMap fun k => stepLines (stateAfter host emu k)) ++
          endLines host n emu) ∧
    ∀ k, InPlace (stateAfter host emu k) → issued (stateAfter host emu k) ≠ none →
      stepLines (stateAfter host emu k) =
        ["[step] pc=" ++ formatWord (stateAfter host emu k).rf.pc,
          issuedLine (stateAfter host emu k)] := by
  refine ⟨⟨callsWithin host n emu, ?_, ?_, ?_, ?_, output_lines host n emu⟩, ?_⟩
  · exact Runs.stepsWhile_le (emuStep host) isRunning n emu
  · exact DebuggerTalks.cmdStep_calls host n emu
  · intro k before
    exact of_decide_eq_true (Runs.stepsWhile_going (emuStep host) isRunning n emu k before)
  · intro early
    exact of_decide_eq_false (Runs.stepsWhile_ended (emuStep host) isRunning n emu early)
  · intro k inPlace issues
    rw [stepLines, showInst_issued _ inPlace issues]

end RvEmu.Listing
