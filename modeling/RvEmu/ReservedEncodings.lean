import RvEmu.Legality

/-!
# Reserved encodings

A word that encodes no instruction of the emulator's list should be trapped as
illegal. It is, where a test of its fields rejects it and nothing comes before. Two
kinds of words are not. Some fields are never tested, and the word runs as the
instruction that has the other fields in common. Other fields are tested after the
operand of a load, a store or an atomic, whose fault then comes first.
-/

namespace RvEmu.ReservedEncodings

open LittleEndian WordMarks PageWalk PageTables ExecOutcome StepAnatomy
open InstructionSet BaseInstructions Unimplemented Legality

/-! ## The words -/

/-- The operations of `OP-FP` that round. -/
def roundedFunct7 : List (BitVec 7) := [0x00, 0x04, 0x08, 0x0C, 0x2C, 0x60, 0x68]

/-- Rounding modes 5 and 6 are reserved. -/
def roundingReserved (word : Word) : Bool :=
  opcodeOf word = .fp ∧ roundedFunct7.contains (word.extractLsb' 25 7) ∧
    (word.extractLsb' 12 3 = 5 ∨ word.extractLsb' 12 3 = 6)

/-- The word is an instruction of the list: its fields select an operation, and its
    rounding mode is none of the reserved ones. -/
def encodes (word : Word) : Bool := selects word && !roundingReserved word

/-! ## The law -/

/-- The step traps the word as illegal and writes no register. -/
structure TrapsIllegal (host : HostFloat) (emu : Emulator) : Prop where
  trapped : ∃ tval, (emuStep host emu).1 = .trapped 2 tval
  regs : (emuStep host emu).2.rf.regs = emu.rf.regs
  fregs : (emuStep host emu).2.rf.fregs = emu.rf.fregs

/-- Where a reserved word is trapped. `OP`, `OP-IMM`, `JALR`, `LR.W` and rounding modes have
    fields without a test. Loads, stores and atomics are trapped after the operand has
    passed its own tests. -/
def Guarded (emu : Emulator) (word : Word) : Prop :=
  let rs1 := emu.rf.regs (word.extractLsb' 15 5)
  match opcodeOf word with
  | .alu => False
  | .alui => False
  | .jalr => False
  | .fp =>
    ¬ floatSelects (word.extractLsb' 25 7) (word.extractLsb' 12 3) (word.extractLsb' 20 5)
  | .load => ∃ pa, Resolves emu (rs1 + immediateI word) .load pa
  | .store => ∃ pa, Resolves emu (rs1 + immediateS word) .store pa
  | .amo =>
    word.extractLsb' 12 3 ≠ 2 ∨
      (word.extractLsb' 25 7 >>> 2 ≠ 0x02 ∧ rs1.toNat % 4 = 0 ∧
        ∃ pa, Resolves emu rs1 .store pa ∧ (memoryRead32 emu.mem pa).isSome)
  | _ => True

/-! ## The step -/

/-- No trap writes a register. -/
theorem trapped_registers (host : HostFloat) (emu : Emulator) (cause tval : Word)
    (trapped : (emuStep host emu).1 = .trapped cause tval) :
    (emuStep host emu).2.rf.regs = emu.rf.regs ∧ (emuStep host emu).2.rf.fregs = emu.rf.fregs := by
  obtain ⟨mem, code, value, after, -, raised, result⟩ :=
    trap_step host emu (Or.inr ⟨cause, tval, trapped⟩)
  have start := ticked_rf emu mem
  rw [result]
  rcases trapRaise_cases _ after code value _ raised with ⟨-, -, rfl⟩ | ⟨-, -, rfl⟩
  · change (ticked emu mem).rf.regs = emu.rf.regs ∧ (ticked emu mem).rf.fregs = emu.rf.fregs
    rw [start]
    exact ⟨rfl, rfl⟩
  · change (ticked emu mem).rf.regs = emu.rf.regs ∧ (ticked emu mem).rf.fregs = emu.rf.fregs
    rw [start]
    exact ⟨rfl, rfl⟩

/-- Counting the cycle keeps the event. -/
theorem countCycle_event (result : Event × Emulator) : (countCycle result).1 = result.1 := by
  rw [countCycle]
  split <;> rfl

/-- Another exception is no illegal instruction. -/
theorem raised_other (emu : Emulator) (cause value epc tval : Word)
    (other : cause ≠ excIllegalInst) :
    (raiseOrStop emu cause value epc).1 ≠ .trapped 2 tval := by
  intro same
  rcases raiseOrStop_event emu cause value epc with trapped | failed
  · exact other (Event.trapped.inj (trapped.symm.trans same)).1
  · cases failed.symm.trans same

/-- An instruction is trapped as illegal when its exit says so. -/
theorem trapped_illegal (host : HostFloat) (ready : Emulator) (inst : DecodedInst) (tval : Word)
    (trapped : (execute host ready inst).1 = .trapped 2 tval) :
    Illegal (execSwitch host ready inst) := by
  simp only [execute] at trapped
  generalize execSwitch host ready inst = exit at trapped ⊢
  cases exit with
  | next after nextPc effect => cases trapped
  | unknown after => exact trivial
  | except after cause addr =>
    by_contra other
    exact raised_other after cause _ _ tval other trapped
  | raised after cause =>
    by_contra other
    exact raised_other after cause _ _ tval other trapped
  | stopped after => cases trapped

/-- And a handler gets every illegal exit that changed at most memory. -/
theorem illegal_trapped (host : HostFloat) (ready : Emulator) (inst : DecodedInst)
    (handles : Handles ready) (framed : Framed ready (execSwitch host ready inst))
    (illegal : Illegal (execSwitch host ready inst)) :
    (execute host ready inst).1 = .trapped 2 inst.raw := by
  simp only [execute]
  generalize execSwitch host ready inst = exit at framed illegal ⊢
  cases exit with
  | next after nextPc effect => exact illegal.elim
  | unknown after =>
    obtain ⟨mem, rfl⟩ := framed
    obtain ⟨later, raised, -⟩ := handled_raise ready mem handles inst.raw ready.rf.pc
    exact congrArg Prod.fst raised
  | except after cause addr =>
    obtain ⟨mem, rfl⟩ := framed
    have code : cause = excIllegalInst := illegal
    subst code
    obtain ⟨later, raised, -⟩ := handled_raise ready mem handles inst.raw ready.rf.pc
    exact congrArg Prod.fst raised
  | raised after cause => exact framed.elim
  | stopped after => exact illegal.elim

/-! ## The operand -/

/-- The timer and the fetch leave every translation as it was. -/
theorem ready_resolves (emu ready : Emulator) (fetchedWord : Except (Word × Word) (Word × Bool))
    (fetched : emuFetch (timerTick emu) emu.rf.pc = (fetchedWord, ready)) (va pa : Word)
    (acc : Access) : Resolves ready va acc pa ↔ Resolves emu va acc pa := by
  obtain ⟨mem, state, touched, -⟩ :=
    emuFetch_shape (timerTick emu) emu.rf.pc (by rw [timerTick_rf])
  rw [fetched] at state
  have after : ready = withMem (timerTick emu) mem := state
  have same := translate_marked (timerTick emu) mem _ touched va acc
  obtain ⟨mip, frame⟩ := timerTick_frame emu
  have early : Resolves (timerTick emu) va acc pa ↔ Resolves emu va acc pa := by
    rw [frame]
    exact Iff.rfl
  rw [← early, ← translate_resolves, ← translate_resolves, after, same]

/-- So the operand passes its tests after the fetch where it would before. -/
theorem ready_passes (emu ready : Emulator) (word : Word)
    (fetchedWord : Except (Word × Word) (Word × Bool))
    (fetched : emuFetch (timerTick emu) emu.rf.pc = (fetchedWord, ready)) :
    OperandPasses ready word ↔ OperandPasses emu word := by
  obtain ⟨state, -⟩ := fetch_marks emu ready _ fetched
  have registers : ready.rf = emu.rf := by
    rw [state]
    exact ticked_rf emu ready.mem
  have resolves := ready_resolves emu ready fetchedWord fetched
  simp only [OperandPasses, registers]
  split
  · simp only [resolves]
  · simp only [resolves]
  · simp only [resolves, read_sized emu.mem ready.mem]
  · exact Iff.rfl

/-! ## Reserved words -/

/-- A reserved word that is refused is trapped where its operand passes. -/
theorem guarded_refused (emu : Emulator) (word : Word) (known : opcodeOf word ≠ .fence)
    (refused : ¬ accepts word) : Guarded emu word ↔ OperandPasses emu word := by
  cases kind : opcodeOf word with
  | alu => exact absurd (by simp only [accepts, kind]) refused
  | alui => exact absurd (by simp only [accepts, kind]) refused
  | jalr => exact absurd (by simp only [accepts, kind]) refused
  | amo =>
    simp only [accepts, kind, decide_eq_true_eq] at refused
    simp only [Guarded, OperandPasses, kind]
    by_cases wide : word.extractLsb' 12 3 ≠ 2
    · exact iff_of_true (Or.inl wide) (Or.inl wide)
    · have codes := not_and.mp refused (not_not.mp wide)
      have notLr : word.extractLsb' 25 7 >>> 2 ≠ 0x02 := fun lr => codes (Or.inl lr)
      rw [and_iff_right notLr]
  | fp =>
    simp only [accepts, selects, kind] at refused
    simp only [Guarded, OperandPasses, kind, iff_true]
    exact refused
  | fence => exact absurd kind known
  | _ => simp only [Guarded, OperandPasses, kind]

/-- A reserved word that is accepted has a field without a test. -/
theorem accepted_unguarded (emu : Emulator) (word : Word) (accepted : accepts word = true)
    (reserved : ¬ encodes word) : opcodeOf word ≠ .system ∧ ¬ Guarded emu word := by
  have plain : opcodeOf word ≠ .fp → ¬ selects word = true := by
    intro other selected
    apply reserved
    have rounding : roundingReserved word = false := by
      simp only [roundingReserved, other, false_and, decide_false]
    rw [encodes, selected, rounding]
    rfl
  cases kind : opcodeOf word with
  | alu => exact ⟨Opcode.noConfusion, by simp only [Guarded, kind, not_false_eq_true]⟩
  | alui => exact ⟨Opcode.noConfusion, by simp only [Guarded, kind, not_false_eq_true]⟩
  | jalr => exact ⟨Opcode.noConfusion, by simp only [Guarded, kind, not_false_eq_true]⟩
  | fp =>
    refine ⟨Opcode.noConfusion, ?_⟩
    simp only [accepts, selects, kind] at accepted
    simp only [Guarded, kind]
    exact not_not.mpr accepted
  | amo =>
    refine ⟨Opcode.noConfusion, ?_⟩
    have unselected := plain (by rw [kind]; exact Opcode.noConfusion)
    simp only [selects, kind, decide_eq_true_eq] at unselected
    simp only [accepts, kind, decide_eq_true_eq, List.contains_iff_mem] at accepted
    obtain ⟨funct3, funct5⟩ := accepted
    simp only [Guarded, kind]
    rintro (wide | ⟨notLr, -⟩)
    · exact wide funct3
    · exact unselected ⟨funct3, Or.inr (funct5.resolve_left notLr)⟩
  | fence => simp only [accepts, kind, Bool.false_eq_true] at accepted
  | _ =>
    have unselected := plain (by rw [kind]; exact Opcode.noConfusion)
    simp only [accepts, kind] at accepted
    exact absurd accepted unselected

/-- A fetched word that encodes no instruction is trapped as illegal, with no register
    written, exactly where it is guarded. -/
theorem reserved_traps_iff (host : HostFloat) (emu ready : Emulator) (word : Word)
    (quiet : (trapCheckInterrupt emu emu.rf.pc).1 = false) (even : emu.rf.pc &&& 1 = 0)
    (fetched : emuFetch (timerTick emu) emu.rf.pc = (.ok (word, false), ready))
    (handles : Handles emu) (reserved : ¬ encodes word) :
    TrapsIllegal host emu ↔ Guarded emu word := by
  have traps : TrapsIllegal host emu ↔ ∃ tval, (emuStep host emu).1 = .trapped 2 tval := by
    constructor
    · exact TrapsIllegal.trapped
    · rintro ⟨tval, trapped⟩
      obtain ⟨regs, fregs⟩ := trapped_registers host emu 2 tval trapped
      exact ⟨⟨tval, trapped⟩, regs, fregs⟩
  have installed : Handles ready := by
    obtain ⟨state, -⟩ := fetch_marks emu ready _ fetched
    rw [state]
    exact ready_handles emu ready.mem handles
  rw [traps]
  rcases fetched_step host emu ready word quiet even fetched with
    ⟨unknown, step⟩ | ⟨inst, known, extracted, step⟩
  · obtain ⟨after, raised, -⟩ := handled_raise ready ready.mem installed word emu.rf.pc
    have event : (emuStep host emu).1 = .trapped 2 word := by
      rw [step, countCycle_event]
      exact congrArg Prod.fst raised
    refine iff_of_true ⟨word, event⟩ ?_
    cases kind : opcodeOf word with
    | fence => simp only [Guarded, kind]
    | other bits => simp only [Guarded, kind]
    | _ =>
      rw [kind] at unknown
      cases unknown
  · have noFence : opcodeOf word ≠ .fence := by
      intro fence
      exact known (by rw [fence]; rfl)
    rw [step, countCycle_event]
    by_cases accepted : accepts word = true
    · obtain ⟨noSystem, unguarded⟩ := accepted_unguarded emu word accepted reserved
      refine iff_of_false ?_ unguarded
      rintro ⟨tval, trapped⟩
      exact accepted_lawful host ready word inst extracted accepted noSystem
        (trapped_illegal host ready inst tval trapped)
    · have exits := refused_exit host ready word inst extracted noFence accepted
      rw [guarded_refused emu word noFence accepted, ← ready_passes emu ready word _ fetched,
        ← exits.illegal]
      constructor
      · rintro ⟨tval, trapped⟩
        exact trapped_illegal host ready inst tval trapped
      · intro illegal
        exact ⟨inst.raw, illegal_trapped host ready inst installed exits.framed illegal⟩

/-! ## Two words -/

/-- A machine with a handler at a word, with 8 in `x1`. -/
def reservedState (word : Word) : Emulator :=
  let emu := loadImage (emuInit (fun _ => 0)) (programImage 0x1000 [word])
  { emu with
    rf := { emu.rf with regs := fun r => if r = 1 then 8 else 0 }
    csr := { csrInit with mtvec := 0x100 } }

/-- An atomic without an operation, at an aligned address. -/
theorem undefinedAtomic_traps : TrapsIllegal idleHost (reservedState 0x2800A02F) := by
  apply (reserved_traps_iff idleHost (reservedState 0x2800A02F)
    (timerTick (reservedState 0x2800A02F)) 0x2800A02F (by decide) (by decide) rfl (by decide)
    (by decide)).mpr
  exact Or.inr ⟨by decide, by decide, 8, Or.inl ⟨by decide, rfl⟩, by decide⟩

/-- `OP` with 2 in `funct7` runs as an addition, and clears `x1`. -/
theorem reservedOp_runs :
    ((emuStep idleHost (reservedState 0x040000B3)).1 = .retired .quiet ∧
        (emuStep idleHost (reservedState 0x040000B3)).2.rf.regs 1 = 0) ∧
      ¬ ∀ host emu ready word, (trapCheckInterrupt emu emu.rf.pc).1 = false →
        emu.rf.pc &&& 1 = 0 →
        emuFetch (timerTick emu) emu.rf.pc = (.ok (word, false), ready) → Handles emu →
        ¬ encodes word → TrapsIllegal host emu := by
  have event : (emuStep idleHost (reservedState 0x040000B3)).1 = .retired .quiet := by
    decide +kernel
  refine ⟨⟨event, by decide +kernel⟩, ?_⟩
  intro always
  have traps := always idleHost (reservedState 0x040000B3) (timerTick (reservedState 0x040000B3))
    0x040000B3 (by decide) (by decide) rfl (by decide) (by decide)
  obtain ⟨tval, trapped⟩ := traps.trapped
  cases event.symm.trans trapped

end RvEmu.ReservedEncodings
