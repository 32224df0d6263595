import RvEmu.StepAnatomy

/-!
# What is executed and what is decoded

The supported opcodes are written twice: as a table of formats for the decoder,
and as the cases of `execute`. On the fields of a word the switch may end at
`unknown`; where it does not, the decoder has to accept the word, or the
instruction can never be run. The two lists agree on every opcode but one.
-/

namespace RvEmu.DecodeCoverage

open StepAnatomy

/-- The fields of a word, as the decoder extracts them; `FENCE` has format I. -/
def fieldsOf (word : Word) : DecodedInst where
  raw := word
  len := 4
  fmt := (getFmt (opcodeOf word)).getD .i
  opcode := opcodeOf word
  rd := word.extractLsb' 7 5
  rs1 := word.extractLsb' 15 5
  rs2 := word.extractLsb' 20 5
  funct3 := word.extractLsb' 12 3
  funct7 := word.extractLsb' 25 7
  imm := immOf ((getFmt (opcodeOf word)).getD .i) word

/-- The switch does not end at `unknown` on the fields of the word. -/
def Executes (host : HostFloat) (emu : Emulator) (word : Word) : Prop :=
  ∀ after, execSwitch host emu (fieldsOf word) ≠ .unknown after

/-- What is executed is decoded. -/
def Covered (host : HostFloat) (emu : Emulator) (word : Word) : Prop :=
  Executes host emu word → (decode word).isSome = true

/-- An opcode has a format, or is `FENCE`, or is none of the enumeration. -/
theorem format_cases (opcode : Opcode) :
    (∃ fmt, getFmt opcode = some fmt) ∨ opcode = .fence ∨ ∃ bits, opcode = .other bits := by
  cases opcode with
  | fence => exact Or.inr (Or.inl rfl)
  | other bits => exact Or.inr (Or.inr ⟨bits, rfl⟩)
  | _ => exact Or.inl ⟨_, rfl⟩

/-- A word with a format is decoded to its fields. -/
theorem decode_fieldsOf (word : Word) (fmt : InstFmt) (known : getFmt (opcodeOf word) = some fmt) :
    decode word = some (fieldsOf word) := by
  rw [decode, fieldsOf, known]
  rfl

/-- `FENCE` completes. -/
theorem fence_executes (host : HostFloat) (emu : Emulator) (word : Word)
    (fence : opcodeOf word = .fence) : Executes host emu word := by
  intro after unknown
  have kind : (fieldsOf word).opcode = .fence := fence
  simp only [execSwitch, kind] at unknown
  cases unknown

/-- Decode covers execute exactly on the words that are no `FENCE`. -/
theorem covered_iff (host : HostFloat) (emu : Emulator) (word : Word) :
    Covered host emu word ↔ opcodeOf word ≠ .fence := by
  constructor
  · intro covered fence
    have decoded := covered (fence_executes host emu word fence)
    rw [decode, fence] at decoded
    cases decoded
  · intro other executes
    rcases format_cases (opcodeOf word) with ⟨fmt, known⟩ | fence | ⟨bits, unlisted⟩
    · rw [decode_fieldsOf word fmt known]
      rfl
    · exact absurd fence other
    · have kind : (fieldsOf word).opcode = .other bits := unlisted
      have unknown : execSwitch host emu (fieldsOf word) = .unknown emu := by
        simp only [execSwitch, kind]
      exact absurd unknown (executes emu)

/-- A running machine with a handler, at `fence iorw, iorw`. -/
def fenceState : Emulator :=
  let emu := loadImage (emuInit (fun _ => 0)) (programImage 0x1000 [0x0FF0000F])
  { emu with csr := { csrInit with mtvec := 0x100 } }

/-- `execute` completes the `FENCE`, and the step traps it as illegal. -/
theorem fence_illegal :
    (emuStep idleHost fenceState).1 = .trapped 2 0x0FF0000F ∧
      (execute idleHost fenceState (fieldsOf 0x0FF0000F)).1 = .retired .quiet ∧
      ¬ ∀ host emu word, Covered host emu word := by
  refine ⟨by decide +kernel, by decide, ?_⟩
  intro always
  have decoded := always idleHost fenceState 0x0FF0000F (fence_executes _ _ _ (by decide))
  have refused : decode 0x0FF0000F = none := by decide
  rw [refused] at decoded
  cases decoded

end RvEmu.DecodeCoverage
