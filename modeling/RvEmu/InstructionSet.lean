import Mathlib.Algebra.Group.Int.Defs
import Mathlib.Algebra.Group.Nat.Defs
import RvEmu.Machine

/-!
# The base integer instructions

This is the part of RV32I that computes and jumps, as its specification gives
it: instructions are read off the word's own bit fields, immediates are the
scattered bits in order, and values are computed on the integers that the words
denote. It names no function of the emulator, and the emulator is compared with
it.
-/

namespace RvEmu.InstructionSet

/-! ## Immediates -/

def immediateI (word : Word) : Word := (word.extractLsb' 20 12).signExtend 32

def immediateS (word : Word) : Word :=
  (word.extractLsb' 25 7 ++ word.extractLsb' 7 5).signExtend 32

def immediateB (word : Word) : Word :=
  (word.extractLsb' 31 1 ++ word.extractLsb' 7 1 ++ word.extractLsb' 25 6 ++
    word.extractLsb' 8 4 ++ 0#1).signExtend 32

def immediateU (word : Word) : Word := word.extractLsb' 12 20 ++ 0#12

def immediateJ (word : Word) : Word :=
  (word.extractLsb' 31 1 ++ word.extractLsb' 12 8 ++ word.extractLsb' 20 1 ++
    word.extractLsb' 21 10 ++ 0#1).signExtend 32

/-! ## Instructions -/

/-- The operations of `OP` and `OP-IMM`. -/
inductive Operation where
  | add
  | sub
  | sll
  | slt
  | sltu
  | xor
  | srl
  | sra
  | or
  | and
deriving DecidableEq

/-- The value of an operation. Shifts use the low five bits of their second operand. -/
def Operation.value : Operation → Word → Word → Word
  | .add, a, b => a + b
  | .sub, a, b => a - b
  | .sll, a, b => BitVec.ofNat 32 (a.toNat * 2 ^ (b.toNat % 32))
  | .slt, a, b => if a.toInt < b.toInt then 1 else 0
  | .sltu, a, b => if a.toNat < b.toNat then 1 else 0
  | .xor, a, b => a ^^^ b
  | .srl, a, b => BitVec.ofNat 32 (a.toNat / 2 ^ (b.toNat % 32))
  | .sra, a, b => BitVec.ofInt 32 (a.toInt / (2 ^ (b.toNat % 32) : Nat))
  | .or, a, b => a ||| b
  | .and, a, b => a &&& b

/-- The comparisons of branches. -/
inductive Comparison where
  | eq
  | ne
  | lt
  | ge
  | ltu
  | geu
deriving DecidableEq

/-- Whether a comparison holds. -/
def Comparison.holds : Comparison → Word → Word → Bool
  | .eq, a, b => a = b
  | .ne, a, b => a ≠ b
  | .lt, a, b => a.toInt < b.toInt
  | .ge, a, b => b.toInt ≤ a.toInt
  | .ltu, a, b => a.toNat < b.toNat
  | .geu, a, b => b.toNat ≤ a.toNat

/-- The instructions that compute and jump. -/
inductive Base where
  | op (operation : Operation) (rd rs1 rs2 : Reg)
  | opImm (operation : Operation) (rd rs1 : Reg) (imm : Word)
  | lui (rd : Reg) (imm : Word)
  | auipc (rd : Reg) (imm : Word)
  | jal (rd : Reg) (offset : Word)
  | jalr (rd rs1 : Reg) (offset : Word)
  | branch (comparison : Comparison) (rs1 rs2 : Reg) (offset : Word)
deriving DecidableEq

/-! ## Encodings -/

/-- The operation that `funct7` and `funct3` select in `OP`. -/
def operationOf (funct7 : BitVec 7) (funct3 : BitVec 3) : Option Operation :=
  match funct7, funct3 with
  | 0x00#7, 0#3 => some .add
  | 0x20#7, 0#3 => some .sub
  | 0x00#7, 1#3 => some .sll
  | 0x00#7, 2#3 => some .slt
  | 0x00#7, 3#3 => some .sltu
  | 0x00#7, 4#3 => some .xor
  | 0x00#7, 5#3 => some .srl
  | 0x20#7, 5#3 => some .sra
  | 0x00#7, 6#3 => some .or
  | 0x00#7, 7#3 => some .and
  | _, _ => none

/-- The comparison that `funct3` selects in `BRANCH`. -/
def comparisonOf (funct3 : BitVec 3) : Option Comparison :=
  match funct3 with
  | 0#3 => some .eq
  | 1#3 => some .ne
  | 4#3 => some .lt
  | 5#3 => some .ge
  | 6#3 => some .ltu
  | 7#3 => some .geu
  | _ => none

/-- `OP-IMM`: the shifts have a five-bit amount below the upper bits that `OP` has,
    the other operations a twelve-bit immediate. -/
def immediateForm (word : Word) : Option Base :=
  let rd := word.extractLsb' 7 5
  let rs1 := word.extractLsb' 15 5
  let funct3 := word.extractLsb' 12 3
  if funct3 = 1 ∨ funct3 = 5 then
    (operationOf (word.extractLsb' 25 7) funct3).map
      (fun operation => .opImm operation rd rs1 ((word.extractLsb' 20 5).setWidth 32))
  else
    (operationOf 0x00 funct3).map (fun operation => .opImm operation rd rs1 (immediateI word))

/-- The instruction that a word encodes. -/
def Base.ofWord (word : Word) : Option Base :=
  let rd := word.extractLsb' 7 5
  let rs1 := word.extractLsb' 15 5
  let rs2 := word.extractLsb' 20 5
  let funct3 := word.extractLsb' 12 3
  match word.extractLsb' 0 7 with
  | 0x33#7 =>
    (operationOf (word.extractLsb' 25 7) funct3).map (fun operation => .op operation rd rs1 rs2)
  | 0x13#7 => immediateForm word
  | 0x37#7 => some (.lui rd (immediateU word))
  | 0x17#7 => some (.auipc rd (immediateU word))
  | 0x6F#7 => some (.jal rd (immediateJ word))
  | 0x67#7 => if funct3 = 0 then some (.jalr rd rs1 (immediateI word)) else none
  | 0x63#7 =>
    (comparisonOf funct3).map (fun comparison => .branch comparison rs1 rs2 (immediateB word))
  | _ => none

/-! ## Effects -/

/-- The registers after a write to `rd`; `x0` takes none, and keeps its zero. -/
def put (x : Reg → Word) (rd : Reg) (value : Word) : Reg → Word :=
  fun r => if r = rd ∧ rd ≠ 0 then value else x r

/-- An indirect jump clears bit 0 of its target. -/
def jumpTarget (address : Word) : Word := BitVec.ofNat 32 (address.toNat / 2 * 2)

/-- The registers and the pc after an instruction of a length at a pc. -/
def Base.effect (x : Reg → Word) (pc length : Word) : Base → (Reg → Word) × Word
  | .op operation rd rs1 rs2 => (put x rd (operation.value (x rs1) (x rs2)), pc + length)
  | .opImm operation rd rs1 imm => (put x rd (operation.value (x rs1) imm), pc + length)
  | .lui rd imm => (put x rd imm, pc + length)
  | .auipc rd imm => (put x rd (pc + imm), pc + length)
  | .jal rd offset => (put x rd (pc + length), pc + offset)
  | .jalr rd rs1 offset => (put x rd (pc + length), jumpTarget (x rs1 + offset))
  | .branch comparison rs1 rs2 offset =>
    (x, if comparison.holds (x rs1) (x rs2) then pc + offset else pc + length)

/-- The machine after the instruction: nothing but `x` and the pc changes. -/
def Base.apply (length : Word) (emu : Emulator) (base : Base) : Emulator :=
  { emu with
    rf :=
      { emu.rf with
        regs := (base.effect emu.rf.regs emu.rf.pc length).1
        pc := (base.effect emu.rf.regs emu.rf.pc length).2 } }

end RvEmu.InstructionSet
