import RvEmu.Execute
import RvEmu.InstructionSet

/-!
# The compressed instructions

A compressed instruction is a halfword with its own formats. This is their
description for the integer instructions of RV32: registers and immediates are
read off the halfword's bit fields, without the 32-bit words that an
implementation may expand it to. Each stands for a base instruction, a load or a
store of a word, or a breakpoint, two bytes long.
-/

namespace RvEmu.InstructionSet

/-! ## Instructions and their effects -/

/-- What a halfword can stand for. -/
inductive Instruction where
  | base (form : Base)
  | lw (rd rs1 : Reg) (offset : Word)
  | sw (rs2 rs1 : Reg) (offset : Word)
  | ebreak
deriving DecidableEq

/-- An exception of the instruction at the pc. -/
def raise (emu : Emulator) (cause tval : Word) : Event × Emulator :=
  raiseOrStop emu cause tval emu.rf.pc

/-- The word at a physical address: the low half of the timer, or memory. -/
def wordRead (emu : Emulator) (pa : Word) : Option Word :=
  if pa = 0x0200BFF8 then some (emu.mtime.setWidth 32) else memoryRead32 emu.mem pa

/-- A load of a word: aligned, translated, read, and put in its register. -/
def loadWord (length : Word) (emu : Emulator) (rd : Reg) (va : Word) : Event × Emulator :=
  if va.toNat % 4 ≠ 0 then raise emu 4 va
  else
    match mmuTranslate emu va .load with
    | (.error _, after) => raise after 13 va
    | (.ok pa, after) =>
      match wordRead after pa with
      | none => raise after 5 va
      | some value =>
        (.retired .quiet,
          { after with
            rf := { after.rf with regs := put after.rf.regs rd value, pc := after.rf.pc + length } })

/-- A store of a word: aligned, translated, and written, to the low half of the
    timer's compare register or to memory. A store to the reserved address ends the
    reservation. -/
def storeWord (length : Word) (emu : Emulator) (va value : Word) : Event × Emulator :=
  if va.toNat % 4 ≠ 0 then raise emu 6 va
  else
    match mmuTranslate emu va .store with
    | (.error _, after) => raise after 15 va
    | (.ok pa, after) =>
      let next := { after.rf with pc := after.rf.pc + length }
      if pa = 0x02004000 then
        (.retired .quiet,
          { after with mtimecmp := after.mtimecmp.extractLsb' 32 32 ++ value, rf := next })
      else
        match memoryWrite32 after.mem pa value with
        | (false, _) => raise after 7 va
        | (true, mem) =>
          (.retired (.stored pa .word),
            { after with
              mem := mem
              rf := next
              reservationValid := after.reservationValid && !(after.reservationAddr = pa) })

/-- A breakpoint traps; a machine without a handler halts with exit code zero. -/
def breakpoint (length : Word) (emu : Emulator) : Event × Emulator :=
  if emu.csr.mtvec ≠ 0 then raise emu 3 0
  else
    (.retired .quiet,
      { emu with
        state := .halted
        exitCode := 0
        rf := { emu.rf with pc := emu.rf.pc + length } })

/-- An instruction of a length, from the state in which it was fetched. -/
def Instruction.run (length : Word) (emu : Emulator) : Instruction → Event × Emulator
  | .base form => (.retired .quiet, form.apply length emu)
  | .lw rd rs1 offset => loadWord length emu rd (emu.rf.regs rs1 + offset)
  | .sw rs2 rs1 offset => storeWord length emu (emu.rf.regs rs1 + offset) (emu.rf.regs rs2)
  | .ebreak => breakpoint length emu

/-! ## Formats -/

section Formats

variable (c : Half)

/-- A three-bit register field names `x8` to `x15`. -/
def near (start : Nat) : Reg := 1#2 ++ c.extractLsb' start 3

/-- The six-bit immediate of CI. -/
def immediateCI : BitVec 6 := c.extractLsb' 12 1 ++ c.extractLsb' 2 5

/-- The scaled immediate of `c.addi16sp`. -/
def immediateSp : BitVec 10 :=
  c.extractLsb' 12 1 ++ c.extractLsb' 3 2 ++ c.extractLsb' 5 1 ++ c.extractLsb' 2 1 ++
    c.extractLsb' 6 1 ++ 0#4

/-- The scaled offset of `c.lwsp`. -/
def immediateLwsp : BitVec 8 :=
  c.extractLsb' 2 2 ++ c.extractLsb' 12 1 ++ c.extractLsb' 4 3 ++ 0#2

/-- The scaled offset of CSS. -/
def immediateCSS : BitVec 8 := c.extractLsb' 7 2 ++ c.extractLsb' 9 4 ++ 0#2

/-- The scaled immediate of CIW. -/
def immediateCIW : BitVec 10 :=
  c.extractLsb' 7 4 ++ c.extractLsb' 11 2 ++ c.extractLsb' 5 1 ++ c.extractLsb' 6 1 ++ 0#2

/-- The scaled offset of CL and CS. -/
def immediateCL : BitVec 7 :=
  c.extractLsb' 5 1 ++ c.extractLsb' 10 3 ++ c.extractLsb' 6 1 ++ 0#2

/-- The offset of CB. -/
def immediateCB : BitVec 9 :=
  c.extractLsb' 12 1 ++ c.extractLsb' 5 2 ++ c.extractLsb' 2 1 ++ c.extractLsb' 10 2 ++
    c.extractLsb' 3 2 ++ 0#1

/-- The offset of CJ. -/
def immediateCJ : BitVec 12 :=
  c.extractLsb' 12 1 ++ c.extractLsb' 8 1 ++ c.extractLsb' 9 2 ++ c.extractLsb' 6 1 ++
    c.extractLsb' 7 1 ++ c.extractLsb' 2 1 ++ c.extractLsb' 11 1 ++ c.extractLsb' 3 3 ++ 0#1

/-- The arithmetic of quadrant 1, by bits [11:10] and then [6:5]; bit 12 extends the
    shift amounts and selects the word operations, and RV32 has neither. -/
def arithmetic : Option Base :=
  let rd := near c 7
  let amount := (c.extractLsb' 2 5).setWidth 32
  match c.extractLsb' 10 2, c.extractLsb' 12 1, c.extractLsb' 5 2 with
  | 0#2, 0#1, _ => some (.opImm .srl rd rd amount)
  | 1#2, 0#1, _ => some (.opImm .sra rd rd amount)
  | 2#2, _, _ => some (.opImm .and rd rd ((immediateCI c).signExtend 32))
  | 3#2, 0#1, 0#2 => some (.op .sub rd rd (near c 2))
  | 3#2, 0#1, 1#2 => some (.op .xor rd rd (near c 2))
  | 3#2, 0#1, 2#2 => some (.op .or rd rd (near c 2))
  | 3#2, 0#1, 3#2 => some (.op .and rd rd (near c 2))
  | _, _, _ => none

/-- The register forms of quadrant 2, by bit 12. -/
def registers : Option Instruction :=
  let rd := c.extractLsb' 7 5
  let rs2 := c.extractLsb' 2 5
  if c.extractLsb' 12 1 = 0 then
    if rs2 ≠ 0 then some (.base (.op .add rd 0 rs2))
    else if rd ≠ 0 then some (.base (.jalr 0 rd 0))
    else none
  else if rs2 ≠ 0 then some (.base (.op .add rd rd rs2))
  else if rd ≠ 0 then some (.base (.jalr 1 rd 0))
  else some .ebreak

/-- The instruction that a halfword stands for, by its quadrant and top three bits. -/
def Instruction.ofHalf : Option Instruction :=
  let rd := c.extractLsb' 7 5
  match c.extractLsb' 0 2, c.extractLsb' 13 3 with
  | 0#2, 0#3 =>
    if immediateCIW c = 0 then none
    else some (.base (.opImm .add (near c 2) 2 ((immediateCIW c).setWidth 32)))
  | 0#2, 2#3 => some (.lw (near c 2) (near c 7) ((immediateCL c).setWidth 32))
  | 0#2, 6#3 => some (.sw (near c 2) (near c 7) ((immediateCL c).setWidth 32))
  | 1#2, 0#3 => some (.base (.opImm .add rd rd ((immediateCI c).signExtend 32)))
  | 1#2, 1#3 => some (.base (.jal 1 ((immediateCJ c).signExtend 32)))
  | 1#2, 2#3 => some (.base (.opImm .add rd 0 ((immediateCI c).signExtend 32)))
  | 1#2, 3#3 =>
    if rd = 2 then
      if immediateSp c = 0 then none
      else some (.base (.opImm .add 2 2 ((immediateSp c).signExtend 32)))
    else if immediateCI c = 0 then none
    else some (.base (.lui rd ((immediateCI c ++ 0#12).signExtend 32)))
  | 1#2, 4#3 => (arithmetic c).map .base
  | 1#2, 5#3 => some (.base (.jal 0 ((immediateCJ c).signExtend 32)))
  | 1#2, 6#3 => some (.base (.branch .eq (near c 7) 0 ((immediateCB c).signExtend 32)))
  | 1#2, 7#3 => some (.base (.branch .ne (near c 7) 0 ((immediateCB c).signExtend 32)))
  | 2#2, 0#3 =>
    if c.extractLsb' 12 1 = 0 then
      some (.base (.opImm .sll rd rd ((c.extractLsb' 2 5).setWidth 32)))
    else none
  | 2#2, 2#3 => if rd = 0 then none else some (.lw rd 2 ((immediateLwsp c).setWidth 32))
  | 2#2, 4#3 => registers c
  | 2#2, 6#3 => some (.sw (c.extractLsb' 2 5) 2 ((immediateCSS c).setWidth 32))
  | _, _ => none

/-- The encodings that these formats reserve on RV32: zero immediates, `x0` as a
    destination or jump source, a sixth bit of a shift amount, and word operations. -/
def Reserved : Prop :=
  let rd := c.extractLsb' 7 5
  match c.extractLsb' 0 2, c.extractLsb' 13 3 with
  | 0#2, 0#3 => immediateCIW c = 0
  | 1#2, 3#3 => (rd = 2 ∧ immediateSp c = 0) ∨ (rd ≠ 2 ∧ immediateCI c = 0)
  | 1#2, 4#3 => c.extractLsb' 10 2 ≠ 2 ∧ c.extractLsb' 12 1 = 1
  | 2#2, 0#3 => c.extractLsb' 12 1 = 1
  | 2#2, 2#3 => rd = 0
  | 2#2, 4#3 => c.extractLsb' 12 1 = 0 ∧ rd = 0 ∧ c.extractLsb' 2 5 = 0
  | _, _ => False

end Formats

end RvEmu.InstructionSet
