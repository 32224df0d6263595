import RvEmu.Assembler
import RvEmu.EncodingInverse
import RvEmu.Foundation.Layout

/-!
# The assembly language

What a program of the assembler says, without a word of how it is encoded. An instruction
has a meaning when its operands are registers, known labels, and numbers that fit: it
computes a value, goes to a label, or acts on memory, a CSR or the privilege level. A program
runs from instruction to instruction, by the addresses of its layout.

The constants of `li32` take two words, so such an instruction is two steps of the machine.
The timer ticks and a cycle is counted in each.
-/

namespace RvEmu.AssemblyLanguage

open Assembler InstructionSet EncodingInverse StepAnatomy

/-! ## Operands -/

/-- A register: one of the names, or a number that a register has. -/
def register (arg : Arg) : Option Reg := do
  let index ← reg arg
  if 0 ≤ index ∧ index < 32 then some (BitVec.ofInt 5 index) else none

/-- A signed number of twelve bits. -/
def immediate (arg : Arg) : Option Word := do
  let imm ← number arg
  if -2048 ≤ imm ∧ imm ≤ 2047 then some (low imm) else none

/-- A label that is an even distance away, of less than a bound. -/
def destination (labels : Labels) (addr : Nat) (bound : Int) (label : Arg) : Option Word := do
  let place ← target labels label
  if -bound ≤ place - addr ∧ place - addr < bound ∧ (place - addr) % 2 = 0 then some (low place)
  else none

/-! ## Instructions -/

/-- The instructions, with their operands resolved. -/
inductive Instr where
  | op (operation : Operation) (rd rs1 rs2 : Reg)
  | multiply (funct3 : BitVec 3) (rd rs1 rs2 : Reg)
  | add (rd rs1 : Reg) (imm : Word)
  | constant (rd : Reg) (value : Word)
  | branch (comparison : Comparison) (rs1 rs2 : Reg) (destination : Word)
  | jump (rd : Reg) (destination : Word)
  | load (rd rs1 : Reg) (offset : Word)
  | store (width : Width) (rs2 rs1 : Reg) (offset : Word)
  | csr (funct3 : BitVec 3) (rd : Reg) (index : Word) (source : Reg)
  | atomic (f5 : BitVec 5) (rd rs2 rs1 : Reg)
  | word (raw : Word)
deriving DecidableEq

/-- The forms that mnemonics have. -/
def constant (labels : Labels) (rd val : Arg) : Option Instr := do
  return .constant (← register rd) (low (← value labels val))

def added (rd rs1 imm : Arg) : Option Instr := do
  return .add (← register rd) (← register rs1) (← immediate imm)

def computed (operation : Operation) (rd rs1 rs2 : Arg) : Option Instr := do
  return .op operation (← register rd) (← register rs1) (← register rs2)

def multiplied (funct3 : BitVec 3) (rd rs1 rs2 : Arg) : Option Instr := do
  return .multiply funct3 (← register rd) (← register rs1) (← register rs2)

def loaded (rd rs1 imm : Arg) : Option Instr := do
  return .load (← register rd) (← register rs1) (← immediate imm)

def stored (width : Width) (rs2 rs1 imm : Arg) : Option Instr := do
  return .store width (← register rs2) (← register rs1) (← immediate imm)

def branched (labels : Labels) (addr : Nat) (comparison : Comparison) (rs1 rs2 label : Arg) :
    Option Instr := do
  return .branch comparison (← register rs1) (← register rs2)
    (← destination labels addr 4096 label)

def jumped (labels : Labels) (addr : Nat) (rd label : Arg) : Option Instr := do
  return .jump (← register rd) (← destination labels addr (2 ^ 20) label)

def accessed (funct3 : BitVec 3) (rd csr source : Arg) : Option Instr := do
  return .csr funct3 (← register rd) (← immediate csr) (← register source)

def modified (f5 : BitVec 5) (rd rs2 rs1 : Arg) : Option Instr := do
  return .atomic f5 (← register rd) (← register rs2) (← register rs1)

/-- The meaning of an instruction at an address. -/
def meaning (labels : Labels) (addr : Nat) (mn : Mnemonic) (args : List Arg) : Option Instr :=
  match mn, args with
  | .li32, [rd, val] => constant labels rd val
  | .mv, [rd, rs] => added rd rs (.int 0)
  | .addi, [rd, rs, imm] => added rd rs imm
  | .li, [rd, imm] => added rd (.int 0) imm
  | .add, [rd, rs1, rs2] => computed .add rd rs1 rs2
  | .sub, [rd, rs1, rs2] => computed .sub rd rs1 rs2
  | .mul, [rd, rs1, rs2] => multiplied 0 rd rs1 rs2
  | .divu, [rd, rs1, rs2] => multiplied 5 rd rs1 rs2
  | .remu, [rd, rs1, rs2] => multiplied 7 rd rs1 rs2
  | .sb, [rs2, rs1, imm] => stored .byte rs2 rs1 imm
  | .sw, [rs2, rs1, imm] => stored .word rs2 rs1 imm
  | .lw, [rd, rs1, imm] => loaded rd rs1 imm
  | .bne, [rs1, rs2, label] => branched labels addr .ne rs1 rs2 label
  | .beq, [rs1, rs2, label] => branched labels addr .eq rs1 rs2 label
  | .blt, [rs1, rs2, label] => branched labels addr .lt rs1 rs2 label
  | .bnez, [rs1, label] => branched labels addr .ne rs1 (.int 0) label
  | .jal, [rd, label] => jumped labels addr rd label
  | .j, [label] => jumped labels addr (.int 0) label
  | .csrrw, [rd, csr, rs1] => accessed 1 rd csr rs1
  | .csrrs, [rd, csr, rs1] => accessed 2 rd csr rs1
  | .csrrc, [rd, csr, rs1] => accessed 3 rd csr rs1
  | .csrrwi, [rd, csr, uimm] => accessed 5 rd csr uimm
  | .csrrsi, [rd, csr, uimm] => accessed 6 rd csr uimm
  | .csrrci, [rd, csr, uimm] => accessed 7 rd csr uimm
  | .csrw, [csr, rs1] => accessed 1 (.int 0) csr rs1
  | .csrr, [rd, csr] => accessed 2 rd csr (.int 0)
  | .csrs, [csr, rs1] => accessed 2 (.int 0) csr rs1
  | .csrci, [csr, uimm] => accessed 7 (.int 0) csr uimm
  | .lrW, [rd, rs1] => modified 0x02 rd (.int 0) rs1
  | .scW, [rd, rs2, rs1] => modified 0x03 rd rs2 rs1
  | .amoaddW, [rd, rs2, rs1] => modified 0x00 rd rs2 rs1
  | .amoswapW, [rd, rs2, rs1] => modified 0x01 rd rs2 rs1
  | .amoxorW, [rd, rs2, rs1] => modified 0x04 rd rs2 rs1
  | .amoorW, [rd, rs2, rs1] => modified 0x08 rd rs2 rs1
  | .amoandW, [rd, rs2, rs1] => modified 0x0C rd rs2 rs1
  | .amominW, [rd, rs2, rs1] => modified 0x10 rd rs2 rs1
  | .amomaxW, [rd, rs2, rs1] => modified 0x14 rd rs2 rs1
  | .amominuW, [rd, rs2, rs1] => modified 0x18 rd rs2 rs1
  | .amomaxuW, [rd, rs2, rs1] => modified 0x1C rd rs2 rs1
  | .mret, _ => some (.word rawMret)
  | .sret, _ => some (.word rawSret)
  | .ebreak, _ => some (.word rawEbreak)
  | .ecall, _ => some (.word rawEcall)
  | .word, [raw] => do
    let raw ← number raw
    if low raw &&& 3 = 3 then some (.word (low raw)) else none
  | _, _ => none

/-! ## Effects -/

/-- The machine after a register write, with the pc it goes on to. -/
def written (emu : Emulator) (rd : Reg) (value nextPc : Word) : Emulator :=
  { emu with rf := { emu.rf with regs := put emu.rf.regs rd value, pc := nextPc } }

/-- The instruction of a format with these fields. -/
def machineInst (fmt : InstFmt) (fields : Fields) : DecodedInst where
  raw := fields.encode fmt
  len := 4
  fmt := fmt
  opcode := opcodeOf (fields.op.setWidth 32)
  rd := fields.rd
  rs1 := fields.rs1
  rs2 := fields.rs2
  funct3 := fields.f3
  funct7 := fields.f7
  imm := fields.imm

def loadFields (rd rs1 : Reg) (offset : Word) : Fields where
  f7 := 0
  rs2 := 0
  rs1 := rs1
  f3 := 2
  rd := rd
  op := 0x03
  imm := offset

def storeFields (width : Width) (rs2 rs1 : Reg) (offset : Word) : Fields where
  f7 := 0
  rs2 := rs2
  rs1 := rs1
  f3 := width.funct3
  rd := 0
  op := 0x23
  imm := offset

def csrFields (funct3 : BitVec 3) (rd : Reg) (index : Word) (source : Reg) : Fields where
  f7 := 0
  rs2 := 0
  rs1 := source
  f3 := funct3
  rd := rd
  op := 0x73
  imm := index

def atomicFields (f5 : BitVec 5) (rd rs2 rs1 : Reg) : Fields where
  f7 := f5 ++ 0#2
  rs2 := rs2
  rs1 := rs1
  f3 := 2
  rd := rd
  op := 0x2F
  imm := 0

/-- What is done with a word: it is decoded and executed, or illegal. -/
def runWord (host : HostFloat) (emu : Emulator) (raw : Word) : Event × Emulator :=
  match decode raw with
  | none => raiseOrStop emu excIllegalInst raw emu.rf.pc
  | some inst => execute host emu inst

/-- What an instruction does. Those that act on memory, on a CSR or on the privilege level
    do what the machine does for their fields. -/
def Instr.perform (host : HostFloat) (emu : Emulator) : Instr → Event × Emulator
  | .op operation rd rs1 rs2 =>
    (.retired .quiet,
      written emu rd (operation.value (emu.rf.regs rs1) (emu.rf.regs rs2)) (emu.rf.pc + 4))
  | .multiply funct3 rd rs1 rs2 =>
    (.retired .quiet,
      written emu rd (mulDivResult funct3 (emu.rf.regs rs1) (emu.rf.regs rs2)) (emu.rf.pc + 4))
  | .add rd rs1 imm =>
    (.retired .quiet, written emu rd (emu.rf.regs rs1 + imm) (emu.rf.pc + 4))
  | .constant rd value => (.retired .quiet, written emu rd value (emu.rf.pc + 8))
  | .branch comparison rs1 rs2 destination =>
    (.retired .quiet,
      { emu with
        rf :=
          { emu.rf with
            pc :=
              if comparison.holds (emu.rf.regs rs1) (emu.rf.regs rs2) then destination
              else emu.rf.pc + 4 } })
  | .jump rd destination => (.retired .quiet, written emu rd (emu.rf.pc + 4) destination)
  | .load rd rs1 offset => execute host emu (machineInst .i (loadFields rd rs1 offset))
  | .store width rs2 rs1 offset =>
    execute host emu (machineInst .s (storeFields width rs2 rs1 offset))
  | .csr funct3 rd index source =>
    execute host emu (machineInst .i (csrFields funct3 rd index source))
  | .atomic f5 rd rs2 rs1 => execute host emu (machineInst .r (atomicFields f5 rd rs2 rs1))
  | .word raw => runWord host emu raw

/-- The words of an instruction, each of which is a step of the machine. -/
def Instr.steps : Instr → Nat
  | .constant _ _ => 2
  | _ => 1

/-- A step in which the timer ticks, the cycle is counted and nothing else changes. -/
def passStep (emu : Emulator) : Emulator :=
  { timerTick emu with csr := { (timerTick emu).csr with mcycle := emu.csr.mcycle + 1 } }

/-- The machine after an instruction, in the last of its steps. -/
def Instr.after (host : HostFloat) (emu : Emulator) (instr : Instr) : Emulator :=
  (countCycle (instr.perform host (timerTick (passStep^[instr.steps - 1] emu)))).2

/-! ## Programs -/

/-- The instruction of an item, if it is one and stands at an even address. -/
def itemInstr (labels : Labels) (place : Nat) : Item → Option Instr
  | .insn mn args => do
    let mn ← mnemonicOf mn
    if place % 2 = 0 then meaning labels place mn args else none
  | _ => none

/-- The instruction of a program at the pc. -/
def instrAt (items : List Item) (pc : Word) : Option Instr :=
  (Layout.places size items base).findSome? fun placed =>
    if placed.1 = pc.toNat then itemInstr (passOne items base []) placed.1 placed.2 else none

/-- The code stands in memory. -/
def Intact (code : List Byte) (emu : Emulator) : Prop :=
  ∀ k byte, code[k]? = some byte → emu.mem.data (BitVec.ofNat 32 (base + k)) = byte

theorem intact_iff (code : List Byte) (emu : Emulator) :
    Intact code emu ↔
      ∀ k : Fin code.length, emu.mem.data (BitVec.ofNat 32 (base + k.val)) = code[k.val] := by
  constructor
  · intro intact k
    exact intact k.val _ (List.getElem?_eq_getElem k.isLt)
  · intro cells k byte known
    obtain ⟨inside, rfl⟩ := List.getElem?_eq_some_iff.mp known
    exact cells ⟨k, inside⟩

instance (code : List Byte) (emu : Emulator) : Decidable (Intact code emu) :=
  decidable_of_iff _ (intact_iff code emu).symm

/-- The machine is about to do an instruction of so many words: the code is in memory and
    fetched from where it is, and no interrupt comes between the words. -/
structure Ready (code : List Byte) (emu : Emulator) (steps : Nat) : Prop where
  running : emu.state = .running
  intact : Intact code emu
  direct : ∀ offset, offset < 4 * steps →
    mmuTranslate emu (emu.rf.pc + BitVec.ofNat 32 offset) .fetch =
      (.ok (emu.rf.pc + BitVec.ofNat 32 offset), emu)
  quiet : ∀ k, k < steps → (trapCheckInterrupt (passStep^[k] emu) emu.rf.pc).1 = false

/-- A program runs from one state to another in so many steps of the machine: it does the
    instruction at the pc, or a timer interrupt comes before that. -/
inductive RunsTo (host : HostFloat) (items : List Item) (code : List Byte) :
    Emulator → Nat → Emulator → Prop where
  | done (emu : Emulator) : RunsTo host items code emu 0 emu
  | instruction (emu : Emulator) (instr : Instr) (k : Nat) (finish : Emulator)
      (stands : instrAt items emu.rf.pc = some instr) (ready : Ready code emu instr.steps)
      (rest : RunsTo host items code (instr.after host emu) k finish) :
      RunsTo host items code emu (instr.steps + k) finish
  | interrupt (emu handler : Emulator) (k : Nat) (finish : Emulator)
      (running : emu.state = .running)
      (taken : trapCheckInterrupt emu emu.rf.pc = (true, handler))
      (rest : RunsTo host items code (countCycle (.interrupted, handler)).2 k finish) :
      RunsTo host items code emu (1 + k) finish

end RvEmu.AssemblyLanguage
