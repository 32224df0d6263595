import RvEmu.Decode

/-!
# Disassembly

`decode_disasm` prints a decoded instruction. Each case of its switch looks a
mnemonic up in the fields and formats the operands; where there is none, the
buffer stays empty and the raw word is printed in its place. The model returns
the whole text: the buffers of the callers hold 128 characters, and no text is
that long.
-/

namespace RvEmu

/-! ## Formats -/

/-- `%u`. -/
def formatUnsigned {w : Nat} (value : BitVec w) : String := toString value.toNat

/-- `%d`. -/
def formatSigned (value : Word) : String := toString value.toInt

/-- `%+d`. -/
def formatOffset (value : Word) : String :=
  (if 0 ≤ value.toInt then "+" else "") ++ formatSigned value

/-- The digits of `%X`. -/
def hexDigits (value : Word) : List Char := (Nat.toDigits 16 value.toNat).map Char.toUpper

/-- `0x%X`. -/
def formatHex (value : Word) : String := "0x" ++ String.ofList (hexDigits value)

/-- `.word 0x%08X`. -/
def wordText (raw : Word) : String :=
  ".word 0x" ++ String.ofList (List.replicate (8 - (hexDigits raw).length) '0' ++ hexDigits raw)

/-- A mnemonic and its operands. -/
def line (mn : String) (operands : List String) : String := mn ++ " " ++ ", ".intercalate operands

/-! ## Names -/

/-- `reg_name`. -/
def regNames : List String :=
  ["zero", "ra", "sp", "gp", "tp", "t0", "t1", "t2",
    "s0", "s1", "a0", "a1", "a2", "a3", "a4", "a5",
    "a6", "a7", "s2", "s3", "s4", "s5", "s6", "s7",
    "s8", "s9", "s10", "s11", "t3", "t4", "t5", "t6"]

/-- `rn`. -/
def rn (idx : Reg) : String := (regNames[idx.toNat]?).getD "?"

/-- `f%u`. -/
def fregName (idx : Reg) : String := "f" ++ formatUnsigned idx

/-- `%d(%s)`. -/
def based (offset : Word) (base : Reg) : String := formatSigned offset ++ "(" ++ rn base ++ ")"

/-- An entry of a table of names indexed by `funct3`; `none` is `NULL`. -/
def nameAt (names : List (Option String)) (funct3 : BitVec 3) : Option String :=
  (names[funct3.toNat]?).join

def aluName (funct3 : BitVec 3) (funct7 : BitVec 7) : Option String :=
  let base := ["add", "sll", "slt", "sltu", "xor", "srl", "or", "and"].map some
  let alt := [some "sub", none, none, none, none, some "sra", none, none]
  let m := ["mul", "mulh", "mulhsu", "mulhu", "div", "divu", "rem", "remu"].map some
  if funct7 = 0x01 then nameAt m funct3
  else if funct7 = 0x20 then nameAt alt funct3
  else if funct7 = 0x00 then nameAt base funct3
  else none

def aluiName (funct3 : BitVec 3) (funct7 : BitVec 7) : Option String :=
  let n := ["addi", "slli", "slti", "sltiu", "xori", "srli", "ori", "andi"].map some
  if funct3 = 5 ∧ funct7 = 0x20 then some "srai"
  else if funct3 = 1 ∧ funct7 ≠ 0x00 then none
  else if funct3 = 5 ∧ funct7 ≠ 0x00 ∧ funct7 ≠ 0x20 then none
  else nameAt n funct3

def loadName : BitVec 3 → Option String :=
  nameAt [some "lb", some "lh", some "lw", none, some "lbu", some "lhu", none, none]

def storeName : BitVec 3 → Option String :=
  nameAt [some "sb", some "sh", some "sw", none, none, none, none, none]

/-- `amo_name`, of `funct5`. -/
def amoName (f5 : BitVec 7) : Option String :=
  match f5 with
  | 0x02#7 => some "lr.w"
  | 0x03#7 => some "sc.w"
  | 0x00#7 => some "amoadd.w"
  | 0x01#7 => some "amoswap.w"
  | 0x04#7 => some "amoxor.w"
  | 0x08#7 => some "amoor.w"
  | 0x0C#7 => some "amoand.w"
  | 0x10#7 => some "amomin.w"
  | 0x14#7 => some "amomax.w"
  | 0x18#7 => some "amominu.w"
  | 0x1C#7 => some "amomaxu.w"
  | _ => none

def branchName : BitVec 3 → Option String :=
  nameAt [some "beq", some "bne", none, none, some "blt", some "bge", some "bltu", some "bgeu"]

def csrName : BitVec 3 → Option String :=
  nameAt
    [none, some "csrrw", some "csrrs", some "csrrc", none, some "csrrwi", some "csrrsi",
      some "csrrci"]

/-! ## The switch -/

/-- `OP_ALUI`: the third operand of a shift is its amount. -/
def disasmAlui (inst : DecodedInst) (mn : String) : String :=
  if inst.funct3 = 1 ∨ inst.funct3 = 5 then
    line mn [rn inst.rd, rn inst.rs1, formatUnsigned (inst.imm &&& 0x1F)]
  else line mn [rn inst.rd, rn inst.rs1, formatSigned inst.imm]

/-- `OP_SYSTEM`. -/
def disasmSystem (inst : DecodedInst) : Option String :=
  if inst.raw = 0x00000073 then some "ecall"
  else if inst.raw = 0x00100073 then some "ebreak"
  else if inst.raw = 0x30200073 then some "mret"
  else
    (csrName inst.funct3).map fun mn =>
      if inst.funct3 ≥ 5 then
        line mn [rn inst.rd, formatHex inst.imm, formatUnsigned inst.rs1]
      else line mn [rn inst.rd, formatHex inst.imm, rn inst.rs1]

/-- Three floating-point registers. -/
def disasmThree (inst : DecodedInst) (mn : String) : String :=
  line mn [fregName inst.rd, fregName inst.rs1, fregName inst.rs2]

/-- `OP_FP`. -/
def disasmFp (inst : DecodedInst) : Option String :=
  let f3 := inst.funct3
  match inst.funct7 with
  | 0x00#7 => some (disasmThree inst "fadd.s")
  | 0x04#7 => some (disasmThree inst "fsub.s")
  | 0x08#7 => some (disasmThree inst "fmul.s")
  | 0x0C#7 => some (disasmThree inst "fdiv.s")
  | 0x2C#7 => some (line "fsqrt.s" [fregName inst.rd, fregName inst.rs1])
  | 0x10#7 =>
    if f3 = 0 then some (disasmThree inst "fsgnj.s")
    else if f3 = 1 then some (disasmThree inst "fsgnjn.s")
    else if f3 = 2 then some (disasmThree inst "fsgnjx.s")
    else none
  | 0x14#7 =>
    if f3 = 0 then some (disasmThree inst "fmin.s")
    else if f3 = 1 then some (disasmThree inst "fmax.s")
    else none
  | 0x50#7 =>
    if f3 = 0 then some (line "fle.s" [rn inst.rd, fregName inst.rs1, fregName inst.rs2])
    else if f3 = 1 then some (line "flt.s" [rn inst.rd, fregName inst.rs1, fregName inst.rs2])
    else if f3 = 2 then some (line "feq.s" [rn inst.rd, fregName inst.rs1, fregName inst.rs2])
    else none
  | 0x60#7 =>
    if inst.rs2 = 0 then some (line "fcvt.w.s" [rn inst.rd, fregName inst.rs1])
    else if inst.rs2 = 1 then some (line "fcvt.wu.s" [rn inst.rd, fregName inst.rs1])
    else none
  | 0x68#7 =>
    if inst.rs2 = 0 then some (line "fcvt.s.w" [fregName inst.rd, rn inst.rs1])
    else if inst.rs2 = 1 then some (line "fcvt.s.wu" [fregName inst.rd, rn inst.rs1])
    else none
  | 0x70#7 =>
    if f3 = 0 then some (line "fmv.x.w" [rn inst.rd, fregName inst.rs1])
    else if f3 = 1 then some (line "fclass.s" [rn inst.rd, fregName inst.rs1])
    else none
  | 0x78#7 => some (line "fmv.w.x" [fregName inst.rd, rn inst.rs1])
  | _ => none

/-- `OP_AMO`; a load-reserved has no second operand. -/
def disasmAmo (inst : DecodedInst) : Option String :=
  let operand := "(" ++ rn inst.rs1 ++ ")"
  match amoName (inst.funct7 >>> 2) with
  | none => none
  | some n =>
    if inst.funct3 ≠ 2 then none
    else if inst.funct7 >>> 2 = 0x02 then some (line n [rn inst.rd, operand])
    else some (line n [rn inst.rd, rn inst.rs2, operand])

/-- The switch of `decode_disasm`; `none` leaves the buffer empty. -/
def disasmText (inst : DecodedInst) : Option String :=
  match inst.opcode with
  | .alu =>
    (aluName inst.funct3 inst.funct7).map (line · [rn inst.rd, rn inst.rs1, rn inst.rs2])
  | .alui => (aluiName inst.funct3 inst.funct7).map (disasmAlui inst)
  | .load => (loadName inst.funct3).map (line · [rn inst.rd, based inst.imm inst.rs1])
  | .store => (storeName inst.funct3).map (line · [rn inst.rs2, based inst.imm inst.rs1])
  | .branch =>
    (branchName inst.funct3).map (line · [rn inst.rs1, rn inst.rs2, formatOffset inst.imm])
  | .jal => some (line "jal" [rn inst.rd, formatOffset inst.imm])
  | .jalr => some (line "jalr" [rn inst.rd, based inst.imm inst.rs1])
  | .lui => some (line "lui" [rn inst.rd, formatHex (inst.imm >>> 12)])
  | .auipc => some (line "auipc" [rn inst.rd, formatHex (inst.imm >>> 12)])
  | .system => disasmSystem inst
  | .fence => some "fence"
  | .loadFp =>
    if inst.funct3 = 2 then some (line "flw" [fregName inst.rd, based inst.imm inst.rs1]) else none
  | .storeFp =>
    if inst.funct3 = 2 then some (line "fsw" [fregName inst.rs2, based inst.imm inst.rs1]) else none
  | .fp => disasmFp inst
  | .amo => disasmAmo inst
  | .other _ => none

/-- `decode_disasm`. -/
def decodeDisasm (inst : DecodedInst) : String := (disasmText inst).getD (wordText inst.raw)

end RvEmu
