import RvEmu.Memory

/-!
# Instruction decoding

`decode` splits a 32-bit word into its fields and the sign-extended immediate
of its format. Only opcodes with a format are accepted. The encoders below are
the inverse direction, used to expand compressed instructions into words that
take the same path.
-/

namespace RvEmu

/-- `inst_fmt_t`, without the marker of an unknown format. -/
inductive InstFmt where
  | r
  | i
  | s
  | b
  | u
  | j
deriving DecidableEq

/-- `opcode_t`. The cast in `decode` admits every seven-bit value, so a value
outside the enumeration is kept as itself. -/
inductive Opcode where
  | lui
  | auipc
  | jal
  | jalr
  | branch
  | load
  | store
  | loadFp
  | storeFp
  | alui
  | alu
  | fence
  | amo
  | fp
  | system
  | other (bits : BitVec 7)
deriving DecidableEq

/-- `(opcode_t)OPCODE(raw)`. -/
def opcodeOf (raw : Word) : Opcode :=
  let op := raw.extractLsb' 0 7
  if op = 0x37 then .lui
  else if op = 0x17 then .auipc
  else if op = 0x6F then .jal
  else if op = 0x67 then .jalr
  else if op = 0x63 then .branch
  else if op = 0x03 then .load
  else if op = 0x23 then .store
  else if op = 0x07 then .loadFp
  else if op = 0x27 then .storeFp
  else if op = 0x13 then .alui
  else if op = 0x33 then .alu
  else if op = 0x0F then .fence
  else if op = 0x2F then .amo
  else if op = 0x53 then .fp
  else if op = 0x73 then .system
  else .other op

/-- A register number; the decoder extracts five bits. -/
abbrev Reg := BitVec 5

/-- `decoded_inst_t`. -/
structure DecodedInst where
  raw : Word
  len : Byte
  fmt : InstFmt
  opcode : Opcode
  rd : Reg
  rs1 : Reg
  rs2 : Reg
  funct3 : BitVec 3
  funct7 : BitVec 7
  imm : Word
deriving DecidableEq

/-- Sign extension from bit `n`. -/
def sext (val : Word) (n : Nat) : Word :=
  let sign := (val >>> n) &&& 1
  if sign ≠ 0 then
    let mask := ~~~((1#32 <<< (n + 1)) - 1)
    val ||| mask
  else val &&& ((1#32 <<< (n + 1)) - 1)

def immI (raw : Word) : Word := sext ((raw >>> 20) &&& 0xFFF) 11

def immS (raw : Word) : Word :=
  let lo := (raw >>> 7) &&& 0x1F
  let hi := (raw >>> 25) &&& 0x7F
  sext ((hi <<< 5) ||| lo) 11

def immB (raw : Word) : Word :=
  let b11 := (raw >>> 7) &&& 0x01
  let b4_1 := (raw >>> 8) &&& 0x0F
  let b10_5 := (raw >>> 25) &&& 0x3F
  let b12 := (raw >>> 31) &&& 0x01
  sext ((b12 <<< 12) ||| (b11 <<< 11) ||| (b10_5 <<< 5) ||| (b4_1 <<< 1)) 12

def immU (raw : Word) : Word := raw &&& 0xFFFFF000

def immJ (raw : Word) : Word :=
  let b19_12 := (raw >>> 12) &&& 0xFF
  let b11 := (raw >>> 20) &&& 0x01
  let b10_1 := (raw >>> 21) &&& 0x3FF
  let b20 := (raw >>> 31) &&& 0x01
  sext ((b20 <<< 20) ||| (b19_12 <<< 12) ||| (b11 <<< 11) ||| (b10_1 <<< 1)) 20

/-- `get_fmt`; `none` is `FMT_UNKNOWN`. There is no case for `OP_FENCE`. -/
def getFmt : Opcode → Option InstFmt
  | .alu => some .r
  | .alui => some .i
  | .load => some .i
  | .jalr => some .i
  | .loadFp => some .i
  | .store => some .s
  | .storeFp => some .s
  | .amo => some .r
  | .fp => some .r
  | .branch => some .b
  | .lui => some .u
  | .auipc => some .u
  | .jal => some .j
  | .system => some .i
  | .fence => none
  | .other _ => none

/-- The immediate of each format. -/
def immOf (fmt : InstFmt) (raw : Word) : Word :=
  match fmt with
  | .r => 0
  | .i => immI raw
  | .s => immS raw
  | .b => immB raw
  | .u => immU raw
  | .j => immJ raw

/-- `decode`; `none` is an unknown opcode. -/
def decode (raw : Word) : Option DecodedInst :=
  match getFmt (opcodeOf raw) with
  | none => none
  | some fmt =>
    some
      { raw := raw
        len := 4
        fmt := fmt
        opcode := opcodeOf raw
        rd := raw.extractLsb' 7 5
        rs1 := raw.extractLsb' 15 5
        rs2 := raw.extractLsb' 20 5
        funct3 := raw.extractLsb' 12 3
        funct7 := raw.extractLsb' 25 7
        imm := immOf fmt raw }

/-- The encoders mask each field to its width, as `decode` extracts it. -/
def encR (f7 : Word) (rs2 rs1 f3 rd op : Word) : Word :=
  ((f7 &&& 0x7F) <<< 25) ||| ((rs2 &&& 0x1F) <<< 20) ||| ((rs1 &&& 0x1F) <<< 15) |||
    ((f3 &&& 7) <<< 12) ||| ((rd &&& 0x1F) <<< 7) ||| (op &&& 0x7F)

def encI (imm : Word) (rs1 f3 rd op : Word) : Word :=
  ((imm &&& 0xFFF) <<< 20) ||| ((rs1 &&& 0x1F) <<< 15) ||| ((f3 &&& 7) <<< 12) |||
    ((rd &&& 0x1F) <<< 7) ||| (op &&& 0x7F)

def encS (imm : Word) (rs2 rs1 f3 op : Word) : Word :=
  (((imm >>> 5) &&& 0x7F) <<< 25) ||| ((rs2 &&& 0x1F) <<< 20) ||| ((rs1 &&& 0x1F) <<< 15) |||
    ((f3 &&& 7) <<< 12) ||| ((imm &&& 0x1F) <<< 7) ||| (op &&& 0x7F)

def encB (imm : Word) (rs2 rs1 f3 op : Word) : Word :=
  (((imm >>> 12) &&& 1) <<< 31) ||| (((imm >>> 5) &&& 0x3F) <<< 25) ||| ((rs2 &&& 0x1F) <<< 20) |||
    ((rs1 &&& 0x1F) <<< 15) ||| ((f3 &&& 7) <<< 12) ||| (((imm >>> 1) &&& 0xF) <<< 8) |||
    (((imm >>> 11) &&& 1) <<< 7) ||| (op &&& 0x7F)

def encU (imm : Word) (rd op : Word) : Word :=
  (imm &&& 0xFFFFF000) ||| ((rd &&& 0x1F) <<< 7) ||| (op &&& 0x7F)

def encJ (imm : Word) (rd op : Word) : Word :=
  (((imm >>> 20) &&& 1) <<< 31) ||| (((imm >>> 1) &&& 0x3FF) <<< 21) |||
    (((imm >>> 11) &&& 1) <<< 20) ||| (((imm >>> 12) &&& 0xFF) <<< 12) |||
    ((rd &&& 0x1F) <<< 7) ||| (op &&& 0x7F)

/-- A decoded instruction keeps the word and records four bytes of length. -/
theorem decode_fields (raw : Word) (inst : DecodedInst) (decoded : decode raw = some inst) :
    inst.raw = raw ∧ inst.len = 4 ∧ inst.opcode = opcodeOf raw := by
  simp only [decode] at decoded
  split at decoded
  · cases decoded
  · cases decoded
    exact ⟨rfl, rfl, rfl⟩

end RvEmu
