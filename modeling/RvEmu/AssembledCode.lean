import Mathlib.Algebra.Order.Ring.Int
import Mathlib.Tactic.Zify
import RvEmu.AssemblyLanguage

/-!
# The assembler encodes what the program says

The encoders of the assembler are those of the decoder's tests, although they work on
integers without bounds: a mask takes the same bits of an integer as of its low word. So what
the assembler encodes decodes to the operands, and executing that is the meaning of the
instruction. The first pass gives every label the address of the items behind it, and the
image of the second pass holds the words of every instruction at its address.
-/

namespace RvEmu.AssembledCode

open LittleEndian Assembler InstructionSet BaseInstructions EncodingInverse StepAnatomy
  AssemblyLanguage

/-! ## The encoders -/

/-- Low bits of a quotient are bits of the integer. -/
theorem low_shift (imm : Int) (n m : Nat) (inside : n + m ≤ 32) :
    (low (imm / 2 ^ n)).setWidth m = (low imm >>> n).setWidth m := by
  have split : (2 : Int) ^ 32 = 2 ^ n * 2 ^ (32 - n) := by
    rw [← pow_add]
    congr 1
    omega
  have whole : (2 : Int) ^ m ∣ 2 ^ 32 := pow_dvd_pow 2 (by omega)
  have above : (2 : Int) ^ m ∣ 2 ^ (32 - n) := pow_dvd_pow 2 (by omega)
  have positive : (2 : Int) ^ n ≠ 0 := pow_ne_zero n (by decide)
  have quotient : imm / 2 ^ n = imm % 2 ^ 32 / 2 ^ n + 2 ^ (32 - n) * (imm / 2 ^ 32) := by
    conv_lhs => rw [← Int.emod_add_mul_ediv imm (2 ^ 32), split, mul_assoc,
      Int.add_mul_ediv_left _ _ positive, ← split]
  have remainder : 0 ≤ imm % 2 ^ 32 := Int.emod_nonneg _ (by decide)
  have same : imm / 2 ^ n % 2 ^ 32 % 2 ^ m = imm % 2 ^ 32 / 2 ^ n % 2 ^ m := by
    obtain ⟨factor, multiple⟩ := above
    rw [Int.emod_emod_of_dvd _ whole, quotient, multiple, mul_assoc, Int.add_mul_emod_self_left]
  have left : 0 ≤ imm / 2 ^ n % 2 ^ 32 := Int.emod_nonneg _ (by decide)
  apply BitVec.eq_of_toNat_eq
  rw [BitVec.toNat_setWidth, BitVec.toNat_setWidth, BitVec.toNat_ushiftRight, low, low,
    BitVec.toNat_ofInt, BitVec.toNat_ofInt, Nat.shiftRight_eq_div_pow]
  zify
  rw [Int.toNat_of_nonneg left, Int.toNat_of_nonneg remainder]
  exact same

/-- So a mask takes the same bits of both. -/
theorem low_mask_shift (imm : Int) (n m : Nat) (inside : n + m ≤ 32) :
    low (imm.shiftRight n) &&& BitFields.lowOnes 32 m = (low imm >>> n) &&& BitFields.lowOnes 32 m := by
  have quotient : imm.shiftRight n = imm / 2 ^ n := by
    have shifted := Int.shiftRight_eq_div_pow imm n
    push_cast at shifted
    exact shifted
  rw [quotient, BitFields.and_lowOnes, BitFields.and_lowOnes, low_shift imm n m inside]

/-- A register is the number that it is encoded with. -/
theorem register_reg (arg : Arg) (r : Reg) (known : register arg = some r) :
    ∃ index, reg arg = some index ∧ low index = r.setWidth 32 := by
  simp only [register, Option.bind_eq_bind, Option.bind_eq_some_iff] at known
  obtain ⟨index, found, chosen⟩ := known
  split at chosen
  · rename_i inside
    cases chosen
    refine ⟨index, found, ?_⟩
    obtain ⟨number, rfl⟩ := Int.eq_ofNat_of_zero_le inside.1
    apply BitVec.eq_of_toNat_eq
    rw [low, BitVec.ofInt_natCast, BitVec.ofInt_natCast, BitVec.toNat_setWidth,
      BitVec.toNat_ofNat, BitVec.toNat_ofNat]
    omega
  · cases chosen

/-- A number of twelve bits fits the formats that have them. -/
theorem immediate_range (arg : Arg) (value : Word) (known : immediate arg = some value) :
    ∃ imm, number arg = some imm ∧ low imm = value ∧ -2048 ≤ value.toInt ∧ value.toInt ≤ 2047 := by
  simp only [immediate, Option.bind_eq_bind, Option.bind_eq_some_iff] at known
  obtain ⟨imm, found, chosen⟩ := known
  split at chosen
  · rename_i inside
    cases chosen
    have same : (low imm).toInt = imm := BitVec.toInt_ofInt_eq_self (by decide)
      (by change -2 ^ 31 ≤ imm; omega) (by change imm < 2 ^ 31; omega)
    exact ⟨imm, found, rfl, by omega, by omega⟩
  · cases chosen

/-- The distance to a destination is even and fits. -/
theorem destination_range (labels : Labels) (addr : Nat) (bound : Int) (label : Arg)
    (place : Word) (small : bound ≤ 2 ^ 20)
    (known : destination labels addr bound label = some place) :
    ∃ absolute, target labels label = some absolute ∧ place = low absolute ∧
      low (absolute - addr) = place - BitVec.ofNat 32 addr ∧
      -bound ≤ (low (absolute - addr)).toInt ∧ (low (absolute - addr)).toInt < bound ∧
      (low (absolute - addr)).toInt % 2 = 0 := by
  simp only [destination, Option.bind_eq_bind, Option.bind_eq_some_iff] at known
  obtain ⟨absolute, found, chosen⟩ := known
  split at chosen
  · rename_i inside
    cases chosen
    have same : (low (absolute - addr)).toInt = absolute - addr :=
      BitVec.toInt_ofInt_eq_self (by decide)
        (by change -2 ^ 31 ≤ absolute - addr; omega) (by change absolute - addr < 2 ^ 31; omega)
    have split : low (absolute - addr) = low absolute - BitVec.ofNat 32 addr := by
      rw [low, Int.sub_eq_add_neg, BitVec.ofInt_add, BitVec.ofInt_neg, BitVec.ofInt_natCast,
        BitVec.sub_eq_add_neg, low]
    refine ⟨absolute, found, rfl, split, ?_⟩
    rw [same]
    exact inside
  · cases chosen

section Encoders

variable (rs2 rs1 rd : Arg) (second source dest : Reg)
  (knownSecond : register rs2 = some second) (knownSource : register rs1 = some source)
  (knownDest : register rd = some dest)

include knownSecond knownSource knownDest in
theorem rType_encode (f7 : BitVec 7) (f3 : BitVec 3) (op : BitVec 7) :
    rType (f7.setWidth 32) rs2 rs1 (f3.setWidth 32) rd (op.setWidth 32) =
      some (encR (f7.setWidth 32) (second.setWidth 32) (source.setWidth 32) (f3.setWidth 32)
        (dest.setWidth 32) (op.setWidth 32)) := by
  obtain ⟨index2, found2, low2⟩ := register_reg rs2 second knownSecond
  obtain ⟨index1, found1, low1⟩ := register_reg rs1 source knownSource
  obtain ⟨index, found, lowDest⟩ := register_reg rd dest knownDest
  rw [rType, found2, found1, found, ← low2, ← low1, ← lowDest]
  rfl

include knownSource knownDest in
theorem iType_encode (imm : Int) (f3 op : Word) :
    iType imm rs1 f3 rd op =
      some (encI (low imm) (source.setWidth 32) f3 (dest.setWidth 32) op) := by
  obtain ⟨index1, found1, low1⟩ := register_reg rs1 source knownSource
  obtain ⟨index, found, lowDest⟩ := register_reg rd dest knownDest
  rw [iType, found1, found, ← low1, ← lowDest]
  rfl

include knownSecond knownSource in
theorem sType_encode (imm : Int) (f3 op : Word) :
    sType imm rs2 rs1 f3 op =
      some (encS (low imm) (second.setWidth 32) (source.setWidth 32) f3 op) := by
  obtain ⟨index2, found2, low2⟩ := register_reg rs2 second knownSecond
  obtain ⟨index1, found1, low1⟩ := register_reg rs1 source knownSource
  have upper : low (imm.shiftRight 5) &&& (0x7F : Word) = (low imm >>> 5) &&& 0x7F :=
    low_mask_shift imm 5 7 (by decide)
  rw [sType, found2, found1, upper, ← low2, ← low1]
  rfl

include knownSecond knownSource in
theorem bType_encode (imm : Int) (f3 op : Word) :
    bType imm rs2 rs1 f3 op =
      some (encB (low imm) (second.setWidth 32) (source.setWidth 32) f3 op) := by
  obtain ⟨index2, found2, low2⟩ := register_reg rs2 second knownSecond
  obtain ⟨index1, found1, low1⟩ := register_reg rs1 source knownSource
  have b12 : low (imm.shiftRight 12) &&& (1 : Word) = (low imm >>> 12) &&& 1 :=
    low_mask_shift imm 12 1 (by decide)
  have b10_5 : low (imm.shiftRight 5) &&& (0x3F : Word) = (low imm >>> 5) &&& 0x3F :=
    low_mask_shift imm 5 6 (by decide)
  have b4_1 : low (imm.shiftRight 1) &&& (0xF : Word) = (low imm >>> 1) &&& 0xF :=
    low_mask_shift imm 1 4 (by decide)
  have b11 : low (imm.shiftRight 11) &&& (1 : Word) = (low imm >>> 11) &&& 1 :=
    low_mask_shift imm 11 1 (by decide)
  rw [bType, found2, found1, b12, b10_5, b4_1, b11, ← low2, ← low1]
  rfl

include knownDest in
theorem jType_encode (imm : Int) (op : Word) :
    jType imm rd op = some (encJ (low imm) (dest.setWidth 32) op) := by
  obtain ⟨index, found, lowDest⟩ := register_reg rd dest knownDest
  have b20 : low (imm.shiftRight 20) &&& (1 : Word) = (low imm >>> 20) &&& 1 :=
    low_mask_shift imm 20 1 (by decide)
  have b10_1 : low (imm.shiftRight 1) &&& (0x3FF : Word) = (low imm >>> 1) &&& 0x3FF :=
    low_mask_shift imm 1 10 (by decide)
  have b11 : low (imm.shiftRight 11) &&& (1 : Word) = (low imm >>> 11) &&& 1 :=
    low_mask_shift imm 11 1 (by decide)
  have b19_12 : low (imm.shiftRight 12) &&& (0xFF : Word) = (low imm >>> 12) &&& 0xFF :=
    low_mask_shift imm 12 8 (by decide)
  rw [jType, found, b20, b10_1, b11, b19_12, ← lowDest]
  rfl

include knownDest in
/-- The upper twenty bits are passed on their own. -/
theorem uType_encode (imm20 : Int) (op : Word) :
    uType imm20 rd op = some (encU (low imm20 <<< 12) (dest.setWidth 32) op) := by
  obtain ⟨index, found, lowDest⟩ := register_reg rd dest knownDest
  have shifted : (low imm20 &&& 0xFFFFF) <<< 12 = (low imm20 <<< 12) &&& 0xFFFFF000 := by
    rw [BitVec.shiftLeft_and_distrib]
    rfl
  rw [uType, found, shifted, ← lowDest]
  rfl

include knownSecond knownSource knownDest in
theorem amoType_encode (f5 : BitVec 5) :
    amoType (f5.setWidth 32) rs2 rs1 rd =
      some (encR ((f5 ++ 0#2).setWidth 32) (second.setWidth 32) (source.setWidth 32) 2
        (dest.setWidth 32) 0x2F) := by
  obtain ⟨index2, found2, low2⟩ := register_reg rs2 second knownSecond
  obtain ⟨index1, found1, low1⟩ := register_reg rs1 source knownSource
  obtain ⟨index, found, lowDest⟩ := register_reg rd dest knownDest
  have upper : (f5.setWidth 32 &&& 0x1F) <<< 27 =
      ((f5 ++ 0#2).setWidth 32 &&& (0x7F : Word)) <<< 25 := by
    revert f5
    decide
  rw [amoType, found2, found1, found, upper, ← low2, ← low1, ← lowDest]
  rfl

end Encoders

/-! ## Decoding -/

/-- A word decodes to these fields of a format. -/
structure DecodesTo (fmt : InstFmt) (fields : Fields) (word : Word) (inst : DecodedInst) :
    Prop where
  decoded : decode word = some inst
  opcode : inst.opcode = opcodeOf (fields.op.setWidth 32)
  raw : inst.raw = fields.encode fmt
  length : inst.len = 4
  present : (fieldsIn inst).present fmt = fields.present fmt
  long : word &&& 3 = 3

/-- A word with a format is no compressed instruction. -/
theorem format_long (word : Word) (fmt : InstFmt) (known : getFmt (opcodeOf word) = some fmt) :
    word &&& 3 = 3 := by
  have bits : ∀ op : BitVec 7, (getFmt (opcodeOf (op.setWidth 32))).isSome = true →
      op.setWidth 2 = 3#2 := by decide
  have narrow : opcodeOf ((word.extractLsb' 0 7).setWidth 32) = opcodeOf word := by
    apply opcodeOf_congr
    rw [← BitVec.setWidth_eq_extractLsb' (by decide), BitFields.narrow_wide _ (by decide)]
  have ones := bits (word.extractLsb' 0 7) (by rw [narrow, known]; rfl)
  have mask : word &&& BitFields.lowOnes 32 2 = (word.setWidth 2).setWidth 32 :=
    BitFields.and_lowOnes word 2
  have same : (word.extractLsb' 0 7).setWidth 2 = word.setWidth 2 := by
    apply BitVec.eq_of_getLsbD_eq
    intro i inside
    have below : i < 7 := by omega
    simp [below]
  change word &&& BitFields.lowOnes 32 2 = 3
  rw [mask, ← same, ones]
  rfl

theorem recovers (fmt : InstFmt) (operands : Operands fmt) : Recovers fmt operands := by
  cases fmt with
  | r => exact recovers_r operands
  | i => exact recovers_i operands
  | s => exact recovers_s operands
  | b => exact recovers_b operands
  | u => exact recovers_u operands
  | j => exact recovers_j operands

/-- The encoding of operands decodes to them. -/
theorem operands_decode (fmt : InstFmt) (operands : Operands fmt) :
    ∃ inst, DecodesTo fmt operands.toFields (operands.encode fmt) inst := by
  obtain ⟨inst, decoded, -, present⟩ := recovers fmt operands
  obtain ⟨raw, length, opcode⟩ := decode_fields _ inst decoded
  have bits : opcodeBits inst.opcode = operands.op := by
    have ops := congrArg Fields.op present
    cases fmt with
    | r => exact ops
    | i => exact ops
    | s => exact ops
    | b => exact ops
    | u => exact ops
    | j => exact ops
  rw [opcode] at bits
  have same := opcodeOf_bits _ _ bits
  have known : getFmt (opcodeOf (operands.encode fmt)) = some fmt := by
    rw [same]
    exact operands.matching
  exact ⟨inst, decoded, opcode.trans same, raw, length, present, format_long _ fmt known⟩

section Effects

variable (host : HostFloat) (emu : Emulator) (word : Word) (inst : DecodedInst)

/-- A load is executed by the fields that its format has. -/
theorem load_executes (fields : Fields) (kind : fields.op = 0x03)
    (decodes : DecodesTo .i fields word inst) :
    execute host emu inst = execute host emu (machineInst .i fields) := by
  obtain ⟨-, opcode, raw, length, present, -⟩ := decodes
  cases inst
  cases fields
  cases kind
  simp only [fieldsIn, Fields.present, Fields.mk.injEq] at present opcode raw length
  obtain ⟨-, -, rfl, rfl, rfl, -, rfl⟩ := present
  subst opcode raw length
  rfl

theorem store_executes (fields : Fields) (kind : fields.op = 0x23)
    (decodes : DecodesTo .s fields word inst) :
    execute host emu inst = execute host emu (machineInst .s fields) := by
  obtain ⟨-, opcode, raw, length, present, -⟩ := decodes
  cases inst
  cases fields
  cases kind
  simp only [fieldsIn, Fields.present, Fields.mk.injEq] at present opcode raw length
  obtain ⟨-, rfl, rfl, rfl, -, -, rfl⟩ := present
  subst opcode raw length
  rfl

theorem system_executes (fields : Fields) (kind : fields.op = 0x73)
    (decodes : DecodesTo .i fields word inst) :
    execute host emu inst = execute host emu (machineInst .i fields) := by
  obtain ⟨-, opcode, raw, length, present, -⟩ := decodes
  cases inst
  cases fields
  cases kind
  simp only [fieldsIn, Fields.present, Fields.mk.injEq] at present opcode raw length
  obtain ⟨-, -, rfl, rfl, rfl, -, rfl⟩ := present
  subst opcode raw length
  rfl

theorem amo_executes (fields : Fields) (kind : fields.op = 0x2F)
    (decodes : DecodesTo .r fields word inst) :
    execute host emu inst = execute host emu (machineInst .r fields) := by
  obtain ⟨-, opcode, raw, length, present, -⟩ := decodes
  cases inst
  cases fields
  cases kind
  simp only [fieldsIn, Fields.present, Fields.mk.injEq] at present opcode raw length
  obtain ⟨rfl, rfl, rfl, rfl, rfl, -, rfl⟩ := present
  subst opcode raw length
  rfl

/-- The other instructions compute a value or choose the next pc. -/
theorem alu_executes (f7 : BitVec 7) (f3 : BitVec 3) (rd rs1 rs2 : Reg)
    (decodes : DecodesTo .r
      { f7 := f7, rs2 := rs2, rs1 := rs1, f3 := f3, rd := rd, op := 0x33, imm := 0 } word inst) :
    execute host emu inst =
      (.retired .quiet,
        written emu rd (aluResult { inst with funct7 := f7, funct3 := f3 } (emu.rf.regs rs1)
          (emu.rf.regs rs2)) (emu.rf.pc + 4)) := by
  obtain ⟨-, opcode, raw, length, present, -⟩ := decodes
  cases inst
  simp only [fieldsIn, Fields.present, Fields.mk.injEq] at present opcode raw length
  obtain ⟨rfl, rfl, rfl, rfl, rfl, -, -⟩ := present
  subst opcode raw length
  exact execute_written host emu _ _ _ rfl

theorem addi_executes (rd rs1 : Reg) (imm : Word)
    (decodes : DecodesTo .i
      { f7 := 0, rs2 := 0, rs1 := rs1, f3 := 0, rd := rd, op := 0x13, imm := imm } word inst) :
    execute host emu inst =
      (.retired .quiet, written emu rd (emu.rf.regs rs1 + imm) (emu.rf.pc + 4)) := by
  obtain ⟨-, opcode, raw, length, present, -⟩ := decodes
  cases inst
  simp only [fieldsIn, Fields.present, Fields.mk.injEq] at present opcode raw length
  obtain ⟨-, -, rfl, rfl, rfl, -, rfl⟩ := present
  subst opcode raw length
  exact execute_written host emu _ _ _ rfl

theorem lui_executes (rd : Reg) (imm : Word)
    (decodes : DecodesTo .u
      { f7 := 0, rs2 := 0, rs1 := 0, f3 := 0, rd := rd, op := 0x37, imm := imm } word inst) :
    execute host emu inst = (.retired .quiet, written emu rd imm (emu.rf.pc + 4)) := by
  obtain ⟨-, opcode, raw, length, present, -⟩ := decodes
  cases inst
  simp only [fieldsIn, Fields.present, Fields.mk.injEq] at present opcode raw length
  obtain ⟨-, -, -, -, rfl, -, rfl⟩ := present
  subst opcode raw length
  exact execute_written host emu _ _ _ rfl

theorem jal_executes (rd : Reg) (imm : Word)
    (decodes : DecodesTo .j
      { f7 := 0, rs2 := 0, rs1 := 0, f3 := 0, rd := rd, op := 0x6F, imm := imm } word inst) :
    execute host emu inst =
      (.retired .quiet, written emu rd (emu.rf.pc + 4) (emu.rf.pc + imm)) := by
  obtain ⟨-, opcode, raw, length, present, -⟩ := decodes
  cases inst
  simp only [fieldsIn, Fields.present, Fields.mk.injEq] at present opcode raw length
  obtain ⟨-, -, -, -, rfl, -, rfl⟩ := present
  subst opcode raw length
  exact execute_written host emu _ _ _ rfl

theorem branch_executes (funct3 : BitVec 3) (comparison : Comparison) (rs1 rs2 : Reg) (imm : Word)
    (selected : comparisonOf funct3 = some comparison)
    (decodes : DecodesTo .b
      { f7 := 0, rs2 := rs2, rs1 := rs1, f3 := funct3, rd := 0, op := 0x63, imm := imm }
      word inst) :
    execute host emu inst =
      (.retired .quiet,
        { emu with
          rf :=
            { emu.rf with
              pc :=
                if comparison.holds (emu.rf.regs rs1) (emu.rf.regs rs2) then emu.rf.pc + imm
                else emu.rf.pc + 4 } }) := by
  have holds := branch_holds funct3 comparison (emu.rf.regs rs1) (emu.rf.regs rs2) selected
  obtain ⟨-, opcode, raw, length, present, -⟩ := decodes
  cases inst
  simp only [fieldsIn, Fields.present, Fields.mk.injEq] at present opcode raw length
  obtain ⟨-, rfl, rfl, rfl, -, -, rfl⟩ := present
  subst opcode raw length
  have kind : opcodeOf (BitVec.setWidth 32 (0x63 : BitVec 7)) = .branch := by decide
  simp only [execute, execSwitch, kind, execBranch, regRead, holds]
  rfl

end Effects

/-! ## Instructions -/

/-- The words do at a place what the instruction says. A constant is a part of it from the
    first word and the rest from the second. -/
inductive Encodes (place : Nat) : Instr → List Word → Prop where
  | one (instr : Instr) (word : Word) (single : instr.steps = 1) (long : word &&& 3 = 3)
      (runs : ∀ host emu, emu.rf.pc = BitVec.ofNat 32 place →
        runWord host emu word = instr.perform host emu) :
      Encodes place instr [word]
  | two (rd : Reg) (value upper lower part : Word) (longUpper : upper &&& 3 = 3)
      (longLower : lower &&& 3 = 3)
      (first : ∀ host emu, runWord host emu upper =
        (.retired .quiet, written emu rd part (emu.rf.pc + 4)))
      (second : ∀ host emu, runWord host emu lower =
        (.retired .quiet, written emu rd (emu.rf.regs rd + (value - part)) (emu.rf.pc + 4))) :
      Encodes place (.constant rd value) [upper, lower]

/-- A word is what its decoded instruction does. -/
theorem runWord_decoded (host : HostFloat) (emu : Emulator) (fmt : InstFmt) (fields : Fields)
    (word : Word) (inst : DecodedInst) (decodes : DecodesTo fmt fields word inst) :
    runWord host emu word = execute host emu inst := by
  rw [runWord, decodes.decoded]

section Forms

variable (place : Nat)

/-- The instructions of format I encode with their immediate. -/
theorem withImm_decodes (imm rs1 rd : Arg) (f3 : BitVec 3) (op : BitVec 7) (source dest : Reg)
    (value : Word) (knownSource : register rs1 = some source) (knownDest : register rd = some dest)
    (knownImm : immediate imm = some value)
    (matching : getFmt (opcodeOf (op.setWidth 32)) = some .i) :
    ∃ word inst, withImm imm rs1 (f3.setWidth 32) rd (op.setWidth 32) = some [word] ∧
      DecodesTo .i
        { f7 := 0, rs2 := 0, rs1 := source, f3 := f3, rd := dest, op := op, imm := value }
        word inst := by
  obtain ⟨integer, found, rfl, range⟩ := immediate_range imm value knownImm
  obtain ⟨inst, decodes⟩ := operands_decode .i
    { f7 := 0, rs2 := 0, rs1 := source, f3 := f3, rd := dest, op := op, imm := low integer
      matching := matching, inRange := range }
  refine ⟨_, inst, ?_, decodes⟩
  rw [withImm, found, Option.bind_eq_bind, Option.bind_some,
    iType_encode rs1 rd source dest knownSource knownDest]
  rfl

theorem added_encodes (rd rs1 imm : Arg) (instr : Instr) (means : added rd rs1 imm = some instr) :
    ∃ words, withImm imm rs1 0 rd 0x13 = some words ∧ Encodes place instr words := by
  simp only [added, Option.bind_eq_bind, Option.bind_eq_some_iff, Option.pure_def,
    Option.some.injEq] at means
  obtain ⟨dest, knownDest, source, knownSource, value, knownImm, rfl⟩ := means
  obtain ⟨word, inst, encoded, decodes⟩ := withImm_decodes imm rs1 rd 0 0x13 source dest value
    knownSource knownDest knownImm rfl
  refine ⟨[word], encoded, .one _ word rfl decodes.long ?_⟩
  intro host emu _
  rw [runWord_decoded host emu _ _ word inst decodes,
    addi_executes host emu word inst _ _ _ decodes]
  rfl

theorem loaded_encodes (rd rs1 imm : Arg) (instr : Instr)
    (means : loaded rd rs1 imm = some instr) :
    ∃ words, withImm imm rs1 2 rd 0x03 = some words ∧ Encodes place instr words := by
  simp only [loaded, Option.bind_eq_bind, Option.bind_eq_some_iff, Option.pure_def,
    Option.some.injEq] at means
  obtain ⟨dest, knownDest, source, knownSource, value, knownImm, rfl⟩ := means
  obtain ⟨word, inst, encoded, decodes⟩ := withImm_decodes imm rs1 rd 2 0x03 source dest value
    knownSource knownDest knownImm rfl
  refine ⟨[word], encoded, .one _ word rfl decodes.long ?_⟩
  intro host emu _
  rw [runWord_decoded host emu _ _ word inst decodes,
    load_executes host emu word inst _ rfl decodes]
  rfl

theorem accessed_encodes (f3 : BitVec 3) (rd csr rs1 : Arg) (instr : Instr)
    (means : accessed f3 rd csr rs1 = some instr) :
    ∃ words, withImm csr rs1 (f3.setWidth 32) rd 0x73 = some words ∧
      Encodes place instr words := by
  simp only [accessed, Option.bind_eq_bind, Option.bind_eq_some_iff, Option.pure_def,
    Option.some.injEq] at means
  obtain ⟨dest, knownDest, value, knownImm, source, knownSource, rfl⟩ := means
  obtain ⟨word, inst, encoded, decodes⟩ := withImm_decodes csr rs1 rd f3 0x73 source dest value
    knownSource knownDest knownImm rfl
  refine ⟨[word], encoded, .one _ word rfl decodes.long ?_⟩
  intro host emu _
  rw [runWord_decoded host emu _ _ word inst decodes,
    system_executes host emu word inst _ rfl decodes]
  rfl

theorem stored_encodes (width : Width) (rs2 rs1 imm : Arg) (instr : Instr)
    (means : stored width rs2 rs1 imm = some instr) :
    ∃ words, storing imm rs2 rs1 (width.funct3.setWidth 32) = some words ∧
      Encodes place instr words := by
  simp only [stored, Option.bind_eq_bind, Option.bind_eq_some_iff, Option.pure_def,
    Option.some.injEq] at means
  obtain ⟨second, knownSecond, source, knownSource, value, knownImm, rfl⟩ := means
  obtain ⟨integer, found, rfl, range⟩ := immediate_range imm value knownImm
  obtain ⟨inst, decodes⟩ := operands_decode .s
    { storeFields width second source (low integer) with matching := rfl, inRange := range }
  refine ⟨[_], ?_, .one _ _ rfl decodes.long ?_⟩
  · rw [storing, found, Option.bind_eq_bind, Option.bind_some,
      sType_encode rs2 rs1 second source knownSecond knownSource]
    rfl
  · intro host emu _
    rw [runWord_decoded host emu _ _ _ inst decodes,
      store_executes host emu _ inst _ rfl decodes]
    rfl

/-- A branch goes to its label: the distance that is encoded is from the branch itself. -/
theorem branched_encodes (comparison : Comparison) (f3 : BitVec 3) (labels : Labels)
    (rs1 rs2 label : Arg) (instr : Instr) (selected : comparisonOf f3 = some comparison)
    (means : branched labels place comparison rs1 rs2 label = some instr) :
    ∃ words, branching labels place label rs2 rs1 (f3.setWidth 32) = some words ∧
      Encodes place instr words := by
  simp only [branched, Option.bind_eq_bind, Option.bind_eq_some_iff, Option.pure_def,
    Option.some.injEq] at means
  obtain ⟨source, knownSource, second, knownSecond, goal, knownGoal, rfl⟩ := means
  obtain ⟨absolute, found, rfl, distance, above, below, even⟩ :=
    destination_range labels place 4096 label goal (by decide) knownGoal
  obtain ⟨inst, decodes⟩ := operands_decode .b
    { f7 := 0, rs2 := second, rs1 := source, f3 := f3, rd := 0, op := 0x63
      imm := low (absolute - place), matching := rfl, inRange := ⟨above, by omega, even⟩ }
  refine ⟨[_], ?_, .one _ _ rfl decodes.long ?_⟩
  · rw [branching, found, Option.bind_eq_bind, Option.bind_some]
    dsimp only
    rw [bType_encode rs2 rs1 second source knownSecond knownSource]
    rfl
  · intro host emu here
    have lands : emu.rf.pc + low (absolute - place) = low absolute := by
      rw [here, distance, BitVec.add_comm, BitVec.sub_add_cancel]
    rw [runWord_decoded host emu _ _ _ inst decodes,
      branch_executes host emu _ inst f3 comparison _ _ _ selected decodes, lands]
    rfl

theorem jumped_encodes (labels : Labels) (rd label : Arg) (instr : Instr)
    (means : jumped labels place rd label = some instr) :
    ∃ words, jumping labels place label rd = some words ∧ Encodes place instr words := by
  simp only [jumped, Option.bind_eq_bind, Option.bind_eq_some_iff, Option.pure_def,
    Option.some.injEq] at means
  obtain ⟨dest, knownDest, goal, knownGoal, rfl⟩ := means
  obtain ⟨absolute, found, rfl, distance, above, below, even⟩ :=
    destination_range labels place (2 ^ 20) label goal (by decide) knownGoal
  obtain ⟨inst, decodes⟩ := operands_decode .j
    { f7 := 0, rs2 := 0, rs1 := 0, f3 := 0, rd := dest, op := 0x6F
      imm := low (absolute - place), matching := rfl, inRange := ⟨above, by omega, even⟩ }
  refine ⟨[_], ?_, .one _ _ rfl decodes.long ?_⟩
  · rw [jumping, found, Option.bind_eq_bind, Option.bind_some]
    dsimp only
    rw [jType_encode rd dest knownDest]
    rfl
  · intro host emu here
    have lands : emu.rf.pc + low (absolute - place) = low absolute := by
      rw [here, distance, BitVec.add_comm, BitVec.sub_add_cancel]
    rw [runWord_decoded host emu _ _ _ inst decodes,
      jal_executes host emu _ inst dest _ decodes, lands]
    rfl

/-- The register-register instructions encode with the fields that select them. -/
theorem computing_decodes (f7 : BitVec 7) (f3 : BitVec 3) (rd rs1 rs2 : Arg)
    (dest source second : Reg) (knownDest : register rd = some dest)
    (knownSource : register rs1 = some source) (knownSecond : register rs2 = some second) :
    ∃ word inst, computing (f7.setWidth 32) rs2 rs1 (f3.setWidth 32) rd = some [word] ∧
      DecodesTo .r
        { f7 := f7, rs2 := second, rs1 := source, f3 := f3, rd := dest, op := 0x33, imm := 0 }
        word inst := by
  obtain ⟨inst, decodes⟩ := operands_decode .r
    { f7 := f7, rs2 := second, rs1 := source, f3 := f3, rd := dest, op := 0x33, imm := 0
      matching := rfl, inRange := rfl }
  have encoded := rType_encode rs2 rs1 rd second source dest knownSecond knownSource knownDest
    f7 f3 0x33
  refine ⟨_, inst, ?_, decodes⟩
  rw [computing, show (0x33 : Word) = BitVec.setWidth 32 (0x33 : BitVec 7) by rfl, encoded]
  rfl

theorem computed_encodes (operation : Operation) (f7 : BitVec 7) (f3 : BitVec 3)
    (rd rs1 rs2 : Arg) (instr : Instr) (selected : operationOf f7 f3 = some operation)
    (means : computed operation rd rs1 rs2 = some instr) :
    ∃ words, computing (f7.setWidth 32) rs2 rs1 (f3.setWidth 32) rd = some words ∧
      Encodes place instr words := by
  simp only [computed, Option.bind_eq_bind, Option.bind_eq_some_iff, Option.pure_def,
    Option.some.injEq] at means
  obtain ⟨dest, knownDest, source, knownSource, second, knownSecond, rfl⟩ := means
  obtain ⟨word, inst, encoded, decodes⟩ := computing_decodes f7 f3 rd rs1 rs2 dest source second
    knownDest knownSource knownSecond
  refine ⟨[word], encoded, .one _ word rfl decodes.long ?_⟩
  intro host emu _
  rw [runWord_decoded host emu _ _ word inst decodes,
    alu_executes host emu word inst f7 f3 _ _ _ decodes,
    alu_value _ operation _ _ selected]
  rfl

theorem multiplied_encodes (f3 : BitVec 3) (rd rs1 rs2 : Arg) (instr : Instr)
    (means : multiplied f3 rd rs1 rs2 = some instr) :
    ∃ words, computing 0x01 rs2 rs1 (f3.setWidth 32) rd = some words ∧
      Encodes place instr words := by
  simp only [multiplied, Option.bind_eq_bind, Option.bind_eq_some_iff, Option.pure_def,
    Option.some.injEq] at means
  obtain ⟨dest, knownDest, source, knownSource, second, knownSecond, rfl⟩ := means
  obtain ⟨word, inst, encoded, decodes⟩ := computing_decodes 0x01 f3 rd rs1 rs2 dest source second
    knownDest knownSource knownSecond
  refine ⟨[word], encoded, .one _ word rfl decodes.long ?_⟩
  intro host emu _
  rw [runWord_decoded host emu _ _ word inst decodes,
    alu_executes host emu word inst 0x01 f3 _ _ _ decodes]
  rfl

theorem modified_encodes (f5 : BitVec 5) (rd rs2 rs1 : Arg) (instr : Instr)
    (means : modified f5 rd rs2 rs1 = some instr) :
    ∃ words, atomic (f5.setWidth 32) rs2 rs1 rd = some words ∧
      Encodes place instr words := by
  simp only [modified, Option.bind_eq_bind, Option.bind_eq_some_iff, Option.pure_def,
    Option.some.injEq] at means
  obtain ⟨dest, knownDest, second, knownSecond, source, knownSource, rfl⟩ := means
  obtain ⟨inst, decodes⟩ := operands_decode .r
    { atomicFields f5 dest second source with matching := rfl, inRange := rfl }
  refine ⟨[_], ?_, .one _ _ rfl decodes.long ?_⟩
  · rw [atomic, amoType_encode rs2 rs1 rd second source dest knownSecond knownSource knownDest]
    rfl
  · intro host emu _
    rw [runWord_decoded host emu _ _ _ inst decodes, amo_executes host emu _ inst _ rfl decodes]
    rfl

/-- The words that name themselves. -/
theorem word_encodes (raw : Word) (long : raw &&& 3 = 3) : Encodes place (.word raw) [raw] :=
  .one _ raw rfl long fun _ _ _ => rfl

theorem named_encodes (raw : Word) (instr : Instr) (long : raw &&& 3 = 3)
    (means : some (.word raw) = some instr) :
    ∃ words, some [raw] = some words ∧ Encodes place instr words := by
  cases means
  exact ⟨[raw], rfl, word_encodes place raw long⟩

/-- The low word of a constant is that of its low 32 bits. -/
theorem low_word (integer : Int) : low (integer % 0x100000000) = low integer := by
  apply BitVec.eq_of_toNat_eq
  rw [low, low, BitVec.toNat_ofInt, BitVec.toNat_ofInt]
  congr 1
  exact Int.emod_emod_of_dvd integer (dvd_refl _)

theorem low_upper (hi : Int) : low hi <<< 12 = low (hi * 0x1000) := by
  rw [low, low, BitVec.ofInt_mul, BitVec.shiftLeft_eq_mul_twoPow]
  rfl

theorem low_sub (left right : Int) : low (left - right) = low left - low right := by
  rw [low, low, low, Int.sub_eq_add_neg, BitVec.ofInt_add, BitVec.ofInt_neg,
    BitVec.sub_eq_add_neg]

/-- The two words of a constant: the lower one is a signed number, so the upper one is
    rounded to the nearest. -/
theorem constant_encodes (labels : Labels) (rd val : Arg) (instr : Instr)
    (means : constant labels rd val = some instr) :
    ∃ words, li32 labels rd val = some words ∧ Encodes place instr words := by
  simp only [constant, Option.bind_eq_bind, Option.bind_eq_some_iff, Option.pure_def,
    Option.some.injEq] at means
  obtain ⟨dest, knownDest, integer, knownValue, rfl⟩ := means
  obtain ⟨hi, upperIs⟩ : ∃ hi, hi = (integer % 0x100000000 + 0x800).shiftRight 12 := ⟨_, rfl⟩
  obtain ⟨lo, lowerIs⟩ : ∃ lo, lo = integer % 0x100000000 - hi * 0x1000 := ⟨_, rfl⟩
  have quotient : hi = (integer % 0x100000000 + 0x800) / 0x1000 := by
    rw [upperIs]
    exact Int.shiftRight_eq_div_pow _ 12
  have range : -2048 ≤ lo ∧ lo ≤ 2047 := by omega
  have signed : (low lo).toInt = lo := BitVec.toInt_ofInt_eq_self (by decide)
    (by change -2 ^ 31 ≤ lo; omega) (by change lo < 2 ^ 31; omega)
  have rest : low integer - low hi <<< 12 = low lo := by
    rw [lowerIs, low_sub, low_word, low_upper]
  have multiple : (low hi <<< 12).toNat % 4096 = 0 := by
    rw [BitVec.toNat_shiftLeft, Nat.shiftLeft_eq]
    omega
  obtain ⟨upper, decodesUpper⟩ := operands_decode .u
    { f7 := 0, rs2 := 0, rs1 := 0, f3 := 0, rd := dest, op := 0x37, imm := low hi <<< 12
      matching := rfl, inRange := multiple }
  obtain ⟨lower, decodesLower⟩ := operands_decode .i
    { f7 := 0, rs2 := 0, rs1 := dest, f3 := 0, rd := dest, op := 0x13, imm := low lo
      matching := rfl, inRange := by rw [InRange, signed]; exact range }
  refine ⟨[_, _], ?_,
    .two dest _ _ _ (low hi <<< 12) decodesUpper.long decodesLower.long ?_ ?_⟩
  · rw [li32, knownValue, Option.bind_eq_bind, Option.bind_some]
    dsimp only
    rw [← upperIs, ← lowerIs, uType_encode rd dest knownDest,
      iType_encode rd rd dest dest knownDest knownDest]
    rfl
  · intro host emu
    rw [runWord_decoded host emu _ _ _ upper decodesUpper,
      lui_executes host emu _ upper dest _ decodesUpper]
  · intro host emu
    rw [runWord_decoded host emu _ _ _ lower decodesLower,
      addi_executes host emu _ lower dest dest _ decodesLower, rest]

end Forms

/-- What has a meaning is encoded, in words that do what it says. -/
theorem meaning_encodes (labels : Labels) (place : Nat) (mn : Mnemonic) (args : List Arg)
    (instr : Instr) (means : meaning labels place mn args = some instr) :
    ∃ words, encode labels place mn args = some words ∧ Encodes place instr words := by
  unfold meaning at means
  split at means
  case h_1 rd val => exact constant_encodes place labels rd val instr means
  case h_2 rd rs => exact added_encodes place rd rs (.int 0) instr means
  case h_3 rd rs imm => exact added_encodes place rd rs imm instr means
  case h_4 rd imm => exact added_encodes place rd (.int 0) imm instr means
  case h_5 rd rs1 rs2 => exact computed_encodes place .add 0x00 0 rd rs1 rs2 instr rfl means
  case h_6 rd rs1 rs2 => exact computed_encodes place .sub 0x20 0 rd rs1 rs2 instr rfl means
  case h_7 rd rs1 rs2 => exact multiplied_encodes place 0 rd rs1 rs2 instr means
  case h_8 rd rs1 rs2 => exact multiplied_encodes place 5 rd rs1 rs2 instr means
  case h_9 rd rs1 rs2 => exact multiplied_encodes place 7 rd rs1 rs2 instr means
  case h_10 rs2 rs1 imm => exact stored_encodes place .byte rs2 rs1 imm instr means
  case h_11 rs2 rs1 imm => exact stored_encodes place .word rs2 rs1 imm instr means
  case h_12 rd rs1 imm => exact loaded_encodes place rd rs1 imm instr means
  case h_13 rs1 rs2 label => exact branched_encodes place .ne 1 labels rs1 rs2 label instr rfl means
  case h_14 rs1 rs2 label => exact branched_encodes place .eq 0 labels rs1 rs2 label instr rfl means
  case h_15 rs1 rs2 label => exact branched_encodes place .lt 4 labels rs1 rs2 label instr rfl means
  case h_16 rs1 label =>
    exact branched_encodes place .ne 1 labels rs1 (.int 0) label instr rfl means
  case h_17 rd label => exact jumped_encodes place labels rd label instr means
  case h_18 label => exact jumped_encodes place labels (.int 0) label instr means
  case h_19 rd csr rs1 => exact accessed_encodes place 1 rd csr rs1 instr means
  case h_20 rd csr rs1 => exact accessed_encodes place 2 rd csr rs1 instr means
  case h_21 rd csr rs1 => exact accessed_encodes place 3 rd csr rs1 instr means
  case h_22 rd csr uimm => exact accessed_encodes place 5 rd csr uimm instr means
  case h_23 rd csr uimm => exact accessed_encodes place 6 rd csr uimm instr means
  case h_24 rd csr uimm => exact accessed_encodes place 7 rd csr uimm instr means
  case h_25 csr rs1 => exact accessed_encodes place 1 (.int 0) csr rs1 instr means
  case h_26 rd csr => exact accessed_encodes place 2 rd csr (.int 0) instr means
  case h_27 csr rs1 => exact accessed_encodes place 2 (.int 0) csr rs1 instr means
  case h_28 csr uimm => exact accessed_encodes place 7 (.int 0) csr uimm instr means
  case h_29 rd rs1 => exact modified_encodes place 0x02 rd (.int 0) rs1 instr means
  case h_30 rd rs2 rs1 => exact modified_encodes place 0x03 rd rs2 rs1 instr means
  case h_31 rd rs2 rs1 => exact modified_encodes place 0x00 rd rs2 rs1 instr means
  case h_32 rd rs2 rs1 => exact modified_encodes place 0x01 rd rs2 rs1 instr means
  case h_33 rd rs2 rs1 => exact modified_encodes place 0x04 rd rs2 rs1 instr means
  case h_34 rd rs2 rs1 => exact modified_encodes place 0x08 rd rs2 rs1 instr means
  case h_35 rd rs2 rs1 => exact modified_encodes place 0x0C rd rs2 rs1 instr means
  case h_36 rd rs2 rs1 => exact modified_encodes place 0x10 rd rs2 rs1 instr means
  case h_37 rd rs2 rs1 => exact modified_encodes place 0x14 rd rs2 rs1 instr means
  case h_38 rd rs2 rs1 => exact modified_encodes place 0x18 rd rs2 rs1 instr means
  case h_39 rd rs2 rs1 => exact modified_encodes place 0x1C rd rs2 rs1 instr means
  case h_40 => exact named_encodes place rawMret instr rfl means
  case h_41 => exact named_encodes place rawSret instr rfl means
  case h_42 => exact named_encodes place rawEbreak instr rfl means
  case h_43 => exact named_encodes place rawEcall instr rfl means
  case h_44 raw =>
    rw [Option.bind_eq_bind, Option.bind_eq_some_iff] at means
    obtain ⟨integer, found, chosen⟩ := means
    split at chosen
    · rename_i long
      cases chosen
      refine ⟨[low integer], ?_, word_encodes place _ long⟩
      rw [encode, one, found]
      rfl
    · cases chosen
  case h_45 => cases means

end RvEmu.AssembledCode
