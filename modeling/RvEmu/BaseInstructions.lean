import RvEmu.Foundation.BitFields
import RvEmu.InstructionSet
import RvEmu.HalfwordFetch

/-!
# The emulator computes the base instructions

The decoder takes a word apart with shifts and masks, and `execute` computes on
the parts with the operators of C. Both agree with the description of the base
instructions: each immediate is the scattered bits in order, each operation the
value on integers, and nothing but the destination and the pc changes. A step
adds the cycle, the tick of the timer, and the accessed bits of the entries that
its own fetch visits.
-/

namespace RvEmu.BaseInstructions

open LittleEndian WordMarks PageWalk PageTables ExecOutcome StepAnatomy InstructionSet

/-! ## Immediates -/

/-- The mask of sign extension. -/
theorem low_mask (n : Nat) (small : n < 31) :
    (1#32 <<< (n + 1)) - 1 = BitFields.lowOnes 32 (n + 1) := by
  have bound : 2 ^ (n + 1) < 2 ^ 32 := Nat.pow_lt_pow_right (by decide) (by omega)
  have positive : 0 < 2 ^ (n + 1) := Nat.two_pow_pos (n + 1)
  have shifted : (1#32 <<< (n + 1)).toNat = 2 ^ (n + 1) := by
    rw [BitVec.toNat_shiftLeft, Nat.shiftLeft_eq]
    change 1 * 2 ^ (n + 1) % 2 ^ 32 = _
    rw [Nat.one_mul, Nat.mod_eq_of_lt bound]
  apply BitVec.eq_of_toNat_eq
  rw [BitVec.toNat_sub, shifted, BitVec.toNat_ofNat,
    Nat.mod_eq_of_lt (by omega : 2 ^ (n + 1) - 1 < 2 ^ 32)]
  change (2 ^ 32 - 1 + 2 ^ (n + 1)) % 2 ^ 32 = _
  omega

/-- `sext` from the top bit of a field is sign extension of the field. -/
theorem sext_field (n : Nat) (small : n < 31) (field : BitVec (n + 1)) :
    sext (field.setWidth 32) n = field.signExtend 32 := by
  have sign : (field.setWidth 32 >>> n) &&& 1 = 0 ↔ field.msb = false := by
    have tested := BitMasks.and_bit (field.setWidth 32 >>> n) 0 (by decide)
    have top : (field.setWidth 32 >>> n).getLsbD 0 = field.msb := by
      rw [BitVec.getLsbD_ushiftRight, BitVec.getLsbD_setWidth, BitVec.msb_eq_getLsbD_last,
        decide_eq_true (by omega : n + 0 < 32)]
      rfl
    rw [top] at tested
    exact tested
  simp only [sext, low_mask n small]
  apply BitVec.eq_of_getLsbD_eq
  intro i inside
  rw [BitVec.getLsbD_signExtend, decide_eq_true inside, Bool.true_and]
  by_cases positive : (field.setWidth 32 >>> n) &&& 1 = 0
  · rw [if_neg (not_not.mpr positive), BitVec.getLsbD_and, BitFields.getLsbD_lowOnes _ _ inside,
      BitVec.getLsbD_setWidth, decide_eq_true inside, sign.mp positive]
    by_cases below : i < n + 1
    · rw [if_pos below, decide_eq_true below, Bool.true_and, Bool.and_true]
    · rw [if_neg below, decide_eq_false below, Bool.and_false]
  · have negative : field.msb = true := by
      rw [sign, Bool.not_eq_false] at positive
      exact positive
    rw [if_pos positive, BitVec.getLsbD_or, BitVec.getLsbD_not, BitVec.getLsbD_setWidth,
      BitFields.getLsbD_lowOnes _ _ inside, decide_eq_true inside, negative]
    by_cases below : i < n + 1
    · rw [if_pos below, decide_eq_true below, Bool.true_and, Bool.true_and, Bool.not_true,
        Bool.or_false]
    · rw [if_neg below, decide_eq_false below, Bool.true_and, Bool.true_and, Bool.not_false,
        Bool.or_true]

theorem immI_field (word : Word) : immI word = immediateI word := by
  have slice : (word >>> 20) &&& 0xFFF = (word.extractLsb' 20 12).setWidth 32 :=
    BitFields.slice_mask word 20 12
  rw [immI, slice, sext_field 11 (by decide)]
  rfl

theorem immS_field (word : Word) : immS word = immediateS word := by
  have low : (word >>> 7) &&& 0x1F = (word.extractLsb' 7 5).setWidth 32 :=
    BitFields.slice_mask word 7 5
  have high : (word >>> 25) &&& 0x7F = (word.extractLsb' 25 7).setWidth 32 :=
    BitFields.slice_mask word 25 7
  simp only [immS, low, high]
  rw [← BitVec.setWidth_append_eq_shiftLeft_setWidth_or, sext_field 11 (by decide)]
  rfl

theorem immB_field (word : Word) : immB word = immediateB word := by
  have b11 : (word >>> 7) &&& 0x01 = (word.extractLsb' 7 1).setWidth 32 :=
    BitFields.slice_mask word 7 1
  have b4_1 : (word >>> 8) &&& 0x0F = (word.extractLsb' 8 4).setWidth 32 :=
    BitFields.slice_mask word 8 4
  have b10_5 : (word >>> 25) &&& 0x3F = (word.extractLsb' 25 6).setWidth 32 :=
    BitFields.slice_mask word 25 6
  have b12 : (word >>> 31) &&& 0x01 = (word.extractLsb' 31 1).setWidth 32 :=
    BitFields.slice_mask word 31 1
  have joined : ((word.extractLsb' 31 1).setWidth 32 <<< 12) |||
      ((word.extractLsb' 7 1).setWidth 32 <<< 11) |||
      ((word.extractLsb' 25 6).setWidth 32 <<< 5) ||| ((word.extractLsb' 8 4).setWidth 32 <<< 1) =
      (word.extractLsb' 31 1 ++ word.extractLsb' 7 1 ++ word.extractLsb' 25 6 ++
        word.extractLsb' 8 4 ++ 0#1).setWidth 32 := by
    simp only [BitVec.setWidth_append_eq_shiftLeft_setWidth_or, BitVec.shiftLeft_or_distrib,
      ← BitVec.shiftLeft_add, BitVec.setWidth_zero, BitVec.or_zero]
  simp only [immB, b11, b4_1, b10_5, b12]
  rw [joined, sext_field 12 (by decide)]
  rfl

theorem immU_field (word : Word) : immU word = immediateU word := by
  apply BitVec.eq_of_getLsbD_eq
  intro i inside
  have mask : (0xFFFFF000 : Word) = ~~~BitFields.lowOnes 32 12 := by decide
  rw [immU, immediateU, mask, BitVec.getLsbD_and, BitVec.getLsbD_not,
    BitFields.getLsbD_lowOnes _ _ inside, BitVec.getLsbD_append, decide_eq_true inside]
  by_cases low : i < 12
  · simp [low]
  · simp [low, show 12 + (i - 12) = i by omega, show i - 12 < 20 by omega]

theorem immJ_field (word : Word) : immJ word = immediateJ word := by
  have b19_12 : (word >>> 12) &&& 0xFF = (word.extractLsb' 12 8).setWidth 32 :=
    BitFields.slice_mask word 12 8
  have b11 : (word >>> 20) &&& 0x01 = (word.extractLsb' 20 1).setWidth 32 :=
    BitFields.slice_mask word 20 1
  have b10_1 : (word >>> 21) &&& 0x3FF = (word.extractLsb' 21 10).setWidth 32 :=
    BitFields.slice_mask word 21 10
  have b20 : (word >>> 31) &&& 0x01 = (word.extractLsb' 31 1).setWidth 32 :=
    BitFields.slice_mask word 31 1
  have joined : ((word.extractLsb' 31 1).setWidth 32 <<< 20) |||
      ((word.extractLsb' 12 8).setWidth 32 <<< 12) |||
      ((word.extractLsb' 20 1).setWidth 32 <<< 11) ||| ((word.extractLsb' 21 10).setWidth 32 <<< 1) =
      (word.extractLsb' 31 1 ++ word.extractLsb' 12 8 ++ word.extractLsb' 20 1 ++
        word.extractLsb' 21 10 ++ 0#1).setWidth 32 := by
    simp only [BitVec.setWidth_append_eq_shiftLeft_setWidth_or, BitVec.shiftLeft_or_distrib,
      ← BitVec.shiftLeft_add, BitVec.setWidth_zero, BitVec.or_zero]
  simp only [immJ, b19_12, b11, b10_1, b20]
  rw [joined, sext_field 20 (by decide)]
  rfl

/-! ## Values -/

/-- Shifts use the low five bits of the second operand. -/
theorem amount_low (b : Word) : (b &&& 0x1F).toNat = b.toNat % 32 :=
  BitMasks.and_low b 5 (by decide)

theorem sll_value (a b : Word) : a <<< (b &&& 0x1F) = Operation.value .sll a b := by
  apply BitVec.eq_of_toNat_eq
  rw [BitVec.shiftLeft_eq', amount_low, BitVec.toNat_shiftLeft, Nat.shiftLeft_eq, Operation.value,
    BitVec.toNat_ofNat]

theorem srl_value (a b : Word) : a >>> (b &&& 0x1F) = Operation.value .srl a b := by
  have bound : a.toNat / 2 ^ (b.toNat % 32) < 2 ^ 32 :=
    Nat.lt_of_le_of_lt (Nat.div_le_self _ _) a.isLt
  apply BitVec.eq_of_toNat_eq
  rw [BitVec.ushiftRight_eq', amount_low, BitVec.toNat_ushiftRight, Nat.shiftRight_eq_div_pow,
    Operation.value, BitVec.toNat_ofNat, Nat.mod_eq_of_lt bound]

theorem sra_value (a b : Word) :
    a.sshiftRight (b &&& 0x1F).toNat = Operation.value .sra a b := by
  rw [amount_low, BitVec.sshiftRight, Int.shiftRight_eq_div_pow, Operation.value]

theorem slt_value (a b : Word) :
    (if a.slt b then 1 else 0 : Word) = Operation.value .slt a b := by
  simp only [Operation.value, BitVec.slt_iff_toInt_lt]

theorem sltu_value (a b : Word) :
    (if a < b then 1 else 0 : Word) = Operation.value .sltu a b := by
  simp only [Operation.value, BitVec.lt_def]

/-- A shift does not see the bits above its amount. -/
theorem shift_value (operation : Operation) (a b c : Word)
    (shift : operation = .sll ∨ operation = .srl ∨ operation = .sra)
    (same : b.toNat % 32 = c.toNat % 32) : operation.value a b = operation.value a c := by
  rcases shift with rfl | rfl | rfl
  · simp only [Operation.value, same]
  · simp only [Operation.value, same]
  · simp only [Operation.value, same]

/-- The register-register operations compute their values. -/
theorem alu_value (inst : DecodedInst) (operation : Operation) (a b : Word)
    (selected : operationOf inst.funct7 inst.funct3 = some operation) :
    aluResult inst a b = operation.value a b := by
  simp only [operationOf] at selected
  split at selected
  case h_11 => cases selected
  all_goals
    rename_i funct7 funct3
    cases selected
    simp only [aluResult, funct7, funct3]
  case h_1 => rfl
  case h_2 => rfl
  case h_3 => exact sll_value a b
  case h_4 => exact slt_value a b
  case h_5 => exact sltu_value a b
  case h_6 => rfl
  case h_7 => exact srl_value a b
  case h_8 => exact sra_value a b
  case h_9 => rfl
  case h_10 => rfl

/-- A shift is selected by one of the two upper fields of the register form. -/
theorem shift_operation (funct7 : BitVec 7) (funct3 : BitVec 3) (operation : Operation)
    (shift : funct3 = 1 ∨ funct3 = 5) (selected : operationOf funct7 funct3 = some operation) :
    funct7 ≠ 0x01 ∧ (operation = .sll ∨ operation = .srl ∨ operation = .sra) := by
  rcases shift with rfl | rfl
  · simp only [operationOf, BitVec.ofNat_eq_ofNat] at selected
    split at selected
    all_goals simp_all
  · simp only [operationOf, BitVec.ofNat_eq_ofNat] at selected
    split at selected
    all_goals simp_all

/-- The shifts by an immediate are the register forms with the immediate for a
    second operand. -/
theorem alui_shift (inst : DecodedInst) (a : Word) (shift : inst.funct3 = 1 ∨ inst.funct3 = 5)
    (single : inst.funct7 ≠ 0x01) : aluiResult inst a = aluResult inst a inst.imm := by
  rcases shift with left | right
  · change inst.funct3 = 1#3 at left
    simp only [aluiResult, aluResult, left, if_neg single]
  · change inst.funct3 = 5#3 at right
    simp only [aluiResult, aluResult, right, if_neg single]

/-- So are the other operations with an immediate, for the first of the upper fields. -/
theorem alui_other (inst : DecodedInst) (a : Word) (other : ¬ (inst.funct3 = 1 ∨ inst.funct3 = 5)) :
    aluiResult inst a = aluResult { inst with funct7 := 0x00 } a inst.imm := by
  have plain : ¬ (0x00 : BitVec 7) = 0x01 := by decide
  have sum : ¬ (0x00 : BitVec 7) = 0x20 := by decide
  simp only [aluiResult, aluResult, if_neg plain, if_neg sum]
  split
  case h_6 => rename_i funct3; exact absurd (Or.inr funct3) other
  all_goals rfl

/-- The branches are taken when their comparisons hold. -/
theorem branch_holds (funct3 : BitVec 3) (comparison : Comparison) (a b : Word)
    (selected : comparisonOf funct3 = some comparison) :
    branchTaken funct3 a b = some (comparison.holds a b) := by
  simp only [comparisonOf] at selected
  split at selected
  case h_7 => cases selected
  all_goals
    cases selected
    simp only [branchTaken, Comparison.holds, Option.some.injEq]
  case h_3 => exact BitVec.slt_eq_decide
  case h_4 => rw [BitVec.slt_eq_decide, ← decide_not, decide_eq_decide, Int.not_lt]
  case h_5 => rw [decide_eq_decide, BitVec.lt_def]
  case h_6 => rw [decide_eq_decide, ge_iff_le, BitVec.le_def]

/-! ## Registers and jumps -/

/-- A register write is `put`. -/
theorem regWrite_put (rf : Regfile) (rd : Reg) (value : Word) :
    regWrite rf rd value = { rf with regs := put rf.regs rd value } := by
  by_cases zero : rd = 0
  · have same : put rf.regs rd value = rf.regs := by
      funext r
      exact if_neg (fun written => written.2 zero)
    rw [regWrite, if_pos zero, same]
  · have updated : Function.update rf.regs rd value = put rf.regs rd value := by
      funext r
      by_cases here : r = rd
      · rw [put, if_pos ⟨here, zero⟩, here, Function.update_self]
      · rw [put, if_neg (fun written => here written.1), Function.update_of_ne here]
    rw [regWrite, if_neg zero, updated]

/-- Clearing bit 0 rounds the target down to an even address. -/
theorem jumpTarget_masked (address : Word) : address &&& ~~~(1 : Word) = jumpTarget address := by
  apply BitVec.eq_of_getLsbD_eq
  intro i inside
  rw [BitVec.getLsbD_and, BitVec.getLsbD_not, decide_eq_true inside, Bool.true_and, jumpTarget,
    BitVec.getLsbD_ofNat, decide_eq_true inside, Bool.true_and, Nat.mul_comm]
  cases i with
  | zero => simp
  | succ i => simp [BitVec.getLsbD, Nat.testBit_succ]

/-! ## Execution -/

/-- A completed register write, with the pc it goes on to. -/
theorem execute_written (host : HostFloat) (emu : Emulator) (inst : DecodedInst)
    (result nextPc : Word)
    (switched : execSwitch host emu inst = writeBack emu inst.rd result nextPc .quiet) :
    execute host emu inst =
      (.retired .quiet,
        { emu with rf := { emu.rf with regs := put emu.rf.regs inst.rd result, pc := nextPc } }) := by
  simp only [execute, switched, writeBack, regWrite_put]

/-- What the decoder extracts, with the length the fetch recorded. -/
structure Extracted (word length : Word) (inst : DecodedInst) : Prop where
  raw : inst.raw = word
  opcode : inst.opcode = opcodeOf word
  rd : inst.rd = word.extractLsb' 7 5
  rs1 : inst.rs1 = word.extractLsb' 15 5
  rs2 : inst.rs2 = word.extractLsb' 20 5
  funct3 : inst.funct3 = word.extractLsb' 12 3
  funct7 : inst.funct7 = word.extractLsb' 25 7
  imm : ∀ fmt, getFmt (opcodeOf word) = some fmt → inst.imm = immOf fmt word
  length : instLen inst = length

/-- A word of a known format is decoded into its fields. -/
theorem decode_extracts (word : Word) (fmt : InstFmt) (known : getFmt (opcodeOf word) = some fmt)
    (compressed : Bool) :
    ∃ inst, decode word = some inst ∧
      Extracted word (if compressed then 2 else 4) (withLength inst compressed) := by
  have decoded : decode word = some
      { raw := word
        len := 4
        fmt := fmt
        opcode := opcodeOf word
        rd := word.extractLsb' 7 5
        rs1 := word.extractLsb' 15 5
        rs2 := word.extractLsb' 20 5
        funct3 := word.extractLsb' 12 3
        funct7 := word.extractLsb' 25 7
        imm := immOf fmt word } := by
    rw [decode, known]
  have same : ∀ other, getFmt (opcodeOf word) = some other → immOf fmt word = immOf other word := by
    intro other also
    rw [known] at also
    cases also
    rfl
  refine ⟨_, decoded, ?_⟩
  cases compressed with
  | true => exact ⟨rfl, rfl, rfl, rfl, rfl, rfl, rfl, same, rfl⟩
  | false => exact ⟨rfl, rfl, rfl, rfl, rfl, rfl, rfl, same, rfl⟩

/-- The words of base instructions have formats. -/
theorem ofWord_format (word : Word) (base : Base) (encoded : Base.ofWord word = some base) :
    ∃ fmt, getFmt (opcodeOf word) = some fmt := by
  simp only [Base.ofWord] at encoded
  split at encoded
  case h_8 => cases encoded
  all_goals
    rename_i opcode
    rw [opcodeOf, opcode]
    exact ⟨_, rfl⟩

/-- The amount of an immediate shift is the low end of the immediate. -/
theorem immI_amount (word : Word) :
    (immI word).toNat % 32 = ((word.extractLsb' 20 5).setWidth 32).toNat % 32 := by
  have low : (immI word &&& 0x1F) = (word.extractLsb' 20 5).setWidth 32 := by
    have narrowed : (immI word).setWidth 5 = word.extractLsb' 20 5 := by
      rw [immI_field, immediateI]
      apply BitVec.eq_of_getLsbD_eq
      intro i small
      rw [BitVec.getLsbD_setWidth, BitVec.getLsbD_signExtend, BitVec.getLsbD_extractLsb',
        BitVec.getLsbD_extractLsb', decide_eq_true small, decide_eq_true (by omega : i < 32),
        if_pos (by omega : i < 12), decide_eq_true (by omega : i < 12)]
      rfl
    rw [← narrowed]
    exact BitFields.and_lowOnes (immI word) 5
  rw [← amount_low, low, Nat.mod_eq_of_lt]
  rw [BitVec.toNat_setWidth_of_le (by decide)]
  exact (word.extractLsb' 20 5).isLt

/-- The register-immediate operations compute what their encodings say. -/
theorem immediateForm_value (word length : Word) (inst : DecodedInst) (base : Base)
    (encoded : immediateForm word = some base) (extracted : Extracted word length inst)
    (imm : inst.imm = immI word) (a : Word) :
    ∃ operation second, base = .opImm operation inst.rd inst.rs1 second ∧
      aluiResult inst a = operation.value a second := by
  simp only [immediateForm, ← extracted.rd, ← extracted.rs1, ← extracted.funct3,
    ← extracted.funct7] at encoded
  by_cases shift : inst.funct3 = 1 ∨ inst.funct3 = 5
  · rw [if_pos shift] at encoded
    obtain ⟨operation, selected, same⟩ := Option.map_eq_some_iff.mp encoded
    obtain ⟨single, kind⟩ := shift_operation inst.funct7 inst.funct3 operation shift selected
    refine ⟨operation, _, same.symm, ?_⟩
    rw [alui_shift inst a shift single, alu_value inst operation a inst.imm selected]
    apply shift_value operation a _ _ kind
    rw [imm]
    exact immI_amount word
  · rw [if_neg shift] at encoded
    obtain ⟨operation, selected, same⟩ := Option.map_eq_some_iff.mp encoded
    refine ⟨operation, _, same.symm, ?_⟩
    rw [alui_other inst a shift, alu_value _ operation a inst.imm selected, imm, immI_field]

/-- Executing what was decoded from a base instruction applies it. -/
theorem execute_base (host : HostFloat) (emu : Emulator) (word length : Word) (inst : DecodedInst)
    (base : Base) (encoded : Base.ofWord word = some base)
    (extracted : Extracted word length inst) :
    execute host emu inst = (.retired .quiet, base.apply length emu) := by
  have next : seqPc emu inst = emu.rf.pc + length := by
    rw [seqPc, extracted.length]
  have kind := extracted.opcode
  have imm := extracted.imm
  simp only [Base.ofWord, ← extracted.rd, ← extracted.rs1, ← extracted.rs2, ← extracted.funct3,
    ← extracted.funct7] at encoded
  split at encoded
  case h_8 => cases encoded
  all_goals
    rename_i opcode
    rw [opcodeOf, opcode] at kind imm
  case h_1 =>
    obtain ⟨operation, selected, rfl⟩ := Option.map_eq_some_iff.mp encoded
    change inst.opcode = .alu at kind
    apply execute_written
    simp only [execSwitch, kind, alu_value inst operation _ _ selected, next]
    rfl
  case h_2 =>
    obtain ⟨operation, second, rfl, value⟩ := immediateForm_value word length inst base encoded
      extracted (imm .i rfl) (emu.rf.regs inst.rs1)
    change inst.opcode = .alui at kind
    apply execute_written
    simp only [execSwitch, kind, next, regRead, value]
    rfl
  case h_3 =>
    cases encoded
    change inst.opcode = .lui at kind
    apply execute_written
    simp only [execSwitch, kind, next, imm .u rfl, immOf, immU_field]
    rfl
  case h_4 =>
    cases encoded
    change inst.opcode = .auipc at kind
    apply execute_written
    simp only [execSwitch, kind, next, imm .u rfl, immOf, immU_field]
    rfl
  case h_5 =>
    cases encoded
    change inst.opcode = .jal at kind
    apply execute_written
    simp only [execSwitch, kind, next, imm .j rfl, immOf, immJ_field]
    rfl
  case h_6 =>
    split at encoded
    · cases encoded
      change inst.opcode = .jalr at kind
      apply execute_written
      simp only [execSwitch, kind, next, imm .i rfl, immOf, immI_field, jumpTarget_masked]
      rfl
    · cases encoded
  case h_7 =>
    obtain ⟨comparison, selected, rfl⟩ := Option.map_eq_some_iff.mp encoded
    change inst.opcode = .branch at kind
    simp only [execute, execSwitch, kind, execBranch, branch_holds _ comparison _ _ selected, next,
      imm .b rfl, immOf, immB_field]
    rfl

/-! ## The step -/

/-- A translation for fetching gains accessed bits alone. -/
theorem translate_accessed (emu : Emulator) (va addr : Word) (aligned : Aligned addr) :
    Gains pteA (wordAt emu.mem.data addr)
      (wordAt (mmuTranslate emu va .fetch).2.mem.data addr) := by
  have unchanged := gains_refl pteA (wordAt emu.mem.data addr)
  rw [mmuTranslate_eq]
  by_cases bare : Bare emu
  · rw [if_pos bare]
    exact unchanged
  · rw [if_neg bare]
    cases found : walk emu.mem emu.csr.satp va with
    | none => exact unchanged
    | some leaf =>
      obtain ⟨read, -, -, -⟩ := walk_found emu.mem emu.csr.satp va leaf found
      obtain ⟨-, stored⟩ := memoryRead32_some emu.mem _ _ read
      have slot := walk_aligned emu.mem emu.csr.satp va leaf found
      dsimp only
      split
      · simp only [pteUpdateAd_eq, touchMemory]
        split
        · simp only [memoryWrite32]
          split
          · exact unchanged
          · apply (marked_put pteA emu.mem.data leaf.addr _ slot ?_).gains addr aligned
            rw [stored]
            exact ⟨pteA, rfl⟩
        · exact unchanged
      · exact unchanged

/-- So does a fetch. -/
theorem fetch_accessed (emu : Emulator) (pc addr : Word) (aligned : Aligned addr) :
    Gains pteA (wordAt emu.mem.data addr) (wordAt (emuFetch emu pc).2.mem.data addr) := by
  have ends := emuFetch_ends emu pc
  generalize emuFetch emu pc = fetched at ends ⊢
  cases ends with
  | first result found after translated coded =>
    have gained := translate_accessed emu pc addr aligned
    rw [translated] at gained
    exact gained
  | second result found pa low middle after translated read crossing crossed coded =>
    have gained := translate_accessed emu pc addr aligned
    have later := translate_accessed middle (pc + 2) addr aligned
    rw [translated] at gained
    rw [crossed] at later
    exact gains_trans pteA _ _ _ gained later

/-- The fetch of a step changes accessed bits of the entries it visits, and nothing else. -/
theorem fetch_marks (emu ready : Emulator) (result : Except (Word × Word) (Word × Bool))
    (fetched : emuFetch (timerTick emu) emu.rf.pc = (result, ready)) :
    ready = ticked emu ready.mem ∧
      Marked pteA (VisitedLeaf emu (fetchAccesses (timerTick emu))) emu.mem.data
        ready.mem.data := by
  obtain ⟨mem, state, touched, -⟩ :=
    emuFetch_shape (timerTick emu) emu.rf.pc (by rw [timerTick_rf])
  have accessed := fetch_accessed (timerTick emu) emu.rf.pc
  rw [fetched] at state accessed
  dsimp only at state accessed
  subst state
  constructor
  · rfl
  · constructor
    · intro addr aligned
      rw [← timerTick_mem emu]
      exact accessed addr aligned
    · exact (touched_tick emu _ mem touched).kept

/-- Without an interrupt or a fetch fault, a step on a base instruction applies it,
    ticks the timer, counts the cycle, and sets accessed bits of its own fetch. -/
theorem step_base (host : HostFloat) (emu ready : Emulator) (word : Word) (base : Base)
    (quiet : (trapCheckInterrupt emu emu.rf.pc).1 = false) (even : emu.rf.pc &&& 1 = 0)
    (fetched : emuFetch (timerTick emu) emu.rf.pc = (.ok (word, false), ready))
    (encoded : Base.ofWord word = some base) :
    emuStep host emu =
        (.retired .quiet,
          { base.apply 4 emu with
            mem := ready.mem
            mtime := emu.mtime + 1
            csr := { emu.csr with mip := tickedMip emu, mcycle := emu.csr.mcycle + 1 } }) ∧
      Marked pteA (VisitedLeaf emu (fetchAccesses (timerTick emu))) emu.mem.data
        ready.mem.data := by
  obtain ⟨state, marked⟩ := fetch_marks emu ready _ fetched
  obtain ⟨fmt, known⟩ := ofWord_format word base encoded
  obtain ⟨inst, decoded, extracted⟩ := decode_extracts word fmt known false
  constructor
  · have executed := execute_base host ready word 4 _ base encoded extracted
    rw [emuStep_halves, HalfwordFetch.frontEnd_fetch emu quiet even, fetched]
    simp only [HalfwordFetch.frontOf, decoded, backEnd, executed, countCycle]
    rw [if_neg (by decide), state, ticked, timerTick_eq]
    rfl
  · exact marked

/-- A running machine at `jalr x1, -3(x1)`. -/
def indirectCall : Emulator :=
  loadImage (emuInit (fun _ => 0)) (programImage 0x1000 [0xFFD080E7])

/-- The target is taken from `x1` before the link is written to it, wraps below zero,
    and is even. -/
theorem indirectCall_links :
    (emuStep idleHost indirectCall).2.rf.pc = 0xFFFFFFFC ∧
      (emuStep idleHost indirectCall).2.rf.regs 1 = 0x1004 := by
  have fetched : emuFetch (timerTick indirectCall) 0x1000 =
      (.ok (0xFFD080E7, false), timerTick indirectCall) := by
    rfl
  have encoded : Base.ofWord 0xFFD080E7 = some (.jalr 1 1 0xFFFFFFFD) := by decide
  rw [(step_base idleHost indirectCall _ _ _ (by decide) (by decide) fetched encoded).1]
  decide

end RvEmu.BaseInstructions
