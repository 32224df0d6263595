import RvEmu.DecodeCoverage
import RvEmu.Expansion

/-!
# Encoders and the decoder are inverse

There is an encoder for each format, a decoder for all of them, and a sign
extension for each immediate, written apart. The operands of a format are the
fields its words hold and an immediate in its range. Encoding operands and
decoding the word gives the operands, and encoding what was decoded gives the
word.
-/

namespace RvEmu.EncodingInverse

open DecodeCoverage InstructionSet BaseInstructions Expansion

/-! ## Operands -/

/-- What the encoders take: fields by their widths, and an immediate. -/
structure Fields where
  f7 : BitVec 7
  rs2 : Reg
  rs1 : Reg
  f3 : BitVec 3
  rd : Reg
  op : BitVec 7
  imm : Word
deriving DecidableEq

/-- The fields that a format holds; the others are zero. -/
def Fields.present (fields : Fields) : InstFmt → Fields
  | .r => fields
  | .i => { fields with f7 := 0, rs2 := 0 }
  | .s => { fields with f7 := 0, rd := 0 }
  | .b => { fields with f7 := 0, rd := 0 }
  | .u => { fields with f7 := 0, rs2 := 0, rs1 := 0, f3 := 0 }
  | .j => { fields with f7 := 0, rs2 := 0, rs1 := 0, f3 := 0 }

/-- The encoder of each format. -/
def Fields.encode (fields : Fields) : InstFmt → Word
  | .r =>
    encR (fields.f7.setWidth 32) (fields.rs2.setWidth 32) (fields.rs1.setWidth 32)
      (fields.f3.setWidth 32) (fields.rd.setWidth 32) (fields.op.setWidth 32)
  | .i =>
    encI fields.imm (fields.rs1.setWidth 32) (fields.f3.setWidth 32) (fields.rd.setWidth 32)
      (fields.op.setWidth 32)
  | .s =>
    encS fields.imm (fields.rs2.setWidth 32) (fields.rs1.setWidth 32) (fields.f3.setWidth 32)
      (fields.op.setWidth 32)
  | .b =>
    encB fields.imm (fields.rs2.setWidth 32) (fields.rs1.setWidth 32) (fields.f3.setWidth 32)
      (fields.op.setWidth 32)
  | .u => encU fields.imm (fields.rd.setWidth 32) (fields.op.setWidth 32)
  | .j => encJ fields.imm (fields.rd.setWidth 32) (fields.op.setWidth 32)

/-- The immediates of each format, as signed integers; R has none, and U holds the
    upper twenty bits of a word. -/
def InRange (imm : Word) : InstFmt → Prop
  | .r => imm = 0
  | .i => -2048 ≤ imm.toInt ∧ imm.toInt ≤ 2047
  | .s => -2048 ≤ imm.toInt ∧ imm.toInt ≤ 2047
  | .b => -4096 ≤ imm.toInt ∧ imm.toInt ≤ 4094 ∧ imm.toInt % 2 = 0
  | .u => imm.toNat % 4096 = 0
  | .j => -2 ^ 20 ≤ imm.toInt ∧ imm.toInt ≤ 2 ^ 20 - 2 ∧ imm.toInt % 2 = 0

/-- The operands of a format: an opcode that has it and an immediate it can hold. -/
structure Operands (fmt : InstFmt) extends Fields where
  matching : getFmt (opcodeOf (op.setWidth 32)) = some fmt
  inRange : InRange imm fmt

/-- `(u32)inst->opcode`. -/
def opcodeBits : Opcode → BitVec 7
  | .lui => 0x37
  | .auipc => 0x17
  | .jal => 0x6F
  | .jalr => 0x67
  | .branch => 0x63
  | .load => 0x03
  | .store => 0x23
  | .loadFp => 0x07
  | .storeFp => 0x27
  | .alui => 0x13
  | .alu => 0x33
  | .fence => 0x0F
  | .amo => 0x2F
  | .fp => 0x53
  | .system => 0x73
  | .other bits => bits

/-- The fields of a decoded instruction. -/
def fieldsIn (inst : DecodedInst) : Fields where
  f7 := inst.funct7
  rs2 := inst.rs2
  rs1 := inst.rs1
  f3 := inst.funct3
  rd := inst.rd
  op := opcodeBits inst.opcode
  imm := inst.imm

theorem opcodeBits_opcodeOf (word : Word) :
    opcodeBits (opcodeOf word) = word.extractLsb' 0 7 := by
  simp only [opcodeOf]
  generalize word.extractLsb' 0 7 = op
  revert op
  decide

/-- The opcode is a matter of the low seven bits. -/
theorem opcodeOf_congr (word other : Word) (same : word.extractLsb' 0 7 = other.extractLsb' 0 7) :
    opcodeOf word = opcodeOf other := by
  rw [opcodeOf, opcodeOf, same]

/-- The number of a decoded opcode determines it. -/
theorem opcodeOf_bits (word : Word) (op : BitVec 7) (bits : opcodeBits (opcodeOf word) = op) :
    opcodeOf word = opcodeOf (op.setWidth 32) := by
  apply opcodeOf_congr
  rw [← opcodeBits_opcodeOf, bits, ← BitVec.setWidth_eq_extractLsb' (by decide),
    BitFields.narrow_wide op (by decide)]

/-! ## Immediates -/

/-- A word in the range of `n` signed bits is what its low `n` bits extend to. -/
theorem signed_narrow (imm : Word) (n : Nat) (positive : 0 < n) (inside : n ≤ 32)
    (above : -(2 ^ (n - 1) : Int) ≤ imm.toInt) (below : imm.toInt < 2 ^ (n - 1)) :
    (imm.setWidth n).signExtend 32 = imm := by
  have extended : (BitVec.ofInt n imm.toInt).signExtend 32 = imm := by
    apply BitVec.eq_of_toInt_eq
    rw [BitVec.toInt_signExtend_of_le inside, BitVec.toInt_ofInt_eq_self positive above below]
  have narrowed := BitFields.signExtend_narrow (BitVec.ofInt n imm.toInt) n (Nat.le_refl n) inside
  rwa [extended] at narrowed

/-- An even integer has no lowest bit. -/
theorem even_low (imm : Word) (even : imm.toInt % 2 = 0) : imm.getLsbD 0 = false := by
  have parity : imm.toNat % 2 = 0 := by
    rw [BitVec.toInt_eq_toNat_cond] at even
    split at even
    · omega
    · omega
  rw [BitVec.getLsbD, Nat.testBit_zero, parity]
  rfl

/-- A multiple of `2 ^ 12` is its upper twenty bits. -/
theorem upper_whole (imm : Word) (multiple : imm.toNat % 4096 = 0) :
    imm.extractLsb' 12 20 ++ 0#12 = imm := by
  have bound := imm.isLt
  apply BitVec.eq_of_toNat_eq
  rw [BitVec.toNat_append, BitVec.extractLsb'_toNat, BitVec.toNat_ofNat, Nat.zero_mod, Nat.or_zero,
    Nat.shiftLeft_eq, Nat.shiftRight_eq_div_pow]
  omega

/-! ## Decoding an encoding -/

/-- The word of a format's encoder is decoded into its fields. -/
theorem encode_decodes (fmt : InstFmt) (operands : Operands fmt)
    (low : (operands.encode fmt).extractLsb' 0 7 = operands.op) :
    decode (operands.encode fmt) = some (fieldsOf (operands.encode fmt)) ∧
      (fieldsOf (operands.encode fmt)).fmt = fmt ∧
      (fieldsOf (operands.encode fmt)).imm = immOf fmt (operands.encode fmt) ∧
      opcodeBits (fieldsOf (operands.encode fmt)).opcode = operands.op := by
  have known : getFmt (opcodeOf (operands.encode fmt)) = some fmt := by
    rw [opcodeOf_congr _ (operands.op.setWidth 32)]
    · exact operands.matching
    · rw [low, ← BitVec.setWidth_eq_extractLsb' (by decide),
        BitFields.narrow_wide operands.op (by decide)]
  refine ⟨decode_fieldsOf _ fmt known, ?_, ?_, ?_⟩
  · rw [fieldsOf, known]
    rfl
  · rw [fieldsOf, known]
    rfl
  · exact (opcodeBits_opcodeOf _).trans low

/-- Decoding recovers the operands. -/
def Recovers (fmt : InstFmt) (operands : Operands fmt) : Prop :=
  ∃ inst, decode (operands.encode fmt) = some inst ∧ inst.fmt = fmt ∧
    (fieldsIn inst).present fmt = operands.present fmt

/-- A word whose slices are the fields of its operands decodes to them. -/
theorem recovers_of_slices (fmt : InstFmt) (operands : Operands fmt)
    (low : (operands.encode fmt).extractLsb' 0 7 = operands.op)
    (slices : (fieldsIn (fieldsOf (operands.encode fmt))).present fmt = operands.present fmt) :
    Recovers fmt operands := by
  obtain ⟨decoded, format, -, -⟩ := encode_decodes fmt operands low
  exact ⟨_, decoded, format, slices⟩

theorem recovers_r (operands : Operands .r) : Recovers .r operands := by
  obtain ⟨low, rd, f3, rs1, rs2, f7⟩ := encR_fields (operands.f7.setWidth 32)
    (operands.rs2.setWidth 32) (operands.rs1.setWidth 32) (operands.f3.setWidth 32)
    (operands.rd.setWidth 32) (operands.op.setWidth 32)
  rw [BitFields.narrow_wide _ (by decide)] at low rd f3 rs1 rs2 f7
  obtain ⟨-, -, imm, opcode⟩ := encode_decodes .r operands low
  have none : operands.imm = 0 := operands.inRange
  apply recovers_of_slices .r operands low
  simp only [Fields.present, fieldsIn, opcode, imm, immOf]
  simp only [fieldsOf, Fields.encode, rd, f3, rs1, rs2, f7]
  exact congrArg (Fields.mk _ _ _ _ _ _) none.symm

theorem recovers_i (operands : Operands .i) : Recovers .i operands := by
  obtain ⟨low, rd, f3, rs1, upper⟩ := encI_fields operands.imm (operands.rs1.setWidth 32)
    (operands.f3.setWidth 32) (operands.rd.setWidth 32) (operands.op.setWidth 32)
  rw [BitFields.narrow_wide _ (by decide)] at low rd f3 rs1
  obtain ⟨-, -, imm, opcode⟩ := encode_decodes .i operands low
  have above : -2048 ≤ operands.imm.toInt := operands.inRange.1
  have below : operands.imm.toInt ≤ 2047 := operands.inRange.2
  have whole : immI (operands.encode .i) = operands.imm := by
    rw [immI_field, immediateI, Fields.encode, upper]
    exact signed_narrow operands.imm 12 (by decide) (by decide) above (by omega)
  apply recovers_of_slices .i operands low
  simp only [Fields.present, fieldsIn, opcode, imm, immOf, whole]
  simp only [fieldsOf, Fields.encode, rd, f3, rs1]

theorem recovers_s (operands : Operands .s) : Recovers .s operands := by
  obtain ⟨low, f3, rs1, rs2, scattered⟩ := encS_fields operands.imm (operands.rs2.setWidth 32)
    (operands.rs1.setWidth 32) (operands.f3.setWidth 32) (operands.op.setWidth 32)
  rw [BitFields.narrow_wide _ (by decide)] at low f3 rs1 rs2
  obtain ⟨-, -, imm, opcode⟩ := encode_decodes .s operands low
  have above : -2048 ≤ operands.imm.toInt := operands.inRange.1
  have below : operands.imm.toInt ≤ 2047 := operands.inRange.2
  have whole : immS (operands.encode .s) = operands.imm := by
    rw [immS_field, Fields.encode, scattered]
    exact signed_narrow operands.imm 12 (by decide) (by decide) above (by omega)
  apply recovers_of_slices .s operands low
  simp only [Fields.present, fieldsIn, opcode, imm, immOf, whole]
  simp only [fieldsOf, Fields.encode, f3, rs1, rs2]

theorem recovers_b (operands : Operands .b) : Recovers .b operands := by
  obtain ⟨low, f3, rs1, rs2, scattered⟩ := encB_fields operands.imm (operands.rs2.setWidth 32)
    (operands.rs1.setWidth 32) (operands.f3.setWidth 32) (operands.op.setWidth 32)
  rw [BitFields.narrow_wide _ (by decide)] at low f3 rs1 rs2
  obtain ⟨-, -, imm, opcode⟩ := encode_decodes .b operands low
  have above : -4096 ≤ operands.imm.toInt := operands.inRange.1
  have below : operands.imm.toInt ≤ 4094 := operands.inRange.2.1
  have even := even_low operands.imm operands.inRange.2.2
  have whole : immB (operands.encode .b) = operands.imm := by
    rw [immB_field, Fields.encode, scattered, BitFields.even_join operands.imm 12 even]
    exact signed_narrow operands.imm 13 (by decide) (by decide) above (by omega)
  apply recovers_of_slices .b operands low
  simp only [Fields.present, fieldsIn, opcode, imm, immOf, whole]
  simp only [fieldsOf, Fields.encode, f3, rs1, rs2]

theorem recovers_u (operands : Operands .u) : Recovers .u operands := by
  obtain ⟨low, rd, upper⟩ := encU_fields operands.imm (operands.rd.setWidth 32)
    (operands.op.setWidth 32)
  rw [BitFields.narrow_wide _ (by decide)] at low rd
  obtain ⟨-, -, imm, opcode⟩ := encode_decodes .u operands low
  have whole : immU (operands.encode .u) = operands.imm := by
    rw [immU_field, Fields.encode, upper]
    exact upper_whole operands.imm operands.inRange
  apply recovers_of_slices .u operands low
  simp only [Fields.present, fieldsIn, opcode, imm, immOf, whole]
  simp only [fieldsOf, Fields.encode, rd]

theorem recovers_j (operands : Operands .j) : Recovers .j operands := by
  obtain ⟨low, rd, scattered⟩ := encJ_fields operands.imm (operands.rd.setWidth 32)
    (operands.op.setWidth 32)
  rw [BitFields.narrow_wide _ (by decide)] at low rd
  obtain ⟨-, -, imm, opcode⟩ := encode_decodes .j operands low
  have above : -2 ^ 20 ≤ operands.imm.toInt := operands.inRange.1
  have below : operands.imm.toInt ≤ 2 ^ 20 - 2 := operands.inRange.2.1
  have even := even_low operands.imm operands.inRange.2.2
  have whole : immJ (operands.encode .j) = operands.imm := by
    rw [immJ_field, Fields.encode, scattered, BitFields.even_join operands.imm 20 even]
    exact signed_narrow operands.imm 21 (by decide) (by decide) above (by omega)
  apply recovers_of_slices .j operands low
  simp only [Fields.present, fieldsIn, opcode, imm, immOf, whole]
  simp only [fieldsOf, Fields.encode, rd]

/-! ## Encoding what was decoded -/

/-- The fields of a word are its slices, with the immediate of its format. -/
theorem fieldsIn_word (word : Word) (fmt : InstFmt) (known : getFmt (opcodeOf word) = some fmt) :
    fieldsIn (fieldsOf word) =
      { f7 := word.extractLsb' 25 7
        rs2 := word.extractLsb' 20 5
        rs1 := word.extractLsb' 15 5
        f3 := word.extractLsb' 12 3
        rd := word.extractLsb' 7 5
        op := word.extractLsb' 0 7
        imm := immOf fmt word } := by
  rw [← opcodeBits_opcodeOf word]
  simp only [fieldsIn, fieldsOf, known]
  rfl

/-- Encoding the fields of a word gives the word. -/
theorem fields_encode (word : Word) (fmt : InstFmt) (known : getFmt (opcodeOf word) = some fmt) :
    (fieldsIn (fieldsOf word)).encode fmt = word := by
  have whole : word.extractLsb' 0 (7 + 25) = word := BitVec.extractLsb'_eq_self
  have narrow5 : ∀ field : BitVec 5, (field.setWidth 32).setWidth 5 = field :=
    fun field => BitFields.narrow_wide field (by decide)
  have narrow3 : ∀ field : BitVec 3, (field.setWidth 32).setWidth 3 = field :=
    fun field => BitFields.narrow_wide field (by decide)
  have narrow7 : ∀ field : BitVec 7, (field.setWidth 32).setWidth 7 = field :=
    fun field => BitFields.narrow_wide field (by decide)
  rw [fieldsIn_word word fmt known]
  cases fmt with
  | r =>
    simp only [Fields.encode, encR_joined, narrow3, narrow5, narrow7]
    simp (disch := decide) only [BitVec.extractLsb'_append_extractLsb'_eq_extractLsb']
    exact whole
  | i =>
    simp only [Fields.encode, encI_joined, narrow3, narrow5, narrow7, immOf, immI_field,
      immediateI]
    simp (disch := decide) only [BitFields.narrow_signExtend,
      BitVec.extractLsb'_append_extractLsb'_eq_extractLsb']
    exact whole
  | s =>
    simp only [Fields.encode, encS_joined, narrow3, narrow5, narrow7, immOf, immS_field,
      immediateS]
    simp (disch := decide) only [BitFields.slice_signExtend, BitVec.setWidth_eq_extractLsb',
      BitVec.extractLsb'_append_eq_of_le, BitVec.extractLsb'_append_eq_of_add_le,
      BitVec.extractLsb'_eq_self, Nat.sub_self,
      BitVec.extractLsb'_append_extractLsb'_eq_extractLsb']
  | b =>
    simp only [Fields.encode, encB_joined, narrow3, narrow5, narrow7, immOf, immB_field,
      immediateB]
    simp (disch := decide) only [BitFields.slice_signExtend, BitVec.extractLsb'_append_eq_of_le,
      BitVec.extractLsb'_append_eq_of_add_le, BitVec.extractLsb'_eq_self, Nat.sub_self,
      Nat.reduceSub, BitVec.extractLsb'_append_extractLsb'_eq_extractLsb']
  | u =>
    simp only [Fields.encode, encU_joined, narrow5, narrow7, immOf, immU_field, immediateU]
    simp (disch := decide) only [BitVec.extractLsb'_append_eq_of_le, BitVec.extractLsb'_eq_self,
      Nat.sub_self, BitVec.extractLsb'_append_extractLsb'_eq_extractLsb']
  | j =>
    simp only [Fields.encode, encJ_joined, narrow5, narrow7, immOf, immJ_field, immediateJ]
    simp (disch := decide) only [BitFields.slice_signExtend, BitVec.extractLsb'_append_eq_of_le,
      BitVec.extractLsb'_append_eq_of_add_le, BitVec.extractLsb'_eq_self, Nat.sub_self,
      Nat.reduceSub, BitVec.extractLsb'_append_extractLsb'_eq_extractLsb']

/-- A sign-extended field is in the range of its width. -/
theorem signExtend_range {n : Nat} (field : BitVec n) (inside : n ≤ 32) :
    -(2 ^ (n - 1) : Int) ≤ (field.signExtend 32).toInt ∧
      (field.signExtend 32).toInt < 2 ^ (n - 1) := by
  rw [BitVec.toInt_signExtend_of_le inside]
  exact ⟨BitVec.le_toInt field, BitVec.toInt_lt⟩

/-- A field with a zero appended is even, and in the range of one more bit. -/
theorem append_range {n : Nat} (field : BitVec n) (positive : 0 < n) (inside : n + 1 ≤ 32) :
    -(2 ^ n : Int) ≤ ((field ++ 0#1).signExtend 32).toInt ∧
      ((field ++ 0#1).signExtend 32).toInt ≤ 2 ^ n - 2 ∧
      ((field ++ 0#1).signExtend 32).toInt % 2 = 0 := by
  have above := BitVec.le_toInt field
  have below : field.toInt < 2 ^ (n - 1) := BitVec.toInt_lt
  have doubled : (2 : Int) ^ n = 2 ^ (n - 1) * 2 := by
    rw [← Int.pow_succ, Nat.succ_eq_add_one, Nat.sub_add_cancel positive]
  rw [BitVec.toInt_signExtend_of_le inside, BitVec.toInt_append_zero, doubled]
  exact ⟨by omega, by omega, by omega⟩

/-- Every immediate the decoder yields is one its format can hold. -/
theorem immOf_inRange (word : Word) (fmt : InstFmt) : InRange (immOf fmt word) fmt := by
  cases fmt with
  | r => rfl
  | i =>
    have range := signExtend_range (word.extractLsb' 20 12) (by decide)
    rw [immOf, immI_field, immediateI]
    exact ⟨range.1, Int.le_of_lt_add_one range.2⟩
  | s =>
    have range := signExtend_range (word.extractLsb' 25 7 ++ word.extractLsb' 7 5) (by decide)
    rw [immOf, immS_field, immediateS]
    exact ⟨range.1, Int.le_of_lt_add_one range.2⟩
  | b =>
    rw [immOf, immB_field, immediateB]
    exact append_range (word.extractLsb' 31 1 ++ word.extractLsb' 7 1 ++ word.extractLsb' 25 6 ++
      word.extractLsb' 8 4) (by decide) (by decide)
  | u =>
    change (immU word).toNat % 4096 = 0
    rw [immU_field, immediateU, BitVec.toNat_append, BitVec.toNat_ofNat, Nat.zero_mod, Nat.or_zero,
      Nat.shiftLeft_eq]
    exact Nat.mul_mod_left _ _
  | j =>
    rw [immOf, immJ_field, immediateJ]
    exact append_range (word.extractLsb' 31 1 ++ word.extractLsb' 12 8 ++ word.extractLsb' 20 1 ++
      word.extractLsb' 21 10) (by decide) (by decide)

/-- The encoder of a format and the decoder undo each other. -/
structure Inverse (fmt : InstFmt) : Prop where
  decodes : ∀ operands : Operands fmt, Recovers fmt operands
  encodes : ∀ word inst, decode word = some inst → inst.fmt = fmt →
    (fieldsIn inst).encode fmt = word ∧ InRange inst.imm fmt

/-- All six encoders are inverse to the decoder, in both directions. -/
theorem encoders_inverse (fmt : InstFmt) : Inverse fmt where
  decodes := by
    cases fmt with
    | r => exact recovers_r
    | i => exact recovers_i
    | s => exact recovers_s
    | b => exact recovers_b
    | u => exact recovers_u
    | j => exact recovers_j
  encodes := by
    intro word inst decoded format
    rcases format_cases (opcodeOf word) with ⟨known, listed⟩ | fence | ⟨bits, unlisted⟩
    · rw [decode_fieldsOf word known listed] at decoded
      cases decoded
      have same : known = fmt := by
        rw [← format, fieldsOf, listed]
        rfl
      subst same
      refine ⟨fields_encode word known listed, ?_⟩
      rw [fieldsOf, listed]
      exact immOf_inRange word known
    · rw [decode, fence] at decoded
      cases decoded
    · rw [decode, unlisted] at decoded
      cases decoded

end RvEmu.EncodingInverse
