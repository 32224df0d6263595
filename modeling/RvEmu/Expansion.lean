import RvEmu.CompressedFormats
import RvEmu.BaseInstructions

/-!
# Expansion of compressed instructions encodes them

`expand_compressed` takes a halfword apart and puts the parts together as a
32-bit word. The encoders are concatenations, so the fields of an encoded word
are their arguments, narrowed. The immediates of the source are the scattered
bits in another order of disjunction. Every accepted halfword then expands to a
word that encodes the instruction of the halfword's own formats.
-/

namespace RvEmu.Expansion

open InstructionSet BaseInstructions

/-! ## Encoders -/

theorem mask_twelve (x : Word) : x &&& 0xFFF = (x.setWidth 12).setWidth 32 :=
  BitFields.and_lowOnes x 12

theorem mask_seven (x : Word) : x &&& 0x7F = (x.setWidth 7).setWidth 32 :=
  BitFields.and_lowOnes x 7

theorem mask_five (x : Word) : x &&& 0x1F = (x.setWidth 5).setWidth 32 :=
  BitFields.and_lowOnes x 5

theorem mask_three (x : Word) : x &&& 7 = (x.setWidth 3).setWidth 32 :=
  BitFields.and_lowOnes x 3

section Encoders

variable (imm f7 rs2 rs1 f3 rd op : Word)

theorem encR_joined :
    encR f7 rs2 rs1 f3 rd op =
      (f7.setWidth 7 ++ rs2.setWidth 5 ++ rs1.setWidth 5 ++ f3.setWidth 3 ++ rd.setWidth 5 ++
        op.setWidth 7 : BitVec (7 + 5 + 5 + 3 + 5 + 7)) := by
  rw [← BitVec.setWidth_eq (_ ++ _)]
  simp only [BitVec.setWidth_append_eq_shiftLeft_setWidth_or, BitVec.shiftLeft_or_distrib,
    ← BitVec.shiftLeft_add, encR, mask_seven, mask_five, mask_three]

theorem encI_joined :
    encI imm rs1 f3 rd op =
      (imm.setWidth 12 ++ rs1.setWidth 5 ++ f3.setWidth 3 ++ rd.setWidth 5 ++ op.setWidth 7 :
        BitVec (12 + 5 + 3 + 5 + 7)) := by
  rw [← BitVec.setWidth_eq (_ ++ _)]
  simp only [BitVec.setWidth_append_eq_shiftLeft_setWidth_or, BitVec.shiftLeft_or_distrib,
    ← BitVec.shiftLeft_add, encI, mask_twelve, mask_seven, mask_five, mask_three]

theorem encS_joined :
    encS imm rs2 rs1 f3 op =
      (imm.extractLsb' 5 7 ++ rs2.setWidth 5 ++ rs1.setWidth 5 ++ f3.setWidth 3 ++
        imm.setWidth 5 ++ op.setWidth 7 : BitVec (7 + 5 + 5 + 3 + 5 + 7)) := by
  have high : (imm >>> 5) &&& 0x7F = (imm.extractLsb' 5 7).setWidth 32 :=
    BitFields.slice_mask imm 5 7
  rw [← BitVec.setWidth_eq (_ ++ _)]
  simp only [BitVec.setWidth_append_eq_shiftLeft_setWidth_or, BitVec.shiftLeft_or_distrib,
    ← BitVec.shiftLeft_add, encS, high, mask_seven, mask_five, mask_three]

theorem encB_joined :
    encB imm rs2 rs1 f3 op =
      (imm.extractLsb' 12 1 ++ imm.extractLsb' 5 6 ++ rs2.setWidth 5 ++ rs1.setWidth 5 ++
        f3.setWidth 3 ++ imm.extractLsb' 1 4 ++ imm.extractLsb' 11 1 ++ op.setWidth 7 :
        BitVec (1 + 6 + 5 + 5 + 3 + 4 + 1 + 7)) := by
  have b12 : (imm >>> 12) &&& 1 = (imm.extractLsb' 12 1).setWidth 32 :=
    BitFields.slice_mask imm 12 1
  have b10_5 : (imm >>> 5) &&& 0x3F = (imm.extractLsb' 5 6).setWidth 32 :=
    BitFields.slice_mask imm 5 6
  have b4_1 : (imm >>> 1) &&& 0xF = (imm.extractLsb' 1 4).setWidth 32 :=
    BitFields.slice_mask imm 1 4
  have b11 : (imm >>> 11) &&& 1 = (imm.extractLsb' 11 1).setWidth 32 :=
    BitFields.slice_mask imm 11 1
  rw [← BitVec.setWidth_eq (_ ++ _)]
  simp only [BitVec.setWidth_append_eq_shiftLeft_setWidth_or, BitVec.shiftLeft_or_distrib,
    ← BitVec.shiftLeft_add, encB, b12, b10_5, b4_1, b11, mask_seven, mask_five, mask_three]

theorem encU_joined :
    encU imm rd op =
      (imm.extractLsb' 12 20 ++ rd.setWidth 5 ++ op.setWidth 7 : BitVec (20 + 5 + 7)) := by
  have upper : imm &&& 0xFFFFF000 = (imm.extractLsb' 12 20).setWidth 32 <<< 12 := by
    have field := immU_field imm
    rw [immU, immediateU, ← BitVec.setWidth_eq (_ ++ _),
      BitVec.setWidth_append_eq_shiftLeft_setWidth_or] at field
    simpa using field
  rw [← BitVec.setWidth_eq (_ ++ _)]
  simp only [BitVec.setWidth_append_eq_shiftLeft_setWidth_or, BitVec.shiftLeft_or_distrib,
    ← BitVec.shiftLeft_add, encU, upper, mask_seven, mask_five]

theorem encJ_joined :
    encJ imm rd op =
      (imm.extractLsb' 20 1 ++ imm.extractLsb' 1 10 ++ imm.extractLsb' 11 1 ++
        imm.extractLsb' 12 8 ++ rd.setWidth 5 ++ op.setWidth 7 :
        BitVec (1 + 10 + 1 + 8 + 5 + 7)) := by
  have b20 : (imm >>> 20) &&& 1 = (imm.extractLsb' 20 1).setWidth 32 :=
    BitFields.slice_mask imm 20 1
  have b10_1 : (imm >>> 1) &&& 0x3FF = (imm.extractLsb' 1 10).setWidth 32 :=
    BitFields.slice_mask imm 1 10
  have b11 : (imm >>> 11) &&& 1 = (imm.extractLsb' 11 1).setWidth 32 :=
    BitFields.slice_mask imm 11 1
  have b19_12 : (imm >>> 12) &&& 0xFF = (imm.extractLsb' 12 8).setWidth 32 :=
    BitFields.slice_mask imm 12 8
  rw [← BitVec.setWidth_eq (_ ++ _)]
  simp only [BitVec.setWidth_append_eq_shiftLeft_setWidth_or, BitVec.shiftLeft_or_distrib,
    ← BitVec.shiftLeft_add, encJ, b20, b10_1, b11, b19_12, mask_seven, mask_five]

end Encoders

/-! ## Encoded instructions -/

/-- The word encodes the instruction in the formats of 32 bits. -/
def Encodes (word : Word) : Instruction → Prop
  | .base form => Base.ofWord word = some form
  | .lw rd rs1 offset =>
    word.extractLsb' 0 7 = 0x03 ∧ word.extractLsb' 12 3 = 2 ∧ word.extractLsb' 7 5 = rd ∧
      word.extractLsb' 15 5 = rs1 ∧ immediateI word = offset
  | .sw rs2 rs1 offset =>
    word.extractLsb' 0 7 = 0x23 ∧ word.extractLsb' 12 3 = 2 ∧ word.extractLsb' 20 5 = rs2 ∧
      word.extractLsb' 15 5 = rs1 ∧ immediateS word = offset
  | .ebreak => word = 0x00100073

section Words

variable (imm f7 rs2 rs1 f3 rd op : Word)

/-- The fields of an encoding of I are its arguments. -/
theorem encI_fields :
    (encI imm rs1 f3 rd op).extractLsb' 0 7 = op.setWidth 7 ∧
      (encI imm rs1 f3 rd op).extractLsb' 7 5 = rd.setWidth 5 ∧
      (encI imm rs1 f3 rd op).extractLsb' 12 3 = f3.setWidth 3 ∧
      (encI imm rs1 f3 rd op).extractLsb' 15 5 = rs1.setWidth 5 ∧
      (encI imm rs1 f3 rd op).extractLsb' 20 12 = imm.setWidth 12 := by
  rw [encI_joined]
  simp (disch := decide) only [BitVec.extractLsb'_append_eq_of_le,
    BitVec.extractLsb'_append_eq_of_add_le, BitVec.extractLsb'_eq_self, Nat.sub_self,
    Nat.reduceSub, and_self]

/-- The fields of an immediate shift are the two parts of its immediate. -/
theorem encI_shift :
    (encI imm rs1 f3 rd op).extractLsb' 20 5 = imm.setWidth 5 ∧
      (encI imm rs1 f3 rd op).extractLsb' 25 7 = imm.extractLsb' 5 7 := by
  rw [encI_joined]
  constructor
  · simp (disch := decide) only [BitVec.extractLsb'_append_eq_of_le, Nat.sub_self, Nat.reduceSub,
      BitVec.extractLsb'_setWidth_of_le]
    exact (BitVec.setWidth_eq_extractLsb' (by decide)).symm
  · simp (disch := decide) only [BitVec.extractLsb'_append_eq_of_le, Nat.reduceSub,
      BitVec.extractLsb'_setWidth_of_le]

theorem encR_fields :
    (encR f7 rs2 rs1 f3 rd op).extractLsb' 0 7 = op.setWidth 7 ∧
      (encR f7 rs2 rs1 f3 rd op).extractLsb' 7 5 = rd.setWidth 5 ∧
      (encR f7 rs2 rs1 f3 rd op).extractLsb' 12 3 = f3.setWidth 3 ∧
      (encR f7 rs2 rs1 f3 rd op).extractLsb' 15 5 = rs1.setWidth 5 ∧
      (encR f7 rs2 rs1 f3 rd op).extractLsb' 20 5 = rs2.setWidth 5 ∧
      (encR f7 rs2 rs1 f3 rd op).extractLsb' 25 7 = f7.setWidth 7 := by
  rw [encR_joined]
  simp (disch := decide) only [BitVec.extractLsb'_append_eq_of_le,
    BitVec.extractLsb'_append_eq_of_add_le, BitVec.extractLsb'_eq_self, Nat.sub_self,
    Nat.reduceSub, and_self]

/-- The fields of an encoding of S; its immediate is the argument, narrowed. -/
theorem encS_fields :
    (encS imm rs2 rs1 f3 op).extractLsb' 0 7 = op.setWidth 7 ∧
      (encS imm rs2 rs1 f3 op).extractLsb' 12 3 = f3.setWidth 3 ∧
      (encS imm rs2 rs1 f3 op).extractLsb' 15 5 = rs1.setWidth 5 ∧
      (encS imm rs2 rs1 f3 op).extractLsb' 20 5 = rs2.setWidth 5 ∧
      immediateS (encS imm rs2 rs1 f3 op) = (imm.setWidth 12).signExtend 32 := by
  have joined : imm.extractLsb' 5 7 ++ imm.setWidth 5 = imm.setWidth 12 := by
    rw [BitVec.setWidth_eq_extractLsb' (by decide), BitVec.setWidth_eq_extractLsb' (by decide)]
    exact BitVec.extractLsb'_append_extractLsb'_eq_extractLsb' rfl
  rw [immediateS, encS_joined]
  simp (disch := decide) only [BitVec.extractLsb'_append_eq_of_le,
    BitVec.extractLsb'_append_eq_of_add_le, BitVec.extractLsb'_eq_self, Nat.sub_self,
    Nat.reduceSub, true_and]
  exact congrArg (BitVec.signExtend 32) joined

/-- The fields of an encoding of B. -/
theorem encB_fields :
    (encB imm rs2 rs1 f3 op).extractLsb' 0 7 = op.setWidth 7 ∧
      (encB imm rs2 rs1 f3 op).extractLsb' 12 3 = f3.setWidth 3 ∧
      (encB imm rs2 rs1 f3 op).extractLsb' 15 5 = rs1.setWidth 5 ∧
      (encB imm rs2 rs1 f3 op).extractLsb' 20 5 = rs2.setWidth 5 ∧
      immediateB (encB imm rs2 rs1 f3 op) = (imm.extractLsb' 1 12 ++ 0#1).signExtend 32 := by
  have joined : imm.extractLsb' 12 1 ++ imm.extractLsb' 11 1 ++ imm.extractLsb' 5 6 ++
      imm.extractLsb' 1 4 = imm.extractLsb' 1 12 := by
    simp (disch := decide) only [BitVec.extractLsb'_append_extractLsb'_eq_extractLsb']
  rw [immediateB, encB_joined]
  simp (disch := decide) only [BitVec.extractLsb'_append_eq_of_le,
    BitVec.extractLsb'_append_eq_of_add_le, BitVec.extractLsb'_eq_self, Nat.sub_self,
    Nat.reduceSub, true_and]
  exact congrArg (fun field : BitVec 12 => (field ++ 0#1).signExtend 32) joined

/-- The fields of an encoding of J. -/
theorem encJ_fields :
    (encJ imm rd op).extractLsb' 0 7 = op.setWidth 7 ∧
      (encJ imm rd op).extractLsb' 7 5 = rd.setWidth 5 ∧
      immediateJ (encJ imm rd op) = (imm.extractLsb' 1 20 ++ 0#1).signExtend 32 := by
  have joined : imm.extractLsb' 20 1 ++ imm.extractLsb' 12 8 ++ imm.extractLsb' 11 1 ++
      imm.extractLsb' 1 10 = imm.extractLsb' 1 20 := by
    simp (disch := decide) only [BitVec.extractLsb'_append_extractLsb'_eq_extractLsb']
  rw [immediateJ, encJ_joined]
  simp (disch := decide) only [BitVec.extractLsb'_append_eq_of_le,
    BitVec.extractLsb'_append_eq_of_add_le, BitVec.extractLsb'_eq_self, Nat.sub_self,
    Nat.reduceSub, true_and]
  exact congrArg (fun field : BitVec 20 => (field ++ 0#1).signExtend 32) joined

/-- The fields of an encoding of U. -/
theorem encU_fields :
    (encU imm rd op).extractLsb' 0 7 = op.setWidth 7 ∧
      (encU imm rd op).extractLsb' 7 5 = rd.setWidth 5 ∧
      immediateU (encU imm rd op) = imm.extractLsb' 12 20 ++ 0#12 := by
  rw [immediateU, encU_joined]
  simp (disch := decide) only [BitVec.extractLsb'_append_eq_of_le,
    BitVec.extractLsb'_append_eq_of_add_le, BitVec.extractLsb'_eq_self, Nat.sub_self,
    Nat.reduceSub, and_self]

end Words

/-! ## Fields of a halfword -/

section Halfwords

variable (c : Half)

theorem bits_one (start : Nat) :
    (c.setWidth 32 >>> start) &&& 1 = (c.extractLsb' start 1).setWidth 32 :=
  BitFields.slice_wide c start 1 (by decide)

theorem bits_two (start : Nat) :
    (c.setWidth 32 >>> start) &&& 3 = (c.extractLsb' start 2).setWidth 32 :=
  BitFields.slice_wide c start 2 (by decide)

theorem bits_three (start : Nat) :
    (c.setWidth 32 >>> start) &&& 7 = (c.extractLsb' start 3).setWidth 32 :=
  BitFields.slice_wide c start 3 (by decide)

theorem bits_four (start : Nat) :
    (c.setWidth 32 >>> start) &&& 0xF = (c.extractLsb' start 4).setWidth 32 :=
  BitFields.slice_wide c start 4 (by decide)

theorem bits_five (start : Nat) :
    (c.setWidth 32 >>> start) &&& 0x1F = (c.extractLsb' start 5).setWidth 32 :=
  BitFields.slice_wide c start 5 (by decide)

/-- The top three bits select as a number does. -/
theorem cF3_iff (k : BitVec 3) : cF3 (c.setWidth 32) = k.setWidth 32 ↔ c.extractLsb' 13 3 = k := by
  rw [cF3, bits_three]
  exact BitFields.wide_inj _ _ (by decide)

theorem cRd_iff (k : Reg) : cRd (c.setWidth 32) = k.setWidth 32 ↔ c.extractLsb' 7 5 = k := by
  rw [cRd, bits_five]
  exact BitFields.wide_inj _ _ (by decide)

theorem cRs2_iff (k : Reg) : cRs2 (c.setWidth 32) = k.setWidth 32 ↔ c.extractLsb' 2 5 = k := by
  rw [cRs2, bits_five]
  exact BitFields.wide_inj _ _ (by decide)

theorem cRd_field : (cRd (c.setWidth 32)).setWidth 5 = c.extractLsb' 7 5 := by
  rw [cRd, bits_five, BitVec.setWidth_setWidth (by decide), BitVec.setWidth_eq]

theorem cRs2_field : (cRs2 (c.setWidth 32)).setWidth 5 = c.extractLsb' 2 5 := by
  rw [cRs2, bits_five, BitVec.setWidth_setWidth (by decide), BitVec.setWidth_eq]

/-- Adding eight to a three-bit field is putting `01` before it. -/
theorem eight_near (field : BitVec 3) : (8 + field.setWidth 32 : Word).setWidth 5 = 1#2 ++ field := by
  revert field
  decide

theorem cRs1p_field : (cRs1p (c.setWidth 32)).setWidth 5 = near c 7 := by
  rw [cRs1p, bits_three]
  exact eight_near (c.extractLsb' 7 3)

theorem cRdp_field : (cRdp (c.setWidth 32)).setWidth 5 = near c 2 := by
  rw [cRdp, bits_three]
  exact eight_near (c.extractLsb' 2 3)

theorem cRs2p_field : (cRs2p (c.setWidth 32)).setWidth 5 = near c 2 := by
  rw [cRs2p, bits_three]
  exact eight_near (c.extractLsb' 2 3)

theorem cImm6_field : cImm6 (c.setWidth 32) = (immediateCI c).setWidth 32 := by
  rw [cImm6, bits_one, bits_five, immediateCI, BitVec.setWidth_append_eq_shiftLeft_setWidth_or]

theorem cUimmAddi4spn_field : cUimmAddi4spn (c.setWidth 32) = (immediateCIW c).setWidth 32 := by
  simp only [cUimmAddi4spn, bits_one, bits_two, bits_four, immediateCIW,
    BitVec.setWidth_append_eq_shiftLeft_setWidth_or, BitVec.shiftLeft_or_distrib,
    ← BitVec.shiftLeft_add, BitVec.setWidth_zero, BitVec.or_zero]
  ac_rfl

theorem cUimmLw_field : cUimmLw (c.setWidth 32) = (immediateCL c).setWidth 32 := by
  simp only [cUimmLw, bits_one, bits_three, immediateCL,
    BitVec.setWidth_append_eq_shiftLeft_setWidth_or, BitVec.shiftLeft_or_distrib,
    ← BitVec.shiftLeft_add, BitVec.setWidth_zero, BitVec.or_zero]
  ac_rfl

theorem cUimmLwsp_field : cUimmLwsp (c.setWidth 32) = (immediateLwsp c).setWidth 32 := by
  simp only [cUimmLwsp, bits_one, bits_two, bits_three, immediateLwsp,
    BitVec.setWidth_append_eq_shiftLeft_setWidth_or, BitVec.shiftLeft_or_distrib,
    ← BitVec.shiftLeft_add, BitVec.setWidth_zero, BitVec.or_zero]
  ac_rfl

theorem cUimmSwsp_field : cUimmSwsp (c.setWidth 32) = (immediateCSS c).setWidth 32 := by
  simp only [cUimmSwsp, bits_two, bits_four, immediateCSS,
    BitVec.setWidth_append_eq_shiftLeft_setWidth_or, BitVec.shiftLeft_or_distrib,
    ← BitVec.shiftLeft_add, BitVec.setWidth_zero, BitVec.or_zero]
  ac_rfl

theorem cImmB_field : cImmB (c.setWidth 32) = (immediateCB c).setWidth 32 := by
  simp only [cImmB, bits_one, bits_two, immediateCB,
    BitVec.setWidth_append_eq_shiftLeft_setWidth_or, BitVec.shiftLeft_or_distrib,
    ← BitVec.shiftLeft_add, BitVec.setWidth_zero, BitVec.or_zero]
  ac_rfl

theorem cImmJ_field : cImmJ (c.setWidth 32) = (immediateCJ c).setWidth 32 := by
  simp only [cImmJ, bits_one, bits_two, bits_three, immediateCJ,
    BitVec.setWidth_append_eq_shiftLeft_setWidth_or, BitVec.shiftLeft_or_distrib,
    ← BitVec.shiftLeft_add, BitVec.setWidth_zero, BitVec.or_zero]
  ac_rfl

theorem cImmAddi16sp_field : cImmAddi16sp (c.setWidth 32) = (immediateSp c).setWidth 32 := by
  simp only [cImmAddi16sp, bits_one, bits_two, immediateSp,
    BitVec.setWidth_append_eq_shiftLeft_setWidth_or, BitVec.shiftLeft_or_distrib,
    ← BitVec.shiftLeft_add, BitVec.setWidth_zero, BitVec.or_zero]
  ac_rfl

end Halfwords

/-! ## Expansions -/

/-- An immediate widened by zeros comes back from a twelve-bit field. -/
theorem unsigned_narrow {m : Nat} (field : BitVec m) (positive : m < 12) :
    ((field.setWidth 32).setWidth 12).signExtend 32 = field.setWidth 32 := by
  rw [BitVec.setWidth_setWidth (by omega)]
  exact BitFields.signExtend_wide field 12 positive

/-- A sign-extended offset without its lowest bit comes back from a narrower field. -/
theorem offset_narrow {m : Nat} (field : BitVec m) (n : Nat) (holds : m ≤ n) (small : n < 32) :
    (((field ++ 0#1).signExtend 32).extractLsb' 1 n ++ 0#1).signExtend 32 =
      (field ++ 0#1).signExtend 32 := by
  have even : ((field ++ 0#1).signExtend 32).getLsbD 0 = false := by
    rw [BitVec.getLsbD_signExtend, BitVec.getLsbD_append]
    simp
  rw [BitFields.even_join _ n even]
  exact BitFields.signExtend_narrow (field ++ 0#1) (n + 1) (by omega) (by omega)

/-- The upper immediate of `c.lui`. -/
theorem upper_narrow (field : BitVec 6) :
    (field.signExtend 32 <<< 12).extractLsb' 12 20 ++ 0#12 = (field ++ 0#12).signExtend 32 := by
  revert field
  decide

section Words

variable (imm f7 rs2 rs1 f3 rd : Word)

theorem ofWord_opImm (operation : Operation)
    (other : ¬ (f3.setWidth 3 = 1 ∨ f3.setWidth 3 = 5))
    (selected : operationOf 0x00 (f3.setWidth 3) = some operation) :
    Base.ofWord (encI imm rs1 f3 rd 0x13) =
      some (.opImm operation (rd.setWidth 5) (rs1.setWidth 5) ((imm.setWidth 12).signExtend 32)) := by
  obtain ⟨opcode, rdField, f3Field, rs1Field, immField⟩ := encI_fields imm rs1 f3 rd 0x13
  change _ = 0x13#7 at opcode
  simp only [Base.ofWord, opcode, immediateForm, rdField, f3Field, rs1Field, if_neg other, selected,
    Option.map_some, immediateI, immField]

theorem ofWord_shift (operation : Operation) (shift : f3.setWidth 3 = 1 ∨ f3.setWidth 3 = 5)
    (selected : operationOf (imm.extractLsb' 5 7) (f3.setWidth 3) = some operation) :
    Base.ofWord (encI imm rs1 f3 rd 0x13) =
      some (.opImm operation (rd.setWidth 5) (rs1.setWidth 5) ((imm.setWidth 5).setWidth 32)) := by
  obtain ⟨opcode, rdField, f3Field, rs1Field, -⟩ := encI_fields imm rs1 f3 rd 0x13
  obtain ⟨amount, upper⟩ := encI_shift imm rs1 f3 rd 0x13
  change _ = 0x13#7 at opcode
  simp only [Base.ofWord, opcode, immediateForm, rdField, f3Field, rs1Field, if_pos shift, upper,
    amount, selected, Option.map_some]

theorem ofWord_op (operation : Operation)
    (selected : operationOf (f7.setWidth 7) (f3.setWidth 3) = some operation) :
    Base.ofWord (encR f7 rs2 rs1 f3 rd 0x33) =
      some (.op operation (rd.setWidth 5) (rs1.setWidth 5) (rs2.setWidth 5)) := by
  obtain ⟨opcode, rdField, f3Field, rs1Field, rs2Field, f7Field⟩ :=
    encR_fields f7 rs2 rs1 f3 rd 0x33
  change _ = 0x33#7 at opcode
  simp only [Base.ofWord, opcode, rdField, f3Field, rs1Field, rs2Field, f7Field, selected,
    Option.map_some]

theorem ofWord_jalr :
    Base.ofWord (encI imm rs1 0 rd 0x67) =
      some (.jalr (rd.setWidth 5) (rs1.setWidth 5) ((imm.setWidth 12).signExtend 32)) := by
  obtain ⟨opcode, rdField, f3Field, rs1Field, immField⟩ := encI_fields imm rs1 0 rd 0x67
  change _ = 0x67#7 at opcode
  change _ = 0#3 at f3Field
  simp only [Base.ofWord, opcode, f3Field, rdField, rs1Field, immediateI, immField]
  rfl

theorem ofWord_jal {m : Nat} (field : BitVec m) (holds : m ≤ 20) :
    Base.ofWord (encJ ((field ++ 0#1).signExtend 32) rd 0x6F) =
      some (.jal (rd.setWidth 5) ((field ++ 0#1).signExtend 32)) := by
  obtain ⟨opcode, rdField, offset⟩ := encJ_fields ((field ++ 0#1).signExtend 32) rd 0x6F
  change _ = 0x6F#7 at opcode
  rw [offset_narrow field 20 holds (by decide)] at offset
  simp only [Base.ofWord, opcode, rdField, offset]

theorem ofWord_branch {m : Nat} (field : BitVec m) (holds : m ≤ 12) (comparison : Comparison)
    (selected : comparisonOf (f3.setWidth 3) = some comparison) :
    Base.ofWord (encB ((field ++ 0#1).signExtend 32) rs2 rs1 f3 0x63) =
      some (.branch comparison (rs1.setWidth 5) (rs2.setWidth 5) ((field ++ 0#1).signExtend 32)) := by
  obtain ⟨opcode, f3Field, rs1Field, rs2Field, offset⟩ :=
    encB_fields ((field ++ 0#1).signExtend 32) rs2 rs1 f3 0x63
  change _ = 0x63#7 at opcode
  rw [offset_narrow field 12 holds (by decide)] at offset
  simp only [Base.ofWord, opcode, f3Field, rs1Field, rs2Field, offset, selected, Option.map_some]

theorem ofWord_lui (field : BitVec 6) :
    Base.ofWord (encU (field.signExtend 32 <<< 12) rd 0x37) =
      some (.lui (rd.setWidth 5) ((field ++ 0#12).signExtend 32)) := by
  obtain ⟨opcode, rdField, upper⟩ := encU_fields (field.signExtend 32 <<< 12) rd 0x37
  change _ = 0x37#7 at opcode
  rw [upper_narrow] at upper
  simp only [Base.ofWord, opcode, rdField, upper]

theorem encodes_lw {m : Nat} (field : BitVec m) (positive : m < 12) :
    Encodes (encI (field.setWidth 32) rs1 2 rd 0x03)
      (.lw (rd.setWidth 5) (rs1.setWidth 5) (field.setWidth 32)) := by
  obtain ⟨opcode, rdField, f3Field, rs1Field, immField⟩ :=
    encI_fields (field.setWidth 32) rs1 2 rd 0x03
  have offset : immediateI (encI (field.setWidth 32) rs1 2 rd 0x03) = field.setWidth 32 := by
    rw [immediateI, immField]
    exact unsigned_narrow field positive
  exact ⟨opcode, f3Field, rdField, rs1Field, offset⟩

theorem encodes_sw {m : Nat} (field : BitVec m) (positive : m < 12) :
    Encodes (encS (field.setWidth 32) rs2 rs1 2 0x23)
      (.sw (rs2.setWidth 5) (rs1.setWidth 5) (field.setWidth 32)) := by
  obtain ⟨opcode, f3Field, rs1Field, rs2Field, offset⟩ :=
    encS_fields (field.setWidth 32) rs2 rs1 2 0x23
  rw [unsigned_narrow field positive] at offset
  exact ⟨opcode, f3Field, rs2Field, rs1Field, offset⟩

end Words

section Quadrants

variable (c : Half) (raw : Word)

/-- An addition of a signed immediate. -/
theorem ofWord_signed (rs1 rd : Word) {m : Nat} (field : BitVec m) (holds : m ≤ 12) :
    Base.ofWord (encI (field.signExtend 32) rs1 0 rd 0x13) =
      some (.opImm .add (rd.setWidth 5) (rs1.setWidth 5) (field.signExtend 32)) := by
  rw [ofWord_opImm _ rs1 0 rd .add (by decide) rfl,
    BitFields.signExtend_narrow field 12 holds (by decide)]

theorem expandQuadrant0_encodes (quadrant : c.extractLsb' 0 2 = 0#2)
    (accepted : expandQuadrant0 (c.setWidth 32) = some raw) :
    ∃ instr, Instruction.ofHalf c = some instr ∧ Encodes raw instr := by
  simp only [expandQuadrant0, cUimmAddi4spn_field, cUimmLw_field] at accepted
  split at accepted
  · rename_i f3
    have selected := (cF3_iff c 0#3).mp f3
    split at accepted
    · cases accepted
    · rename_i nonzero
      cases accepted
      have present : ¬ immediateCIW c = 0 :=
        fun zero => nonzero ((BitFields.wide_inj _ 0 (by decide)).mpr zero)
      refine ⟨.base (.opImm .add (near c 2) 2 ((immediateCIW c).setWidth 32)), ?_, ?_⟩
      · simp only [Instruction.ofHalf, quadrant, selected, if_neg present]
      · rw [Encodes, ofWord_opImm _ 2 0 _ .add (by decide) rfl, cRdp_field,
          unsigned_narrow _ (by decide)]
        rfl
  · split at accepted
    · rename_i f3
      have selected := (cF3_iff c 2#3).mp f3
      cases accepted
      have encoded := encodes_lw (cRs1p (c.setWidth 32)) (cRdp (c.setWidth 32)) (immediateCL c)
        (by decide)
      rw [cRs1p_field, cRdp_field] at encoded
      refine ⟨_, ?_, encoded⟩
      simp only [Instruction.ofHalf, quadrant, selected]
    · split at accepted
      · rename_i f3
        have selected := (cF3_iff c 6#3).mp f3
        cases accepted
        have encoded := encodes_sw (cRs2p (c.setWidth 32)) (cRs1p (c.setWidth 32)) (immediateCL c)
          (by decide)
        rw [cRs1p_field, cRs2p_field] at encoded
        refine ⟨_, ?_, encoded⟩
        simp only [Instruction.ofHalf, quadrant, selected]
      · cases accepted

/-- An amount below 32 has no sixth bit. -/
theorem amount_small (top : BitVec 1) (low : BitVec 5)
    (small : ¬ (top ++ low).setWidth 32 ≥ (32 : Word)) : top = 0#1 := by
  revert top low
  decide

/-- An amount of five bits below the upper bits that select the shift. -/
theorem ofWord_amount (amount : BitVec 5) (upper f3 rd : Word) (operation : Operation)
    (shift : f3.setWidth 3 = 1 ∨ f3.setWidth 3 = 5) (clear : upper.setWidth 5 = 0#5)
    (selected : operationOf (upper.extractLsb' 5 7) (f3.setWidth 3) = some operation) :
    Base.ofWord (encI (amount.setWidth 32 ||| upper) rd f3 rd 0x13) =
      some (.opImm operation (rd.setWidth 5) (rd.setWidth 5) (amount.setWidth 32)) := by
  have above : ∀ field : BitVec 5, (field.setWidth 32).extractLsb' 5 7 = 0#7 := by
    decide
  have low : (amount.setWidth 32 ||| upper).setWidth 5 = amount := by
    rw [BitVec.setWidth_or, clear, BitVec.or_zero, BitVec.setWidth_setWidth (by decide),
      BitVec.setWidth_eq]
  have high : (amount.setWidth 32 ||| upper).extractLsb' 5 7 = upper.extractLsb' 5 7 := by
    rw [BitVec.extractLsb'_or, above amount, BitVec.zero_or]
  rw [ofWord_shift _ rd f3 rd operation shift (high ▸ selected), low]

/-- The shift amount of CI, when it is one. -/
theorem amount_field (small : ¬ (immediateCI c).setWidth 32 ≥ (32 : Word)) :
    c.extractLsb' 12 1 = 0#1 ∧ (immediateCI c).setWidth 32 = (c.extractLsb' 2 5).setWidth 32 := by
  have top := amount_small _ _ small
  refine ⟨top, ?_⟩
  rw [immediateCI, top, BitVec.setWidth_append_eq_shiftLeft_setWidth_or]
  simp

/-- The last of the four values of a field. -/
theorem last_two (field : BitVec 2) (not0 : field ≠ 0#2) (not1 : field ≠ 1#2)
    (not2 : field ≠ 2#2) : field = 3#2 := by
  revert field
  decide

/-- The immediate of CI as the shifts and `c.slli` put it together. -/
theorem amount_joined :
    (c.extractLsb' 12 1).setWidth 32 <<< 5 ||| (c.extractLsb' 2 5).setWidth 32 =
      (immediateCI c).setWidth 32 :=
  BitVec.setWidth_append_eq_shiftLeft_setWidth_or.symm

/-- The field that selects in the arithmetic group. -/
theorem group_iff (k : BitVec 2) :
    (c.extractLsb' 10 2).setWidth 32 = k.setWidth 32 ↔ c.extractLsb' 10 2 = k :=
  BitFields.wide_inj _ _ (by decide)

/-- The field that selects among the register forms of the group. -/
theorem register_iff (k : BitVec 2) :
    (c.extractLsb' 5 2).setWidth 32 = k.setWidth 32 ↔ c.extractLsb' 5 2 = k :=
  BitFields.wide_inj _ _ (by decide)

/-- The shifts to the right. -/
theorem expandShift_encodes (shift : c.extractLsb' 10 2 = 0#2 ∨ c.extractLsb' 10 2 = 1#2)
    (accepted : expandArith (c.setWidth 32) = some raw) :
    ∃ form, arithmetic c = some form ∧ Base.ofWord raw = some form := by
  have chosen : (c.extractLsb' 10 2).setWidth 32 = (0 : Word) ∨
      (c.extractLsb' 10 2).setWidth 32 = (1 : Word) :=
    shift.imp (group_iff c 0#2).mpr (group_iff c 1#2).mpr
  simp only [expandArith, bits_one, bits_two, bits_five, amount_joined, if_pos chosen] at accepted
  split at accepted
  · cases accepted
  · rename_i small
    obtain ⟨top, amount⟩ := amount_field c small
    cases accepted
    rw [amount]
    rcases shift with right | arith
    · refine ⟨.opImm .srl (near c 7) (near c 7) ((c.extractLsb' 2 5).setWidth 32), ?_, ?_⟩
      · simp only [arithmetic, right, top]
      · have logical : ¬ (c.extractLsb' 10 2).setWidth 32 = (1 : Word) := by
          rw [right]
          decide
        rw [if_neg logical,
          ofWord_amount _ 0 5 _ .srl (Or.inr rfl) (by decide) (by decide), cRs1p_field]
    · refine ⟨.opImm .sra (near c 7) (near c 7) ((c.extractLsb' 2 5).setWidth 32), ?_, ?_⟩
      · simp only [arithmetic, arith, top]
      · have sign : (c.extractLsb' 10 2).setWidth 32 = (1 : Word) := (group_iff c 1#2).mpr arith
        rw [if_pos sign,
          ofWord_amount _ 0x400 5 _ .sra (Or.inr rfl) (by decide) (by decide), cRs1p_field]

/-- The conjunction with an immediate. -/
theorem expandMask_encodes (mask : c.extractLsb' 10 2 = 2#2)
    (accepted : expandArith (c.setWidth 32) = some raw) :
    ∃ form, arithmetic c = some form ∧ Base.ofWord raw = some form := by
  have chosen : (c.extractLsb' 10 2).setWidth 32 = (2 : Word) := (group_iff c 2#2).mpr mask
  simp only [expandArith, bits_two, chosen, BitVec.reduceEq, or_self, if_false, if_true] at accepted
  cases accepted
  refine ⟨.opImm .and (near c 7) (near c 7) ((immediateCI c).signExtend 32), ?_, ?_⟩
  · simp only [arithmetic, mask]
  · rw [cImm6_field, sext_field 5 (by decide), ofWord_opImm _ _ 7 _ .and (by decide) rfl,
      BitFields.signExtend_narrow _ 12 (by decide) (by decide), cRs1p_field]

/-- The forms with two registers. -/
theorem expandPair_encodes (pair : c.extractLsb' 10 2 = 3#2)
    (accepted : expandArith (c.setWidth 32) = some raw) :
    ∃ form, arithmetic c = some form ∧ Base.ofWord raw = some form := by
  have chosen : (c.extractLsb' 10 2).setWidth 32 = (3 : Word) := (group_iff c 3#2).mpr pair
  have encoded (f7 f3 : Word) (operation : Operation)
      (selected : operationOf (f7.setWidth 7) (f3.setWidth 3) = some operation) :
      Base.ofWord (encR f7 (cRs2p (c.setWidth 32)) (cRs1p (c.setWidth 32)) f3
        (cRs1p (c.setWidth 32)) 0x33) =
        some (.op operation (near c 7) (near c 7) (near c 2)) := by
    rw [ofWord_op f7 _ _ f3 _ operation selected, cRs1p_field, cRs2p_field]
  simp only [expandArith, bits_one, bits_two, chosen, BitVec.reduceEq, or_self,
    if_false] at accepted
  split at accepted
  · cases accepted
  · rename_i narrow
    have top : c.extractLsb' 12 1 = 0#1 :=
      (BitFields.wide_inj _ 0#1 (by decide)).mp (not_not.mp narrow)
    split at accepted
    · rename_i kind
      have two := (register_iff c 0#2).mp kind
      cases accepted
      refine ⟨_, ?_, encoded 0x20 0 .sub rfl⟩
      simp only [arithmetic, pair, top, two]
    · rename_i not0
      split at accepted
      · rename_i kind
        have two := (register_iff c 1#2).mp kind
        cases accepted
        refine ⟨_, ?_, encoded 0x00 4 .xor rfl⟩
        simp only [arithmetic, pair, top, two]
      · rename_i not1
        split at accepted
        · rename_i kind
          have two := (register_iff c 2#2).mp kind
          cases accepted
          refine ⟨_, ?_, encoded 0x00 6 .or rfl⟩
          simp only [arithmetic, pair, top, two]
        · rename_i not2
          have two := last_two _ (mt (register_iff c 0#2).mpr not0)
            (mt (register_iff c 1#2).mpr not1) (mt (register_iff c 2#2).mpr not2)
          cases accepted
          refine ⟨_, ?_, encoded 0x00 7 .and rfl⟩
          simp only [arithmetic, pair, top, two]

/-- The arithmetic group of quadrant 1 expands to what its fields say. -/
theorem expandArith_encodes (accepted : expandArith (c.setWidth 32) = some raw) :
    ∃ form, arithmetic c = some form ∧ Base.ofWord raw = some form := by
  by_cases shift : c.extractLsb' 10 2 = 0#2 ∨ c.extractLsb' 10 2 = 1#2
  · exact expandShift_encodes c raw shift accepted
  · obtain ⟨not0, not1⟩ := not_or.mp shift
    by_cases mask : c.extractLsb' 10 2 = 2#2
    · exact expandMask_encodes c raw mask accepted
    · exact expandPair_encodes c raw (last_two _ not0 not1 mask) accepted

/-- The last of the eight values of a field. -/
theorem last_three (field : BitVec 3) (not0 : field ≠ 0#3) (not1 : field ≠ 1#3)
    (not2 : field ≠ 2#3) (not3 : field ≠ 3#3) (not4 : field ≠ 4#3) (not5 : field ≠ 5#3)
    (not6 : field ≠ 6#3) : field = 7#3 := by
  have bound : field.toNat < 8 := field.isLt
  bv_omega

/-- `c.addi16sp` and `c.lui` share their top bits. -/
theorem expandUpper_encodes (quadrant : c.extractLsb' 0 2 = 1#2) (f3 : c.extractLsb' 13 3 = 3#3)
    (accepted : expandQuadrant1 (c.setWidth 32) = some raw) :
    ∃ instr, Instruction.ofHalf c = some instr ∧ Encodes raw instr := by
  have top : cF3 (c.setWidth 32) = 3 := (cF3_iff c 3#3).mpr f3
  simp only [expandQuadrant1, top, BitVec.reduceEq, if_false, if_true] at accepted
  by_cases sp : cRd (c.setWidth 32) = 2
  · rw [if_pos sp, cImmAddi16sp_field] at accepted
    have rd := (cRd_iff c 2#5).mp sp
    split at accepted
    · cases accepted
    · rename_i nonzero
      cases accepted
      have present : ¬ immediateSp c = 0 :=
        fun zero => nonzero ((BitFields.wide_inj _ 0 (by decide)).mpr zero)
      have encoded := ofWord_signed 2 2 (immediateSp c) (by decide)
      rw [← sext_field 9 (by decide)] at encoded
      refine ⟨.base _, ?_, encoded⟩
      simp only [Instruction.ofHalf, quadrant, f3, rd, if_neg present]
      rw [sext_field 9 (by decide)]
      rfl
  · rw [if_neg sp] at accepted
    have rd : ¬ c.extractLsb' 7 5 = 2 := mt (cRd_iff c 2#5).mpr sp
    split at accepted
    · cases accepted
    · split at accepted
      · cases accepted
      · rename_i nonzero
        rw [cImm6_field] at nonzero accepted
        cases accepted
        have present : ¬ immediateCI c = 0 :=
          fun zero => nonzero ((BitFields.wide_inj _ 0 (by decide)).mpr zero)
        have encoded := ofWord_lui (cRd (c.setWidth 32)) (immediateCI c)
        rw [cRd_field, ← sext_field 5 (by decide)] at encoded
        refine ⟨.base _, ?_, encoded⟩
        simp only [Instruction.ofHalf, quadrant, f3, if_neg rd, if_neg present]

theorem expandQuadrant1_encodes (quadrant : c.extractLsb' 0 2 = 1#2)
    (accepted : expandQuadrant1 (c.setWidth 32) = some raw) :
    ∃ instr, Instruction.ofHalf c = some instr ∧ Encodes raw instr := by
  have whole := accepted
  simp only [expandQuadrant1, cImm6_field, cImmJ_field, cImmB_field, sext_field 5 (by decide),
    sext_field 8 (by decide), sext_field 11 (by decide)] at accepted
  by_cases f0 : cF3 (c.setWidth 32) = 0
  · rw [if_pos f0] at accepted
    have f3 := (cF3_iff c 0#3).mp f0
    cases accepted
    have encoded := ofWord_signed (cRd (c.setWidth 32)) (cRd (c.setWidth 32)) (immediateCI c)
      (by decide)
    rw [cRd_field] at encoded
    refine ⟨.base _, ?_, encoded⟩
    simp only [Instruction.ofHalf, quadrant, f3]
  rw [if_neg f0] at accepted
  by_cases f1 : cF3 (c.setWidth 32) = 1
  · rw [if_pos f1] at accepted
    have f3 := (cF3_iff c 1#3).mp f1
    cases accepted
    refine ⟨.base _, ?_, ofWord_jal 1 _ (by decide)⟩
    simp only [Instruction.ofHalf, quadrant, f3]
    rfl
  rw [if_neg f1] at accepted
  by_cases f2 : cF3 (c.setWidth 32) = 2
  · rw [if_pos f2] at accepted
    have f3 := (cF3_iff c 2#3).mp f2
    cases accepted
    have encoded := ofWord_signed 0 (cRd (c.setWidth 32)) (immediateCI c) (by decide)
    rw [cRd_field] at encoded
    refine ⟨.base _, ?_, encoded⟩
    simp only [Instruction.ofHalf, quadrant, f3]
    rfl
  rw [if_neg f2] at accepted
  by_cases f3 : cF3 (c.setWidth 32) = 3
  · rw [if_pos f3] at accepted
    exact expandUpper_encodes c raw quadrant ((cF3_iff c 3#3).mp f3) whole
  rw [if_neg f3] at accepted
  by_cases f4 : cF3 (c.setWidth 32) = 4
  · rw [if_pos f4] at accepted
    have f3 := (cF3_iff c 4#3).mp f4
    obtain ⟨form, group, encoded⟩ := expandArith_encodes c raw accepted
    refine ⟨.base form, ?_, encoded⟩
    simp only [Instruction.ofHalf, quadrant, f3, group, Option.map_some]
  rw [if_neg f4] at accepted
  by_cases f5 : cF3 (c.setWidth 32) = 5
  · rw [if_pos f5] at accepted
    have f3 := (cF3_iff c 5#3).mp f5
    cases accepted
    refine ⟨.base _, ?_, ofWord_jal 0 _ (by decide)⟩
    simp only [Instruction.ofHalf, quadrant, f3]
    rfl
  rw [if_neg f5] at accepted
  by_cases f6 : cF3 (c.setWidth 32) = 6
  · rw [if_pos f6] at accepted
    have f3 := (cF3_iff c 6#3).mp f6
    cases accepted
    refine ⟨.base (.branch .eq (near c 7) 0 ((immediateCB c).signExtend 32)), ?_, ?_⟩
    · simp only [Instruction.ofHalf, quadrant, f3]
    · rw [Encodes, ← cRs1p_field]
      exact ofWord_branch 0 _ 0 _ (by decide) .eq rfl
  rw [if_neg f6] at accepted
  have f3 : c.extractLsb' 13 3 = 7#3 :=
    last_three _ (mt (cF3_iff c 0#3).mpr f0) (mt (cF3_iff c 1#3).mpr f1)
      (mt (cF3_iff c 2#3).mpr f2) (mt (cF3_iff c 3#3).mpr f3) (mt (cF3_iff c 4#3).mpr f4)
      (mt (cF3_iff c 5#3).mpr f5) (mt (cF3_iff c 6#3).mpr f6)
  cases accepted
  refine ⟨.base (.branch .ne (near c 7) 0 ((immediateCB c).signExtend 32)), ?_, ?_⟩
  · simp only [Instruction.ofHalf, quadrant, f3]
  · rw [Encodes, ← cRs1p_field]
    exact ofWord_branch 0 _ 1 _ (by decide) .ne rfl

/-- The register forms of quadrant 2 expand to what their fields say. -/
theorem expandRegisters_encodes (f3 : c.extractLsb' 13 3 = 4#3)
    (accepted : expandQuadrant2 (c.setWidth 32) = some raw) :
    ∃ instr, registers c = some instr ∧ Encodes raw instr := by
  have chosen : cF3 (c.setWidth 32) = 4 := (cF3_iff c 4#3).mpr f3
  have high := BitFields.wide_inj (w := 32) (c.extractLsb' 12 1) 0#1 (by decide)
  have move (rs1 : Word) := ofWord_op 0 (cRs2 (c.setWidth 32)) rs1 0 (cRd (c.setWidth 32)) .add rfl
  have jump (link : Word) := ofWord_jalr 0 (cRd (c.setWidth 32)) link
  simp only [cRd_field, cRs2_field] at move jump
  simp only [expandQuadrant2, chosen, BitVec.reduceEq, if_false, if_true, bits_one] at accepted
  by_cases top : (c.extractLsb' 12 1).setWidth 32 = (0 : Word)
  · rw [if_pos top] at accepted
    have bit : c.extractLsb' 12 1 = 0 := high.mp top
    split at accepted
    · rename_i rs2Zero
      have rs2 : ¬ c.extractLsb' 2 5 ≠ 0 := not_not.mpr ((cRs2_iff c 0).mp rs2Zero)
      split at accepted
      · cases accepted
      · rename_i rdNonzero
        have rd : c.extractLsb' 7 5 ≠ 0 := mt (cRd_iff c 0).mpr rdNonzero
        cases accepted
        refine ⟨.base _, ?_, jump 0⟩
        simp only [registers, if_pos bit, if_neg rs2, if_pos rd]
        rfl
    · rename_i rs2Nonzero
      have rs2 : c.extractLsb' 2 5 ≠ 0 := mt (cRs2_iff c 0).mpr rs2Nonzero
      cases accepted
      refine ⟨.base _, ?_, move 0⟩
      simp only [registers, if_pos bit, if_pos rs2]
      rfl
  · rw [if_neg top] at accepted
    have bit : ¬ c.extractLsb' 12 1 = 0 := mt high.mpr top
    split at accepted
    · rename_i rs2Zero
      have rs2 : ¬ c.extractLsb' 2 5 ≠ 0 := not_not.mpr ((cRs2_iff c 0).mp rs2Zero)
      split at accepted
      · rename_i rdZero
        have rd : ¬ c.extractLsb' 7 5 ≠ 0 := not_not.mpr ((cRd_iff c 0).mp rdZero)
        cases accepted
        refine ⟨.ebreak, ?_, rfl⟩
        simp only [registers, if_neg bit, if_neg rs2, if_neg rd]
      · rename_i rdNonzero
        have rd : c.extractLsb' 7 5 ≠ 0 := mt (cRd_iff c 0).mpr rdNonzero
        cases accepted
        refine ⟨.base _, ?_, jump 1⟩
        simp only [registers, if_neg bit, if_neg rs2, if_pos rd]
        rfl
    · rename_i rs2Nonzero
      have rs2 : c.extractLsb' 2 5 ≠ 0 := mt (cRs2_iff c 0).mpr rs2Nonzero
      have encoded := move (cRd (c.setWidth 32))
      rw [cRd_field] at encoded
      cases accepted
      refine ⟨.base _, ?_, encoded⟩
      simp only [registers, if_neg bit, if_pos rs2]

theorem expandQuadrant2_encodes (quadrant : c.extractLsb' 0 2 = 2#2)
    (accepted : expandQuadrant2 (c.setWidth 32) = some raw) :
    ∃ instr, Instruction.ofHalf c = some instr ∧ Encodes raw instr := by
  have whole := accepted
  simp only [expandQuadrant2, bits_one, bits_five, amount_joined, cUimmLwsp_field,
    cUimmSwsp_field] at accepted
  by_cases f0 : cF3 (c.setWidth 32) = 0
  · rw [if_pos f0] at accepted
    have f3 := (cF3_iff c 0#3).mp f0
    split at accepted
    · cases accepted
    · rename_i small
      obtain ⟨top, amount⟩ := amount_field c small
      have bit : c.extractLsb' 12 1 = 0 := top
      have encoded := ofWord_amount (c.extractLsb' 2 5) 0#32 1 (cRd (c.setWidth 32)) .sll
        (Or.inl rfl) (by decide) (by decide)
      rw [BitVec.or_zero, cRd_field] at encoded
      rw [amount] at accepted
      cases accepted
      refine ⟨.base _, ?_, encoded⟩
      simp only [Instruction.ofHalf, quadrant, f3, if_pos bit]
  rw [if_neg f0] at accepted
  by_cases f2 : cF3 (c.setWidth 32) = 2
  · rw [if_pos f2] at accepted
    have f3 := (cF3_iff c 2#3).mp f2
    split at accepted
    · cases accepted
    · rename_i rdNonzero
      have rd : ¬ c.extractLsb' 7 5 = 0 := mt (cRd_iff c 0).mpr rdNonzero
      have encoded := encodes_lw 2 (cRd (c.setWidth 32)) (immediateLwsp c) (by decide)
      rw [cRd_field] at encoded
      cases accepted
      refine ⟨_, ?_, encoded⟩
      simp only [Instruction.ofHalf, quadrant, f3, if_neg rd]
      rfl
  rw [if_neg f2] at accepted
  by_cases f4 : cF3 (c.setWidth 32) = 4
  · have f3 := (cF3_iff c 4#3).mp f4
    obtain ⟨instr, reads, encoded⟩ := expandRegisters_encodes c raw f3 whole
    refine ⟨instr, ?_, encoded⟩
    simp only [Instruction.ofHalf, quadrant, f3]
    exact reads
  rw [if_neg f4] at accepted
  by_cases f6 : cF3 (c.setWidth 32) = 6
  · rw [if_pos f6] at accepted
    have f3 := (cF3_iff c 6#3).mp f6
    have encoded := encodes_sw (cRs2 (c.setWidth 32)) 2 (immediateCSS c) (by decide)
    rw [cRs2_field] at encoded
    cases accepted
    refine ⟨_, ?_, encoded⟩
    simp only [Instruction.ofHalf, quadrant, f3]
    rfl
  · rw [if_neg f6] at accepted
    cases accepted

end Quadrants

/-- An accepted halfword expands to a word that encodes its instruction. -/
theorem expand_encodes (c : Half) (raw : Word) (accepted : expandCompressed c = some raw) :
    ∃ instr, Instruction.ofHalf c = some instr ∧ Encodes raw instr := by
  have low : c.setWidth 32 &&& (3 : Word) = (c.extractLsb' 0 2).setWidth 32 := by
    have sliced := bits_two c 0
    rwa [BitVec.ushiftRight_zero] at sliced
  have selects (k : BitVec 2) : (c.extractLsb' 0 2).setWidth 32 = k.setWidth 32 ↔
      c.extractLsb' 0 2 = k :=
    BitFields.wide_inj _ _ (by decide)
  simp only [expandCompressed, low] at accepted
  split at accepted
  · rename_i quadrant
    exact expandQuadrant0_encodes c raw ((selects 0#2).mp quadrant) accepted
  · split at accepted
    · rename_i quadrant
      exact expandQuadrant1_encodes c raw ((selects 1#2).mp quadrant) accepted
    · split at accepted
      · rename_i quadrant
        exact expandQuadrant2_encodes c raw ((selects 2#2).mp quadrant) accepted
      · cases accepted

/-- A reserved halfword stands for no instruction. -/
theorem reserved_none (c : Half) (reserved : Reserved c) : Instruction.ofHalf c = none := by
  simp only [Reserved] at reserved
  split at reserved
  · rename_i quadrant f3
    simp only [Instruction.ofHalf, quadrant, f3, if_pos reserved]
  · rename_i quadrant f3
    rcases reserved with ⟨rd, zero⟩ | ⟨rd, zero⟩
    · simp only [Instruction.ofHalf, quadrant, f3, if_pos rd, if_pos zero]
    · simp only [Instruction.ofHalf, quadrant, f3, if_neg rd, if_pos zero]
  · rename_i quadrant f3
    have none : arithmetic c = none := by
      obtain ⟨other, top⟩ := reserved
      have bit : c.extractLsb' 12 1 = 1#1 := top
      have mask : ¬ c.extractLsb' 10 2 = 2#2 := other
      simp only [arithmetic, bit]
      split
      all_goals simp_all
    simp only [Instruction.ofHalf, quadrant, f3, none, Option.map_none]
  · rename_i quadrant f3
    have bit : ¬ c.extractLsb' 12 1 = 0 := by
      rw [reserved]
      decide
    simp only [Instruction.ofHalf, quadrant, f3, if_neg bit]
  · rename_i quadrant f3
    simp only [Instruction.ofHalf, quadrant, f3, if_pos reserved]
  · rename_i quadrant f3
    obtain ⟨top, rd, rs2⟩ := reserved
    have rdZero : ¬ c.extractLsb' 7 5 ≠ 0 := not_not.mpr rd
    have rs2Zero : ¬ c.extractLsb' 2 5 ≠ 0 := not_not.mpr rs2
    simp only [Instruction.ofHalf, quadrant, f3, registers, if_pos top, if_neg rdZero,
      if_neg rs2Zero]
  · exact reserved.elim

end RvEmu.Expansion
