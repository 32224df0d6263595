import RvEmu.EncodingInverse
import RvEmu.Foundation.WideArithmetic

/-!
# Multiplication and division

The eight operations of RV32M. The pairs of a high and a low word are the
products over the integers, for each reading of the operands. Quotients and
remainders satisfy the identity of division, the two exceptional cases have the
fixed values, and no division that C leaves undefined is reached.
-/

namespace RvEmu.MultiplyDivide

open BaseInstructions EncodingInverse InstructionSet WideArithmetic

/-! ## The divisions of C -/

/-- `rv_div`, with the divisions of C in it. -/
def checkedDiv (a b : Word) : Option Word :=
  if b = 0 then some 0xFFFFFFFF
  else if a = 0x80000000 ∧ b = 0xFFFFFFFF then some 0x80000000
  else signedQuotient a b

/-- `rv_divu`. -/
def checkedDivu (a b : Word) : Option Word :=
  if b = 0 then some 0xFFFFFFFF else unsignedQuotient a b

/-- `rv_rem`. -/
def checkedRem (a b : Word) : Option Word :=
  if b = 0 then some a
  else if a = 0x80000000 ∧ b = 0xFFFFFFFF then some 0
  else signedRemainder a b

/-- `rv_remu`. -/
def checkedRemu (a b : Word) : Option Word := if b = 0 then some a else unsignedRemainder a b

/-- The pair of words that the source tests for is the one that overflows. -/
theorem overflows_iff (a b : Word) : Overflows a b ↔ a = 0x80000000 ∧ b = 0xFFFFFFFF := by
  have lowest : BitVec.intMin 32 = 0x80000000 := by decide
  have minusOne : -1#32 = 0xFFFFFFFF := by decide
  rw [Overflows, lowest, minusOne]

/-- Outside the two tests, signed division is defined. -/
theorem signed_defined (a b : Word) (nonzero : b ≠ 0)
    (inRange : ¬ (a = 0x80000000 ∧ b = 0xFFFFFFFF)) : ¬ (b = 0 ∨ Overflows a b) := by
  rintro (zero | overflow)
  · exact nonzero zero
  · exact inRange ((overflows_iff a b).mp overflow)

theorem checkedDiv_eq (a b : Word) : checkedDiv a b = some (rvDiv a b) := by
  rw [checkedDiv, rvDiv]
  split
  · rfl
  · rename_i nonzero
    split
    · rfl
    · rename_i inRange
      exact if_neg (signed_defined a b nonzero inRange)

theorem checkedRem_eq (a b : Word) : checkedRem a b = some (rvRem a b) := by
  rw [checkedRem, rvRem]
  split
  · rfl
  · rename_i nonzero
    split
    · rfl
    · rename_i inRange
      exact if_neg (signed_defined a b nonzero inRange)

theorem checkedDivu_eq (a b : Word) : checkedDivu a b = some (rvDivu a b) := by
  rw [checkedDivu, rvDivu]
  split
  · rfl
  · rename_i nonzero
    exact if_neg nonzero

theorem checkedRemu_eq (a b : Word) : checkedRemu a b = some (rvRemu a b) := by
  rw [checkedRemu, rvRemu]
  split
  · rfl
  · rename_i nonzero
    exact if_neg nonzero

/-! ## The law -/

/-- The products: a high word and the low word, joined. -/
structure Products (x y : Word) : Prop where
  mulh : (mulDivResult 1 x y ++ mulDivResult 0 x y).toInt = x.toInt * y.toInt
  mulhsu : (mulDivResult 2 x y ++ mulDivResult 0 x y).toInt = x.toInt * y.toNat
  mulhu : (mulDivResult 3 x y ++ mulDivResult 0 x y).toNat = x.toNat * y.toNat

/-- The divisions: `4` and `6` are signed, `5` and `7` unsigned. -/
structure Divisions (x y : Word) : Prop where
  signed : y ≠ 0 → ¬ (x = 0x80000000 ∧ y = 0xFFFFFFFF) →
    x.toInt = y.toInt * (mulDivResult 4 x y).toInt + (mulDivResult 6 x y).toInt ∧
      (mulDivResult 6 x y).toInt.natAbs < y.toInt.natAbs ∧
      ((mulDivResult 6 x y).toInt = 0 ∨ (mulDivResult 6 x y).toInt.sign = x.toInt.sign)
  unsigned : y ≠ 0 →
    x.toNat = y.toNat * (mulDivResult 5 x y).toNat + (mulDivResult 7 x y).toNat ∧
      (mulDivResult 7 x y).toNat < y.toNat
  byZero : y = 0 →
    mulDivResult 4 x y = 0xFFFFFFFF ∧ mulDivResult 5 x y = 0xFFFFFFFF ∧
      mulDivResult 6 x y = x ∧ mulDivResult 7 x y = x
  overflow : x = 0x80000000 ∧ y = 0xFFFFFFFF →
    mulDivResult 4 x y = 0x80000000 ∧ mulDivResult 6 x y = 0
  modular : x = y * mulDivResult 4 x y + mulDivResult 6 x y ∧
    x = y * mulDivResult 5 x y + mulDivResult 7 x y
  defined : checkedDiv x y = some (mulDivResult 4 x y) ∧
    checkedDivu x y = some (mulDivResult 5 x y) ∧
    checkedRem x y = some (mulDivResult 6 x y) ∧ checkedRemu x y = some (mulDivResult 7 x y)

/-- The encoded instruction writes the operation of its `funct3` to `rd`, and nothing
    else changes but the pc. -/
def Computes (host : HostFloat) (emu : Emulator) (rs1 rs2 : Reg) : Prop :=
  ∀ rd funct3, ∃ inst,
    decode (encR 0x01 (rs2.setWidth 32) (rs1.setWidth 32) (funct3.setWidth 32) (rd.setWidth 32)
      0x33) = some inst ∧
    execute host emu inst =
      (.retired .quiet,
        { emu with
          rf :=
            { emu.rf with
              regs := put emu.rf.regs rd
                (mulDivResult funct3 (regRead emu.rf rs1) (regRead emu.rf rs2))
              pc := emu.rf.pc + 4 } })

/-! ## Products -/

/-- A high word and the low word, joined, are the product of the extended operands. -/
theorem joined_product (x y : Word) (left right : BitVec (32 + 32)) (narrowX : left.setWidth 32 = x)
    (narrowY : right.setWidth 32 = y) :
    ((left * right) >>> 32).setWidth 32 ++ mulDivResult 0 x y = left * right := by
  have low : mulDivResult 0 x y = (left * right).setWidth 32 :=
    (low_product x y left right narrowX narrowY).symm
  rw [low, halves_joined]

theorem products_law (x y : Word) : Products x y where
  mulh := by
    have high : mulDivResult 1 x y =
        ((x.signExtend (32 + 32) * y.signExtend (32 + 32)) >>> 32).setWidth 32 :=
      high_signed (x.signExtend (32 + 32) * y.signExtend (32 + 32))
    rw [high, joined_product x y _ _ (BitFields.narrow_signExtend x (by decide))
      (BitFields.narrow_signExtend y (by decide)), signed_product x y (by decide)]
  mulhsu := by
    have high : mulDivResult 2 x y =
        ((x.signExtend (32 + 32) * y.setWidth (32 + 32)) >>> 32).setWidth 32 :=
      high_signed (x.signExtend (32 + 32) * y.setWidth (32 + 32))
    rw [high, joined_product x y _ _ (BitFields.narrow_signExtend x (by decide))
      (BitFields.narrow_wide y (by decide)), mixed_product x y (by decide)]
  mulhu := by
    have high : mulDivResult 3 x y =
        ((x.setWidth (32 + 32) * y.setWidth (32 + 32)) >>> 32).setWidth 32 := rfl
    rw [high, joined_product x y _ _ (BitFields.narrow_wide x (by decide))
      (BitFields.narrow_wide y (by decide)), unsigned_product x y]

/-! ## Divisions -/

/-- The two tests of the source, passed. -/
theorem rvDiv_regular (x y : Word) (nonzero : y ≠ 0)
    (inRange : ¬ (x = 0x80000000 ∧ y = 0xFFFFFFFF)) :
    rvDiv x y = x.sdiv y ∧ rvRem x y = x.srem y := by
  rw [rvDiv, rvRem, if_neg nonzero, if_neg nonzero, if_neg inRange, if_neg inRange]
  exact ⟨rfl, rfl⟩

theorem rvDivu_regular (x y : Word) (nonzero : y ≠ 0) :
    rvDivu x y = x / y ∧ rvRemu x y = x % y := by
  rw [rvDivu, rvRemu, if_neg nonzero, if_neg nonzero]
  exact ⟨rfl, rfl⟩

/-- A zero divisor leaves the dividend for the remainder, whatever the quotient. -/
theorem zero_quotient (x q : Word) : 0 * q + x = x := by
  have product : (0 : Word) * q = 0 := BitVec.zero_mul
  rw [product]
  exact BitVec.zero_add x

/-- Signed division satisfies its identity on words, in the exceptional cases too. -/
theorem signed_modular (x y : Word) : x = y * rvDiv x y + rvRem x y := by
  by_cases zero : y = 0
  · rw [rvRem, if_pos zero, zero]
    exact (zero_quotient x (rvDiv x 0)).symm
  · by_cases overflow : x = 0x80000000 ∧ y = 0xFFFFFFFF
    · obtain ⟨rfl, rfl⟩ := overflow
      decide
    · obtain ⟨quotient, remainder⟩ := rvDiv_regular x y zero overflow
      rw [quotient, remainder]
      exact signed_words x y _ _
        (signed_identity x y (fun also => overflow ((overflows_iff x y).mp also)))

theorem unsigned_modular (x y : Word) : x = y * rvDivu x y + rvRemu x y := by
  by_cases zero : y = 0
  · rw [rvRemu, if_pos zero, zero]
    exact (zero_quotient x (rvDivu x 0)).symm
  · obtain ⟨quotient, remainder⟩ := rvDivu_regular x y zero
    rw [quotient, remainder]
    exact unsigned_words x y _ _ (unsigned_identity x y)

theorem divisions_law (x y : Word) : Divisions x y where
  signed := by
    intro nonzero inRange
    obtain ⟨quotient, remainder⟩ := rvDiv_regular x y nonzero inRange
    change x.toInt = y.toInt * (rvDiv x y).toInt + (rvRem x y).toInt ∧
      (rvRem x y).toInt.natAbs < y.toInt.natAbs ∧
      ((rvRem x y).toInt = 0 ∨ (rvRem x y).toInt.sign = x.toInt.sign)
    rw [quotient, remainder]
    exact ⟨signed_identity x y (fun also => inRange ((overflows_iff x y).mp also)),
      signed_small x y nonzero, signed_sign x y⟩
  unsigned := by
    intro nonzero
    obtain ⟨quotient, remainder⟩ := rvDivu_regular x y nonzero
    change x.toNat = y.toNat * (rvDivu x y).toNat + (rvRemu x y).toNat ∧
      (rvRemu x y).toNat < y.toNat
    rw [quotient, remainder]
    exact ⟨unsigned_identity x y, unsigned_small x y nonzero⟩
  byZero := fun zero => ⟨if_pos zero, if_pos zero, if_pos zero, if_pos zero⟩
  overflow := by
    rintro ⟨rfl, rfl⟩
    decide
  modular := ⟨signed_modular x y, unsigned_modular x y⟩
  defined := ⟨checkedDiv_eq x y, checkedDivu_eq x y, checkedRem_eq x y, checkedRemu_eq x y⟩

/-! ## Execution -/

/-- An encoded operation is decoded to its registers and executed. -/
theorem muldiv_computes (host : HostFloat) (emu : Emulator) (rs1 rs2 : Reg) :
    Computes host emu rs1 rs2 := by
  intro rd funct3
  have matching : getFmt (opcodeOf ((0x33#7).setWidth 32)) = some .r := by decide
  obtain ⟨inst, decoded, -, fields⟩ :=
    recovers_r ⟨⟨0x01, rs2, rs1, funct3, rd, 0x33, 0⟩, matching, rfl⟩
  obtain ⟨-, length, opcode⟩ := decode_fields _ inst decoded
  simp only [Fields.present, fieldsIn, Fields.mk.injEq] at fields
  obtain ⟨funct7, second, first, third, destination, bits, -⟩ := fields
  have kind : inst.opcode = .alu := by
    rw [opcode] at bits ⊢
    rw [opcodeOf_bits _ _ bits]
    decide
  have next : seqPc emu inst = emu.rf.pc + 4 := by
    rw [seqPc, instLen, length]
    rfl
  refine ⟨inst, decoded, ?_⟩
  rw [← destination, ← next]
  apply execute_written
  simp only [execSwitch, kind, aluResult, funct7, third, first, second]
  rfl

/-- The products, the divisions and the execution of RV32M. -/
theorem multiply_divide (host : HostFloat) (emu : Emulator) (rs1 rs2 : Reg) :
    Computes host emu rs1 rs2 ∧ Products (regRead emu.rf rs1) (regRead emu.rf rs2) ∧
      Divisions (regRead emu.rf rs1) (regRead emu.rf rs2) :=
  ⟨muldiv_computes host emu rs1 rs2, products_law _ _, divisions_law _ _⟩

end RvEmu.MultiplyDivide
