import RvEmu.MinMax

/-!
# Comparing and classifying numbers

The three comparisons answer by the order of the denoted values. For a NaN they answer no;
the two that order raise the invalid flag for every NaN, and equality for a signalling one
alone. FCLASS.S sets the one bit of ten that stands for the class of the denoted datum,
which is a matter of its value and sign, although the code looks at fields.
-/

namespace RvEmu.Comparisons

open BinaryFloat FloatValues MinMax

/-! ## Comparing -/

/-- The relation that each comparison asks about: FLE.S, FLT.S and FEQ.S. -/
def Holds (funct3 : BitVec 3) (a b : Datum) : Prop :=
  if funct3 = 0 then a.NotAbove b else if funct3 = 1 then a.Less b else a.Same b

/-- The operands for which a comparison is invalid. -/
def Invalid (funct3 : BitVec 3) (a b : Word) : Prop :=
  if funct3 = 2 then denotes a = .nan true ∨ denotes b = .nan true else IsNan a ∨ IsNan b

/-- What a comparison is to compute. -/
structure CompareRight (csr : Csr) (funct3 : BitVec 3) (a b : Word) (computed : Word × Csr) :
    Prop where
  yes : Holds funct3 (denotes a) (denotes b) → computed.1 = 1
  no : ¬ Holds funct3 (denotes a) (denotes b) → computed.1 = 0
  invalid : Invalid funct3 a b → computed.2 = raiseFlags csr fpNv
  valid : ¬ Invalid funct3 a b → computed.2 = csr

/-- No relation holds of a NaN. -/
theorem nan_unordered (funct3 : BitVec 3) (a b : Word) (nan : IsNan a ∨ IsNan b) :
    ¬ Holds funct3 (denotes a) (denotes b) := by
  have none : ∀ left right : Datum,
      ((∃ signaling, left = .nan signaling) ∨ ∃ signaling, right = .nan signaling) →
        ¬ left.NotAbove right ∧ ¬ left.Less right ∧ ¬ left.Same right := by
    rintro left right (⟨signaling, rfl⟩ | ⟨signaling, rfl⟩)
    · exact ⟨id, id, id⟩
    · cases left with
      | nan other => exact ⟨id, id, id⟩
      | number negative value => exact ⟨id, id, id⟩
  obtain ⟨order, less, same⟩ := none _ _ nan
  rw [Holds]
  split
  · exact order
  · split
    · exact less
    · exact same

/-- An answer to a test that decides the relation. -/
theorem answer_right (csr : Csr) (funct3 : BitVec 3) (a b : Word) (test : Bool)
    (decides : test = true ↔ Holds funct3 (denotes a) (denotes b))
    (valid : ¬ Invalid funct3 a b) :
    CompareRight csr funct3 a b (if test then 1 else 0, csr) where
  yes := fun holds => if_pos (decides.mpr holds)
  no := fun fails => if_neg (mt decides.mp fails)
  invalid := fun invalid => absurd invalid valid
  valid := fun _ => rfl

/-- `fp_compare` computes the answer. -/
theorem fpCompare_right (csr : Csr) (funct3 : BitVec 3) (a b : Word) :
    CompareRight csr funct3 a b (fpCompare csr funct3 a b) := by
  have tested : (bitsIsNan a = true ∨ bitsIsNan b = true) ↔ IsNan a ∨ IsNan b :=
    or_congr (bitsIsNan_isNan a) (bitsIsNan_isNan b)
  have signals : (bitsIsSnan a = true ∨ bitsIsSnan b = true) ↔
      denotes a = .nan true ∨ denotes b = .nan true :=
    or_congr (bitsIsSnan_iff a) (bitsIsSnan_iff b)
  simp only [fpCompare]
  by_cases nan : IsNan a ∨ IsNan b
  · have fails := nan_unordered funct3 a b nan
    rw [if_pos (tested.mpr nan)]
    by_cases equality : funct3 = 2
    · rw [if_pos equality]
      refine ⟨fun holds => absurd holds fails, fun _ => rfl, ?_, ?_⟩
      · intro invalid
        rw [Invalid, if_pos equality] at invalid
        exact if_pos (signals.mpr invalid)
      · intro valid
        rw [Invalid, if_pos equality] at valid
        exact if_neg (mt signals.mp valid)
    · rw [if_neg equality]
      refine ⟨fun holds => absurd holds fails, fun _ => rfl, fun _ => rfl, ?_⟩
      intro valid
      rw [Invalid, if_neg equality] at valid
      exact absurd nan valid
  · have valid : ¬ Invalid funct3 a b := by
      rw [Invalid]
      split
      · rintro (first | second)
        · exact nan (Or.inl ⟨true, first⟩)
        · exact nan (Or.inr ⟨true, second⟩)
      · exact nan
    rw [if_neg (mt tested.mp nan)]
    by_cases order : funct3 = 0
    · rw [if_pos order]
      apply answer_right csr funct3 a b _ ?_ valid
      rw [Holds, if_pos order, f32Le_iff]
    · rw [if_neg order]
      by_cases less : funct3 = 1
      · rw [if_pos less]
        apply answer_right csr funct3 a b _ ?_ valid
        rw [Holds, if_neg order, if_pos less, f32Lt_iff]
      · rw [if_neg less]
        apply answer_right csr funct3 a b _ ?_ valid
        rw [Holds, if_neg order, if_neg less, f32Eq_iff]

/-- The instruction writes the right answer to `x[rd]`, and changes only the flags else. -/
def Compares (host : HostFloat) (rf : Regfile) (csr : Csr) (inst : DecodedInst) : Prop :=
  ∃ computed, fpuExecute host rf csr inst = some (regWrite rf inst.rd computed.1, computed.2) ∧
    CompareRight csr inst.funct3 (rf.fregs inst.rs1) (rf.fregs inst.rs2) computed

/-- FLE.S, FLT.S and FEQ.S compare the denoted values, with the flags as specified. -/
theorem compare_exact (host : HostFloat) (rf : Regfile) (csr : Csr) (inst : DecodedInst)
    (compare : inst.funct7 = 0x50) (known : inst.funct3 ≤ 2) : Compares host rf csr inst := by
  refine ⟨fpCompare csr inst.funct3 (rf.fregs inst.rs1) (rf.fregs inst.rs2), ?_,
    fpCompare_right csr inst.funct3 _ _⟩
  have inside : ¬ inst.funct3 > 2 := BitVec.not_lt.mpr known
  simp only [fpuExecute, compare, if_neg inside]
  rfl

/-- A comparison of `f1` and `f2`, to `x10`. -/
def compareInst (funct3 : BitVec 3) : DecodedInst where
  raw := encR 0x50 2 1 (funct3.setWidth 32) 10 0x53
  len := 4
  fmt := .r
  opcode := .fp
  rd := 10
  rs1 := 1
  rs2 := 2
  funct3 := funct3
  funct7 := 0x50
  imm := 0

/-- The code of `flt.s` decodes to it, and it compares 1.0 with 2.0. -/
theorem oneTwo_compared : decode (encR 0x50 2 1 1 10 0x53) = some (compareInst 1) ∧
    Compares idleHost oneTwo csrInit (compareInst 1) :=
  ⟨by decide, compare_exact idleHost oneTwo csrInit (compareInst 1) rfl (by decide)⟩

/-! ## Classifying -/

/-- The bit of FCLASS.S for each class. -/
def classBit : Format.Class → Nat
  | .number true .infinite => 0
  | .number true .normal => 1
  | .number true .subnormal => 2
  | .number true .zero => 3
  | .number false .zero => 4
  | .number false .subnormal => 5
  | .number false .normal => 6
  | .number false .infinite => 7
  | .nan true => 8
  | .nan false => 9

/-- Each class has a bit of its own. -/
theorem classBit_inj (one other : Format.Class) (same : classBit one = classBit other) :
    one = other := by
  revert same
  rcases one with ⟨_ | _, _ | _ | _ | _⟩ | (_ | _) <;>
    rcases other with ⟨_ | _, _ | _ | _ | _⟩ | (_ | _) <;> decide

section Fields

variable (bits : Word)

/-- The tests of `fp_classify` are tests on the fields. -/
theorem sign_test : bits >>> 31 ≠ 0 ↔ binary32.negative bits.toNat = true := by
  change _ ↔ bits.toNat.testBit 31 = true
  have small := bits.isLt
  rw [Nat.testBit_eq_decide_div_mod_eq, decide_eq_true_eq, ne_eq, ← BitVec.toNat_inj,
    BitVec.toNat_ushiftRight, Nat.shiftRight_eq_div_pow]
  change ¬ bits.toNat / 2 ^ 31 = 0 ↔ _
  omega

theorem exponent_test (value : Word) :
    (bits >>> 23) &&& 0xFF = value ↔ binary32.exponent bits.toNat = value.toNat := by
  rw [exponent_bits, BitVec.toNat_inj]

theorem fraction_test :
    bits &&& 0x007FFFFF = 0 ↔ binary32.fraction bits.toNat = 0 := by
  rw [fraction_bits]
  exact BitVec.toNat_inj.symm

theorem quiet_test :
    (bits &&& 0x007FFFFF) &&& 0x00400000 ≠ 0 ↔ binary32.signals bits.toNat = false := by
  have single : (bits &&& 0x007FFFFF) &&& 0x00400000 = bits &&& 0x00400000 := by
    rw [BitVec.and_assoc]
    rfl
  have bit : bits &&& 0x00400000 = 0 ↔ bits.getLsbD 22 = false :=
    BitMasks.and_bit bits 22 (by decide)
  rw [single, ne_eq, bit, Bool.not_eq_false, BitVec.getLsbD, Nat.testBit_eq_decide_div_mod_eq,
    decide_eq_true_eq, Format.signals, decide_eq_false_iff_not]
  change bits.toNat / 2 ^ 22 % 2 = 1 ↔ ¬ bits.toNat % 2 ^ 23 < 2 ^ 22
  omega

/-- `fp_classify` sets the bit of the class that the fields tell. -/
theorem fpClassify_bit :
    fpClassify bits = 1#32 <<< classBit (binary32.classOf bits.toNat) := by
  have top : (0xFF : Word).toNat = binary32.top := rfl
  have zero : (0 : Word).toNat = 0 := rfl
  simp only [fpClassify, sign_test, exponent_test, fraction_test, quiet_test, top, zero]
  simp only [Format.classOf, Format.IsNan, Format.kindOf]
  by_cases infinite : binary32.exponent bits.toNat = binary32.top
  · by_cases zero : binary32.fraction bits.toNat = 0
    · cases sign : binary32.negative bits.toNat with
      | true => simp [infinite, zero, classBit]
      | false => simp [infinite, zero, classBit]
    · cases signals : binary32.signals bits.toNat with
      | true => simp [infinite, zero, classBit]
      | false => simp [infinite, zero, classBit]
  · by_cases low : binary32.exponent bits.toNat = 0
    · have apart : ¬ 0 = binary32.top := by decide
      by_cases zero : binary32.fraction bits.toNat = 0
      · cases sign : binary32.negative bits.toNat with
        | true => simp [low, apart, zero, classBit]
        | false => simp [low, apart, zero, classBit]
      · cases sign : binary32.negative bits.toNat with
        | true => simp [low, apart, zero, classBit]
        | false => simp [low, apart, zero, classBit]
    · cases sign : binary32.negative bits.toNat with
      | true => simp [infinite, low, classBit]
      | false => simp [infinite, low, classBit]

end Fields

/-- The word marks the classes that the datum is of, and has no other bit. -/
structure ClassWord (word : Word) (datum : Datum) : Prop where
  marks : ∀ kind, word.getLsbD (classBit kind) = true ↔ binary32.InClass datum kind
  only : ∀ index, word.getLsbD index = true → ∃ kind, classBit kind = index

theorem classBit_inside (kind : Format.Class) : classBit kind < 32 := by
  rcases kind with ⟨_ | _, _ | _ | _ | _⟩ | (_ | _) <;> decide

/-- `fp_classify` answers with the class of what the pattern denotes. -/
theorem fpClassify_word (bits : Word) : ClassWord (fpClassify bits) (denotes bits) := by
  have single : ∀ index, (fpClassify bits).getLsbD index = true ↔
      classBit (binary32.classOf bits.toNat) = index := by
    intro index
    have inside := classBit_inside (binary32.classOf bits.toNat)
    rw [fpClassify_bit, ← BitVec.twoPow_eq, BitVec.getLsbD_twoPow, Bool.and_eq_true,
      decide_eq_true_eq, decide_eq_true_eq]
    exact ⟨fun both => both.2, fun same => ⟨inside, same⟩⟩
  constructor
  · intro kind
    rw [single, denotes, Format.inClass_iff]
    constructor
    · exact fun same => (classBit_inj _ _ same).symm
    · exact fun same => congrArg classBit same.symm
  · exact fun index set => ⟨_, (single index).mp set⟩

/-- The instruction writes the class of `f[rs1]` to `x[rd]`, and changes nothing else. -/
def Classifies (host : HostFloat) (rf : Regfile) (csr : Csr) (inst : DecodedInst) : Prop :=
  ∃ word, fpuExecute host rf csr inst = some (regWrite rf inst.rd word, csr) ∧
    ClassWord word (denotes (rf.fregs inst.rs1))

/-- FCLASS.S tells the class of the denoted datum: its sign and the range that its value is
    in, or the kind of NaN. -/
theorem classify_exact (host : HostFloat) (rf : Regfile) (csr : Csr) (inst : DecodedInst)
    (classify : inst.funct7 = 0x70) (selected : inst.funct3 = 1) (unary : inst.rs2 = 0) :
    Classifies host rf csr inst := by
  refine ⟨fpClassify (rf.fregs inst.rs1), ?_, fpClassify_word _⟩
  simp only [fpuExecute, classify, selected, unary]
  rfl

/-- `fclass.s` of one of these registers, to `x10`. -/
def fclassInst (rs1 : Reg) : DecodedInst where
  raw := encR 0x70 0 (rs1.setWidth 32) 1 10 0x53
  len := 4
  fmt := .r
  opcode := .fp
  rd := 10
  rs1 := rs1
  rs2 := 0
  funct3 := 1
  funct7 := 0x70
  imm := 0

/-- The code decodes to the instruction, which classifies 1.0. -/
theorem oneTwo_classified : decode (encR 0x70 0 1 1 10 0x53) = some (fclassInst 1) ∧
    Classifies idleHost oneTwo csrInit (fclassInst 1) :=
  ⟨by decide, classify_exact idleHost oneTwo csrInit (fclassInst 1) rfl rfl rfl⟩

end RvEmu.Comparisons
