import RvEmu.Foundation.BinaryFloat
import RvEmu.Foundation.BitFields
import RvEmu.Fpu

/-!
# The numbers in the floating-point registers

The patterns of the F extension are those of the binary format with 8 bits of exponent
and 23 of fraction. The tests on bits that `fpu.c` makes are the classes of that
format, and the integer that stands for a pattern in a host comparison is its signed
number of units, so the host compares the denoted values.
-/

namespace RvEmu.FloatValues

open BinaryFloat BitFields BitMasks

/-- Single precision. -/
def binary32 : Format where
  exponentBits := 8
  fractionBits := 23
  positive := by decide

/-- What the bits of a register denote. -/
def denotes (bits : Word) : Datum := binary32.denote bits.toNat

theorem exponent_bits (bits : Word) :
    binary32.exponent bits.toNat = ((bits >>> 23) &&& 0xFF).toNat := by
  have low : ((bits >>> 23) &&& BitVec.ofNat 32 (2 ^ 8 - 1)).toNat = (bits >>> 23).toNat % 2 ^ 8 :=
    and_low _ 8 (by decide)
  change _ = ((bits >>> 23) &&& BitVec.ofNat 32 (2 ^ 8 - 1)).toNat
  rw [low, BitVec.toNat_ushiftRight, Nat.shiftRight_eq_div_pow]
  rfl

theorem fraction_bits (bits : Word) :
    binary32.fraction bits.toNat = (bits &&& 0x007FFFFF).toNat :=
  (and_low bits 23 (by decide)).symm

theorem negative_bits (bits : Word) :
    binary32.negative bits.toNat = true ↔ bits &&& 0x80000000 ≠ 0 := by
  have bit : bits &&& 0x80000000 = 0 ↔ bits.getLsbD 31 = false := and_bit bits 31 (by decide)
  change bits.getLsbD 31 = true ↔ _
  rw [Ne, bit, Bool.not_eq_false]

/-- The exponent mask tests for the field of ones. -/
theorem exponent_top (bits : Word) :
    bits &&& 0x7F800000 = 0x7F800000 ↔ binary32.exponent bits.toNat = binary32.top := by
  have masked : (bits &&& 0x7F800000) >>> 23 = (bits >>> 23) &&& 0xFF := by
    rw [BitVec.ushiftRight_and_distrib]
    rfl
  have back : ((bits >>> 23) &&& 0xFF) <<< 23 = bits &&& 0x7F800000 := by
    rw [← masked, BitVec.shiftLeft_ushiftRight, BitVec.and_assoc]
    rfl
  rw [exponent_bits]
  constructor
  · intro ones
    rw [← masked, ones]
    rfl
  · intro ones
    have field : (bits >>> 23) &&& 0xFF = 0xFF := BitVec.eq_of_toNat_eq ones
    rw [← back, field]
    rfl

/-- `bits_is_nan` finds the NaNs. -/
theorem bitsIsNan_iff (bits : Word) : bitsIsNan bits = true ↔ binary32.IsNan bits.toNat := by
  have zero : bits &&& 0x007FFFFF = 0 ↔ binary32.fraction bits.toNat = 0 := by
    rw [fraction_bits]
    exact ⟨fun same => congrArg BitVec.toNat same, fun same => BitVec.eq_of_toNat_eq same⟩
  rw [bitsIsNan, decide_eq_true_eq, exponent_top, Ne, zero]
  rfl

/-- `bits_is_snan` finds those that signal. -/
theorem bitsIsSnan_iff (bits : Word) : bitsIsSnan bits = true ↔ denotes bits = .nan true := by
  have quiet : bits &&& 0x00400000 = 0 ↔ bits.getLsbD 22 = false := and_bit bits 22 (by decide)
  have signals : bits.getLsbD 22 = false ↔ binary32.signals bits.toNat = true := by
    rw [BitVec.getLsbD, Nat.testBit_eq_decide_div_mod_eq, decide_eq_false_iff_not,
      Format.signals, decide_eq_true_eq]
    change ¬ bits.toNat / 2 ^ 22 % 2 = 1 ↔ bits.toNat % 2 ^ 23 < 2 ^ 22
    omega
  rw [bitsIsSnan, decide_eq_true_eq, bitsIsNan_iff, quiet, signals, denotes]
  by_cases nan : binary32.IsNan bits.toNat
  · rw [binary32.denote_nan _ nan]
    constructor
    · rintro ⟨-, signaling⟩
      rw [signaling]
    · intro same
      exact ⟨nan, Datum.nan.inj same⟩
  · rw [binary32.denote_number _ nan]
    exact iff_of_false (fun both => nan both.1) (fun same => by cases same)

/-- The exact value of a comparison is the signed number of units. -/
theorem f32Value_signed (bits : Word) : f32Value bits = binary32.signed bits.toNat := by
  have magnitude : f32Magnitude bits =
      binary32.units (binary32.exponent bits.toNat) (binary32.fraction bits.toNat) := by
    rw [exponent_bits, fraction_bits]
    rfl
  rw [f32Value, Format.signed, magnitude]
  by_cases sign : binary32.negative bits.toNat = true
  · rw [if_pos sign, if_pos ((negative_bits bits).mp sign)]
  · rw [if_neg sign, if_neg (mt (negative_bits bits).mpr sign)]

/-- The host's `<` compares the denoted values. -/
theorem f32Lt_iff (a b : Word) : f32Lt a b = true ↔ (denotes a).Less (denotes b) := by
  have tested : f32Lt a b = true ↔ ¬ binary32.IsNan a.toNat ∧ ¬ binary32.IsNan b.toNat ∧
      binary32.signed a.toNat < binary32.signed b.toNat := by
    rw [← bitsIsNan_iff, ← bitsIsNan_iff, ← f32Value_signed, ← f32Value_signed, f32Lt]
    simp only [Bool.and_eq_true, Bool.not_eq_true', decide_eq_true_eq, Bool.not_eq_true,
      and_assoc]
  rw [tested, denotes, denotes]
  by_cases first : binary32.IsNan a.toNat
  · rw [binary32.denote_nan _ first]
    exact iff_of_false (fun both => both.1 first) (fun less => less)
  · by_cases second : binary32.IsNan b.toNat
    · rw [binary32.denote_nan _ second, binary32.denote_number _ first]
      exact iff_of_false (fun both => both.2.1 second) (fun less => less)
    · rw [binary32.less_iff _ _ first second]
      exact ⟨fun both => both.2.2, fun less => ⟨first, second, less⟩⟩

/-- What a host comparison tests, for a relation on the numbers of units. -/
theorem compared_iff (test : Int → Int → Prop) [DecidableRel test] (a b : Word) :
    (!bitsIsNan a && !bitsIsNan b && decide (test (f32Value a) (f32Value b))) = true ↔
      ¬ binary32.IsNan a.toNat ∧ ¬ binary32.IsNan b.toNat ∧
        test (binary32.signed a.toNat) (binary32.signed b.toNat) := by
  rw [← bitsIsNan_iff, ← bitsIsNan_iff, ← f32Value_signed, ← f32Value_signed]
  simp only [Bool.and_eq_true, Bool.not_eq_true', decide_eq_true_eq, Bool.not_eq_true, and_assoc]

/-- The host's `<=` and `==` do so as well. -/
theorem f32Le_iff (a b : Word) : f32Le a b = true ↔ (denotes a).NotAbove (denotes b) := by
  rw [f32Le, compared_iff (· ≤ ·), denotes, denotes]
  by_cases first : binary32.IsNan a.toNat
  · rw [binary32.denote_nan _ first]
    exact iff_of_false (fun both => both.1 first) id
  · by_cases second : binary32.IsNan b.toNat
    · rw [binary32.denote_nan _ second, binary32.denote_number _ first]
      exact iff_of_false (fun both => both.2.1 second) id
    · rw [binary32.notAbove_iff _ _ first second]
      exact ⟨fun both => both.2.2, fun holds => ⟨first, second, holds⟩⟩

theorem f32Eq_iff (a b : Word) : f32Eq a b = true ↔ (denotes a).Same (denotes b) := by
  rw [f32Eq, compared_iff (· = ·), denotes, denotes]
  by_cases first : binary32.IsNan a.toNat
  · rw [binary32.denote_nan _ first]
    exact iff_of_false (fun both => both.1 first) id
  · by_cases second : binary32.IsNan b.toNat
    · rw [binary32.denote_nan _ second, binary32.denote_number _ first]
      exact iff_of_false (fun both => both.2.1 second) id
    · rw [binary32.same_iff _ _ first second]
      exact ⟨fun both => both.2.2, fun holds => ⟨first, second, holds⟩⟩

end RvEmu.FloatValues
