import RvEmu.Foundation.BitMasks

/-!
# Words made of bit fields

Instruction formats cut a word into fields and put immediates together from
them. Programs do this with shifts, masks and disjunctions; descriptions do it
with slices and concatenations. The lemmas here turn the first into the second:
a shifted and masked word is a slice, and an immediate narrowed to its field and
extended again is the immediate. Widths and positions are arbitrary.
-/

namespace RvEmu.BitFields

variable {w : Nat}

/-- The word of `n` low ones. -/
abbrev lowOnes (w n : Nat) : BitVec w := BitVec.ofNat w (2 ^ n - 1)

theorem getLsbD_lowOnes (n i : Nat) (inside : i < w) :
    (lowOnes w n).getLsbD i = decide (i < n) := by
  rw [BitVec.getLsbD_ofNat, Nat.testBit_two_pow_sub_one, decide_eq_true inside, Bool.true_and]

/-- Masking with low ones keeps the low slice. -/
theorem and_lowOnes (word : BitVec w) (n : Nat) :
    word &&& lowOnes w n = (word.setWidth n).setWidth w := by
  apply BitVec.eq_of_getLsbD_eq
  intro i inside
  rw [BitVec.getLsbD_and, getLsbD_lowOnes n i inside, BitVec.getLsbD_setWidth,
    BitVec.getLsbD_setWidth, decide_eq_true inside, Bool.true_and, Bool.and_comm]

/-- Shifting a slice down and masking it gives the slice. -/
theorem slice_mask (word : BitVec w) (start n : Nat) :
    (word >>> start) &&& lowOnes w n = (word.extractLsb' start n).setWidth w := by
  rw [and_lowOnes, BitVec.setWidth_ushiftRight_eq_extractLsb]

/-- A slice of a word widened from `v` bits. -/
theorem slice_wide {v : Nat} (word : BitVec v) (start n : Nat) (wider : v ≤ w) :
    ((word.setWidth w >>> start) &&& lowOnes w n) = (word.extractLsb' start n).setWidth w := by
  rw [slice_mask]
  apply congrArg (BitVec.setWidth w)
  apply BitVec.eq_of_getLsbD_eq
  intro i small
  rw [BitVec.getLsbD_extractLsb', BitVec.getLsbD_extractLsb', BitVec.getLsbD_setWidth]
  by_cases inside : start + i < w
  · rw [decide_eq_true inside, Bool.true_and]
  · rw [BitVec.getLsbD_of_ge word _ (by omega), Bool.and_false]

/-- Widening keeps words apart. -/
theorem wide_inj {n : Nat} (left right : BitVec n) (wider : n ≤ w) :
    left.setWidth w = right.setWidth w ↔ left = right := by
  constructor
  · intro same
    have narrowed := congrArg (BitVec.setWidth n) same
    rwa [BitVec.setWidth_setWidth (by omega), BitVec.setWidth_setWidth (by omega),
      BitVec.setWidth_eq, BitVec.setWidth_eq] at narrowed
  · exact congrArg (BitVec.setWidth w)

/-- A sign extension narrowed to a width that still holds the sign, extended again. -/
theorem signExtend_narrow {m : Nat} (word : BitVec m) (n : Nat) (holds : m ≤ n) (inside : n ≤ w) :
    ((word.signExtend w).setWidth n).signExtend w = word.signExtend w := by
  have narrowed : (word.signExtend w).setWidth n = word.signExtend n := by
    apply BitVec.eq_of_getLsbD_eq
    intro i small
    have below : i < w := by omega
    rw [BitVec.getLsbD_setWidth, BitVec.getLsbD_signExtend, BitVec.getLsbD_signExtend,
      decide_eq_true small, decide_eq_true below]
    rfl
  rw [narrowed]
  apply BitVec.eq_of_toInt_eq
  rw [BitVec.toInt_signExtend_of_le inside, BitVec.toInt_signExtend_of_le holds,
    BitVec.toInt_signExtend_of_le (Nat.le_trans holds inside)]

/-- A field widened and narrowed again. -/
theorem narrow_wide {n : Nat} (field : BitVec n) (wider : n ≤ w) :
    (field.setWidth w).setWidth n = field := by
  rw [BitVec.setWidth_setWidth_of_le _ wider, BitVec.setWidth_eq]

/-- A slice inside a field does not see its sign extension. -/
theorem slice_signExtend {m : Nat} (field : BitVec m) (start n : Nat) (inside : start + n ≤ m)
    (wider : m ≤ w) : (field.signExtend w).extractLsb' start n = field.extractLsb' start n := by
  apply BitVec.eq_of_getLsbD_eq
  intro i below
  rw [BitVec.getLsbD_extractLsb', BitVec.getLsbD_extractLsb', BitVec.getLsbD_signExtend,
    decide_eq_true (by omega : start + i < w), if_pos (by omega), Bool.true_and]

/-- Narrowing a sign extension to the width of the field gives the field. -/
theorem narrow_signExtend {m : Nat} (field : BitVec m) (wider : m ≤ w) :
    (field.signExtend w).setWidth m = field := by
  rw [BitVec.setWidth_eq_extractLsb' wider, slice_signExtend field 0 m (by omega) wider,
    BitVec.extractLsb'_eq_self]

/-- A word widened by zeros has no sign. -/
theorem signExtend_wide {m : Nat} (word : BitVec m) (n : Nat) (positive : m < n) :
    (word.setWidth n).signExtend w = word.setWidth w := by
  have sign : (word.setWidth n).msb = false := by
    rw [BitVec.msb_eq_getLsbD_last, BitVec.getLsbD_setWidth, BitVec.getLsbD_of_ge word _ (by omega),
      Bool.and_false]
  rw [BitVec.signExtend_eq_setWidth_of_msb_false sign]
  exact BitVec.setWidth_setWidth (by omega)

/-- An even word without its lowest bit, with a zero for it. -/
theorem even_join (word : BitVec w) (n : Nat) (even : word.getLsbD 0 = false) :
    word.extractLsb' 1 n ++ 0#1 = word.setWidth (n + 1) := by
  apply BitVec.eq_of_getLsbD_eq
  intro i small
  rw [BitVec.getLsbD_append, BitVec.getLsbD_setWidth, decide_eq_true small, Bool.true_and]
  cases i with
  | zero => exact even.symm
  | succ i =>
    rw [if_neg (by omega), BitVec.getLsbD_extractLsb', decide_eq_true (by omega : i + 1 - 1 < n),
      Bool.true_and]
    congr 1
    omega

end RvEmu.BitFields
