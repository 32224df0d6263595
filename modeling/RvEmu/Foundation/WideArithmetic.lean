import Mathlib.Tactic.Linarith
import Mathlib.Tactic.Ring

/-!
# Double-width products and machine division

A product of two words fits twice the width, so it is computed exactly there and
read back in two halves. Signed division truncates toward zero and leaves a
remainder of the dividend's sign; on words it is undefined in C for a zero
divisor and for the one quotient out of range. The width is arbitrary.
-/

namespace RvEmu.WideArithmetic

variable {w : Nat}

/-! ## Products -/

/-- The two halves of a double word are the word. -/
theorem halves_joined (product : BitVec (w + w)) :
    (product >>> w).setWidth w ++ product.setWidth w = product := by
  rw [BitVec.setWidth_ushiftRight_eq_extractLsb, BitVec.setWidth_eq_extractLsb' (by omega),
    BitVec.extractLsb'_append_extractLsb'_eq_extractLsb' (by omega), BitVec.extractLsb'_eq_self]

/-- The upper half is the same for an arithmetic shift. -/
theorem high_signed (product : BitVec (w + w)) :
    (product.sshiftRight w).setWidth w = (product >>> w).setWidth w := by
  apply BitVec.eq_of_getLsbD_eq
  intro i inside
  rw [BitVec.getLsbD_setWidth, BitVec.getLsbD_setWidth, BitVec.getLsbD_sshiftRight,
    BitVec.getLsbD_ushiftRight, decide_eq_false (by omega : ¬ w + w ≤ i),
    if_pos (by omega : w + i < w + w)]
  rfl

/-- A product of words that denote two integers denotes the product, if it is in range. -/
theorem product_signed {v : Nat} (x y : BitVec v)
    (above : -(2 ^ (v - 1) : Int) ≤ x.toInt * y.toInt) (below : x.toInt * y.toInt < 2 ^ (v - 1))
    (positive : 0 < v) : (x * y).toInt = x.toInt * y.toInt := by
  have product : x * y = BitVec.ofInt v (x.toInt * y.toInt) := by
    rw [BitVec.ofInt_mul, BitVec.ofInt_toInt, BitVec.ofInt_toInt]
  rw [product, BitVec.toInt_ofInt_eq_self positive above below]

/-- Half of a double range is the square of a half range, doubled. -/
theorem double_range (positive : 0 < w) :
    (2 : Int) ^ (w + w - 1) = 2 ^ (w - 1) * 2 ^ (w - 1) * 2 ∧ (2 : Int) ^ w = 2 ^ (w - 1) * 2 := by
  have whole : (2 : Int) ^ w = 2 ^ (w - 1) * 2 := by
    rw [← Int.pow_succ, Nat.succ_eq_add_one, Nat.sub_add_cancel positive]
  constructor
  · rw [show w + w - 1 = (w - 1) + w by omega, Int.pow_add, whole]
    ring
  · exact whole

/-- The signed product of two words. -/
theorem signed_product (x y : BitVec w) (positive : 0 < w) :
    (x.signExtend (w + w) * y.signExtend (w + w)).toInt = x.toInt * y.toInt := by
  have left : (x.signExtend (w + w)).toInt = x.toInt := BitVec.toInt_signExtend_of_le (by omega)
  have right : (y.signExtend (w + w)).toInt = y.toInt := BitVec.toInt_signExtend_of_le (by omega)
  obtain ⟨range, -⟩ := double_range positive
  have xAbove := BitVec.le_toInt x
  have xBelow : x.toInt < 2 ^ (w - 1) := BitVec.toInt_lt
  have yAbove := BitVec.le_toInt y
  have yBelow : y.toInt < 2 ^ (w - 1) := BitVec.toInt_lt
  have one : (1 : Int) ≤ 2 ^ (w - 1) := Int.pow_pos (by decide)
  rw [product_signed _ _ ?_ ?_ (by omega), left, right]
  · rw [left, right, range]
    nlinarith
  · rw [left, right, range]
    nlinarith

/-- A word widened by zeros denotes its unsigned number. -/
theorem unsigned_wide {v : Nat} (y : BitVec w) (wider : w < v) :
    (y.setWidth v).toInt = y.toNat := by
  have bound : y.toNat < 2 ^ w := y.isLt
  have half : 2 ^ w * 2 ≤ 2 ^ v := by
    rw [← Nat.pow_succ]
    exact Nat.pow_le_pow_right (by decide) wider
  rw [BitVec.toInt_eq_toNat_cond, BitVec.toNat_setWidth_of_le (by omega), if_pos (by omega)]

/-- The product of a signed and an unsigned word. -/
theorem mixed_product (x y : BitVec w) (positive : 0 < w) :
    (x.signExtend (w + w) * y.setWidth (w + w)).toInt = x.toInt * y.toNat := by
  have left : (x.signExtend (w + w)).toInt = x.toInt := BitVec.toInt_signExtend_of_le (by omega)
  have right : (y.setWidth (w + w)).toInt = y.toNat := unsigned_wide y (by omega)
  obtain ⟨range, whole⟩ := double_range positive
  have xAbove := BitVec.le_toInt x
  have xBelow : x.toInt < 2 ^ (w - 1) := BitVec.toInt_lt
  have yAbove : (0 : Int) ≤ y.toNat := Int.natCast_nonneg _
  have yBelow : (y.toNat : Int) < 2 ^ w := by exact_mod_cast y.isLt
  rw [product_signed _ _ ?_ ?_ (by omega), left, right]
  · rw [left, right, range]
    nlinarith
  · rw [left, right, range]
    nlinarith

/-- The unsigned product of two words. -/
theorem unsigned_product (x y : BitVec w) :
    (x.setWidth (w + w) * y.setWidth (w + w)).toNat = x.toNat * y.toNat := by
  have bound : x.toNat * y.toNat < 2 ^ (w + w) := by
    rw [Nat.pow_add]
    exact Nat.mul_lt_mul'' x.isLt y.isLt
  rw [BitVec.toNat_mul, BitVec.toNat_setWidth_of_le (by omega),
    BitVec.toNat_setWidth_of_le (by omega), Nat.mod_eq_of_lt bound]

/-- The lower half of every one of these products is the product of the words. -/
theorem low_product (x y : BitVec w) (left right : BitVec (w + w)) (narrowX : left.setWidth w = x)
    (narrowY : right.setWidth w = y) : (left * right).setWidth w = x * y := by
  rw [BitVec.setWidth_mul _ _ (by omega), narrowX, narrowY]

/-! ## Division -/

/-- The one signed quotient that is out of range. -/
def Overflows (x y : BitVec w) : Prop := x = BitVec.intMin w ∧ y = -1#w

instance (x y : BitVec w) : Decidable (Overflows x y) :=
  inferInstanceAs (Decidable (x = BitVec.intMin w ∧ y = -1#w))

/-- Signed `/` of C; there is no value where its behaviour is undefined. -/
def signedQuotient (x y : BitVec w) : Option (BitVec w) :=
  if y = 0 ∨ Overflows x y then none else some (x.sdiv y)

/-- Signed `%` of C. -/
def signedRemainder (x y : BitVec w) : Option (BitVec w) :=
  if y = 0 ∨ Overflows x y then none else some (x.srem y)

/-- Unsigned `/` of C. -/
def unsignedQuotient (x y : BitVec w) : Option (BitVec w) :=
  if y = 0 then none else some (x / y)

/-- Unsigned `%` of C. -/
def unsignedRemainder (x y : BitVec w) : Option (BitVec w) :=
  if y = 0 then none else some (x % y)

section Division

variable (x y : BitVec w)

/-- Quotient and remainder of a signed division over the integers. -/
theorem signed_identity (inRange : ¬ Overflows x y) :
    x.toInt = y.toInt * (x.sdiv y).toInt + (x.srem y).toInt := by
  have quotient : (x.sdiv y).toInt = x.toInt.tdiv y.toInt :=
    BitVec.toInt_sdiv_of_ne_or_ne x y (Decidable.not_and_iff_not_or_not.mp inRange)
  rw [quotient, BitVec.toInt_srem, Int.mul_tdiv_add_tmod]

/-- The signed remainder is smaller than the divisor. -/
theorem signed_small (nonzero : y ≠ 0) : (x.srem y).toInt.natAbs < y.toInt.natAbs := by
  have divisor : y.toInt ≠ 0 := by
    intro zero
    apply nonzero
    apply BitVec.eq_of_toInt_eq
    rw [zero]
    exact BitVec.toInt_zero.symm
  rw [BitVec.toInt_srem, Int.natAbs_tmod]
  exact Nat.mod_lt _ (Int.natAbs_pos.mpr divisor)

/-- It is zero or has the sign of the dividend. -/
theorem signed_sign : (x.srem y).toInt = 0 ∨ (x.srem y).toInt.sign = x.toInt.sign := by
  rw [BitVec.toInt_srem, Int.sign_tmod]
  by_cases divides : y.toInt ∣ x.toInt
  · exact Or.inl (Int.tmod_eq_zero_of_dvd divides)
  · exact Or.inr (if_neg divides)

/-- An identity over the integers holds of the words. -/
theorem signed_words (q r : BitVec w) (identity : x.toInt = y.toInt * q.toInt + r.toInt) :
    x = y * q + r := by
  calc
    x = BitVec.ofInt w x.toInt := BitVec.ofInt_toInt.symm
    _ = BitVec.ofInt w (y.toInt * q.toInt + r.toInt) := by rw [identity]
    _ = y * q + r := by
      rw [BitVec.ofInt_add, BitVec.ofInt_mul, BitVec.ofInt_toInt, BitVec.ofInt_toInt,
        BitVec.ofInt_toInt]

/-- Quotient and remainder of an unsigned division. -/
theorem unsigned_identity : x.toNat = y.toNat * (x / y).toNat + (x % y).toNat := by
  rw [BitVec.toNat_udiv, BitVec.toNat_umod, Nat.div_add_mod]

theorem unsigned_words (q r : BitVec w) (identity : x.toNat = y.toNat * q.toNat + r.toNat) :
    x = y * q + r := by
  apply BitVec.eq_of_toNat_eq
  rw [BitVec.toNat_add, BitVec.toNat_mul, Nat.mod_add_mod, ← identity, Nat.mod_eq_of_lt x.isLt]

theorem unsigned_small (nonzero : y ≠ 0) : (x % y).toNat < y.toNat := by
  rw [BitVec.toNat_umod]
  apply Nat.mod_lt
  apply Nat.pos_of_ne_zero
  intro zero
  exact nonzero (BitVec.eq_of_toNat_eq (zero.trans BitVec.toNat_zero.symm))

end Division

end RvEmu.WideArithmetic
