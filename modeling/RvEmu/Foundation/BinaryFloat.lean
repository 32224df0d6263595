import Mathlib.Algebra.Order.Field.Power
import Mathlib.Algebra.Order.Field.Rat
import Mathlib.Data.Rat.Cast.Order
import Mathlib.Order.WithBot
import Mathlib.Tactic.Ring

/-!
# Binary floating-point formats

A pattern of an interchange format is a sign, an exponent field and a fraction field.
It denotes a number, one of the two infinities, or a NaN that is quiet or signalling.
The denotation is the usual one: a finite number is a rational, and infinities are the
ends of the rationals with two ends.

Below it stands an order-preserving account in integers. In units of the least positive
subnormal every finite magnitude is a natural number, larger fields give larger ones,
and the fields of the infinities give one that is larger than all of them. So patterns
are compared by comparing integers. The widths of the fields are arbitrary.
-/

namespace RvEmu.BinaryFloat

/-- The widths of the two fields. -/
structure Format where
  exponentBits : Nat
  fractionBits : Nat
  positive : 0 < exponentBits

/-- The rationals with both ends. -/
abbrev Extended : Type := WithBot (WithTop ℚ)

def rational (value : ℚ) : Extended := WithBot.some (WithTop.some value)

theorem rational_less (left right : ℚ) (less : left < right) : rational left < rational right :=
  WithBot.coe_lt_coe.mpr (WithTop.coe_lt_coe.mpr less)

/-- What a pattern denotes. The sign of a number is kept for the two zeros. -/
inductive Datum where
  | nan (signaling : Bool)
  | number (negative : Bool) (value : Extended)

/-- The order of the denoted values. No NaN is ordered. -/
def Datum.Less : Datum → Datum → Prop
  | .number _ left, .number _ right => left < right
  | _, _ => False

/-- The order of the denoted values with -0 taken below +0. -/
def Datum.AtMost : Datum → Datum → Prop
  | .number negative left, .number also right =>
    left < right ∨ (left = right ∧ (negative = true ∨ also = false))
  | _, _ => False

/-- The order and the equality of the denoted values; the sign of a zero does not count. -/
def Datum.NotAbove : Datum → Datum → Prop
  | .number _ left, .number _ right => left ≤ right
  | _, _ => False

def Datum.Same : Datum → Datum → Prop
  | .number _ left, .number _ right => left = right
  | _, _ => False

namespace Format

variable (format : Format)

def exponent (bits : Nat) : Nat := bits / 2 ^ format.fractionBits % 2 ^ format.exponentBits

def fraction (bits : Nat) : Nat := bits % 2 ^ format.fractionBits

def negative (bits : Nat) : Bool := bits.testBit (format.fractionBits + format.exponentBits)

/-- The exponent field of the infinities and the NaNs. -/
def top : Nat := 2 ^ format.exponentBits - 1

def bias : Int := 2 ^ (format.exponentBits - 1) - 1

/-- The magnitude of a number with these fields. -/
def magnitude (exponent fraction : Nat) : ℚ :=
  if exponent = 0 then (fraction / 2 ^ format.fractionBits) * 2 ^ (1 - format.bias)
  else (1 + fraction / 2 ^ format.fractionBits) * 2 ^ ((exponent : Int) - format.bias)

/-- The value of a finite pattern. -/
def finite (bits : Nat) : ℚ :=
  if format.negative bits then -format.magnitude (format.exponent bits) (format.fraction bits)
  else format.magnitude (format.exponent bits) (format.fraction bits)

def IsNan (bits : Nat) : Prop := format.exponent bits = format.top ∧ format.fraction bits ≠ 0

instance (bits : Nat) : Decidable (format.IsNan bits) := inferInstanceAs (Decidable (_ ∧ _))

/-- A NaN signals when the first bit of its fraction is clear. -/
def signals (bits : Nat) : Bool := format.fraction bits < 2 ^ (format.fractionBits - 1)

/-- What a pattern denotes. -/
def denote (bits : Nat) : Datum :=
  if format.exponent bits = format.top then
    if format.fraction bits = 0 then
      .number (format.negative bits) (if format.negative bits then ⊥ else ⊤)
    else .nan (format.signals bits)
  else .number (format.negative bits) (rational (format.finite bits))

/-! ## Units -/

/-- The least positive subnormal. -/
def unit : ℚ := 2 ^ (1 - format.bias - (format.fractionBits : Int))

/-- The magnitude of these fields in units. -/
def units (exponent fraction : Nat) : Nat :=
  if exponent = 0 then fraction else (fraction + 2 ^ format.fractionBits) * 2 ^ (exponent - 1)

theorem unit_pos : 0 < format.unit := zpow_pos (by decide) _

/-- Magnitudes are whole numbers of units. -/
theorem magnitude_units (exponent fraction : Nat) :
    format.magnitude exponent fraction = format.units exponent fraction * format.unit := by
  have two : (2 : ℚ) ≠ 0 := by decide
  have scale : format.unit = 2 ^ (1 - format.bias) / 2 ^ format.fractionBits := by
    rw [unit, zpow_sub₀ two, zpow_natCast]
  rw [magnitude, units, scale]
  by_cases subnormal : exponent = 0
  · rw [if_pos subnormal, if_pos subnormal]
    ring
  · rw [if_neg subnormal, if_neg subnormal]
    have shifted : (2 : ℚ) ^ ((exponent : Int) - format.bias) =
        2 ^ (exponent - 1) * 2 ^ (1 - format.bias) := by
      rw [← zpow_natCast, ← zpow_add₀ two]
      congr 1
      omega
    have whole : (2 : ℚ) ^ format.fractionBits ≠ 0 := pow_ne_zero _ two
    rw [shifted, one_add_div whole]
    push_cast
    ring

/-- Larger fields have more units. -/
theorem units_less (exponent fraction larger other : Nat)
    (fits : fraction < 2 ^ format.fractionBits)
    (less : exponent < larger ∨ (exponent = larger ∧ fraction < other)) :
    format.units exponent fraction < format.units larger other := by
  have positive : ∀ k, 0 < 2 ^ k := fun k => Nat.two_pow_pos k
  rw [units, units]
  rcases less with below | ⟨same, below⟩
  · have normal : larger ≠ 0 := by omega
    rw [if_neg normal]
    by_cases subnormal : exponent = 0
    · rw [if_pos subnormal]
      calc fraction < 2 ^ format.fractionBits := fits
        _ ≤ other + 2 ^ format.fractionBits := Nat.le_add_left _ _
        _ ≤ (other + 2 ^ format.fractionBits) * 2 ^ (larger - 1) :=
          Nat.le_mul_of_pos_right _ (positive _)
    · -- One more in the exponent doubles the whole number, and the fraction is below it.
      have doubled : 2 ^ exponent = 2 * 2 ^ (exponent - 1) := by
        rw [← Nat.pow_succ']
        congr 1
        omega
      have grows : 2 ^ exponent ≤ 2 ^ (larger - 1) :=
        Nat.pow_le_pow_right (by decide) (by omega)
      rw [if_neg subnormal]
      calc (fraction + 2 ^ format.fractionBits) * 2 ^ (exponent - 1)
          < (2 * 2 ^ format.fractionBits) * 2 ^ (exponent - 1) :=
            Nat.mul_lt_mul_of_pos_right (by omega) (positive _)
        _ = 2 ^ format.fractionBits * 2 ^ exponent := by rw [doubled]; ring
        _ ≤ 2 ^ format.fractionBits * 2 ^ (larger - 1) := Nat.mul_le_mul_left _ grows
        _ ≤ (other + 2 ^ format.fractionBits) * 2 ^ (larger - 1) :=
          Nat.mul_le_mul_right _ (Nat.le_add_left _ _)
  · rw [← same]
    by_cases subnormal : exponent = 0
    · rw [if_pos subnormal, if_pos subnormal]
      exact below
    · rw [if_neg subnormal, if_neg subnormal]
      exact Nat.mul_lt_mul_of_pos_right (by omega) (positive _)

/-- So the units tell the fields. -/
theorem units_inj (exponent fraction other also : Nat)
    (fits : fraction < 2 ^ format.fractionBits) (alsoFits : also < 2 ^ format.fractionBits)
    (same : format.units exponent fraction = format.units other also) :
    exponent = other ∧ fraction = also := by
  by_contra differ
  rcases Nat.lt_trichotomy exponent other with below | equal | above
  · exact Nat.ne_of_lt (format.units_less _ _ _ _ fits (Or.inl below)) same
  · rcases Nat.lt_trichotomy fraction also with below | equally | above
    · exact Nat.ne_of_lt (format.units_less _ _ _ _ fits (Or.inr ⟨equal, below⟩)) same
    · exact differ ⟨equal, equally⟩
    · exact Nat.ne_of_gt (format.units_less _ _ _ _ alsoFits (Or.inr ⟨equal.symm, above⟩)) same
  · exact Nat.ne_of_gt (format.units_less _ _ _ _ alsoFits (Or.inl above)) same

/-! ## The order -/

/-- A pattern as a signed number of units. -/
def signed (bits : Nat) : Int :=
  if format.negative bits then -(format.units (format.exponent bits) (format.fraction bits) : Int)
  else format.units (format.exponent bits) (format.fraction bits)

/-- The units of the infinities. -/
def limit : Nat := format.units format.top 0

/-- The value of a number of units, up to the infinities at both ends. -/
def spread (count : Int) : Extended :=
  if (format.limit : Int) ≤ count then ⊤
  else if count ≤ -(format.limit : Int) then ⊥
  else rational (count * format.unit)

/-- The number of units is not past the infinities. -/
def Bounded (count : Int) : Prop := -(format.limit : Int) ≤ count ∧ count ≤ format.limit

theorem spread_strict (low high : Int) (lowest : format.Bounded low)
    (highest : format.Bounded high) (less : low < high) : format.spread low < format.spread high := by
  obtain ⟨lowest, -⟩ := lowest
  obtain ⟨-, highest⟩ := highest
  have below : ¬ (format.limit : Int) ≤ low := by omega
  have above : ¬ high ≤ -(format.limit : Int) := by omega
  rw [spread, spread, if_neg below]
  by_cases bottom : low ≤ -(format.limit : Int)
  · rw [if_pos bottom]
    by_cases infinite : (format.limit : Int) ≤ high
    · rw [if_pos infinite]
      exact bot_lt_top
    · rw [if_neg infinite, if_neg above]
      exact WithBot.bot_lt_coe _
  · rw [if_neg bottom]
    by_cases infinite : (format.limit : Int) ≤ high
    · rw [if_pos infinite]
      exact WithBot.coe_lt_coe.mpr (WithTop.coe_lt_top _)
    · rw [if_neg infinite, if_neg above]
      apply rational_less
      exact mul_lt_mul_of_pos_right (Int.cast_lt.mpr less) format.unit_pos

section Spread

variable (left right : Int) (leftBounded : format.Bounded left)
  (rightBounded : format.Bounded right)
include leftBounded rightBounded

/-- Values are ordered as the numbers of units, and different numbers have different
    values. -/
theorem spread_less_iff : format.spread left < format.spread right ↔ left < right := by
  constructor
  · intro less
    rcases Int.lt_trichotomy left right with below | same | above
    · exact below
    · rw [same] at less
      exact absurd less (lt_irrefl _)
    · have back := format.spread_strict right left rightBounded leftBounded above
      exact absurd less (lt_asymm back)
  · exact format.spread_strict left right leftBounded rightBounded

theorem spread_same_iff : format.spread left = format.spread right ↔ left = right := by
  constructor
  · intro same
    rcases Int.lt_trichotomy left right with below | equal | above
    · exact absurd same (ne_of_lt (format.spread_strict left right leftBounded rightBounded below))
    · exact equal
    · exact absurd same.symm
        (ne_of_lt (format.spread_strict right left rightBounded leftBounded above))
  · exact congrArg format.spread

end Spread

theorem top_pos : 0 < format.top := by
  have one : 1 < 2 ^ format.exponentBits :=
    Nat.one_lt_two_pow (Nat.pos_iff_ne_zero.mp format.positive)
  rw [top]
  omega

theorem exponent_le (bits : Nat) : format.exponent bits ≤ format.top :=
  Nat.le_sub_one_of_lt (Nat.mod_lt _ (Nat.two_pow_pos _))

theorem fraction_fits (bits : Nat) : format.fraction bits < 2 ^ format.fractionBits :=
  Nat.mod_lt _ (Nat.two_pow_pos _)

theorem limit_pos : 0 < format.limit := by
  rw [limit, units, if_neg (Nat.ne_of_gt format.top_pos)]
  exact Nat.mul_pos (Nat.add_pos_right _ (Nat.two_pow_pos _)) (Nat.two_pow_pos _)

/-- Finite patterns have fewer units than the infinities. -/
theorem units_finite (bits : Nat) (finite : format.exponent bits ≠ format.top) :
    format.units (format.exponent bits) (format.fraction bits) < format.limit :=
  format.units_less _ _ _ _ (format.fraction_fits bits)
    (Or.inl (Nat.lt_of_le_of_ne (format.exponent_le bits) finite))

/-- The value of a finite pattern is its signed number of units. -/
theorem finite_signed (bits : Nat) : format.finite bits = format.signed bits * format.unit := by
  rw [finite, signed, magnitude_units]
  by_cases sign : format.negative bits = true
  · rw [if_pos sign, if_pos sign]
    push_cast
    ring
  · rw [if_neg sign, if_neg sign]
    push_cast
    ring

/-- What is not a NaN denotes the value of its signed number of units. -/
theorem denote_number (bits : Nat) (number : ¬ format.IsNan bits) :
    format.denote bits = .number (format.negative bits) (format.spread (format.signed bits)) := by
  have positive := format.limit_pos
  rw [denote]
  by_cases infinite : format.exponent bits = format.top
  · have zero : format.fraction bits = 0 := not_not.mp fun some => number ⟨infinite, some⟩
    rw [if_pos infinite, if_pos zero, signed, infinite, zero, ← limit, spread]
    by_cases sign : format.negative bits = true
    · rw [if_pos sign, if_pos sign, if_neg (by omega), if_pos (Int.le_refl _)]
    · rw [if_neg sign, if_neg sign, if_pos (Int.le_refl _)]
  · have small := format.units_finite bits infinite
    have below : ¬ (format.limit : Int) ≤ format.signed bits := by
      rw [signed]
      split <;> omega
    have above : ¬ format.signed bits ≤ -(format.limit : Int) := by
      rw [signed]
      split <;> omega
    rw [if_neg infinite, spread, if_neg below, if_neg above, finite_signed]

/-- A NaN denotes one. -/
theorem denote_nan (bits : Nat) (nan : format.IsNan bits) :
    format.denote bits = .nan (format.signals bits) := by
  rw [denote, if_pos nan.1, if_neg nan.2]

theorem signed_bounds (bits : Nat) (number : ¬ format.IsNan bits) :
    format.Bounded (format.signed bits) := by
  have bound : format.units (format.exponent bits) (format.fraction bits) ≤ format.limit := by
    by_cases infinite : format.exponent bits = format.top
    · have zero : format.fraction bits = 0 := not_not.mp fun some => number ⟨infinite, some⟩
      rw [infinite, zero, limit]
    · exact Nat.le_of_lt (format.units_finite bits infinite)
  rw [signed, Bounded]
  split <;> constructor <;> omega

section Numbers

variable (left right : Nat) (leftNumber : ¬ format.IsNan left)
  (rightNumber : ¬ format.IsNan right)
include leftNumber rightNumber

/-- The denoted values are ordered as the numbers of units. -/
theorem less_iff :
    (format.denote left).Less (format.denote right) ↔ format.signed left < format.signed right := by
  rw [denote_number _ left leftNumber, denote_number _ right rightNumber]
  exact format.spread_less_iff _ _ (format.signed_bounds left leftNumber)
    (format.signed_bounds right rightNumber)

theorem atMost_iff :
    (format.denote left).AtMost (format.denote right) ↔
      format.signed left < format.signed right ∨
        (format.signed left = format.signed right ∧
          (format.negative left = true ∨ format.negative right = false)) := by
  rw [denote_number _ left leftNumber, denote_number _ right rightNumber]
  have leftBounds := format.signed_bounds left leftNumber
  have rightBounds := format.signed_bounds right rightNumber
  exact or_congr (format.spread_less_iff _ _ leftBounds rightBounds)
    (and_congr_left fun _ => format.spread_same_iff _ _ leftBounds rightBounds)

theorem notAbove_iff :
    (format.denote left).NotAbove (format.denote right) ↔
      format.signed left ≤ format.signed right := by
  rw [denote_number _ left leftNumber, denote_number _ right rightNumber]
  have leftBounds := format.signed_bounds left leftNumber
  have rightBounds := format.signed_bounds right rightNumber
  exact not_lt.symm.trans
    ((format.spread_less_iff _ _ rightBounds leftBounds).not.trans not_lt)

theorem same_iff :
    (format.denote left).Same (format.denote right) ↔
      format.signed left = format.signed right := by
  rw [denote_number _ left leftNumber, denote_number _ right rightNumber]
  exact format.spread_same_iff _ _ (format.signed_bounds left leftNumber)
    (format.signed_bounds right rightNumber)

end Numbers

/-- Patterns of the same signed number of units differ at most in their sign. -/
theorem signed_same (left right : Nat) (same : format.signed left = format.signed right) :
    left % 2 ^ (format.fractionBits + format.exponentBits) =
      right % 2 ^ (format.fractionBits + format.exponentBits) := by
  have absolute : ∀ bits, (format.signed bits).natAbs =
      format.units (format.exponent bits) (format.fraction bits) := by
    intro bits
    rw [signed]
    split <;> omega
  have units : format.units (format.exponent left) (format.fraction left) =
      format.units (format.exponent right) (format.fraction right) := by
    rw [← absolute left, same, absolute right]
  obtain ⟨exponents, fractions⟩ := format.units_inj _ _ _ _ (format.fraction_fits left)
    (format.fraction_fits right) units
  rw [exponent, exponent] at exponents
  rw [fraction, fraction] at fractions
  rw [Nat.pow_add, Nat.mod_mul, Nat.mod_mul, exponents, fractions]

/-! ## Kinds of numbers -/

inductive Kind where
  | zero
  | subnormal
  | normal
  | infinite
deriving DecidableEq

/-- The class of a datum: a signed number of some kind, or one of the two NaNs. -/
inductive Class where
  | number (negative : Bool) (kind : Kind)
  | nan (signaling : Bool)
deriving DecidableEq

/-- The least normal magnitude. -/
def leastNormal : ℚ := 2 ^ (1 - format.bias)

/-- The value is of the kind. -/
def OfKind (value : Extended) : Kind → Prop
  | .zero => value = rational 0
  | .subnormal => ∃ finite, value = rational finite ∧ finite ≠ 0 ∧ |finite| < format.leastNormal
  | .normal => ∃ finite, value = rational finite ∧ format.leastNormal ≤ |finite|
  | .infinite => value = ⊥ ∨ value = ⊤

/-- The datum is of the class. -/
def InClass : Datum → Class → Prop
  | .number negative value, .number sign kind => negative = sign ∧ format.OfKind value kind
  | .nan signaling, .nan other => signaling = other
  | _, _ => False

/-- The kind that the fields of a pattern tell, when it is not a NaN. -/
def kindOf (bits : Nat) : Kind :=
  if format.exponent bits = format.top then .infinite
  else if format.exponent bits = 0 then if format.fraction bits = 0 then .zero else .subnormal
  else .normal

/-- The class that the fields tell. -/
def classOf (bits : Nat) : Class :=
  if format.IsNan bits then .nan (format.signals bits)
  else .number (format.negative bits) (format.kindOf bits)

theorem leastNormal_units : format.leastNormal = 2 ^ format.fractionBits * format.unit := by
  have two : (2 : ℚ) ≠ 0 := by decide
  have scale : format.unit = 2 ^ (1 - format.bias) / 2 ^ format.fractionBits := by
    rw [unit, zpow_sub₀ two, zpow_natCast]
  rw [leastNormal, scale, mul_div_cancel₀ _ (pow_ne_zero _ two)]

theorem leastNormal_pos : 0 < format.leastNormal := zpow_pos (by decide) _

/-- The magnitude of a finite pattern, in units. -/
theorem finite_magnitude (bits : Nat) :
    |format.finite bits| =
      format.units (format.exponent bits) (format.fraction bits) * format.unit := by
  have whole : (0 : ℚ) ≤
      format.units (format.exponent bits) (format.fraction bits) * format.unit :=
    mul_nonneg (Nat.cast_nonneg _) (le_of_lt format.unit_pos)
  rw [finite, magnitude_units]
  split
  · rw [abs_neg, abs_of_nonneg whole]
  · exact abs_of_nonneg whole

/-- Below the least normal number are the subnormal patterns. -/
theorem finite_small_iff (bits : Nat) :
    |format.finite bits| < format.leastNormal ↔ format.exponent bits = 0 := by
  rw [finite_magnitude, leastNormal_units, mul_lt_mul_iff_left₀ format.unit_pos]
  have fits := format.fraction_fits bits
  by_cases subnormal : format.exponent bits = 0
  · refine iff_of_true ?_ subnormal
    rw [units, if_pos subnormal]
    exact_mod_cast fits
  · refine iff_of_false ?_ subnormal
    have large : 2 ^ format.fractionBits ≤
        format.units (format.exponent bits) (format.fraction bits) := by
      rw [units, if_neg subnormal]
      exact Nat.le_trans (Nat.le_add_left _ _) (Nat.le_mul_of_pos_right _ (Nat.two_pow_pos _))
    exact not_lt.mpr (by exact_mod_cast large)

theorem finite_zero_iff (bits : Nat) :
    format.finite bits = 0 ↔ format.exponent bits = 0 ∧ format.fraction bits = 0 := by
  have unit := format.unit_pos
  have product : format.finite bits = 0 ↔
      (format.units (format.exponent bits) (format.fraction bits) : ℚ) = 0 := by
    rw [← abs_eq_zero, finite_magnitude, mul_eq_zero, or_iff_left (ne_of_gt unit)]
  rw [product, Nat.cast_eq_zero, units]
  split
  · rename_i subnormal
    exact ⟨fun zero => ⟨subnormal, zero⟩, fun both => both.2⟩
  · rename_i normal
    refine iff_of_false (Nat.ne_of_gt ?_) (fun both => normal both.1)
    exact Nat.mul_pos (Nat.add_pos_right _ (Nat.two_pow_pos _)) (Nat.two_pow_pos _)

theorem rational_inj (left right : ℚ) (same : rational left = rational right) : left = right :=
  WithTop.coe_injective (WithBot.coe_injective same)

/-- No finite value is infinite. -/
theorem rational_ends (value : ℚ) : rational value ≠ ⊥ ∧ rational value ≠ ⊤ :=
  ⟨WithBot.coe_ne_bot, fun same => WithTop.coe_ne_top (WithBot.coe_injective same)⟩

theorem infinite_kind (value : Extended) (ends : value = ⊥ ∨ value = ⊤) (kind : Kind) :
    format.OfKind value kind ↔ kind = .infinite := by
  have infinite : ∀ finite, value ≠ rational finite := by
    rintro finite rfl
    rcases ends with bottom | top
    · exact (rational_ends finite).1 bottom
    · exact (rational_ends finite).2 top
  cases kind with
  | zero => exact iff_of_false (infinite 0) (by decide)
  | subnormal => exact iff_of_false (fun ⟨finite, same, _⟩ => infinite finite same) (by decide)
  | normal => exact iff_of_false (fun ⟨finite, same, _⟩ => infinite finite same) (by decide)
  | infinite => exact iff_of_true ends rfl

/-- The kinds that a finite value may be of. -/
def MagnitudeIs (value : ℚ) : Kind → Prop
  | .zero => value = 0
  | .subnormal => value ≠ 0 ∧ |value| < format.leastNormal
  | .normal => format.leastNormal ≤ |value|
  | .infinite => False

theorem rational_kind (value : ℚ) (kind : Kind) :
    format.OfKind (rational value) kind ↔ format.MagnitudeIs value kind := by
  have finite : ∀ property : ℚ → Prop,
      (∃ other, rational value = rational other ∧ property other) ↔ property value := by
    intro property
    constructor
    · rintro ⟨other, same, holds⟩
      exact rational_inj value other same ▸ holds
    · exact fun holds => ⟨value, rfl, holds⟩
  cases kind with
  | zero => exact ⟨rational_inj value 0, congrArg rational⟩
  | subnormal => exact finite _
  | normal => exact finite _
  | infinite =>
    refine iff_of_false ?_ id
    rintro (bottom | top)
    · exact (rational_ends value).1 bottom
    · exact (rational_ends value).2 top

/-- They exclude each other. -/
theorem magnitudeIs_iff (value : ℚ) (kind other : Kind) (is : format.MagnitudeIs value kind) :
    format.MagnitudeIs value other ↔ other = kind := by
  have least := format.leastNormal_pos
  have zeroSmall : value = 0 → |value| < format.leastNormal := by
    rintro rfl
    rw [abs_zero]
    exact least
  constructor
  · intro also
    cases kind <;> cases other <;> simp only [MagnitudeIs, reduceCtorEq] at is also ⊢
    · exact also.1 is
    · exact absurd (zeroSmall is) (not_lt.mpr also)
    · exact is.1 also
    · exact absurd is.2 (not_lt.mpr also)
    · exact absurd (zeroSmall also) (not_lt.mpr is)
    · exact absurd also.2 (not_lt.mpr is)
  · rintro rfl
    exact is

/-- The fields of a finite pattern tell the kind of its value. -/
theorem finite_kind (bits : Nat) (finite : format.exponent bits ≠ format.top) :
    format.MagnitudeIs (format.finite bits) (format.kindOf bits) := by
  rw [kindOf, if_neg finite]
  by_cases subnormal : format.exponent bits = 0
  · rw [if_pos subnormal]
    by_cases zero : format.fraction bits = 0
    · rw [if_pos zero]
      exact (format.finite_zero_iff bits).mpr ⟨subnormal, zero⟩
    · rw [if_neg zero]
      refine ⟨fun none => zero ((format.finite_zero_iff bits).mp none).2, ?_⟩
      exact (format.finite_small_iff bits).mpr subnormal
  · rw [if_neg subnormal]
    exact not_lt.mp (mt (format.finite_small_iff bits).mp subnormal)

/-- A pattern denotes a datum of the class that its fields tell, and of no other. -/
theorem inClass_iff (bits : Nat) (kind : Class) :
    format.InClass (format.denote bits) kind ↔ kind = format.classOf bits := by
  rw [classOf]
  by_cases nan : format.IsNan bits
  · rw [denote_nan format bits nan, if_pos nan]
    cases kind with
    | number negative kind => exact iff_of_false id (by simp)
    | nan signaling => exact ⟨fun same => by rw [same], fun same => (Class.nan.inj same).symm⟩
  · rw [if_neg nan, denote]
    by_cases infinite : format.exponent bits = format.top
    · have zero : format.fraction bits = 0 := not_not.mp fun some => nan ⟨infinite, some⟩
      have ends : (if format.negative bits then (⊥ : Extended) else ⊤) = ⊥ ∨
          (if format.negative bits then (⊥ : Extended) else ⊤) = ⊤ := by
        split
        · exact Or.inl rfl
        · exact Or.inr rfl
      rw [if_pos infinite, if_pos zero, kindOf, if_pos infinite]
      cases kind with
      | nan signaling => exact iff_of_false id (by simp)
      | number negative kind =>
        rw [InClass, format.infinite_kind _ ends, Class.number.injEq]
        exact and_congr_left fun _ => eq_comm
    · rw [if_neg infinite]
      cases kind with
      | nan signaling => exact iff_of_false id (by simp)
      | number negative kind =>
        rw [InClass, rational_kind, magnitudeIs_iff format _ _ _ (format.finite_kind bits infinite),
          Class.number.injEq]
        exact and_congr_left fun _ => eq_comm

end Format

end RvEmu.BinaryFloat
