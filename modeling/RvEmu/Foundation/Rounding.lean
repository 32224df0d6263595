import Mathlib.Algebra.Order.Field.Rat
import Mathlib.Algebra.Order.Floor.Ring
import Mathlib.Data.Rat.Floor
import Mathlib.Tactic.Linarith

/-!
# Rounding a rational to an integer

The four directions in which arithmetic rounds: to the nearest integer with ties
to the even one, toward zero, down and up. Each of them yields one of the two
integers around the value, so it keeps integers and stays inside integer bounds.
A negative value rounds to zero only near zero, and how near tells the directions
apart.
-/

namespace RvEmu.Rounding

/-- The directions. -/
inductive Direction where
  | nearestEven
  | towardZero
  | downward
  | upward
deriving DecidableEq

/-- The integer that a value rounds to. -/
def toInteger (direction : Direction) (value : ℚ) : ℤ :=
  match direction with
  | .nearestEven =>
    if value - ⌊value⌋ < 1 / 2 then ⌊value⌋
    else if 1 / 2 < value - ⌊value⌋ then ⌊value⌋ + 1
    else if ⌊value⌋ % 2 = 0 then ⌊value⌋
    else ⌊value⌋ + 1
  | .towardZero => if value < 0 then ⌈value⌉ else ⌊value⌋
  | .downward => ⌊value⌋
  | .upward => ⌈value⌉

section Values

variable (direction : Direction) (value : ℚ)

/-- The floor plus one is the ceiling, unless the value is an integer. -/
theorem ceil_of_fraction (fraction : (⌊value⌋ : ℚ) < value) : ⌈value⌉ = ⌊value⌋ + 1 := by
  apply Int.ceil_eq_iff.mpr
  have above := Int.lt_floor_add_one value
  constructor
  · push_cast
    linarith
  · push_cast
    linarith

/-- The result is the floor or the ceiling. -/
theorem toInteger_near :
    toInteger direction value = ⌊value⌋ ∨ toInteger direction value = ⌈value⌉ := by
  cases direction with
  | nearestEven =>
    simp only [toInteger]
    by_cases low : value - ⌊value⌋ < 1 / 2
    · exact Or.inl (if_pos low)
    · have above : ⌈value⌉ = ⌊value⌋ + 1 := ceil_of_fraction value (by linarith)
      rw [if_neg low, above]
      split
      · exact Or.inr rfl
      · split
        · exact Or.inl rfl
        · exact Or.inr rfl
  | towardZero =>
    simp only [toInteger]
    split
    · exact Or.inr rfl
    · exact Or.inl rfl
  | downward => exact Or.inl rfl
  | upward => exact Or.inr rfl

/-- Rounding stays above an integer bound. -/
theorem le_toInteger (bound : ℤ) (above : (bound : ℚ) ≤ value) :
    bound ≤ toInteger direction value := by
  have floor : bound ≤ ⌊value⌋ := Int.le_floor.mpr above
  rcases toInteger_near direction value with same | same
  · rw [same]
    exact floor
  · rw [same]
    exact Int.le_trans floor (Int.floor_le_ceil value)

/-- And below one. -/
theorem toInteger_le (bound : ℤ) (below : value ≤ bound) :
    toInteger direction value ≤ bound := by
  have ceiling : ⌈value⌉ ≤ bound := Int.ceil_le.mpr below
  rcases toInteger_near direction value with same | same
  · rw [same]
    exact Int.le_trans (Int.floor_le_ceil value) ceiling
  · rw [same]
    exact ceiling

/-- An integer rounds to itself. -/
theorem toInteger_intCast (n : ℤ) : toInteger direction (n : ℚ) = n := by
  rcases toInteger_near direction (n : ℚ) with same | same
  · rw [same, Int.floor_intCast]
  · rw [same, Int.ceil_intCast]

end Values

/-- The negative values that round to zero. -/
def Vanishes (direction : Direction) (value : ℚ) : Prop :=
  match direction with
  | .nearestEven => -(1 / 2) ≤ value ∧ value < 0
  | .towardZero => -1 < value ∧ value < 0
  | .downward => False
  | .upward => -1 < value ∧ value < 0

/-- Between minus one and zero the floor is minus one. -/
theorem floor_small (value : ℚ) (above : -1 ≤ value) (negative : value < 0) : ⌊value⌋ = -1 := by
  apply Int.floor_eq_iff.mpr
  constructor
  · push_cast
    exact above
  · push_cast
    linarith

theorem ceil_zero_iff (value : ℚ) (negative : value < 0) : ⌈value⌉ = 0 ↔ -1 < value := by
  constructor
  · intro zero
    have below := (Int.ceil_eq_iff.mp zero).1
    push_cast at below
    linarith
  · intro above
    apply Int.ceil_eq_iff.mpr
    constructor
    · push_cast
      linarith
    · push_cast
      exact negative.le

/-- A negative value rounds to zero exactly when it vanishes. -/
theorem vanishes_iff (direction : Direction) (value : ℚ) :
    value < 0 ∧ toInteger direction value = 0 ↔ Vanishes direction value := by
  cases direction with
  | nearestEven =>
    simp only [Vanishes]
    constructor
    · rintro ⟨negative, zero⟩
      refine ⟨?_, negative⟩
      by_contra low
      have below : value < -(1 / 2) := not_le.mp low
      have result : toInteger .nearestEven value ≤ -1 := by
        by_cases above : -1 ≤ value
        · have floor := floor_small value above negative
          have near : value - ⌊value⌋ < 1 / 2 := by
            rw [floor]
            push_cast
            linarith
          simp only [toInteger]
          rw [if_pos near, floor]
        · exact toInteger_le .nearestEven value (-1) (by push_cast; linarith)
      omega
    · rintro ⟨above, negative⟩
      refine ⟨negative, ?_⟩
      have floor := floor_small value (by linarith) negative
      have far : ¬ value - ⌊value⌋ < 1 / 2 := by
        rw [floor]
        push_cast
        linarith
      simp only [toInteger]
      rw [if_neg far, floor]
      split
      · rfl
      · rfl
  | towardZero =>
    simp only [Vanishes, toInteger]
    constructor
    · rintro ⟨negative, zero⟩
      rw [if_pos negative] at zero
      exact ⟨(ceil_zero_iff value negative).mp zero, negative⟩
    · rintro ⟨above, negative⟩
      rw [if_pos negative]
      exact ⟨negative, (ceil_zero_iff value negative).mpr above⟩
  | downward =>
    simp only [Vanishes, toInteger, iff_false, not_and]
    intro negative zero
    have above := (Int.floor_eq_iff.mp zero).1
    push_cast at above
    linarith
  | upward =>
    simp only [Vanishes, toInteger]
    constructor
    · rintro ⟨negative, zero⟩
      exact ⟨(ceil_zero_iff value negative).mp zero, negative⟩
    · rintro ⟨above, negative⟩
      exact ⟨negative, (ceil_zero_iff value negative).mpr above⟩

end RvEmu.Rounding
