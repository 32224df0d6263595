import RvEmu.BaseInstructions
import RvEmu.FloatValues
import RvEmu.Foundation.Rounding

/-!
# Conversion of a float to an integer

The conversions round the denoted value in the mode of the instruction or of
`frm`, and the range test is about the rounded integer. The source tests the value
before it rounds. For the signed target, and for the unsigned one above zero, the
two tests agree, because a pattern large enough to matter is an integer already. A
negative value that rounds to zero is in the unsigned range; the source refuses it.
-/

namespace RvEmu.FloatToInt

open BinaryFloat FloatValues Rounding InstructionSet

/-! ## The conversion -/

/-- The least and the greatest integer of the target. -/
def lowest (isUnsigned : Bool) : ℤ := if isUnsigned then 0 else -2147483648

def highest (isUnsigned : Bool) : ℤ := if isUnsigned then 4294967295 else 2147483647

/-- The result and the flags for a number. -/
def ofNumber (isUnsigned : Bool) (direction : Direction) (value : ℚ) : Word × Word :=
  if toInteger direction value < lowest isUnsigned then
    (BitVec.ofInt 32 (lowest isUnsigned), fpNv)
  else if highest isUnsigned < toInteger direction value then
    (BitVec.ofInt 32 (highest isUnsigned), fpNv)
  else
    (BitVec.ofInt 32 (toInteger direction value),
      if (toInteger direction value : ℚ) = value then 0 else fpNx)

/-- The result and the flags for what a pattern denotes: a NaN and the infinities
    saturate, the NaN at the maximum. -/
inductive Converted (isUnsigned : Bool) (direction : Direction) : Datum → Word × Word → Prop where
  | nan (signaling : Bool) :
    Converted isUnsigned direction (.nan signaling)
      (BitVec.ofInt 32 (highest isUnsigned), fpNv)
  | above (negative : Bool) :
    Converted isUnsigned direction (.number negative ⊤)
      (BitVec.ofInt 32 (highest isUnsigned), fpNv)
  | below (negative : Bool) :
    Converted isUnsigned direction (.number negative ⊥)
      (BitVec.ofInt 32 (lowest isUnsigned), fpNv)
  | finite (negative : Bool) (value : ℚ) :
    Converted isUnsigned direction (.number negative (rational value))
      (ofNumber isUnsigned direction value)

/-- The rounding modes by their numbers; 7 stands for the mode in `frm`. -/
def staticMode (rm : Word) : Option Direction :=
  if rm = 0 then some .nearestEven
  else if rm = 1 then some .towardZero
  else if rm = 2 then some .downward
  else if rm = 3 then some .upward
  else none

def effectiveMode (rm : BitVec 3) (frm : Word) : Option Direction :=
  staticMode (if rm = 7 then frm else rm.setWidth 32)

/-- `FCVT.W.S` and `FCVT.WU.S`. -/
structure IsConversion (inst : DecodedInst) (isUnsigned : Bool) : Prop where
  opcode : inst.opcode = .fp
  funct7 : inst.funct7 = 0x60
  rs2 : inst.rs2 = if isUnsigned then 1 else 0

/-- The directions of the host's modes. -/
def meaning : HostRounding → Direction
  | .toNearest => .nearestEven
  | .towardZero => .towardZero
  | .downward => .downward
  | .upward => .upward

/-- The documented behaviour of `nearbyintf` on an operand: a number goes to the pattern
    of its rounding in the mode in force, and nothing is raised. -/
def Nearby (host : HostFloat) (mode : HostRounding) (a : Word) : Prop :=
  ∀ negative value, denotes a = .number negative (rational value) →
    (∃ sign, denotes (host.nearbyint mode a).1 =
      .number sign (rational (toInteger (meaning mode) value))) ∧
    fpFlags (host.nearbyint mode a).2 = 0

/-- The instruction writes the converted value to `rd` and adds its flags. -/
def Converts (host : HostFloat) (emu : Emulator) (inst : DecodedInst) (isUnsigned : Bool)
    (direction : Direction) : Prop :=
  ∃ result flags,
    Converted isUnsigned direction (denotes (emu.rf.fregs inst.rs1)) (result, flags) ∧
    execute host emu inst =
      (.retired .quiet,
        { emu with
          rf := { emu.rf with regs := put emu.rf.regs inst.rd result, pc := seqPc emu inst }
          csr := { emu.csr with fflags := emu.csr.fflags ||| flags } })

/-! ## Values -/

/-- The value of a pattern that is a number. -/
def exact (a : Word) : ℚ := f32Value a / 2 ^ 149

theorem unit_value : binary32.unit = 1 / 2 ^ 149 := by
  have exponent : (1 - binary32.bias - (binary32.fractionBits : Int)) = -149 := by decide
  rw [Format.unit, exponent, zpow_neg, one_div]
  rfl

/-- Patterns that are no NaN: infinities and numbers, by their units. -/
theorem number_cases (a : Word) (number : bitsIsNan a = false) :
    (denotes a = .number (binary32.negative a.toNat) ⊤ ∧ unitsOf (2 ^ 128) ≤ f32Value a) ∨
      (denotes a = .number (binary32.negative a.toNat) ⊥ ∧ f32Value a ≤ -unitsOf (2 ^ 128)) ∨
      denotes a = .number (binary32.negative a.toNat) (rational (exact a)) := by
  have regular : ¬ binary32.IsNan a.toNat := by
    rw [← bitsIsNan_iff, number]
    exact Bool.false_ne_true
  have limit : (binary32.limit : Int) = unitsOf (2 ^ 128) := by decide
  have denoted : denotes a =
      .number (binary32.negative a.toNat) (binary32.spread (f32Value a)) := by
    rw [denotes, binary32.denote_number _ regular, ← f32Value_signed]
  rw [Format.spread, limit] at denoted
  by_cases high : unitsOf (2 ^ 128) ≤ f32Value a
  · rw [if_pos high] at denoted
    exact Or.inl ⟨denoted, high⟩
  · by_cases low : f32Value a ≤ -unitsOf (2 ^ 128)
    · rw [if_neg high, if_pos low] at denoted
      exact Or.inr (Or.inl ⟨denoted, low⟩)
    · rw [if_neg high, if_neg low, unit_value, mul_one_div] at denoted
      exact Or.inr (Or.inr denoted)

/-- A finite value is the exact one, and not that of a NaN. -/
theorem exact_of_denotes (a : Word) (negative : Bool) (value : ℚ)
    (denoted : denotes a = .number negative (rational value)) :
    bitsIsNan a = false ∧ exact a = value := by
  have number : bitsIsNan a = false := by
    by_contra nan
    rw [Bool.not_eq_false, bitsIsNan_iff] at nan
    rw [denotes, binary32.denote_nan _ nan] at denoted
    cases denoted
  refine ⟨number, ?_⟩
  rcases number_cases a number with ⟨top, -⟩ | ⟨bottom, -⟩ | finite
  · rw [top] at denoted
    have same := (Datum.number.inj denoted).2
    exact absurd (WithBot.coe_injective same) WithTop.top_ne_coe
  · rw [bottom] at denoted
    have same := (Datum.number.inj denoted).2
    exact absurd same WithBot.bot_ne_coe
  · rw [finite] at denoted
    have same := (Datum.number.inj denoted).2
    exact WithTop.coe_injective (WithBot.coe_injective same)

/-- Comparisons with integers on units are comparisons of values. -/
theorem units_le (a : Word) (n : ℤ) : unitsOf n ≤ f32Value a ↔ (n : ℚ) ≤ exact a := by
  have positive : (0 : ℚ) < 2 ^ 149 := by positivity
  rw [exact, le_div_iff₀ positive, unitsOf]
  exact_mod_cast Iff.rfl

theorem units_lt (a : Word) (n : ℤ) : f32Value a < unitsOf n ↔ exact a < n := by
  rw [← not_le, ← not_le, units_le]

theorem lt_units (a : Word) (n : ℤ) : unitsOf n < f32Value a ↔ (n : ℚ) < exact a := by
  have positive : (0 : ℚ) < 2 ^ 149 := by positivity
  rw [exact, lt_div_iff₀ positive, unitsOf]
  exact_mod_cast Iff.rfl

theorem units_eq (a : Word) (n : ℤ) : unitsOf n = f32Value a ↔ (n : ℚ) = exact a := by
  have positive : (2 : ℚ) ^ 149 ≠ 0 := by positivity
  rw [exact, eq_div_iff positive, unitsOf]
  exact_mod_cast Iff.rfl

/-- A magnitude is a multiple of one, or below `2 ^ 23`. -/
theorem magnitude_whole (a : Word) :
    2 ^ 149 ∣ f32Magnitude a ∨ f32Magnitude a < 2 ^ 23 * 2 ^ 149 := by
  have fraction : (a &&& 0x007FFFFF).toNat < 2 ^ 23 := by
    have masked : (a &&& 0x007FFFFF).toNat = a.toNat % 2 ^ 23 := BitMasks.and_low a 23 (by decide)
    rw [masked]
    exact Nat.mod_lt _ (by decide)
  rw [f32Magnitude]
  generalize (a &&& 0x007FFFFF).toNat = low at fraction ⊢
  generalize ((a >>> 23) &&& 0xFF).toNat = exponent
  by_cases subnormal : exponent = 0
  · rw [if_pos subnormal]
    exact Or.inr (Nat.lt_of_lt_of_le fraction (by decide))
  · rw [if_neg subnormal]
    by_cases large : 150 ≤ exponent
    · exact Or.inl (Dvd.dvd.mul_left (Nat.pow_dvd_pow 2 (by omega)) _)
    · right
      have scale : 2 ^ (exponent - 1) ≤ 2 ^ 148 := Nat.pow_le_pow_right (by decide) (by omega)
      calc (low + 2 ^ 23) * 2 ^ (exponent - 1)
          ≤ (low + 2 ^ 23) * 2 ^ 148 := Nat.mul_le_mul_left _ scale
        _ < 2 ^ 24 * 2 ^ 148 := Nat.mul_lt_mul_of_pos_right (by omega) (by decide)
        _ = 2 ^ 23 * 2 ^ 149 := by decide

/-- A value is an integer, or between `-2 ^ 23` and `2 ^ 23`. -/
theorem exact_whole (a : Word) :
    (∃ n : ℤ, exact a = n) ∨ ((-8388608 : ℤ) ≤ exact a ∧ exact a ≤ (8388608 : ℤ)) := by
  have signed : f32Value a = f32Magnitude a ∨ f32Value a = -(f32Magnitude a : Int) := by
    rw [f32Value]
    split
    · exact Or.inr rfl
    · exact Or.inl rfl
  have positive : (0 : ℚ) < 2 ^ 149 := by positivity
  rcases magnitude_whole a with whole | small
  · obtain ⟨n, multiple⟩ := whole
    left
    have value : ∀ m : ℤ, f32Value a = unitsOf m → exact a = m :=
      fun m same => ((units_eq a m).mp same.symm).symm
    rcases signed with same | same
    · refine ⟨n, value n ?_⟩
      rw [same, multiple, unitsOf]
      push_cast
      ring
    · refine ⟨-n, value (-n) ?_⟩
      rw [same, multiple, unitsOf]
      push_cast
      ring
  · right
    constructor
    · rw [← units_le, unitsOf]
      omega
    · rw [exact, div_le_iff₀ positive]
      have bound : f32Value a ≤ 8388608 * 2 ^ 149 := by omega
      exact_mod_cast bound

section Rounding

variable (direction : Direction) (a : Word)

/-- A value below an integer bound rounds below it, if the bound is large. -/
theorem rounded_below (n : ℤ) (large : 8388608 < n) (below : exact a < n) :
    toInteger direction (exact a) < n := by
  rcases exact_whole a with ⟨k, whole⟩ | ⟨-, small⟩
  · rw [whole] at below ⊢
    rw [toInteger_intCast]
    exact_mod_cast below
  · have bound := toInteger_le direction (exact a) 8388608 small
    omega

/-- A value below a negative bound that is large rounds below it, too. -/
theorem rounded_under (n : ℤ) (large : n < -8388608) (below : exact a < n) :
    toInteger direction (exact a) < n := by
  rcases exact_whole a with ⟨k, whole⟩ | ⟨small, -⟩
  · rw [whole] at below ⊢
    rw [toInteger_intCast]
    exact_mod_cast below
  · have range : ((n : ℤ) : ℚ) < (-8388608 : ℤ) := by exact_mod_cast large
    linarith

end Rounding

/-! ## The specified result -/

section Specified

variable (isUnsigned : Bool) (direction : Direction) (value : ℚ)

theorem ofNumber_below (below : toInteger direction value < lowest isUnsigned) :
    ofNumber isUnsigned direction value = (BitVec.ofInt 32 (lowest isUnsigned), fpNv) :=
  if_pos below

theorem ofNumber_above (least : lowest isUnsigned ≤ toInteger direction value)
    (above : highest isUnsigned < toInteger direction value) :
    ofNumber isUnsigned direction value = (BitVec.ofInt 32 (highest isUnsigned), fpNv) := by
  rw [ofNumber, if_neg (not_lt.mpr least), if_pos above]

theorem ofNumber_inside (least : lowest isUnsigned ≤ toInteger direction value)
    (most : toInteger direction value ≤ highest isUnsigned) :
    ofNumber isUnsigned direction value =
      (BitVec.ofInt 32 (toInteger direction value),
        if (toInteger direction value : ℚ) = value then 0 else fpNx) := by
  rw [ofNumber, if_neg (not_lt.mpr least), if_neg (not_lt.mpr most)]

/-- The conversion of a finite number is determined. -/
theorem converted_number (negative : Bool) (out : Word × Word)
    (converted : Converted isUnsigned direction (.number negative (rational value)) out) :
    out = ofNumber isUnsigned direction value := by
  generalize datum : Datum.number negative (rational value) = source at converted
  cases converted with
  | nan signaling => cases datum
  | above sign =>
    have same := (Datum.number.inj datum).2
    exact absurd (WithBot.coe_injective same) WithTop.coe_ne_top
  | below sign =>
    have same := (Datum.number.inj datum).2
    exact absurd same WithBot.coe_ne_bot
  | finite sign other =>
    have same := (Datum.number.inj datum).2
    rw [WithTop.coe_injective (WithBot.coe_injective same)]

end Specified

/-! ## The rounding half -/

/-- Adding no flags. -/
theorem raiseFlags_none (csr : Csr) : raiseFlags csr 0 = csr := by
  have same : csr.fflags ||| 0 = csr.fflags := BitVec.or_zero
  rw [raiseFlags, same]

/-- Past the range tests the source yields the rounded value, and compares it. -/
theorem fpRoundToInt_value (host : HostFloat) (csr : Csr) (rm a : Word) (negative : Bool)
    (direction : Direction)
    (denoted : denotes a = .number negative (rational (exact a)))
    (mode : meaning (hostRounding rm csr.frm) = direction)
    (nearby : Nearby host (hostRounding rm csr.frm) a) :
    fpRoundToInt host csr rm a =
      (BitVec.ofInt 32 (toInteger direction (exact a)),
        raiseFlags csr (if (toInteger direction (exact a) : ℚ) = exact a then 0 else fpNx)) := by
  obtain ⟨⟨sign, result⟩, quiet⟩ := nearby negative (exact a) denoted
  rw [mode] at result
  obtain ⟨number, value⟩ := exact_of_denotes _ sign _ result
  obtain ⟨source, -⟩ := exact_of_denotes a negative _ denoted
  have units : f32Value (host.nearbyint (hostRounding rm csr.frm) a).1 =
      unitsOf (toInteger direction (exact a)) := ((units_eq _ _).mpr value.symm).symm
  have truncated : f32Truncate (host.nearbyint (hostRounding rm csr.frm) a).1 =
      BitVec.ofInt 32 (toInteger direction (exact a)) := by
    rw [f32Truncate, units, unitsOf, Int.mul_tdiv_cancel _ (by decide)]
  have compared : f32Eq (host.nearbyint (hostRounding rm csr.frm) a).1 a = true ↔
      (toInteger direction (exact a) : ℚ) = exact a := by
    rw [← units_eq, f32Eq, number, source, units]
    simp only [Bool.not_false, Bool.true_and, decide_eq_true_eq]
  simp only [fpRoundToInt, quiet, truncated, raiseFlags_none]
  by_cases same : (toInteger direction (exact a) : ℚ) = exact a
  · rw [if_pos (compared.mpr same), if_pos same, raiseFlags_none]
  · rw [if_neg (mt compared.mp same), if_neg same]

/-! ## The whole conversion -/

/-- A negative number that rounds to zero. -/
def Vanishing (direction : Direction) (a : Word) : Prop :=
  ∃ negative value, denotes a = .number negative (rational value) ∧ Vanishes direction value

section Conversion

variable (host : HostFloat) (csr : Csr) (rm a : Word) (direction : Direction)

/-- The signs that the source tests are those of the value. -/
theorem positive_iff : f32Value a > 0 ↔ 0 < exact a := by
  have compared := lt_units a 0
  rw [unitsOf, Int.zero_mul, Int.cast_zero] at compared
  exact compared

theorem negative_iff : f32Value a < 0 ↔ exact a < 0 := by
  have compared := units_lt a 0
  rw [unitsOf, Int.zero_mul, Int.cast_zero] at compared
  exact compared

/-- The unsigned conversion of a number that does not vanish. -/
theorem unsigned_number (negative : Bool)
    (denoted : denotes a = .number negative (rational (exact a)))
    (mode : meaning (hostRounding rm csr.frm) = direction)
    (nearby : Nearby host (hostRounding rm csr.frm) a)
    (stays : ¬ Vanishes direction (exact a)) (number : bitsIsNan a = false) :
    fpFloatToInt host csr rm a true =
      ((ofNumber true direction (exact a)).1,
        raiseFlags csr (ofNumber true direction (exact a)).2) := by
  have regular : ¬ bitsIsNan a = true := Bool.eq_false_iff.mp number
  rw [fpFloatToInt, if_neg regular, if_pos rfl]
  by_cases positive : f32Value a > 0
  · have above := (positive_iff a).mp positive
    have least : 0 ≤ toInteger direction (exact a) :=
      le_toInteger direction (exact a) 0 (by push_cast; exact above.le)
    rw [if_neg (not_not.mpr positive)]
    by_cases large : f32Value a ≥ unitsOf 4294967296
    · have bound : 4294967296 ≤ toInteger direction (exact a) :=
        le_toInteger direction (exact a) 4294967296 ((units_le a _).mp large)
      rw [if_pos large, ofNumber_above true direction (exact a) least
        (by change (4294967295 : ℤ) < _; omega)]
      rfl
    · have bound := rounded_below direction a 4294967296 (by decide)
        ((units_lt a 4294967296).mp (not_le.mp large))
      rw [if_neg large, fpRoundToInt_value host csr rm a negative direction denoted mode nearby,
        ofNumber_inside true direction (exact a) least (by change _ ≤ (4294967295 : ℤ); omega)]
  · rw [if_pos positive]
    by_cases below : f32Value a < 0
    · have under := (negative_iff a).mp below
      have least : toInteger direction (exact a) ≤ 0 :=
        toInteger_le direction (exact a) 0 (by push_cast; exact under.le)
      have nonzero : toInteger direction (exact a) ≠ 0 :=
        fun zero => stays ((vanishes_iff direction (exact a)).mp ⟨under, zero⟩)
      rw [if_pos below, ofNumber_below true direction (exact a) (by change _ < (0 : ℤ); omega)]
      rfl
    · have zero : exact a = ((0 : ℤ) : ℚ) := by
        have low := mt (positive_iff a).mpr positive
        have high := mt (negative_iff a).mpr below
        push_cast
        linarith
      have rounded : toInteger direction (exact a) = 0 := by
        rw [zero]
        exact toInteger_intCast direction 0
      rw [if_neg below, ofNumber_inside true direction (exact a)
        (by rw [rounded]; decide) (by rw [rounded]; decide), rounded, zero, if_pos rfl,
        raiseFlags_none]
      rfl

/-- The signed conversion of a number. -/
theorem signed_number (negative : Bool)
    (denoted : denotes a = .number negative (rational (exact a)))
    (mode : meaning (hostRounding rm csr.frm) = direction)
    (nearby : Nearby host (hostRounding rm csr.frm) a) (number : bitsIsNan a = false) :
    fpFloatToInt host csr rm a false =
      ((ofNumber false direction (exact a)).1,
        raiseFlags csr (ofNumber false direction (exact a)).2) := by
  have regular : ¬ bitsIsNan a = true := Bool.eq_false_iff.mp number
  rw [fpFloatToInt, if_neg regular, if_neg Bool.false_ne_true]
  by_cases large : f32Value a ≥ unitsOf 2147483648
  · have bound : 2147483648 ≤ toInteger direction (exact a) :=
      le_toInteger direction (exact a) 2147483648 ((units_le a _).mp large)
    rw [if_pos large, ofNumber_above false direction (exact a)
      (by change (-2147483648 : ℤ) ≤ _; omega) (by change (2147483647 : ℤ) < _; omega)]
    rfl
  · have upper := rounded_below direction a 2147483648 (by decide)
      ((units_lt a 2147483648).mp (not_le.mp large))
    rw [if_neg large]
    by_cases small : f32Value a < unitsOf (-2147483648)
    · have bound := rounded_under direction a (-2147483648) (by decide)
        ((units_lt a (-2147483648)).mp small)
      rw [if_pos small, ofNumber_below false direction (exact a) bound]
      rfl
    · have lower : -2147483648 ≤ toInteger direction (exact a) :=
        le_toInteger direction (exact a) (-2147483648) ((units_le a _).mp (not_lt.mp small))
      rw [if_neg small, fpRoundToInt_value host csr rm a negative direction denoted mode nearby,
        ofNumber_inside false direction (exact a) lower (by change _ ≤ (2147483647 : ℤ); omega)]

/-- A NaN and the infinities saturate. -/
theorem nan_saturates (isUnsigned : Bool) (nan : bitsIsNan a = true) :
    fpFloatToInt host csr rm a isUnsigned =
      (BitVec.ofInt 32 (highest isUnsigned), raiseFlags csr fpNv) := by
  rw [fpFloatToInt, if_pos nan]
  cases isUnsigned with
  | true => rfl
  | false => rfl

theorem top_saturates (isUnsigned : Bool) (number : bitsIsNan a = false)
    (top : unitsOf (2 ^ 128) ≤ f32Value a) :
    fpFloatToInt host csr rm a isUnsigned =
      (BitVec.ofInt 32 (highest isUnsigned), raiseFlags csr fpNv) := by
  have regular : ¬ bitsIsNan a = true := Bool.eq_false_iff.mp number
  have order : 0 < unitsOf 4294967296 ∧ unitsOf 4294967296 ≤ unitsOf (2 ^ 128) ∧
      unitsOf 2147483648 ≤ unitsOf (2 ^ 128) := by decide
  obtain ⟨positive, unsigned, signed⟩ := order
  rw [fpFloatToInt, if_neg regular]
  cases isUnsigned with
  | true =>
    have above : f32Value a > 0 := lt_of_lt_of_le (lt_of_lt_of_le positive unsigned) top
    rw [if_pos rfl, if_neg (not_not.mpr above), if_pos (ge_iff_le.mpr (le_trans unsigned top))]
    rfl
  | false =>
    rw [if_neg Bool.false_ne_true, if_pos (ge_iff_le.mpr (le_trans signed top))]
    rfl

theorem bottom_saturates (isUnsigned : Bool) (number : bitsIsNan a = false)
    (bottom : f32Value a ≤ -unitsOf (2 ^ 128)) :
    fpFloatToInt host csr rm a isUnsigned =
      (BitVec.ofInt 32 (lowest isUnsigned), raiseFlags csr fpNv) := by
  have regular : ¬ bitsIsNan a = true := Bool.eq_false_iff.mp number
  have order : -unitsOf (2 ^ 128) < 0 ∧ 0 < unitsOf 2147483648 ∧
      -unitsOf (2 ^ 128) < unitsOf (-2147483648) := by decide
  obtain ⟨negative, positive, signed⟩ := order
  have below : f32Value a < 0 := lt_of_le_of_lt bottom negative
  rw [fpFloatToInt, if_neg regular]
  cases isUnsigned with
  | true =>
    rw [if_pos rfl, if_pos (not_lt.mpr below.le), if_pos below]
    rfl
  | false =>
    rw [if_neg Bool.false_ne_true, if_neg (not_le.mpr (below.trans positive)),
      if_pos (lt_of_le_of_lt bottom signed)]
    rfl

/-- Outside the vanishing numbers the source converts. -/
theorem conversion_regular (isUnsigned : Bool)
    (mode : meaning (hostRounding rm csr.frm) = direction)
    (nearby : Nearby host (hostRounding rm csr.frm) a)
    (stays : ¬ (isUnsigned = true ∧ Vanishing direction a)) :
    ∃ result flags, Converted isUnsigned direction (denotes a) (result, flags) ∧
      fpFloatToInt host csr rm a isUnsigned = (result, raiseFlags csr flags) := by
  cases number : bitsIsNan a with
  | true =>
    have denoted : denotes a = .nan (binary32.signals a.toNat) :=
      binary32.denote_nan _ ((bitsIsNan_iff a).mp number)
    rw [denoted]
    exact ⟨_, _, .nan _, nan_saturates host csr rm a isUnsigned number⟩
  | false =>
    rcases number_cases a number with ⟨denoted, top⟩ | ⟨denoted, bottom⟩ | denoted
    · rw [denoted]
      exact ⟨_, _, .above _, top_saturates host csr rm a isUnsigned number top⟩
    · rw [denoted]
      exact ⟨_, _, .below _, bottom_saturates host csr rm a isUnsigned number bottom⟩
    · refine ⟨_, _, by rw [denoted]; exact .finite _ (exact a), ?_⟩
      cases isUnsigned with
      | true =>
        have remains : ¬ Vanishes direction (exact a) :=
          fun vanishes => stays ⟨rfl, _, _, denoted, vanishes⟩
        exact unsigned_number host csr rm a direction _ denoted mode nearby remains number
      | false => exact signed_number host csr rm a direction _ denoted mode nearby number

/-- A vanishing number is refused, where its conversion is an inexact zero. -/
theorem conversion_vanishing (vanishing : Vanishing direction a) :
    fpFloatToInt host csr rm a true = (0, raiseFlags csr fpNv) ∧
      ∀ out, Converted true direction (denotes a) out → out = (0, fpNx) := by
  obtain ⟨sign, value, denoted, vanishes⟩ := vanishing
  obtain ⟨number, same⟩ := exact_of_denotes a sign value denoted
  obtain ⟨negative, zero⟩ := (vanishes_iff direction value).mpr vanishes
  have regular : ¬ bitsIsNan a = true := Bool.eq_false_iff.mp number
  have below : f32Value a < 0 := by
    rw [negative_iff, same]
    exact negative
  constructor
  · rw [fpFloatToInt, if_neg regular, if_pos rfl, if_pos (not_lt.mpr below.le), if_pos below]
  · intro out converted
    have inexact : ofNumber true direction value = (0, fpNx) := by
      rw [ofNumber_inside true direction value (by rw [zero]; decide) (by rw [zero]; decide), zero,
        if_neg (by push_cast; exact negative.ne')]
      rfl
    rw [denoted] at converted
    rw [converted_number true direction value sign out converted, inexact]

end Conversion

/-! ## Execution -/

/-- An effective mode of the four is the host's mode. -/
theorem effective_host (rm : BitVec 3) (frm : Word) (direction : Direction)
    (effective : effectiveMode rm frm = some direction) :
    meaning (hostRounding (rm.setWidth 32) frm) = direction := by
  have dynamic : (rm.setWidth 32 = (7 : Word)) ↔ rm = 7 :=
    BitFields.wide_inj rm 7 (by decide)
  simp only [effectiveMode, staticMode] at effective
  simp only [hostRounding, dynamic]
  generalize (if rm = 7 then frm else rm.setWidth 32) = number at effective ⊢
  by_cases nearest : number = 0
  · rw [if_pos nearest] at effective ⊢
    exact Option.some.inj effective
  · rw [if_neg nearest] at effective ⊢
    by_cases zero : number = 1
    · rw [if_pos zero] at effective ⊢
      exact Option.some.inj effective
    · rw [if_neg zero] at effective ⊢
      by_cases down : number = 2
      · rw [if_pos down] at effective ⊢
        exact Option.some.inj effective
      · rw [if_neg down] at effective ⊢
        by_cases up : number = 3
        · rw [if_pos up] at effective ⊢
          exact Option.some.inj effective
        · rw [if_neg up] at effective
          cases effective

section Execution

variable (host : HostFloat) (emu : Emulator) (inst : DecodedInst) (isUnsigned : Bool)
  (direction : Direction)

/-- What `execute` does with the result of `fp_float_to_int`. -/
theorem execute_conversion (kind : IsConversion inst isUnsigned) (result : Word) (csr : Csr)
    (converted : fpFloatToInt host emu.csr (inst.funct3.setWidth 32) (emu.rf.fregs inst.rs1)
      isUnsigned = (result, csr)) :
    execute host emu inst =
      (.retired .quiet,
        { emu with
          rf := { emu.rf with regs := put emu.rf.regs inst.rd result, pc := seqPc emu inst }
          csr := csr }) := by
  have operation : inst.funct7 = 0x60#7 := kind.funct7
  have small : ¬ inst.rs2 > 1 := by
    rw [kind.rs2]
    cases isUnsigned <;> decide
  have target : decide (inst.rs2 = 1) = isUnsigned := by
    rw [kind.rs2]
    cases isUnsigned <;> rfl
  have done : fpuExecute host emu.rf emu.csr inst =
      some (regWrite emu.rf inst.rd result, csr) := by
    simp only [fpuExecute, operation, if_neg small, target, converted]
    rfl
  have switched : execSwitch host emu inst =
      .next { emu with rf := regWrite emu.rf inst.rd result, csr := csr } (seqPc emu inst)
        .quiet := by
    simp only [execSwitch, kind.opcode, execFp, done]
  simp only [execute, switched, BaseInstructions.regWrite_put]

/-- Invalid and inexact add the same bits only where both are set. -/
theorem same_flags (flags : Word) :
    flags ||| fpNx = flags ||| fpNv ↔ flags &&& 0x11 = 0x11 := by
  have both : (0x11 : Word) = fpNx ||| fpNv := by decide
  constructor
  · intro same
    have inexact : (flags ||| fpNv) &&& fpNx = flags &&& fpNx :=
      BitMasks.or_keeps flags fpNv fpNx (by decide)
    have invalid : (flags ||| fpNx) &&& fpNv = flags &&& fpNv :=
      BitMasks.or_keeps flags fpNx fpNv (by decide)
    rw [← same, BitMasks.or_inside] at inexact
    rw [same, BitMasks.or_inside] at invalid
    rw [both, BitVec.and_or_distrib_left, ← inexact, ← invalid]
  · intro held
    have kept : ∀ mask : Word, (0x11 : Word) &&& mask = mask → flags ||| mask = flags := by
      intro mask inside
      apply BitMasks.or_held
      rw [← inside, ← BitVec.and_assoc, held]
    rw [kept fpNx (by decide), kept fpNv (by decide)]

end Execution

/-- The conversion is the specified one exactly where no negative number that rounds to
    zero goes to the unsigned target, or both of the flags in question are set already. -/
theorem float_to_int_iff (host : HostFloat) (emu : Emulator) (inst : DecodedInst)
    (isUnsigned : Bool) (direction : Direction) (kind : IsConversion inst isUnsigned)
    (effective : effectiveMode inst.funct3 emu.csr.frm = some direction)
    (nearby : Nearby host (hostRounding (inst.funct3.setWidth 32) emu.csr.frm)
      (emu.rf.fregs inst.rs1)) :
    Converts host emu inst isUnsigned direction ↔
      ¬ (isUnsigned = true ∧ Vanishing direction (emu.rf.fregs inst.rs1) ∧
        emu.csr.fflags &&& 0x11 ≠ 0x11) := by
  have mode := effective_host inst.funct3 emu.csr.frm direction effective
  by_cases vanishes : isUnsigned = true ∧ Vanishing direction (emu.rf.fregs inst.rs1)
  · obtain ⟨rfl, vanishing⟩ := vanishes
    obtain ⟨refused, determined⟩ := conversion_vanishing host emu.csr
      (inst.funct3.setWidth 32) (emu.rf.fregs inst.rs1) direction vanishing
    have executed := execute_conversion host emu inst true kind _ _ refused
    constructor
    · rintro ⟨result, flags, converted, specified⟩ ⟨-, -, missing⟩
      have out := determined (result, flags) converted
      rw [executed] at specified
      have states := (Prod.mk.inj specified).2
      have same : emu.csr.fflags ||| fpNv = emu.csr.fflags ||| flags :=
        congrArg (fun after => after.csr.fflags) states
      rw [(Prod.mk.inj out).2] at same
      exact missing ((same_flags emu.csr.fflags).mp same.symm)
    · intro allowed
      have held : emu.csr.fflags &&& 0x11 = 0x11 := by
        by_contra missing
        exact allowed ⟨rfl, vanishing, missing⟩
      obtain ⟨result, flags, converted, -⟩ : ∃ result flags,
          Converted true direction (denotes (emu.rf.fregs inst.rs1)) (result, flags) ∧ True := by
        obtain ⟨sign, value, denoted, -⟩ := vanishing
        rw [denoted]
        exact ⟨_, _, .finite sign value, trivial⟩
      obtain ⟨rfl, rfl⟩ := Prod.mk.inj (determined (result, flags) converted)
      refine ⟨0, fpNx, converted, ?_⟩
      rw [executed, raiseFlags, ← (same_flags emu.csr.fflags).mpr held]
  · obtain ⟨result, flags, converted, value⟩ := conversion_regular host emu.csr
      (inst.funct3.setWidth 32) (emu.rf.fregs inst.rs1) direction isUnsigned mode nearby vanishes
    constructor
    · rintro - ⟨unsigned, vanishing, -⟩
      exact vanishes ⟨unsigned, vanishing⟩
    · intro _
      exact ⟨result, flags, converted, execute_conversion host emu inst isUnsigned kind _ _ value⟩

/-! ## A quarter below zero -/

/-- A host that rounds what lies within a half of zero, to the nearest. -/
def zeroHost : HostFloat :=
  { idleHost with
    nearbyint := fun _ a => (a &&& 0x80000000, ⟨false, false, false, false, false⟩) }

/-- A machine with `-0.25` in `f1`. -/
def quarterState : Emulator :=
  let emu := emuInit (fun _ => 0)
  { emu with rf := fregWrite emu.rf 1 0xBE800000 }

/-- `fcvt.w.s x3, f1, rne` and `fcvt.wu.s x3, f1, rne`. -/
def toSigned : DecodedInst := (decode 0xC00081D3).get rfl

def toUnsigned : DecodedInst := (decode 0xC01081D3).get rfl

/-- A pattern of few units denotes its exact value. -/
theorem denotes_exact (a : Word) (number : bitsIsNan a = false)
    (low : ¬ f32Value a ≤ -unitsOf (2 ^ 128)) (high : ¬ unitsOf (2 ^ 128) ≤ f32Value a) :
    denotes a = .number (binary32.negative a.toNat) (rational (exact a)) := by
  rcases number_cases a number with ⟨-, top⟩ | ⟨-, bottom⟩ | denoted
  · exact absurd top high
  · exact absurd bottom low
  · exact denoted

theorem quarter_exact : exact 0xBE800000 = -(1 / 4) ∧ exact 0x80000000 = 0 := by
  have quarter : f32Value 0xBE800000 = -2 ^ 147 := by decide
  have zero : f32Value 0x80000000 = 0 := by decide
  rw [exact, exact, quarter, zero]
  constructor
  · push_cast
    norm_num
  · push_cast
    norm_num

theorem quarter_rounds : toInteger .nearestEven (-(1 / 4)) = 0 :=
  ((vanishes_iff .nearestEven (-(1 / 4))).mpr ⟨by norm_num, by norm_num⟩).2

/-- On it the host does what is documented. -/
theorem zeroHost_nearby : Nearby zeroHost .toNearest 0xBE800000 := by
  intro negative value denoted
  obtain ⟨-, same⟩ := exact_of_denotes _ negative value denoted
  rw [quarter_exact.1] at same
  have zero : denotes 0x80000000 = .number true (rational 0) := by
    rw [denotes_exact 0x80000000 (by decide) (by decide) (by decide), quarter_exact.2]
    rfl
  refine ⟨⟨true, ?_⟩, rfl⟩
  change denotes 0x80000000 = _
  rw [zero, ← same]
  change _ = Datum.number true (rational ((toInteger .nearestEven (-(1 / 4)) : ℤ) : ℚ))
  rw [quarter_rounds]
  rfl

theorem quarter_vanishing : Vanishing .nearestEven 0xBE800000 := by
  refine ⟨_, _, denotes_exact 0xBE800000 (by decide) (by decide) (by decide), ?_⟩
  rw [quarter_exact.1]
  exact ⟨by norm_num, by norm_num⟩

/-- The signed conversion of a negative quarter is the specified one. -/
theorem quarter_signed : Converts zeroHost quarterState toSigned false .nearestEven :=
  (float_to_int_iff zeroHost quarterState toSigned false .nearestEven ⟨rfl, rfl, rfl⟩ rfl
    zeroHost_nearby).mpr (fun all => Bool.false_ne_true all.1)

/-- The unsigned one raises the invalid flag for an inexact zero. -/
theorem quarter_invalid :
    (execute zeroHost quarterState toUnsigned).2.csr.fflags = fpNv ∧
      ¬ ∀ host emu inst isUnsigned direction, IsConversion inst isUnsigned →
        effectiveMode inst.funct3 emu.csr.frm = some direction →
        Nearby host (hostRounding (inst.funct3.setWidth 32) emu.csr.frm)
          (emu.rf.fregs inst.rs1) →
        Converts host emu inst isUnsigned direction := by
  have raised : (execute zeroHost quarterState toUnsigned).2.csr.fflags = fpNv := by decide
  refine ⟨raised, ?_⟩
  intro always
  obtain ⟨result, flags, converted, specified⟩ := always zeroHost quarterState toUnsigned true
    .nearestEven ⟨rfl, rfl, rfl⟩ rfl zeroHost_nearby
  obtain ⟨-, determined⟩ := conversion_vanishing zeroHost quarterState.csr 0 0xBE800000
    .nearestEven quarter_vanishing
  obtain ⟨-, inexact⟩ := Prod.mk.inj (determined (result, flags) converted)
  rw [specified, inexact] at raised
  change quarterState.csr.fflags ||| fpNx = fpNv at raised
  exact absurd raised (by decide)

end RvEmu.FloatToInt
