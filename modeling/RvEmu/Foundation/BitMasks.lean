import Mathlib.Algebra.Group.Nat.Defs
import Mathlib.Logic.Basic

/-!
# Masked updates of a machine word

Hardware registers pack independent fields into one word. Setting, clearing and
replacing a field are disjunctions and conjunctions with a constant mask. A
field disjoint from that mask keeps its value, and a one-bit field reads back as
the bit that was put there. Width and masks are arbitrary.
-/

namespace RvEmu.BitMasks

variable {w : Nat}

/-- Setting bits leaves every disjoint field alone. -/
theorem or_keeps (word mask field : BitVec w) (disjoint : mask &&& field = 0) :
    (word ||| mask) &&& field = word &&& field := by
  have split : (word ||| mask) &&& field = (word &&& field) ||| (mask &&& field) := by
    apply BitVec.eq_of_getLsbD_eq
    intro i _
    simp only [BitVec.getLsbD_and, BitVec.getLsbD_or]
    cases word.getLsbD i <;> cases mask.getLsbD i <;> simp
  rw [split, disjoint]
  exact BitVec.or_zero

/-- Clearing bits leaves every disjoint field alone. -/
theorem clear_keeps (word mask field : BitVec w) (disjoint : mask &&& field = 0) :
    (word &&& ~~~mask) &&& field = word &&& field := by
  apply BitVec.eq_of_getLsbD_eq
  intro i inside
  have apart : (mask &&& field).getLsbD i = false := by
    rw [disjoint]
    exact BitVec.getLsbD_zero
  simp only [BitVec.getLsbD_and, BitVec.getLsbD_not, inside, decide_true, Bool.true_and] at apart ⊢
  revert apart
  cases word.getLsbD i <;> cases mask.getLsbD i <;> cases field.getLsbD i <;> decide

/-- Setting or clearing on a condition leaves every disjoint field alone. -/
theorem choose_keeps (condition : Prop) [Decidable condition] (word mask field : BitVec w)
    (disjoint : mask &&& field = 0) :
    (if condition then word ||| mask else word &&& ~~~mask) &&& field = word &&& field := by
  by_cases holds : condition
  · rw [if_pos holds]
    exact or_keeps word mask field disjoint
  · rw [if_neg holds]
    exact clear_keeps word mask field disjoint

/-- Merging a value through a mask leaves the rest of the word alone. -/
theorem merge_outside (word value mask : BitVec w) :
    ((word &&& ~~~mask) ||| (value &&& mask)) &&& ~~~mask = word &&& ~~~mask := by
  apply BitVec.eq_of_getLsbD_eq
  intro i _
  simp only [BitVec.getLsbD_and, BitVec.getLsbD_or, BitVec.getLsbD_not]
  cases word.getLsbD i <;> cases value.getLsbD i <;> cases mask.getLsbD i <;> simp

/-- Merging a value that fits its mask reads back as that value. -/
theorem merge_inside (word value mask : BitVec w) (fits : value &&& mask = value) :
    ((word &&& ~~~mask) ||| value) &&& mask = value := by
  apply BitVec.eq_of_getLsbD_eq
  intro i inside
  have bit := congrArg (fun bits => bits.getLsbD i) fits
  simp only [BitVec.getLsbD_and, BitVec.getLsbD_or, BitVec.getLsbD_not, inside, decide_true,
    Bool.true_and] at bit ⊢
  revert bit
  cases word.getLsbD i <;> cases value.getLsbD i <;> cases mask.getLsbD i <;> decide

/-- A word is its bits outside a mask and those inside. -/
theorem split_join (word mask : BitVec w) : (word &&& ~~~mask) ||| (word &&& mask) = word := by
  apply BitVec.eq_of_getLsbD_eq
  intro i inside
  simp only [BitVec.getLsbD_and, BitVec.getLsbD_or, BitVec.getLsbD_not, inside, decide_true,
    Bool.true_and]
  cases word.getLsbD i <;> cases mask.getLsbD i <;> rfl

/-- Of a field outside a mask joined to one inside, the complement reads the first. -/
theorem join_outside (outer inner mask : BitVec w) (outside : outer &&& mask = 0)
    (fits : inner &&& mask = inner) : (outer ||| inner) &&& ~~~mask = outer := by
  have none : inner &&& ~~~mask = 0 := by
    rw [← fits, BitVec.and_assoc]
    simp
  have whole : outer &&& ~~~mask = outer := by
    have parts := split_join outer mask
    rwa [outside, BitVec.ofNat_eq_ofNat, BitVec.or_zero] at parts
  rw [BitVec.and_or_distrib_right, none, whole, BitVec.ofNat_eq_ofNat, BitVec.or_zero]

/-- Bits that were set are set. -/
theorem or_inside (word mask : BitVec w) : (word ||| mask) &&& mask = mask := by
  apply BitVec.eq_of_getLsbD_eq
  intro i _
  simp only [BitVec.getLsbD_and, BitVec.getLsbD_or]
  cases word.getLsbD i <;> cases mask.getLsbD i <;> rfl

/-- Setting bits that are set changes nothing. -/
theorem or_held (word mask : BitVec w) (held : word &&& mask = mask) : word ||| mask = word := by
  rw [← held]
  apply BitVec.eq_of_getLsbD_eq
  intro i _
  simp only [BitVec.getLsbD_and, BitVec.getLsbD_or]
  cases word.getLsbD i <;> cases mask.getLsbD i <;> rfl

/-- Testing one bit with a mask reads that bit. -/
theorem and_bit (word : BitVec w) (i : Nat) (inside : i < w) :
    word &&& BitVec.twoPow w i = 0 ↔ word.getLsbD i = false := by
  have nonzero : BitVec.twoPow w i ≠ 0 := by
    intro zero
    have bit := congrArg (fun bits => bits.getLsbD i) zero
    simp [inside] at bit
  rw [BitVec.and_twoPow]
  cases word.getLsbD i with
  | true =>
    constructor
    · exact fun zero => absurd zero nonzero
    · exact fun absent => Bool.noConfusion absent
  | false =>
    constructor
    · exact fun _ => rfl
    · exact fun _ => rfl

/-- Masking with `n` low ones takes the remainder by `2 ^ n`. -/
theorem and_low (word : BitVec w) (n : Nat) (inside : n ≤ w) :
    (word &&& BitVec.ofNat w (2 ^ n - 1)).toNat = word.toNat % 2 ^ n := by
  have positive : 0 < 2 ^ n := Nat.two_pow_pos n
  have bound : 2 ^ n ≤ 2 ^ w := Nat.pow_le_pow_right (by decide) inside
  have small : (2 ^ n - 1) % 2 ^ w = 2 ^ n - 1 := Nat.mod_eq_of_lt (by omega)
  rw [BitVec.toNat_and, BitVec.toNat_ofNat, small, Nat.and_two_pow_sub_one_eq_mod]

/-- Joining an offset below `2 ^ n` to a multiple of `2 ^ n` adds it. -/
theorem or_low (high low : BitVec w) (n : Nat) (multiple : high.toNat % 2 ^ n = 0)
    (small : low.toNat < 2 ^ n) : (high ||| low).toNat = high.toNat + low.toNat := by
  have split : high.toNat = 2 ^ n * (high.toNat / 2 ^ n) := by
    have whole := Nat.div_add_mod high.toNat (2 ^ n)
    omega
  rw [BitVec.toNat_or, split]
  exact (Nat.two_pow_add_eq_or_of_lt small (high.toNat / 2 ^ n)).symm

end RvEmu.BitMasks
