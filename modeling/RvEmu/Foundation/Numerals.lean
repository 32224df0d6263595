import Mathlib.Data.List.Basic
import Mathlib.Tactic.NormNum

/-!
# Numerals

A numeral is a list of digits, most significant first, with letters for the digits from ten
on. Writing a number gives a numeral with upper-case letters and no leading zeros; zeros may
be put in front of it. Reading takes the longest prefix of digits and tells its value, so a
written number is read back from any text that goes on with something else.
-/

namespace RvEmu.Numerals

/-! ## Reading -/

/-- The value of a digit, of either case. -/
def digitOf (c : Char) : Option Nat :=
  if c.isDigit then some (c.toNat - 48)
  else if c.isLower then some (c.toNat - 87)
  else if c.isUpper then some (c.toNat - 55)
  else none

/-- A digit of a base. -/
def isDigitOf (base : Nat) (c : Char) : Bool := (digitOf c).any (· < base)

/-- The value of a list of digits. -/
def valueOf (base : Nat) (digits : List Char) : Nat :=
  digits.foldl (fun value c => value * base + (digitOf c).getD 0) 0

/-- The longest prefix of digits, and what follows it. -/
def splitDigits (base : Nat) (text : List Char) : List Char × List Char :=
  (text.takeWhile (isDigitOf base), text.dropWhile (isDigitOf base))

/-! ## Writing -/

/-- The numeral of a number. -/
def numeral (base n : Nat) : List Char := (Nat.toDigits base n).map Char.toUpper

/-- The numeral with zeros in front, up to a width. -/
def padded (base width n : Nat) : List Char :=
  List.replicate (width - (numeral base n).length) '0' ++ numeral base n

/-! ## What is written is read -/

/-- A digit of sixteen is read back. -/
theorem digitOf_digitChar (d : Nat) (small : d < 16) :
    digitOf (Nat.digitChar d).toUpper = some d := by
  revert d
  decide

theorem digitChar_isDigitOf (base d : Nat) (inside : d < base) (bound : base ≤ 16) :
    isDigitOf base (Nat.digitChar d).toUpper = true := by
  rw [isDigitOf, digitOf_digitChar d (by omega)]
  exact decide_eq_true inside

/-- Digits are printed behind the signs and the spaces. -/
theorem isDigitOf_above (base : Nat) (c : Char) (digit : isDigitOf base c = true) :
    48 ≤ c.toNat := by
  rw [isDigitOf, digitOf] at digit
  split at digit
  · rename_i decimal
    simp only [Char.isDigit, Bool.and_eq_true, decide_eq_true_eq] at decimal
    exact decimal.1
  · split at digit
    · rename_i lower
      have above : 'a'.val ≤ c.val := of_decide_eq_true (Bool.and_eq_true_iff.mp lower).1
      exact Nat.le_trans (by decide) above
    · split at digit
      · rename_i upper
        have above : 'A'.val ≤ c.val := (of_decide_eq_true upper).1
        exact Nat.le_trans (by decide) above
      · cases digit

/-- The last digit counts once. -/
theorem valueOf_snoc (base : Nat) (digits : List Char) (c : Char) :
    valueOf base (digits ++ [c]) = valueOf base digits * base + (digitOf c).getD 0 := by
  rw [valueOf, List.foldl_append]
  rfl

/-- Leading zeros count nothing. -/
theorem valueOf_zeros (base k : Nat) (digits : List Char) :
    valueOf base (List.replicate k '0' ++ digits) = valueOf base digits := by
  have zeros : valueOf base (List.replicate k '0') = 0 := by
    induction k with
    | zero => rfl
    | succ k inductionHypothesis =>
      rw [List.replicate_succ', valueOf_snoc, inductionHypothesis, Nat.zero_mul]
      rfl
  rw [valueOf, List.foldl_append]
  change List.foldl _ (valueOf base (List.replicate k '0')) digits = _
  rw [zeros]
  rfl

section Base

variable (base : Nat) (several : 1 < base) (bound : base ≤ 16)
include several bound

/-- A numeral has the value that it was written from. -/
theorem numeral_value (n : Nat) : valueOf base (numeral base n) = n := by
  induction n using Nat.strongRecOn with
  | ind n inductionHypothesis =>
    rw [numeral]
    by_cases small : n < base
    · rw [Nat.toDigits_of_lt_base small]
      change 0 * base + (digitOf (Nat.digitChar n).toUpper).getD 0 = n
      rw [digitOf_digitChar n (by omega), Nat.zero_mul, Nat.zero_add]
      rfl
    · have less : n / base < n := Nat.div_lt_self (by omega) several
      have last : n % base < base := Nat.mod_lt n (by omega)
      rw [Nat.toDigits_of_base_le several (Nat.le_of_not_lt small), List.map_append]
      change valueOf base (numeral base (n / base) ++ [(Nat.digitChar (n % base)).toUpper]) = n
      rw [valueOf_snoc, inductionHypothesis _ less, digitOf_digitChar _ (by omega)]
      exact Nat.div_add_mod' n base

/-- Its characters are digits of its base. -/
theorem numeral_digits (n : Nat) : ∀ c ∈ numeral base n, isDigitOf base c = true := by
  induction n using Nat.strongRecOn with
  | ind n inductionHypothesis =>
    rw [numeral]
    by_cases small : n < base
    · rw [Nat.toDigits_of_lt_base small]
      intro c member
      obtain rfl := List.mem_singleton.mp member
      exact digitChar_isDigitOf base n small bound
    · have less : n / base < n := Nat.div_lt_self (by omega) several
      have last : n % base < base := Nat.mod_lt n (by omega)
      rw [Nat.toDigits_of_base_le several (Nat.le_of_not_lt small), List.map_append]
      intro c member
      rcases List.mem_append.mp member with front | back
      · exact inductionHypothesis _ less c front
      · obtain rfl := List.mem_singleton.mp back
        exact digitChar_isDigitOf base _ last bound

/-- A padded numeral is read back. -/
theorem padded_value (width n : Nat) : valueOf base (padded base width n) = n := by
  rw [padded, valueOf_zeros, numeral_value base several bound]

theorem padded_digits (width n : Nat) : ∀ c ∈ padded base width n, isDigitOf base c = true := by
  intro c member
  rcases List.mem_append.mp member with zero | digit
  · obtain ⟨-, rfl⟩ := List.mem_replicate.mp zero
    exact decide_eq_true (by omega : 0 < base)
  · exact numeral_digits base several bound n c digit

/-- A numeral of a positive number does not start with a zero. -/
theorem numeral_head (n : Nat) (positive : 0 < n) : (numeral base n).head? ≠ some '0' := by
  induction n using Nat.strongRecOn with
  | ind n inductionHypothesis =>
    rw [numeral]
    by_cases small : n < base
    · rw [Nat.toDigits_of_lt_base small]
      intro zero
      have digit := digitOf_digitChar n (by omega)
      change some (Nat.digitChar n).toUpper = some '0' at zero
      rw [Option.some.inj zero] at digit
      exact absurd (Option.some.inj digit).symm (by change n ≠ 0; omega)
    · have less : n / base < n := Nat.div_lt_self (by omega) several
      have some : 0 < n / base := Nat.div_pos (Nat.le_of_not_lt small) (by omega)
      rw [Nat.toDigits_of_base_le several (Nat.le_of_not_lt small), List.map_append]
      have front : numeral base (n / base) ≠ [] := by
        rw [numeral, ne_eq, List.map_eq_nil_iff]
        exact Nat.toDigits_ne_nil
      change (numeral base (n / base) ++ _).head? ≠ _
      rw [List.head?_append_of_ne_nil _ front]
      exact inductionHypothesis _ less some

/-- Numerals are different for different numbers. -/
theorem numeral_injective : Function.Injective (numeral base) := by
  intro n m same
  rw [← numeral_value base several bound n, same, numeral_value base several bound]

end Base

theorem numeral_nonempty (base n : Nat) : numeral base n ≠ [] := by
  rw [numeral, ne_eq, List.map_eq_nil_iff]
  exact Nat.toDigits_ne_nil

theorem padded_nonempty (base width n : Nat) : padded base width n ≠ [] :=
  fun empty => numeral_nonempty base n (List.append_eq_nil_iff.mp empty).2

/-- A number that fits the width is as long as the width. -/
theorem padded_length (base width n : Nat) (several : 1 < base) (positive : 0 < width)
    (fits : n < base ^ width) : (padded base width n).length = width := by
  have short : (numeral base n).length ≤ width := by
    rw [numeral, List.length_map]
    exact (Nat.length_toDigits_le_iff several positive).mpr fits
  rw [padded, List.length_append, List.length_replicate]
  omega

/-- Digits are split off from a text that does not go on with a digit. -/
theorem splitDigits_append (base : Nat) (digits rest : List Char)
    (all : ∀ c ∈ digits, isDigitOf base c = true)
    (ends : ∀ c, rest.head? = some c → isDigitOf base c = false) :
    splitDigits base (digits ++ rest) = (digits, rest) := by
  have taken : rest.takeWhile (isDigitOf base) = [] := by
    cases rest with
    | nil => rfl
    | cons c others => rw [List.takeWhile_cons, ends c rfl, if_neg (by decide)]
  have dropped : rest.dropWhile (isDigitOf base) = rest := by
    cases rest with
    | nil => rfl
    | cons c others => rw [List.dropWhile_cons, ends c rfl, if_neg (by decide)]
  rw [splitDigits, List.takeWhile_append_of_pos all, List.dropWhile_append_of_pos all, taken, dropped,
    List.append_nil]

end RvEmu.Numerals
