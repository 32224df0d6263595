import RvEmu.FloatValues

/-!
# The lesser and the greater of two numbers

`fp_minmax` serves FMIN.S and FMAX.S. With one NaN it writes the other operand, and
with numbers of one value it picks the zero of the right sign. For two different numbers
it writes the lesser one, whichever instruction was asked for. For two NaNs it writes
the canonical one and raises nothing, signalling or not.

The law below is the whole of what the two instructions are to do, and the two slips are
the only cases in which the code breaks it.
-/

namespace RvEmu.MinMax

open BinaryFloat FloatValues

/-! ## The law -/

def IsNan (bits : Word) : Prop := ∃ signaling, denotes bits = .nan signaling

/-- The first operand is not above the second for FMIN.S, not below it for FMAX.S. -/
def Preferred (isMax : Bool) (first second : Word) : Prop :=
  if isMax then (denotes second).AtMost (denotes first)
  else (denotes first).AtMost (denotes second)

/-- What is written for two operands, and what becomes of the flags. -/
structure MinMaxRight (csr : Csr) (a b : Word) (isMax : Bool) (computed : Word × Csr) : Prop where
  first : ¬ IsNan a → ¬ IsNan b → Preferred isMax a b → computed.1 = a
  second : ¬ IsNan a → ¬ IsNan b → Preferred isMax b a → computed.1 = b
  firstNan : IsNan a → ¬ IsNan b → computed.1 = b
  secondNan : ¬ IsNan a → IsNan b → computed.1 = a
  bothNan : IsNan a → IsNan b → computed.1 = 0x7FC00000
  invalid : denotes a = .nan true ∨ denotes b = .nan true → computed.2 = raiseFlags csr fpNv
  quiet : ¬ (denotes a = .nan true ∨ denotes b = .nan true) → computed.2 = csr

/-- The instruction writes to `f[rd]` what is right, and changes only the flags else. -/
def Obeys (host : HostFloat) (rf : Regfile) (csr : Csr) (inst : DecodedInst) : Prop :=
  ∃ computed, fpuExecute host rf csr inst = some (fregWrite rf inst.rd computed.1, computed.2) ∧
    MinMaxRight csr (rf.fregs inst.rs1) (rf.fregs inst.rs2) (inst.funct3 = 1) computed

/-! ## What the code does -/

theorem bitsIsNan_isNan (bits : Word) : bitsIsNan bits = true ↔ IsNan bits := by
  rw [bitsIsNan_iff, IsNan, denotes]
  constructor
  · intro nan
    exact ⟨_, binary32.denote_nan _ nan⟩
  · rintro ⟨signaling, same⟩
    by_contra number
    rw [binary32.denote_number _ number] at same
    cases same

/-- For two NaNs nothing is raised. -/
theorem fpMinmax_nans (csr : Csr) (a b : Word) (isMax : Bool) (first : IsNan a)
    (second : IsNan b) : fpMinmax csr a b isMax = (0x7FC00000, csr) := by
  rw [fpMinmax, if_pos ⟨(bitsIsNan_isNan a).mpr first, (bitsIsNan_isNan b).mpr second⟩]
  rfl

theorem fpMinmax_first (csr : Csr) (a b : Word) (isMax : Bool) (first : IsNan a)
    (second : ¬ IsNan b) :
    fpMinmax csr a b isMax = (b, if bitsIsSnan a then raiseFlags csr fpNv else csr) := by
  rw [← bitsIsNan_isNan] at first second
  rw [fpMinmax, if_neg fun both => second both.2, if_pos first]

theorem fpMinmax_second (csr : Csr) (a b : Word) (isMax : Bool) (first : ¬ IsNan a)
    (second : IsNan b) :
    fpMinmax csr a b isMax = (a, if bitsIsSnan b then raiseFlags csr fpNv else csr) := by
  rw [← bitsIsNan_isNan] at first second
  rw [fpMinmax, if_neg fun both => first both.1, if_neg first, if_pos second]

/-- The operand that is picked of two numbers of one value. -/
def picked (a b : Word) (isMax : Bool) : Word :=
  (if isMax then a &&& b &&& 0x80000000 else (a ||| b) &&& 0x80000000) ||| (a &&& 0x7FFFFFFF)

section Numbers

variable (csr : Csr) (a b : Word) (isMax : Bool) (first : ¬ IsNan a) (second : ¬ IsNan b)
include first second

/-- For two numbers the order decides, and not the instruction. -/
theorem fpMinmax_numbers :
    fpMinmax csr a b isMax =
      (if f32Lt a b then a else if f32Lt b a then b else picked a b isMax, csr) := by
  rw [← bitsIsNan_isNan] at first second
  rw [fpMinmax, if_neg fun both => first both.1, if_neg first, if_neg second]
  by_cases less : f32Lt a b = true
  · rw [if_pos less, if_pos less]
  · rw [if_neg less, if_neg less]
    by_cases more : f32Lt b a = true
    · rw [if_pos more, if_pos more]
    · rw [if_neg more, if_neg more]
      rfl

theorem less_signed :
    (denotes a).Less (denotes b) ↔ binary32.signed a.toNat < binary32.signed b.toNat := by
  rw [← bitsIsNan_isNan, bitsIsNan_iff] at first second
  exact binary32.less_iff _ _ first second

theorem atMost_signed :
    (denotes a).AtMost (denotes b) ↔
      binary32.signed a.toNat < binary32.signed b.toNat ∨
        (binary32.signed a.toNat = binary32.signed b.toNat ∧
          (binary32.negative a.toNat = true ∨ binary32.negative b.toNat = false)) := by
  rw [← bitsIsNan_isNan, bitsIsNan_iff] at first second
  exact binary32.atMost_iff _ _ first second

end Numbers

theorem number_less (a b : Word) (less : (denotes a).Less (denotes b)) :
    ¬ IsNan a ∧ ¬ IsNan b := by
  rw [← f32Lt_iff, f32Lt] at less
  rw [← bitsIsNan_isNan, ← bitsIsNan_isNan]
  simp only [Bool.and_eq_true, Bool.not_eq_true'] at less
  exact ⟨Bool.not_eq_true _ ▸ less.1.1, Bool.not_eq_true _ ▸ less.1.2⟩

/-! ## Numbers of one value -/

/-- The picked operand is the first when its sign is the one to take. -/
theorem picked_first (a b : Word) (isMax : Bool)
    (sign : if isMax then b.getLsbD 31 = true ∨ a.getLsbD 31 = false
      else a.getLsbD 31 = true ∨ b.getLsbD 31 = false) : picked a b isMax = a := by
  have top : ∀ i, i < 32 → (0x80000000 : Word).getLsbD i = decide (i = 31) := by decide
  have rest : ∀ i, i < 32 → (0x7FFFFFFF : Word).getLsbD i = decide (i ≠ 31) := by decide
  have upper : (if isMax then a &&& b &&& 0x80000000 else (a ||| b) &&& 0x80000000).getLsbD 31 =
      a.getLsbD 31 := by
    cases isMax with
    | false =>
      change ((a ||| b) &&& 0x80000000).getLsbD 31 = _
      rw [BitVec.getLsbD_and, BitVec.getLsbD_or, top 31 (by decide)]
      revert sign
      cases a.getLsbD 31 <;> cases b.getLsbD 31 <;> decide
    | true =>
      change (a &&& b &&& 0x80000000).getLsbD 31 = _
      rw [BitVec.getLsbD_and, BitVec.getLsbD_and, top 31 (by decide)]
      revert sign
      cases a.getLsbD 31 <;> cases b.getLsbD 31 <;> decide
  apply BitVec.eq_of_getLsbD_eq
  intro i inside
  rw [picked, BitVec.getLsbD_or, BitVec.getLsbD_and, rest i inside]
  by_cases last : i = 31
  · rw [last, upper, decide_eq_false (not_not.mpr rfl), Bool.and_false, Bool.or_false]
  · have lower : (if isMax then a &&& b &&& 0x80000000
        else (a ||| b) &&& 0x80000000).getLsbD i = false := by
      cases isMax with
      | false =>
        change ((a ||| b) &&& 0x80000000).getLsbD i = _
        rw [BitVec.getLsbD_and, top i inside, decide_eq_false last, Bool.and_false]
      | true =>
        change (a &&& b &&& 0x80000000).getLsbD i = _
        rw [BitVec.getLsbD_and, top i inside, decide_eq_false last, Bool.and_false]
    rw [lower, decide_eq_true last, Bool.and_true, Bool.false_or]

/-- The order of the operands is immaterial when they differ in the sign only. -/
theorem picked_swap (a b : Word) (isMax : Bool) (low : a &&& 0x7FFFFFFF = b &&& 0x7FFFFFFF) :
    picked a b isMax = picked b a isMax := by
  rw [picked, picked, BitVec.and_comm a b, BitVec.or_comm a b, low]

section Equal

variable (a b : Word) (isMax : Bool) (first : ¬ IsNan a) (second : ¬ IsNan b)
  (same : binary32.signed a.toNat = binary32.signed b.toNat)
include first second same

/-- Of two numbers of one value the preferred one is picked. -/
theorem picked_preferred (preferred : Preferred isMax a b) : picked a b isMax = a := by
  apply picked_first
  rw [Preferred] at preferred
  cases isMax with
  | false =>
    have order := (atMost_signed a b first second).mp preferred
    exact (order.resolve_left fun less => by omega).2
  | true =>
    have order := (atMost_signed b a second first).mp preferred
    exact (order.resolve_left fun less => by omega).2

theorem picked_preferred_second (preferred : Preferred isMax b a) : picked a b isMax = b := by
  have low : a &&& 0x7FFFFFFF = b &&& 0x7FFFFFFF := by
    apply BitVec.eq_of_toNat_eq
    have left := BitMasks.and_low a 31 (by decide)
    have right := BitMasks.and_low b 31 (by decide)
    exact left.trans ((binary32.signed_same _ _ same).trans right.symm)
  rw [picked_swap a b isMax low]
  exact picked_preferred b a isMax second first same.symm preferred

end Equal

/-! ## Where the law is kept -/

/-- Raising NV changes nothing exactly when it is raised already. -/
theorem raise_same_iff (csr : Csr) : raiseFlags csr fpNv = csr ↔ csr.fflags &&& fpNv ≠ 0 := by
  have bit : csr.fflags &&& fpNv = 0 ↔ csr.fflags.getLsbD 4 = false :=
    BitMasks.and_bit csr.fflags 4 (by decide)
  have flag : ∀ i, i < 32 → fpNv.getLsbD i = decide (i = 4) := by decide
  have fields : raiseFlags csr fpNv = csr ↔ csr.fflags ||| fpNv = csr.fflags := by
    rw [raiseFlags]
    constructor
    · exact fun same => congrArg Csr.fflags same
    · intro same
      rw [same]
  rw [fields, Ne, bit, Bool.not_eq_false]
  constructor
  · intro same
    have raised := congrArg (fun flags => flags.getLsbD 4) same
    simp only [BitVec.getLsbD_or, flag 4 (by decide), decide_true, Bool.or_true] at raised
    exact raised.symm
  · intro raised
    apply BitVec.eq_of_getLsbD_eq
    intro i inside
    rw [BitVec.getLsbD_or, flag i inside]
    by_cases here : i = 4
    · rw [here, raised]
      rfl
    · rw [decide_eq_false here, Bool.or_false]

theorem flags_chosen (csr : Csr) (bits : Word) :
    (denotes bits = .nan true →
        (if bitsIsSnan bits then raiseFlags csr fpNv else csr) = raiseFlags csr fpNv) ∧
      (¬ denotes bits = .nan true →
        (if bitsIsSnan bits then raiseFlags csr fpNv else csr) = csr) := by
  rw [← bitsIsSnan_iff]
  exact ⟨fun signaling => if_pos signaling, fun quiet => if_neg quiet⟩

/-- Two different numbers: the lesser one is written. -/
theorem fpMinmax_differ (csr : Csr) (a b : Word) (isMax : Bool)
    (less : (denotes a).Less (denotes b)) :
    fpMinmax csr a b isMax = (a, csr) ∧ fpMinmax csr b a isMax = (a, csr) := by
  obtain ⟨first, second⟩ := number_less a b less
  have tested := (f32Lt_iff a b).mpr less
  have back : ¬ f32Lt b a = true := by
    rw [f32Lt_iff, less_signed b a second first]
    rw [less_signed a b first second] at less
    omega
  rw [fpMinmax_numbers csr a b isMax first second, fpMinmax_numbers csr b a isMax second first,
    if_pos tested, if_neg back, if_pos tested]
  exact ⟨rfl, rfl⟩

/-- The law does not depend on the order of the operands. -/
theorem right_swap (csr : Csr) (a b : Word) (isMax : Bool) (computed : Word × Csr)
    (right : MinMaxRight csr a b isMax computed) : MinMaxRight csr b a isMax computed where
  first := fun first second preferred => right.second second first preferred
  second := fun first second preferred => right.first second first preferred
  firstNan := fun first second => right.secondNan second first
  secondNan := fun first second => right.firstNan second first
  bothNan := fun first second => right.bothNan second first
  invalid := fun signaling => right.invalid signaling.symm
  quiet := fun neither => right.quiet fun signaling => neither signaling.symm

/-- For two numbers it says which one is written. -/
theorem right_numbers (csr : Csr) (a b result : Word) (isMax : Bool) (first : ¬ IsNan a)
    (second : ¬ IsNan b) :
    MinMaxRight csr a b isMax (result, csr) ↔
      (Preferred isMax a b → result = a) ∧ (Preferred isMax b a → result = b) := by
  have quiet : ¬ (denotes a = .nan true ∨ denotes b = .nan true) := by
    rintro (signaling | signaling)
    · exact first ⟨true, signaling⟩
    · exact second ⟨true, signaling⟩
  constructor
  · intro right
    exact ⟨right.first first second, right.second first second⟩
  · rintro ⟨one, other⟩
    exact
      { first := fun _ _ => one
        second := fun _ _ => other
        firstNan := fun nan _ => absurd nan first
        secondNan := fun _ nan => absurd nan second
        bothNan := fun nan _ => absurd nan first
        invalid := fun signaling => absurd signaling quiet
        quiet := fun _ => rfl }

/-- For two different numbers the law is kept exactly by FMIN.S. -/
theorem differ_iff (csr : Csr) (a b : Word) (isMax : Bool) (less : (denotes a).Less (denotes b)) :
    MinMaxRight csr a b isMax (a, csr) ↔ isMax = false := by
  obtain ⟨first, second⟩ := number_less a b less
  have signed := (less_signed a b first second).mp less
  have below : (denotes a).AtMost (denotes b) := (atMost_signed a b first second).mpr (Or.inl signed)
  rw [right_numbers csr a b a isMax first second]
  cases isMax with
  | false =>
    have above : ¬ (denotes b).AtMost (denotes a) := by
      rw [atMost_signed b a second first]
      omega
    exact iff_of_true ⟨fun _ => rfl, fun preferred => absurd preferred above⟩ rfl
  | true =>
    refine iff_of_false ?_ Bool.true_eq_false.mp
    rintro ⟨-, other⟩
    rw [other below] at signed
    exact Int.lt_irrefl _ signed

/-- For two numbers of one value it is always kept. -/
theorem equal_right (csr : Csr) (a b : Word) (isMax : Bool) (first : ¬ IsNan a)
    (second : ¬ IsNan b) (same : binary32.signed a.toNat = binary32.signed b.toNat) :
    MinMaxRight csr a b isMax (picked a b isMax, csr) :=
  (right_numbers csr a b _ isMax first second).mpr
    ⟨picked_preferred a b isMax first second same,
      picked_preferred_second a b isMax first second same⟩

/-- For one NaN it is always kept. -/
theorem one_nan_right (csr : Csr) (a b : Word) (isMax : Bool) (first : IsNan a)
    (second : ¬ IsNan b) :
    MinMaxRight csr a b isMax (b, if bitsIsSnan a then raiseFlags csr fpNv else csr) := by
  have number : ¬ denotes b = .nan true := fun signaling => second ⟨true, signaling⟩
  obtain ⟨raised, kept⟩ := flags_chosen csr a
  exact
    { first := fun number => absurd first number
      second := fun number => absurd first number
      firstNan := fun _ _ => rfl
      secondNan := fun number => absurd first number
      bothNan := fun _ nan => absurd nan second
      invalid := fun signaling => raised (signaling.resolve_right number)
      quiet := fun neither => kept fun signaling => neither (Or.inl signaling) }

/-- For two NaNs it is kept unless one of them signals and NV is not raised yet. -/
theorem nans_iff (csr : Csr) (a b : Word) (isMax : Bool) (first : IsNan a) (second : IsNan b) :
    MinMaxRight csr a b isMax (0x7FC00000, csr) ↔
      ¬ ((denotes a = .nan true ∨ denotes b = .nan true) ∧ csr.fflags &&& fpNv = 0) := by
  constructor
  · rintro right ⟨signaling, unraised⟩
    exact (raise_same_iff csr).mp (right.invalid signaling).symm unraised
  · intro kept
    exact
      { first := fun number => absurd first number
        second := fun number => absurd first number
        firstNan := fun _ number => absurd second number
        secondNan := fun number => absurd first number
        bothNan := fun _ _ => rfl
        invalid := fun signaling =>
          ((raise_same_iff csr).mpr fun unraised => kept ⟨signaling, unraised⟩).symm
        quiet := fun _ => rfl }

/-- For two numbers it is kept except by FMAX.S when they differ. -/
theorem numbers_iff (csr : Csr) (a b : Word) (isMax : Bool) (first : ¬ IsNan a)
    (second : ¬ IsNan b) :
    MinMaxRight csr a b isMax (fpMinmax csr a b isMax) ↔
      ¬ (isMax = true ∧ ((denotes a).Less (denotes b) ∨ (denotes b).Less (denotes a))) := by
  rcases Int.lt_trichotomy (binary32.signed a.toNat) (binary32.signed b.toNat) with
    below | same | above
  · have less := (less_signed a b first second).mpr below
    rw [(fpMinmax_differ csr a b isMax less).1, differ_iff csr a b isMax less]
    simp only [less, true_or, and_true, Bool.not_eq_true]
  · have unordered : ¬ ((denotes a).Less (denotes b) ∨ (denotes b).Less (denotes a)) := by
      rw [less_signed a b first second, less_signed b a second first]
      omega
    have untested : ¬ f32Lt a b = true := by
      rw [f32Lt_iff]
      exact fun less => unordered (Or.inl less)
    have untestedBack : ¬ f32Lt b a = true := by
      rw [f32Lt_iff]
      exact fun less => unordered (Or.inr less)
    rw [fpMinmax_numbers csr a b isMax first second, if_neg untested, if_neg untestedBack]
    exact iff_of_true (equal_right csr a b isMax first second same) fun both => unordered both.2
  · have less := (less_signed b a second first).mpr above
    have swapped : MinMaxRight csr a b isMax (b, csr) ↔ isMax = false :=
      Iff.trans ⟨right_swap csr a b isMax _, right_swap csr b a isMax _⟩
        (differ_iff csr b a isMax less)
    rw [(fpMinmax_differ csr b a isMax less).2, swapped]
    simp only [less, or_true, and_true, Bool.not_eq_true]

/-- The code keeps the law except for FMAX.S of two different numbers, and for two NaNs
    of which one signals while NV is not raised. -/
theorem fpMinmax_iff (csr : Csr) (a b : Word) (isMax : Bool) :
    MinMaxRight csr a b isMax (fpMinmax csr a b isMax) ↔
      ¬ (isMax = true ∧ ((denotes a).Less (denotes b) ∨ (denotes b).Less (denotes a))) ∧
        ¬ (IsNan a ∧ IsNan b ∧ (denotes a = .nan true ∨ denotes b = .nan true) ∧
          csr.fflags &&& fpNv = 0) := by
  have numbers : ((denotes a).Less (denotes b) ∨ (denotes b).Less (denotes a)) →
      ¬ IsNan a ∧ ¬ IsNan b := by
    rintro (less | less)
    · exact number_less a b less
    · exact (number_less b a less).symm
  by_cases first : IsNan a
  · by_cases second : IsNan b
    · rw [fpMinmax_nans csr a b isMax first second, nans_iff csr a b isMax first second]
      exact ⟨fun kept => ⟨fun both => (numbers both.2).1 first, fun all => kept all.2.2⟩,
        fun both failing => both.2 ⟨first, second, failing⟩⟩
    · rw [fpMinmax_first csr a b isMax first second]
      exact iff_of_true (one_nan_right csr a b isMax first second)
        ⟨fun both => (numbers both.2).1 first, fun all => second all.2.1⟩
  · by_cases second : IsNan b
    · rw [fpMinmax_second csr a b isMax first second]
      exact iff_of_true (right_swap csr b a isMax _ (one_nan_right csr b a isMax second first))
        ⟨fun both => (numbers both.2).2 second, fun all => first all.1⟩
    · rw [numbers_iff csr a b isMax first second]
      exact (and_iff_left fun all => first all.1).symm

/-! ## The instructions -/

/-- Both instructions write what `fp_minmax` computes. -/
theorem fpuExecute_minmax (host : HostFloat) (rf : Regfile) (csr : Csr) (inst : DecodedInst)
    (minmax : inst.funct7 = 0x14) (known : inst.funct3 = 0 ∨ inst.funct3 = 1) :
    fpuExecute host rf csr inst =
      toFreg rf inst.rd
        (fpMinmax csr (rf.fregs inst.rs1) (rf.fregs inst.rs2) (inst.funct3 = 1)) := by
  have small : ¬ inst.funct3 > 1 := by
    rcases known with zero | one
    · rw [zero]
      decide
    · rw [one]
      decide
  simp only [fpuExecute, minmax]
  exact if_neg small

theorem fregWrite_inj (rf : Regfile) (rd : Reg) (left right : Word)
    (same : fregWrite rf rd left = fregWrite rf rd right) : left = right := by
  have written : ∀ val, (fregWrite rf rd val).fregs rd = val := by
    intro val
    rw [fregWrite]
    exact Function.update_self rd val rf.fregs
  rw [← written left, same, written right]

/-- So they keep the law exactly when it does. -/
theorem obeys_computed (host : HostFloat) (rf : Regfile) (csr : Csr) (inst : DecodedInst)
    (minmax : inst.funct7 = 0x14) (known : inst.funct3 = 0 ∨ inst.funct3 = 1) :
    Obeys host rf csr inst ↔
      MinMaxRight csr (rf.fregs inst.rs1) (rf.fregs inst.rs2) (inst.funct3 = 1)
        (fpMinmax csr (rf.fregs inst.rs1) (rf.fregs inst.rs2) (inst.funct3 = 1)) := by
  rw [Obeys, fpuExecute_minmax host rf csr inst minmax known, toFreg]
  constructor
  · rintro ⟨⟨result, flags⟩, done, right⟩
    have both := Prod.mk.inj (Option.some.inj done)
    have same : fpMinmax csr (rf.fregs inst.rs1) (rf.fregs inst.rs2) (inst.funct3 = 1) =
        (result, flags) :=
      Prod.ext (fregWrite_inj rf inst.rd _ _ both.1) both.2
    rw [same]
    exact right
  · intro right
    exact ⟨_, rfl, right⟩

/-- FMIN.S and FMAX.S keep the law except FMAX.S of two different numbers, and either of
    two NaNs of which one signals while NV is not raised. -/
theorem obeys_iff (host : HostFloat) (rf : Regfile) (csr : Csr) (inst : DecodedInst)
    (minmax : inst.funct7 = 0x14) (known : inst.funct3 = 0 ∨ inst.funct3 = 1) :
    Obeys host rf csr inst ↔
      ¬ (inst.funct3 = 1 ∧ ((denotes (rf.fregs inst.rs1)).Less (denotes (rf.fregs inst.rs2)) ∨
          (denotes (rf.fregs inst.rs2)).Less (denotes (rf.fregs inst.rs1)))) ∧
        ¬ (IsNan (rf.fregs inst.rs1) ∧ IsNan (rf.fregs inst.rs2) ∧
          (denotes (rf.fregs inst.rs1) = .nan true ∨ denotes (rf.fregs inst.rs2) = .nan true) ∧
          csr.fflags &&& fpNv = 0) := by
  have kept := fpMinmax_iff csr (rf.fregs inst.rs1) (rf.fregs inst.rs2) (inst.funct3 = 1)
  rw [decide_eq_true_eq] at kept
  rw [obeys_computed host rf csr inst minmax known, kept]

/-- 1.0 in `f1` and 2.0 in `f2`. -/
def oneTwo : Regfile := fregWrite (fregWrite regfileInit 1 0x3F800000) 2 0x40000000

/-- `fmin.s` and `fmax.s`, to `f10` from these two. -/
def minmaxInst (funct3 : BitVec 3) : DecodedInst where
  raw := encR 0x14 2 1 (funct3.setWidth 32) 10 0x53
  len := 4
  fmt := .r
  opcode := .fp
  rd := 10
  rs1 := 1
  rs2 := 2
  funct3 := funct3
  funct7 := 0x14
  imm := 0

/-- `fmin.s` keeps the law on them. -/
theorem oneTwo_obeys : Obeys idleHost oneTwo csrInit (minmaxInst 0) := by
  apply (obeys_iff idleHost oneTwo csrInit (minmaxInst 0) rfl (Or.inl rfl)).mpr
  have number : ¬ IsNan (oneTwo.fregs 1) := by
    rw [← bitsIsNan_isNan]
    decide
  exact ⟨fun both => absurd both.1 (by decide), fun all => number all.1⟩

/-- `fmax.s` writes 1.0. -/
theorem fmax_lesser :
    (decode (encR 0x14 2 1 1 10 0x53) = some (minmaxInst 1) ∧
        (fpuExecute idleHost oneTwo csrInit (minmaxInst 1)).map (fun done => done.1.fregs 10) =
          some 0x3F800000) ∧
      ¬ ∀ host rf csr inst, inst.funct7 = 0x14 → (inst.funct3 = 0 ∨ inst.funct3 = 1) →
        Obeys host rf csr inst := by
  have less : (denotes (oneTwo.fregs 1)).Less (denotes (oneTwo.fregs 2)) := by
    rw [← f32Lt_iff]
    decide +kernel
  refine ⟨⟨by decide, by decide +kernel⟩, ?_⟩
  intro always
  have kept := always idleHost oneTwo csrInit (minmaxInst 1) rfl (Or.inr rfl)
  rw [obeys_computed idleHost oneTwo csrInit (minmaxInst 1) rfl (Or.inr rfl), fpMinmax_iff] at kept
  exact kept.1 ⟨rfl, Or.inl less⟩

end RvEmu.MinMax
