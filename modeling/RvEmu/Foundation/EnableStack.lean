import RvEmu.Foundation.BitMasks

/-!
# Saving one enable bit in another

An interrupt controller disables interrupts on entry to a handler and remembers
the old setting in a second bit of the same word. `push` is that entry and `pop`
the return. Popping restores the enable bit whatever happened to the rest of the
word in between, as long as the saved bit was left alone.

The two bits are single-bit masks of a word of any width.
-/

namespace RvEmu.EnableStack

variable {w : Nat}

/-- Save the enable bit and clear it. -/
def push (word enable previous : BitVec w) : BitVec w :=
  (if word &&& enable ≠ 0 then word ||| previous else word &&& ~~~previous) &&& ~~~enable

/-- Restore the enable bit and set the saved one. -/
def pop (word enable previous : BitVec w) : BitVec w :=
  (if word &&& previous ≠ 0 then word ||| enable else word &&& ~~~enable) ||| previous

/-- A push leaves every field disjoint from both bits alone. -/
theorem push_keeps (word enable previous field : BitVec w) (enableApart : enable &&& field = 0)
    (previousApart : previous &&& field = 0) :
    push word enable previous &&& field = word &&& field := by
  rw [push, BitMasks.clear_keeps _ _ _ enableApart]
  exact BitMasks.choose_keeps _ _ _ _ previousApart

/-- A pop leaves every field disjoint from both bits alone. -/
theorem pop_keeps (word enable previous field : BitVec w) (enableApart : enable &&& field = 0)
    (previousApart : previous &&& field = 0) :
    pop word enable previous &&& field = word &&& field := by
  rw [pop, BitMasks.or_keeps _ _ _ previousApart]
  exact BitMasks.choose_keeps _ _ _ _ enableApart

/-- After a push the enable bit is clear. -/
theorem push_disabled (word enable previous : BitVec w) :
    push word enable previous &&& enable = 0 := by
  apply BitVec.eq_of_getLsbD_eq
  intro i inside
  simp only [push, BitVec.getLsbD_and, BitVec.getLsbD_not, inside, decide_true, Bool.true_and,
    BitVec.ofNat_eq_ofNat, BitVec.getLsbD_zero]
  cases enable.getLsbD i <;> simp

/-- Setting or clearing a bit on a condition makes it read as the condition. -/
theorem choose_reads (condition : Prop) [Decidable condition] (word bit : BitVec w) :
    (if condition then word ||| bit else word &&& ~~~bit) &&& bit =
      if condition then bit else 0 := by
  apply BitVec.eq_of_getLsbD_eq
  intro i inside
  by_cases holds : condition
  · simp only [if_pos holds, BitVec.getLsbD_and, BitVec.getLsbD_or]
    cases word.getLsbD i <;> cases bit.getLsbD i <;> rfl
  · simp only [if_neg holds, BitVec.getLsbD_and, BitVec.getLsbD_not, inside, decide_true,
      Bool.true_and, BitVec.ofNat_eq_ofNat, BitVec.getLsbD_zero]
    cases bit.getLsbD i <;> simp

/-- A field that is one bit reads as zero or as that bit. -/
theorem bit_reads (word : BitVec w) (i : Nat) :
    word &&& BitVec.twoPow w i = 0 ∨ word &&& BitVec.twoPow w i = BitVec.twoPow w i := by
  rw [BitVec.and_twoPow]
  by_cases set : word.getLsbD i = true
  · exact Or.inr (if_pos set)
  · exact Or.inl (if_neg set)

/-- A pop restores the enable bit of the word that was pushed, when the saved bit
    is still what the push made it. -/
theorem pop_restores (word later previous : BitVec w) (i : Nat)
    (apart : BitVec.twoPow w i &&& previous = 0) (nonzero : previous ≠ 0)
    (saved : later &&& previous = push word (BitVec.twoPow w i) previous &&& previous) :
    pop later (BitVec.twoPow w i) previous &&& BitVec.twoPow w i =
      word &&& BitVec.twoPow w i := by
  have swapped : previous &&& BitVec.twoPow w i = 0 := by
    rw [BitVec.and_comm]
    exact apart
  have read : later &&& previous = if word &&& BitVec.twoPow w i ≠ 0 then previous else 0 := by
    rw [saved, push, BitMasks.clear_keeps _ _ _ apart]
    exact choose_reads _ word previous
  rw [pop, BitMasks.or_keeps _ _ _ swapped, choose_reads]
  by_cases set : word &&& BitVec.twoPow w i ≠ 0
  · have whole := (bit_reads word i).resolve_left set
    rw [if_pos set] at read
    rw [read, if_pos nonzero, whole]
  · rw [if_neg set] at read
    rw [read, if_neg (not_not.mpr rfl), not_not.mp set]

end RvEmu.EnableStack
