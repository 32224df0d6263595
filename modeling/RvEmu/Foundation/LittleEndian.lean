import Mathlib.Algebra.Group.Nat.Defs
import Mathlib.Logic.Function.Basic

/-!
# Little-endian words in a byte store

A store assigns a byte to every 32-bit address. A word occupies four
consecutive addresses, least significant byte first, and addresses wrap as
machine addresses do. Spans are stated by unsigned distance from their first
address, so one membership test covers a byte, a halfword and a word.

Reading back a written word, the frame of a write and the disjointness of
distinct aligned words are general facts about such stores. No bound on the
addresses is assumed here; a bounds check belongs to the memory that uses it.
-/

namespace RvEmu.LittleEndian

/-- A byte at every 32-bit address. -/
abbrev Store := BitVec 32 → BitVec 8

/-- The bytes at distance less than `count` above the first address. -/
def Spans (addr : BitVec 32) (count : Nat) (index : BitVec 32) : Prop :=
  (index - addr).toNat < count

instance (addr : BitVec 32) (count : Nat) (index : BitVec 32) :
    Decidable (Spans addr count index) :=
  inferInstanceAs (Decidable ((index - addr).toNat < count))

/-- Four-byte alignment of an address. -/
def Aligned (addr : BitVec 32) : Prop := addr.toNat % 4 = 0

instance (addr : BitVec 32) : Decidable (Aligned addr) :=
  inferInstanceAs (Decidable (addr.toNat % 4 = 0))

/-- Byte `k` of a word, counted from the least significant one. -/
def byteOf (value : BitVec 32) (k : Nat) : BitVec 8 :=
  ((value >>> (8 * k)) &&& 0xFF#32).setWidth 8

/-- The word at four consecutive addresses. -/
def wordAt (data : Store) (addr : BitVec 32) : BitVec 32 :=
  (data addr).setWidth 32 ||| ((data (addr + 1)).setWidth 32 <<< 8) |||
    ((data (addr + 2)).setWidth 32 <<< 16) ||| ((data (addr + 3)).setWidth 32 <<< 24)

/-- Store the four bytes of a word at consecutive addresses. -/
def putWord (data : Store) (addr value : BitVec 32) : Store :=
  Function.update (Function.update (Function.update (Function.update data
    addr (byteOf value 0)) (addr + 1) (byteOf value 1)) (addr + 2) (byteOf value 2))
    (addr + 3) (byteOf value 3)

/-- The halfword at two consecutive addresses. -/
def halfAt (data : Store) (addr : BitVec 32) : BitVec 16 :=
  (data addr).setWidth 16 ||| ((data (addr + 1)).setWidth 16 <<< 8)

/-- Store the two bytes of a halfword at consecutive addresses. -/
def putHalf (data : Store) (addr : BitVec 32) (value : BitVec 16) : Store :=
  Function.update (Function.update data addr ((value &&& 0xFF#16).setWidth 8))
    (addr + 1) (((value >>> 8) &&& 0xFF#16).setWidth 8)

/-- The aligned word that holds an address. -/
def base (index : BitVec 32) : BitVec 32 := BitVec.ofNat 32 (index.toNat / 4 * 4)

theorem base_toNat (index : BitVec 32) : (base index).toNat = index.toNat / 4 * 4 := by
  have bound : index.toNat < 2 ^ 32 := index.isLt
  rw [base, BitVec.toNat_ofNat, Nat.mod_eq_of_lt (by omega)]

theorem base_aligned (index : BitVec 32) : Aligned (base index) := by
  rw [Aligned, base_toNat]
  omega

theorem base_spans (index : BitVec 32) : Spans (base index) 4 index := by
  have bound : index.toNat < 2 ^ 32 := index.isLt
  rw [Spans, BitVec.toNat_sub, base_toNat]
  omega

/-- An aligned word never wraps, so its span is an interval of numbers. -/
theorem aligned_span (addr index : BitVec 32) (aligned : Aligned addr) :
    Spans addr 4 index ↔ addr.toNat ≤ index.toNat ∧ index.toNat < addr.toNat + 4 := by
  have low : addr.toNat < 2 ^ 32 := addr.isLt
  have high : index.toNat < 2 ^ 32 := index.isLt
  simp only [Aligned] at aligned
  rw [Spans, BitVec.toNat_sub]
  omega

/-- The aligned word over an address is unique. -/
theorem base_unique (addr index : BitVec 32) (aligned : Aligned addr)
    (inside : Spans addr 4 index) : base index = addr := by
  have interval := (aligned_span addr index aligned).mp inside
  apply BitVec.eq_of_toNat_eq
  rw [base_toNat]
  simp only [Aligned] at aligned
  omega

/-- Distinct aligned words share no byte. -/
theorem aligned_disjoint (left right index : BitVec 32) (leftAligned : Aligned left)
    (rightAligned : Aligned right) (distinct : left ≠ right) (inside : Spans left 4 index) :
    ¬ Spans right 4 index := by
  intro both
  apply distinct
  rw [← base_unique left index leftAligned inside,
    ← base_unique right index rightAligned both]

/-- A naturally aligned access of at most four bytes stays in one aligned word. -/
theorem natural_word (addr index : BitVec 32) (count : Nat)
    (small : count = 1 ∨ count = 2 ∨ count = 4) (natural : addr.toNat % count = 0)
    (member : Spans addr count index) : index.toNat / 4 = addr.toNat / 4 := by
  have low : addr.toNat < 2 ^ 32 := addr.isLt
  have high : index.toNat < 2 ^ 32 := index.isLt
  rw [Spans, BitVec.toNat_sub] at member
  rcases small with rfl | rfl | rfl
  · omega
  · omega
  · omega

/-- A four-byte span has exactly its four addresses. -/
theorem spans_four_iff (addr index : BitVec 32) :
    Spans addr 4 index ↔
      index = addr ∨ index = addr + 1 ∨ index = addr + 2 ∨ index = addr + 3 := by
  simp only [Spans]
  bv_omega

/-- A two-byte span has exactly its two addresses. -/
theorem spans_two_iff (addr index : BitVec 32) :
    Spans addr 2 index ↔ index = addr ∨ index = addr + 1 := by
  simp only [Spans]
  bv_omega

/-- The low-byte mask has exactly its eight low bits. -/
theorem low_byte_mask (i : Nat) (inside : i < 32) :
    (0xFF#32).getLsbD i = decide (i < 8) := by
  revert i
  decide

/-- Byte `k` holds bits `8 * k` to `8 * k + 7`. -/
theorem byteOf_bit (value : BitVec 32) (k i : Nat) (inside : i < 8) :
    (byteOf value k).getLsbD i = value.getLsbD (8 * k + i) := by
  have mask : (0xFF#32).getLsbD i = true := by
    rw [low_byte_mask i (by omega)]
    exact decide_eq_true inside
  rw [byteOf, BitVec.getLsbD_setWidth, BitVec.getLsbD_and, mask, BitVec.getLsbD_ushiftRight]
  simp only [inside, decide_true, Bool.true_and, Bool.and_true]

/-- Joining the four bytes of a word gives the word back. Each bit lies in
exactly one of the four bytes; the case names that byte. -/
theorem join_bytes (value : BitVec 32) :
    (byteOf value 0).setWidth 32 ||| ((byteOf value 1).setWidth 32 <<< 8) |||
      ((byteOf value 2).setWidth 32 <<< 16) ||| ((byteOf value 3).setWidth 32 <<< 24) =
      value := by
  apply BitVec.eq_of_getLsbD_eq
  intro i inside
  simp only [BitVec.getLsbD_or, BitVec.getLsbD_shiftLeft, BitVec.getLsbD_setWidth]
  have none (k j : Nat) (high : 8 ≤ j) : (byteOf value k).getLsbD j = false :=
    BitVec.getLsbD_of_ge _ _ high
  rcases (by omega : i < 8 ∨ (8 ≤ i ∧ i < 16) ∨ (16 ≤ i ∧ i < 24) ∨ 24 ≤ i) with
    first | ⟨above, below⟩ | ⟨above, below⟩ | above
  · have second : i < 16 := by omega
    have third : i < 24 := by omega
    rw [byteOf_bit value 0 i first]
    simp [inside, first, second, third]
  · have beyond : ¬ i < 8 := by omega
    have third : i < 24 := by omega
    have offset : i - 8 < 32 := by omega
    have place : 8 + (i - 8) = i := by omega
    rw [none 0 i above]
    simp [inside, beyond, below, third, offset, byteOf_bit value 1 (i - 8) (by omega), place]
  · have beyond : ¬ i < 8 ∧ ¬ i < 16 := by omega
    have offset : i - 16 < 32 := by omega
    have place : 16 + (i - 16) = i := by omega
    rw [none 0 i (by omega), none 1 (i - 8) (by omega)]
    simp [inside, beyond, below, offset, byteOf_bit value 2 (i - 16) (by omega), place]
  · have beyond : ¬ i < 8 ∧ ¬ i < 16 ∧ ¬ i < 24 := by omega
    have offset : i - 24 < 32 := by omega
    have place : 24 + (i - 24) = i := by omega
    rw [none 0 i (by omega), none 1 (i - 8) (by omega), none 2 (i - 16) (by omega)]
    simp [inside, beyond, offset, byteOf_bit value 3 (i - 24) (by omega), place]

/-- A word determines its bytes: byte `k` of the word read is the byte stored at
distance `k`. -/
theorem byteOf_wordAt (data : Store) (addr : BitVec 32) :
    byteOf (wordAt data addr) 0 = data addr ∧ byteOf (wordAt data addr) 1 = data (addr + 1) ∧
      byteOf (wordAt data addr) 2 = data (addr + 2) ∧
      byteOf (wordAt data addr) 3 = data (addr + 3) := by
  have none (byte : BitVec 8) (j : Nat) (high : 8 ≤ j) : byte.getLsbD j = false :=
    BitVec.getLsbD_of_ge _ _ high
  refine ⟨?_, ?_, ?_, ?_⟩ <;> apply BitVec.eq_of_getLsbD_eq <;> intro i inside <;>
    rw [byteOf_bit _ _ i inside] <;>
    simp only [wordAt, BitVec.getLsbD_or, BitVec.getLsbD_shiftLeft, BitVec.getLsbD_setWidth]
  · have below : i < 32 ∧ i < 8 ∧ i < 16 ∧ i < 24 := by omega
    simp [below]
  · have below : i < 32 ∧ 8 + i < 16 ∧ 8 + i < 24 ∧ 8 + i < 32 := by omega
    rw [none (data addr) _ (by omega)]
    simp [below]
  · have below : i < 32 ∧ 16 + i < 24 ∧ 16 + i < 32 := by omega
    rw [none (data addr) _ (by omega), none (data (addr + 1)) _ (by omega)]
    simp [below]
  · have below : i < 32 ∧ 24 + i < 32 := by omega
    rw [none (data addr) _ (by omega), none (data (addr + 1)) _ (by omega),
      none (data (addr + 2)) _ (by omega)]
    simp [below]

/-- Equal words have equal bytes throughout their span. -/
theorem bytes_of_word_eq (left right : Store) (addr index : BitVec 32)
    (same : wordAt left addr = wordAt right addr) (inside : Spans addr 4 index) :
    left index = right index := by
  obtain ⟨left0, left1, left2, left3⟩ := byteOf_wordAt left addr
  obtain ⟨right0, right1, right2, right3⟩ := byteOf_wordAt right addr
  rcases (spans_four_iff addr index).mp inside with rfl | rfl | rfl | rfl
  · rw [← left0, same, right0]
  · rw [← left1, same, right1]
  · rw [← left2, same, right2]
  · rw [← left3, same, right3]

/-- A halfword of two bytes, widened. -/
theorem setWidth_join (low high : BitVec 8) :
    (low.setWidth 16 ||| high.setWidth 16 <<< 8).setWidth 32 =
      low.setWidth 32 ||| high.setWidth 32 <<< 8 := by
  apply BitVec.eq_of_getLsbD_eq
  intro i inside
  simp only [BitVec.getLsbD_or, BitVec.getLsbD_setWidth, BitVec.getLsbD_shiftLeft, inside,
    decide_true, Bool.true_and]
  by_cases half : i < 16
  · simp [half, show i - 8 < 16 by omega, show i - 8 < 32 by omega]
  · simp [half, BitVec.getLsbD_of_ge low i (by omega),
      BitVec.getLsbD_of_ge high (i - 8) (by omega)]

/-- A word is its two halfwords. -/
theorem wordAt_halves (data : Store) (addr : BitVec 32) :
    wordAt data addr =
      (halfAt data addr).setWidth 32 ||| (halfAt data (addr + 2)).setWidth 32 <<< 16 := by
  have next : addr + 2 + 1 = addr + 3 := by bv_omega
  simp only [wordAt, halfAt, next, setWidth_join]
  rw [BitVec.shiftLeft_or_distrib, ← BitVec.shiftLeft_add, ← BitVec.or_assoc]

/-- A word depends only on the bytes of its span. -/
theorem wordAt_congr (left right : Store) (addr : BitVec 32)
    (same : ∀ index, Spans addr 4 index → left index = right index) :
    wordAt left addr = wordAt right addr := by
  have at0 := same addr ((spans_four_iff addr addr).mpr (Or.inl rfl))
  have at1 := same (addr + 1) ((spans_four_iff addr _).mpr (Or.inr (Or.inl rfl)))
  have at2 := same (addr + 2) ((spans_four_iff addr _).mpr (Or.inr (Or.inr (Or.inl rfl))))
  have at3 := same (addr + 3) ((spans_four_iff addr _).mpr (Or.inr (Or.inr (Or.inr rfl))))
  simp only [wordAt, at0, at1, at2, at3]

/-- The four bytes written, in order of address. -/
theorem putWord_bytes (data : Store) (addr value : BitVec 32) :
    putWord data addr value addr = byteOf value 0 ∧
      putWord data addr value (addr + 1) = byteOf value 1 ∧
      putWord data addr value (addr + 2) = byteOf value 2 ∧
      putWord data addr value (addr + 3) = byteOf value 3 := by
  have ne01 : addr ≠ addr + 1 := by bv_omega
  have ne02 : addr ≠ addr + 2 := by bv_omega
  have ne03 : addr ≠ addr + 3 := by bv_omega
  have ne12 : addr + 1 ≠ addr + 2 := by bv_omega
  have ne13 : addr + 1 ≠ addr + 3 := by bv_omega
  have ne23 : addr + 2 ≠ addr + 3 := by bv_omega
  refine ⟨?_, ?_, ?_, ?_⟩ <;>
    simp only [putWord, Function.update_apply, ne01, ne02, ne03, ne12, ne13, ne23, if_true,
      if_false]

/-- A write leaves every byte outside its span alone. -/
theorem putWord_outside (data : Store) (addr value index : BitVec 32)
    (outside : ¬ Spans addr 4 index) : putWord data addr value index = data index := by
  rw [spans_four_iff] at outside
  simp only [not_or] at outside
  obtain ⟨ne0, ne1, ne2, ne3⟩ := outside
  simp only [putWord, Function.update_apply, ne0, ne1, ne2, ne3, if_false]

/-- Reading back the written word. -/
theorem wordAt_putWord (data : Store) (addr value : BitVec 32) :
    wordAt (putWord data addr value) addr = value := by
  obtain ⟨at0, at1, at2, at3⟩ := putWord_bytes data addr value
  rw [wordAt, at0, at1, at2, at3]
  exact join_bytes value

/-- Writing an aligned word leaves every other aligned word alone. -/
theorem wordAt_putWord_other (data : Store) (written read value : BitVec 32)
    (writtenAligned : Aligned written) (readAligned : Aligned read) (distinct : read ≠ written) :
    wordAt (putWord data written value) read = wordAt data read := by
  apply wordAt_congr
  intro index inside
  exact putWord_outside data written value index
    (aligned_disjoint read written index readAligned writtenAligned distinct inside)

/-- A halfword depends only on the bytes of its span. -/
theorem halfAt_congr (left right : Store) (addr : BitVec 32)
    (same : ∀ index, Spans addr 2 index → left index = right index) :
    halfAt left addr = halfAt right addr := by
  have at0 := same addr ((spans_two_iff addr addr).mpr (Or.inl rfl))
  have at1 := same (addr + 1) ((spans_two_iff addr _).mpr (Or.inr rfl))
  simp only [halfAt, at0, at1]

/-- A halfword write leaves every byte outside its span alone. -/
theorem putHalf_outside (data : Store) (addr : BitVec 32) (value : BitVec 16) (index : BitVec 32)
    (outside : ¬ Spans addr 2 index) : putHalf data addr value index = data index := by
  rw [spans_two_iff] at outside
  simp only [not_or] at outside
  simp only [putHalf, Function.update_apply, outside.1, outside.2, if_false]

/-! ## Stores that agree in places -/

/-- Two stores hold the same bytes at the addresses of a place. -/
def AgreeOn (place : BitVec 32 → Prop) (left right : Store) : Prop :=
  ∀ index, place index → left index = right index

theorem agree_word (place : BitVec 32 → Prop) (left right : Store) (addr : BitVec 32)
    (agree : AgreeOn place left right) (inside : ∀ index, Spans addr 4 index → place index) :
    wordAt left addr = wordAt right addr := by
  apply wordAt_congr
  intro index member
  exact agree index (inside index member)

theorem agree_half (place : BitVec 32 → Prop) (left right : Store) (addr : BitVec 32)
    (agree : AgreeOn place left right) (inside : ∀ index, Spans addr 2 index → place index) :
    halfAt left addr = halfAt right addr := by
  apply halfAt_congr
  intro index member
  exact agree index (inside index member)

/-- The same write, anywhere, keeps the agreement. -/
theorem agree_update (place : BitVec 32 → Prop) (left right : Store) (addr : BitVec 32)
    (value : BitVec 8) (agree : AgreeOn place left right) :
    AgreeOn place (Function.update left addr value) (Function.update right addr value) := by
  intro index member
  simp only [Function.update_apply, agree index member]

theorem agree_putHalf (place : BitVec 32 → Prop) (left right : Store) (addr : BitVec 32)
    (value : BitVec 16) (agree : AgreeOn place left right) :
    AgreeOn place (putHalf left addr value) (putHalf right addr value) := by
  apply agree_update
  apply agree_update
  exact agree

theorem agree_putWord (place : BitVec 32 → Prop) (left right : Store) (addr value : BitVec 32)
    (agree : AgreeOn place left right) :
    AgreeOn place (putWord left addr value) (putWord right addr value) := by
  apply agree_update
  apply agree_update
  apply agree_update
  apply agree_update
  exact agree

end RvEmu.LittleEndian
