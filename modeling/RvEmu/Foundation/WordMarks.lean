import RvEmu.Foundation.LittleEndian
import RvEmu.Foundation.BitMasks

/-!
# Stores that gain mask bits in marked words

A component may record events by turning bits on inside words that it also
reads. The relation here says exactly that of two stores: aligned words differ
only by mask bits turned on, and only marked words differ at all. It composes,
so any number of such updates is one, and every test of the bits outside the
mask gives the same answer before and after.
-/

namespace RvEmu.WordMarks

open LittleEndian

/-- The new word is the old one with some of the mask's bits turned on. -/
def Gains (mask old new : BitVec 32) : Prop := ∃ bits, new = old ||| (bits &&& mask)

theorem gains_refl (mask word : BitVec 32) : Gains mask word word := by
  exact ⟨0, by simp⟩

theorem gains_trans (mask first second third : BitVec 32) (earlier : Gains mask first second)
    (later : Gains mask second third) : Gains mask first third := by
  obtain ⟨early, rfl⟩ := earlier
  obtain ⟨late, rfl⟩ := later
  refine ⟨early ||| late, ?_⟩
  apply BitVec.eq_of_getLsbD_eq
  intro i _
  simp only [BitVec.getLsbD_and, BitVec.getLsbD_or]
  cases first.getLsbD i <;> cases early.getLsbD i <;> cases mask.getLsbD i <;> simp

/-- Fields disjoint from the mask read the same. -/
theorem gains_field (mask old new field : BitVec 32) (gained : Gains mask old new)
    (disjoint : mask &&& field = 0) : new &&& field = old &&& field := by
  obtain ⟨bits, rfl⟩ := gained
  apply BitMasks.or_keeps
  rw [BitVec.and_assoc, disjoint]
  exact BitVec.and_zero

/-- A shift that drops the mask reads the same. -/
theorem gains_shift (mask old new : BitVec 32) (gained : Gains mask old new) (count : Nat)
    (dropped : mask >>> count = 0) : new >>> count = old >>> count := by
  obtain ⟨bits, rfl⟩ := gained
  rw [BitVec.ushiftRight_or_distrib, BitVec.ushiftRight_and_distrib, dropped]
  simp only [BitVec.ofNat_eq_ofNat, BitVec.and_zero, BitVec.or_zero]

/-- Aligned words gain mask bits, and only the marked ones change. -/
structure Marked (mask : BitVec 32) (marked : BitVec 32 → Prop) (before after : Store) : Prop where
  gains : ∀ addr, Aligned addr → Gains mask (wordAt before addr) (wordAt after addr)
  kept : ∀ addr, Aligned addr → ¬ marked addr → wordAt after addr = wordAt before addr

theorem marked_refl (mask : BitVec 32) (marked : BitVec 32 → Prop) (data : Store) :
    Marked mask marked data data :=
  ⟨fun addr _ => gains_refl mask (wordAt data addr), fun _ _ _ => rfl⟩

/-- A larger set of marks says less. -/
theorem marked_mono (mask : BitVec 32) (few many : BitVec 32 → Prop) (before after : Store)
    (subset : ∀ addr, few addr → many addr) (changed : Marked mask few before after) :
    Marked mask many before after :=
  ⟨changed.gains, fun addr aligned absent =>
    changed.kept addr aligned (fun present => absent (subset addr present))⟩

/-- Successive updates under one set of marks are one update. -/
theorem marked_trans (mask : BitVec 32) (marked : BitVec 32 → Prop) (first second third : Store)
    (earlier : Marked mask marked first second) (later : Marked mask marked second third) :
    Marked mask marked first third := by
  constructor
  · intro addr aligned
    exact gains_trans mask _ _ _ (earlier.gains addr aligned) (later.gains addr aligned)
  · intro addr aligned absent
    exact (later.kept addr aligned absent).trans (earlier.kept addr aligned absent)

/-- Writing one aligned word with mask bits gained marks that word alone. -/
theorem marked_put (mask : BitVec 32) (data : Store) (addr value : BitVec 32)
    (aligned : Aligned addr) (gained : Gains mask (wordAt data addr) value) :
    Marked mask (· = addr) data (putWord data addr value) := by
  constructor
  · intro read readAligned
    by_cases same : read = addr
    · subst read
      rw [wordAt_putWord]
      exact gained
    · rw [wordAt_putWord_other data addr read value aligned readAligned same]
      exact gains_refl mask (wordAt data read)
  · intro read readAligned distinct
    exact wordAt_putWord_other data addr read value aligned readAligned distinct

/-- A byte that differs lies in a marked word. -/
theorem marked_byte (mask : BitVec 32) (marked : BitVec 32 → Prop) (before after : Store)
    (changed : Marked mask marked before after) (index : BitVec 32)
    (differs : after index ≠ before index) : marked (base index) := by
  by_contra absent
  apply differs
  exact bytes_of_word_eq after before (base index) index
    (changed.kept (base index) (base_aligned index) absent) (base_spans index)

end RvEmu.WordMarks
