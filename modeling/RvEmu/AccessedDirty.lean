import RvEmu.PageTables

/-!
# Accessed and dirty updates are harmless

The walker writes into the tables that it reads, and tables may be shared between
levels or map themselves. What it writes is never read back: every test of a walk
looks at bits that no update changes. A translation therefore returns the same
after any other translation as before it, and a repeated one finds nothing left to
update.
-/

namespace RvEmu.AccessedDirty

open LittleEndian WordMarks PageWalk PageTables

/-- The bits that a translation turns on in its leaf entry. -/
def touchedBits : Access → Word
  | .fetch => pteA
  | .load => pteA
  | .store => pteA ||| pteD

/-- The only change is in the word of the leaf entry, which has gained these bits. -/
structure LeafTouched (emu after : Emulator) (leaf : Leaf) (acc : Access) : Prop where
  frame : after = withMem emu after.mem
  before : wordAt emu.mem.data leaf.addr = leaf.pte
  gained : wordAt after.mem.data leaf.addr = leaf.pte ||| touchedBits acc
  elsewhere : ∀ index, ¬ Spans leaf.addr 4 index → after.mem.data index = emu.mem.data index

/-- What is promised of the updates of one translation: none when it is refused; none
    but the leaf entry's bits when it succeeds; and no later translation, itself
    included, can tell. -/
structure Harmless (emu : Emulator) (va : Word) (acc : Access) : Prop where
  refused : ∀ cause after, mmuTranslate emu va acc = (.error cause, after) → after = emu
  allowed : ∀ pa after, mmuTranslate emu va acc = (.ok pa, after) →
    (Bare emu ∧ after = emu) ∨
      ∃ leaf, ¬ Bare emu ∧ walk emu.mem emu.csr.satp va = some leaf ∧
        LeafTouched emu after leaf acc
  unseen : ∀ otherVa otherAcc,
    (mmuTranslate (mmuTranslate emu va acc).2 otherVa otherAcc).1 =
      (mmuTranslate emu otherVa otherAcc).1
  repeated : mmuTranslate (mmuTranslate emu va acc).2 va acc = mmuTranslate emu va acc
  reordered : ∀ otherVa otherAcc,
    (mmuTranslate (mmuTranslate emu otherVa otherAcc).2 va acc).1 = (mmuTranslate emu va acc).1 ∧
      (mmuTranslate (mmuTranslate emu va acc).2 otherVa otherAcc).1 =
        (mmuTranslate emu otherVa otherAcc).1

theorem pteTouched_bits (pte : Word) (acc : Access) :
    pteTouched pte acc = pte ||| touchedBits acc := by
  cases acc with
  | fetch => rfl
  | load => rfl
  | store => exact BitVec.or_assoc pte pteA pteD

/-- The update of a leaf changes its own word. -/
theorem update_touched (emu : Emulator) (va : Word) (leaf : Leaf) (acc : Access)
    (found : walk emu.mem emu.csr.satp va = some leaf) :
    LeafTouched emu (pteUpdateAd emu leaf.addr leaf.pte acc) leaf acc := by
  obtain ⟨read, -, -, -⟩ := walk_found emu.mem emu.csr.satp va leaf found
  obtain ⟨inside, stored⟩ := memoryRead32_some emu.mem leaf.addr leaf.pte read
  rw [pteUpdateAd_eq]
  refine ⟨rfl, stored, ?_, ?_⟩
  · rw [← pteTouched_bits]
    exact reread_touched emu.mem leaf acc read
  · intro index outside
    simp only [touchMemory]
    split
    · simp only [memoryWrite32, if_neg inside]
      exact putWord_outside emu.mem.data leaf.addr _ index outside
    · rfl

/-- Memory after a translation differs by accessed and dirty bits. -/
theorem translate_marks (emu : Emulator) (va : Word) (acc : Access) :
    ∃ mem marked, (mmuTranslate emu va acc).2 = withMem emu mem ∧
      Marked adMask marked emu.mem.data mem.data := by
  rcases translated : mmuTranslate emu va acc with ⟨cause | pa, after⟩
  · obtain ⟨same, -⟩ := mmuTranslate_error emu after va cause acc translated
    subst same
    exact ⟨after.mem, fun _ => False, rfl, marked_refl adMask _ after.mem.data⟩
  · rcases mmuTranslate_ok emu after va pa acc translated with
      ⟨-, -, same⟩ | ⟨leaf, -, found, -, -, updated⟩
    · subst same
      exact ⟨after.mem, fun _ => False, rfl, marked_refl adMask _ after.mem.data⟩
    · rw [pteUpdateAd_eq] at updated
      exact ⟨touchMemory emu.mem leaf acc, _, updated, leaf_marked emu va leaf acc found⟩

/-- No translation sees the updates of another. -/
theorem translate_unseen (emu : Emulator) (va otherVa : Word) (acc otherAcc : Access) :
    (mmuTranslate (mmuTranslate emu va acc).2 otherVa otherAcc).1 =
      (mmuTranslate emu otherVa otherAcc).1 := by
  obtain ⟨mem, marked, after, changed⟩ := translate_marks emu va acc
  rw [after]
  exact translate_marked emu mem marked changed otherVa otherAcc

/-- A repeated translation finds its bits set, and changes nothing. -/
theorem translate_repeated (emu : Emulator) (va : Word) (acc : Access) :
    mmuTranslate (mmuTranslate emu va acc).2 va acc = mmuTranslate emu va acc := by
  refine Prod.ext (translate_unseen emu va va acc acc) ?_
  rcases translated : mmuTranslate emu va acc with ⟨cause | pa, after⟩
  · obtain ⟨same, -⟩ := mmuTranslate_error emu after va cause acc translated
    subst same
    dsimp only
    rw [translated]
  · exact translate_again emu after va va pa acc translated rfl

/-- Every translation is harmless, in every state. -/
theorem translate_harmless (emu : Emulator) (va : Word) (acc : Access) : Harmless emu va acc := by
  refine ⟨?_, ?_, ?_, translate_repeated emu va acc, ?_⟩
  · intro cause after refused
    exact (mmuTranslate_error emu after va cause acc refused).1
  · intro pa after translated
    rcases mmuTranslate_ok emu after va pa acc translated with
      ⟨bare, -, same⟩ | ⟨leaf, paged, found, -, -, updated⟩
    · exact Or.inl ⟨bare, same⟩
    · rw [updated]
      exact Or.inr ⟨leaf, paged, found, update_touched emu va leaf acc found⟩
  · intro otherVa otherAcc
    exact translate_unseen emu va otherVa acc otherAcc
  · intro otherVa otherAcc
    exact ⟨translate_unseen emu otherVa va otherAcc acc,
      translate_unseen emu va otherVa acc otherAcc⟩

end RvEmu.AccessedDirty
