import Mathlib.Data.List.Induction
import Mathlib.Data.List.Nodup
import Mathlib.Logic.Function.Basic

/-!
# Bounded sets in order of insertion

Such a set keeps its elements in the order in which they came. It refuses an
element it has, and any element when it is full. Its contents after a sequence
of edits are determined by the sequence alone: they are the insertions that were
admitted and have survived every later edit, in their order.

An array with a count represents a set of this kind. An element is stored at the
end and removed by closing the gap behind it, so the represented list is
extended and loses one position.
-/

namespace RvEmu.InsertionOrder

universe u
variable {α : Type u}

/-! ## Sets and edits -/

/-- Distinct elements, at most `capacity` of them, oldest first. -/
structure OrderedSet (α : Type u) (capacity : Nat) where
  elems : List α
  nodup : elems.Nodup
  bounded : elems.length ≤ capacity

inductive Edit (α : Type u) where
  | insert (a : α)
  | remove (a : α)
  | clear
deriving DecidableEq

section Sets

variable [DecidableEq α] {capacity : Nat}

/-- The element is new and there is room for it. -/
def OrderedSet.Admits (set : OrderedSet α capacity) (a : α) : Prop :=
  a ∉ set.elems ∧ set.elems.length < capacity

instance (set : OrderedSet α capacity) (a : α) : Decidable (set.Admits a) :=
  inferInstanceAs (Decidable (a ∉ set.elems ∧ set.elems.length < capacity))

def OrderedSet.empty : OrderedSet α capacity where
  elems := []
  nodup := List.nodup_nil
  bounded := Nat.zero_le capacity

def OrderedSet.insert (set : OrderedSet α capacity) (a : α) : OrderedSet α capacity :=
  if admitted : set.Admits a then
    { elems := set.elems ++ [a]
      nodup := List.nodup_append.mpr ⟨set.nodup, List.nodup_singleton a, by
        rintro b member c single rfl
        exact admitted.1 (List.mem_singleton.mp single ▸ member)⟩
      bounded := by
        rw [List.length_append]
        exact admitted.2 }
  else set

def OrderedSet.remove (set : OrderedSet α capacity) (a : α) : OrderedSet α capacity where
  elems := set.elems.filter (· != a)
  nodup := set.nodup.filter _
  bounded := Nat.le_trans (List.length_filter_le _ _) set.bounded

def OrderedSet.edit (set : OrderedSet α capacity) : Edit α → OrderedSet α capacity
  | .insert a => set.insert a
  | .remove a => set.remove a
  | .clear => .empty

/-- The edit takes the element out. -/
def Edit.drops (a : α) : Edit α → Bool
  | .insert _ => false
  | .remove b => a == b
  | .clear => true

variable (capacity)

/-- The set that a sequence of edits leaves of the empty one. -/
def after (edits : List (Edit α)) : OrderedSet α capacity :=
  edits.foldl OrderedSet.edit .empty

/-- The element inserted at a place of the sequence, if it was admitted there and no later
    edit takes it out. -/
def survivor (edits : List (Edit α)) (place : Nat) : Option α :=
  match edits[place]? with
  | some (.insert a) =>
    if (after capacity (edits.take place)).Admits a ∧
        (edits.drop (place + 1)).all (fun edit => !edit.drops a) then
      some a
    else none
  | _ => none

/-- The surviving insertions in their order. -/
def survivors (edits : List (Edit α)) : List α :=
  (List.range edits.length).filterMap (survivor capacity edits)

/-! ## The contents are the surviving insertions -/

theorem after_snoc (edits : List (Edit α)) (edit : Edit α) :
    after capacity (edits ++ [edit]) = (after capacity edits).edit edit := by
  rw [after, List.foldl_append]
  rfl

/-- One more edit takes an earlier insertion out, or lets it survive. -/
theorem survivor_earlier (edits : List (Edit α)) (edit : Edit α) (place : Nat)
    (earlier : place < edits.length) :
    survivor capacity (edits ++ [edit]) place =
      (survivor capacity edits place).filter (fun a => !edit.drops a) := by
  have before : (edits ++ [edit]).take place = edits.take place :=
    List.take_append_of_le_length (Nat.le_of_lt earlier)
  have behind : (edits ++ [edit]).drop (place + 1) = edits.drop (place + 1) ++ [edit] :=
    List.drop_append_of_le_length earlier
  simp only [survivor, List.getElem?_append_left earlier, before, behind, List.all_append,
    List.all_cons, List.all_nil, Bool.and_true, Bool.and_eq_true]
  cases edits[place]? with
  | none => rfl
  | some old =>
    cases old with
    | remove _ => rfl
    | clear => rfl
    | insert a =>
      by_cases kept : (after capacity (edits.take place)).Admits a ∧
          (edits.drop (place + 1)).all (fun edit => !edit.drops a) = true
      · cases dropped : edit.drops a with
        | true => simp [kept, dropped, Option.filter]
        | false => simp [kept, dropped, Option.filter]
      · have gone : ¬ ((after capacity (edits.take place)).Admits a ∧
            (edits.drop (place + 1)).all (fun edit => !edit.drops a) = true ∧
              (!edit.drops a) = true) := fun both => kept ⟨both.1, both.2.1⟩
        dsimp only
        rw [if_neg gone, if_neg kept, Option.filter_none]

/-- The last edit adds its element if that is admitted. -/
theorem survivor_last (edits : List (Edit α)) (edit : Edit α) :
    survivor capacity (edits ++ [edit]) edits.length =
      match edit with
      | .insert a => if (after capacity edits).Admits a then some a else none
      | _ => none := by
  have behind : (edits ++ [edit]).drop (edits.length + 1) = [] := by
    rw [List.drop_eq_nil_of_le]
    rw [List.length_append]
    exact Nat.le_refl _
  have here : (edits ++ [edit])[edits.length]? = some edit := List.getElem?_concat_length
  simp only [survivor, here, behind, List.take_left, List.all_nil, and_true]
  cases edit <;> rfl

theorem survivors_snoc (edits : List (Edit α)) (edit : Edit α) :
    survivors capacity (edits ++ [edit]) =
      (survivors capacity edits).filter (fun a => !edit.drops a) ++
        (survivor capacity (edits ++ [edit]) edits.length).toList := by
  have earlier : (List.range edits.length).filterMap (survivor capacity (edits ++ [edit])) =
      (survivors capacity edits).filter (fun a => !edit.drops a) := by
    rw [survivors, List.filter_filterMap]
    apply List.filterMap_congr
    intro place member
    exact survivor_earlier capacity edits edit place (List.mem_range.mp member)
  rw [survivors, List.length_append, List.length_singleton, List.range_succ,
    List.filterMap_append, earlier]
  cases last : survivor capacity (edits ++ [edit]) edits.length with
  | none =>
    rw [List.filterMap_cons_none last]
    rfl
  | some a =>
    rw [List.filterMap_cons_some last]
    rfl

/-- The set holds the surviving insertions, in their order. The induction is on the
    sequence from its end: each edit acts on the survivors as on the set. -/
theorem after_elems (edits : List (Edit α)) :
    (after capacity edits).elems = survivors capacity edits := by
  induction edits using List.reverseRecOn with
  | nil => rfl
  | append_singleton edits edit inductionHypothesis =>
    rw [after_snoc, survivors_snoc, survivor_last, ← inductionHypothesis]
    cases edit with
    | insert a =>
      have stay : (after capacity edits).elems.filter (fun b => !(Edit.insert a).drops b) =
          (after capacity edits).elems := List.filter_eq_self.mpr (fun _ _ => rfl)
      rw [stay, OrderedSet.edit, OrderedSet.insert]
      by_cases admitted : (after capacity edits).Admits a
      · rw [dif_pos admitted]
        simp only [if_pos admitted]
        rfl
      · rw [dif_neg admitted]
        simp only [if_neg admitted]
        exact (List.append_nil _).symm
    | remove a => exact (List.append_nil _).symm
    | clear =>
      have gone : (after capacity edits).elems.filter (fun b => !(Edit.clear).drops b) = [] :=
        List.filter_eq_nil_iff.mpr (fun _ _ => Bool.false_ne_true)
      rw [gone]
      rfl

/-- An element is in the set just where one of its insertions survives. -/
theorem mem_after (edits : List (Edit α)) (a : α) :
    a ∈ (after capacity edits).elems ↔ ∃ place, survivor capacity edits place = some a := by
  rw [after_elems, survivors, List.mem_filterMap]
  constructor
  · rintro ⟨place, -, survived⟩
    exact ⟨place, survived⟩
  · rintro ⟨place, survived⟩
    refine ⟨place, List.mem_range.mpr (Nat.lt_of_not_le fun beyond => ?_), survived⟩
    rw [survivor, List.getElem?_eq_none beyond] at survived
    cases survived

end Sets

/-! ## Arrays with a count -/

/-- The first `count` slots of an array. -/
def contents (slots : Nat → α) (count : Nat) : List α := (List.range count).map slots

section Arrays

variable (slots : Nat → α) (count : Nat)

@[simp] theorem contents_length : (contents slots count).length = count := by
  rw [contents, List.length_map, List.length_range]

theorem mem_contents (a : α) : a ∈ contents slots count ↔ ∃ i, i < count ∧ slots i = a := by
  simp only [contents, List.mem_map, List.mem_range]

theorem contents_getElem? (i : Nat) :
    (contents slots count)[i]? = if i < count then some (slots i) else none := by
  rw [contents, List.getElem?_map]
  split
  · rename_i inside
    rw [List.getElem?_range inside]
    rfl
  · rename_i outside
    rw [List.getElem?_eq_none (by rw [List.length_range]; omega)]
    rfl

/-- An element stored behind the last one. -/
theorem contents_push (a : α) :
    contents (Function.update slots count a) (count + 1) = contents slots count ++ [a] := by
  have kept : (List.range count).map (Function.update slots count a) = contents slots count := by
    apply List.map_congr_left
    intro i member
    have below : i ≠ count := Nat.ne_of_lt (List.mem_range.mp member)
    exact Function.update_of_ne below a slots
  rw [contents, List.range_succ, List.map_append, kept]
  congr 1
  exact congrArg (fun b => [b]) (Function.update_self count a slots)

/-- A gap closed from behind. -/
theorem contents_close (shifted : Nat → α) (gap : Nat) (inside : gap < count)
    (below : ∀ i, i < gap → shifted i = slots i)
    (above : ∀ i, gap ≤ i → i + 1 < count → shifted i = slots (i + 1)) :
    contents shifted (count - 1) = (contents slots count).eraseIdx gap := by
  apply List.ext_getElem?
  intro i
  rw [List.getElem?_eraseIdx, contents_getElem?, contents_getElem?, contents_getElem?]
  by_cases low : i < gap
  · rw [if_pos low, if_pos (by omega), if_pos (by omega), below i low]
  · rw [if_neg low]
    by_cases high : i + 1 < count
    · rw [if_pos (by omega), if_pos high, above i (by omega) high]
    · rw [if_neg (by omega), if_neg high]

variable [DecidableEq α] {capacity : Nat}

/-- Closing the gap of an element removes it from the set. -/
theorem contents_remove (set : OrderedSet α capacity) (shifted : Nat → α) (gap : Nat) (a : α)
    (held : contents slots count = set.elems) (inside : gap < count) (found : slots gap = a)
    (below : ∀ i, i < gap → shifted i = slots i)
    (above : ∀ i, gap ≤ i → i + 1 < count → shifted i = slots (i + 1)) :
    contents shifted (count - 1) = (set.remove a).elems := by
  have long : gap < set.elems.length := by
    rw [← held, contents_length]
    exact inside
  have there : set.elems[gap] = a := by
    have read := contents_getElem? slots count gap
    rw [if_pos inside, held, List.getElem?_eq_getElem long, found] at read
    exact Option.some.inj read
  have erased := List.Nodup.erase_getElem set.nodup gap long
  rw [there, set.nodup.erase_eq_filter a] at erased
  rw [contents_close slots count shifted gap inside below above, held]
  exact erased.symm

end Arrays

end RvEmu.InsertionOrder
