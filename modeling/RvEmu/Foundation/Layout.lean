import Mathlib.Data.List.Basic

/-!
# Laying items out

A layout places items one after another, each in the room that it takes, and its image is
the cells of the items in that order. The cells of an item are found in the image at its
address. A table of names that is built in one pass tells for every name the address of an
item that bears it.

An item may take no room, as a label does, so several may stand at one address.
-/

namespace RvEmu.Layout

universe u v w
variable {Item : Type u} {Cell : Type v} {Name : Type w} (size : Item → Nat)

/-- The items with their addresses, of which the first is given. -/
def places : List Item → Nat → List (Nat × Item)
  | [], _ => []
  | item :: rest, start => (start, item) :: places rest (start + size item)

/-- The room that items take. -/
def room : List Item → Nat
  | [] => 0
  | item :: rest => size item + room rest

/-- A placed item lies in the room of all. -/
theorem places_inside (items : List Item) (start place : Nat) (item : Item)
    (placed : (place, item) ∈ places size items start) :
    start ≤ place ∧ place + size item ≤ start + room size items := by
  induction items generalizing start with
  | nil => cases placed
  | cons first rest inductionHypothesis =>
    rw [places, List.mem_cons] at placed
    rw [room]
    rcases placed with here | later
    · obtain ⟨rfl, rfl⟩ := Prod.mk.inj here
      omega
    · obtain ⟨above, below⟩ := inductionHypothesis (start + size first) later
      omega

/-! ## Images -/

section Image

variable (emit : Nat → Item → List Cell)

/-- The cells of the items, in order. -/
def image (items : List Item) (start : Nat) : List Cell :=
  (places size items start).flatMap fun placed => emit placed.1 placed.2

/-- Every item fills its room. -/
def Fills (items : List Item) (start : Nat) : Prop :=
  ∀ place item, (place, item) ∈ places size items start → (emit place item).length = size item

theorem image_cons (first : Item) (rest : List Item) (start : Nat) :
    image size emit (first :: rest) start =
      emit start first ++ image size emit rest (start + size first) :=
  rfl

theorem fills_rest (first : Item) (rest : List Item) (start : Nat)
    (fills : Fills size emit (first :: rest) start) :
    Fills size emit rest (start + size first) :=
  fun place item placed => fills place item (List.mem_cons_of_mem _ placed)

/-- The image fills the room of all. -/
theorem image_length (items : List Item) (start : Nat) (fills : Fills size emit items start) :
    (image size emit items start).length = room size items := by
  induction items generalizing start with
  | nil => rfl
  | cons first rest inductionHypothesis =>
    have head := fills start first List.mem_cons_self
    rw [image_cons, List.length_append, head,
      inductionHypothesis _ (fills_rest size emit first rest start fills), room]

/-- The cells of an item stand in the image at its address. -/
theorem image_cell (items : List Item) (start : Nat) (fills : Fills size emit items start)
    (place : Nat) (item : Item) (placed : (place, item) ∈ places size items start) (k : Nat)
    (inside : k < size item) :
    (image size emit items start)[place - start + k]? = (emit place item)[k]? := by
  induction items generalizing start with
  | nil => cases placed
  | cons first rest inductionHypothesis =>
    have head := fills start first List.mem_cons_self
    rw [places, List.mem_cons] at placed
    rw [image_cons]
    rcases placed with here | later
    · obtain ⟨rfl, rfl⟩ := Prod.mk.inj here
      rw [Nat.sub_self, Nat.zero_add]
      exact List.getElem?_append_left (by omega)
    · obtain ⟨above, -⟩ := places_inside size rest _ _ _ later
      rw [List.getElem?_append_right (by omega), head,
        ← inductionHypothesis _ (fills_rest size emit first rest start fills) later]
      congr 1
      omega

end Image

/-! ## Names -/

section Names

variable (name : Item → Option Name)

/-- The table after the names of the items have been put in front of it, each with the
    address of its item. -/
def symbols : List Item → Nat → List (Name × Nat) → List (Name × Nat)
  | [], _, table => table
  | item :: rest, start, table =>
    symbols rest (start + size item)
      (match name item with
      | none => table
      | some found => (found, start) :: table)

/-- A name is found at an item that bears it, or was in the table before. -/
theorem symbols_found [BEq Name] [LawfulBEq Name] (items : List Item) (start place : Nat)
    (table : List (Name × Nat)) (wanted : Name)
    (found : (symbols size name items start table).lookup wanted = some place) :
    (∃ item, (place, item) ∈ places size items start ∧ name item = some wanted) ∨
      table.lookup wanted = some place := by
  induction items generalizing start table with
  | nil => exact Or.inr found
  | cons first rest inductionHypothesis =>
    rw [symbols] at found
    rcases inductionHypothesis _ _ found with ⟨item, placed, named⟩ | earlier
    · exact Or.inl ⟨item, List.mem_cons_of_mem _ placed, named⟩
    · cases bears : name first with
      | none =>
        rw [bears] at earlier
        exact Or.inr earlier
      | some other =>
        rw [bears] at earlier
        by_cases same : wanted = other
        · subst same
          rw [List.lookup_cons_self] at earlier
          cases earlier
          exact Or.inl ⟨first, List.mem_cons_self, bears⟩
        · have distinct : (wanted == other) = false := beq_false_of_ne same
          rw [List.lookup_cons, distinct] at earlier
          exact Or.inr earlier

end Names

end RvEmu.Layout
