import Mathlib.Logic.Nontrivial.Basic

/-!
# Regions laid over a store

A copy or a fill lays a region over a store: the cells it covers take the region's
values, the others keep theirs. Regions have natural numbers for places, so one may
reach past the last index of the store. A sequence of them settles the cells that
any of them covers, whatever the store held before, and frames the rest.
-/

namespace RvEmu.Regions

universe u
variable {w : Nat} {β : Type u}

/-- Consecutive places and the values that go there, counted from the first. -/
structure Region (β : Type u) where
  start : Nat
  count : Nat
  cell : Nat → β

/-- The place lies in the region. -/
def Region.Covers (region : Region β) (place : Nat) : Prop :=
  region.start ≤ place ∧ place < region.start + region.count

instance (region : Region β) (place : Nat) : Decidable (region.Covers place) :=
  inferInstanceAs (Decidable (_ ∧ _))

/-- The store with a region laid over it. -/
def lay (region : Region β) (data : BitVec w → β) : BitVec w → β := fun index =>
  if region.Covers index.toNat then region.cell (index.toNat - region.start) else data index

/-- The store with regions laid over it in order. -/
def layAll : List (Region β) → (BitVec w → β) → BitVec w → β
  | [], data => data
  | region :: rest, data => layAll rest (lay region data)

theorem lay_inside (region : Region β) (data : BitVec w → β) (index : BitVec w)
    (covered : region.Covers index.toNat) :
    lay region data index = region.cell (index.toNat - region.start) := if_pos covered

theorem lay_outside (region : Region β) (data : BitVec w → β) (index : BitVec w)
    (outside : ¬ region.Covers index.toNat) : lay region data index = data index :=
  if_neg outside

/-- Only the cells of a region matter. -/
theorem lay_congr (left right : Region β) (data : BitVec w → β) (start : left.start = right.start)
    (count : left.count = right.count) (cells : ∀ k, k < left.count → left.cell k = right.cell k) :
    lay left data = lay right data := by
  funext index
  by_cases inside : left.Covers index.toNat
  · have also : right.Covers index.toNat := by
      rw [Region.Covers, ← start, ← count]
      exact inside
    obtain ⟨above, below⟩ := inside
    rw [lay_inside left data index ⟨above, below⟩, lay_inside right data index also, ← start]
    exact cells _ (by omega)
  · have outside : ¬ right.Covers index.toNat := by
      rw [Region.Covers, ← start, ← count]
      exact inside
    rw [lay_outside left data index inside, lay_outside right data index outside]

theorem layAll_append (first second : List (Region β)) (data : BitVec w → β) :
    layAll (first ++ second) data = layAll second (layAll first data) := by
  induction first generalizing data with
  | nil => rfl
  | cons region rest inductionHypothesis => exact inductionHypothesis (lay region data)

/-- Items may be replaced by others whose regions do the same. -/
theorem layAll_flatMap_congr {α : Type u} (items : List α) (left right : α → List (Region β))
    (same : ∀ item, item ∈ items → ∀ data : BitVec w → β,
      layAll (left item) data = layAll (right item) data) (data : BitVec w → β) :
    layAll (items.flatMap left) data = layAll (items.flatMap right) data := by
  induction items generalizing data with
  | nil => rfl
  | cons item rest inductionHypothesis =>
    rw [List.flatMap_cons, List.flatMap_cons, layAll_append, layAll_append,
      same item List.mem_cons_self]
    exact inductionHypothesis (fun other member => same other (List.mem_cons_of_mem item member)) _

/-- A cell that no region covers keeps its value. -/
theorem layAll_outside (regions : List (Region β)) (data : BitVec w → β) (index : BitVec w)
    (outside : ∀ region, region ∈ regions → ¬ region.Covers index.toNat) :
    layAll regions data index = data index := by
  induction regions generalizing data with
  | nil => rfl
  | cons region rest inductionHypothesis =>
    rw [layAll, inductionHypothesis _ fun other member =>
      outside other (List.mem_cons_of_mem region member)]
    exact lay_outside region data index (outside region List.mem_cons_self)

/-- A place that the later regions miss is covered by the first. -/
theorem covers_head (region : Region β) (rest : List (Region β)) (place : Nat)
    (covered : ∃ other, other ∈ region :: rest ∧ other.Covers place)
    (missed : ¬ ∃ other, other ∈ rest ∧ other.Covers place) : region.Covers place := by
  obtain ⟨other, member, inside⟩ := covered
  rcases List.mem_cons.mp member with same | below
  · exact same ▸ inside
  · exact absurd ⟨other, below, inside⟩ missed

/-- A cell takes the value that all regions covering it give. -/
theorem layAll_inside (regions : List (Region β)) (data : BitVec w → β) (index : BitVec w)
    (value : β) (covered : ∃ region, region ∈ regions ∧ region.Covers index.toNat)
    (agree : ∀ region, region ∈ regions → region.Covers index.toNat →
      region.cell (index.toNat - region.start) = value) :
    layAll regions data index = value := by
  induction regions generalizing data with
  | nil =>
    obtain ⟨region, member, -⟩ := covered
    cases member
  | cons region rest inductionHypothesis =>
    by_cases later : ∃ other, other ∈ rest ∧ other.Covers index.toNat
    · exact inductionHypothesis _ later fun other member =>
        agree other (List.mem_cons_of_mem region member)
    · have here := covers_head region rest index.toNat covered later
      rw [layAll, layAll_outside rest _ index fun other member inside =>
        later ⟨other, member, inside⟩, lay_inside region data index here]
      exact agree region List.mem_cons_self here

/-- A covered cell does not depend on what the store held. -/
theorem layAll_covered (regions : List (Region β)) (left right : BitVec w → β)
    (index : BitVec w) (covered : ∃ region, region ∈ regions ∧ region.Covers index.toNat) :
    layAll regions left index = layAll regions right index := by
  induction regions generalizing left right with
  | nil =>
    obtain ⟨region, member, -⟩ := covered
    cases member
  | cons region rest inductionHypothesis =>
    by_cases later : ∃ other, other ∈ rest ∧ other.Covers index.toNat
    · exact inductionHypothesis _ _ later
    · have here := covers_head region rest index.toNat covered later
      have missed : ∀ other, other ∈ rest → ¬ other.Covers index.toNat :=
        fun other member inside => later ⟨other, member, inside⟩
      rw [layAll, layAll, layAll_outside rest _ index missed, layAll_outside rest _ index missed,
        lay_inside region left index here, lay_inside region right index here]

/-- Regions leave every store as it was exactly when they cover no cell of it. -/
theorem layAll_same_iff [Nontrivial β] (regions : List (Region β)) :
    (∀ data : BitVec w → β, layAll regions data = data) ↔
      ∀ region, region ∈ regions → ∀ index : BitVec w, ¬ region.Covers index.toNat := by
  constructor
  · intro same region member index inside
    have covered : ∃ other, other ∈ regions ∧ other.Covers index.toNat := ⟨region, member, inside⟩
    obtain ⟨one, other, distinct⟩ := exists_pair_ne β
    have settled := layAll_covered regions (fun _ => one) (fun _ => other) index covered
    rw [same, same] at settled
    exact distinct settled
  · intro outside data
    funext index
    exact layAll_outside regions data index fun region member => outside region member index

end RvEmu.Regions
