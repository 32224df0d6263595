import Mathlib.Data.List.Basic

/-!
# Separated words

A text that is put together from words can be taken apart again where a separator begins
with a symbol that no word contains. The first such symbol ends the first word, so the words
are determined by the text.
-/

namespace RvEmu.Separated

universe u
variable {α : Type u} (mark : α)

/-- The first mark ends the first word. -/
theorem cut_unique (one other rest more : List α) (clean : mark ∉ one) (also : mark ∉ other)
    (same : one ++ mark :: rest = other ++ mark :: more) : one = other ∧ rest = more := by
  induction one generalizing other with
  | nil =>
    cases other with
    | nil => exact ⟨rfl, (List.cons.inj same).2⟩
    | cons symbol other =>
      obtain ⟨rfl, -⟩ := List.cons.inj same
      exact absurd List.mem_cons_self also
  | cons symbol one inductionHypothesis =>
    cases other with
    | nil =>
      obtain ⟨rfl, -⟩ := List.cons.inj same
      exact absurd List.mem_cons_self clean
    | cons symbol' other =>
      obtain ⟨rfl, tail⟩ := List.cons.inj same
      obtain ⟨rfl, rest⟩ := inductionHypothesis other
        (fun member => clean (List.mem_cons_of_mem _ member))
        (fun member => also (List.mem_cons_of_mem _ member)) tail
      exact ⟨rfl, rest⟩

/-- A word that contains a mark is not one that does not. -/
theorem cut_marked (one other rest : List α) (also : mark ∉ other)
    (same : one ++ mark :: rest = other) : False := by
  apply also
  rw [← same]
  exact List.mem_append_right one List.mem_cons_self

/-- Words are determined by the text in which they are separated. -/
theorem intercalate_unique (sep : List α) (words others : List (List α)) (some : words ≠ [])
    (also : others ≠ []) (clean : ∀ word ∈ words, mark ∉ word)
    (cleanOthers : ∀ word ∈ others, mark ∉ word)
    (same : (mark :: sep).intercalate words = (mark :: sep).intercalate others) :
    words = others := by
  induction words generalizing others with
  | nil => exact absurd rfl some
  | cons word words inductionHypothesis =>
    cases others with
    | nil => exact absurd rfl also
    | cons other others =>
      have first := clean word List.mem_cons_self
      have second := cleanOthers other List.mem_cons_self
      cases words with
      | nil =>
        cases others with
        | nil =>
          rw [List.intercalate_singleton, List.intercalate_singleton] at same
          rw [same]
        | cons next others =>
          rw [List.intercalate_singleton, List.intercalate_cons_cons] at same
          simp only [List.append_assoc, List.cons_append] at same
          exact (cut_marked mark other word _ first same.symm).elim
      | cons next words =>
        cases others with
        | nil =>
          rw [List.intercalate_singleton, List.intercalate_cons_cons] at same
          simp only [List.append_assoc, List.cons_append] at same
          exact (cut_marked mark word other _ second same).elim
        | cons next' others =>
          rw [List.intercalate_cons_cons, List.intercalate_cons_cons] at same
          simp only [List.append_assoc, List.cons_append] at same
          obtain ⟨rfl, rest⟩ := cut_unique mark word other _ _ first second same
          have tail := inductionHypothesis (next' :: others) (List.cons_ne_nil _ _)
            (List.cons_ne_nil _ _) (fun word member => clean word (List.mem_cons_of_mem _ member))
            (fun word member => cleanOthers word (List.mem_cons_of_mem _ member))
            (List.append_cancel_left rest)
          rw [tail]

end RvEmu.Separated
