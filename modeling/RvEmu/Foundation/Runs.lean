import Mathlib.Logic.Basic

/-!
# Runs of a deterministic machine with events

A step yields an event and the next state. Runs are indexed by the number of
steps taken, so a property of a run is a property of its states and events at
each index. The rules here carry an invariant along the steps that meet a
condition, locate the first step that breaks an exact condition, and carry a
statement about the past (`Since`) from one index to the next. A loop that runs
the machine while a condition holds, and at most a given number of steps, is a
run of `stepsWhile` steps; the last rules split such a loop in two.
-/

namespace RvEmu.Runs

universe u v
variable {S : Type u} {E : Type v} (step : S → E × S)

/-- The state after `n` steps. -/
def stateAt (start : S) : Nat → S
  | 0 => start
  | n + 1 => (step (stateAt start n)).2

/-- The event of the step taken from the state at index `n`. -/
def eventAt (start : S) (n : Nat) : E := (step (stateAt step start n)).1

@[simp] theorem stateAt_zero (start : S) : stateAt step start 0 = start := rfl

theorem stateAt_succ (start : S) (n : Nat) :
    stateAt step start (n + 1) = (step (stateAt step start n)).2 := rfl

/-- A run continues from its first step. -/
theorem stateAt_step (start : S) (n : Nat) :
    stateAt step (step start).2 n = stateAt step start (n + 1) := by
  induction n with
  | zero => rfl
  | succ n inductionHypothesis =>
    rw [stateAt_succ, inductionHypothesis]
    rfl

/-- A run continues from any of its states. -/
theorem stateAt_add (start : S) (n m : Nat) :
    stateAt step start (n + m) = stateAt step (stateAt step start n) m := by
  induction m with
  | zero => rfl
  | succ m inductionHypothesis =>
    rw [← Nat.add_assoc, stateAt_succ, inductionHypothesis, stateAt_succ step (stateAt step start n)]

/-- An invariant that every step keeps holds throughout the run. -/
theorem invariant (Inv : S → Prop) (kept : ∀ s, Inv s → Inv (step s).2) (start : S)
    (initial : Inv start) (n : Nat) : Inv (stateAt step start n) := by
  induction n with
  | zero => exact initial
  | succ n inductionHypothesis => exact kept _ inductionHypothesis

/-- When a step from an invariant state keeps the invariant exactly under a
condition on the state before it, a run keeps the invariant exactly when each
of its steps meets the condition. -/
theorem invariant_iff (Inv Good : S → Prop) (exact : ∀ s, Inv s → (Inv (step s).2 ↔ Good s))
    (start : S) (initial : Inv start) (n : Nat) :
    (∀ k, k ≤ n → Inv (stateAt step start k)) ↔
      ∀ k, k < n → Good (stateAt step start k) := by
  constructor
  · intro holds k below
    exact (exact _ (holds k (by omega))).mp (holds (k + 1) (by omega))
  · intro good k
    induction k with
    | zero => exact fun _ => initial
    | succ k inductionHypothesis =>
      intro bound
      exact (exact _ (inductionHypothesis (by omega))).mpr (good k (by omega))

/-- A property that each step of a stretch keeps holds at the end of it. -/
theorem carried (Inv : S → Prop) (start : S) (first last : Nat) (ordered : first ≤ last)
    (entry : Inv (stateAt step start first))
    (kept : ∀ k, first ≤ k → k < last → Inv (stateAt step start k) →
      Inv (stateAt step start (k + 1))) : Inv (stateAt step start last) := by
  induction last with
  | zero =>
    have same : first = 0 := Nat.le_zero.mp ordered
    exact same ▸ entry
  | succ last inductionHypothesis =>
    by_cases reached : first = last + 1
    · exact reached ▸ entry
    · have before : first ≤ last := by omega
      have earlier := inductionHypothesis before (fun k above below => kept k above (by omega))
      exact kept last before (Nat.lt_succ_self last) earlier

/-- Two runs whose steps a relation matches while a condition holds of the first go through
the same events, in related states. -/
theorem matched (R : S → S → Prop) (Active : S → Prop)
    (kept : ∀ s t, Active s → R s t → (step t).1 = (step s).1 ∧ R (step s).2 (step t).2)
    (left right : S) (related : R left right) (n : Nat)
    (active : ∀ k, k < n → Active (stateAt step left k)) :
    (∀ k, k < n → eventAt step right k = eventAt step left k) ∧
      R (stateAt step left n) (stateAt step right n) := by
  induction n with
  | zero => exact ⟨fun k below => absurd below (Nat.not_lt_zero k), related⟩
  | succ n inductionHypothesis =>
    obtain ⟨events, states⟩ := inductionHypothesis (fun k below => active k (by omega))
    obtain ⟨event, next⟩ := kept _ _ (active n (Nat.lt_succ_self n)) states
    refine ⟨?_, next⟩
    intro k below
    by_cases last : k = n
    · exact last ▸ event
    · exact events k (by omega)

/-- Some earlier step was a start, and every step after it was quiet. -/
def Since (origin quiet : E → Prop) (start : S) (n : Nat) : Prop :=
  ∃ k, k < n ∧ origin (eventAt step start k) ∧
    ∀ j, k < j → j < n → quiet (eventAt step start j)

/-- A start establishes the past statement at the next index. -/
theorem since_start (origin quiet : E → Prop) (start : S) (n : Nat)
    (begun : origin (eventAt step start n)) : Since step origin quiet start (n + 1) := by
  refine ⟨n, by omega, begun, ?_⟩
  intro j above below
  omega

/-- A quiet step carries the past statement to the next index. -/
theorem since_quiet (origin quiet : E → Prop) (start : S) (n : Nat)
    (past : Since step origin quiet start n) (calm : quiet (eventAt step start n)) :
    Since step origin quiet start (n + 1) := by
  obtain ⟨k, before, begun, between⟩ := past
  refine ⟨k, by omega, begun, ?_⟩
  intro j above below
  by_cases last : j = n
  · exact last ▸ calm
  · exact between j above (by omega)

/-! ## Loops -/

/-- The number of the first `n` events that satisfy a predicate. -/
def countEvents (counts : E → Bool) (start : S) : Nat → Nat
  | 0 => 0
  | n + 1 => countEvents counts start n + (counts (eventAt step start n)).toNat

theorem countEvents_le (counts : E → Bool) (start : S) (n : Nat) :
    countEvents step counts start n ≤ n := by
  induction n with
  | zero => exact Nat.le_refl 0
  | succ n inductionHypothesis =>
    rw [countEvents]
    exact Nat.add_le_add inductionHypothesis (Bool.toNat_le _)

/-- Events are counted along a run and its continuation. -/
theorem countEvents_add (counts : E → Bool) (start : S) (n m : Nat) :
    countEvents step counts start (n + m) =
      countEvents step counts start n + countEvents step counts (stateAt step start n) m := by
  induction m with
  | zero => rfl
  | succ m inductionHypothesis =>
    have sameEvent : eventAt step start (n + m) = eventAt step (stateAt step start n) m := by
      rw [eventAt, eventAt, stateAt_add]
    rw [← Nat.add_assoc, countEvents, inductionHypothesis, sameEvent, countEvents, Nat.add_assoc]

/-- The first event, and those after it. -/
theorem countEvents_succ (counts : E → Bool) (start : S) (n : Nat) :
    countEvents step counts start (n + 1) =
      (counts (step start).1).toNat + countEvents step counts (step start).2 n := by
  rw [Nat.add_comm n 1, countEvents_add]
  simp only [countEvents, eventAt, stateAt, Nat.zero_add]

/-- The steps a loop takes that goes on while a condition on the state holds, up
    to a limit. -/
def stepsWhile (going : S → Bool) : Nat → S → Nat
  | 0, _ => 0
  | limit + 1, start =>
    if going start then stepsWhile going limit (step start).2 + 1 else 0

theorem stepsWhile_le (going : S → Bool) (limit : Nat) (start : S) :
    stepsWhile step going limit start ≤ limit := by
  induction limit generalizing start with
  | zero => exact Nat.le_refl 0
  | succ limit inductionHypothesis =>
    rw [stepsWhile]
    split
    · exact Nat.succ_le_succ (inductionHypothesis (step start).2)
    · exact Nat.zero_le _

/-- A loop whose first state breaks the condition takes no step. -/
theorem stepsWhile_stays (going : S → Bool) (limit : Nat) (start : S)
    (stays : going start = false) : stepsWhile step going limit start = 0 := by
  cases limit with
  | zero => rfl
  | succ limit => rw [stepsWhile, if_neg (Bool.eq_false_iff.mp stays)]

/-- Every step of the loop starts in a state that meets the condition. -/
theorem stepsWhile_going (going : S → Bool) (limit : Nat) (start : S) (k : Nat)
    (before : k < stepsWhile step going limit start) :
    going (stateAt step start k) = true := by
  induction limit generalizing start k with
  | zero => exact absurd before (Nat.not_lt_zero k)
  | succ limit inductionHypothesis =>
    rw [stepsWhile] at before
    split at before
    · rename_i goes
      cases k with
      | zero => exact goes
      | succ k =>
        rw [← stateAt_step]
        exact inductionHypothesis (step start).2 k (by omega)
    · exact absurd before (Nat.not_lt_zero k)

/-- A loop that ends before its limit ends in a state that breaks the condition. -/
theorem stepsWhile_ended (going : S → Bool) (limit : Nat) (start : S)
    (early : stepsWhile step going limit start < limit) :
    going (stateAt step start (stepsWhile step going limit start)) = false := by
  induction limit generalizing start with
  | zero => exact absurd early (Nat.not_lt_zero _)
  | succ limit inductionHypothesis =>
    rw [stepsWhile] at early ⊢
    split
    · rename_i goes
      rw [if_pos goes] at early
      rw [← stateAt_step]
      exact inductionHypothesis (step start).2 (by omega)
    · rename_i stays
      exact Bool.eq_false_iff.mpr stays

/-- A loop ends before its limit exactly when a state before the limit breaks the
    condition. -/
theorem stepsWhile_lt_iff (going : S → Bool) (limit : Nat) (start : S) :
    stepsWhile step going limit start < limit ↔
      ∃ k, k < limit ∧ going (stateAt step start k) = false := by
  constructor
  · intro early
    exact ⟨_, early, stepsWhile_ended step going limit start early⟩
  · rintro ⟨k, inside, broken⟩
    refine Nat.lt_of_not_le fun full => ?_
    have goes := stepsWhile_going step going limit start k (by omega)
    rw [broken] at goes
    cases goes

/-- A loop with a larger limit is the loop with the smaller limit and then the
    loop with the rest. -/
theorem stepsWhile_add (going : S → Bool) (n m : Nat) (start : S) :
    stepsWhile step going (n + m) start =
      stepsWhile step going n start +
        stepsWhile step going m (stateAt step start (stepsWhile step going n start)) := by
  induction n generalizing start with
  | zero => simp only [Nat.zero_add, stepsWhile, stateAt_zero]
  | succ n inductionHypothesis =>
    have longer : n + 1 + m = n + m + 1 := by omega
    rw [longer, stepsWhile, stepsWhile]
    by_cases goes : going start = true
    · rw [if_pos goes, if_pos goes, inductionHypothesis, ← stateAt_step]
      omega
    · have stays := Bool.eq_false_iff.mpr goes
      rw [if_neg goes, if_neg goes, stateAt_zero, Nat.zero_add,
        stepsWhile_stays step going m start stays]

end RvEmu.Runs
