import Mathlib.Order.Bounds.Basic
import RvEmu.Debug
import RvEmu.Foundation.InsertionOrder
import RvEmu.RunSplitting

/-!
# Breakpoints and continuing

The table of breakpoints is an array with a count. It represents a bounded set in
order of insertion, and its three commands are the edits of that set, so in every
session it holds the surviving insertions.

`cmd_continue` makes one step before its first test and then runs while the machine is
running at an address that is not in the table. A failed step leaves the running
state, so the three tests after a step are one condition on the state, and the loop is
a step and a bounded run of the machine.
-/

namespace RvEmu.Breakpoints

open InsertionOrder RunSplitting

/-! ## The loops of the table -/

/-- The breakpoints that are set, oldest first. -/
def addresses (table : BreakpointTable) : List Word := contents table.slots table.count

/-- The index that the search finds holds the address. -/
theorem bpFindFrom_some (table : BreakpointTable) (addr : Word) (left i idx : Nat)
    (found : bpFindFrom table addr left i = some idx) :
    idx < i + left ∧ table.slots idx = addr := by
  induction left generalizing i with
  | zero => cases found
  | succ left inductionHypothesis =>
    rw [bpFindFrom] at found
    split at found
    · rename_i here
      cases found
      exact ⟨by omega, here⟩
    · obtain ⟨inside, there⟩ := inductionHypothesis (i + 1) found
      exact ⟨by omega, there⟩

theorem bpFindFrom_none (table : BreakpointTable) (addr : Word) (left i : Nat)
    (missing : bpFindFrom table addr left i = none) (j : Nat) (above : i ≤ j)
    (below : j < i + left) : table.slots j ≠ addr := by
  induction left generalizing i with
  | zero => omega
  | succ left inductionHypothesis =>
    rw [bpFindFrom] at missing
    split at missing
    · cases missing
    · rename_i other
      by_cases here : j = i
      · rw [here]
        exact other
      · exact inductionHypothesis (i + 1) missing (by omega) (by omega)

/-- `bp_find` decides whether the address is set. -/
theorem bpFind_isSome (table : BreakpointTable) (addr : Word) :
    (bpFind table addr).isSome ↔ addr ∈ addresses table := by
  rw [addresses, mem_contents]
  cases found : bpFind table addr with
  | none =>
    refine iff_of_false Bool.false_ne_true ?_
    rintro ⟨j, below, there⟩
    exact bpFindFrom_none table addr table.count 0 found j (Nat.zero_le j) (by omega) there
  | some idx =>
    obtain ⟨inside, there⟩ := bpFindFrom_some table addr table.count 0 idx found
    exact iff_of_true rfl ⟨idx, by omega, there⟩

/-- The loop of `bp_del` moves each slot it passes down by one. -/
theorem bpShiftFrom_slot (slots : Nat → Word) (left i j : Nat) :
    bpShiftFrom slots left i j = if i ≤ j ∧ j < i + left then slots (j + 1) else slots j := by
  induction left generalizing slots i with
  | zero =>
    rw [bpShiftFrom, if_neg (by omega)]
  | succ left inductionHypothesis =>
    rw [bpShiftFrom, inductionHypothesis]
    have next : Function.update slots i (slots (i + 1)) (j + 1) =
        if j + 1 = i then slots (i + 1) else slots (j + 1) := by
      rw [Function.update_apply]
    rw [next, Function.update_apply]
    by_cases here : j = i
    · rw [if_neg (by omega), if_pos here, if_pos (by omega), here]
    · by_cases passed : i ≤ j ∧ j < i + (left + 1)
      · rw [if_pos (by omega), if_neg (by omega), if_pos passed]
      · rw [if_neg (by omega), if_neg here, if_neg passed]

/-! ## The table represents the set -/

/-- The breakpoints that are set are the elements of a bounded set, in its order. -/
def Represents (table : BreakpointTable) (set : OrderedSet Word maxBreakpoints) : Prop :=
  addresses table = set.elems

section Operations

variable (table : BreakpointTable) (set : OrderedSet Word maxBreakpoints) (addr : Word)

theorem represented_count (represents : Represents table set) :
    set.elems.length = table.count := by
  rw [← represents, addresses, contents_length]

theorem bpInit_represents (beyond : Nat → Word) : Represents (bpInit beyond) .empty := rfl

theorem bpAdd_represents (represents : Represents table set) :
    Represents (bpAdd table addr) (set.insert addr) := by
  have long := represented_count table set represents
  have member := bpFind_isSome table addr
  have same : contents table.slots table.count = set.elems := represents
  rw [addresses, same] at member
  rw [bpAdd, OrderedSet.insert]
  by_cases held : addr ∈ set.elems
  · have refused : ¬ set.Admits addr := fun admitted => admitted.1 held
    rw [if_pos (member.mpr held), dif_neg refused]
    exact represents
  · rw [if_neg (mt member.mp held)]
    by_cases full : table.count ≥ maxBreakpoints
    · have refused : ¬ set.Admits addr := by
        intro admitted
        have room := admitted.2
        omega
      rw [if_pos full, dif_neg refused]
      exact represents
    · have admitted : set.Admits addr := ⟨held, by omega⟩
      rw [if_neg full, dif_pos admitted]
      have pushed := contents_push table.slots table.count addr
      rw [same] at pushed
      exact pushed

theorem bpDel_represents (represents : Represents table set) :
    Represents (bpDel table addr) (set.remove addr) := by
  rw [bpDel]
  cases found : bpFind table addr with
  | none =>
    have absent : addr ∉ set.elems := by
      rw [← represents, ← bpFind_isSome, found]
      exact Bool.false_ne_true
    have same : (set.remove addr).elems = set.elems := by
      apply List.filter_eq_self.mpr
      intro other member
      exact bne_iff_ne.mpr (fun equal => absent (equal ▸ member))
    exact represents.trans same.symm
  | some idx =>
    obtain ⟨inside, there⟩ := bpFindFrom_some table addr table.count 0 idx found
    apply contents_remove table.slots table.count set
      (bpShiftFrom table.slots (table.count - (idx + 1)) idx) idx addr represents (by omega) there
    · intro i below
      rw [bpShiftFrom_slot, if_neg (by omega)]
    · intro i above below
      rw [bpShiftFrom_slot, if_pos (by omega)]

end Operations

/-! ## Sessions -/

/-- The edit that a command makes. -/
def editOf : Command → Option (Edit Word)
  | .b (some addr) => some (.insert addr)
  | .bd (some addr) => some (.remove addr)
  | .bc => some .clear
  | _ => none

/-- The edits of a sequence of commands. -/
def edits (commands : List Command) : List (Edit Word) := commands.filterMap editOf

theorem edits_snoc (commands : List Command) (command : Command) :
    edits (commands ++ [command]) = edits commands ++ (editOf command).toList := by
  rw [edits, List.filterMap_append]
  cases edit : editOf command with
  | none =>
    rw [List.filterMap_cons_none edit]
    rfl
  | some made =>
    rw [List.filterMap_cons_some edit]
    rfl

/-- Each command performs its edit, and no other command touches the table. -/
theorem performs_represents (host : HostFloat) (now next : Debugger) (command : Command)
    (performs : Performs host now command next) (set : OrderedSet Word maxBreakpoints)
    (represents : Represents now.table set) :
    Represents next.table ((editOf command).elim set set.edit) := by
  cases performs with
  | b addr => exact bpAdd_represents now.table set addr represents
  | bd addr => exact bpDel_represents now.table set addr represents
  | bc => rfl
  | s | c | r | x | d | bUsage | bl | bdUsage | h | unknown => exact represents

/-- In every session the table represents the set that its edits leave. -/
theorem session_represents (host : HostFloat) (start finish : Debugger)
    (commands : List Command) (fresh : Represents start.table .empty)
    (session : Session host start commands finish) :
    Represents finish.table (after maxBreakpoints (edits commands)) := by
  induction session with
  | start => exact fresh
  | next commands now next command earlier performs inductionHypothesis =>
    have edited := performs_represents host now next command performs _ inductionHypothesis
    rw [edits_snoc]
    cases edit : editOf command with
    | none =>
      rw [edit] at edited
      rw [Option.toList_none, List.append_nil]
      exact edited
    | some made =>
      rw [edit] at edited
      rw [Option.toList_some, after_snoc]
      exact edited

/-! ## Continuing -/

/-- The tests that `cmd_continue` makes after a step: the machine is running, at an
    address that is not in the table. -/
def goesOn (table : BreakpointTable) (emu : Emulator) : Bool :=
  emu.state = .running && !(bpFind table emu.rf.pc).isSome

/-- What is printed about the state where it stops. -/
def exitAt (table : BreakpointTable) (emu : Emulator) : ContinueExit :=
  if emu.state ≠ .running then .status
  else if (bpFind table emu.rf.pc).isSome then .breakpoint
  else .limit

theorem goesOn_iff (table : BreakpointTable) (emu : Emulator) :
    goesOn table emu = true ↔ emu.state = .running ∧ emu.rf.pc ∉ addresses table := by
  rw [← bpFind_isSome, goesOn, Bool.and_eq_true, decide_eq_true_eq, Bool.not_eq_true',
    Bool.not_eq_true]

/-- A step that passes the tests has not failed. -/
theorem going_succeeded (host : HostFloat) (table : BreakpointTable) (emu : Emulator)
    (goes : goesOn table (emuStep host emu).2 = true) :
    RunSplitting.succeeds (emuStep host emu).1 = true := by
  refine decide_eq_true fun failed => ?_
  have stays := failed_stays host emu failed
  rw [isRunning, decide_eq_false_iff_not] at stays
  exact stays ((goesOn_iff table _).mp goes).1

/-- What the tests after a step make of it, whatever follows. -/
theorem tests_eq (table : BreakpointTable) (steps : Word) (calls : Nat) (emu : Emulator)
    (rest : Option ContinueResult) :
    (if emu.state ≠ .running then some { steps, calls, emu, exit := .status }
      else if (bpFind table emu.rf.pc).isSome then some { steps, calls, emu, exit := .breakpoint }
      else rest) =
      if goesOn table emu then rest else some { steps, calls, emu, exit := exitAt table emu } := by
  by_cases running : emu.state = .running
  · by_cases hit : (bpFind table emu.rf.pc).isSome = true
    · simp [goesOn, exitAt, running, hit]
    · simp [goesOn, running, hit]
  · simp [goesOn, exitAt, running]

section Loop

variable (host : HostFloat) (table : BreakpointTable)

/-- The result of a number of calls from a point of the loop. -/
def afterSteps (steps : Word) (calls : Nat) (emu : Emulator) (n : Nat) : ContinueResult where
  steps := steps + BitVec.ofNat 32 (Runs.countEvents (emuStep host) RunSplitting.succeeds emu n)
  calls := calls + n
  emu := stateAfter host emu n
  exit := exitAt table (stateAfter host emu n)

theorem afterSteps_zero (steps : Word) (calls : Nat) (emu : Emulator) :
    afterSteps host table steps calls emu 0 =
      { steps, calls, emu, exit := exitAt table emu } := by
  simp [afterSteps, Runs.countEvents]

theorem afterSteps_succ (steps : Word) (calls : Nat) (emu : Emulator) (n : Nat) :
    afterSteps host table steps calls emu (n + 1) =
      afterSteps host table
        (steps + BitVec.ofNat 32 (RunSplitting.succeeds (emuStep host emu).1).toNat) (calls + 1)
        (emuStep host emu).2 n := by
  simp only [afterSteps, ContinueResult.mk.injEq, Runs.countEvents_succ, BitVec.ofNat_add,
    stateAfter, Runs.stateAt_step, and_true]
  constructor
  · rw [BitVec.add_assoc]
  · omega

/-- One iteration under the limit is a step, and goes on or stops. -/
theorem continue_body (fuel : Nat) (steps : Word) (calls : Nat) (emu : Emulator)
    (running : emu.state = .running) (below : steps < continueLimit) :
    cmdContinueWhile host table (fuel + 1) steps calls emu =
      if goesOn table (emuStep host emu).2 then
        cmdContinueWhile host table fuel (steps + 1) (calls + 1) (emuStep host emu).2
      else some (afterSteps host table steps calls emu 1) := by
  have passed : ¬ steps ≥ continueLimit := BitVec.not_le.mpr below
  have stays := failed_stays host emu
  rw [cmdContinueWhile, if_neg (not_not.mpr running), if_neg passed, afterSteps_succ,
    afterSteps_zero]
  generalize emuStep host emu = result at stays ⊢
  obtain ⟨event, next⟩ := result
  dsimp only at stays ⊢
  by_cases failed : event = .failed
  · -- A failed step is not counted, and its state is not running.
    subst failed
    have halted : ¬ next.state = .running := of_decide_eq_false (stays rfl)
    have counts : RunSplitting.succeeds .failed = false := rfl
    simp [goesOn, exitAt, counts, halted]
  · have counts : RunSplitting.succeeds event = true := decide_eq_true failed
    rw [counts]
    have tests := tests_eq table (steps + 1) (calls + 1) next
      (cmdContinueWhile host table fuel (steps + 1) (calls + 1) next)
    cases event with
    | failed => exact absurd rfl failed
    | interrupted => exact tests
    | trapped cause tval => exact tests
    | retired effect => exact tests

/-- From a state that passes the tests, the loop runs while they pass. The induction is on
    the fuel, which outlasts the steps left. -/
theorem continue_runs (fuel : Nat) (steps : Word) (calls : Nat) (emu : Emulator)
    (goes : goesOn table emu = true) (below : steps ≤ continueLimit)
    (enough : continueLimit.toNat - steps.toNat < fuel) :
    cmdContinueWhile host table fuel steps calls emu =
      some (afterSteps host table steps calls emu
        (Runs.stepsWhile (emuStep host) (goesOn table)
          (continueLimit.toNat - steps.toNat) emu)) := by
  induction fuel generalizing steps calls emu with
  | zero => exact absurd enough (Nat.not_lt_zero _)
  | succ fuel inductionHypothesis =>
    obtain ⟨running, clear⟩ := (goesOn_iff table emu).mp goes
    by_cases reached : steps ≥ continueLimit
    · have spent : continueLimit.toNat - steps.toNat = 0 := by bv_omega
      have exit : exitAt table emu = .limit := by
        rw [exitAt, if_neg (not_not.mpr running), if_neg (mt (bpFind_isSome table _).mp clear)]
      rw [cmdContinueWhile, if_neg (not_not.mpr running), if_pos reached, spent, Runs.stepsWhile,
        afterSteps_zero, exit]
    · obtain ⟨left, counted⟩ : ∃ left, continueLimit.toNat - steps.toNat = left + 1 :=
        ⟨continueLimit.toNat - steps.toNat - 1, by bv_omega⟩
      rw [continue_body host table fuel steps calls emu running (BitVec.not_le.mp reached),
        counted, Runs.stepsWhile, if_pos goes]
      by_cases further : goesOn table (emuStep host emu).2 = true
      · have succeeded := going_succeeded host table emu further
        have advanced : (steps + 1).toNat = steps.toNat + 1 := by bv_omega
        have rest : continueLimit.toNat - (steps + 1).toNat = left := by omega
        rw [if_pos further, afterSteps_succ, succeeded]
        have onward := inductionHypothesis (steps + 1) (calls + 1) (emuStep host emu).2 further
          (by bv_omega) (by omega)
        rw [rest] at onward
        exact onward
      · have stays := Bool.eq_false_iff.mpr further
        rw [if_neg further, Runs.stepsWhile_stays _ _ _ _ stays]

end Loop

/-! ## The law of continuing -/

/-- The conditions under which `cmd_continue` is to stop after `k` steps. -/
def StopsAfter (host : HostFloat) (table : BreakpointTable) (emu : Emulator) (k : Nat) : Prop :=
  stepEvent host emu (k - 1) = .failed ∨ (stateAfter host emu k).state ≠ .running ∨
    (stateAfter host emu k).rf.pc ∈ addresses table ∨ k = 10000000

/-- What is promised of one call of `cmd_continue`: it returns, after the least positive
    number of steps after which it is to stop, in the state that so many steps reach. No
    breakpoint was passed before, the first address apart, and what it prints is right. -/
structure Continues (host : HostFloat) (table : BreakpointTable) (emu : Emulator)
    (result : ContinueResult) : Prop where
  returns : ∀ other, ContinueReturns host table emu other ↔ other = result
  least : IsLeast {k | 1 ≤ k ∧ StopsAfter host table emu k} result.calls
  reaches : result.emu = stateAfter host emu result.calls
  unmissed : ∀ k, 1 ≤ k → k < result.calls → (stateAfter host emu k).rf.pc ∉ addresses table
  exit : result.exit = exitAt table result.emu

/-- The number of steps that `cmd_continue` makes from a running state. -/
def continueCalls (host : HostFloat) (table : BreakpointTable) (emu : Emulator) : Nat :=
  Runs.stepsWhile (emuStep host) (goesOn table) 9999999 (emuStep host emu).2 + 1

section Continue

variable (host : HostFloat) (table : BreakpointTable) (emu : Emulator)

/-- It passes the tests before its last step, and there it is to stop. -/
theorem continueCalls_goes (k : Nat) (positive : 1 ≤ k)
    (before : k < continueCalls host table emu) :
    goesOn table (stateAfter host emu k) = true := by
  obtain ⟨j, rfl⟩ : ∃ j, k = j + 1 := ⟨k - 1, by omega⟩
  rw [stateAfter, ← Runs.stateAt_step]
  apply Runs.stepsWhile_going (emuStep host) (goesOn table) 9999999
  rw [continueCalls] at before
  omega

theorem continueCalls_least :
    IsLeast {k | 1 ≤ k ∧ StopsAfter host table emu k} (continueCalls host table emu) := by
  have bound := Runs.stepsWhile_le (emuStep host) (goesOn table) 9999999 (emuStep host emu).2
  constructor
  · refine ⟨Nat.succ_pos _, ?_⟩
    by_cases early : Runs.stepsWhile (emuStep host) (goesOn table) 9999999
        (emuStep host emu).2 < 9999999
    · have stops := Runs.stepsWhile_ended (emuStep host) (goesOn table) 9999999 _ early
      rw [Runs.stateAt_step] at stops
      change goesOn table (stateAfter host emu (continueCalls host table emu)) = false at stops
      have broken := mt (goesOn_iff table _).mpr (Bool.eq_false_iff.mp stops)
      by_cases running : (stateAfter host emu (continueCalls host table emu)).state = .running
      · exact Or.inr (Or.inr (Or.inl (not_not.mp fun clear => broken ⟨running, clear⟩)))
      · exact Or.inr (Or.inl running)
    · refine Or.inr (Or.inr (Or.inr ?_))
      rw [continueCalls]
      omega
  · rintro k ⟨positive, stops⟩
    refine Nat.le_of_not_lt fun before => ?_
    have goes := continueCalls_goes host table emu k positive before
    obtain ⟨running, clear⟩ := (goesOn_iff table _).mp goes
    rcases stops with failed | halted | hit | limit
    · -- The state after a failed step is not running.
      obtain ⟨j, rfl⟩ : ∃ j, k = j + 1 := ⟨k - 1, by omega⟩
      have succeeded := going_succeeded host table (stateAfter host emu j) goes
      exact of_decide_eq_true succeeded failed
    · exact halted running
    · exact clear hit
    · rw [continueCalls] at before
      omega

/-- The loop leaves after these calls. The first step is made without a test. -/
theorem continue_ends (running : emu.state = .running) (fuel : Nat) (enough : 10000000 < fuel) :
    cmdContinueWhile host table fuel 0 0 emu =
      some (afterSteps host table 0 0 emu (continueCalls host table emu)) := by
  obtain ⟨fuel, rfl⟩ : ∃ less, fuel = less + 1 := ⟨fuel - 1, by omega⟩
  have start : (0 : Word) < continueLimit := by decide
  have limit : continueLimit.toNat - (0 + 1 : Word).toNat = 9999999 := by decide
  rw [continue_body host table fuel 0 0 emu running start, continueCalls]
  by_cases further : goesOn table (emuStep host emu).2 = true
  · have succeeded := going_succeeded host table emu further
    have onward := continue_runs host table fuel (0 + 1) (0 + 1) (emuStep host emu).2 further
      (by decide) (by omega)
    rw [limit] at onward
    rw [if_pos further, afterSteps_succ, succeeded]
    exact onward
  · have stays := Bool.eq_false_iff.mpr further
    rw [if_neg further, Runs.stepsWhile_stays _ _ _ _ stays]

/-- A loop that ends alike on all larger fuels returns its result and no other. -/
theorem continueReturns_iff (bound : Nat) (result : ContinueResult)
    (ends : ∀ fuel, bound ≤ fuel → cmdContinueWhile host table fuel 0 0 emu = some result)
    (other : ContinueResult) : ContinueReturns host table emu other ↔ other = result := by
  constructor
  · rintro ⟨enough, returns⟩
    have both := returns (max enough bound) (Nat.le_max_left _ _)
    rw [ends _ (Nat.le_max_right _ _)] at both
    exact (Option.some.inj both).symm
  · rintro rfl
    exact ⟨bound, ends⟩

/-- From a running state, a call of `cmd_continue` is as promised. -/
theorem continues (running : emu.state = .running) :
    Continues host table emu (afterSteps host table 0 0 emu (continueCalls host table emu)) := by
  have calls : (afterSteps host table 0 0 emu (continueCalls host table emu)).calls =
      continueCalls host table emu := Nat.zero_add _
  constructor
  · exact continueReturns_iff host table emu 10000001 _ (continue_ends host table emu running)
  · rw [calls]
    exact continueCalls_least host table emu
  · rw [calls]
    rfl
  · intro k positive before
    rw [calls] at before
    exact ((goesOn_iff table _).mp (continueCalls_goes host table emu k positive before)).2
  · rfl

/-- From another state it makes no step. -/
theorem continue_stays (stopped : emu.state ≠ .running) (fuel : Nat) (enough : 1 ≤ fuel) :
    cmdContinueWhile host table fuel 0 0 emu =
      some { steps := 0, calls := 0, emu, exit := .status } := by
  obtain ⟨fuel, rfl⟩ : ∃ less, fuel = less + 1 := ⟨fuel - 1, by omega⟩
  rw [cmdContinueWhile, if_pos stopped]

/-- It returns from every state, in one way. -/
theorem continue_total : ∃! result, ContinueReturns host table emu result := by
  by_cases running : emu.state = .running
  · have returns := (continues host table emu running).returns
    exact ⟨_, (returns _).mpr rfl, fun other => (returns other).mp⟩
  · have returns := continueReturns_iff host table emu 1 _
      (continue_stays host table emu running)
    exact ⟨_, (returns _).mpr rfl, fun other => (returns other).mp⟩

end Continue

/-! ## Whole sessions -/

section Sessions

variable (host : HostFloat) (start : Debugger)

/-- A command is performed in one way. -/
theorem performs_deterministic (now next other : Debugger) (command : Command)
    (performs : Performs host now command next) (performed : Performs host now command other) :
    other = next := by
  cases performs with
  | c result returns =>
    cases performed with
    | c different returned =>
      rw [(continue_total host now.table now.emu).unique returned returns]
  | _ =>
    cases performed
    rfl

/-- Every command is performed. -/
theorem performs_exists (now : Debugger) (command : Command) :
    ∃ next, Performs host now command next := by
  cases command with
  | s n => exact ⟨_, .s n⟩
  | c =>
    obtain ⟨result, returns, -⟩ := continue_total host now.table now.emu
    exact ⟨_, .c result returns⟩
  | r => exact ⟨_, .r⟩
  | x range => exact ⟨_, .x range⟩
  | d addr n => exact ⟨_, .d addr n⟩
  | b addr =>
    cases addr with
    | none => exact ⟨_, .bUsage⟩
    | some addr => exact ⟨_, .b addr⟩
  | bl => exact ⟨_, .bl⟩
  | bd addr =>
    cases addr with
    | none => exact ⟨_, .bdUsage⟩
    | some addr => exact ⟨_, .bd addr⟩
  | bc => exact ⟨_, .bc⟩
  | h => exact ⟨_, .h⟩
  | unknown cmd => exact ⟨_, .unknown cmd⟩

/-- No command is the last of an empty sequence. -/
theorem snoc_nonempty (commands : List Command) (command : Command) :
    commands ++ [command] ≠ [] :=
  List.append_ne_nil_of_right_ne_nil _ (List.cons_ne_nil _ _)

/-- A session of no command, and of one more. -/
theorem session_nil (finish : Debugger) : Session host start [] finish ↔ finish = start := by
  constructor
  · intro session
    generalize none : ([] : List Command) = commands at session
    cases session with
    | start => rfl
    | next commands _ _ command => exact absurd none.symm (snoc_nonempty commands command)
  · rintro rfl
    exact .start

theorem session_snoc (commands : List Command) (command : Command) (finish : Debugger) :
    Session host start (commands ++ [command]) finish ↔
      ∃ now, Session host start commands now ∧ Performs host now command finish := by
  constructor
  · intro session
    generalize whole : commands ++ [command] = list at session
    cases session with
    | start => exact absurd whole (snoc_nonempty commands command)
    | next others now after last earlier performs =>
      obtain ⟨rfl, same⟩ := List.append_inj' whole rfl
      cases same
      exact ⟨now, earlier, performs⟩
  · rintro ⟨now, earlier, performs⟩
    exact .next commands now finish command earlier performs

/-- Every sequence of commands has one session. -/
theorem session_total (commands : List Command) :
    ∃! finish, Session host start commands finish := by
  induction commands using List.reverseRecOn with
  | nil => exact ⟨start, .start, fun finish => (session_nil host start finish).mp⟩
  | append_singleton commands command inductionHypothesis =>
    obtain ⟨now, earlier, only⟩ := inductionHypothesis
    obtain ⟨next, performs⟩ := performs_exists host now command
    refine ⟨next, .next commands now next command earlier performs, ?_⟩
    intro other session
    obtain ⟨between, reached, performed⟩ :=
      (session_snoc host start commands command other).mp session
    rw [only between reached] at performed
    exact performs_deterministic host now next other command performs performed

end Sessions

/-- What is promised of the table after a sequence of commands: it has no duplicate and at
    most 32 entries, and they are the addresses that were added while there was room and
    not deleted or cleared since, in the order in which they were added. -/
structure Tracks (commands : List Command) (table : BreakpointTable) : Prop where
  nodup : (addresses table).Nodup
  bounded : table.count ≤ 32
  exact : ∀ addr, addr ∈ addresses table ↔
    ∃ place, survivor maxBreakpoints (edits commands) place = some addr
  ordered : addresses table = survivors maxBreakpoints (edits commands)

/-- A table that represents the edited set is as promised. -/
theorem represented_tracks (commands : List Command) (table : BreakpointTable)
    (represents : Represents table (after maxBreakpoints (edits commands))) :
    Tracks commands table := by
  have same : addresses table = (after maxBreakpoints (edits commands)).elems := represents
  constructor
  · rw [same]
    exact (after maxBreakpoints (edits commands)).nodup
  · rw [← represented_count table _ represents]
    exact (after maxBreakpoints (edits commands)).bounded
  · intro addr
    rw [same]
    exact mem_after maxBreakpoints (edits commands) addr
  · rw [same]
    exact after_elems maxBreakpoints (edits commands)

/-- Every session ends, with the table that its commands determine; and from every running
    state, with any table, continuing stops after the first step that calls for it. -/
theorem breakpoints_exact (host : HostFloat) :
    (∀ beyond emu commands,
      (∃! finish, Session host { emu, table := bpInit beyond } commands finish) ∧
        ∀ finish, Session host { emu, table := bpInit beyond } commands finish →
          Tracks commands finish.table) ∧
      ∀ table emu, emu.state = .running → ∃ result, Continues host table emu result := by
  constructor
  · intro beyond emu commands
    refine ⟨session_total host _ commands, fun finish session => ?_⟩
    exact represented_tracks commands finish.table
      (session_represents host _ finish commands (bpInit_represents beyond) session)
  · exact fun table emu running => ⟨_, continues host table emu running⟩

/-- With the breakpoint at its start the program still makes both of its steps. -/
theorem haltingProgram_continues :
    (∃ finish, Session idleHost { emu := haltingProgram, table := bpInit fun _ => 0 }
        [.b (some 0x1000)] finish ∧ Tracks [.b (some 0x1000)] finish.table) ∧
      ∃ result, Continues idleHost (bpAdd (bpInit fun _ => 0) 0x1000) haltingProgram result ∧
        result.calls = 2 := by
  obtain ⟨sessions, continuing⟩ := breakpoints_exact idleHost
  constructor
  · obtain ⟨⟨finish, session, -⟩, tracks⟩ :=
      sessions (fun _ => 0) haltingProgram [.b (some 0x1000)]
    exact ⟨finish, session, tracks finish session⟩
  · obtain ⟨result, promised⟩ :=
      continuing (bpAdd (bpInit fun _ => 0) 0x1000) haltingProgram rfl
    refine ⟨result, promised, promised.least.unique ⟨⟨by decide, ?_⟩, ?_⟩⟩
    · have halted : (stateAfter idleHost haltingProgram 2).state ≠ .running := by decide +kernel
      exact Or.inr (Or.inl halted)
    · rintro k ⟨positive, stops⟩
      refine Nat.le_of_not_lt fun before => ?_
      obtain rfl : k = 1 := by omega
      have first : stepEvent idleHost haltingProgram 0 ≠ .failed ∧
          (stateAfter idleHost haltingProgram 1).state = .running ∧
          (stateAfter idleHost haltingProgram 1).rf.pc ∉
            addresses (bpAdd (bpInit fun _ => 0) 0x1000) := by
        decide +kernel
      obtain ⟨succeeded, running, clear⟩ := first
      rcases stops with failed | halted | hit | limit
      · exact succeeded failed
      · exact halted running
      · exact clear hit
      · omega

end RvEmu.Breakpoints
