import RvEmu.Breakpoints
import RvEmu.DebuggerOutput

/-!
# What the displays of the debugger read

The condition of a display follows its loop. Here each is brought to a bound on addresses:
an instruction is shown from inside the array unless it is asked for at one of the last two
addresses of the space, a listing stays inside when its first instruction does, and a dump
stays inside unless its end wraps. Inside the array, a display depends on nothing else.
-/

namespace RvEmu.DisplayBounds

open Breakpoints LittleEndian MemoryBounds RunSplitting

/-! ## One instruction -/

/-- The displays of an instruction at this address stay in the array. -/
def Below (addr : Word) : Prop := addr.toNat + 2 < 2 ^ 32

instance (addr : Word) : Decidable (Below addr) :=
  inferInstanceAs (Decidable (addr.toNat + 2 < 2 ^ 32))

/-- A halfword that is read lies in the array, unless the test wraps. -/
theorem half_bound (mem : Memory) (addr : Word) (lo : Half) (below : Below addr)
    (read : memoryRead16 mem addr = some lo) : InBounds mem addr 2 := by
  apply ((half_read_law_iff mem addr).mpr below).accepts.mp
  rw [read]
  rfl

/-- A word behind it then lies far from the last addresses. -/
theorem word_law (mem : Memory) (addr : Word) (bounded : InBounds mem addr 2) :
    ReadLaw memoryRead32 4 mem addr := by
  rw [inBounds_iff mem addr 2 (by decide)] at bounded
  exact (word_read_law_iff mem addr).mpr (by omega)

theorem fetchInside_iff (emu : Emulator) (addr : Word) : FetchInside emu addr ↔ Below addr := by
  constructor
  · intro inside
    by_contra wraps
    obtain ⟨passes, outside⟩ := wrapped_test emu.mem addr 2 (by decide) (by decide) wraps
    exact outside (inside _ (if_neg passes)).1
  · intro below lo half
    have bounded := half_bound emu.mem addr lo below half
    refine ⟨bounded, fun _ raw word => ?_⟩
    apply (word_law emu.mem addr bounded).accepts.mp
    rw [word]
    rfl

/-- An instruction that is found lies in the array, so what follows it is far below the last
    addresses. -/
theorem found_below (emu : Emulator) (addr ahead : Word) (below : Below addr)
    (found : fetchDecoded emu addr ≠ .unmapped) (near : ahead.toNat < 256) :
    Below (addr + ahead) := by
  cases half : memoryRead16 emu.mem addr with
  | none =>
    rw [fetchDecoded, half] at found
    exact absurd rfl found
  | some lo =>
    have bounded := half_bound emu.mem addr lo below half
    rw [inBounds_iff emu.mem addr 2 (by decide)] at bounded
    rw [Below, BitVec.toNat_add]
    omega

/-! ## Listings -/

/-- A listing of at least one instruction is as its first one. -/
theorem disasmInside_iff (emu : Emulator) (n : Nat) (addr : Word) :
    DisasmInside emu n addr ↔ n = 0 ∨ Below addr := by
  induction n generalizing addr with
  | zero => exact iff_of_true trivial (.inl rfl)
  | succ n inductionHypothesis =>
    rw [DisasmInside, fetchInside_iff]
    constructor
    · rintro ⟨below, -⟩
      exact .inr below
    · intro either
      have below := either.resolve_left (Nat.succ_ne_zero n)
      refine ⟨below, ?_⟩
      split
      next => trivial
      next raw shown =>
        refine (inductionHypothesis _).mpr (.inr (found_below emu addr _ below ?_ ?_))
        · rw [shown]
          exact FetchDecoded.noConfusion
        · split <;> decide
      next inst raw compressed shown =>
        refine (inductionHypothesis _).mpr (.inr (found_below emu addr _ below ?_ ?_))
        · rw [shown]
          exact FetchDecoded.noConfusion
        · have small := inst.len.isLt
          rw [BitVec.toNat_setWidth]
          omega

/-! ## Steps -/

/-- One round of the loop. After a failed step the machine is not running, so it does not
    matter how the loop is left. -/
theorem stepsInside_round (host : HostFloat) (n : Nat) (emu : Emulator) :
    StepsInside host (n + 1) emu ↔
      (emu.state = .running → Below emu.rf.pc ∧ StepsInside host n (emuStep host emu).2) := by
  rw [StepsInside, fetchInside_iff]
  have failed := failed_stays host emu
  rcases step : emuStep host emu with ⟨event, next⟩
  rw [step] at failed
  cases event with
  | failed =>
    have stopped : next.state ≠ .running := of_decide_eq_false (failed rfl)
    have last : NextInside next := fun running => absurd running stopped
    have rest : StepsInside host n next := by
      cases n with
      | zero => exact last
      | succ n => exact fun running => absurd running stopped
    exact ⟨fun here running => ⟨(here running).1, rest⟩,
      fun here running => ⟨(here running).1, last⟩⟩
  | interrupted => rfl
  | trapped cause tval => rfl
  | retired effect => rfl

/-- The instructions that are shown are those at which the machine comes to run. -/
theorem stepsInside_iff (host : HostFloat) (n : Nat) (emu : Emulator) :
    StepsInside host n emu ↔
      ∀ k, k ≤ n → (∀ j, j ≤ k → (stateAfter host emu j).state = .running) →
        Below (stateAfter host emu k).rf.pc := by
  induction n generalizing emu with
  | zero =>
    constructor
    · intro inside k last running
      obtain rfl := Nat.le_zero.mp last
      exact (fetchInside_iff emu _).mp (inside (running 0 (Nat.le_refl 0)))
    · intro below running
      refine (fetchInside_iff emu _).mpr (below 0 (Nat.le_refl 0) fun j first => ?_)
      obtain rfl := Nat.le_zero.mp first
      exact running
  | succ n inductionHypothesis =>
    have onward : ∀ k, stateAfter host (emuStep host emu).2 k = stateAfter host emu (k + 1) :=
      Runs.stateAt_step (emuStep host) emu
    rw [stepsInside_round, inductionHypothesis]
    simp only [onward]
    constructor
    · intro round k last running
      obtain ⟨here, rest⟩ := round (running 0 (Nat.zero_le k))
      cases k with
      | zero => exact here
      | succ k =>
        exact rest k (Nat.le_of_succ_le_succ last) fun j before =>
          running (j + 1) (Nat.succ_le_succ before)
    · intro below start
      constructor
      · refine below 0 (Nat.zero_le _) fun j first => ?_
        obtain rfl := Nat.le_zero.mp first
        exact start
      · intro k last running
        refine below (k + 1) (Nat.succ_le_succ last) fun j before => ?_
        cases j with
        | zero => exact start
        | succ j => exact running j (Nat.le_of_succ_le_succ before)

/-! ## Dumps -/

/-- A dump from inside the array goes past it just when the sum in its test wraps. -/
theorem dumpInside_iff (mem : Memory) (start len : Word) :
    DumpInside mem start len ↔ mem.size ≤ start ∨ start.toNat + len.toNat < 2 ^ 32 := by
  have wide := start.isLt
  have long := len.isLt
  have limit := size_toNat mem
  simp only [DumpInside, dumpLength, BitVec.lt_def, BitVec.le_def, gt_iff_lt, BitVec.toNat_add,
    BitVec.toNat_ofNat, limit]
  constructor
  · intro inside
    by_contra outside
    obtain ⟨within, wraps⟩ := not_or.mp outside
    rw [if_neg (by omega)] at inside
    -- The first byte behind the array is one of those that the loop goes through.
    have last := inside (by omega) (0x100000 - start.toNat) (by omega)
    omega
  · intro either within i before
    have sum := either.resolve_left (by omega)
    split at before
    · rw [BitVec.toNat_sub, limit] at before
      omega
    · omega

/-- A long dump from a small address, and one that is clipped. -/
example (mem : Memory) : ¬ DumpInside mem 16 0xFFFFFFFF ∧ DumpInside mem 16 0xFFFFFF := by
  rw [dumpInside_iff, dumpInside_iff, mem.sized]
  decide

/-! ## Inside the array nothing else is shown -/

/-- The second memory has the array of the first. -/
def SameArray (mem other : Memory) : Prop :=
  ∀ index, index < mem.size → other.data index = mem.data index

section Displays

variable (emu other : Emulator) (same : SameArray emu.mem other.mem)

/-- An instruction is decoded from the halfword, and from the word behind one that is not
    compressed. -/
theorem fetchDecoded_same (addr : Word)
    (half : memoryRead16 other.mem addr = memoryRead16 emu.mem addr)
    (word : ∀ lo, memoryRead16 emu.mem addr = some lo → lo &&& 3 = 3 →
      memoryRead32 other.mem addr = memoryRead32 emu.mem addr) :
    fetchDecoded other addr = fetchDecoded emu addr := by
  rw [fetchDecoded, fetchDecoded, half]
  cases read : memoryRead16 emu.mem addr with
  | none => rfl
  | some lo =>
    dsimp only
    by_cases compressed : lo &&& 3 ≠ 3
    · rw [if_pos compressed, if_pos compressed]
    · rw [if_neg compressed, if_neg compressed, word lo read (not_not.mp compressed)]

include same

theorem fetchDecoded_inside (addr : Word) (below : Below addr) :
    fetchDecoded other addr = fetchDecoded emu addr := by
  apply fetchDecoded_same emu other addr
  · exact ((half_read_law_iff emu.mem addr).mpr below).confined other.mem same
  · intro lo read _
    exact (word_law emu.mem addr (half_bound emu.mem addr lo below read)).confined other.mem same

theorem showInst_inside (addr : Word) (inside : FetchInside emu addr) :
    showInst other addr = showInst emu addr := by
  rw [showInst, showInst,
    fetchDecoded_inside emu other same addr ((fetchInside_iff emu addr).mp inside)]

theorem cmdDisasm_inside (n : Nat) (addr : Word) (inside : DisasmInside emu n addr) :
    cmdDisasm other n addr = cmdDisasm emu n addr := by
  induction n generalizing addr with
  | zero => rfl
  | succ n inductionHypothesis =>
    obtain ⟨here, rest⟩ := inside
    rw [cmdDisasm, cmdDisasm,
      fetchDecoded_inside emu other same addr ((fetchInside_iff emu addr).mp here)]
    cases shown : fetchDecoded emu addr with
    | unmapped => rfl
    | illegal raw =>
      rw [shown] at rest
      exact congrArg (_ :: ·) (inductionHypothesis _ rest)
    | decoded inst raw compressed =>
      rw [shown] at rest
      exact congrArg (_ :: ·) (inductionHypothesis _ rest)

end Displays

/-- The rows of a dump show the bytes that its loop goes through. -/
theorem memoryDumpFrom_same (mem other : Memory) (start : Word) (left done : Nat) (row : String)
    (same : ∀ i, i < done + left →
      other.data (start + BitVec.ofNat 32 i) = mem.data (start + BitVec.ofNat 32 i)) :
    memoryDumpFrom other start left (BitVec.ofNat 32 done) row =
      memoryDumpFrom mem start left (BitVec.ofNat 32 done) row := by
  induction left generalizing done row with
  | zero => rfl
  | succ left inductionHypothesis =>
    have next : BitVec.ofNat 32 done + 1 = BitVec.ofNat 32 (done + 1) :=
      (BitVec.ofNat_add done 1).symm
    have rest := fun row => inductionHypothesis (done + 1) row fun i before => same i (by omega)
    rw [memoryDumpFrom, memoryDumpFrom, same done (by omega), next, rest, rest]

theorem memoryDump_inside (mem other : Memory) (start len : Word) (same : SameArray mem other)
    (inside : DumpInside mem start len) :
    memoryDump other start len = memoryDump mem start len := by
  have sizes := same_size mem other
  rw [memoryDump, memoryDump, dumpLength, sizes]
  by_cases outside : start ≥ mem.size
  · rw [if_pos outside, if_pos outside]
  · rw [if_neg outside, if_neg outside]
    apply congrArg (_ :: ·)
    apply memoryDumpFrom_same mem other start _ 0
    intro i before
    rw [Nat.zero_add] at before
    exact same _ (inside (BitVec.not_le.mp outside) i before)

/-- Inside the array, a display depends on nothing else. -/
theorem displays_confined (emu other : Emulator) (same : SameArray emu.mem other.mem) :
    (∀ addr, FetchInside emu addr → showInst other addr = showInst emu addr) ∧
      (∀ n addr, DisasmInside emu n addr → cmdDisasm other n addr = cmdDisasm emu n addr) ∧
      ∀ start len, DumpInside emu.mem start len →
        memoryDump other.mem start len = memoryDump emu.mem start len :=
  ⟨showInst_inside emu other same, cmdDisasm_inside emu other same,
    fun start len => memoryDump_inside emu.mem other.mem start len same⟩

/-! ## Every command prints -/

theorem prints_exists (host : HostFloat) (now : Debugger) (command : Command) :
    ∃ lines, Prints host now command lines := by
  cases command with
  | s n => exact ⟨_, .s n⟩
  | c =>
    obtain ⟨result, returns, -⟩ := continue_total host now.table now.emu
    exact ⟨_, .c result returns⟩
  | r => exact ⟨_, .r⟩
  | x range =>
    cases range with
    | none => exact ⟨_, .xUsage⟩
    | some range => exact ⟨_, .x range.1 range.2⟩
  | d addr n => exact ⟨_, .d addr n⟩
  | b addr =>
    cases addr with
    | none => exact ⟨_, .bUsage⟩
    | some addr => exact ⟨_, .b addr⟩
  | bl => exact ⟨_, .bl⟩
  | bd addr =>
    cases addr with
    | none => exact ⟨_, .bdUsage⟩
    | some addr => exact ⟨_, .bd addr⟩
  | bc => exact ⟨_, .bc⟩
  | h => exact ⟨_, .h⟩
  | unknown cmd => exact ⟨_, .unknown cmd⟩

theorem prints_deterministic (host : HostFloat) (now : Debugger) (command : Command)
    (one other : List String) (prints : Prints host now command one)
    (printed : Prints host now command other) : other = one := by
  cases prints with
  | c result returns =>
    cases printed with
    | c different returned =>
      rw [(continue_total host now.table now.emu).unique returned returns]
  | _ =>
    cases printed
    rfl

end RvEmu.DisplayBounds
