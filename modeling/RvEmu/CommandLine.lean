import RvEmu.DebuggerScripts
import RvEmu.Elf
import RvEmu.Stopping

/-!
# The program and its command line

`main` reads its arguments from left to right, loads a file into a new machine, and runs it
or hands it to the debugger. It returns on every command line and every input, with one
result, but for two cases. A plain run without a limit returns just where the loaded program
stops the machine, and a session of the debugger is promised to end just where it shows
nothing past the memory of the machine.

A limit is what `strtoul` makes of the argument, so a text that is no number is no limit.
What the self-tests print is not part of the model.
-/

namespace RvEmu

open LittleEndian

/-! ## Arguments -/

/-- The variables of `main` that the arguments set. -/
structure Settings where
  path : Option (List Char)
  debug : Bool
  selftest : Bool
  maxSteps : DWord
deriving DecidableEq

/-- Before the first argument. -/
def settingsInit : Settings where
  path := none
  debug := false
  selftest := false
  maxSteps := 0

/-- How the loop over the arguments ends: behind the last one, or with a return. -/
inductive Asked where
  | settings (now : Settings)
  | help
  | unknown (arg : List Char)
deriving DecidableEq

/-- `(u64)strtoul(argv[++i], NULL, 0)`; a text without a number is zero. -/
def stepsOf (arg : List Char) : DWord :=
  match strtoul arg with
  | none => 0
  | some (value, _) => value

/-- The loop over the arguments. -/
def readArgs : Settings → List (List Char) → Asked
  | now, [] => .settings now
  | now, arg :: rest =>
    if arg = "--selftest".toList then readArgs { now with selftest := true } rest
    else if arg = "-d".toList ∨ arg = "--debug".toList then
      readArgs { now with debug := true } rest
    else if arg = "--steps".toList then
      match rest with
      -- Without a value it falls through to the test for a leading minus.
      | [] => .unknown arg
      | value :: rest => readArgs { now with maxSteps := stepsOf value } rest
    else if arg = "-h".toList ∨ arg = "--help".toList then .help
    else if arg.head? = some '-' then .unknown arg
    else readArgs { now with path := some arg } rest

/-! ## The program -/

/-- What `main` comes to before it runs anything: it returns with a status, debugs a machine
or runs one under a limit. -/
inductive Course where
  | returned (status : Nat)
  | debugging (emu : Emulator)
  | running (limit : DWord) (emu : Emulator)

/-- `main` up to there. `files` is what `fopen` finds, and `beyond` what the host keeps after
the memory of the machine. -/
def mainCourse (files : List Char → Option FileBuf) (beyond : Store) (args : List (List Char)) :
    Course :=
  match readArgs settingsInit args with
  | .help => .returned 0
  | .unknown _ => .returned 1
  | .settings now =>
    if now.selftest then .returned 0
    else
      match now.path with
      | none => .returned 1
      | some path =>
        match emuLoadElf (files path) (emuInit beyond) with
        | (false, _) => .returned 1
        | (true, emu) => if now.debug then .debugging emu else .running now.maxSteps emu

/-- What `main` leaves: its status, and the machine that it ran or debugged, if it did. -/
structure MainResult where
  status : Nat
  final : Option Emulator

/-- `main` returns with this result. The table of breakpoints is followed by `slots`, and
`input` is what is typed. -/
def MainReturns (host : HostFloat) (files : List Char → Option FileBuf) (beyond : Store)
    (slots : Nat → Word) (input : List Char) (args : List (List Char)) (result : MainResult) :
    Prop :=
  match mainCourse files beyond args with
  | .returned status => result = { status, final := none }
  | .debugging emu =>
    ∃ finish output, DebugRepl host emu slots input finish output ∧
      result = { status := 0, final := some finish.emu }
  | .running limit emu =>
    ∃ ran, RunReturns host limit emu ran ∧ result = { status := 0, final := some ran.emu }

end RvEmu

namespace RvEmu.CommandLine

open LittleEndian Numerals DebuggerScripts DebuggerTalks Breakpoints Stopping RunSplitting

/-! ## Arguments are read in order -/

/-- The strings that arguments are compared with. -/
def options : List (List Char) :=
  ["--selftest".toList, "-d".toList, "--debug".toList, "--steps".toList, "-h".toList,
    "--help".toList]

/-- An argument with its meaning. -/
inductive Item where
  | selftest
  | debug (long : Bool)
  | steps (n : DWord)
  | path (name : List Char)

/-- The words of an argument. -/
def Item.words : Item → List (List Char)
  | .selftest => ["--selftest".toList]
  | .debug false => ["-d".toList]
  | .debug true => ["--debug".toList]
  | .steps n => ["--steps".toList, numeral 10 n.toNat]
  | .path name => [name]

/-- What an argument sets. -/
def Item.apply (now : Settings) : Item → Settings
  | .selftest => { now with selftest := true }
  | .debug _ => { now with debug := true }
  | .steps n => { now with maxSteps := n }
  | .path name => { now with path := some name }

/-- A path does not start with a minus. -/
def Item.plain : Item → Bool
  | .path name => name.head? ≠ some '-'
  | _ => true

/-- A number is read back as the limit. -/
theorem stepsOf_numeral (n : DWord) : stepsOf (numeral 10 n.toNat) = n := by
  rw [stepsOf, strtoul_decimal n.toNat n.isLt]
  dsimp only
  rw [BitVec.ofNat_toNat, BitVec.setWidth_eq]

/-- A word that does not start with a minus is none of the options. -/
theorem plain_word (name option : List Char) (plain : name.head? ≠ some '-')
    (minus : option.head? = some '-') : name ≠ option := by
  rintro rfl
  exact plain minus

/-- Each argument is read and sets what it means. -/
theorem item_read (now : Settings) (item : Item) (rest : List (List Char))
    (plain : item.plain = true) :
    readArgs now (item.words ++ rest) = readArgs (item.apply now) rest := by
  cases item with
  | selftest =>
    change readArgs now ("--selftest".toList :: rest) = _
    conv_lhs => unfold readArgs
    rw [if_pos rfl]
    rfl
  | debug long =>
    cases long with
    | false =>
      change readArgs now ("-d".toList :: rest) = _
      conv_lhs => unfold readArgs
      rw [if_neg (by decide), if_pos (.inl rfl)]
      rfl
    | true =>
      change readArgs now ("--debug".toList :: rest) = _
      conv_lhs => unfold readArgs
      rw [if_neg (by decide), if_pos (.inr rfl)]
      rfl
  | steps n =>
    change readArgs now ("--steps".toList :: numeral 10 n.toNat :: rest) = _
    rw [readArgs, if_neg (by decide), if_neg (by decide), if_pos rfl, stepsOf_numeral]
    rfl
  | path name =>
    have plain : name.head? ≠ some '-' := of_decide_eq_true plain
    have other : ∀ option : List Char, option.head? = some '-' → name ≠ option :=
      fun option => plain_word name option plain
    change readArgs now (name :: rest) = _
    conv_lhs => unfold readArgs
    rw [if_neg (other _ rfl), if_neg (not_or.mpr ⟨other _ rfl, other _ rfl⟩),
      if_neg (other _ rfl), if_neg (not_or.mpr ⟨other _ rfl, other _ rfl⟩), if_neg plain]
    rfl

/-- Arguments in any order set what they mean, one after the other, before the rest is
    read. -/
theorem items_before (items : List Item) (plain : ∀ item ∈ items, item.plain = true)
    (now : Settings) (rest : List (List Char)) :
    readArgs now (items.flatMap Item.words ++ rest) =
      readArgs (items.foldl Item.apply now) rest := by
  induction items generalizing now with
  | nil => rfl
  | cons item items inductionHypothesis =>
    rw [List.flatMap_cons, List.append_assoc, item_read now item _ (plain item List.mem_cons_self),
      inductionHypothesis (fun later member => plain later (List.mem_cons_of_mem item member)),
      List.foldl_cons]

/-- A request for help ends the loop, whatever follows it. -/
theorem help_ends (now : Settings) (arg : List Char) (rest : List (List Char))
    (asks : arg = "-h".toList ∨ arg = "--help".toList) : readArgs now (arg :: rest) = .help := by
  rcases asks with rfl | rfl
  · conv_lhs => unfold readArgs
    rw [if_neg (by decide), if_neg (by decide), if_neg (by decide), if_pos (.inl rfl)]
  · conv_lhs => unfold readArgs
    rw [if_neg (by decide), if_neg (by decide), if_neg (by decide), if_pos (.inr rfl)]

/-- So does an argument with a minus that is no option. -/
theorem unknown_ends (now : Settings) (arg : List Char) (rest : List (List Char))
    (minus : arg.head? = some '-') (missing : arg ∉ options) :
    readArgs now (arg :: rest) = .unknown arg := by
  simp only [options, List.mem_cons, List.not_mem_nil, or_false, not_or] at missing
  obtain ⟨selftest, short, long, steps, h, help⟩ := missing
  conv_lhs => unfold readArgs
  rw [if_neg selftest, if_neg (not_or.mpr ⟨short, long⟩), if_neg steps,
    if_neg (not_or.mpr ⟨h, help⟩), if_pos minus]

/-- Arguments in any order are read as what they set, one after the other, so the last of a
    kind counts. The first request for help or unknown option behind them ends the loop,
    whatever follows, and so does a limit that is missing at the end. -/
theorem items_read (items : List Item) (plain : ∀ item ∈ items, item.plain = true)
    (now : Settings) :
    readArgs now (items.flatMap Item.words) = .settings (items.foldl Item.apply now) ∧
      (∀ arg rest, arg = "-h".toList ∨ arg = "--help".toList →
        readArgs now (items.flatMap Item.words ++ arg :: rest) = .help) ∧
      (∀ arg rest, arg.head? = some '-' → arg ∉ options →
        readArgs now (items.flatMap Item.words ++ arg :: rest) = .unknown arg) ∧
      readArgs now (items.flatMap Item.words ++ ["--steps".toList]) =
        .unknown "--steps".toList := by
  have before := items_before items plain now
  refine ⟨?_, fun arg rest asks => ?_, fun arg rest minus missing => ?_, ?_⟩
  · have whole := before []
    rwa [List.append_nil] at whole
  · rw [before, help_ends _ arg rest asks]
  · rw [before, unknown_ends _ arg rest minus missing]
  · rw [before]
    rfl

/-- Two paths, with a limit and the debugger between them: the second path is loaded. A
    request for help behind them is granted. -/
theorem twoPaths_read :
    readArgs settingsInit
        ["a.elf".toList, "--steps".toList, "5".toList, "--debug".toList, "b.elf".toList] =
      .settings
        { path := some "b.elf".toList, debug := true, selftest := false, maxSteps := 5 } ∧
      readArgs settingsInit
        ["a.elf".toList, "--steps".toList, "5".toList, "--debug".toList, "b.elf".toList,
          "-h".toList, "-x".toList] = .help := by
  obtain ⟨set, help, -⟩ :=
    items_read [.path "a.elf".toList, .steps 5, .debug true, .path "b.elf".toList]
      (List.all_eq_true.mp (by decide)) settingsInit
  exact ⟨set, help "-h".toList ["-x".toList] (.inl rfl)⟩

/-! ## The program returns -/

/-- A machine that `main` goes on with holds a loaded file and is running. -/
theorem loaded_running (opened : Option FileBuf) (before emu : Emulator)
    (loads : emuLoadElf opened before = (true, emu)) : emu.state = .running := by
  rw [emuLoadElf] at loads
  dsimp only at loads
  split at loads
  · cases loads
  · cases loads
    rfl

/-- The machine is one that a file was loaded into. -/
def LoadedFrom (files : List Char → Option FileBuf) (beyond : Store) (emu : Emulator) : Prop :=
  ∃ path, emuLoadElf (files path) (emuInit beyond) = (true, emu)

theorem course_loaded (files : List Char → Option FileBuf) (beyond : Store)
    (args : List (List Char)) (emu : Emulator)
    (goes : mainCourse files beyond args = .debugging emu ∨
      ∃ limit, mainCourse files beyond args = .running limit emu) :
    LoadedFrom files beyond emu := by
  rw [mainCourse] at goes
  split at goes
  next => rcases goes with goes | ⟨limit, goes⟩ <;> cases goes
  next => rcases goes with goes | ⟨limit, goes⟩ <;> cases goes
  next now read =>
    split at goes
    next => rcases goes with goes | ⟨limit, goes⟩ <;> cases goes
    next =>
      split at goes
      next => rcases goes with goes | ⟨limit, goes⟩ <;> cases goes
      next path named =>
        split at goes
        next => rcases goes with goes | ⟨limit, goes⟩ <;> cases goes
        next loaded loads =>
          split at goes
          next =>
            rcases goes with goes | ⟨limit, goes⟩ <;> cases goes
            exact ⟨path, loads⟩
          next =>
            rcases goes with goes | ⟨limit, goes⟩ <;> cases goes
            exact ⟨path, loads⟩

/-- A run under a limit returns; without one it returns where the machine stops. -/
theorem run_returns_iff (host : HostFloat) (limit : DWord) (emu : Emulator) :
    (∃ ran, RunReturns host limit emu ran) ↔
      ¬ (limit = 0 ∧ ∀ n, (stateAfter host emu n).state = .running) := by
  by_cases unlimited : limit = 0
  · subst unlimited
    constructor
    · rintro ⟨ran, enough, returns⟩ ⟨-, goes⟩
      have ends := returns enough (Nat.le_refl enough)
      rw [unlimited_runs host enough _ goes] at ends
      cases ends
    · intro ends
      have stops : ∃ n, (stateAfter host emu n).state ≠ .running := by
        by_contra never
        exact ends ⟨rfl, fun n => not_not.mp fun stopped => never ⟨n, stopped⟩⟩
      refine ⟨_, Nat.find stops + 1, fun fuel enough =>
        unlimited_ends host (Nat.find stops) fuel _ ?_ (Nat.find_spec stops) enough⟩
      intro k before
      exact not_not.mp (Nat.find_min stops before)
  · have positive : 0 < limit := by bv_omega
    constructor
    · rintro - ⟨zero, -⟩
      exact unlimited zero
    · intro _
      exact ⟨_, (runReturns_iff host limit positive emu _).mpr rfl⟩

/-- What a run leaves, it has run to. -/
theorem returned_runsOn (host : HostFloat) (limit : DWord) (emu : Emulator) (ran : RunResult)
    (running : emu.state = .running) (returns : RunReturns host limit emu ran) :
    RunsOn host emu ran.emu := by
  obtain ⟨n, ends, rfl⟩ := returns_ends host limit emu running ran returns
  refine ⟨n, rfl, ?_⟩
  cases ends with
  | stopped last within before stops =>
    intro k below
    exact (run_stops host emu running last).mpr before k (Nat.le_of_lt_succ below)
  | limited positive before =>
    intro k below
    exact (run_stops host emu running limit.toNat).mpr before k (Nat.le_of_lt below)

/-- A plain run without a limit, of a program that does not stop the machine. -/
def Endless (host : HostFloat) (files : List Char → Option FileBuf) (beyond : Store)
    (args : List (List Char)) : Prop :=
  ∃ emu, mainCourse files beyond args = .running 0 emu ∧
    ∀ n, (stateAfter host emu n).state = .running

/-- A session of the debugger in which something past the memory of the machine is to be
    shown. -/
def Strays (host : HostFloat) (files : List Char → Option FileBuf) (beyond : Store)
    (slots : Nat → Word) (input : List Char) (args : List (List Char)) : Prop :=
  ∃ emu, mainCourse files beyond args = .debugging emu ∧ ¬ KeepsInside host emu slots input

section Main

variable (host : HostFloat) (files : List Char → Option FileBuf) (beyond : Store)
  (slots : Nat → Word) (input : List Char) (args : List (List Char))

theorem main_returns :
    (∃ result, MainReturns host files beyond slots input args result) ↔
      ¬ Endless host files beyond args ∧ ¬ Strays host files beyond slots input args := by
  simp only [MainReturns, Endless, Strays]
  cases mainCourse files beyond args with
  | returned status =>
    refine iff_of_true ⟨_, rfl⟩ ⟨?_, ?_⟩
    · rintro ⟨emu, course, -⟩
      cases course
    · rintro ⟨emu, course, -⟩
      cases course
  | debugging emu =>
    have debugs := debugRepl_exists host emu slots input
    constructor
    · rintro ⟨result, finish, output, ends, -⟩
      constructor
      · rintro ⟨other, course, -⟩
        cases course
      · rintro ⟨other, course, strays⟩
        cases course
        exact strays (debugs.mp ⟨finish, output, ends⟩)
    · rintro ⟨-, keeps⟩
      have inside : KeepsInside host emu slots input :=
        not_not.mp fun strays => keeps ⟨emu, rfl, strays⟩
      obtain ⟨finish, output, ends⟩ := debugs.mpr inside
      exact ⟨_, finish, output, ends, rfl⟩
  | running limit emu =>
    constructor
    · rintro ⟨result, ran, returns, -⟩
      constructor
      · rintro ⟨other, course, goes⟩
        cases course
        exact (run_returns_iff host 0 emu).mp ⟨ran, returns⟩ ⟨rfl, goes⟩
      · rintro ⟨other, course, -⟩
        cases course
    · rintro ⟨ends, -⟩
      have bounded : ¬ (limit = 0 ∧ ∀ n, (stateAfter host emu n).state = .running) := by
        rintro ⟨rfl, goes⟩
        exact ends ⟨emu, rfl, goes⟩
      obtain ⟨ran, returns⟩ := (run_returns_iff host limit emu).mpr bounded
      exact ⟨_, ran, returns, rfl⟩

theorem main_unique (one other : MainResult)
    (first : MainReturns host files beyond slots input args one)
    (second : MainReturns host files beyond slots input args other) : one = other := by
  simp only [MainReturns] at first second
  cases course : mainCourse files beyond args with
  | returned status =>
    rw [course] at first second
    exact first.trans second.symm
  | debugging emu =>
    rw [course] at first second
    obtain ⟨finish, output, debugs, rfl⟩ := first
    obtain ⟨other, different, again, rfl⟩ := second
    rw [(debugRepl_unique host emu slots input finish other output different debugs again).1]
  | running limit emu =>
    rw [course] at first second
    obtain ⟨ran, returns, rfl⟩ := first
    obtain ⟨ran', returns', rfl⟩ := second
    rw [returns_unique host limit emu ran ran' returns returns']

/-- What `main` leaves is a loaded machine that has run on, and then its status is 0. -/
theorem main_final (result : MainResult) (final : Emulator)
    (returns : MainReturns host files beyond slots input args result)
    (left : result.final = some final) :
    result.status = 0 ∧ ∃ loaded, LoadedFrom files beyond loaded ∧ RunsOn host loaded final := by
  simp only [MainReturns] at returns
  cases course : mainCourse files beyond args with
  | returned status =>
    rw [course] at returns
    subst returns
    cases left
  | debugging emu =>
    rw [course] at returns
    obtain ⟨finish, output, debugs, rfl⟩ := returns
    cases left
    have session := debugRepl_session host emu slots input finish output debugs
    exact ⟨rfl, emu, course_loaded files beyond args emu (.inl course),
      session_runsOn host _ finish _ session⟩
  | running limit emu =>
    rw [course] at returns
    obtain ⟨ran, ends, rfl⟩ := returns
    cases left
    obtain ⟨path, loads⟩ := course_loaded files beyond args emu (.inr ⟨limit, course⟩)
    have running := loaded_running _ _ emu loads
    exact ⟨rfl, emu, ⟨path, loads⟩, returned_runsOn host limit emu ran running ends⟩

end Main

end RvEmu.CommandLine
