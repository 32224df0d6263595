import RvEmu.DebuggerInput
import RvEmu.DisplayBounds

/-!
# What the debugger does with its input

The commands of an input are those of its lines up to the first that quits, so the debugger
does with a text what a talk does with its commands: one round after another, each with its
lines, and each of them showing what lies in the memory of the machine.

Whatever is typed, the debugger does nothing to the machine but run it, and it comes to an
end just where its displays stay inside.
-/

namespace RvEmu.DebuggerTalks

open Breakpoints DisplayBounds

/-! ## Lines -/

/-- A line and the rest are the text. -/
theorem takeLine_append (n : Nat) (text : List Char) :
    (takeLine n text).1 ++ (takeLine n text).2 = text := by
  induction n generalizing text with
  | zero => rfl
  | succ n inductionHypothesis =>
    cases text with
    | nil => rfl
    | cons c text =>
      rw [takeLine]
      split
      · rfl
      · exact congrArg (c :: ·) (inductionHypothesis text)

/-- A line takes something. -/
theorem takeLine_nonempty (n : Nat) (c : Char) (text : List Char) :
    (takeLine (n + 1) (c :: text)).1 ≠ [] := by
  rw [takeLine]
  split
  · exact List.cons_ne_nil _ _
  · exact List.cons_ne_nil _ _

/-- What is left after a line is shorter. -/
theorem fgets_shorter (input line rest : List Char) (read : fgets input = some (line, rest)) :
    rest.length < input.length := by
  cases input with
  | nil => cases read
  | cons c text =>
    rw [fgets, if_neg (List.cons_ne_nil c text), Option.some.injEq] at read
    have joined := takeLine_append 127 (c :: text)
    have some := List.length_pos_iff.mpr (takeLine_nonempty 126 c text)
    rw [read] at joined some
    dsimp only at joined some
    rw [← joined, List.length_append]
    omega

/-! ## Talks -/

/-- The commands of an input, of which so many lines are read: those of its lines up to the
    first that quits. A blank line has none. -/
def lineCommands : Nat → List Char → List Command
  | 0, _ => []
  | n + 1, input =>
    match fgets input with
    | none => []
    | some (line, rest) =>
      if readLine line = .quit then []
      else (readLine line).command.toList ++ lineCommands n rest

/-- The commands of an input. It has no more lines than characters. -/
def inputCommands (input : List Char) : List Command := lineCommands input.length input

/-- The rounds of a sequence of commands and the lines that they print. Each of them shows
    what lies in the array. -/
inductive Talk (host : HostFloat) : Debugger → List Command → Debugger → List String → Prop where
  | done (now : Debugger) : Talk host now [] now []
  | next (now after finish : Debugger) (command : Command) (commands : List Command)
      (shown lines : List String) (inside : command.Inside host now)
      (performs : Performs host now command after) (prints : Prints host now command shown)
      (rest : Talk host after commands finish lines) :
      Talk host now (command :: commands) finish (shown ++ lines)

/-- Each command, where it comes to be performed, shows what lies in the array. -/
def Contained (host : HostFloat) : Debugger → List Command → Prop
  | _, [] => True
  | now, command :: commands =>
    command.Inside host now ∧
      ∀ after, Performs host now command after → Contained host after commands

section Talks

variable (host : HostFloat)

/-- A sequence of commands has a talk just where it is contained. -/
theorem talk_exists (start : Debugger) (commands : List Command) :
    (∃ finish lines, Talk host start commands finish lines) ↔ Contained host start commands := by
  induction commands generalizing start with
  | nil => exact iff_of_true ⟨start, [], .done start⟩ trivial
  | cons command commands inductionHypothesis =>
    constructor
    · rintro ⟨finish, whole, talk⟩
      cases talk with
      | next _ after _ _ _ shown lines inside performs prints rest =>
        refine ⟨inside, fun other performed => ?_⟩
        rw [performs_deterministic host start after other command performs performed]
        exact (inductionHypothesis after).mp ⟨finish, lines, rest⟩
    · rintro ⟨inside, onward⟩
      obtain ⟨after, performs⟩ := performs_exists host start command
      obtain ⟨shown, prints⟩ := prints_exists host start command
      obtain ⟨finish, lines, rest⟩ := (inductionHypothesis after).mpr (onward after performs)
      exact ⟨finish, _, .next start after finish command commands shown lines inside performs
        prints rest⟩

/-- It has no other. -/
theorem talk_unique (start finish other : Debugger) (commands : List Command)
    (lines others : List String) (talk : Talk host start commands finish lines)
    (again : Talk host start commands other others) : other = finish ∧ others = lines := by
  induction talk generalizing other others with
  | done now =>
    cases again
    exact ⟨rfl, rfl⟩
  | next now after finish command commands shown lines inside performs prints rest
      inductionHypothesis =>
    cases again with
    | next _ between _ _ _ displayed remaining _ performed printed goesOn =>
      rw [performs_deterministic host now after between command performs performed] at goesOn
      obtain ⟨rfl, rfl⟩ := inductionHypothesis other remaining goesOn
      rw [prints_deterministic host now command shown displayed prints printed]
      exact ⟨rfl, rfl⟩

/-- A session whose first command comes first. -/
theorem session_cons (start finish : Debugger) (command : Command) (commands : List Command) :
    Session host start (command :: commands) finish ↔
      ∃ after, Performs host start command after ∧ Session host after commands finish := by
  induction commands using List.reverseRecOn generalizing finish with
  | nil =>
    have single := session_snoc host start [] command finish
    rw [List.nil_append] at single
    rw [single]
    constructor
    · rintro ⟨now, begins, performs⟩
      obtain rfl := (session_nil host start now).mp begins
      exact ⟨finish, performs, .start⟩
    · rintro ⟨after, performs, ends⟩
      obtain rfl := (session_nil host after finish).mp ends
      exact ⟨start, .start, performs⟩
  | append_singleton commands last inductionHypothesis =>
    rw [← List.cons_append, session_snoc]
    constructor
    · rintro ⟨now, earlier, performs⟩
      obtain ⟨after, first, rest⟩ := (inductionHypothesis now).mp earlier
      exact ⟨after, first, (session_snoc host after commands last finish).mpr ⟨now, rest, performs⟩⟩
    · rintro ⟨after, first, session⟩
      obtain ⟨now, rest, performs⟩ := (session_snoc host after commands last finish).mp session
      exact ⟨now, (inductionHypothesis now).mpr ⟨after, first, rest⟩, performs⟩

/-- What a talk does is a session. -/
theorem talk_session (start finish : Debugger) (commands : List Command) (lines : List String)
    (talk : Talk host start commands finish lines) : Session host start commands finish := by
  induction talk with
  | done now => exact .start
  | next now after finish command commands shown lines inside performs prints rest
      inductionHypothesis =>
    exact (session_cons host now finish command commands).mpr ⟨after, performs, inductionHypothesis⟩

/-! ## The loop talks -/

/-- An action is a blank line, a quit or a command. -/
theorem action_cases (action : Action) :
    action = .blank ∨ action = .quit ∨ ∃ command, action.command = some command := by
  cases action with
  | blank => exact .inl rfl
  | quit => exact .inr (.inl rfl)
  | _ => exact .inr (.inr ⟨_, rfl⟩)

/-- One round of a talk, and of the loop. -/
def Round (now : Debugger) (command : Command) (lines : List String)
    (goesOn : Debugger → List String → Prop) : Prop :=
  ∃ after shown others, command.Inside host now ∧ Performs host now command after ∧
    Prints host now command shown ∧ goesOn after others ∧ lines = shown ++ others

theorem round_congr (now : Debugger) (command : Command) (lines : List String)
    (one other : Debugger → List String → Prop)
    (same : ∀ after others, one after others ↔ other after others) :
    Round host now command lines one ↔ Round host now command lines other := by
  have equal : one = other := funext fun after => funext fun others => propext (same after others)
  rw [equal]

theorem talk_nil (now finish : Debugger) (lines : List String) :
    Talk host now [] finish lines ↔ finish = now ∧ lines = [] := by
  constructor
  · intro talk
    cases talk
    exact ⟨rfl, rfl⟩
  · rintro ⟨rfl, rfl⟩
    exact .done finish

theorem talk_cons (now finish : Debugger) (command : Command) (commands : List Command)
    (lines : List String) :
    Talk host now (command :: commands) finish lines ↔
      Round host now command lines fun after others => Talk host after commands finish others := by
  constructor
  · intro talk
    cases talk with
    | next _ after _ _ _ shown others inside performs prints rest =>
      exact ⟨after, shown, others, inside, performs, prints, rest, rfl⟩
  · rintro ⟨after, shown, others, inside, performs, prints, rest, rfl⟩
    exact .next now after finish command commands shown others inside performs prints rest

/-- What the loop does with the next line. -/
theorem repl_next (now finish : Debugger) (input : List Char) (lines : List String) :
    Repl host now input finish lines ↔
      match fgets input with
      | none => finish = now ∧ lines = []
      | some (line, rest) =>
        if readLine line = .quit then finish = now ∧ lines = []
        else
          match (readLine line).command with
          | none => Repl host now rest finish lines
          | some command =>
            Round host now command lines fun after others =>
              Repl host after rest finish others := by
  constructor
  · intro repl
    cases repl with
    | ended _ _ read =>
      rw [read]
      exact ⟨rfl, rfl⟩
    | skip _ _ _ line rest _ read blank goesOn =>
      rw [read]
      dsimp only
      rw [blank]
      exact goesOn
    | quit _ _ line rest read quits =>
      rw [read]
      dsimp only
      rw [if_pos quits]
      exact ⟨rfl, rfl⟩
    | round _ after _ _ line rest command shown others read asks inside performs prints goesOn =>
      have stays : readLine line ≠ .quit := by
        intro quits
        rw [quits] at asks
        cases asks
      rw [read]
      dsimp only
      rw [if_neg stays, asks]
      exact ⟨after, shown, others, inside, performs, prints, goesOn, rfl⟩
  · intro next
    split at next
    next read =>
      obtain ⟨rfl, rfl⟩ := next
      exact .ended finish input read
    next line rest read =>
      rcases action_cases (readLine line) with blank | quits | ⟨command, asks⟩
      · rw [blank] at next
        exact .skip now finish input line rest lines read blank next
      · rw [if_pos quits] at next
        obtain ⟨rfl, rfl⟩ := next
        exact .quit finish input line rest read quits
      · have stays : readLine line ≠ .quit := by
          intro quits
          rw [quits] at asks
          cases asks
        rw [if_neg stays, asks] at next
        obtain ⟨after, shown, others, inside, performs, prints, goesOn, rfl⟩ := next
        exact .round now after finish input line rest command shown others read asks inside
          performs prints goesOn

/-- The debugger on an input does and prints what a talk on its commands does and prints. The
    induction is on the number of lines that may be left. -/
theorem repl_lines (n : Nat) (start finish : Debugger) (input : List Char) (lines : List String)
    (enough : input.length ≤ n) :
    Repl host start input finish lines ↔ Talk host start (lineCommands n input) finish lines := by
  induction n generalizing start input lines with
  | zero =>
    obtain rfl := List.eq_nil_of_length_eq_zero (Nat.le_zero.mp enough)
    exact (repl_next host start finish [] lines).trans (talk_nil host start finish lines).symm
  | succ n inductionHypothesis =>
    rw [lineCommands, repl_next]
    cases read : fgets input with
    | none => exact (talk_nil host start finish lines).symm
    | some parts =>
      obtain ⟨line, rest⟩ := parts
      have shorter := fgets_shorter input line rest read
      have onward := fun after others => inductionHypothesis after rest others (by omega)
      dsimp only
      by_cases quits : readLine line = .quit
      · rw [if_pos quits, if_pos quits]
        exact (talk_nil host start finish lines).symm
      · rw [if_neg quits, if_neg quits]
        cases (readLine line).command with
        | none => exact onward start lines
        | some command =>
          rw [Option.toList_some, List.singleton_append, talk_cons]
          exact round_congr host start command lines _ _ onward

theorem repl_talk (start finish : Debugger) (input : List Char) (lines : List String) :
    Repl host start input finish lines ↔ Talk host start (inputCommands input) finish lines :=
  repl_lines host input.length start finish input lines (Nat.le_refl _)

end Talks

/-! ## What a session does to the machine -/

/-- The machine has run on, in steps that a running machine makes. -/
def RunsOn (host : HostFloat) (start finish : Emulator) : Prop :=
  ∃ n, finish = stateAfter host start n ∧ ∀ k, k < n → (stateAfter host start k).state = .running

theorem runsOn_stays (host : HostFloat) (emu : Emulator) : RunsOn host emu emu :=
  ⟨0, rfl, fun k below => absurd below (Nat.not_lt_zero k)⟩

theorem runsOn_further (host : HostFloat) (start middle finish : Emulator)
    (first : RunsOn host start middle) (second : RunsOn host middle finish) :
    RunsOn host start finish := by
  obtain ⟨n, rfl, before⟩ := first
  obtain ⟨m, rfl, after⟩ := second
  refine ⟨n + m, (Runs.stateAt_add (emuStep host) start n m).symm, ?_⟩
  intro k below
  by_cases early : k < n
  · exact before k early
  · obtain ⟨late, rfl⟩ : ∃ late, k = n + late := ⟨k - n, by omega⟩
    rw [stateAfter, Runs.stateAt_add]
    exact after late (by omega)

/-- `cmd_step` runs as the loop of `emu_run` does. -/
theorem cmdStep_loop (host : HostFloat) (n : Nat) (emu : Emulator) (steps : Nat) :
    cmdStep host n emu = (emuRunLoop host n emu steps).2 := by
  induction n generalizing emu steps with
  | zero => rfl
  | succ n inductionHypothesis =>
    rw [cmdStep, emuRunLoop]
    split
    · rfl
    · rcases emuStep host emu with ⟨event, next⟩
      cases event with
      | failed => rfl
      | interrupted => exact inductionHypothesis next (steps + 1)
      | trapped cause tval => exact inductionHypothesis next (steps + 1)
      | retired effect => exact inductionHypothesis next (steps + 1)

theorem cmdStep_calls (host : HostFloat) (n : Nat) (emu : Emulator) :
    cmdStep host n emu = stateAfter host emu (RunSplitting.callsWithin host n emu) := by
  rw [cmdStep_loop host n emu 0, RunSplitting.emuRunLoop_eq]

theorem cmdStep_runsOn (host : HostFloat) (n : Nat) (emu : Emulator) :
    RunsOn host emu (cmdStep host n emu) := by
  refine ⟨_, cmdStep_calls host n emu, ?_⟩
  intro k before
  exact of_decide_eq_true
    (Runs.stepsWhile_going (emuStep host) RunSplitting.isRunning n emu k before)

/-- Stepping so often and then so often is stepping as often as both. -/
theorem cmdStep_add (host : HostFloat) (n m : Nat) (emu : Emulator) :
    cmdStep host (n + m) emu = cmdStep host m (cmdStep host n emu) := by
  have split := Runs.stepsWhile_add (emuStep host) RunSplitting.isRunning n m emu
  rw [cmdStep_calls, cmdStep_calls, cmdStep_calls, RunSplitting.callsWithin, split, stateAfter,
    Runs.stateAt_add]
  rfl

theorem continue_runsOn (host : HostFloat) (table : BreakpointTable) (emu : Emulator)
    (result : ContinueResult) (returns : ContinueReturns host table emu result) :
    RunsOn host emu result.emu := by
  by_cases running : emu.state = .running
  · rw [((continues host table emu running).returns result).mp returns]
    refine ⟨continueCalls host table emu, rfl, ?_⟩
    intro k before
    by_cases first : k = 0
    · subst first
      exact running
    · exact ((goesOn_iff table _).mp (continueCalls_goes host table emu k (by omega) before)).1
  · have stays := (continueReturns_iff host table emu 1 _
      (continue_stays host table emu running) result).mp returns
    rw [stays]
    exact runsOn_stays host emu

/-- A command runs the machine on, or leaves it as it is. -/
theorem performs_runsOn (host : HostFloat) (now after : Debugger) (command : Command)
    (performs : Performs host now command after) : RunsOn host now.emu after.emu := by
  cases performs with
  | s n => exact cmdStep_runsOn host n.toNat now.emu
  | c result returns => exact continue_runsOn host now.table now.emu result returns
  | r | x | d | b | bUsage | bl | bd | bdUsage | bc | h | unknown => exact runsOn_stays host now.emu

/-- So does a session. -/
theorem session_runsOn (host : HostFloat) (start finish : Debugger) (commands : List Command)
    (session : Session host start commands finish) : RunsOn host start.emu finish.emu := by
  induction session with
  | start => exact runsOn_stays host start.emu
  | next commands now after command earlier performs inductionHypothesis =>
    exact runsOn_further host start.emu now.emu after.emu inductionHypothesis
      (performs_runsOn host now after command performs)

/-! ## What the debugger does -/

/-- Whatever the debugger shows on an input lies in the array. -/
def KeepsInside (host : HostFloat) (emu : Emulator) (slots : Nat → Word) (input : List Char) :
    Prop :=
  NextInside emu ∧ Contained host { emu, table := bpInit slots } (inputCommands input)

/-- A listing from the last address does not, and neither does a dump whose end wraps. -/
example (host : HostFloat) (emu : Emulator) (slots : Nat → Word) :
    ¬ KeepsInside host emu slots "d -1\n".toList ∧
      ¬ KeepsInside host emu slots "x 16 0xffffffff\n".toList := by
  have listing : inputCommands "d -1\n".toList = [.d (some 0xFFFFFFFF) 8] := by decide
  have dump : inputCommands "x 16 0xffffffff\n".toList = [.x (some (16, 0xFFFFFFFF))] := by decide
  constructor
  · rintro ⟨-, contained⟩
    rw [listing] at contained
    exact absurd ((disasmInside_iff emu 8 0xFFFFFFFF).mp contained.1) (by decide)
  · rintro ⟨-, contained⟩
    rw [dump] at contained
    have bound := (dumpInside_iff emu.mem 16 0xFFFFFFFF).mp contained.1
    rw [emu.mem.sized] at bound
    exact absurd bound (by decide)

section Transparency

variable (host : HostFloat) (emu : Emulator) (slots : Nat → Word) (input : List Char)

theorem debugRepl_talk (finish : Debugger) (output : List String) :
    DebugRepl host emu slots input finish output ↔
      NextInside emu ∧ ∃ lines,
        Talk host { emu, table := bpInit slots } (inputCommands input) finish lines ∧
          output = opening emu ++ lines := by
  simp only [DebugRepl, repl_talk]

theorem debugRepl_exists :
    (∃ finish output, DebugRepl host emu slots input finish output) ↔
      KeepsInside host emu slots input := by
  simp only [debugRepl_talk]
  rw [KeepsInside, ← talk_exists]
  constructor
  · rintro ⟨finish, output, shown, lines, talk, -⟩
    exact ⟨shown, finish, lines, talk⟩
  · rintro ⟨shown, finish, lines, talk⟩
    exact ⟨finish, _, shown, lines, talk, rfl⟩

theorem debugRepl_unique (finish other : Debugger) (output different : List String)
    (debugs : DebugRepl host emu slots input finish output)
    (again : DebugRepl host emu slots input other different) :
    other = finish ∧ different = output := by
  obtain ⟨-, lines, talk, rfl⟩ := (debugRepl_talk host emu slots input finish output).mp debugs
  obtain ⟨-, others, talks, rfl⟩ := (debugRepl_talk host emu slots input other different).mp again
  obtain ⟨rfl, rfl⟩ := talk_unique host _ finish other _ lines others talk talks
  exact ⟨rfl, rfl⟩

/-- What the debugger leaves is a session on the commands of its input. -/
theorem debugRepl_session (finish : Debugger) (output : List String)
    (debugs : DebugRepl host emu slots input finish output) :
    Session host { emu, table := bpInit slots } (inputCommands input) finish := by
  obtain ⟨-, lines, talk, -⟩ := (debugRepl_talk host emu slots input finish output).mp debugs
  exact talk_session host _ finish _ lines talk

/-- Whatever is typed, the debugger comes to an end in one way and with one output, just where
    what it shows lies in the array. The machine is then in a state of its own run, no step of
    which was made while it was stopped, and the breakpoints are those that the text has
    set. -/
theorem debugger_transparent :
    ((∃! result : Debugger × List String,
        DebugRepl host emu slots input result.1 result.2) ↔ KeepsInside host emu slots input) ∧
      ∀ finish output, DebugRepl host emu slots input finish output →
        RunsOn host emu finish.emu ∧ Tracks (inputCommands input) finish.table := by
  constructor
  · rw [← debugRepl_exists]
    constructor
    · rintro ⟨⟨finish, output⟩, debugs, -⟩
      exact ⟨finish, output, debugs⟩
    · rintro ⟨finish, output, debugs⟩
      refine ⟨(finish, output), debugs, fun ⟨other, different⟩ again => ?_⟩
      obtain ⟨rfl, rfl⟩ :=
        debugRepl_unique host emu slots input finish other output different debugs again
      rfl
  · intro finish output debugs
    have session := debugRepl_session host emu slots input finish output debugs
    refine ⟨session_runsOn host _ finish _ session, ?_⟩
    exact represented_tracks _ finish.table
      (session_represents host _ finish _ (bpInit_represents slots) session)

end Transparency

end RvEmu.DebuggerTalks
