import RvEmu.DebuggerTalks

/-!
# Scripts of the debugger

Every sequence of commands has a text that is read back as it was written, with the
addresses in the form in which the debugger prints them, so the debugger does with the text
what a talk on the commands does.

The arguments of a command count from the start of the line, so a command that is indented
loses them.
-/

namespace RvEmu.DebuggerScripts

open Numerals DebuggerTalks DisplayBounds

/-! ## Reading lines -/

/-- A line that fits is read whole. -/
theorem takeLine_line (text rest : List Char) (n : Nat) (fits : text.length < n)
    (single : '\n' ∉ text) : takeLine n (text ++ '\n' :: rest) = (text ++ ['\n'], rest) := by
  induction text generalizing n with
  | nil =>
    obtain ⟨m, rfl⟩ : ∃ m, n = m + 1 := ⟨n - 1, by omega⟩
    rfl
  | cons c text inductionHypothesis =>
    rw [List.length_cons] at fits
    obtain ⟨m, rfl⟩ : ∃ m, n = m + 1 := ⟨n - 1, by omega⟩
    have other : c ≠ '\n' := fun same => single (same ▸ List.mem_cons_self)
    rw [List.cons_append, takeLine, if_neg other,
      inductionHypothesis m (by omega) (fun member => single (List.mem_cons_of_mem _ member))]
    rfl

theorem fgets_line (text rest : List Char) (fits : text.length < 127) (single : '\n' ∉ text) :
    fgets (text ++ '\n' :: rest) = some (text ++ ['\n'], rest) := by
  have some : text ++ '\n' :: rest ≠ [] := fun empty => by
    have last := (List.append_eq_nil_iff.mp empty).2
    cases last
  rw [fgets, if_neg some, takeLine_line text rest 127 fits single]

/-- A character inside a line. -/
def Inline (c : Char) : Prop := c.toNat ≠ 0 ∧ c ≠ '\n' ∧ c ≠ '\r'

instance (c : Char) : Decidable (Inline c) :=
  inferInstanceAs (Decidable (c.toNat ≠ 0 ∧ c ≠ '\n' ∧ c ≠ '\r'))

/-- A text that fits on a line. -/
def Typed (text : List Char) : Prop := ∀ c ∈ text, Inline c

instance (text : List Char) : Decidable (Typed text) :=
  decidable_of_iff (text.all fun c => Inline c) (by simp only [Typed, List.all_eq_true,
    decide_eq_true_eq])

/-- The end of the line is taken off. -/
theorem trimLine_line (text : List Char) (typed : Typed text) :
    trimLine (text ++ ['\n']) = text := by
  have whole : ∀ c ∈ text ++ ['\n'], decide (c.toNat ≠ 0) = true := by
    intro c member
    rcases List.mem_append.mp member with inside | last
    · exact decide_eq_true (typed c inside).1
    · obtain rfl := List.mem_singleton.mp last
      decide
  rw [trimLine, List.takeWhile_eq_self_iff.mpr whole, List.rdropWhile_concat_pos _ _ _ (by decide)]
  apply List.rdropWhile_eq_self_iff.mpr
  intro nonempty ended
  obtain ⟨-, newline, carriage⟩ := typed _ (List.getLast_mem nonempty)
  simp only [Bool.or_eq_true, decide_eq_true_eq] at ended
  exact ended.elim newline carriage

/-! ## Reading numbers -/

/-- A number starts at its first digit. -/
theorem digit_starts (c : Char) (text : List Char) (base : Nat) (digit : isDigitOf base c = true) :
    signOf ((c :: text).dropWhile isSpace) = (false, c :: text) := by
  have above := isDigitOf_above base c digit
  have solid : isSpace c = false := by
    simp only [isSpace, Bool.or_eq_false_iff, Bool.and_eq_false_iff, decide_eq_false_iff_not]
    refine ⟨?_, Or.inr (by omega)⟩
    rintro rfl
    exact absurd above (by decide)
  rw [List.dropWhile_cons, solid, if_neg (by decide)]
  unfold signOf
  split
  · rename_i same
    cases same
    exact absurd above (by decide)
  · rename_i same
    cases same
    exact absurd above (by decide)
  · rfl

theorem digits_split (base : Nat) (digits : List Char)
    (all : ∀ c ∈ digits, isDigitOf base c = true) : splitDigits base digits = (digits, []) := by
  have split := splitDigits_append base digits [] all (fun c none => by cases none)
  rwa [List.append_nil] at split

/-- A decimal number is read back. -/
theorem strtoul_decimal (n : Nat) (small : n < 2 ^ 64) :
    strtoul (numeral 10 n) = some (BitVec.ofNat 64 n, []) := by
  have all := numeral_digits 10 (by decide) (by decide) n
  have value := numeral_value 10 (by decide) (by decide) n
  have shape : baseOf (numeral 10 n) = (10, numeral 10 n) ∨ n = 0 := by
    by_cases zero : n = 0
    · exact Or.inr zero
    · have head := numeral_head 10 (by decide) (by decide) n (by omega)
      left
      unfold baseOf
      split
      · rename_i text same
        rw [same] at head
        exact absurd rfl head
      · rename_i text same
        rw [same] at head
        exact absurd rfl head
      · rfl
  rcases shape with shape | rfl
  · cases digits : numeral 10 n with
    | nil => exact absurd digits (numeral_nonempty 10 n)
    | cons c text =>
      rw [digits] at all value shape
      rw [strtoul, digit_starts c text 10 (all c List.mem_cons_self)]
      dsimp only
      rw [shape]
      dsimp only
      rw [digits_split 10 _ all, if_neg (List.cons_ne_nil c text), value,
        if_neg (Nat.not_le.mpr small)]
      rfl
  · rfl

/-- An address is read back as it is printed, from a text that does not go on with a
    digit. -/
theorem strtoul_address (n : Nat) (small : n < 2 ^ 32) (rest : List Char)
    (ends : ∀ c, rest.head? = some c → isDigitOf 16 c = false) :
    strtoul ('0' :: 'x' :: (padded 16 8 n ++ rest)) = some (BitVec.ofNat 64 n, rest) := by
  have all := padded_digits 16 (by decide) (by decide) 8 n
  have value := padded_value 16 (by decide) (by decide) 8 n
  have split := splitDigits_append 16 (padded 16 8 n) rest all ends
  cases digits : padded 16 8 n with
  | nil => exact absurd digits (padded_nonempty 16 8 n)
  | cons c text =>
    rw [digits] at all value split
    rw [strtoul, digit_starts '0' _ 10 (by decide)]
    dsimp only
    have shape : baseOf ('0' :: 'x' :: (c :: text ++ rest)) = (16, c :: text ++ rest) := by
      rw [List.cons_append, baseOf, if_pos ⟨Or.inl rfl, all c List.mem_cons_self⟩]
    rw [shape]
    dsimp only
    rw [split, if_neg (List.cons_ne_nil c text), value, if_neg (Nat.not_le.mpr (by omega))]
    rfl

/-! ## Writing commands -/

/-- An address as the debugger prints it, `0x%08X`. -/
def addressText (addr : Word) : List Char := '0' :: 'x' :: padded 16 8 addr.toNat

/-- An address and a count. -/
def rangeText (addr n : Word) : List Char := addressText addr ++ ' ' :: numeral 10 n.toNat

/-- The text of a command. Without an address, `d` has no count. -/
def commandText : Command → List Char
  | .s n => 's' :: ' ' :: numeral 10 n.toNat
  | .c => ['c']
  | .r => ['r']
  | .x none => ['x']
  | .x (some (addr, n)) => 'x' :: ' ' :: rangeText addr n
  | .d none _ => ['d']
  | .d (some addr) n => 'd' :: ' ' :: rangeText addr n
  | .b none => ['b']
  | .b (some addr) => 'b' :: ' ' :: addressText addr
  | .bl => ['b', 'l']
  | .bd none => ['b', 'd']
  | .bd (some addr) => 'b' :: 'd' :: ' ' :: addressText addr
  | .bc => ['b', 'c']
  | .h => ['h']
  | .unknown cmd => cmd

/-- The text of a sequence of commands, each on a line. -/
def script (commands : List Command) : List Char :=
  commands.flatMap fun command => commandText command ++ ['\n']

/-- A text that starts with a digit is no blank. -/
theorem digits_unblank (base : Nat) (digits : List Char)
    (all : ∀ c ∈ digits, isDigitOf base c = true) : digits.dropWhile isBlank = digits := by
  cases digits with
  | nil => rfl
  | cons c text =>
    have above := isDigitOf_above base c (all c List.mem_cons_self)
    have solid : isBlank c = false := by
      simp only [isBlank, Bool.or_eq_false_iff, decide_eq_false_iff_not]
      constructor
      · rintro rfl
        exact absurd above (by decide)
      · rintro rfl
        exact absurd above (by decide)
    rw [List.dropWhile_cons, solid, if_neg (by decide)]

theorem nextU32_decimal (n : Word) :
    nextU32 (numeral 10 n.toNat) = some (n, []) := by
  have all := numeral_digits 10 (by decide) (by decide) n.toNat
  have below := n.isLt
  rw [nextU32, digits_unblank 10 _ all, if_neg (numeral_nonempty 10 n.toNat),
    strtoul_decimal n.toNat (by omega), Option.map_some]
  dsimp only
  rw [BitVec.setWidth_ofNat_of_le (by decide), BitVec.ofNat_toNat, BitVec.setWidth_eq]

theorem nextU32_address (addr : Word) (rest : List Char)
    (ends : ∀ c, rest.head? = some c → isDigitOf 16 c = false) :
    nextU32 (addressText addr ++ rest) = some (addr, rest) := by
  have start : (addressText addr ++ rest).dropWhile isBlank =
      '0' :: 'x' :: (padded 16 8 addr.toNat ++ rest) := rfl
  rw [nextU32, start, if_neg (List.cons_ne_nil _ _),
    strtoul_address addr.toNat addr.isLt rest ends, Option.map_some]
  dsimp only
  rw [BitVec.setWidth_ofNat_of_le (by decide), BitVec.ofNat_toNat, BitVec.setWidth_eq]

theorem nextU32_last (addr : Word) : nextU32 (addressText addr) = some (addr, []) := by
  have read := nextU32_address addr [] fun c none => by cases none
  rwa [List.append_nil] at read

/-- A count is found behind an address. -/
theorem nextU32_range (addr n default : Word) :
    nextU32 (rangeText addr n) = some (addr, ' ' :: numeral 10 n.toNat) ∧
      nextOr default (' ' :: numeral 10 n.toNat) = (n, []) := by
  constructor
  · refine nextU32_address addr _ fun c head => ?_
    cases head
    decide
  · have blank : nextU32 (' ' :: numeral 10 n.toNat) = nextU32 (numeral 10 n.toNat) := rfl
    rw [nextOr, blank, nextU32_decimal]
    rfl

/-! ## Commands that are asked for -/

/-- A line asks for this command: all but a listing of no instruction, one without an address
    that is not of eight, and an unknown word that is no word or not unknown. -/
def Asked (command : Command) : Prop := ∃ line, (readLine line).command = some command

/-- What a line is read as. -/
theorem actionOf_cases (line : List Char) :
    (scanWord line = [] ∧ actionOf line = .blank) ∨
      (scanWord line ≠ [] ∧ verbs.lookup (scanWord line) = none ∧
        actionOf line = .unknown (scanWord line)) ∨
      ∃ verb args, actionOf line = Verb.action args verb := by
  rw [actionOf]
  split
  · rename_i empty
    exact .inl ⟨empty, rfl⟩
  · rename_i word
    split
    · rename_i missing
      exact .inr (.inl ⟨word, missing, rfl⟩)
    · rename_i verb known
      exact .inr (.inr ⟨verb, _, rfl⟩)

/-- A known word never asks for an unknown command, and its listings are of some
    instructions. -/
theorem verb_command (verb : Verb) (args : List Char) (command : Command)
    (asks : (verb.action args).command = some command) :
    (∀ cmd, command ≠ .unknown cmd) ∧
      ∀ addr n, command = .d addr n → n ≠ 0 ∧ (addr = none → n = 8) := by
  cases verb with
  | d =>
    have some : ∀ n : Word, (if n = 0 then 8 else n) ≠ 0 := by
      intro n
      split
      · decide
      · assumption
    rw [Verb.action] at asks
    cases read : nextU32 args with
    | none =>
      rw [read] at asks
      cases asks
      refine ⟨fun cmd => Command.noConfusion, fun addr n same => ?_⟩
      cases same
      refine ⟨some _, fun _ => ?_⟩
      rw [nextOr, read]
      rfl
    | some parts =>
      rw [read] at asks
      cases asks
      refine ⟨fun cmd => Command.noConfusion, fun addr n same => ?_⟩
      cases same
      exact ⟨some _, fun missing => by cases missing⟩
  | x | b | bd =>
    rw [Verb.action] at asks
    cases read : nextU32 args with
    | none =>
      rw [read] at asks
      cases asks
      exact ⟨fun cmd => Command.noConfusion, fun addr n => Command.noConfusion⟩
    | some parts =>
      rw [read] at asks
      cases asks
      exact ⟨fun cmd => Command.noConfusion, fun addr n => Command.noConfusion⟩
  | q => cases asks
  | s | c | r | bl | bc | h =>
    cases asks
    exact ⟨fun cmd => Command.noConfusion, fun addr n => Command.noConfusion⟩

/-- The words of unknown commands. -/
structure Stray (cmd : List Char) : Prop where
  nonempty : cmd ≠ []
  missing : verbs.lookup cmd = none
  short : cmd.length ≤ 15
  solid : ∀ c ∈ cmd, isSpace c = false
  inside : ∀ c ∈ cmd, c.toNat ≠ 0

/-- The first word of a line is one if it is no command. -/
theorem scanWord_unknown (line : List Char) (word : scanWord (trimLine line) ≠ [])
    (missing : verbs.lookup (scanWord (trimLine line)) = none) :
    Stray (scanWord (trimLine line)) := by
  have taken : ∀ c ∈ scanWord (trimLine line),
      c ∈ ((trimLine line).dropWhile isSpace).takeWhile (!isSpace ·) :=
    fun c member => List.mem_of_mem_take member
  refine ⟨word, missing, List.length_take_le _ _, fun c member => ?_, fun c member => ?_⟩
  · have solid := List.mem_takeWhile_imp (taken c member)
    rwa [Bool.not_eq_true'] at solid
  · have whole : c ∈ trimLine line :=
      (List.dropWhile_sublist _).mem ((List.takeWhile_sublist _).mem (taken c member))
    rw [trimLine] at whole
    have kept := List.mem_takeWhile_imp ((List.rdropWhile_prefix _ _).sublist.mem whole)
    exact of_decide_eq_true kept

/-- What is asked for is an unknown command or what a known word asks for. -/
theorem asked_cases (command : Command) (asked : Asked command) :
    (∃ cmd, command = .unknown cmd ∧ Stray cmd) ∨
      ∃ verb args, (Verb.action args verb).command = some command := by
  obtain ⟨line, asks⟩ := asked
  rw [readLine] at asks
  rcases actionOf_cases (trimLine line) with ⟨-, blank⟩ | ⟨word, missing, unknown⟩ |
    ⟨verb, args, known⟩
  · rw [blank] at asks
    cases asks
  · rw [unknown] at asks
    cases asks
    exact .inl ⟨_, rfl, scanWord_unknown line word missing⟩
  · rw [known] at asks
    exact .inr ⟨verb, args, asks⟩

theorem asked_disasm (addr : Option Word) (n : Word) (asked : Asked (.d addr n)) :
    n ≠ 0 ∧ (addr = none → n = 8) := by
  rcases asked_cases _ asked with ⟨cmd, other, -⟩ | ⟨verb, args, asks⟩
  · cases other
  · exact (verb_command verb args _ asks).2 addr n rfl

theorem asked_unknown (cmd : List Char) (asked : Asked (.unknown cmd)) : Stray cmd := by
  rcases asked_cases _ asked with ⟨other, same, stray⟩ | ⟨verb, args, asks⟩
  · cases same
    exact stray
  · exact absurd rfl ((verb_command verb args _ asks).1 cmd)

/-- An unknown word is read as itself. -/
theorem scanWord_stray (cmd : List Char) (stray : Stray cmd) : scanWord cmd = cmd := by
  have solid : ∀ c ∈ cmd, (!isSpace c) = true := fun c member => by
    rw [stray.solid c member]
    rfl
  have front : cmd.dropWhile isSpace = cmd := by
    cases cmd with
    | nil => rfl
    | cons c text =>
      rw [List.dropWhile_cons, stray.solid c List.mem_cons_self, if_neg (by decide)]
  rw [scanWord, front, List.takeWhile_eq_self_iff.mpr solid, List.take_of_length_le stray.short]

/-- The text of a command asks for it. -/
theorem commandText_asks (command : Command) (asked : Asked command) :
    (actionOf (commandText command)).command = some command := by
  cases command with
  | s n =>
    have all := numeral_digits 10 (by decide) (by decide) n.toNat
    change some (Command.s (nextOr 1 ((numeral 10 n.toNat).dropWhile isBlank)).1) = _
    rw [nextOr, digits_unblank 10 _ all, nextU32_decimal]
    rfl
  | x range =>
    cases range with
    | none => rfl
    | some range =>
      obtain ⟨addr, n⟩ := range
      obtain ⟨first, second⟩ := nextU32_range addr n 64
      change (Verb.action (rangeText addr n) .x).command = _
      rw [Verb.action, first]
      dsimp only
      rw [second]
      rfl
  | d addr n =>
    obtain ⟨some, eight⟩ := asked_disasm addr n asked
    cases addr with
    | none =>
      rw [eight rfl]
      rfl
    | some addr =>
      obtain ⟨first, second⟩ := nextU32_range addr n 8
      change (Verb.action (rangeText addr n) .d).command = _
      rw [Verb.action, first]
      dsimp only
      rw [second, if_neg some]
      rfl
  | b addr =>
    cases addr with
    | none => rfl
    | some addr =>
      change (Verb.action (addressText addr) .b).command = _
      rw [Verb.action, nextU32_last]
      rfl
  | bd addr =>
    cases addr with
    | none => rfl
    | some addr =>
      change (Verb.action (addressText addr) .bd).command = _
      rw [Verb.action, nextU32_last]
      rfl
  | unknown cmd =>
    have stray := asked_unknown cmd asked
    rw [commandText, actionOf, scanWord_stray cmd stray, if_neg stray.nonempty, stray.missing]
    rfl
  | c | r | bl | bc | h => rfl

/-! ## They fit on a line -/

/-- Digits stand behind the control characters. -/
theorem digits_typed (base : Nat) (text : List Char) (all : ∀ c ∈ text, isDigitOf base c = true) :
    Typed text := by
  intro c member
  have above := isDigitOf_above base c (all c member)
  refine ⟨by omega, ?_, ?_⟩
  · rintro rfl
    exact absurd above (by decide)
  · rintro rfl
    exact absurd above (by decide)

theorem addressText_line (addr : Word) :
    Typed (addressText addr) ∧ (addressText addr).length = 10 := by
  have typed := digits_typed 16 _ (padded_digits 16 (by decide) (by decide) 8 addr.toNat)
  refine ⟨List.forall_mem_cons.mpr ⟨by decide, List.forall_mem_cons.mpr ⟨by decide, typed⟩⟩, ?_⟩
  change (padded 16 8 addr.toNat).length + 1 + 1 = 10
  rw [padded_length 16 8 addr.toNat (by decide) (by decide) addr.isLt]

theorem count_line (n : Word) :
    Typed (numeral 10 n.toNat) ∧ (numeral 10 n.toNat).length ≤ 10 := by
  have below := n.isLt
  refine ⟨digits_typed 10 _ (numeral_digits 10 (by decide) (by decide) n.toNat), ?_⟩
  rw [numeral, List.length_map]
  exact (Nat.length_toDigits_le_iff (by decide) (by decide)).mpr (by omega)

theorem rangeText_line (addr n : Word) :
    Typed (rangeText addr n) ∧ (rangeText addr n).length ≤ 21 := by
  obtain ⟨front, long⟩ := addressText_line addr
  obtain ⟨back, short⟩ := count_line n
  constructor
  · exact List.forall_mem_append.mpr ⟨front, List.forall_mem_cons.mpr ⟨by decide, back⟩⟩
  · rw [rangeText, List.length_append, List.length_cons]
    omega

/-- Arguments fit behind the word of a command. -/
theorem behind_line (word text : List Char) (typed : Typed word) (brief : word.length ≤ 3)
    (behind : Typed text) (short : text.length ≤ 21) :
    Typed (word ++ text) ∧ (word ++ text).length < 127 := by
  refine ⟨List.forall_mem_append.mpr ⟨typed, behind⟩, ?_⟩
  rw [List.length_append]
  omega

theorem stray_line (cmd : List Char) (stray : Stray cmd) : Typed cmd ∧ cmd.length < 127 := by
  refine ⟨fun c member => ⟨stray.inside c member, ?_, ?_⟩,
    Nat.lt_of_le_of_lt stray.short (by decide)⟩
  · rintro rfl
    exact absurd (stray.solid _ member) (by decide)
  · rintro rfl
    exact absurd (stray.solid _ member) (by decide)

theorem commandText_line (command : Command) (asked : Asked command) :
    Typed (commandText command) ∧ (commandText command).length < 127 := by
  cases command with
  | s n =>
    obtain ⟨typed, short⟩ := count_line n
    exact behind_line ['s', ' '] _ (by decide) (by decide) typed (Nat.le_trans short (by decide))
  | x parts =>
    cases parts with
    | none => exact ⟨by decide, by decide⟩
    | some parts =>
      obtain ⟨typed, short⟩ := rangeText_line parts.1 parts.2
      exact behind_line ['x', ' '] _ (by decide) (by decide) typed short
  | d addr n =>
    cases addr with
    | none => exact behind_line ['d'] [] (by decide) (by decide) (by decide) (by decide)
    | some addr =>
      obtain ⟨typed, short⟩ := rangeText_line addr n
      exact behind_line ['d', ' '] _ (by decide) (by decide) typed short
  | b addr =>
    cases addr with
    | none => exact ⟨by decide, by decide⟩
    | some addr =>
      obtain ⟨typed, long⟩ := addressText_line addr
      exact behind_line ['b', ' '] _ (by decide) (by decide) typed
        (le_of_eq_of_le long (by decide))
  | bd addr =>
    cases addr with
    | none => exact ⟨by decide, by decide⟩
    | some addr =>
      obtain ⟨typed, long⟩ := addressText_line addr
      exact behind_line ['b', 'd', ' '] _ (by decide) (by decide) typed
        (le_of_eq_of_le long (by decide))
  | unknown cmd => exact stray_line cmd (asked_unknown cmd asked)
  | c | r | bl | bc | h => exact ⟨by decide, by decide⟩

/-! ## Scripts are read back -/

/-- The line of a command is read as that command. -/
theorem script_line (command : Command) (commands : List Command) (asked : Asked command) :
    fgets (script (command :: commands)) =
        some (commandText command ++ ['\n'], script commands) ∧
      (readLine (commandText command ++ ['\n'])).command = some command := by
  obtain ⟨typed, short⟩ := commandText_line command asked
  constructor
  · rw [script, List.flatMap_cons, List.append_assoc]
    exact fgets_line (commandText command) (script commands) short
      fun newline => (typed _ newline).2.1 rfl
  · rw [readLine, trimLine_line _ typed]
    exact commandText_asks command asked

theorem lineCommands_script (n : Nat) (commands : List Command)
    (asked : ∀ command ∈ commands, Asked command) (enough : (script commands).length ≤ n) :
    lineCommands n (script commands) = commands := by
  induction commands generalizing n with
  | nil =>
    cases n with
    | zero => rfl
    | succ n => rfl
  | cons command commands inductionHypothesis =>
    obtain ⟨read, asks⟩ := script_line command commands (asked command List.mem_cons_self)
    have shorter := fgets_shorter _ _ _ read
    have stays : readLine (commandText command ++ ['\n']) ≠ .quit := by
      intro quits
      rw [quits] at asks
      cases asks
    obtain ⟨m, rfl⟩ : ∃ m, n = m + 1 := ⟨n - 1, by omega⟩
    rw [lineCommands, read]
    dsimp only
    rw [if_neg stays, asks, Option.toList_some, List.singleton_append,
      inductionHypothesis m (fun other member => asked other (List.mem_cons_of_mem _ member))
        (by omega)]

/-- Every sequence of commands that lines ask for is read back from its text, so the debugger
    does and prints with the text what a talk on the commands does and prints. -/
theorem script_session (host : HostFloat) (start finish : Debugger) (lines : List String)
    (commands : List Command) (asked : ∀ command ∈ commands, Asked command) :
    inputCommands (script commands) = commands ∧
      (Repl host start (script commands) finish lines ↔
        Talk host start commands finish lines) := by
  have same : inputCommands (script commands) = commands :=
    lineCommands_script _ commands asked (Nat.le_refl _)
  refine ⟨same, ?_⟩
  rw [repl_talk, same]

/-- A debugger with a new machine and no breakpoints. -/
def freshDebugger : Debugger where
  emu := emuInit fun _ => 0
  table := bpInit fun _ => 0

/-- A dump, listings with and without arguments, a breakpoint and a word that is no command. -/
def dumpCommands : List Command :=
  [.x (some (0x1000, 16)), .d (some 0x1000) 4, .b (some 0x2000), .unknown "list".toList,
    .d none 8]

/-- They are typed and read back, and the debugger gets through them. -/
theorem dumps_read :
    inputCommands "x 0x00001000 16\nd 0x00001000 4\nb 0x00002000\nlist\nd\n".toList =
        dumpCommands ∧
      ∃ finish lines,
        Repl idleHost freshDebugger
          "x 0x00001000 16\nd 0x00001000 4\nb 0x00002000\nlist\nd\n".toList finish lines := by
  have asked : ∀ command ∈ dumpCommands, Asked command := by
    simp only [dumpCommands, List.forall_mem_cons]
    exact ⟨⟨"x 0x1000 16".toList, by decide⟩, ⟨"d 0x1000 4".toList, by decide⟩,
      ⟨"b 0x2000".toList, by decide⟩, ⟨"list".toList, by decide⟩, ⟨"d".toList, by decide⟩,
      fun _ none => by cases none⟩
  have text : script dumpCommands =
      "x 0x00001000 16\nd 0x00001000 4\nb 0x00002000\nlist\nd\n".toList := by decide
  have read := fun finish lines =>
    script_session idleHost freshDebugger finish lines dumpCommands asked
  rw [text] at read
  refine ⟨(read freshDebugger []).1, ?_⟩
  have dump : DumpInside freshDebugger.emu.mem 0x1000 16 :=
    (dumpInside_iff _ _ _).mpr (.inr (by decide))
  have listing : Command.Inside idleHost freshDebugger (.d (some 0x1000) 4) :=
    (disasmInside_iff _ 4 0x1000).mpr (.inr (by decide))
  have last : Command.Inside idleHost
      { freshDebugger with table := bpAdd freshDebugger.table 0x2000 } (.d none 8) :=
    (disasmInside_iff _ 8 _).mpr (.inr (by decide))
  exact ⟨_, _, (read _ _).2.mpr
    (.next _ _ _ _ _ _ _ dump (.x _) (.x _ _)
      (.next _ _ _ _ _ _ _ listing (.d _ _) (.d _ _)
        (.next _ _ _ _ _ _ _ trivial (.b _) (.b _)
          (.next _ _ _ _ _ _ _ trivial (.unknown _) (.unknown _)
            (.next _ _ _ _ _ _ _ last (.d _ _) (.d _ _) (.done _))))))⟩

/-! ## Indented commands -/

/-- A character of a word that no number starts with. -/
def Wordy (c : Char) : Prop :=
  isSpace c = false ∧ isDigitOf 10 c = false ∧ c ≠ '-' ∧ c ≠ '+' ∧ c ≠ '0'

instance (c : Char) : Decidable (Wordy c) :=
  inferInstanceAs
    (Decidable (isSpace c = false ∧ isDigitOf 10 c = false ∧ c ≠ '-' ∧ c ≠ '+' ∧ c ≠ '0'))

/-- The words of the commands. -/
theorem verb_word (cmd : List Char) (verb : Verb) (known : verbs.lookup cmd = some verb) :
    cmd ≠ [] ∧ cmd.length ≤ 15 ∧ ∀ c ∈ cmd, Wordy c := by
  obtain ⟨before, after, table, -⟩ := List.lookup_eq_some_iff.mp known
  have member : (cmd, verb) ∈ verbs := by
    rw [table]
    exact List.mem_append_right before List.mem_cons_self
  have all : ∀ entry ∈ verbs,
      entry.1 ≠ [] ∧ entry.1.length ≤ 15 ∧ (entry.1.all fun c => Wordy c) = true := by
    decide
  obtain ⟨nonempty, short, wordy⟩ := all (cmd, verb) member
  exact ⟨nonempty, short, fun c inside => of_decide_eq_true (List.all_eq_true.mp wordy c inside)⟩

/-- Spaces cover blanks. -/
theorem blanks_spaces (text : List Char) :
    (text.dropWhile isBlank).dropWhile isSpace = text.dropWhile isSpace := by
  induction text with
  | nil => rfl
  | cons c text inductionHypothesis =>
    rw [List.dropWhile_cons]
    split
    · rename_i blank
      have space : isSpace c = true := by
        simp only [isBlank, Bool.or_eq_true, decide_eq_true_eq] at blank
        rcases blank with rfl | rfl
        · decide
        · decide
      rw [inductionHypothesis, List.dropWhile_cons, if_pos space]
    · rfl

/-- There is no number where a word stands. -/
theorem nextU32_word (text rest : List Char) (c : Char) (wordy : Wordy c)
    (starts : text.dropWhile isSpace = c :: rest) : nextU32 text = none := by
  obtain ⟨-, digit, minus, plus, zero⟩ := wordy
  have sign : signOf (c :: rest) = (false, c :: rest) := by
    unfold signOf
    split
    · rename_i same
      cases same
      exact absurd rfl minus
    · rename_i same
      cases same
      exact absurd rfl plus
    · rfl
  have base : baseOf (c :: rest) = (10, c :: rest) := by
    unfold baseOf
    split
    · rename_i same
      cases same
      exact absurd rfl zero
    · rename_i same
      cases same
      exact absurd rfl zero
    · rfl
  have split : splitDigits 10 (c :: rest) = ([], c :: rest) := by
    rw [splitDigits, List.takeWhile_cons, List.dropWhile_cons, digit]
    rfl
  have missing : strtoul (text.dropWhile isBlank) = none := by
    rw [strtoul, blanks_spaces, starts, sign]
    dsimp only
    rw [base]
    dsimp only
    rw [split, if_pos rfl]
  rw [nextU32, missing]
  split
  · rfl
  · rfl

/-- Without a number the arguments are as good as missing. -/
theorem action_missing (verb : Verb) (args : List Char) (missing : nextU32 args = none) :
    verb.action args = verb.action [] := by
  have empty : nextU32 [] = none := rfl
  cases verb with
  | s | x | d | b | bd => simp only [Verb.action, nextOr, missing, empty, Option.getD_none]
  | c | r | bl | bc | h | q => rfl

section Lines

variable (indent cmd args : List Char) (verb : Verb) (spaces : ∀ c ∈ indent, isSpace c = true)
  (known : verbs.lookup cmd = some verb) (apart : ∀ c, args.head? = some c → isSpace c = true)
include known

include spaces apart in
/-- The first word of a line is found behind its indentation. -/
theorem scanWord_line : scanWord (indent ++ (cmd ++ args)) = cmd := by
  obtain ⟨nonempty, short, wordy⟩ := verb_word cmd verb known
  have solid : ∀ c ∈ cmd, (!isSpace c) = true := fun c member => by rw [(wordy c member).1]; rfl
  have front : (cmd ++ args).dropWhile isSpace = cmd ++ args := by
    cases cmd with
    | nil => exact absurd rfl nonempty
    | cons c text =>
      rw [List.cons_append, List.dropWhile_cons, (wordy c List.mem_cons_self).1,
        if_neg (by decide)]
  have behind : args.takeWhile (!isSpace ·) = [] := by
    cases args with
    | nil => rfl
    | cons c text => rw [List.takeWhile_cons, apart c rfl, Bool.not_true, if_neg (by decide)]
  rw [scanWord, List.dropWhile_append_of_pos spaces, front, List.takeWhile_append_of_pos solid,
    behind, List.append_nil, List.take_of_length_le short]

include spaces in
/-- Behind as many characters as it has, an indented command is not over yet. -/
theorem drop_indented (indented : indent ≠ []) :
    nextU32 (((indent ++ (cmd ++ args)).drop cmd.length).dropWhile isBlank) = none := by
  obtain ⟨nonempty, -, wordy⟩ := verb_word cmd verb known
  have some := List.length_pos_iff.mpr indented
  have left : cmd.drop (cmd.length - indent.length) ≠ [] := by
    have long := List.length_pos_iff.mpr nonempty
    rw [ne_eq, List.drop_eq_nil_iff]
    omega
  obtain ⟨c, text, shape⟩ := List.exists_cons_of_ne_nil left
  have member : c ∈ cmd := List.mem_of_mem_drop (shape ▸ List.mem_cons_self)
  have starts : ((indent ++ (cmd ++ args)).drop cmd.length).dropWhile isSpace =
      c :: (text ++ args) := by
    rw [List.drop_append, List.drop_append_of_le_length (by omega), shape]
    rw [List.dropWhile_append_of_pos (fun d inside => spaces d (List.mem_of_mem_drop inside)),
      List.cons_append, List.dropWhile_cons, (wordy c member).1, if_neg (by decide)]
  exact nextU32_word _ (text ++ args) c (wordy c member) (by rw [blanks_spaces]; exact starts)

include spaces apart in
/-- A command that is not indented gets its arguments. One that is indented is performed as
    if it had none. -/
theorem actionOf_indented :
    actionOf (indent ++ (cmd ++ args)) =
      verb.action (if indent = [] then args.dropWhile isBlank else []) := by
  have word := scanWord_line indent cmd args verb spaces known apart
  obtain ⟨nonempty, -, -⟩ := verb_word cmd verb known
  rw [actionOf, word, if_neg nonempty, known]
  dsimp only
  by_cases flush : indent = []
  · rw [if_pos flush, flush, List.nil_append, List.drop_left]
  · rw [if_neg flush, action_missing verb _
      (drop_indented indent cmd args verb spaces known flush)]

end Lines

/-- A breakpoint that is typed behind a space is not set. -/
theorem indented_breakpoint :
    actionOf (" b 0x1000".toList) = .addUsage ∧ actionOf ("b 0x1000".toList) = .add 0x1000 :=
  ⟨actionOf_indented [' '] ['b'] " 0x1000".toList .b (List.all_eq_true.mp (by decide)) rfl
      (fun _ head => by cases head; rfl),
    actionOf_indented [] ['b'] " 0x1000".toList .b (fun _ none => by cases none) rfl
      (fun _ head => by cases head; rfl)⟩

end RvEmu.DebuggerScripts
