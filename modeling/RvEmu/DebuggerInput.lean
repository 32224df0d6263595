import Mathlib.Data.List.DropRight
import RvEmu.DebuggerOutput
import RvEmu.Foundation.Numerals

/-!
# The input of the debugger

`debug_repl` takes its commands from lines of text. A line is at most 127 characters, so a
longer one is read in pieces, each of which is a line of its own. The first word is the
command, and its arguments are looked for behind as many characters as the word has,
counted from the start of the line.

A number is read by `strtoul` with base 0 and cut to 32 bits. The library functions follow
the C standard, with 64 bits for an `unsigned long`. Characters of a file are `Char`s here.
-/

namespace RvEmu

open Numerals

/-! ## The C library -/

/-- `isspace`. -/
def isSpace (c : Char) : Bool := c = ' ' || (9 ≤ c.toNat && c.toNat ≤ 13)

/-- A sign in front of a number. -/
def signOf : List Char → Bool × List Char
  | '-' :: text => (true, text)
  | '+' :: text => (false, text)
  | text => (false, text)

/-- The base of a number that is not given one, and its digits. A `0x` without a digit of
sixteen is the zero before it. -/
def baseOf : List Char → Nat × List Char
  | '0' :: x :: d :: text =>
    if (x = 'x' ∨ x = 'X') ∧ isDigitOf 16 d then (16, d :: text) else (8, '0' :: x :: d :: text)
  | '0' :: text => (8, '0' :: text)
  | text => (10, text)

/-- `strtoul` with base 0: the value and where it ends, or `none` when there is no number.
A value of more than 64 bits is `ULONG_MAX`, and a minus sign negates any other. -/
def strtoul (text : List Char) : Option (DWord × List Char) :=
  let (negative, text) := signOf (text.dropWhile isSpace)
  let (base, text) := baseOf text
  let (digits, rest) := splitDigits base text
  if digits = [] then none
  else
    let value := valueOf base digits
    if 2 ^ 64 ≤ value then some (BitVec.allOnes 64, rest)
    else if negative then some (-BitVec.ofNat 64 value, rest)
    else some (BitVec.ofNat 64 value, rest)

/-- The characters of a line, of which there are at most so many: they end with a newline,
or where the text does. -/
def takeLine : Nat → List Char → List Char × List Char
  | 0, text => ([], text)
  | _ + 1, [] => ([], [])
  | n + 1, c :: text =>
    if c = '\n' then ([c], text)
    else ((takeLine n text).map (c :: ·) id)

/-- `fgets` into `line`; `none` is `NULL`, at the end of the file. -/
def fgets (input : List Char) : Option (List Char × List Char) :=
  if input = [] then none else some (takeLine 127 input)

/-- `sscanf` with `%15s`; the empty word is a failure. -/
def scanWord (line : List Char) : List Char :=
  ((line.dropWhile isSpace).takeWhile (!isSpace ·)).take 15

/-! ## Arguments -/

/-- The spaces and tabs that are skipped before an argument. -/
def isBlank (c : Char) : Bool := c = ' ' || c = '\t'

/-- `next_u32`; `none` is 0, and leaves the text where it was. -/
def nextU32 (text : List Char) : Option (Word × List Char) :=
  let text := text.dropWhile isBlank
  if text = [] then none
  else (strtoul text).map fun (value, rest) => (value.setWidth 32, rest)

/-- A number with a default, and what follows it. -/
def nextOr (default : Word) (text : List Char) : Word × List Char :=
  (nextU32 text).getD (default, text)

/-! ## Lines -/

/-- What a line asks for. The address of `d` is `none` where it is the pc. -/
inductive Action where
  | blank
  | step (n : Word)
  | continue
  | regs
  | dump (addr n : Word)
  | dumpUsage
  | disasm (addr : Option Word) (n : Word)
  | add (addr : Word)
  | addUsage
  | list
  | delete (addr : Word)
  | deleteUsage
  | clear
  | help
  | unknown (cmd : List Char)
  | quit
deriving DecidableEq

/-- The commands. -/
inductive Verb where
  | s
  | c
  | r
  | x
  | d
  | b
  | bl
  | bd
  | bc
  | h
  | q
deriving DecidableEq

/-- The strings that a word is compared with. -/
def verbs : List (List Char × Verb) :=
  [("s".toList, .s), ("step".toList, .s), ("c".toList, .c), ("continue".toList, .c),
    ("r".toList, .r), ("regs".toList, .r), ("x".toList, .x), ("d".toList, .d),
    ("dis".toList, .d), ("b".toList, .b), ("bl".toList, .bl), ("bd".toList, .bd),
    ("bc".toList, .bc), ("h".toList, .h), ("help".toList, .h), ("?".toList, .h),
    ("q".toList, .q), ("quit".toList, .q)]

/-- What a command asks for with its arguments. -/
def Verb.action (args : List Char) : Verb → Action
  | .s => .step (nextOr 1 args).1
  | .c => .continue
  | .r => .regs
  | .x =>
    match nextU32 args with
    | none => .dumpUsage
    | some (addr, args) => .dump addr (nextOr 64 args).1
  | .d =>
    let (addr, args) :=
      match nextU32 args with
      | none => (none, args)
      | some (addr, args) => (some addr, args)
    let n := (nextOr 8 args).1
    .disasm addr (if n = 0 then 8 else n)
  | .b =>
    match nextU32 args with
    | none => .addUsage
    | some (addr, _) => .add addr
  | .bl => .list
  | .bd =>
    match nextU32 args with
    | none => .deleteUsage
    | some (addr, _) => .delete addr
  | .bc => .clear
  | .h => .help
  | .q => .quit

/-- The line as a C string, without the ends of line. -/
def trimLine (line : List Char) : List Char :=
  (line.takeWhile (·.toNat ≠ 0)).rdropWhile fun c => c = '\n' || c = '\r'

/-- What `debug_repl` makes of the text of a line. -/
def actionOf (line : List Char) : Action :=
  let cmd := scanWord line
  if cmd = [] then .blank
  else
    match verbs.lookup cmd with
    | none => .unknown cmd
    | some verb => verb.action ((line.drop cmd.length).dropWhile isBlank)

/-- The lines of the input. -/
def readLine (line : List Char) : Action := actionOf (trimLine line)

/-! ## The loop -/

/-- The command that an action is. A blank line is none, and neither is `q`. -/
def Action.command : Action → Option Command
  | .blank => none
  | .step n => some (.s n)
  | .continue => some .c
  | .regs => some .r
  | .dump addr n => some (.x (some (addr, n)))
  | .dumpUsage => some (.x none)
  | .disasm addr n => some (.d addr n)
  | .add addr => some (.b (some addr))
  | .addUsage => some (.b none)
  | .list => some .bl
  | .delete addr => some (.bd (some addr))
  | .deleteUsage => some (.bd none)
  | .clear => some .bc
  | .help => some .h
  | .unknown cmd => some (.unknown cmd)
  | .quit => none

/-- The loop of `debug_repl` on an input, from one state to another, with the lines that it
prints. A command whose display goes past the array has no round. -/
inductive Repl (host : HostFloat) : Debugger → List Char → Debugger → List String → Prop where
  | ended (now : Debugger) (input : List Char) (read : fgets input = none) :
      Repl host now input now []
  | skip (now finish : Debugger) (input line rest : List Char) (lines : List String)
      (read : fgets input = some (line, rest)) (blank : readLine line = .blank)
      (goesOn : Repl host now rest finish lines) : Repl host now input finish lines
  | quit (now : Debugger) (input line rest : List Char) (read : fgets input = some (line, rest))
      (quits : readLine line = .quit) : Repl host now input now []
  | round (now after finish : Debugger) (input line rest : List Char) (command : Command)
      (shown lines : List String) (read : fgets input = some (line, rest))
      (asks : (readLine line).command = some command) (inside : command.Inside host now)
      (performs : Performs host now command after) (prints : Prints host now command shown)
      (goesOn : Repl host after rest finish lines) : Repl host now input finish (shown ++ lines)

/-- `debug_repl` on a machine: what it shows first lies in the array, and its loop does the
rest. The table of breakpoints is followed by `slots`. -/
def DebugRepl (host : HostFloat) (emu : Emulator) (slots : Nat → Word) (input : List Char)
    (finish : Debugger) (output : List String) : Prop :=
  NextInside emu ∧ ∃ lines,
    Repl host { emu, table := bpInit slots } input finish lines ∧ output = opening emu ++ lines

end RvEmu
