import Mathlib.Logic.Function.Basic
import RvEmu.Step

/-!
# The debugger

`debug_repl` reads one command after another and performs it on the machine and on
the table of breakpoints. Most commands only display something; what they print is a
matter of its own.

`fetch_decoded` reads and decodes one instruction for display. It repeats the
fetch of `emu_step` on physical memory: the address is neither translated nor
tested for alignment.
-/

namespace RvEmu

/-! ## The instruction at an address -/

/-- What `fetch_decoded` returns: 0 with the instruction, -1 or -2. The raw code is an
output as well; after -1 it is not set. -/
inductive FetchDecoded where
  | decoded (inst : DecodedInst) (raw : Word) (compressed : Bool)
  | unmapped
  | illegal (raw : Word)
deriving DecidableEq

def fetchDecoded (emu : Emulator) (addr : Word) : FetchDecoded :=
  match memoryRead16 emu.mem addr with
  | none => .unmapped
  | some lo =>
    if lo &&& 3 ≠ 3 then
      match expandCompressed lo with
      | none => .illegal (lo.setWidth 32)
      | some raw =>
        match decode raw with
        | none => .illegal (lo.setWidth 32)
        | some inst => .decoded { inst with len := 2 } (lo.setWidth 32) true
    else
      match memoryRead32 emu.mem addr with
      | none => .unmapped
      | some raw =>
        match decode raw with
        | none => .illegal raw
        | some inst => .decoded inst raw false

/-! ## The table of breakpoints -/

/-- `MAX_BREAKPOINTS`. -/
def maxBreakpoints : Nat := 32

/-- `breakpoints` and `bp_count`. The slots from 32 on are what lies after the array. -/
structure BreakpointTable where
  slots : Nat → Word
  count : Nat

/-- The static variables before the first command. -/
def bpInit (beyond : Nat → Word) : BreakpointTable where
  slots := fun i => if i < maxBreakpoints then 0 else beyond i
  count := 0

/-- The loop of `bp_find` at index `i`, with `left` indices to go. -/
def bpFindFrom (table : BreakpointTable) (addr : Word) : Nat → Nat → Option Nat
  | 0, _ => none
  | left + 1, i => if table.slots i = addr then some i else bpFindFrom table addr left (i + 1)

/-- `bp_find`; `none` is -1. -/
def bpFind (table : BreakpointTable) (addr : Word) : Option Nat :=
  bpFindFrom table addr table.count 0

/-- `bp_add`. -/
def bpAdd (table : BreakpointTable) (addr : Word) : BreakpointTable :=
  if (bpFind table addr).isSome then table
  else if table.count ≥ maxBreakpoints then table
  else { slots := Function.update table.slots table.count addr, count := table.count + 1 }

/-- The loop of `bp_del` at index `i`, with `left` indices to go. -/
def bpShiftFrom (slots : Nat → Word) : Nat → Nat → Nat → Word
  | 0, _ => slots
  | left + 1, i => bpShiftFrom (Function.update slots i (slots (i + 1))) left (i + 1)

/-- `bp_del`. -/
def bpDel (table : BreakpointTable) (addr : Word) : BreakpointTable :=
  match bpFind table addr with
  | none => table
  | some idx =>
    { slots := bpShiftFrom table.slots (table.count - (idx + 1)) idx
      count := table.count - 1 }

/-! ## Stepping and continuing -/

/-- `cmd_step`, with `n` steps to go. -/
def cmdStep (host : HostFloat) : Nat → Emulator → Emulator
  | 0, emu => emu
  | n + 1, emu =>
    if emu.state ≠ .running then emu
    else
      match emuStep host emu with
      | (.failed, emu) => emu
      | (_, emu) => cmdStep host n emu

/-- `CONTINUE_LIMIT`. -/
def continueLimit : Word := 10000000#32

/-- What `cmd_continue` prints when it returns: that it reached its limit, the state of
the machine, or that it hit a breakpoint. -/
inductive ContinueExit where
  | limit
  | status
  | breakpoint
deriving DecidableEq

/-- What a call of `cmd_continue` leaves: its count of steps, the number of times it called
`emu_step`, the machine, and what it printed. -/
structure ContinueResult where
  steps : Word
  calls : Nat
  emu : Emulator
  exit : ContinueExit

/-- The `while` loop of `cmd_continue` on fuel; `none` is out of fuel. -/
def cmdContinueWhile (host : HostFloat) (table : BreakpointTable) :
    Nat → Word → Nat → Emulator → Option ContinueResult
  | 0, _, _, _ => none
  | fuel + 1, steps, calls, emu =>
    if emu.state ≠ .running then some { steps, calls, emu, exit := .status }
    else if steps ≥ continueLimit then some { steps, calls, emu, exit := .limit }
    else
      match emuStep host emu with
      | (.failed, emu) => some { steps, calls := calls + 1, emu, exit := .status }
      | (_, emu) =>
        if emu.state ≠ .running then
          some { steps := steps + 1, calls := calls + 1, emu, exit := .status }
        -- After each instruction, so that the breakpoint it starts at does not stop it.
        else if (bpFind table emu.rf.pc).isSome then
          some { steps := steps + 1, calls := calls + 1, emu, exit := .breakpoint }
        else cmdContinueWhile host table fuel (steps + 1) (calls + 1) emu

/-- A call of `cmd_continue` returns with this result. -/
def ContinueReturns (host : HostFloat) (table : BreakpointTable) (emu : Emulator)
    (result : ContinueResult) : Prop :=
  ∃ enough, ∀ fuel, enough ≤ fuel → cmdContinueWhile host table fuel 0 0 emu = some result

/-! ## Commands -/

/-- The commands of `debug_repl` with their arguments. An address that `next_u32` cannot
read is `none`; that of `d` is then the pc. -/
inductive Command where
  | s (n : Word)
  | c
  | r
  | x (range : Option (Word × Word))
  | d (addr : Option Word) (n : Word)
  | b (addr : Option Word)
  | bl
  | bd (addr : Option Word)
  | bc
  | h
  | unknown (cmd : List Char)
deriving DecidableEq

/-- The state of `debug_repl`. -/
structure Debugger where
  emu : Emulator
  table : BreakpointTable

/-- What one round of `debug_repl` does to its state. Commands that display something leave
it as it is. -/
inductive Performs (host : HostFloat) (now : Debugger) : Command → Debugger → Prop where
  | s (n : Word) : Performs host now (.s n) { now with emu := cmdStep host n.toNat now.emu }
  | c (result : ContinueResult) (returns : ContinueReturns host now.table now.emu result) :
      Performs host now .c { now with emu := result.emu }
  | r : Performs host now .r now
  | x (range : Option (Word × Word)) : Performs host now (.x range) now
  | d (addr : Option Word) (n : Word) : Performs host now (.d addr n) now
  | b (addr : Word) : Performs host now (.b (some addr)) { now with table := bpAdd now.table addr }
  | bUsage : Performs host now (.b none) now
  | bl : Performs host now .bl now
  | bd (addr : Word) :
      Performs host now (.bd (some addr)) { now with table := bpDel now.table addr }
  | bdUsage : Performs host now (.bd none) now
  | bc : Performs host now .bc { now with table := { now.table with count := 0 } }
  | h : Performs host now .h now
  | unknown (cmd : List Char) : Performs host now (.unknown cmd) now

/-- The rounds of a sequence of commands. -/
inductive Session (host : HostFloat) (start : Debugger) : List Command → Debugger → Prop where
  | start : Session host start [] start
  | next (commands : List Command) (now after : Debugger) (command : Command)
      (earlier : Session host start commands now) (performs : Performs host now command after) :
      Session host start (commands ++ [command]) after

end RvEmu
