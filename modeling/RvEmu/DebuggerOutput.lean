import RvEmu.Debug
import RvEmu.Disasm
import RvEmu.MemoryBounds

/-!
# The output of the debugger

Everything that `debug_repl` prints is whole lines, but for its prompts. Output is a list
of lines without their newlines here. The prompts are left out, and so is what the guest
prints itself.

Three displays read memory: the instruction at an address, a listing and a dump. The
first two go through the accessors, whose bounds tests wrap. `memory_dump` has a test of
its own, which wraps as well, and reads the array without another. Where such a display
reads past the array, C promises nothing about it, so each is given the condition that
it does not.
-/

namespace RvEmu

open MemoryBounds

/-! ## Formats -/

/-- `%02X`. -/
def formatByte (value : Word) : String :=
  String.ofList (List.replicate (2 - (hexDigits value).length) '0' ++ hexDigits value)

/-- `0x%08X`. -/
def formatWord (value : Word) : String :=
  "0x" ++ String.ofList
    (List.replicate (8 - (hexDigits value).length) '0' ++ hexDigits value)

/-- `%-*s`. -/
def formatLeft (width : Nat) (text : String) : String :=
  text ++ String.ofList (List.replicate (width - text.length) ' ')

/-- `%u` of a bit of a register. -/
def formatBit (value mask : Word) : String := if value &&& mask ≠ 0 then "1" else "0"

/-! ## One instruction -/

/-- `  0x%08X: %s%s`. -/
def instLine (addr : Word) (compressed : Bool) (inst : DecodedInst) : String :=
  "  " ++ formatWord addr ++ ": " ++ (if compressed then "[c] " else "") ++ decodeDisasm inst

/-- `show_inst`. -/
def showInst (emu : Emulator) (addr : Word) : String :=
  match fetchDecoded emu addr with
  | .unmapped => "  " ++ formatWord addr ++ ": <unmapped>"
  | .illegal raw => "  " ++ formatWord addr ++ ": .word " ++ formatWord raw
  | .decoded inst _ compressed => instLine addr compressed inst

/-- `state_name`. -/
def stateName : EmuState → String
  | .running => "RUNNING"
  | .halted => "HALTED"
  | .exception => "EXCEPTION"

/-- `show_status`; a level that is not machine mode is printed as `U`. -/
def showStatus (emu : Emulator) : String :=
  "[" ++ stateName emu.state ++ "] pc=" ++ formatWord emu.rf.pc ++ " priv=" ++
    (if emu.priv = privM then "M" else "U") ++
    (if emu.csr.satp &&& satpModeBit ≠ 0 then
      " satp=Sv32@" ++ formatHex ((emu.csr.satp &&& satpPpnMask) <<< 12)
    else "") ++
    (if emu.state = .halted then "  exit_code=" ++ formatUnsigned emu.exitCode else "")

/-! ## Stepping and continuing -/

/-- What `cmd_step` prints behind its loop. -/
def stepsEnd (emu : Emulator) : List String :=
  if emu.state = .running then ["[next]", showInst emu emu.rf.pc] else [showStatus emu]

/-- What `cmd_step` prints before a step. -/
def stepLines (emu : Emulator) : List String :=
  ["[step] pc=" ++ formatWord emu.rf.pc, showInst emu emu.rf.pc]

/-- What `cmd_step` prints, with `n` steps to go. -/
def cmdStepOutput (host : HostFloat) : Nat → Emulator → List String
  | 0, emu => stepsEnd emu
  | n + 1, emu =>
    if emu.state ≠ .running then ["emulator is not running", showStatus emu]
    else
      stepLines emu ++
        match emuStep host emu with
        | (.failed, emu) => stepsEnd emu
        | (_, emu) => cmdStepOutput host n emu

/-- What `cmd_continue` prints. -/
def cmdContinueOutput (result : ContinueResult) : List String :=
  match result.exit with
  | .limit =>
    ["stopped after " ++ formatUnsigned continueLimit ++ " steps (limit). Use 's' to continue."]
  | .status => [showStatus result.emu]
  | .breakpoint =>
    ["[break] hit breakpoint", showStatus result.emu, showInst result.emu result.emu.rf.pc,
      "executed " ++ formatUnsigned result.steps ++ " instructions"]

/-! ## Memory -/

/-- The loop of `cmd_disasm` at an address, with `n` instructions to go. -/
def cmdDisasm (emu : Emulator) : Nat → Word → List String
  | 0, _ => []
  | n + 1, addr =>
    match fetchDecoded emu addr with
    | .unmapped => ["  " ++ formatWord addr ++ ": <unmapped>"]
    | .illegal raw =>
      ("  " ++ formatWord addr ++ ": .word " ++ formatWord raw) ::
        cmdDisasm emu n (addr + if raw &&& 3 ≠ 3 then 2 else 4)
    | .decoded inst _ compressed =>
      instLine addr compressed inst :: cmdDisasm emu n (addr + inst.len.setWidth 32)

/-- The bytes that `memory_dump` goes through, from an address inside the array. -/
def dumpLength (mem : Memory) (start len : Word) : Word :=
  if start + len > mem.size then mem.size - start else len

/-- The loop of `memory_dump` at index `i`, with `left` bytes to go. `row` is the line that
has been begun. -/
def memoryDumpFrom (mem : Memory) (start : Word) : Nat → Word → String → List String
  | 0, i, row => if i &&& 0xF ≠ 0 then [row] else []
  | left + 1, i, row =>
    let begun := if i &&& 0xF = 0 then "  " ++ formatWord (start + i) ++ "  " else row
    let row := begun ++ formatByte ((mem.data (start + i)).setWidth 32) ++ " "
    if i &&& 0xF = 0xF then row :: memoryDumpFrom mem start left (i + 1) ""
    else memoryDumpFrom mem start left (i + 1) row

/-- `memory_dump`. -/
def memoryDump (mem : Memory) (start len : Word) : List String :=
  if start ≥ mem.size then []
  else
    let len := dumpLength mem start len
    ("Memory dump [" ++ formatWord start ++ " — " ++ formatWord (start + len - 1) ++ "]:") ::
      memoryDumpFrom mem start len.toNat 0 ""

/-! ## Registers -/

/-- A row of `regfile_dump`. Its names are those of the disassembler. -/
def regfileRow (rf : Regfile) (i : Nat) : String :=
  "│ x" ++ formatLeft 3 (toString i) ++ " │ " ++ formatLeft 8 (rn (BitVec.ofNat 5 i)) ++ " │ " ++
    formatWord (rf.regs (BitVec.ofNat 5 i)) ++ " │"

/-- `regfile_dump`. -/
def regfileDump (rf : Regfile) : List String :=
  ["┌──────┬──────────┬──────────┐",
    "│ reg  │  ABI     │   value  │",
    "├──────┼──────────┼──────────┤"] ++
  (List.range 32).map (regfileRow rf) ++
  ["├──────┴──────────┴──────────┤",
    "│ pc                       │ " ++ formatWord rf.pc ++ " │",
    "└──────────────────────────┘"]

/-- `csr_dump`. -/
def csrDump (csr : Csr) : List String :=
  ["CSR:",
    "  mstatus  = " ++ formatWord csr.mstatus ++ "  (MIE=" ++ formatBit csr.mstatus mstatusMie ++
      " MPIE=" ++ formatBit csr.mstatus mstatusMpie ++
      " MPP=" ++ formatUnsigned ((csr.mstatus &&& mstatusMppMask) >>> 11) ++ ")",
    "  satp     = " ++ formatWord csr.satp ++ "  (mode=" ++
      (if csr.satp &&& 0x80000000 ≠ 0 then "Sv32" else "bare") ++
      " root=" ++ formatHex ((csr.satp &&& 0x003FFFFF) <<< 12) ++ ")",
    "  mtvec    = " ++ formatWord csr.mtvec,
    "  mepc     = " ++ formatWord csr.mepc,
    "  mcause   = " ++ formatWord csr.mcause ++
      (if csr.mcause &&& mcauseIrqBit ≠ 0 then "  (interrupt)" else "  (exception)"),
    "  mtval    = " ++ formatWord csr.mtval,
    "  mie/mip  = " ++ formatWord csr.mie ++ " / " ++ formatWord csr.mip,
    "  mcycle   = " ++ formatUnsigned csr.mcycle,
    "  S-mode: sstatus=" ++ formatWord (csr.mstatus &&& sstatusMask) ++
      " (SIE=" ++ formatBit csr.mstatus mstatusSie ++
      " SPIE=" ++ formatBit csr.mstatus mstatusSpie ++
      " SPP=" ++ formatBit csr.mstatus mstatusSpp ++
      " SUM=" ++ formatBit csr.mstatus mstatusSum ++ ")",
    "  stvec    = " ++ formatWord csr.stvec ++ "  sepc = " ++ formatWord csr.sepc ++
      "  scause = " ++ formatWord csr.scause ++ "  stval = " ++ formatWord csr.stval,
    "  medeleg  = " ++ formatWord csr.medeleg ++ "  mideleg = " ++ formatWord csr.mideleg,
    "  fcsr     = 0x" ++ formatByte (((csr.frm &&& 7) <<< 5) ||| (csr.fflags &&& 0x1F)) ++
      "  (frm=" ++ formatUnsigned (csr.frm &&& 7) ++
      " fflags=0x" ++ formatByte (csr.fflags &&& 0x1F) ++ ")"]

/-- `cmd_regs`. -/
def cmdRegs (emu : Emulator) : List String := regfileDump emu.rf ++ csrDump emu.csr

/-! ## Breakpoints -/

/-- What `bp_add` prints. -/
def bpAddOutput (table : BreakpointTable) (addr : Word) : String :=
  if (bpFind table addr).isSome then "breakpoint already set at " ++ formatWord addr
  else if table.count ≥ maxBreakpoints then
    "breakpoint table full (" ++ toString maxBreakpoints ++ ")"
  else "breakpoint " ++ toString table.count ++ " set at " ++ formatWord addr

/-- What `bp_del` prints. -/
def bpDelOutput (table : BreakpointTable) (addr : Word) : String :=
  match bpFind table addr with
  | none => "no breakpoint at " ++ formatWord addr
  | some _ => "breakpoint at " ++ formatWord addr ++ " deleted"

/-- `bp_list`. -/
def bpList (table : BreakpointTable) : List String :=
  if table.count = 0 then ["no breakpoints"]
  else
    (List.range table.count).map fun i =>
      "  [" ++ toString i ++ "] " ++ formatWord (table.slots i)

/-! ## Commands -/

/-- `print_help`. -/
def printHelp : List String :=
  ["commands:",
    "  s [n]         step n instructions (default 1)",
    "  c             continue until breakpoint / halt",
    "  r             dump registers and CSRs",
    "  x <addr> [n]  dump n bytes of memory (default 64)",
    "  d [addr] [n]  disassemble n instructions (default: pc, 8)",
    "  b <addr>      set breakpoint",
    "  bl            list breakpoints",
    "  bd <addr>     delete breakpoint",
    "  bc            clear all breakpoints",
    "  h             help",
    "  q             quit"]

/-- What one round of `debug_repl` prints. -/
inductive Prints (host : HostFloat) (now : Debugger) : Command → List String → Prop where
  | s (n : Word) : Prints host now (.s n) (cmdStepOutput host n.toNat now.emu)
  | c (result : ContinueResult) (returns : ContinueReturns host now.table now.emu result) :
      Prints host now .c (cmdContinueOutput result)
  | r : Prints host now .r (cmdRegs now.emu)
  | x (addr n : Word) : Prints host now (.x (some (addr, n))) (memoryDump now.emu.mem addr n)
  | xUsage : Prints host now (.x none) ["usage: x <addr> [len]"]
  | d (addr : Option Word) (n : Word) :
      Prints host now (.d addr n) (cmdDisasm now.emu n.toNat (addr.getD now.emu.rf.pc))
  | b (addr : Word) : Prints host now (.b (some addr)) [bpAddOutput now.table addr]
  | bUsage : Prints host now (.b none) ["usage: b <addr>"]
  | bl : Prints host now .bl (bpList now.table)
  | bd (addr : Word) : Prints host now (.bd (some addr)) [bpDelOutput now.table addr]
  | bdUsage : Prints host now (.bd none) ["usage: bd <addr>"]
  | bc : Prints host now .bc ["all breakpoints cleared"]
  | h : Prints host now .h printHelp
  | unknown (cmd : List Char) :
      Prints host now (.unknown cmd) ["unknown command: " ++ String.ofList cmd ++ " (try 'h')"]

/-- What `debug_repl` prints before its loop. -/
def opening (emu : Emulator) : List String :=
  ["", "=== RV32I Debugger ===", "Type 'h' for help, 'q' to quit.", showStatus emu] ++
    if emu.state = .running then [showInst emu emu.rf.pc] else []

/-! ## What the displays read -/

/-- The bytes that `fetch_decoded` reads lie in the array. It reads a word only behind a
halfword that is not compressed. -/
def FetchInside (emu : Emulator) (addr : Word) : Prop :=
  ∀ lo, memoryRead16 emu.mem addr = some lo →
    InBounds emu.mem addr 2 ∧
      (lo &&& 3 = 3 → ∀ raw, memoryRead32 emu.mem addr = some raw → InBounds emu.mem addr 4)

/-- Those of a display of the instruction that a running machine is at. -/
def NextInside (emu : Emulator) : Prop := emu.state = .running → FetchInside emu emu.rf.pc

/-- Those of `cmd_step`, with `n` steps to go. -/
def StepsInside (host : HostFloat) : Nat → Emulator → Prop
  | 0, emu => NextInside emu
  | n + 1, emu =>
    emu.state = .running →
      FetchInside emu emu.rf.pc ∧
        match emuStep host emu with
        | (.failed, emu) => NextInside emu
        | (_, emu) => StepsInside host n emu

/-- Those of `cmd_disasm`. -/
def DisasmInside (emu : Emulator) : Nat → Word → Prop
  | 0, _ => True
  | n + 1, addr =>
    FetchInside emu addr ∧
      match fetchDecoded emu addr with
      | .unmapped => True
      | .illegal raw => DisasmInside emu n (addr + if raw &&& 3 ≠ 3 then 2 else 4)
      | .decoded inst _ _ => DisasmInside emu n (addr + inst.len.setWidth 32)

/-- Those of `memory_dump`. -/
def DumpInside (mem : Memory) (start len : Word) : Prop :=
  start < mem.size →
    ∀ i, i < (dumpLength mem start len).toNat → start + BitVec.ofNat 32 i < mem.size

/-- What a command displays lies in the array. -/
def Command.Inside (host : HostFloat) (now : Debugger) : Command → Prop
  | .s n => StepsInside host n.toNat now.emu
  | .c =>
    ∀ result, ContinueReturns host now.table now.emu result → result.exit = .breakpoint →
      FetchInside result.emu result.emu.rf.pc
  | .x (some (addr, n)) => DumpInside now.emu.mem addr n
  | .d addr n => DisasmInside now.emu n.toNat (addr.getD now.emu.rf.pc)
  | _ => True

end RvEmu
