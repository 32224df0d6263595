import RvEmu.Compressed
import RvEmu.Execute
import RvEmu.Foundation.Runs

/-!
# One step and runs of the machine

`emu_step` checks the timer interrupt, fetches, decodes and executes. It returns
false exactly at the event `failed`; every other event advances the cycle
counter. The decoded instruction it also reports through a pointer is read by
none of its callers and is not part of the result here.
-/

namespace RvEmu

/-- The fetch stage of `emu_step`: the 32-bit word to decode and whether it was
compressed, or the cause and trap value of a fetch exception. -/
def emuFetch (emu : Emulator) (pc : Word) : Except (Word × Word) (Word × Bool) × Emulator :=
  match mmuTranslate emu pc .fetch with
  | (.error cause, emu) => (.error (cause, pc), emu)
  | (.ok fetchPa, emu) =>
    match memoryRead16 emu.mem fetchPa with
    | none => (.error (excInstAccess, pc), emu)
    | some lo =>
      if lo &&& 3 ≠ 3 then
        match expandCompressed lo with
        | none => (.error (excIllegalInst, lo.setWidth 32), emu)
        | some raw => (.ok (raw, true), emu)
      else if fetchPa &&& 0xFFF ≤ 0xFFC then
        match memoryRead32 emu.mem fetchPa with
        | none => (.error (excInstAccess, pc), emu)
        | some raw => (.ok (raw, false), emu)
      else
        -- Only two bytes are left in this page: the second half has its own translation.
        match mmuTranslate emu (pc + 2) .fetch with
        | (.error _, emu) => (.error (excInstAccess, pc), emu)
        | (.ok pa2, emu) =>
          match memoryRead16 emu.mem pa2 with
          | none => (.error (excInstAccess, pc), emu)
          | some hi => (.ok (lo.setWidth 32 ||| (hi.setWidth 32 <<< 16), false), emu)

/-- `emu->csr.mcycle++`, on every path that returns true. -/
def countCycle (result : Event × Emulator) : Event × Emulator :=
  if result.1 = .failed then result
  else
    (result.1,
      { result.2 with csr := { result.2.csr with mcycle := result.2.csr.mcycle + 1 } })

/-- The length `emu_step` records for a compressed instruction. -/
def withLength (inst : DecodedInst) (compressed : Bool) : DecodedInst :=
  if compressed then { inst with len := 2 } else inst

/-- `emu_step`. -/
def emuStep (host : HostFloat) (emu : Emulator) : Event × Emulator :=
  let pc := emu.rf.pc
  match trapCheckInterrupt emu pc with
  | (true, emu) => countCycle (.interrupted, emu)
  | (false, emu) =>
    if pc &&& 1 ≠ 0 then countCycle (raiseOrStop emu excInstMisaligned pc pc)
    else
      match emuFetch emu pc with
      | (.error (cause, tval), emu) => countCycle (raiseOrStop emu cause tval pc)
      | (.ok (raw, compressed), emu) =>
        match decode raw with
        | none => countCycle (raiseOrStop emu excIllegalInst raw pc)
        | some inst => countCycle (execute host emu (withLength inst compressed))

/-- The loop of `emu_run` on fuel: it stops at the step limit, when the machine
is not running, or when a step fails. -/
def emuRunLoop (host : HostFloat) : Nat → Emulator → Nat → Nat × Emulator
  | 0, emu, steps => (steps, emu)
  | fuel + 1, emu, steps =>
    if emu.state ≠ .running then (steps, emu)
    else
      match emuStep host emu with
      | (.failed, emu) => (steps, emu)
      | (_, emu) => emuRunLoop host fuel emu (steps + 1)

/-- `emu_run` with a positive step limit. -/
def emuRun (host : HostFloat) (emu : Emulator) (maxSteps : Nat) : Nat × Emulator :=
  emuRunLoop host maxSteps emu 0

/-- What a call of `emu_run` leaves: the count it returns, the machine, and the
number of times it called `emu_step`. -/
structure RunResult where
  steps : DWord
  calls : Nat
  emu : Emulator

/-- The `while` loop of `emu_run` with its limit, on fuel; `none` is out of fuel. -/
def emuRunWhile (host : HostFloat) (maxSteps : DWord) : Nat → RunResult → Option RunResult
  | 0, _ => none
  | fuel + 1, now =>
    if now.emu.state ≠ .running then some now
    else if maxSteps > 0 ∧ now.steps ≥ maxSteps then some now
    else
      match emuStep host now.emu with
      | (.failed, emu) => some { now with calls := now.calls + 1, emu := emu }
      | (_, emu) =>
        emuRunWhile host maxSteps fuel
          { steps := now.steps + 1, calls := now.calls + 1, emu := emu }

/-- A call of `emu_run` returns with this result. -/
def RunReturns (host : HostFloat) (maxSteps : DWord) (emu : Emulator) (result : RunResult) :
    Prop :=
  ∃ enough, ∀ fuel, enough ≤ fuel →
    emuRunWhile host maxSteps fuel { steps := 0, calls := 0, emu := emu } = some result

/-- The state after `n` steps of `emu_step`. -/
abbrev stateAfter (host : HostFloat) (start : Emulator) (n : Nat) : Emulator :=
  Runs.stateAt (emuStep host) start n

/-- The event of step `n`, counted from zero. -/
abbrev stepEvent (host : HostFloat) (start : Emulator) (n : Nat) : Event :=
  Runs.eventAt (emuStep host) start n

/-- The states reached from reset, with or without an image, by steps. -/
def Reachable (host : HostFloat) (emu : Emulator) : Prop :=
  ∃ start n, Boot start ∧ emu = stateAfter host start n

end RvEmu
