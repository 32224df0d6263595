import RvEmu.Machine

/-!
# Trap entry, return and the timer interrupt

`trap_raise` enters a handler: the supervisor's when the trap is delegated and
the machine runs below machine mode, the machine's otherwise. It refuses, with
nothing changed, when the selected vector is zero. `trap_mret` and `trap_sret`
undo the entry of their level from the saved bits of `mstatus`.
-/

namespace RvEmu

/-- Entry into the supervisor handler. -/
def enterSupervisor (emu : Emulator) (cause tval epc : Word) : Emulator :=
  let m := emu.csr.mstatus
  let m := if m &&& mstatusSie ≠ 0 then m ||| mstatusSpie else m &&& ~~~mstatusSpie
  let m := m &&& ~~~mstatusSie
  let m := if emu.priv = privS then m ||| mstatusSpp else m &&& ~~~mstatusSpp
  { emu with
    csr :=
      { emu.csr with sepc := epc &&& ~~~(0x3 : Word), scause := cause, stval := tval, mstatus := m }
    priv := privS
    rf := { emu.rf with pc := emu.csr.stvec } }

/-- Entry into the machine handler. -/
def enterMachine (emu : Emulator) (cause tval epc : Word) : Emulator :=
  let m := emu.csr.mstatus
  let m := if m &&& mstatusMie ≠ 0 then m ||| mstatusMpie else m &&& ~~~mstatusMpie
  let m := m &&& ~~~mstatusMie
  let m := (m &&& ~~~mstatusMppMask) ||| ((emu.priv &&& 0x3) <<< 11)
  { emu with
    csr :=
      { emu.csr with mepc := epc &&& ~~~(0x3 : Word), mcause := cause, mtval := tval, mstatus := m }
    priv := privM
    rf := { emu.rf with pc := emu.csr.mtvec } }

/-- The test of `trap_raise` that sends a trap to the supervisor. -/
def delegated (emu : Emulator) (cause : Word) : Bool :=
  let code := cause &&& ~~~mcauseIrqBit
  let irq := cause &&& mcauseIrqBit ≠ 0
  let deleg := if irq then emu.csr.mideleg else emu.csr.medeleg
  emu.priv ≤ privS ∧ code < 16 ∧ (deleg >>> code) &&& 1 ≠ 0

/-- `trap_raise`; false means that no handler is installed. -/
def trapRaise (emu : Emulator) (cause tval epc : Word) : Bool × Emulator :=
  if delegated emu cause then
    if emu.csr.stvec = 0 then (false, emu) else (true, enterSupervisor emu cause tval epc)
  else if emu.csr.mtvec = 0 then (false, emu)
  else (true, enterMachine emu cause tval epc)

/-- The first half of `trap_check_interrupt`: advance the timer and drive the
level-triggered pending bit. -/
def timerTick (emu : Emulator) : Emulator :=
  let emu := { emu with mtime := emu.mtime + 1 }
  if emu.mtimecmp ≠ 0 ∧ emu.mtime ≥ emu.mtimecmp then
    { emu with csr := { emu.csr with mip := emu.csr.mip ||| mipMtip } }
  else { emu with csr := { emu.csr with mip := emu.csr.mip &&& ~~~mipMtip } }

/-- `trap_check_interrupt`: true when an interrupt entered a handler. -/
def trapCheckInterrupt (emu : Emulator) (epc : Word) : Bool × Emulator :=
  let emu := timerTick emu
  if emu.csr.mip &&& mipMtip ≠ 0 ∧ emu.csr.mie &&& mieMtie ≠ 0 ∧
      (emu.priv ≠ privM ∨ emu.csr.mstatus &&& mstatusMie ≠ 0) then
    trapRaise emu mcauseIrqTimer 0 epc
  else (false, emu)

/-- `trap_mret`: the address to continue at, and the restored state. -/
def trapMret (emu : Emulator) : Word × Emulator :=
  let m := emu.csr.mstatus
  let m := if m &&& mstatusMpie ≠ 0 then m ||| mstatusMie else m &&& ~~~mstatusMie
  let m := m ||| mstatusMpie
  let priv := (m &&& mstatusMppMask) >>> 11
  let m := (m &&& ~~~mstatusMppMask) ||| mstatusMppU
  (emu.csr.mepc, { emu with priv := priv, csr := { emu.csr with mstatus := m } })

/-- `trap_sret`. -/
def trapSret (emu : Emulator) : Word × Emulator :=
  let m := emu.csr.mstatus
  let m := if m &&& mstatusSpie ≠ 0 then m ||| mstatusSie else m &&& ~~~mstatusSie
  let m := m ||| mstatusSpie
  let priv := if m &&& mstatusSpp ≠ 0 then privS else privU
  let m := m &&& ~~~mstatusSpp
  (emu.csr.sepc, { emu with priv := priv, csr := { emu.csr with mstatus := m } })

end RvEmu
