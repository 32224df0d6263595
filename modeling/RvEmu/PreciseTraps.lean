import RvEmu.StatusStack
import RvEmu.StepAnatomy

/-!
# Precise exceptions

A handler restarts the instruction that trapped, so nothing the program can see
may have changed by then. Every fault of an instruction comes before its first
write: alignment, translation and bounds are checked first, a refused store or
CSR write stores nothing, and only the walker's updates of visited leaf entries
precede the last check. The trap itself records its cause at one level and leaves
the other level's record alone.
-/

namespace RvEmu.PreciseTraps

open StatusStack StepAnatomy

/-- The supervisor's record of a trap, and its bits of `mstatus`. -/
structure SupervisorRecordKept (before after : Csr) : Prop where
  stvec : after.stvec = before.stvec
  sepc : after.sepc = before.sepc
  scause : after.scause = before.scause
  stval : after.stval = before.stval
  status : after.mstatus &&& supervisorBits = before.mstatus &&& supervisorBits

/-- The machine's record of a trap, and its bits of `mstatus`. -/
structure MachineRecordKept (before after : Csr) : Prop where
  mtvec : after.mtvec = before.mtvec
  mepc : after.mepc = before.mepc
  mcause : after.mcause = before.mcause
  mtval : after.mtval = before.mtval
  status : after.mstatus &&& machineBits = before.mstatus &&& machineBits

/-- What a trapped step leaves as it was. Memory may have gained accessed and dirty
    bits in the leaf entries the step visited. -/
structure Precise (emu after : Emulator) : Prop where
  regs : after.rf.regs = emu.rf.regs
  fregs : after.rf.fregs = emu.rf.fregs
  fflags : after.csr.fflags = emu.csr.fflags
  frm : after.csr.frm = emu.csr.frm
  reservation : after.reservationValid = emu.reservationValid ∧
    after.reservationAddr = emu.reservationAddr
  mtimecmp : after.mtimecmp = emu.mtimecmp
  satp : after.csr.satp = emu.csr.satp
  delegation : after.csr.medeleg = emu.csr.medeleg ∧ after.csr.mideleg = emu.csr.mideleg
  scratch : after.csr.mscratch = emu.csr.mscratch ∧ after.csr.sscratch = emu.csr.sscratch
  otherLevel : (after.priv = privM ∧ SupervisorRecordKept emu.csr after.csr) ∨
    (after.priv = privS ∧ MachineRecordKept emu.csr after.csr)
  state : after.state = emu.state
  memory : Touched emu (stepAccesses emu) after.mem

/-- Entering the supervisor handler from a touched state is precise. -/
theorem supervisor_precise (emu : Emulator) (mem : Memory) (cause tval epc : Word)
    (touched : Touched emu (stepAccesses emu) mem) :
    Precise emu (counted (enterSupervisor (ticked emu mem) cause tval epc)) := by
  have status : (enterSupervisor (ticked emu mem) cause tval epc).csr.mstatus &&&
      machineBits = emu.csr.mstatus &&& machineBits := by
    rw [enterSupervisor_mstatus, ticked_mstatus]
    exact supervisorEntry_keeps _ _ _ (by decide) (by decide) (by decide)
  obtain ⟨mip, frame⟩ := timerTick_frame emu
  simp only [ticked] at status ⊢
  rw [frame] at status ⊢
  exact ⟨rfl, rfl, rfl, rfl, ⟨rfl, rfl⟩, rfl, rfl, ⟨rfl, rfl⟩, ⟨rfl, rfl⟩,
    Or.inr ⟨rfl, rfl, rfl, rfl, rfl, status⟩, rfl, touched⟩

/-- Entering the machine handler from a touched state is precise. -/
theorem machine_precise (emu : Emulator) (mem : Memory) (cause tval epc : Word)
    (touched : Touched emu (stepAccesses emu) mem) :
    Precise emu (counted (enterMachine (ticked emu mem) cause tval epc)) := by
  have status : (enterMachine (ticked emu mem) cause tval epc).csr.mstatus &&&
      supervisorBits = emu.csr.mstatus &&& supervisorBits := by
    rw [enterMachine_mstatus, ticked_mstatus]
    exact machineEntry_keeps _ _ _ (by decide) (by decide) (by decide)
  obtain ⟨mip, frame⟩ := timerTick_frame emu
  simp only [ticked] at status ⊢
  rw [frame] at status ⊢
  exact ⟨rfl, rfl, rfl, rfl, ⟨rfl, rfl⟩, rfl, rfl, ⟨rfl, rfl⟩, ⟨rfl, rfl⟩,
    Or.inl ⟨rfl, rfl, rfl, rfl, rfl, status⟩, rfl, touched⟩

/-- A step that takes a synchronous trap in a running machine is precise, and the
    machine keeps running. -/
theorem trap_precise (host : HostFloat) (emu : Emulator) (running : emu.state = .running)
    (cause tval : Word) (trapped : (emuStep host emu).1 = .trapped cause tval) :
    Precise emu (emuStep host emu).2 ∧ (emuStep host emu).2.state = .running := by
  have takes : TakesTrap (emuStep host emu).1 := Or.inr ⟨cause, tval, trapped⟩
  obtain ⟨mem, code, value, after, touched, raised, result⟩ := trap_step host emu takes
  have precise : Precise emu (emuStep host emu).2 := by
    rw [result]
    rcases trapRaise_cases _ after code value _ raised with ⟨-, -, rfl⟩ | ⟨-, -, rfl⟩
    · exact supervisor_precise emu mem code value _ touched
    · exact machine_precise emu mem code value _ touched
  exact ⟨precise, precise.state.trans running⟩

/-- A running machine with a vector at 16 and no instruction at its pc. -/
def blankWithHandler : Emulator :=
  { emuInit (fun _ => 0) with csr := { csrInit with mtvec := 16 }, state := .running }

theorem blank_trap_precise :
    Precise blankWithHandler (emuStep idleHost blankWithHandler).2 ∧
      (emuStep idleHost blankWithHandler).2.state = .running :=
  trap_precise idleHost blankWithHandler rfl excIllegalInst 0 (by decide +kernel)

end RvEmu.PreciseTraps
