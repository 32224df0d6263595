import RvEmu.PrivilegeLevels

/-!
# Resuming after a trap

A trap saves the pc, the level and the enable bit of the interrupted program,
and the return instruction of the handler's level puts them back. The saved
level and enable bit survive for every level and every status word. The saved pc
does not: entry clears its two low bits, although compressed instructions stand
at every even address. A handler therefore resumes the program exactly when the
pc was a multiple of four; otherwise it resumes two bytes early.
-/

namespace RvEmu.TrapReturn

open StatusStack StepAnatomy

/-- One handler level: its privilege, its enable bit, where it keeps the pc and
    the word of its return instruction. -/
structure Handler where
  level : Word
  enable : Word
  saved : Csr → Word
  ret : Word

def machineHandler : Handler where
  level := privM
  enable := mstatusMie
  saved := Csr.mepc
  ret := rawMret

def supervisorHandler : Handler where
  level := privS
  enable := mstatusSie
  saved := Csr.sepc
  ret := rawSret

/-- The trap taken in a state saved its pc, and the return of the handler, issued
    in any later state that kept the saved pc and the status word, resumes there
    with the level and the enable bit of before. -/
structure Resumes (host : HostFloat) (handler : Handler) (emu entered : Emulator) : Prop where
  saved : handler.saved entered.csr = emu.rf.pc
  resumed : ∀ later ready inst, later.priv = handler.level →
    handler.saved later.csr = handler.saved entered.csr →
    later.csr.mstatus = entered.csr.mstatus →
    issued later = some (ready, inst) → inst.raw = handler.ret →
    (emuStep host later).2.rf.pc = emu.rf.pc ∧ (emuStep host later).2.priv = emu.priv ∧
      (emuStep host later).2.csr.mstatus &&& handler.enable =
        emu.csr.mstatus &&& handler.enable

/-- The step enters one of the two handlers, and that handler resumes it. -/
def TrapResumes (host : HostFloat) (emu : Emulator) : Prop :=
  ((emuStep host emu).2.priv = privM ∧ Resumes host machineHandler emu (emuStep host emu).2) ∨
    ((emuStep host emu).2.priv = privS ∧
      Resumes host supervisorHandler emu (emuStep host emu).2)

/-- Clearing the two low bits keeps exactly the multiples of four. -/
theorem epc_kept_iff (pc : Word) : pc &&& ~~~(0x3 : Word) = pc ↔ pc.toNat % 4 = 0 := by
  have masked : (pc &&& 0x3).toNat = pc.toNat % 2 ^ 2 := BitMasks.and_low pc 2 (by decide)
  have split : (pc &&& ~~~(0x3 : Word)) &&& 0x3 = 0 := by
    rw [BitVec.and_assoc]
    exact BitVec.and_zero
  constructor
  · intro kept
    rw [kept] at split
    rw [split] at masked
    exact masked.symm
  · intro multiple
    have low : pc &&& 0x3 = 0 := BitVec.eq_of_toNat_eq (masked.trans multiple)
    apply BitVec.eq_of_getLsbD_eq
    intro i inside
    have clear := congrArg (fun bits => bits.getLsbD i) low
    simp only [BitVec.getLsbD_and, BitVec.getLsbD_not, inside, decide_true, Bool.true_and,
      BitVec.ofNat_eq_ofNat, BitVec.getLsbD_zero] at clear ⊢
    revert clear
    cases pc.getLsbD i <;> cases (0x3#32).getLsbD i <;> decide

/-- The machine handler undoes an entry into it from any encoded level. -/
theorem machine_resumes (host : HostFloat) (emu : Emulator) (mem : Memory) (cause tval : Word)
    (encoded : Level emu.priv ∨ emu.priv = 2) (aligned : emu.rf.pc.toNat % 4 = 0) :
    Resumes host machineHandler emu
      (counted (enterMachine (ticked emu mem) cause tval emu.rf.pc)) := by
  have kept : emu.rf.pc &&& ~~~(0x3 : Word) = emu.rf.pc := (epc_kept_iff emu.rf.pc).mpr aligned
  refine ⟨kept, ?_⟩
  intro later ready inst level savedPc status came raw
  obtain ⟨-, -, -, -, laterMem, same, -⟩ := issued_front later ready inst came
  subst same
  obtain ⟨mip, csr⟩ := ticked_csr later laterMem
  have entry : (ticked later laterMem).csr.mstatus =
      machineEntry emu.csr.mstatus emu.priv := by
    rw [ticked_mstatus, status]
    change machineEntry (ticked emu mem).csr.mstatus (ticked emu mem).priv = _
    rw [ticked_mstatus, ticked_priv]
  rw [mret_step host later _ inst came raw (by rw [ticked_priv]; exact level)]
  refine ⟨?_, ?_, ?_⟩
  · change (ticked later laterMem).csr.mepc = emu.rf.pc
    rw [csr]
    exact savedPc.trans kept
  · change (trapMret (ticked later laterMem)).2.priv = emu.priv
    rw [trapMret_priv, entry]
    exact machineEntry_level emu.csr.mstatus emu.priv encoded
  · change machineReturn (ticked later laterMem).csr.mstatus &&& mstatusMie = _
    rw [entry]
    exact machine_restores emu.csr.mstatus emu.priv

/-- The supervisor handler undoes a delegated entry, which comes from user or
    supervisor level. -/
theorem supervisor_resumes (host : HostFloat) (emu : Emulator) (mem : Memory)
    (cause tval : Word) (lower : emu.priv = privU ∨ emu.priv = privS)
    (aligned : emu.rf.pc.toNat % 4 = 0) :
    Resumes host supervisorHandler emu
      (counted (enterSupervisor (ticked emu mem) cause tval emu.rf.pc)) := by
  have kept : emu.rf.pc &&& ~~~(0x3 : Word) = emu.rf.pc := (epc_kept_iff emu.rf.pc).mpr aligned
  refine ⟨kept, ?_⟩
  intro later ready inst level savedPc status came raw
  obtain ⟨-, -, -, -, laterMem, same, -⟩ := issued_front later ready inst came
  subst same
  obtain ⟨mip, csr⟩ := ticked_csr later laterMem
  have entry : (ticked later laterMem).csr.mstatus =
      supervisorEntry emu.csr.mstatus emu.priv := by
    rw [ticked_mstatus, status]
    change supervisorEntry (ticked emu mem).csr.mstatus (ticked emu mem).priv = _
    rw [ticked_mstatus, ticked_priv]
  rw [sret_step host later _ inst came raw (by rw [ticked_priv]; exact level)]
  refine ⟨?_, ?_, ?_⟩
  · change (ticked later laterMem).csr.sepc = emu.rf.pc
    rw [csr]
    exact savedPc.trans kept
  · change (trapSret (ticked later laterMem)).2.priv = emu.priv
    rw [trapSret_priv, entry]
    have saved := supervisorEntry_level emu.csr.mstatus emu.priv
    rcases lower with user | supervisor
    · have distinct : emu.priv ≠ privS := by
        rw [user]
        decide
      rw [if_neg (fun set => distinct (saved.mp set)), user]
    · rw [if_pos (saved.mpr supervisor), supervisor]
  · change supervisorReturn (ticked later laterMem).csr.mstatus &&& mstatusSie = _
    rw [entry]
    exact supervisor_restores emu.csr.mstatus emu.priv

/-- A delegated trap comes from one of the two lower levels. -/
theorem delegated_lower (emu : Emulator) (cause : Word) (sent : delegated emu cause = true) :
    emu.priv = privU ∨ emu.priv = privS := by
  simp only [delegated, decide_eq_true_eq] at sent
  exact (lower_iff emu.priv).mp sent.1

/-- A trap taken in a reachable state is resumed by its handler exactly when the
    pc is a multiple of four. -/
theorem trap_resumes_iff (host : HostFloat) (emu : Emulator) (reachable : Reachable host emu)
    (takes : TakesTrap (emuStep host emu).1) :
    TrapResumes host emu ↔ emu.rf.pc.toNat % 4 = 0 := by
  obtain ⟨mem, cause, tval, after, -, raised, result⟩ := trap_step host emu takes
  have encoded := PrivilegeLevels.reachable_encoded host emu reachable
  rw [TrapResumes, result]
  rcases trapRaise_cases _ after cause tval _ raised with ⟨sent, -, same⟩ | ⟨-, -, same⟩
  · have lower := delegated_lower (ticked emu mem) cause sent
    rw [ticked_priv] at lower
    subst same
    constructor
    · rintro (⟨level, -⟩ | ⟨-, resumes⟩)
      · cases level
      · exact (epc_kept_iff emu.rf.pc).mp resumes.saved
    · intro aligned
      exact Or.inr ⟨rfl, supervisor_resumes host emu mem cause tval lower aligned⟩
  · subst same
    constructor
    · rintro (⟨-, resumes⟩ | ⟨level, -⟩)
      · exact (epc_kept_iff emu.rf.pc).mp resumes.saved
      · cases level
    · intro aligned
      exact Or.inl ⟨rfl, machine_resumes host emu mem cause tval encoded aligned⟩

/-- `csrrwi x0, mtvec, 16` at 0x1002, and a halfword that is no instruction at
    0x1006. -/
def halfwordProgram : Emulator :=
  loadImage (emuInit fun _ => 0) (programImage 0x1002 [0x30585073, 0x00000000])

/-- The exact condition for the trap its second step takes. -/
theorem halfword_trap_resumes :
    TrapResumes idleHost (stateAfter idleHost halfwordProgram 1) ↔
      (stateAfter idleHost halfwordProgram 1).rf.pc.toNat % 4 = 0 :=
  trap_resumes_iff idleHost _ ⟨halfwordProgram, 1, .loaded _ _, rfl⟩
    (Or.inr ⟨excIllegalInst, 0, by decide +kernel⟩)

/-- That trap, at an even pc of a running machine, saves 0x1004 for 0x1006. -/
theorem halfword_trap_misses :
    ((stateAfter idleHost halfwordProgram 1).state = .running ∧
        (stateAfter idleHost halfwordProgram 1).rf.pc = 0x1006 ∧
        (stateAfter idleHost halfwordProgram 2).csr.mepc = 0x1004) ∧
      ¬ ∀ host emu, Reachable host emu → emu.state = .running → emu.rf.pc.toNat % 2 = 0 →
        TakesTrap (emuStep host emu).1 → TrapResumes host emu := by
  have running : (stateAfter idleHost halfwordProgram 1).state = .running := by decide +kernel
  have pc : (stateAfter idleHost halfwordProgram 1).rf.pc = 0x1006 := by decide +kernel
  have saved : (stateAfter idleHost halfwordProgram 2).csr.mepc = 0x1004 := by decide +kernel
  have level : (stateAfter idleHost halfwordProgram 2).priv = privM := by decide +kernel
  have takes : TakesTrap (emuStep idleHost (stateAfter idleHost halfwordProgram 1)).1 :=
    Or.inr ⟨excIllegalInst, 0, by decide +kernel⟩
  refine ⟨⟨running, pc, saved⟩, ?_⟩
  intro always
  have even : (stateAfter idleHost halfwordProgram 1).rf.pc.toNat % 2 = 0 := by
    rw [pc]
    rfl
  have reached : Reachable idleHost (stateAfter idleHost halfwordProgram 1) :=
    ⟨halfwordProgram, 1, .loaded _ _, rfl⟩
  rcases always idleHost _ reached running even takes with ⟨-, resumes⟩ | ⟨supervisor, -⟩
  · have same : (stateAfter idleHost halfwordProgram 2).csr.mepc =
        (stateAfter idleHost halfwordProgram 1).rf.pc := resumes.saved
    rw [saved, pc] at same
    revert same
    decide
  · have same : (stateAfter idleHost halfwordProgram 2).priv = privS := supervisor
    rw [level] at same
    revert same
    decide

end RvEmu.TrapReturn
