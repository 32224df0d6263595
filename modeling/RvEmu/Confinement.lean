import RvEmu.StatusStack
import RvEmu.StepAnatomy

/-!
# Confinement of the lower levels

Below machine level the only way up is a trap, and a trap goes to a vector that
was set before. The machine's registers, and the bits of `mstatus` outside the
supervisor's view, change in a trap to machine level alone, and there only where
the trap is recorded. A user program that takes no trap changes nothing of the
supervisor either. The proof looks at each shape of a step; for a completed
instruction it is the privilege test on CSR numbers and on the two returns.
-/

namespace RvEmu.Confinement

open StatusStack ExecOutcome StepAnatomy

/-- The machine registers that a lower level must not change, and the bits of
    `mstatus` that `sstatus` does not show. -/
structure SameMachine (before after : Csr) : Prop where
  mtvec : after.mtvec = before.mtvec
  mepc : after.mepc = before.mepc
  mcause : after.mcause = before.mcause
  mtval : after.mtval = before.mtval
  mscratch : after.mscratch = before.mscratch
  mie : after.mie = before.mie
  medeleg : after.medeleg = before.medeleg
  mideleg : after.mideleg = before.mideleg
  status : after.mstatus &&& ~~~sstatusMask = before.mstatus &&& ~~~sstatusMask

/-- The same registers up to the record of a machine trap. -/
structure MachineTrapOnly (before after : Csr) : Prop where
  mtvec : after.mtvec = before.mtvec
  mscratch : after.mscratch = before.mscratch
  mie : after.mie = before.mie
  medeleg : after.medeleg = before.medeleg
  mideleg : after.mideleg = before.mideleg
  status : after.mstatus &&& ~~~machineBits = before.mstatus &&& ~~~machineBits

/-- The supervisor's registers and all of `mstatus`. -/
structure SameSupervisor (before after : Csr) : Prop where
  satp : after.satp = before.satp
  stvec : after.stvec = before.stvec
  sepc : after.sepc = before.sepc
  scause : after.scause = before.scause
  stval : after.stval = before.stval
  sscratch : after.sscratch = before.sscratch
  sie : after.sie = before.sie
  sip : after.sip = before.sip
  mstatus : after.mstatus = before.mstatus

/-- A step keeps a lower level confined. -/
structure Confined (emu : Emulator) (result : Event × Emulator) : Prop where
  rises : emu.priv < result.2.priv → TakesTrap result.1 ∧
    ((result.2.priv = privS ∧ result.2.rf.pc = emu.csr.stvec) ∨
      (result.2.priv = privM ∧ result.2.rf.pc = emu.csr.mtvec))
  machine : ¬ (TakesTrap result.1 ∧ result.2.priv = privM) →
    SameMachine emu.csr result.2.csr
  machineTrap : TakesTrap result.1 ∧ result.2.priv = privM →
    MachineTrapOnly emu.csr result.2.csr
  supervisor : emu.priv = privU → ¬ TakesTrap result.1 → SameSupervisor emu.csr result.2.csr

/-- A CSR write that supervisor level may make keeps the machine's registers. -/
theorem supervisor_write (csr : Csr) (val : Word) (name : CsrName)
    (allowed : csrPrivOk privS name.number = true) :
    SameMachine csr (csrStored csr val name) := by
  have listed := supervisor_csrs name allowed
  simp only [List.mem_cons, List.not_mem_nil, or_false] at listed
  rcases listed with rfl | rfl | rfl | rfl | rfl | rfl | rfl | rfl | rfl | rfl | rfl | rfl
  case inr.inr.inr.inl =>
    exact ⟨rfl, rfl, rfl, rfl, rfl, rfl, rfl, rfl,
      BitMasks.merge_outside csr.mstatus val sstatusMask⟩
  all_goals exact ⟨rfl, rfl, rfl, rfl, rfl, rfl, rfl, rfl, rfl⟩

/-- A CSR write that user level may make keeps the supervisor's registers too. -/
theorem user_write (csr : Csr) (val : Word) (name : CsrName)
    (allowed : csrPrivOk privU name.number = true) :
    SameMachine csr (csrStored csr val name) ∧ SameSupervisor csr (csrStored csr val name) := by
  rcases user_csrs name allowed with rfl | rfl | rfl <;>
    exact ⟨⟨rfl, rfl, rfl, rfl, rfl, rfl, rfl, rfl, rfl⟩,
      ⟨rfl, rfl, rfl, rfl, rfl, rfl, rfl, rfl, rfl⟩⟩

/-- A return from a supervisor trap changes bits that `sstatus` shows. -/
theorem sret_machine (emu : Emulator) : SameMachine emu.csr (trapSret emu).2.csr := by
  refine ⟨rfl, rfl, rfl, rfl, rfl, rfl, rfl, rfl, ?_⟩
  rw [trapSret_mstatus]
  exact supervisorReturn_keeps _ _ (by decide) (by decide) (by decide)

/-- A delegated trap changes bits that `sstatus` shows. -/
theorem supervisorEntry_machine (emu : Emulator) (cause tval epc : Word) :
    SameMachine emu.csr (enterSupervisor emu cause tval epc).csr := by
  refine ⟨rfl, rfl, rfl, rfl, rfl, rfl, rfl, rfl, ?_⟩
  rw [enterSupervisor_mstatus]
  exact supervisorEntry_keeps _ _ _ (by decide) (by decide) (by decide)

/-- A machine trap records itself and nothing else. -/
theorem machineEntry_only (emu : Emulator) (cause tval epc : Word) :
    MachineTrapOnly emu.csr (enterMachine emu cause tval epc).csr := by
  refine ⟨rfl, rfl, rfl, rfl, rfl, ?_⟩
  rw [enterMachine_mstatus]
  exact machineEntry_keeps _ _ _ (by decide) (by decide) (by decide)

/-- Changing the pending register and the cycle counter touches none of these. -/
theorem sameMachine_ticked (emu : Emulator) (mem : Memory) (after : Csr)
    (same : SameMachine (ticked emu mem).csr after) :
    SameMachine emu.csr { after with mcycle := after.mcycle + 1 } := by
  obtain ⟨mip, csr⟩ := ticked_csr emu mem
  rw [csr] at same
  exact ⟨same.mtvec, same.mepc, same.mcause, same.mtval, same.mscratch, same.mie, same.medeleg,
    same.mideleg, same.status⟩

theorem sameSupervisor_ticked (emu : Emulator) (mem : Memory) (after : Csr)
    (same : SameSupervisor (ticked emu mem).csr after) :
    SameSupervisor emu.csr { after with mcycle := after.mcycle + 1 } := by
  obtain ⟨mip, csr⟩ := ticked_csr emu mem
  rw [csr] at same
  exact ⟨same.satp, same.stvec, same.sepc, same.scause, same.stval, same.sscratch, same.sie,
    same.sip, same.mstatus⟩

/-- A step that takes a trap is confined: it goes to the vector of the level it
    enters. -/
theorem trap_confined (emu : Emulator) (mem : Memory) (event : Event) (cause tval : Word)
    (after : Emulator) (takes : TakesTrap event)
    (raised : trapRaise (ticked emu mem) cause tval emu.rf.pc = (true, after)) :
    Confined emu (event, counted after) := by
  obtain ⟨mip, csr⟩ := ticked_csr emu mem
  have apart : ¬ privS = privM := by decide
  rcases trapRaise_cases _ after cause tval _ raised with ⟨-, -, rfl⟩ | ⟨-, -, rfl⟩
  · refine ⟨?_, ?_, ?_, fun _ quiet => absurd takes quiet⟩
    · rintro -
      refine ⟨takes, Or.inl ⟨rfl, ?_⟩⟩
      change (ticked emu mem).csr.stvec = emu.csr.stvec
      rw [csr]
    · rintro -
      exact sameMachine_ticked emu mem _ (supervisorEntry_machine (ticked emu mem) cause tval _)
    · rintro ⟨-, machine⟩
      exact absurd machine apart
  · refine ⟨?_, ?_, ?_, fun _ quiet => absurd takes quiet⟩
    · rintro -
      refine ⟨takes, Or.inr ⟨rfl, ?_⟩⟩
      change (ticked emu mem).csr.mtvec = emu.csr.mtvec
      rw [csr]
    · intro elsewhere
      exact absurd ⟨takes, rfl⟩ elsewhere
    · rintro -
      have only := machineEntry_only (ticked emu mem) cause tval emu.rf.pc
      rw [csr] at only
      exact ⟨only.mtvec, only.mscratch, only.mie, only.medeleg, only.mideleg, only.status⟩

/-- A step that takes no trap is confined when it does not raise the level and
    keeps the protected registers. -/
theorem quiet_confined (emu after : Emulator) (event : Event) (quiet : ¬ TakesTrap event)
    (level : ¬ emu.priv < after.priv) (machine : SameMachine emu.csr after.csr)
    (supervisor : emu.priv = privU → SameSupervisor emu.csr after.csr) :
    Confined emu (event, after) :=
  ⟨fun rises => absurd rises level, fun _ => machine, fun traps => absurd traps.1 quiet,
    fun user _ => supervisor user⟩

/-- A completed instruction at a lower level does not raise it and keeps the
    protected registers. -/
theorem retired_confined (emu after : Emulator) (inst : DecodedInst) (nextPc : Word)
    (effect : Effect) (lower : emu.priv = privU ∨ emu.priv = privS)
    (outcome : Outcome emu inst (.next after nextPc effect)) :
    ¬ emu.priv < after.priv ∧ SameMachine emu.csr after.csr ∧
      (emu.priv = privU → SameSupervisor emu.csr after.csr) := by
  rcases outcome_control emu after inst nextPc effect outcome with
    ⟨samePriv, flags, csr⟩ | ⟨name, val, allowed, -, samePriv, csr⟩ | ⟨-, level, -⟩ |
      ⟨-, level, same⟩
  · rw [samePriv, csr]
    exact ⟨BitVec.lt_irrefl emu.priv, ⟨rfl, rfl, rfl, rfl, rfl, rfl, rfl, rfl, rfl⟩,
      fun _ => ⟨rfl, rfl, rfl, rfl, rfl, rfl, rfl, rfl, rfl⟩⟩
  · rw [samePriv, csr]
    refine ⟨BitVec.lt_irrefl emu.priv, ?_⟩
    rcases lower with user | supervisor
    · rw [user] at allowed
      obtain ⟨machine, kept⟩ := user_write emu.csr val name allowed
      exact ⟨machine, fun _ => kept⟩
    · rw [supervisor] at allowed
      refine ⟨supervisor_write emu.csr val name allowed, ?_⟩
      intro user
      rw [supervisor] at user
      cases user
  · rcases lower with user | supervisor
    · rw [user] at level
      cases level
    · rw [supervisor] at level
      cases level
  · have supervisor : emu.priv = privS := by
      rcases lower with user | supervisor
      · rw [user] at level
        exact absurd (by decide) level
      · exact supervisor
    subst same
    refine ⟨?_, sret_machine emu, ?_⟩
    · rw [supervisor, trapSret_priv]
      split
      · decide
      · decide
    · intro user
      rw [supervisor] at user
      cases user

/-- Every step from user or supervisor level is confined: it rises by a trap into
    an installed vector alone, it changes machine registers in a trap to machine
    level alone, and from user level without a trap it changes none of the
    supervisor's. -/
theorem step_confined (host : HostFloat) (emu : Emulator)
    (lower : emu.priv = privU ∨ emu.priv = privS) : Confined emu (emuStep host emu) := by
  have shape := step_shape host emu
  generalize emuStep host emu = result at shape
  cases shape with
  | interrupted after taken =>
    obtain ⟨raised, -⟩ := taken_state emu after _ taken
    rw [← ticked_same] at raised
    exact trap_confined emu emu.mem _ _ _ after (Or.inl rfl) raised
  | trapped mem cause tval after touched code raised =>
    exact trap_confined emu mem _ cause tval after (Or.inr ⟨cause, tval, rfl⟩) raised
  | failed mem touched =>
    obtain ⟨mip, csr⟩ := ticked_csr emu mem
    apply quiet_confined
    · rintro (taken | ⟨cause, tval, taken⟩)
      · cases taken
      · cases taken
    · change ¬ emu.priv < (ticked emu mem).priv
      rw [ticked_priv]
      exact BitVec.lt_irrefl emu.priv
    · change SameMachine emu.csr (ticked emu mem).csr
      rw [csr]
      exact ⟨rfl, rfl, rfl, rfl, rfl, rfl, rfl, rfl, rfl⟩
    · rintro -
      change SameSupervisor emu.csr (ticked emu mem).csr
      rw [csr]
      exact ⟨rfl, rfl, rfl, rfl, rfl, rfl, rfl, rfl, rfl⟩
  | retired mem inst after nextPc effect came touched outcome =>
    have lowerTicked : (ticked emu mem).priv = privU ∨ (ticked emu mem).priv = privS := by
      rw [ticked_priv]
      exact lower
    obtain ⟨level, machine, supervisor⟩ :=
      retired_confined (ticked emu mem) after inst nextPc effect lowerTicked outcome
    rw [ticked_priv] at level supervisor
    apply quiet_confined
    · rintro (taken | ⟨cause, tval, taken⟩)
      · cases taken
      · cases taken
    · exact level
    · exact sameMachine_ticked emu mem after.csr machine
    · intro user
      exact sameSupervisor_ticked emu mem after.csr (supervisor user)

/-- `csrrw x1, fcsr, x2` and an environment call, at user level under a machine vector. -/
def userProgram : Emulator :=
  let loaded := loadImage (emuInit fun _ => 0) (programImage 0x1000 [0x003110F3, 0x00000073])
  { loaded with
    priv := privU
    csr := { loaded.csr with mtvec := 0x100 }
    rf := { loaded.rf with regs := fun r => if r = 2 then 0xFF else 0 } }

/-- Its access to the CSR and its trap to machine level are confined. -/
theorem userProgram_confined :
    (stepEvent idleHost userProgram 0 = .retired .quiet ∧
        (stateAfter idleHost userProgram 1).csr.frm = 7 ∧
        Confined userProgram (emuStep idleHost userProgram)) ∧
      stepEvent idleHost userProgram 1 = .trapped excEcallU 0 ∧
        (stateAfter idleHost userProgram 2).priv = privM ∧
        Confined (stateAfter idleHost userProgram 1)
          (emuStep idleHost (stateAfter idleHost userProgram 1)) := by
  refine ⟨⟨?_, ?_, ?_⟩, ?_, ?_, ?_⟩
  · decide +kernel
  · decide +kernel
  · exact step_confined idleHost userProgram (Or.inl rfl)
  · decide +kernel
  · decide +kernel
  · exact step_confined idleHost _ (Or.inl (by decide +kernel))

end RvEmu.Confinement
