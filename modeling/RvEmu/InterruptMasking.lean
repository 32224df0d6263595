import RvEmu.TrapReturn

/-!
# Masking of the timer interrupt

The gate in `trap_check_interrupt` asks whether machine level has interrupts
enabled, and `trap_raise` decides later which handler is entered. For a delegated
interrupt the gate should ask about supervisor level, and it never reads `SIE`.
So masking fails in exactly one kind of state: supervisor level with `SIE` clear
and a delegated, enabled timer that is due, with a supervisor vector installed.

As long as a run avoids those states, a supervisor handler entered by the timer
is not entered again before it gives up its masked window, and the saved pc keeps
the address of the interrupted instruction until the handler changes it. The
entry saves that address when it is a multiple of four.
-/

namespace RvEmu.InterruptMasking

open StatusStack ExecOutcome StepAnatomy

/-- An interrupt that the check delivers is one its handler's level does not mask:
    into the machine handler from a lower level or with `MIE` set, into the
    supervisor handler from user level or from supervisor level with `SIE` set. -/
def MaskingHolds (emu : Emulator) : Prop :=
  ∀ epc after, trapCheckInterrupt emu epc = (true, after) →
    (after.priv = privM → emu.priv < privM ∨ emu.csr.mstatus &&& mstatusMie ≠ 0) ∧
      (after.priv = privS →
        emu.priv = privU ∨ (emu.priv = privS ∧ emu.csr.mstatus &&& mstatusSie ≠ 0))

/-- The timer reaches its compare value with the next tick. -/
def TimerDue (emu : Emulator) : Prop := emu.mtimecmp ≠ 0 ∧ emu.mtime + 1 ≥ emu.mtimecmp

/-- The timer interrupt is delegated to supervisor level. -/
def TimerDelegated (emu : Emulator) : Prop := (emu.csr.mideleg >>> 7) &&& 1 ≠ 0

/-- A due, enabled and delegated timer interrupt below machine level, with an
    installed vector. -/
structure TimerToSupervisor (emu : Emulator) : Prop where
  lower : emu.priv ≤ privS
  due : TimerDue emu
  enabled : emu.csr.mie &&& mieMtie ≠ 0
  sent : TimerDelegated emu
  installed : emu.csr.stvec ≠ 0

/-- Such an interrupt at supervisor level with `SIE` clear. -/
structure UnmaskedTimer (emu : Emulator) : Prop where
  timer : TimerToSupervisor emu
  level : emu.priv = privS
  masked : emu.csr.mstatus &&& mstatusSie = 0

/-- After the tick the pending bit says whether the timer is due. -/
theorem pending_iff (emu : Emulator) :
    (timerTick emu).csr.mip &&& mipMtip ≠ 0 ↔ TimerDue emu := by
  have single : mipMtip &&& mipMtip ≠ 0 := by decide
  simp only [timerTick]
  split
  · rename_i due
    refine iff_of_true ?_ due
    have read := EnableStack.choose_reads True emu.csr.mip mipMtip
    rw [if_pos trivial, if_pos trivial] at read
    change (emu.csr.mip ||| mipMtip) &&& mipMtip ≠ 0
    rw [read]
    decide
  · rename_i early
    refine iff_of_false ?_ early
    have read := EnableStack.choose_reads False emu.csr.mip mipMtip
    rw [if_neg not_false, if_neg not_false] at read
    exact not_not.mpr read

/-- The timer interrupt goes to supervisor level from the two lower levels when it
    is delegated. -/
theorem timer_sent_iff (emu : Emulator) :
    delegated emu mcauseIrqTimer = true ↔ emu.priv ≤ privS ∧ TimerDelegated emu := by
  have code : mcauseIrqTimer &&& ~~~mcauseIrqBit = 7 := by decide
  have small : (7 : Word) < 16 := by decide
  simp only [delegated, code, small, true_and, decide_eq_true_eq, TimerDelegated]
  exact Iff.rfl

/-- The tick changes no register that the gate or the delegation reads. -/
theorem tick_csr (emu : Emulator) : ∃ mip, (timerTick emu).csr = { emu.csr with mip := mip } := by
  obtain ⟨mip, frame⟩ := timerTick_frame emu
  exact ⟨mip, congrArg Emulator.csr frame⟩

/-- A delivered interrupt was due and enabled. Into the supervisor handler it was
    delegated from user or supervisor level; into the machine handler it passed
    the machine gate. -/
theorem delivered_cases (emu after : Emulator) (epc : Word)
    (taken : trapCheckInterrupt emu epc = (true, after)) :
    TimerDue emu ∧ emu.csr.mie &&& mieMtie ≠ 0 ∧
      ((TimerDelegated emu ∧ (emu.priv = privU ∨ emu.priv = privS) ∧ emu.csr.stvec ≠ 0 ∧
          after = enterSupervisor (timerTick emu) mcauseIrqTimer 0 epc) ∨
        ((emu.priv ≠ privM ∨ emu.csr.mstatus &&& mstatusMie ≠ 0) ∧
          after = enterMachine (timerTick emu) mcauseIrqTimer 0 epc)) := by
  obtain ⟨mip, csr⟩ := tick_csr emu
  obtain ⟨raised, pending, enabled, gate⟩ := taken_state emu after epc taken
  rw [timerTick_priv] at gate
  have due := (pending_iff emu).mp pending
  rw [csr] at enabled gate
  refine ⟨due, enabled, ?_⟩
  rcases trapRaise_cases _ after _ _ _ raised with ⟨sent, installed, same⟩ | ⟨-, -, same⟩
  · have lower := TrapReturn.delegated_lower (timerTick emu) mcauseIrqTimer sent
    have bit := ((timer_sent_iff (timerTick emu)).mp sent).2
    simp only [TimerDelegated] at bit
    rw [csr] at bit installed
    rw [timerTick_priv] at lower
    exact Or.inl ⟨bit, lower, installed, same⟩
  · exact Or.inr ⟨gate, same⟩

/-- Such an interrupt does enter the supervisor handler. -/
theorem timer_delivered (emu : Emulator) (epc : Word) (timer : TimerToSupervisor emu) :
    trapCheckInterrupt emu epc =
      (true, enterSupervisor (timerTick emu) mcauseIrqTimer 0 epc) := by
  obtain ⟨mip, csr⟩ := tick_csr emu
  have pending := (pending_iff emu).mpr timer.due
  have enabled : (timerTick emu).csr.mie &&& mieMtie ≠ 0 := by
    rw [csr]
    exact timer.enabled
  have below : (timerTick emu).priv ≠ privM := by
    rw [timerTick_priv]
    intro machine
    have lower := timer.lower
    rw [machine] at lower
    revert lower
    decide
  have sent : delegated (timerTick emu) mcauseIrqTimer = true := by
    rw [timer_sent_iff, timerTick_priv, TimerDelegated, csr]
    exact ⟨timer.lower, timer.sent⟩
  have installed : (timerTick emu).csr.stvec ≠ 0 := by
    rw [csr]
    exact timer.installed
  simp only [trapCheckInterrupt]
  rw [if_pos ⟨pending, enabled, Or.inl below⟩, trapRaise, if_pos sent, if_neg installed]

/-- At an encoded level, masking holds exactly outside the failing states. -/
theorem masking_iff (emu : Emulator) (encoded : Level emu.priv ∨ emu.priv = 2) :
    MaskingHolds emu ↔ ¬ UnmaskedTimer emu := by
  have apart : privS ≠ privM := by decide
  constructor
  · intro holds unmasked
    rcases (holds 0 _ (timer_delivered emu 0 unmasked.timer)).2 rfl with user | ⟨-, open_⟩
    · rw [unmasked.level] at user
      cases user
    · exact open_ unmasked.masked
  · intro masked epc after taken
    obtain ⟨due, enabled, target⟩ := delivered_cases emu after epc taken
    rcases target with ⟨sent, lower, installed, rfl⟩ | ⟨gate, rfl⟩
    · refine ⟨fun machine => absurd machine apart, ?_⟩
      rintro -
      rcases lower with user | supervisor
      · exact Or.inl user
      · refine Or.inr ⟨supervisor, ?_⟩
        intro clear
        have lower : emu.priv ≤ privS := (lower_iff emu.priv).mpr (Or.inr supervisor)
        exact masked ⟨⟨lower, due, enabled, sent, installed⟩, supervisor, clear⟩
    · refine ⟨?_, fun supervisor => absurd supervisor apart.symm⟩
      rintro -
      rcases gate with below | open_
      · refine Or.inl ?_
        rcases encoded with (level | level | level) | level
        · rw [level]
          decide
        · rw [level]
          decide
        · exact absurd level below
        · rw [level]
          decide
      · exact Or.inr open_

/-! ## The masked window of a handler -/

/-- A step that the timer takes into the supervisor handler. -/
def DeliversToSupervisor (host : HostFloat) (emu : Emulator) : Prop :=
  (emuStep host emu).1 = .interrupted ∧ (emuStep host emu).2.priv = privS

/-- Above user level, with `SIE` clear while at supervisor level. -/
def Masked (emu : Emulator) : Prop :=
  emu.priv ≠ privU ∧ (emu.priv = privS → emu.csr.mstatus &&& mstatusSie = 0)

/-- The handler itself changes the saved pc: it traps to its own level, or executes
    a CSR instruction that gives `sepc` another value. -/
def HandlerChanges (host : HostFloat) (emu : Emulator) : Prop :=
  ((∃ cause tval, (emuStep host emu).1 = .trapped cause tval) ∧
      (emuStep host emu).2.priv = privS) ∨
    ∃ after inst wdata, issued emu = some (after, inst) ∧ inst.opcode = .system ∧
      inst.imm = CsrName.sepc.number ∧
      csrOperand inst emu.csr.sepc (regRead emu.rf inst.rs1) = some wdata ∧
      wdata ≠ emu.csr.sepc

/-- The timer takes a step into the supervisor handler exactly in these states. -/
theorem delivers_iff (host : HostFloat) (emu : Emulator) :
    DeliversToSupervisor host emu ↔ TimerToSupervisor emu := by
  constructor
  · rintro ⟨delivered, level⟩
    have shape := step_shape host emu
    generalize emuStep host emu = result at shape delivered level
    cases shape with
    | interrupted after taken =>
      obtain ⟨due, enabled, ⟨sent, lower, installed, -⟩ | ⟨-, rfl⟩⟩ :=
        delivered_cases emu after _ taken
      · exact ⟨(lower_iff emu.priv).mpr lower, due, enabled, sent, installed⟩
      · cases level
    | trapped => cases delivered
    | failed => cases delivered
    | retired => cases delivered
  · intro timer
    have front : frontEnd emu =
        .interrupted (enterSupervisor (timerTick emu) mcauseIrqTimer 0 emu.rf.pc) := by
      rw [frontEnd, timer_delivered emu emu.rf.pc timer]
    rw [DeliversToSupervisor, emuStep_halves, front]
    exact ⟨rfl, rfl⟩

/-- In a masked state the timer does not reach the supervisor handler. -/
theorem masked_quiet (host : HostFloat) (emu : Emulator) (masked : Masked emu)
    (allowed : ¬ UnmaskedTimer emu) : ¬ DeliversToSupervisor host emu := by
  intro delivers
  have timer := (delivers_iff host emu).mp delivers
  rcases (lower_iff emu.priv).mp timer.lower with user | supervisor
  · exact masked.1 user
  · exact allowed ⟨timer, supervisor, masked.2 supervisor⟩

/-- A write to another register keeps `sepc`. -/
theorem csrStored_sepc (csr : Csr) (val : Word) (name : CsrName) (other : name ≠ .sepc) :
    (csrStored csr val name).sepc = csr.sepc := by
  cases name <;> first | rfl | exact absurd rfl other

/-- In a masked state a step keeps the saved pc unless the handler changes it. -/
theorem masked_step_sepc (host : HostFloat) (emu : Emulator) (masked : Masked emu)
    (allowed : ¬ UnmaskedTimer emu) (passive : ¬ HandlerChanges host emu)
    (aligned : emu.csr.sepc &&& ~~~(0x3 : Word) = emu.csr.sepc) :
    (emuStep host emu).2.csr.sepc = emu.csr.sepc := by
  have quiet := masked_quiet host emu masked allowed
  simp only [DeliversToSupervisor] at quiet
  simp only [HandlerChanges] at passive
  have shape := step_shape host emu
  generalize emuStep host emu = result at shape quiet passive
  cases shape with
  | interrupted after taken =>
    obtain ⟨mip, csr⟩ := tick_csr emu
    obtain ⟨-, -, ⟨-, -, -, rfl⟩ | ⟨-, rfl⟩⟩ := delivered_cases emu after _ taken
    · exact absurd ⟨rfl, rfl⟩ quiet
    · change (timerTick emu).csr.sepc = emu.csr.sepc
      rw [csr]
  | trapped mem cause tval after touched code raised =>
    obtain ⟨mip, csr⟩ := ticked_csr emu mem
    rcases trapRaise_cases _ after cause tval _ raised with ⟨-, -, rfl⟩ | ⟨-, -, rfl⟩
    · exact absurd (Or.inl ⟨⟨cause, tval, rfl⟩, rfl⟩) passive
    · change (ticked emu mem).csr.sepc = emu.csr.sepc
      rw [csr]
  | failed mem touched =>
    obtain ⟨mip, csr⟩ := ticked_csr emu mem
    change (ticked emu mem).csr.sepc = emu.csr.sepc
    rw [csr]
  | retired mem inst after nextPc effect came touched outcome =>
    obtain ⟨mip, csr⟩ := ticked_csr emu mem
    change after.csr.sepc = emu.csr.sepc
    rcases outcome_control (ticked emu mem) after inst nextPc effect outcome with
      ⟨-, flags, same⟩ | ⟨name, val, -, ⟨kind, addressed, operand⟩, -, same⟩ | ⟨-, -, same⟩ |
        ⟨-, -, same⟩
    · rw [same, csr]
    · by_cases target : name = .sepc
      · subst target
        rw [csr, ticked_rf] at operand
        have kept : val = emu.csr.sepc := by
          by_contra changed
          exact passive
            (Or.inr ⟨_, inst, val, came, kind, addressed.symm, operand, changed⟩)
        rw [same, kept]
        exact aligned
      · rw [same, csrStored_sepc _ val name target, csr]
    · rw [same]
      change (ticked emu mem).csr.sepc = emu.csr.sepc
      rw [csr]
    · rw [same]
      change (ticked emu mem).csr.sepc = emu.csr.sepc
      rw [csr]

/-- Entering the supervisor handler saves the pc of the step. -/
theorem delivery_saves (host : HostFloat) (emu : Emulator)
    (delivers : DeliversToSupervisor host emu) :
    (emuStep host emu).2.csr.sepc = emu.rf.pc &&& ~~~(0x3 : Word) := by
  obtain ⟨delivered, level⟩ := delivers
  have shape := step_shape host emu
  generalize emuStep host emu = result at shape delivered level
  cases shape with
  | interrupted after taken =>
    obtain ⟨-, -, ⟨-, -, -, rfl⟩ | ⟨-, rfl⟩⟩ := delivered_cases emu after _ taken
    · rfl
    · cases level
  | trapped => cases delivered
  | failed => cases delivered
  | retired => cases delivered

/-- Entering the supervisor handler opens a masked window. -/
theorem delivery_masked (host : HostFloat) (emu : Emulator)
    (delivers : DeliversToSupervisor host emu) : Masked (emuStep host emu).2 := by
  obtain ⟨delivered, level⟩ := delivers
  have shape := step_shape host emu
  generalize emuStep host emu = result at shape delivered level
  cases shape with
  | interrupted after taken =>
    obtain ⟨-, -, ⟨-, -, -, rfl⟩ | ⟨-, rfl⟩⟩ := delivered_cases emu after _ taken
    · have above : privS ≠ privU := by decide
      exact ⟨above, fun _ => supervisorEntry_disabled _ _⟩
    · cases level
  | trapped => cases delivered
  | failed => cases delivered
  | retired => cases delivered

/-- What masking is for, over the first `n` steps of a run: a delivery into the
    supervisor handler opens a masked window, a masked state is never interrupted
    into that handler, and from the delivery on, through masked states in which the
    handler changes nothing, the saved pc is that of the interrupted instruction. -/
structure WindowProtected (host : HostFloat) (start : Emulator) (n : Nat) : Prop where
  opened : ∀ k, k < n → DeliversToSupervisor host (stateAfter host start k) →
    Masked (stateAfter host start (k + 1))
  undisturbed : ∀ k, k < n → Masked (stateAfter host start k) →
    ¬ DeliversToSupervisor host (stateAfter host start k)
  saved : ∀ first last, first < last → last ≤ n →
    DeliversToSupervisor host (stateAfter host start first) →
    (∀ k, first < k → k < last → Masked (stateAfter host start k) ∧
      ¬ HandlerChanges host (stateAfter host start k)) →
    (stateAfter host start last).csr.sepc = (stateAfter host start first).rf.pc

/-- The timer does not interrupt the state against its mask, and interrupts it into
    the supervisor handler at a multiple of four alone. -/
def TimerKept (emu : Emulator) : Prop :=
  ¬ UnmaskedTimer emu ∧ (TimerToSupervisor emu → emu.rf.pc.toNat % 4 = 0)

/-- A run of such states protects the window. The saved pc is carried along the
    window by induction; it is a multiple of four, so that writing back the value
    just read keeps it. -/
theorem window_protected (host : HostFloat) (start : Emulator) (n : Nat)
    (kept : ∀ k, k < n → TimerKept (stateAfter host start k)) :
    WindowProtected host start n := by
  refine ⟨?_, ?_, ?_⟩
  · intro k below delivers
    exact delivery_masked host _ delivers
  · intro k below masked
    exact masked_quiet host _ masked (kept k below).1
  · intro first last ordered within delivers window
    have timer := (delivers_iff host _).mp delivers
    have aligned : (stateAfter host start first).rf.pc &&& ~~~(0x3 : Word) =
        (stateAfter host start first).rf.pc :=
      (TrapReturn.epc_kept_iff _).mpr ((kept first (by omega)).2 timer)
    have entered : (stateAfter host start (first + 1)).csr.sepc =
        (stateAfter host start first).rf.pc :=
      (delivery_saves host _ delivers).trans aligned
    apply Runs.carried (emuStep host) (fun emu => emu.csr.sepc =
      (stateAfter host start first).rf.pc) start (first + 1) last ordered entered
    intro k above below before
    obtain ⟨masked, passive⟩ := window k above below
    have multiple : (stateAfter host start k).csr.sepc &&& ~~~(0x3 : Word) =
        (stateAfter host start k).csr.sepc := by
      rw [before]
      exact aligned
    exact (masked_step_sepc host _ masked (kept k (by omega)).1 passive multiple).trans before

/-- Over any run from boot, masking holds in every state, with the protection of
    the handler's window that follows from it, exactly when no step of the run
    starts where the timer breaks its mask or interrupts a pc that the entry does
    not save. -/
theorem run_masking_iff (host : HostFloat) (start : Emulator) (boot : Boot start) (n : Nat) :
    ((∀ k, k < n → MaskingHolds (stateAfter host start k)) ∧ WindowProtected host start n) ↔
      ∀ k, k < n → TimerKept (stateAfter host start k) := by
  have encoded (k : Nat) : Level (stateAfter host start k).priv ∨
      (stateAfter host start k).priv = 2 :=
    PrivilegeLevels.reachable_encoded host _ ⟨start, k, boot, rfl⟩
  constructor
  · rintro ⟨holds, window⟩ k below
    refine ⟨(masking_iff _ (encoded k)).mp (holds k below), ?_⟩
    intro timer
    have delivers := (delivers_iff host _).mpr timer
    have saved := window.saved k (k + 1) (Nat.lt_succ_self k) below delivers
      (fun j above early => by omega)
    exact (TrapReturn.epc_kept_iff _).mp ((delivery_saves host _ delivers).symm.trans saved)
  · intro kept
    refine ⟨?_, window_protected host start n kept⟩
    intro k below
    exact (masking_iff _ (encoded k)).mpr (kept k below).1

/-- One delivery into the supervisor handler with `SIE` clear breaks masking. -/
theorem delivery_breaks_masking (emu : Emulator) (epc : Word) (level : emu.priv = privS)
    (clear : emu.csr.mstatus &&& mstatusSie = 0)
    (taken : (trapCheckInterrupt emu epc).1 = true)
    (entered : (trapCheckInterrupt emu epc).2.priv = privS) : ¬ MaskingHolds emu := by
  intro holds
  rcases (holds epc _ (Prod.ext taken rfl)).2 entered with user | ⟨-, enabled⟩
  · rw [level] at user
    cases user
  · exact enabled clear

/-- A machine program that installs a supervisor vector at 16, delegates and
    enables the timer interrupt, sets the compare value to 1, and returns to
    supervisor level with `SIE` clear. -/
def timerProgram : Emulator :=
  loadImage (emuInit fun _ => 0) (programImage 0x1000
    [0x10585073, -- csrrwi x0, stvec, 16
      0x08000093, -- addi x1, x0, 0x80
      0x30309073, -- csrrw x0, mideleg, x1
      0x30409073, -- csrrw x0, mie, x1
      0x02004137, -- lui x2, 0x02004
      0x00100193, -- addi x3, x0, 1
      0x00312023, -- sw x3, 0(x2)
      0x10000213, -- addi x4, x0, 0x100
      0x30021073, -- csrrw x0, mstatus, x4
      0x10200073]) -- sret

/-- The exact condition for the run of that program. -/
theorem timerProgram_masking :
    ((∀ k, k < 12 → MaskingHolds (stateAfter idleHost timerProgram k)) ∧
        WindowProtected idleHost timerProgram 12) ↔
      ∀ k, k < 12 → TimerKept (stateAfter idleHost timerProgram k) :=
  run_masking_iff idleHost timerProgram (.loaded _ _) 12

/-- After the return, at supervisor level with `SIE` clear, the timer enters the
    supervisor handler, and in the next step enters it again and replaces the saved
    pc by the handler's own. -/
theorem timer_reenters :
    ((stateAfter idleHost timerProgram 10).priv = privS ∧
        (stateAfter idleHost timerProgram 10).csr.mstatus &&& mstatusSie = 0 ∧
        DeliversToSupervisor idleHost (stateAfter idleHost timerProgram 10) ∧
        (stateAfter idleHost timerProgram 11).csr.sepc = 0 ∧
        DeliversToSupervisor idleHost (stateAfter idleHost timerProgram 11) ∧
        (stateAfter idleHost timerProgram 12).csr.sepc = 16) ∧
      ¬ ∀ host start n, Boot start → MaskingHolds (stateAfter host start n) := by
  have level : (stateAfter idleHost timerProgram 10).priv = privS := by decide +kernel
  have clear : (stateAfter idleHost timerProgram 10).csr.mstatus &&& mstatusSie = 0 := by
    decide +kernel
  have first : DeliversToSupervisor idleHost (stateAfter idleHost timerProgram 10) :=
    ⟨by decide +kernel, by decide +kernel⟩
  have second : DeliversToSupervisor idleHost (stateAfter idleHost timerProgram 11) :=
    ⟨by decide +kernel, by decide +kernel⟩
  have saved : (stateAfter idleHost timerProgram 11).csr.sepc = 0 := by decide +kernel
  have lost : (stateAfter idleHost timerProgram 12).csr.sepc = 16 := by decide +kernel
  refine ⟨⟨level, clear, first, saved, second, lost⟩, ?_⟩
  intro always
  have holds := always idleHost timerProgram 10 (.loaded _ _)
  have taken : (trapCheckInterrupt (stateAfter idleHost timerProgram 10)
      (stateAfter idleHost timerProgram 10).rf.pc).1 = true := by decide +kernel
  have entered : (trapCheckInterrupt (stateAfter idleHost timerProgram 10)
      (stateAfter idleHost timerProgram 10).rf.pc).2.priv = privS := by decide +kernel
  exact delivery_breaks_masking _ _ level clear taken entered holds

end RvEmu.InterruptMasking
