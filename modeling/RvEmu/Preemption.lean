import Mathlib.Data.Nat.Find
import RvEmu.ProcessIsolation
import RvEmu.TimerLaw

/-!
# Preemption of user code

A timer that is set before user code starts takes the machine back. User code below the
interrupt's gate cannot mask it, cannot change where it goes, and can move the compare
register only through a page that it may write, or the 32-bit alias of one. In a sealed
address space it cannot make such a page for itself, so without one it leaves user level in
the step in which the timer comes due, if no other trap has taken it out before.
-/

namespace RvEmu.Preemption

open PageWalk PageTables ExecOutcome StepAnatomy PageIntegrity InterruptMasking
open AddressSpaces ProcessIsolation TimerLaw

/-- The timer is set for user code: it is ahead, enabled and handled, and the compare
    register lies in no page that user code may write, nor in the 32-bit alias of one. -/
structure Armed (emu : Emulator) : Prop where
  ahead : emu.mtime < emu.mtimecmp
  enabled : emu.csr.mie &&& mieMtie ≠ 0
  handler : HandlerInstalled emu
  guarded : ¬ InWritableAlias emu clintMtimecmpLo

/-- The number of steps in which the timer comes due. -/
def deadline (emu : Emulator) : Nat := (emu.mtimecmp - emu.mtime).toNat

/-- User code sets the compare register through a page that it may write. -/
theorem user_sets (emu : Emulator) (user : emu.priv = privU)
    (space : AddressSpace emu.mem emu.csr.satp) (val : Word) (sets : StepSetsCompare emu val) :
    InWritableAlias emu clintMtimecmpLo := by
  obtain ⟨ready, inst, came, va, after, asks, translated, -⟩ := sets
  exact user_store emu user space ready after inst va clintMtimecmpLo came asks translated

/-- The interrupt leaves user level. -/
theorem interrupt_leaves (host : HostFloat) (start : Emulator) (k : Nat)
    (taken : stepEvent host start k = .interrupted) :
    (stateAfter host start (k + 1)).priv ≠ privU := by
  change (emuStep host (stateAfter host start k)).2.priv ≠ privU
  change (emuStep host (stateAfter host start k)).1 = .interrupted at taken
  have shape := step_shape host (stateAfter host start k)
  generalize emuStep host (stateAfter host start k) = result at shape taken
  cases shape with
  | interrupted after delivered =>
    obtain ⟨-, -, ⟨-, -, -, rfl⟩ | ⟨-, rfl⟩⟩ := delivered_cases _ after _ delivered
    · exact fun same : privS = privU => absurd same (by decide)
    · exact fun same : privM = privU => absurd same (by decide)
  | trapped => cases taken
  | failed => cases taken
  | retired => cases taken

section Run

variable (host : HostFloat) (start : Emulator) (space : AddressSpace start.mem start.csr.satp)
  (armed : Armed start)

include space armed

/-- Through a user run the timer counts on and the compare register stays. -/
theorem run_timer (k : Nat) (runs : UserRun host start k) :
    (stateAfter host start k).mtime = start.mtime + BitVec.ofNat 64 k ∧
      (stateAfter host start k).mtimecmp = start.mtimecmp := by
  induction k with
  | zero => exact ⟨(BitVec.add_zero _).symm, rfl⟩
  | succ k inductionHypothesis =>
    have earlier : UserRun host start k := fun j below => runs j (by omega)
    obtain ⟨mtime, mtimecmp⟩ := inductionHypothesis earlier
    have kept := user_run_kept host start k space earlier
    obtain ⟨counts, unset, -⟩ := step_timer host (stateAfter host start k)
    change (emuStep host (stateAfter host start k)).2.mtime = _ ∧
      (emuStep host (stateAfter host start k)).2.mtimecmp = _
    constructor
    · rw [counts, mtime, BitVec.ofNat_add, ← BitVec.add_assoc]
      rfl
    · refine (unset fun val sets => ?_).trans mtimecmp
      have writable := user_sets _ (runs k (Nat.lt_succ_self k))
        (kept_space start _ space kept) val sets
      exact armed.guarded (kept_writable start _ space kept clintMtimecmpLo writable)

/-- At user level the interrupt stays open. -/
theorem run_open (user : start.priv = privU) (k : Nat) (runs : UserRun host start (k + 1)) :
    TimerOpen (stateAfter host start k) := by
  have level := runs k (Nat.lt_succ_self k)
  have kept := user_run_kept host start k space (fun j below => runs j (by omega))
  have sent : delegated (stateAfter host start k) mcauseIrqTimer =
      delegated start mcauseIrqTimer := by
    simp only [delegated, level, user, kept.control.mideleg, kept.control.medeleg]
  constructor
  case enabled =>
    rw [kept.control.mie]
    exact armed.enabled
  case gate =>
    rw [level]
    exact Or.inl (by decide)
  case handler =>
    constructor
    · rw [sent, kept.control.stvec]
      exact armed.handler.supervisor
    · rw [sent, kept.control.mtvec]
      exact armed.handler.machine

/-- Up to the deadline, the timer interrupts in the last step alone. -/
theorem run_interrupted (user : start.priv = privU) (k : Nat)
    (runs : UserRun host start (k + 1)) (before : k + 1 ≤ deadline start) :
    stepEvent host start k = .interrupted ↔ k + 1 = deadline start := by
  obtain ⟨mtime, mtimecmp⟩ := run_timer host start space armed k (fun j below => runs j (by omega))
  have ahead := armed.ahead
  have due : TimerDue (stateAfter host start k) ↔ k + 1 = deadline start := by
    simp only [TimerDue, mtime, mtimecmp, deadline] at before ⊢
    have small : k < 2 ^ 64 := by
      have bound := (start.mtimecmp - start.mtime).isLt
      omega
    have number : (BitVec.ofNat 64 k).toNat = k := by
      rw [BitVec.toNat_ofNat, Nat.mod_eq_of_lt small]
    constructor
    · rintro ⟨-, reached⟩
      bv_omega
    · intro last
      constructor
      · bv_omega
      · bv_omega
  exact (interrupted_iff host _).trans
    ⟨fun both => due.mp both.1,
      fun last => ⟨due.mpr last, run_open host start space armed user k runs⟩⟩

/-- No user run reaches beyond the deadline. -/
theorem run_bounded (user : start.priv = privU) (k : Nat) (runs : UserRun host start (k + 1)) :
    k + 1 ≤ deadline start := by
  by_contra beyond
  have positive : 0 < deadline start := by
    have ahead := armed.ahead
    simp only [deadline]
    bv_omega
  obtain ⟨last, reached⟩ : ∃ last, last + 1 = deadline start := ⟨deadline start - 1, by omega⟩
  have taken := (run_interrupted host start space armed user last
    (fun j below => runs j (by omega)) (by omega)).mpr reached
  exact interrupt_leaves host start last taken (runs (last + 1) (by omega))

end Run

/-- The writer with the timer set to come due in its second step. -/
def armedWriter : Emulator :=
  { writer with
    csr := { writer.csr with mie := 0x80, mtvec := 0x100 }
    mtimecmp := 2 }

end RvEmu.Preemption
