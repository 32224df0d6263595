import RvEmu.StatusStack
import RvEmu.StepAnatomy

/-!
# Legal privilege levels

Three encodings name a privilege level. Reset starts at machine level, trap
entry goes to supervisor or machine level, and `sret` to user or supervisor
level. Only `mret` copies a level out of `mstatus`, where machine code may have
written anything, so the level stays legal exactly as long as no `mret` restores
the encoding 2.

In that reserved level a page of either kind is accessible: `pte_allows` tests
the user bit of an entry at levels U and S alone.
-/

namespace RvEmu.PrivilegeLevels

open ExecOutcome StatusStack StepAnatomy

/-- The next step executes `mret` at machine level with the reserved encoding
    saved. -/
def ReservedReturn (emu : Emulator) : Prop :=
  emu.priv = privM ∧ savedLevel emu.csr.mstatus = 2 ∧
    ∃ after inst, issued emu = some (after, inst) ∧ inst.raw = rawMret

/-- `sret` goes to user or supervisor level. -/
theorem trapSret_level (emu : Emulator) : Level (trapSret emu).2.priv := by
  rw [trapSret_priv]
  split
  · exact Or.inr (Or.inl rfl)
  · exact Or.inl rfl

/-- A trap goes to supervisor or machine level. -/
theorem trapRaise_level (emu after : Emulator) (cause tval epc : Word)
    (raised : trapRaise emu cause tval epc = (true, after)) : Level after.priv := by
  rcases trapRaise_cases emu after cause tval epc raised with ⟨-, -, same⟩ | ⟨-, -, same⟩
  · exact same ▸ Or.inr (Or.inl rfl)
  · exact same ▸ Or.inr (Or.inr rfl)

/-- A step keeps the level, goes to a legal one, or restores the reserved
    encoding. -/
theorem step_priv (host : HostFloat) (emu : Emulator) :
    (emuStep host emu).2.priv = emu.priv ∨ Level (emuStep host emu).2.priv ∨
      ReservedReturn emu := by
  have shape := step_shape host emu
  generalize emuStep host emu = result at shape
  cases shape with
  | interrupted after taken =>
    exact Or.inr (Or.inl (trapRaise_level _ after _ _ _ (taken_state emu after _ taken).1))
  | trapped mem cause tval after touched code raised =>
    exact Or.inr (Or.inl (trapRaise_level _ after _ _ _ raised))
  | failed mem touched => exact Or.inl (ticked_priv emu mem)
  | retired mem inst after nextPc effect came touched outcome =>
    change after.priv = emu.priv ∨ Level after.priv ∨ ReservedReturn emu
    rcases outcome_control (ticked emu mem) after inst nextPc effect outcome with
      ⟨same, -⟩ | ⟨name, val, -, -, same, -⟩ | ⟨raw, level, same⟩ | ⟨raw, level, same⟩
    · exact Or.inl (same.trans (ticked_priv emu mem))
    · exact Or.inl (same.trans (ticked_priv emu mem))
    · rw [same, trapMret_priv, ticked_mstatus]
      rw [ticked_priv] at level
      rcases savedLevel_cases emu.csr.mstatus with restored | reserved
      · exact Or.inr (Or.inl restored)
      · exact Or.inr (Or.inr ⟨level, reserved, _, inst, came, raw⟩)
    · rw [same]
      exact Or.inr (Or.inl (trapSret_level (ticked emu mem)))

/-- Restoring the reserved encoding leaves the legal levels. -/
theorem reserved_step (host : HostFloat) (emu : Emulator) (reserved : ReservedReturn emu) :
    (emuStep host emu).2.priv = 2 := by
  obtain ⟨level, saved, after, inst, came, raw⟩ := reserved
  obtain ⟨-, -, -, -, mem, same, -⟩ := issued_front emu after inst came
  subst same
  rw [mret_step host emu (ticked emu mem) inst came raw (by rw [ticked_priv, level])]
  change (trapMret (ticked emu mem)).2.priv = 2
  rw [trapMret_priv, ticked_mstatus, saved]

/-- A step keeps the level legal exactly when it is no such return. -/
theorem step_level_iff (host : HostFloat) (emu : Emulator) (legal : Level emu.priv) :
    Level (emuStep host emu).2.priv ↔ ¬ ReservedReturn emu := by
  constructor
  · intro kept reserved
    rw [reserved_step host emu reserved] at kept
    revert kept
    decide
  · intro allowed
    rcases step_priv host emu with same | level | reserved
    · exact same ▸ legal
    · exact level
    · exact absurd reserved allowed

/-- Every boot state is at machine level. -/
theorem boot_level (start : Emulator) (boot : Boot start) : start.priv = privM := by
  cases boot with
  | reset beyond => rfl
  | loaded beyond image => rfl

/-- Whatever a program does, the level stays one of the four encodings. -/
theorem reachable_encoded (host : HostFloat) (emu : Emulator) (reachable : Reachable host emu) :
    Level emu.priv ∨ emu.priv = 2 := by
  obtain ⟨start, n, boot, rfl⟩ := reachable
  apply Runs.invariant (emuStep host) (fun emu => Level emu.priv ∨ emu.priv = 2)
  · intro emu encoded
    rcases step_priv host emu with same | level | reserved
    · exact same ▸ encoded
    · exact Or.inl level
    · exact Or.inr (reserved_step host emu reserved)
  · rw [boot_level start boot]
    exact Or.inl (Or.inr (Or.inr rfl))

/-- The states of a run up to step `n` are at legal levels exactly when none of
    the steps before it restores the reserved encoding. The first such return
    leaves the legal levels, and every other step from a legal level keeps it. -/
theorem run_levels_iff (host : HostFloat) (start : Emulator) (boot : Boot start) (n : Nat) :
    (∀ k, k ≤ n → Level (stateAfter host start k).priv) ↔
      ∀ k, k < n → ¬ ReservedReturn (stateAfter host start k) := by
  apply Runs.invariant_iff (emuStep host) (fun emu => Level emu.priv)
    (fun emu => ¬ ReservedReturn emu) (step_level_iff host)
  rw [boot_level start boot]
  exact Or.inr (Or.inr rfl)

/-- `lui x1, 1; csrrw x0, mstatus, x1; mret`, loaded at 0x1000. -/
def reservedProgram : Emulator :=
  loadImage (emuInit fun _ => 0) (programImage 0x1000 [0x000010B7, 0x30009073, 0x30200073])

/-- The exact condition for the run of that program. -/
theorem reservedProgram_levels :
    (∀ k, k ≤ 3 → Level (stateAfter idleHost reservedProgram k).priv) ↔
      ∀ k, k < 3 → ¬ ReservedReturn (stateAfter idleHost reservedProgram k) :=
  run_levels_iff idleHost reservedProgram (.loaded _ _) 3

/-- Three steps of a program in machine mode reach privilege 2. -/
theorem reserved_level_reached :
    Boot reservedProgram ∧ (stateAfter idleHost reservedProgram 3).priv = 2 ∧
      ¬ ∀ start n, Boot start → Level (stateAfter idleHost start n).priv := by
  have boot : Boot reservedProgram := .loaded _ _
  have reached : (stateAfter idleHost reservedProgram 3).priv = 2 := by decide +kernel
  refine ⟨boot, reached, ?_⟩
  intro always
  have legal := always reservedProgram 3 boot
  rw [reached] at legal
  revert legal
  decide

end RvEmu.PrivilegeLevels
