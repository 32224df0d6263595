import RvEmu.Foundation.EnableStack
import RvEmu.Trap

/-!
# The status register across traps

Trap entry and return rewrite `mstatus` in four places, each with its own masks.
At each level the enable bit is pushed into and popped from the previous-enable
bit, and the level trapped from is kept in the previous-privilege field. The
four rewrites are stated here as functions of the word; each leaves every field
outside its own bits alone, and a return undoes the entry of its level.
-/

namespace RvEmu.StatusStack

open EnableStack

/-- The encodings that name a privilege level. -/
def Level (priv : Word) : Prop := priv = privU ∨ priv = privS ∨ priv = privM

instance (priv : Word) : Decidable (Level priv) :=
  inferInstanceAs (Decidable (priv = privU ∨ priv = privS ∨ priv = privM))

/-- User and supervisor level are the levels up to supervisor level. -/
theorem lower_iff (priv : Word) : priv ≤ privS ↔ priv = privU ∨ priv = privS := by
  constructor
  · intro bound
    have values : priv.toNat ≤ 1 := bound
    have cases : priv.toNat = 0 ∨ priv.toNat = 1 := by omega
    rcases cases with zero | one
    · exact Or.inl (BitVec.eq_of_toNat_eq zero)
    · exact Or.inr (BitVec.eq_of_toNat_eq one)
  · rintro (rfl | rfl)
    · decide
    · decide

/-- Bits of `mstatus` that belong to machine traps. -/
def machineBits : Word := mstatusMie ||| mstatusMpie ||| mstatusMppMask

/-- Bits of `mstatus` that belong to supervisor traps. -/
def supervisorBits : Word := mstatusSie ||| mstatusSpie ||| mstatusSpp

/-- The level saved in `MPP`. -/
def savedLevel (mstatus : Word) : Word := (mstatus &&& mstatusMppMask) >>> 11

/-- `mstatus` after entry into the machine handler. -/
def machineEntry (mstatus priv : Word) : Word :=
  (push mstatus mstatusMie mstatusMpie &&& ~~~mstatusMppMask) ||| ((priv &&& 0x3) <<< 11)

/-- `mstatus` after entry into the supervisor handler. -/
def supervisorEntry (mstatus priv : Word) : Word :=
  if priv = privS then push mstatus mstatusSie mstatusSpie ||| mstatusSpp
  else push mstatus mstatusSie mstatusSpie &&& ~~~mstatusSpp

/-- `mstatus` after `mret`. -/
def machineReturn (mstatus : Word) : Word :=
  (pop mstatus mstatusMie mstatusMpie &&& ~~~mstatusMppMask) ||| mstatusMppU

/-- `mstatus` after `sret`. -/
def supervisorReturn (mstatus : Word) : Word :=
  pop mstatus mstatusSie mstatusSpie &&& ~~~mstatusSpp

theorem enterMachine_mstatus (emu : Emulator) (cause tval epc : Word) :
    (enterMachine emu cause tval epc).csr.mstatus = machineEntry emu.csr.mstatus emu.priv := rfl

theorem enterSupervisor_mstatus (emu : Emulator) (cause tval epc : Word) :
    (enterSupervisor emu cause tval epc).csr.mstatus =
      supervisorEntry emu.csr.mstatus emu.priv := rfl

theorem trapSret_mstatus (emu : Emulator) :
    (trapSret emu).2.csr.mstatus = supervisorReturn emu.csr.mstatus := rfl

/-! ## What each rewrite leaves alone -/

/-- A level shifted into place lies in the `MPP` field. -/
theorem level_apart (priv field : Word) (apart : mstatusMppMask &&& field = 0) :
    ((priv &&& 0x3) <<< 11) &&& field = 0 := by
  have inside : ((priv &&& 0x3) <<< 11) &&& mstatusMppMask = (priv &&& 0x3) <<< 11 := by
    have mask : mstatusMppMask = 3#32 <<< 11 := rfl
    rw [mask, ← BitVec.shiftLeft_and_distrib, BitVec.and_assoc]
    rfl
  rw [← inside, BitVec.and_assoc, apart]
  exact BitVec.and_zero

/-- Machine entry changes `MIE`, `MPIE` and `MPP` alone. -/
theorem machineEntry_keeps (mstatus priv field : Word) (enable : mstatusMie &&& field = 0)
    (previous : mstatusMpie &&& field = 0) (level : mstatusMppMask &&& field = 0) :
    machineEntry mstatus priv &&& field = mstatus &&& field := by
  rw [machineEntry, BitMasks.or_keeps _ _ _ (level_apart priv field level),
    BitMasks.clear_keeps _ _ _ level]
  exact push_keeps mstatus mstatusMie mstatusMpie field enable previous

/-- Supervisor entry changes `SIE`, `SPIE` and `SPP` alone. -/
theorem supervisorEntry_keeps (mstatus priv field : Word) (enable : mstatusSie &&& field = 0)
    (previous : mstatusSpie &&& field = 0) (level : mstatusSpp &&& field = 0) :
    supervisorEntry mstatus priv &&& field = mstatus &&& field := by
  rw [supervisorEntry, BitMasks.choose_keeps _ _ _ _ level]
  exact push_keeps mstatus mstatusSie mstatusSpie field enable previous

/-- `MPP` becomes user level, whose encoding is zero. -/
theorem machineReturn_eq (mstatus : Word) :
    machineReturn mstatus = pop mstatus mstatusMie mstatusMpie &&& ~~~mstatusMppMask := by
  have user : mstatusMppU = 0#32 := by decide
  rw [machineReturn, user, BitVec.or_zero]

/-- Supervisor return changes the same three fields as supervisor entry. -/
theorem supervisorReturn_keeps (mstatus field : Word) (enable : mstatusSie &&& field = 0)
    (previous : mstatusSpie &&& field = 0) (level : mstatusSpp &&& field = 0) :
    supervisorReturn mstatus &&& field = mstatus &&& field := by
  rw [supervisorReturn, BitMasks.clear_keeps _ _ _ level]
  exact pop_keeps mstatus mstatusSie mstatusSpie field enable previous

/-! ## Returns undo entries -/

/-- A two-bit field has four values. -/
theorem savedLevel_cases (mstatus : Word) :
    Level (savedLevel mstatus) ∨ savedLevel mstatus = 2 := by
  have field : savedLevel mstatus = (mstatus >>> 11) &&& 3 := by
    rw [savedLevel, BitVec.ushiftRight_and_distrib]
    rfl
  have masked : ((mstatus >>> 11) &&& 3).toNat = (mstatus >>> 11).toNat % 2 ^ 2 :=
    BitMasks.and_low (mstatus >>> 11) 2 (by decide)
  have small : (savedLevel mstatus).toNat < 4 := by
    rw [field, masked]
    exact Nat.mod_lt _ (by decide)
  have values : (savedLevel mstatus).toNat = 0 ∨ (savedLevel mstatus).toNat = 1 ∨
      (savedLevel mstatus).toNat = 2 ∨ (savedLevel mstatus).toNat = 3 := by omega
  rcases values with value | value | value | value
  · exact Or.inl (Or.inl (BitVec.eq_of_toNat_eq value))
  · exact Or.inl (Or.inr (Or.inl (BitVec.eq_of_toNat_eq value)))
  · exact Or.inr (BitVec.eq_of_toNat_eq value)
  · exact Or.inl (Or.inr (Or.inr (BitVec.eq_of_toNat_eq value)))

/-- `mret` goes to the saved level: the bits it changes first lie outside `MPP`. -/
theorem trapMret_priv (emu : Emulator) :
    (trapMret emu).2.priv = savedLevel emu.csr.mstatus := by
  have kept : pop emu.csr.mstatus mstatusMie mstatusMpie &&& mstatusMppMask =
      emu.csr.mstatus &&& mstatusMppMask :=
    pop_keeps _ _ _ _ (by decide) (by decide)
  rw [savedLevel, ← kept]
  rfl

/-- `sret` goes to the level `SPP` names. -/
theorem trapSret_priv (emu : Emulator) :
    (trapSret emu).2.priv = if emu.csr.mstatus &&& mstatusSpp ≠ 0 then privS else privU := by
  have kept : pop emu.csr.mstatus mstatusSie mstatusSpie &&& mstatusSpp =
      emu.csr.mstatus &&& mstatusSpp :=
    pop_keeps _ _ _ _ (by decide) (by decide)
  change (if pop emu.csr.mstatus mstatusSie mstatusSpie &&& mstatusSpp ≠ 0 then privS
    else privU) = _
  rw [kept]

/-- Machine entry saves any two-bit level. -/
theorem machineEntry_level (mstatus priv : Word) (encoded : Level priv ∨ priv = 2) :
    savedLevel (machineEntry mstatus priv) = priv := by
  have saved (field : Word) (fits : field &&& mstatusMppMask = field) (back : field >>> 11 = priv)
      (entered : (priv &&& 0x3) <<< 11 = field) :
      savedLevel (machineEntry mstatus priv) = priv := by
    rw [savedLevel, machineEntry, entered, BitMasks.merge_inside _ _ _ fits, back]
  rcases encoded with (rfl | rfl | rfl) | rfl
  · exact saved _ (by decide) (by decide) rfl
  · exact saved _ (by decide) (by decide) rfl
  · exact saved _ (by decide) (by decide) rfl
  · exact saved _ (by decide) (by decide) rfl

/-- Supervisor entry saves which of the two lower levels it came from. -/
theorem supervisorEntry_level (mstatus priv : Word) :
    supervisorEntry mstatus priv &&& mstatusSpp ≠ 0 ↔ priv = privS := by
  have nonzero : mstatusSpp ≠ 0 := by decide
  rw [supervisorEntry, choose_reads]
  by_cases supervisor : priv = privS
  · rw [if_pos supervisor]
    exact iff_of_true nonzero supervisor
  · rw [if_neg supervisor]
    exact iff_of_false (not_not.mpr rfl) supervisor

/-- Machine return restores the enable bit machine entry saved. -/
theorem machine_restores (mstatus priv : Word) :
    machineReturn (machineEntry mstatus priv) &&& mstatusMie = mstatus &&& mstatusMie := by
  have saved : machineEntry mstatus priv &&& mstatusMpie =
      push mstatus mstatusMie mstatusMpie &&& mstatusMpie := by
    rw [machineEntry, BitMasks.or_keeps _ _ _ (level_apart priv mstatusMpie (by decide))]
    exact BitMasks.clear_keeps _ _ _ (by decide)
  rw [machineReturn_eq, BitMasks.clear_keeps _ _ _ (by decide)]
  exact pop_restores mstatus _ mstatusMpie 3 (by decide) (by decide) saved

/-- Supervisor return restores the enable bit that supervisor entry saved, whatever
    else happened to the word in between. -/
theorem supervisor_unwinds (mstatus priv later : Word)
    (kept : later &&& mstatusSpie = supervisorEntry mstatus priv &&& mstatusSpie) :
    supervisorReturn later &&& mstatusSie = mstatus &&& mstatusSie := by
  have saved : later &&& mstatusSpie = push mstatus mstatusSie mstatusSpie &&& mstatusSpie :=
    kept.trans (BitMasks.choose_keeps _ _ _ _ (by decide))
  rw [supervisorReturn, BitMasks.clear_keeps _ _ _ (by decide)]
  exact pop_restores mstatus _ mstatusSpie 1 (by decide) (by decide) saved

/-- Supervisor return undoes supervisor entry. -/
theorem supervisor_restores (mstatus priv : Word) :
    supervisorReturn (supervisorEntry mstatus priv) &&& mstatusSie = mstatus &&& mstatusSie :=
  supervisor_unwinds mstatus priv _ rfl

/-- Supervisor return goes back to the level that supervisor entry saved. -/
theorem supervisor_level (mstatus priv later : Word) (lower : priv = privU ∨ priv = privS)
    (kept : later &&& mstatusSpp = supervisorEntry mstatus priv &&& mstatusSpp) :
    (if later &&& mstatusSpp ≠ 0 then privS else privU) = priv := by
  rw [kept]
  by_cases supervisor : priv = privS
  · rw [if_pos ((supervisorEntry_level mstatus priv).mpr supervisor), supervisor]
  · rw [if_neg (fun saved => supervisor ((supervisorEntry_level mstatus priv).mp saved))]
    exact (lower.resolve_right supervisor).symm

/-- A machine trap and its return leave every field outside the machine's bits
    alone. -/
theorem machineEpisode_keeps (mstatus priv field : Word) (enable : mstatusMie &&& field = 0)
    (previous : mstatusMpie &&& field = 0) (level : mstatusMppMask &&& field = 0) :
    machineReturn (machineEntry mstatus priv) &&& field = mstatus &&& field := by
  rw [machineReturn_eq, BitMasks.clear_keeps _ _ _ level,
    pop_keeps _ mstatusMie mstatusMpie field enable previous]
  exact machineEntry_keeps mstatus priv field enable previous level

/-- Supervisor entry clears the enable bit. -/
theorem supervisorEntry_disabled (mstatus priv : Word) :
    supervisorEntry mstatus priv &&& mstatusSie = 0 := by
  rw [supervisorEntry, BitMasks.choose_keeps _ _ _ _ (by decide)]
  exact push_disabled mstatus mstatusSie mstatusSpie

end RvEmu.StatusStack
