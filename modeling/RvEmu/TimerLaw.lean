import RvEmu.Foundation.BitFields
import RvEmu.InterruptMasking

/-!
# The law of the timer

The timer ticks once in every step, and one kind of instruction sets the compare register:
a word store to the address of its low half. The high half has no address, so from reset
the register holds the word that was stored last while the timer goes on counting. After
2^32 - 1 steps every compare value but zero is due, and no handler can move the next
interrupt into the future.
-/

namespace RvEmu.TimerLaw

open PageWalk ExecOutcome StepAnatomy InterruptMasking

/-! ## The compare register in one instruction -/

/-- The state in which the switch of `execute` ended. -/
def endState : Exec → Emulator
  | .next emu _ _ => emu
  | .unknown emu => emu
  | .except emu _ _ => emu
  | .raised emu _ => emu
  | .stopped emu => emu

/-- The compare register with another low half. -/
def withLow (before : DWord) (val : Word) : DWord :=
  (before &&& 0xFFFFFFFF00000000#64) ||| val.setWidth 64

/-- The timer counts nothing, and its compare register is the same, or its low half was
    set to the word of the condition. -/
structure TimerAfter (emu after : Emulator) (setting : Word → Prop) : Prop where
  mtime : after.mtime = emu.mtime
  same : (∀ val, ¬ setting val) → after.mtimecmp = emu.mtimecmp
  set : ∀ val, setting val → after.mtimecmp = withLow emu.mtimecmp val

/-- Where nothing is set, both components are the same. -/
theorem timer_same (emu after : Emulator) (setting : Word → Prop) (never : ∀ val, ¬ setting val)
    (mtime : after.mtime = emu.mtime) (mtimecmp : after.mtimecmp = emu.mtimecmp) :
    TimerAfter emu after setting :=
  ⟨mtime, fun _ => mtimecmp, fun val holds => absurd holds (never val)⟩

/-- The instruction stores this word to the compare register, once its address is translated. -/
def StoresCompare (emu : Emulator) (inst : DecodedInst) (pa val : Word) : Prop :=
  inst.opcode = .store ∧ inst.funct3 = 2 ∧ pa = clintMtimecmpLo ∧ val = regRead emu.rf inst.rs2

theorem finishStore_timer (emu : Emulator) (inst : DecodedInst) (addr pa : Word) (width : Width)
    (written : Bool × Memory) (setting : Word → Prop) (never : ∀ val, ¬ setting val) :
    TimerAfter emu (endState (finishStore emu inst addr pa width written)) setting := by
  simp only [finishStore, dropReservation]
  split
  · split
    · exact timer_same emu _ _ never rfl rfl
    · exact timer_same emu _ _ never rfl rfl
  · exact timer_same emu _ _ never rfl rfl

/-- Only a word store to the compare register sets it. -/
theorem storeAccess_timer (emu : Emulator) (inst : DecodedInst) (addr pa : Word)
    (kind : inst.opcode = .store) :
    TimerAfter emu (endState (storeAccess inst addr emu pa)) (StoresCompare emu inst pa) := by
  by_cases here : inst.funct3 = 2 ∧ pa = clintMtimecmpLo
  · have setting : StoresCompare emu inst pa (regRead emu.rf inst.rs2) :=
      ⟨kind, here.1, here.2, rfl⟩
    simp only [storeAccess, if_pos here]
    constructor
    case mtime => rfl
    case same => exact fun never => absurd setting (never _)
    case set =>
      rintro val ⟨-, -, -, rfl⟩
      rfl
  · have never : ∀ val, ¬ StoresCompare emu inst pa val :=
      fun val setting => here ⟨setting.2.1, setting.2.2.1⟩
    simp only [storeAccess, if_neg here]
    split
    · exact finishStore_timer emu inst addr pa _ _ _ never
    · exact finishStore_timer emu inst addr pa _ _ _ never
    · exact finishStore_timer emu inst addr pa _ _ _ never
    · exact timer_same emu _ _ never rfl rfl

theorem amoAccess_timer (emu : Emulator) (inst : DecodedInst) (addr pa : Word)
    (setting : Word → Prop) (never : ∀ val, ¬ setting val) :
    TimerAfter emu (endState (amoAccess inst addr emu pa)) setting := by
  simp only [amoAccess, dropReservation]
  split
  · exact timer_same emu _ _ never rfl rfl
  · split
    · exact timer_same emu _ _ never rfl rfl
    · split
      · split
        · exact timer_same emu _ _ never rfl rfl
        · exact timer_same emu _ _ never rfl rfl
      · exact timer_same emu _ _ never rfl rfl

/-- Every other data access leaves it alone. -/
theorem accessOf_timer (emu : Emulator) (inst : DecodedInst) (addr pa : Word) :
    TimerAfter emu (endState (accessOf inst addr emu pa)) (StoresCompare emu inst pa) := by
  have other : inst.opcode ≠ .store → ∀ val, ¬ StoresCompare emu inst pa val :=
    fun differs val setting => differs setting.1
  simp only [accessOf]
  cases kind : inst.opcode <;> dsimp only
  case store => exact storeAccess_timer emu inst addr pa kind
  all_goals
    have never := other (by rw [kind]; exact fun same => by cases same)
  case load =>
    simp only [loadAccess, writeBack]
    split
    · exact timer_same emu _ _ never rfl rfl
    · split
      · exact timer_same emu _ _ never rfl rfl
      · exact timer_same emu _ _ never rfl rfl
      · exact timer_same emu _ _ never rfl rfl
  case loadFp =>
    simp only [loadFpAccess]
    split
    · exact timer_same emu _ _ never rfl rfl
    · exact timer_same emu _ _ never rfl rfl
  case storeFp => exact finishStore_timer emu inst addr pa _ _ _ never
  case amo =>
    split
    · simp only [lrAccess, writeBack]
      split
      · exact timer_same emu _ _ never rfl rfl
      · exact timer_same emu _ _ never rfl rfl
    · split
      · simp only [scAccess, writeBack]
        split
        · split
          · exact timer_same emu _ _ never rfl rfl
          · exact timer_same emu _ _ never rfl rfl
        · exact timer_same emu _ _ never rfl rfl
      · exact amoAccess_timer emu inst addr pa _ never
  all_goals exact timer_same emu _ _ never rfl rfl

/-- The instruction is a word store, and its translation gives the compare register. -/
def SetsCompare (emu : Emulator) (inst : DecodedInst) (val : Word) : Prop :=
  ∃ va after, dataAccess emu inst = some (va, .store) ∧
    mmuTranslate emu va .store = (.ok clintMtimecmpLo, after) ∧
    StoresCompare emu inst clintMtimecmpLo val

theorem execSwitch_timer (host : HostFloat) (emu : Emulator) (inst : DecodedInst) :
    TimerAfter emu (endState (execSwitch host emu inst)) (SetsCompare emu inst) := by
  cases asked : dataAccess emu inst with
  | none =>
    have never : ∀ val, ¬ SetsCompare emu inst val := by
      rintro val ⟨va, after, asks, -⟩
      rw [asked] at asks
      cases asks
    have outcome := execSwitch_outcome host emu inst
    generalize execSwitch host emu inst = exit at outcome
    cases outcome with
    | hostCalled raw noHandler level =>
      obtain ⟨rf, state, exitCode, same⟩ := hostCall_frame emu
      simp only [endState, same]
      exact timer_same emu _ _ never rfl rfl
    | accessed addr acc pa after exit asks translated rest =>
      rw [asked] at asks
      cases asks
    | _ => exact timer_same emu _ _ never rfl rfl
  | some request =>
    obtain ⟨addr, acc⟩ := request
    rw [execSwitch_access host emu inst addr acc asked, translateThen]
    rcases translated : mmuTranslate emu addr acc with ⟨result, after⟩
    cases result with
    | error cause =>
      obtain ⟨rfl, -⟩ := mmuTranslate_error emu after addr cause acc translated
      refine timer_same after _ _ ?_ rfl rfl
      rintro val ⟨va, later, asks, passes, -⟩
      rw [asked] at asks
      cases asks
      rw [translated] at passes
      cases passes
    | ok pa =>
      obtain ⟨mem, rfl⟩ := mmuTranslate_frame emu after addr pa acc translated
      -- The access sets the register exactly when the instruction does.
      have setting : ∀ val, SetsCompare emu inst val ↔ StoresCompare (withMem emu mem) inst pa val := by
        intro val
        constructor
        · rintro ⟨va, later, asks, passes, stores⟩
          rw [asked] at asks
          cases asks
          rw [translated] at passes
          cases passes
          exact stores
        · intro stores
          have storing : acc = .store := by
            have asks := asked
            simp only [dataAccess, stores.1] at asks
            split at asks
            · cases asks
            · cases asks
              rfl
          obtain ⟨kind, width, rfl, value⟩ := stores
          subst storing
          exact ⟨addr, _, asked, translated, kind, width, rfl, value⟩
      obtain ⟨mtime, same, set⟩ := accessOf_timer (withMem emu mem) inst addr pa
      exact ⟨mtime, fun never => same fun val stores => never val ((setting val).mpr stores),
        fun val sets => set val ((setting val).mp sets)⟩

/-! ## One step -/

theorem raiseOrStop_timer (emu : Emulator) (cause tval epc : Word) :
    (raiseOrStop emu cause tval epc).2.mtime = emu.mtime ∧
      (raiseOrStop emu cause tval epc).2.mtimecmp = emu.mtimecmp := by
  simp only [raiseOrStop]
  rcases raised : trapRaise emu cause tval epc with ⟨entered, after⟩
  cases entered with
  | true =>
    rcases trapRaise_cases emu after cause tval epc raised with ⟨-, -, rfl⟩ | ⟨-, -, rfl⟩
    · exact ⟨rfl, rfl⟩
    · exact ⟨rfl, rfl⟩
  | false =>
    obtain rfl := trapRaise_refused emu after cause tval epc raised
    exact ⟨rfl, rfl⟩

/-- After the switch the timer is left alone. -/
theorem execute_timer (host : HostFloat) (emu : Emulator) (inst : DecodedInst) :
    (execute host emu inst).2.mtime = (endState (execSwitch host emu inst)).mtime ∧
      (execute host emu inst).2.mtimecmp = (endState (execSwitch host emu inst)).mtimecmp := by
  simp only [execute]
  cases execSwitch host emu inst with
  | next after nextPc effect => exact ⟨rfl, rfl⟩
  | unknown after => exact raiseOrStop_timer after _ _ _
  | except after cause addr => exact raiseOrStop_timer after _ _ _
  | raised after cause => exact raiseOrStop_timer after _ _ _
  | stopped after => exact ⟨rfl, rfl⟩

theorem countCycle_timer (result : Event × Emulator) :
    (countCycle result).2.mtime = result.2.mtime ∧
      (countCycle result).2.mtimecmp = result.2.mtimecmp := by
  simp only [countCycle]
  split
  · exact ⟨rfl, rfl⟩
  · exact ⟨rfl, rfl⟩

/-- The step issues an instruction that stores this word to the compare register. -/
def StepSetsCompare (emu : Emulator) (val : Word) : Prop :=
  ∃ ready inst, issued emu = some (ready, inst) ∧ SetsCompare ready inst val

/-- A step that issues nothing stores nothing. -/
theorem unissued_timer (emu after : Emulator) (front : issued emu = none)
    (mtime : after.mtime = emu.mtime + 1) (mtimecmp : after.mtimecmp = emu.mtimecmp) :
    after.mtime = emu.mtime + 1 ∧
      ((∀ val, ¬ StepSetsCompare emu val) → after.mtimecmp = emu.mtimecmp) ∧
      ∀ val, StepSetsCompare emu val → after.mtimecmp = withLow emu.mtimecmp val := by
  refine ⟨mtime, fun _ => mtimecmp, ?_⟩
  rintro val ⟨ready, inst, came, -⟩
  rw [front] at came
  cases came

/-- Every step ticks the timer once, and sets the compare register by such an instruction
    alone. -/
theorem step_timer (host : HostFloat) (emu : Emulator) :
    (emuStep host emu).2.mtime = emu.mtime + 1 ∧
      ((∀ val, ¬ StepSetsCompare emu val) → (emuStep host emu).2.mtimecmp = emu.mtimecmp) ∧
      ∀ val, StepSetsCompare emu val →
        (emuStep host emu).2.mtimecmp = withLow emu.mtimecmp val := by
  have ticks : ∀ mem, (ticked emu mem).mtime = emu.mtime + 1 ∧
      (ticked emu mem).mtimecmp = emu.mtimecmp := by
    intro mem
    rw [ticked, timerTick_eq]
    exact ⟨rfl, rfl⟩
  rw [emuStep_halves]
  obtain ⟨mtime, mtimecmp⟩ := countCycle_timer (backEnd host emu.rf.pc (frontEnd emu))
  rw [mtime, mtimecmp]
  cases front : frontEnd emu with
  | interrupted after =>
    have none : issued emu = none := by rw [issued, front]
    obtain ⟨raised, -⟩ := taken_state emu after _ (interrupted_front emu after front)
    rw [← ticked_same] at raised
    obtain ⟨counted, kept⟩ := ticks emu.mem
    rcases trapRaise_cases _ after _ _ _ raised with ⟨-, -, rfl⟩ | ⟨-, -, rfl⟩
    · exact unissued_timer emu _ none counted kept
    · exact unissued_timer emu _ none counted kept
  | refused after cause tval =>
    have none : issued emu = none := by rw [issued, front]
    obtain ⟨-, mem, rfl, -⟩ := refused_front emu after cause tval front
    obtain ⟨counted, kept⟩ := ticks mem
    obtain ⟨raisedTime, raisedCompare⟩ := raiseOrStop_timer (ticked emu mem) cause tval emu.rf.pc
    exact unissued_timer emu _ none (raisedTime.trans counted) (raisedCompare.trans kept)
  | issued after inst =>
    have came : issued emu = some (after, inst) := by
      rw [issued, front]
    obtain ⟨-, -, -, -, mem, rfl, -⟩ := issued_front emu after inst came
    obtain ⟨counted, kept⟩ := ticks mem
    obtain ⟨executedTime, executedCompare⟩ := execute_timer host (ticked emu mem) inst
    obtain ⟨switchTime, same, set⟩ := execSwitch_timer host (ticked emu mem) inst
    rw [kept] at same set
    refine ⟨(executedTime.trans switchTime).trans counted, ?_, ?_⟩
    · intro never
      exact executedCompare.trans (same fun val sets => never val ⟨_, inst, came, sets⟩)
    · rintro val ⟨ready, other, issues, sets⟩
      rw [came] at issues
      cases issues
      exact executedCompare.trans (set val sets)

/-! ## When the interrupt is taken -/

/-- The handler that a timer interrupt goes to has a vector. -/
structure HandlerInstalled (emu : Emulator) : Prop where
  supervisor : delegated emu mcauseIrqTimer = true → emu.csr.stvec ≠ 0
  machine : delegated emu mcauseIrqTimer = false → emu.csr.mtvec ≠ 0

/-- The interrupt is enabled, passes the gate, and has a handler. -/
structure TimerOpen (emu : Emulator) : Prop where
  enabled : emu.csr.mie &&& mieMtie ≠ 0
  gate : emu.priv ≠ privM ∨ emu.csr.mstatus &&& mstatusMie ≠ 0
  handler : HandlerInstalled emu

/-- A step is a timer interrupt exactly when the timer is due and open. -/
theorem interrupted_iff (host : HostFloat) (emu : Emulator) :
    (emuStep host emu).1 = .interrupted ↔ TimerDue emu ∧ TimerOpen emu := by
  obtain ⟨mip, csr⟩ := tick_csr emu
  have sent : delegated (timerTick emu) mcauseIrqTimer = delegated emu mcauseIrqTimer := by
    simp only [delegated, csr, timerTick_priv]
  constructor
  · intro interrupted
    have shape := step_shape host emu
    generalize emuStep host emu = result at shape interrupted
    cases shape with
    | interrupted after taken =>
      obtain ⟨raised, pending, enabled, gate⟩ := taken_state emu after _ taken
      have due := (pending_iff emu).mp pending
      rw [timerTick_priv] at gate
      rw [csr] at enabled gate
      refine ⟨due, enabled, gate, ?_⟩
      rcases trapRaise_cases _ after _ _ _ raised with ⟨goes, vector, -⟩ | ⟨goes, vector, -⟩
      · rw [sent] at goes
        rw [csr] at vector
        exact ⟨fun _ => vector, fun other => absurd (goes.symm.trans other) (by decide)⟩
      · rw [sent] at goes
        rw [csr] at vector
        exact ⟨fun other => absurd (goes.symm.trans other) (by decide), fun _ => vector⟩
    | trapped => cases interrupted
    | failed => cases interrupted
    | retired => cases interrupted
  · rintro ⟨due, isOpen⟩
    have pending := (pending_iff emu).mpr due
    have gate : (timerTick emu).csr.mip &&& mipMtip ≠ 0 ∧ (timerTick emu).csr.mie &&& mieMtie ≠ 0 ∧
        ((timerTick emu).priv ≠ privM ∨ (timerTick emu).csr.mstatus &&& mstatusMie ≠ 0) := by
      refine ⟨pending, ?_⟩
      rw [timerTick_priv, csr]
      exact ⟨isOpen.enabled, isOpen.gate⟩
    have taken : (trapCheckInterrupt emu emu.rf.pc).1 = true := by
      simp only [trapCheckInterrupt]
      rw [if_pos gate, trapRaise, sent, csr]
      cases goes : delegated emu mcauseIrqTimer with
      | true => rw [if_pos rfl, if_neg (isOpen.handler.supervisor goes)]
      | false => rw [if_neg (by decide), if_neg (isOpen.handler.machine goes)]
    rcases checked : trapCheckInterrupt emu emu.rf.pc with ⟨entered, after⟩
    rw [checked] at taken
    subst taken
    have front : frontEnd emu = .interrupted after := by
      rw [frontEnd, checked]
    rw [emuStep_halves, front]
    rfl

/-! ## Runs from reset -/

/-- Without a high half, the register is the word stored to its low half. -/
theorem withLow_extended (before val : Word) :
    withLow (before.setWidth 64) val = val.setWidth 64 := by
  have low : before.setWidth 64 &&& BitFields.lowOnes 64 32 = before.setWidth 64 := by
    rw [BitFields.and_lowOnes, BitVec.setWidth_setWidth_of_le before (by decide),
      BitVec.setWidth_eq]
  have apart : BitFields.lowOnes 64 32 &&& 0xFFFFFFFF00000000#64 = 0#64 := by decide
  rw [withLow, ← low, BitVec.and_assoc, apart, BitVec.and_zero, BitVec.zero_or]

/-- The word that was stored to the compare register last before step `n`, or zero when none
    was. -/
inductive LastStored (host : HostFloat) (start : Emulator) (n : Nat) : Word → Prop where
  | never (quiet : ∀ k, k < n → ∀ val, ¬ StepSetsCompare (stateAfter host start k) val) :
      LastStored host start n 0
  | stored (k : Nat) (val : Word) (before : k < n)
      (sets : StepSetsCompare (stateAfter host start k) val)
      (quiet : ∀ j, k < j → j < n → ∀ val, ¬ StepSetsCompare (stateAfter host start j) val) :
      LastStored host start n val

/-- A step that stores nothing keeps the last word. -/
theorem lastStored_quiet (host : HostFloat) (start : Emulator) (n : Nat) (val : Word)
    (last : LastStored host start n val)
    (none : ∀ val, ¬ StepSetsCompare (stateAfter host start n) val) :
    LastStored host start (n + 1) val := by
  have later : ∀ j, j < n + 1 → j < n ∨ j = n := by omega
  cases last with
  | never quiet =>
    refine .never fun k below => ?_
    rcases later k below with earlier | rfl
    · exact quiet k earlier
    · exact none
  | stored k _ before sets quiet =>
    refine .stored k val (by omega) sets fun j above below => ?_
    rcases later j below with earlier | rfl
    · exact quiet j above earlier
    · exact none

/-- The timer counts the steps from reset, and the compare register holds the word stored
    last. -/
theorem timer_run (host : HostFloat) (start : Emulator) (boot : Boot start) (n : Nat) :
    (stateAfter host start n).mtime = BitVec.ofNat 64 n ∧
      ∃ val, LastStored host start n val ∧
        (stateAfter host start n).mtimecmp = val.setWidth 64 := by
  induction n with
  | zero =>
    have first : LastStored host start 0 0 := .never fun k below => absurd below (by omega)
    cases boot with
    | reset beyond => exact ⟨rfl, 0, first, rfl⟩
    | loaded beyond image => exact ⟨rfl, 0, first, rfl⟩
  | succ n inductionHypothesis =>
    obtain ⟨counted, val, last, holds⟩ := inductionHypothesis
    obtain ⟨mtime, same, set⟩ := step_timer host (stateAfter host start n)
    rw [holds] at same set
    constructor
    · rw [stateAfter, Runs.stateAt_succ, mtime, counted, BitVec.ofNat_add]
      rfl
    · by_cases sets : ∃ val, StepSetsCompare (stateAfter host start n) val
      · obtain ⟨later, sets⟩ := sets
        refine ⟨later, .stored n later (Nat.lt_succ_self n) sets (fun j above below => by omega), ?_⟩
        rw [stateAfter, Runs.stateAt_succ, set later sets, withLow_extended]
      · have none := not_exists.mp sets
        refine ⟨val, lastStored_quiet host start n val last none, ?_⟩
        rw [stateAfter, Runs.stateAt_succ, same none]

/-- What the timer does in step `n` from reset, counted from zero. -/
structure TimerObeys (host : HostFloat) (start : Emulator) (n : Nat) : Prop where
  counts : (stateAfter host start n).mtime.toNat = n
  compares : ∃ val, LastStored host start n val ∧
    (stateAfter host start n).mtimecmp = val.setWidth 64
  taken : stepEvent host start n = .interrupted ↔
    ((stateAfter host start n).mtimecmp ≠ 0 ∧
        (stateAfter host start n).mtimecmp.toNat ≤ n + 1) ∧
      TimerOpen (stateAfter host start n)
  expired : 2 ^ 32 ≤ n + 1 →
    (stepEvent host start n = .interrupted ↔
      (stateAfter host start n).mtimecmp ≠ 0 ∧ TimerOpen (stateAfter host start n))

end RvEmu.TimerLaw
