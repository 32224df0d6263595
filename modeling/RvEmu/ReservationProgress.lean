import RvEmu.Reservation

/-!
# LR/SC reservations make progress

Seen from outside, the reservation is an address or nothing. A step changes it by
its event alone: a load-reserved sets it, a completed store-conditional ends it,
and a store ends it when it names the reserved address. Traps, returns, faults
and page-table updates are other events and leave it alone.

So a lock loop whose word nobody writes does not lose its reservation, and a
reservation serves one store-conditional.
-/

namespace RvEmu.ReservationProgress

open LittleEndian PageWalk PageTables ExecOutcome StepAnatomy Reservation

/-- The reserved address, while there is one. -/
def reserved (emu : Emulator) : Option Word :=
  if emu.reservationValid then some emu.reservationAddr else none

/-- What an event makes of the reservation. -/
def reservedAfter (before : Option Word) : Event → Option Word
  | .retired (.loadReserved p) => some p
  | .retired (.storeConditional _ _) => none
  | .retired (.stored q _) => if before = some q then none else before
  | _ => before

/-- The reservation is a function of its two fields. -/
theorem reserved_congr (before after : Emulator)
    (same : after.reservationValid = before.reservationValid ∧
      after.reservationAddr = before.reservationAddr) : reserved after = reserved before := by
  simp only [reserved, same.1, same.2]

/-- Ending a reservation of an address ends it exactly when it is that address. -/
theorem reserved_drop (emu : Emulator) (q : Word) :
    reserved (dropReservation emu q) =
      if reserved emu = some q then none else reserved emu := by
  simp only [dropReservation]
  by_cases hit : emu.reservationValid = true ∧ emu.reservationAddr = q
  · have stood : reserved emu = some q := by
      rw [reserved, if_pos hit.1, hit.2]
    rw [if_pos hit, stood, if_pos rfl]
    rfl
  · have other : reserved emu ≠ some q := by
      simp only [reserved]
      split
      · rename_i held
        intro same
        exact hit ⟨held, Option.some.inj same⟩
      · rintro ⟨⟩
    rw [if_neg hit, if_neg other]

/-- A completed instruction changes the reservation by its effect. -/
theorem retired_reserved (emu : Emulator) (mem : Memory) (inst : DecodedInst) (after : Emulator)
    (nextPc : Word) (effect : Effect)
    (outcome : Outcome (ticked emu mem) inst (.next after nextPc effect)) :
    reserved after = reservedAfter (reserved emu) (.retired effect) := by
  have start := reserved_congr emu (ticked emu mem) (ticked_reservation emu mem)
  cases outcome with
  | registers => exact start
  | floating => exact start
  | csrWritten => exact start
  | mret => exact start
  | sret => exact start
  | hostCalled =>
    obtain ⟨rf, state, exitCode, called⟩ := hostCall_frame (ticked emu mem)
    rw [called]
    exact start
  | halted => exact start
  | accessed addr acc pa middle exit asks translated rest =>
    obtain ⟨later, frame⟩ := mmuTranslate_frame (ticked emu mem) middle addr pa acc translated
    have same : reserved middle = reserved emu := by
      rw [frame]
      exact start
    cases rest with
    | loaded => exact same
    | timerSet => exact same
    | reserved => rfl
    | stored width stored rf =>
      rw [reserved_drop]
      have kept : reserved { middle with mem := stored, rf := rf } = reserved emu := same
      rw [kept]
      rfl
    | conditional => rfl
    | lost => rfl

/-- Every step changes the reservation by its event. -/
theorem step_reserved (host : HostFloat) (emu : Emulator) :
    reserved (emuStep host emu).2 = reservedAfter (reserved emu) (emuStep host emu).1 := by
  have entered (mem : Memory) (after : Emulator) (cause tval epc : Word)
      (raised : trapRaise (ticked emu mem) cause tval epc = (true, after)) :
      reserved after = reserved emu := by
    obtain ⟨valid, addr⟩ := trapRaise_reservation _ after cause tval epc raised
    obtain ⟨startValid, startAddr⟩ := ticked_reservation emu mem
    exact reserved_congr emu after ⟨valid.trans startValid, addr.trans startAddr⟩
  have shape := step_shape host emu
  generalize emuStep host emu = result at shape
  cases shape with
  | interrupted after taken =>
    obtain ⟨raised, -⟩ := taken_state emu after _ taken
    rw [← ticked_same] at raised
    exact entered emu.mem after _ _ _ raised
  | trapped mem cause tval after touched code raised => exact entered mem after _ _ _ raised
  | failed mem touched => exact reserved_congr emu _ (ticked_reservation emu mem)
  | retired mem inst after nextPc effect came touched outcome =>
    exact retired_reserved emu mem inst after nextPc effect outcome

/-! ## The next store-conditional -/

/-- The step issues a store-conditional whose address translates for the store. -/
def Conditional (emu : Emulator) (inst : DecodedInst) (pa : Word) (middle : Emulator) : Prop :=
  ∃ ready va, issued emu = some (ready, inst) ∧ inst.opcode = .amo ∧
    inst.funct7 >>> 2 = 0x03 ∧ dataAccess ready inst = some (va, .store) ∧
    mmuTranslate ready va .store = (.ok pa, middle)

/-- The store-conditional wrote its source register to the word and zero to its
    destination. -/
structure Won (emu : Emulator) (inst : DecodedInst) (pa : Word) (middle : Emulator)
    (result : Event × Emulator) : Prop where
  event : result.1 = .retired (.storeConditional pa true)
  memory : result.2.mem.data = putWord middle.mem.data pa (regRead emu.rf inst.rs2)
  registers : result.2.rf.regs = (regWrite emu.rf inst.rd 0).regs

/-- The store-conditional wrote one to its destination, and nothing to memory after
    its translation. -/
structure Lost (emu : Emulator) (inst : DecodedInst) (pa : Word) (middle : Emulator)
    (result : Event × Emulator) : Prop where
  event : result.1 = .retired (.storeConditional pa false)
  memory : result.2.mem = middle.mem
  registers : result.2.rf.regs = (regWrite emu.rf inst.rd 1).regs

/-- The step is the access of the store-conditional, in a state that its
    translation left with the registers and the reservation of before. -/
theorem conditional_step (host : HostFloat) (emu : Emulator) (inst : DecodedInst) (pa : Word)
    (middle : Emulator) (conditional : Conditional emu inst pa middle) :
    ∃ va ready, emuStep host emu = countCycle (execute host ready inst) ∧
      execSwitch host ready inst = scAccess inst va middle pa ∧ middle.rf = emu.rf ∧
      reserved middle = reserved emu := by
  obtain ⟨ready, va, came, kind, operation, asks, translated⟩ := conditional
  obtain ⟨-, -, -, -, mem, rfl, -⟩ := issued_front emu ready inst came
  obtain ⟨later, frame⟩ := mmuTranslate_frame _ middle va pa .store translated
  have notReserved : ¬ inst.funct7 >>> 2 = 0x02 := by
    rw [operation]
    decide
  refine ⟨va, _, issued_step host emu _ inst came, ?_, ?_, ?_⟩
  · rw [execSwitch_access host _ inst va .store asks]
    simp only [translateThen, translated, accessOf, kind, if_neg notReserved, if_pos operation]
  · rw [frame]
    exact ticked_rf emu mem
  · rw [frame]
    exact reserved_congr emu _ (ticked_reservation emu mem)

/-- Under a reservation of a word inside memory the store-conditional there
    succeeds. -/
theorem conditional_won (host : HostFloat) (emu : Emulator) (inst : DecodedInst) (pa : Word)
    (middle : Emulator) (conditional : Conditional emu inst pa middle)
    (held : reserved emu = some pa) (inside : pa.toNat + 4 ≤ memSize.toNat) :
    Won emu inst pa middle (emuStep host emu) := by
  obtain ⟨va, ready, step, access, registers, kept⟩ :=
    conditional_step host emu inst pa middle conditional
  have stands : middle.reservationValid = true ∧ middle.reservationAddr = pa := by
    rw [← kept, reserved] at held
    split at held
    · rename_i valid
      exact ⟨valid, Option.some.inj held⟩
    · cases held
  have ram : ¬ pa + 4 > middle.mem.size := by
    rw [middle.mem.sized]
    simp only [memSize] at inside ⊢
    bv_omega
  have performed : memoryWrite32 middle.mem pa (regRead middle.rf inst.rs2) =
      (true, { middle.mem with data := putWord middle.mem.data pa (regRead middle.rf inst.rs2) }) := by
    rw [memoryWrite32, if_neg ram]
  have exit : scAccess inst va middle pa = .next
      { middle with
        mem := { middle.mem with data := putWord middle.mem.data pa (regRead middle.rf inst.rs2) }
        reservationValid := false
        rf := regWrite middle.rf inst.rd 0 }
      (seqPc middle inst) (.storeConditional pa true) := by
    simp only [scAccess, if_pos stands, performed, if_true, writeBack]
  rw [registers] at exit
  rw [step, execute, access, exit]
  exact ⟨rfl, rfl, rfl⟩

/-- Without a reservation the store-conditional fails. -/
theorem conditional_lost (host : HostFloat) (emu : Emulator) (inst : DecodedInst) (pa : Word)
    (middle : Emulator) (conditional : Conditional emu inst pa middle)
    (free : reserved emu = none) : Lost emu inst pa middle (emuStep host emu) := by
  obtain ⟨va, ready, step, access, registers, kept⟩ :=
    conditional_step host emu inst pa middle conditional
  have fallen : ¬ (middle.reservationValid = true ∧ middle.reservationAddr = pa) := by
    rintro ⟨valid, -⟩
    rw [← kept, reserved, if_pos valid] at free
    cases free
  have exit : scAccess inst va middle pa = .next
      { middle with reservationValid := false, rf := regWrite middle.rf inst.rd 1 }
      (seqPc middle inst) (.storeConditional pa false) := by
    simp only [scAccess, if_neg fallen, writeBack]
  rw [registers] at exit
  rw [step, execute, access, exit]
  exact ⟨rfl, rfl, rfl⟩

/-! ## Runs -/

/-- Nothing completed that a reservation of the word need not survive. -/
structure Undisturbed (p : Word) (event : Event) : Prop where
  load : ∀ q, event ≠ .retired (.loadReserved q)
  conditional : ∀ q succeeded, event ≠ .retired (.storeConditional q succeeded)
  store : ∀ q width, event = .retired (.stored q width) → ¬ Spans p 4 q

/-- The progress law over a run: from a load-reserved on, through steps that leave
    its word alone, a store-conditional to the word succeeds; and from a completed
    store-conditional on, until a load-reserved completes, each one fails. -/
structure ConditionalProgress (host : HostFloat) (start : Emulator) : Prop where
  granted : ∀ first last p inst middle, first < last →
    stepEvent host start first = .retired (.loadReserved p) →
    p.toNat + 4 ≤ memSize.toNat →
    (∀ k, first < k → k < last → Undisturbed p (stepEvent host start k)) →
    Conditional (stateAfter host start last) inst p middle →
    Won (stateAfter host start last) inst p middle (emuStep host (stateAfter host start last))
  spent : ∀ first last q succeeded inst pa middle, first < last →
    stepEvent host start first = .retired (.storeConditional q succeeded) →
    (∀ k p, first < k → k < last → stepEvent host start k ≠ .retired (.loadReserved p)) →
    Conditional (stateAfter host start last) inst pa middle →
    Lost (stateAfter host start last) inst pa middle (emuStep host (stateAfter host start last))

/-- An undisturbed reservation stands. -/
theorem undisturbed_reserved (p : Word) (event : Event) (calm : Undisturbed p event) :
    reservedAfter (some p) event = some p := by
  cases event with
  | retired effect =>
    cases effect with
    | quiet => rfl
    | loadReserved q => exact absurd rfl (calm.load q)
    | storeConditional q succeeded => exact absurd rfl (calm.conditional q succeeded)
    | stored q width =>
      have distinct : some p ≠ some q := by
        rintro ⟨⟩
        exact calm.store p width rfl (by simp [Spans])
      exact if_neg distinct
  | trapped cause tval => rfl
  | interrupted => rfl
  | failed => rfl

/-- Only a load-reserved makes a reservation. -/
theorem unreserved_stays (event : Event) (other : ∀ p, event ≠ .retired (.loadReserved p)) :
    reservedAfter none event = none := by
  cases event with
  | retired effect =>
    cases effect with
    | quiet => rfl
    | loadReserved p => exact absurd rfl (other p)
    | storeConditional q succeeded => rfl
    | stored q width =>
      have distinct : (none : Option Word) ≠ some q := by simp
      simp only [reservedAfter, if_neg distinct]
  | trapped cause tval => rfl
  | interrupted => rfl
  | failed => rfl

/-- The reservation after a step of a run. -/
theorem run_reserved (host : HostFloat) (start : Emulator) (k : Nat) :
    reserved (stateAfter host start (k + 1)) =
      reservedAfter (reserved (stateAfter host start k)) (stepEvent host start k) :=
  step_reserved host (stateAfter host start k)

/-- Every run makes progress: the standing reservation is carried from the
    load-reserved by induction over the steps that leave it alone, and so is its
    absence from a completed store-conditional. -/
theorem run_conditional_progress (host : HostFloat) (start : Emulator) :
    ConditionalProgress host start := by
  constructor
  · intro first last p inst middle before origin inside calm conditional
    have entry : reserved (stateAfter host start (first + 1)) = some p := by
      rw [run_reserved, origin]
      rfl
    have held : reserved (stateAfter host start last) = some p := by
      apply Runs.carried (emuStep host) (fun emu => reserved emu = some p) start (first + 1) last
        before entry
      intro k above below stood
      change reserved (stateAfter host start k) = some p at stood
      change reserved (stateAfter host start (k + 1)) = some p
      rw [run_reserved, stood]
      exact undisturbed_reserved p _ (calm k above below)
    exact conditional_won host _ inst p middle conditional held inside
  · intro first last q succeeded inst pa middle before origin quiet conditional
    have entry : reserved (stateAfter host start (first + 1)) = none := by
      rw [run_reserved, origin]
      rfl
    have free : reserved (stateAfter host start last) = none := by
      apply Runs.carried (emuStep host) (fun emu => reserved emu = none) start (first + 1) last
        before entry
      intro k above below stood
      change reserved (stateAfter host start k) = none at stood
      change reserved (stateAfter host start (k + 1)) = none
      rw [run_reserved, stood]
      exact unreserved_stays _ (fun p => quiet k p above below)
    exact conditional_lost host _ inst pa middle conditional free

/-- A machine at `lr.w x5, (x0)`, `addi x28, x0, 1`, `sw x7, 4(x0)` and
    `sc.w x6, x7, (x0)`, with one in `x7`. -/
def lockPair : Emulator :=
  let emu := loadImage (emuInit (fun _ => 0))
    (programImage 0x1000 [0x100022AF, 0x00100E13, 0x00702223, 0x1870232F])
  { emu with rf := { emu.rf with regs := fun r => if r = 7 then 1 else 0 } }

/-- The steps between leave the reserved word alone: the second one stores behind it. -/
theorem lockPair_undisturbed (k : Nat) (above : 0 < k) (below : k < 3) :
    Undisturbed 0 (stepEvent idleHost lockPair k) := by
  have second : stepEvent idleHost lockPair 1 = .retired .quiet := by decide +kernel
  have third : stepEvent idleHost lockPair 2 = .retired (.stored 4 .word) := by decide +kernel
  obtain rfl | rfl : k = 1 ∨ k = 2 := by omega
  · rw [second]
    constructor
    · intro q same
      cases same
    · intro q succeeded same
      cases same
    · intro q width same
      cases same
  · rw [third]
    constructor
    · intro q same
      cases same
    · intro q succeeded same
      cases same
    · intro q width same
      cases same
      decide

/-- The store-conditional succeeds: it writes the one and clears `x6`. -/
theorem lockPair_won :
    (stateAfter idleHost lockPair 4).rf.regs 6 = 0 ∧
      wordAt (stateAfter idleHost lockPair 4).mem.data 0 = 1 := by
  have origin : stepEvent idleHost lockPair 0 = .retired (.loadReserved 0) := by decide +kernel
  have conditional : ∃ inst middle, Conditional (stateAfter idleHost lockPair 3) inst 0 middle ∧
      inst.rd = 6 ∧ inst.rs2 = 7 :=
    ⟨_, _, ⟨_, 0, rfl, rfl, rfl, rfl, rfl⟩, rfl, rfl⟩
  obtain ⟨inst, middle, issues, rd, rs2⟩ := conditional
  have won := (run_conditional_progress idleHost lockPair).granted 0 3 0 inst middle (by decide)
    origin (by decide) lockPair_undisturbed issues
  constructor
  · change (emuStep idleHost (stateAfter idleHost lockPair 3)).2.rf.regs 6 = 0
    rw [won.registers, rd]
    rfl
  · change wordAt (emuStep idleHost (stateAfter idleHost lockPair 3)).2.mem.data 0 = 1
    rw [won.memory, wordAt_putWord, rs2]
    decide +kernel

end RvEmu.ReservationProgress
