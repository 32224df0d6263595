import RvEmu.StepAnatomy

/-!
# LR/SC reservations over runs

The machine keeps one reserved address, and every store path ends the
reservation when its own address equals it. A reservation that still stands was
therefore set by a load-reserved after which no store-conditional completed and
no store wrote the reserved word, with one exception: a byte or halfword stored
into the word at another address than its first leaves the reservation in place.

The invariant of a run says this of the standing reservation. Both directions of
the law for store-conditionals follow from it.
-/

namespace RvEmu.Reservation

open LittleEndian PageWalk PageTables ExecOutcome StepAnatomy Runs

/-- A store instruction wrote a byte of the word. -/
def Disturbs (p : Word) (event : Event) : Prop :=
  ∃ q width index, event = .retired (.stored q width) ∧ Spans q width.bytes index ∧
    Spans p 4 index

/-- No store-conditional completed, and no store wrote a byte of the word. -/
def Quiet (p : Word) (event : Event) : Prop :=
  (∀ q succeeded, event ≠ .retired (.storeConditional q succeeded)) ∧ ¬ Disturbs p event

/-- The step performs a byte or halfword store into the reserved word, at an
    address other than the reserved one. -/
structure MissedInvalidation (emu : Emulator) : Prop where
  held : emu.reservationValid = true
  store : ∃ ready inst addr pa middle width mem, issued emu = some (ready, inst) ∧
    inst.opcode = .store ∧ inst.funct3 = width.funct3 ∧ width ≠ Width.word ∧
    dataAccess ready inst = some (addr, .store) ∧
    mmuTranslate ready addr .store = (.ok pa, middle) ∧ Written middle.mem pa width mem ∧
    pa ≠ emu.reservationAddr ∧ Spans emu.reservationAddr 4 pa

/-! ## One step -/

/-- A naturally aligned access that meets an aligned word starts in it. -/
theorem starts_inside (p q index : Word) (width : Width) (aligned : Aligned p)
    (natural : q.toNat % width.bytes = 0) (member : Spans q width.bytes index)
    (inside : Spans p 4 index) : Spans p 4 q := by
  have sameWord := natural_word q index width.bytes width.bytes_cases natural member
  have interval := (aligned_span p index aligned).mp inside
  simp only [Aligned] at aligned
  exact (aligned_span p q aligned).mpr (by omega)

/-- The timer and the walker leave the reservation alone. -/
theorem ticked_reservation (emu : Emulator) (mem : Memory) :
    (ticked emu mem).reservationValid = emu.reservationValid ∧
      (ticked emu mem).reservationAddr = emu.reservationAddr := by
  obtain ⟨mip, frame⟩ := timerTick_frame emu
  rw [ticked, frame]
  exact ⟨rfl, rfl⟩

/-- Entering a handler leaves the reservation alone. -/
theorem trapRaise_reservation (emu after : Emulator) (cause tval epc : Word)
    (raised : trapRaise emu cause tval epc = (true, after)) :
    after.reservationValid = emu.reservationValid ∧
      after.reservationAddr = emu.reservationAddr := by
  rcases trapRaise_cases emu after cause tval epc raised with ⟨-, -, rfl⟩ | ⟨-, -, rfl⟩
  · exact ⟨rfl, rfl⟩
  · exact ⟨rfl, rfl⟩

/-- Events that are neither a store nor a store-conditional are quiet. -/
theorem quiet_of_ne (p : Word) (event : Event)
    (conditional : ∀ q succeeded, event ≠ .retired (.storeConditional q succeeded))
    (stored : ∀ q width, event ≠ .retired (.stored q width)) : Quiet p event := by
  refine ⟨conditional, ?_⟩
  rintro ⟨q, width, -, same, -, -⟩
  exact stored q width same

/-- A reservation that stands after an instruction was set by it, or it stood
    before and the instruction left its word alone. -/
def Stands (before after : Emulator) (event : Event) : Prop :=
  Aligned after.reservationAddr ∧
    (event = .retired (.loadReserved after.reservationAddr) ∨
      (before.reservationValid = true ∧ after.reservationAddr = before.reservationAddr ∧
        Quiet before.reservationAddr event))

/-- A step that keeps both fields of the reservation, with a quiet event. -/
theorem stands_kept (before after : Emulator) (event : Event)
    (aligned : before.reservationValid = true → Aligned before.reservationAddr)
    (same : after.reservationValid = before.reservationValid ∧
      after.reservationAddr = before.reservationAddr)
    (quiet : Quiet before.reservationAddr event) (held : after.reservationValid = true) :
    Stands before after event := by
  have stood : before.reservationValid = true := same.1 ▸ held
  refine ⟨?_, Or.inr ⟨stood, same.2, quiet⟩⟩
  rw [same.2]
  exact aligned stood

/-- A store that leaves the reservation standing has left its word alone. -/
theorem stored_stands (emu middle : Emulator) (mem after : Memory) (rf : Regfile)
    (inst : DecodedInst) (addr pa : Word) (width : Width)
    (came : issued emu = some (ticked emu mem, inst))
    (asks : dataAccess (ticked emu mem) inst = some (addr, .store))
    (translated : mmuTranslate (ticked emu mem) addr .store = (.ok pa, middle))
    (written : Written middle.mem pa width after)
    (narrow : width = .word ∨ (inst.opcode = .store ∧ inst.funct3 = width.funct3))
    (same : middle.reservationValid = emu.reservationValid ∧
      middle.reservationAddr = emu.reservationAddr)
    (aligned : emu.reservationValid = true → Aligned emu.reservationAddr)
    (natural : pa.toNat % width.bytes = 0) (guarded : ¬ MissedInvalidation emu)
    (held : (dropReservation { middle with mem := after, rf := rf } pa).reservationValid = true) :
    Stands emu (dropReservation { middle with mem := after, rf := rf } pa)
      (.retired (.stored pa width)) := by
  simp only [dropReservation] at held ⊢
  split at held
  · cases held
  · rename_i apart
    rw [if_neg apart]
    have stood : emu.reservationValid = true := same.1 ▸ held
    have distinct : pa ≠ emu.reservationAddr := by
      rintro rfl
      exact apart ⟨held, same.2⟩
    apply stands_kept emu _ _ aligned same ?_ held
    constructor
    · intro q succeeded
      exact fun impossible => by cases impossible
    · rintro ⟨q, other, index, event, member, inside⟩
      cases event
      have start := starts_inside emu.reservationAddr pa index width (aligned stood) natural
        member inside
      have notWord : width ≠ .word := by
        rintro rfl
        have overlapped := base_unique _ _ (aligned stood) start
        have itself := base_unique pa pa natural (by simp [Spans])
        exact distinct (itself.symm.trans overlapped)
      obtain ⟨kind, funct3⟩ := narrow.resolve_left notWord
      exact guarded ⟨stood, ticked emu mem, inst, addr, pa, middle, width, after, came, kind,
        funct3, notWord, asks, translated, written, distinct, start⟩

/-- An instruction that completes under a standing reservation set it, or left its
    word alone. -/
theorem retired_stands (emu : Emulator) (mem : Memory) (inst : DecodedInst) (after : Emulator)
    (nextPc : Word) (effect : Effect) (came : issued emu = some (ticked emu mem, inst))
    (touched : Touched emu (fetchAccesses (timerTick emu)) mem)
    (outcome : Outcome (ticked emu mem) inst (.next after nextPc effect))
    (aligned : emu.reservationValid = true → Aligned emu.reservationAddr)
    (guarded : ¬ MissedInvalidation emu) (held : after.reservationValid = true) :
    Stands emu after (.retired effect) := by
  have start := ticked_reservation emu mem
  have quiet : Quiet emu.reservationAddr (.retired .quiet) := by
    apply quiet_of_ne
    · rintro q succeeded ⟨⟩
    · rintro q width ⟨⟩
  cases outcome with
  | registers => exact stands_kept emu _ _ aligned start quiet held
  | floating => exact stands_kept emu _ _ aligned start quiet held
  | csrWritten => exact stands_kept emu _ _ aligned start quiet held
  | mret => exact stands_kept emu _ _ aligned start quiet held
  | sret => exact stands_kept emu _ _ aligned start quiet held
  | hostCalled =>
    obtain ⟨rf, state, exitCode, called⟩ := hostCall_frame (ticked emu mem)
    rw [called] at held ⊢
    exact stands_kept emu _ _ aligned start quiet held
  | halted => exact stands_kept emu _ _ aligned start quiet held
  | accessed addr acc pa middle exit asks translated rest =>
    have wider := touched_fetch emu mem inst came touched
    have member := data_member emu mem inst (addr, acc) came asks
    obtain ⟨later, frame, -, resolves⟩ :=
      ticked_translate emu middle mem _ addr pa acc wider member translated
    have offset := resolves_offset emu addr pa acc resolves
    have same : middle.reservationValid = emu.reservationValid ∧
        middle.reservationAddr = emu.reservationAddr := by
      rw [frame]
      exact ticked_reservation emu later
    cases rest with
    | loaded => exact stands_kept emu _ _ aligned same quiet held
    | timerSet => exact stands_kept emu _ _ aligned same quiet held
    | reserved rf samePc clear =>
      have natural := low_two_clear addr clear
      refine ⟨?_, Or.inl rfl⟩
      exact Width.word.natural_offset addr pa offset natural
    | stored width stored rf samePc storing written natural narrow =>
      subst storing
      exact stored_stands emu middle mem stored rf inst addr pa width came asks translated written
        narrow same aligned (width.natural_offset addr pa offset natural) guarded held
    | conditional => cases held
    | lost => cases held

/-- A reservation that stands after a step was set by it, or it stood before and
    the step left its word alone. -/
theorem step_stands (host : HostFloat) (emu : Emulator)
    (aligned : emu.reservationValid = true → Aligned emu.reservationAddr)
    (guarded : ¬ MissedInvalidation emu)
    (held : (emuStep host emu).2.reservationValid = true) :
    Stands emu (emuStep host emu).2 (emuStep host emu).1 := by
  have quiet : ∀ event, (∀ effect, event ≠ Event.retired effect) →
      Quiet emu.reservationAddr event := by
    intro event other
    apply quiet_of_ne
    · exact fun _ _ => other _
    · exact fun _ _ => other _
  have shape := step_shape host emu
  generalize emuStep host emu = result at shape held
  cases shape with
  | interrupted after taken =>
    obtain ⟨raised, -⟩ := taken_state emu after _ taken
    rw [← ticked_same] at raised
    have same := trapRaise_reservation _ after _ _ _ raised
    rw [(ticked_reservation emu emu.mem).1, (ticked_reservation emu emu.mem).2] at same
    exact stands_kept emu (counted after) _ aligned same (quiet _ (by rintro _ ⟨⟩)) held
  | trapped mem cause tval after touched code raised =>
    have same := trapRaise_reservation _ after _ _ _ raised
    rw [(ticked_reservation emu mem).1, (ticked_reservation emu mem).2] at same
    exact stands_kept emu (counted after) _ aligned same (quiet _ (by rintro _ ⟨⟩)) held
  | failed mem touched =>
    exact stands_kept emu _ _ aligned (ticked_reservation emu mem) (quiet _ (by rintro _ ⟨⟩)) held
  | retired mem inst after nextPc effect came touched outcome =>
    exact retired_stands emu mem inst after nextPc effect came touched outcome aligned guarded held

/-! ## Store-conditionals -/

/-- What a completed store-conditional did: after the fetch and the translation,
    which touch page-table leaves alone, it either wrote the reserved word and put
    zero in its destination, or wrote nothing and put one there. -/
def Performs (emu : Emulator) (p : Word) (succeeded : Bool) (after : Emulator) : Prop :=
  ∃ before inst middle, issued emu = some (before, inst) ∧
    Touched emu (stepAccesses emu) middle ∧
    after.rf.regs = (regWrite emu.rf inst.rd (if succeeded then 0 else 1)).regs ∧
    (succeeded = true → emu.reservationValid = true ∧ emu.reservationAddr = p ∧
      Written middle p .word after.mem) ∧
    (succeeded = false → after.mem = middle)

/-- Every event of a store-conditional reports one that was performed so. -/
theorem step_conditional (host : HostFloat) (emu : Emulator) (p : Word) (succeeded : Bool)
    (event : (emuStep host emu).1 = .retired (.storeConditional p succeeded)) :
    Performs emu p succeeded (emuStep host emu).2 := by
  have shape := step_shape host emu
  generalize emuStep host emu = result at shape event
  cases shape with
  | interrupted after taken => cases event
  | trapped mem cause tval after touched code raised => cases event
  | failed mem touched => cases event
  | retired mem inst after nextPc effect came touched outcome =>
    cases event
    cases outcome with
    | accessed addr acc pa middle exit asks translated rest =>
      have wider := touched_fetch emu mem inst came touched
      have member := data_member emu mem inst (addr, acc) came asks
      obtain ⟨later, rfl, touchedLater, -⟩ :=
        ticked_translate emu middle mem _ addr pa acc wider member translated
      have registers : (ticked emu later).rf = emu.rf := ticked_rf emu later
      refine ⟨ticked emu mem, inst, later, came, touchedLater, ?_⟩
      cases rest with
      | conditional stored storing written natural held =>
        refine ⟨?_, ?_, ?_⟩
        · rw [← registers]
          rfl
        · rintro -
          obtain ⟨valid, addr⟩ := ticked_reservation emu later
          exact ⟨valid ▸ held.1, addr ▸ held.2, written⟩
        · rintro ⟨⟩
      | lost =>
        refine ⟨?_, ?_, ?_⟩
        · rw [← registers]
          rfl
        · rintro ⟨⟩
        · exact fun _ => rfl

/-! ## Runs -/

/-- The standing reservation was set by a load-reserved of the run, and since then
    no store-conditional completed and no store wrote its word. -/
def Established (host : HostFloat) (start : Emulator) (n : Nat) : Prop :=
  (stateAfter host start n).reservationValid = true →
    Aligned (stateAfter host start n).reservationAddr ∧
      Since (emuStep host)
        (· = .retired (.loadReserved (stateAfter host start n).reservationAddr))
        (Quiet (stateAfter host start n).reservationAddr) start n

/-- The law of store-conditionals over the first steps of a run. A success comes
    after a load-reserved of its word with nothing in between that wrote the word or
    completed a store-conditional. A store that wrote a byte of the word, with no
    load-reserved of the word since, makes it fail. -/
structure ReservationSound (host : HostFloat) (start : Emulator) (n : Nat) : Prop where
  success : ∀ k p, k < n → stepEvent host start k = .retired (.storeConditional p true) →
    Since (emuStep host) (· = .retired (.loadReserved p)) (Quiet p) start k
  failure : ∀ j k p succeeded, j < k → k < n → Disturbs p (stepEvent host start j) →
    (∀ i, j < i → i < k → stepEvent host start i ≠ .retired (.loadReserved p)) →
    stepEvent host start k = .retired (.storeConditional p succeeded) → succeeded = false
  performed : ∀ k p succeeded, k < n →
    stepEvent host start k = .retired (.storeConditional p succeeded) →
    Performs (stateAfter host start k) p succeeded (stateAfter host start (k + 1))

/-- No reservation stands at the start of a run. -/
theorem boot_unreserved (start : Emulator) (boot : Boot start) :
    start.reservationValid = false := by
  cases boot with
  | reset beyond => rfl
  | loaded beyond image => rfl

/-- Each step keeps the history of the standing reservation. -/
theorem established_step (host : HostFloat) (start : Emulator) (n : Nat)
    (past : Established host start n) (guarded : ¬ MissedInvalidation (stateAfter host start n)) :
    Established host start (n + 1) := by
  intro held
  rw [stateAfter, stateAt_succ] at held ⊢
  obtain ⟨aligned, origin⟩ := step_stands host (stateAfter host start n)
    (fun stood => (past stood).1) guarded held
  refine ⟨aligned, ?_⟩
  rcases origin with begun | ⟨stood, same, calm⟩
  · exact since_start (emuStep host) _ _ start n begun
  · rw [same]
    exact since_quiet (emuStep host) _ _ start n (past stood).2 calm

/-- The history holds throughout a run without missed invalidations. -/
theorem run_established (host : HostFloat) (start : Emulator) (boot : Boot start) (n : Nat)
    (guarded : ∀ k, k < n → ¬ MissedInvalidation (stateAfter host start k)) :
    Established host start n := by
  induction n with
  | zero =>
    intro held
    rw [stateAfter, stateAt_zero, boot_unreserved start boot] at held
    cases held
  | succ n inductionHypothesis =>
    have earlier : Established host start n :=
      inductionHypothesis (fun k below => guarded k (by omega))
    exact established_step host start n earlier (guarded n (Nat.lt_succ_self n))

/-- From reset, over any number of steps, store-conditionals keep their law as long
    as no byte or halfword store goes into the reserved word at another address than
    the reserved one. -/
theorem run_reservation_sound (host : HostFloat) (start : Emulator) (boot : Boot start) (n : Nat)
    (guarded : ∀ k, k < n → ¬ MissedInvalidation (stateAfter host start k)) :
    ReservationSound host start n := by
  have success : ∀ k p, k < n → stepEvent host start k = .retired (.storeConditional p true) →
      Since (emuStep host) (· = .retired (.loadReserved p)) (Quiet p) start k := by
    intro k p below event
    obtain ⟨before, inst, middle, -, -, -, held, -⟩ :=
      step_conditional host (stateAfter host start k) p true event
    obtain ⟨valid, rfl, -⟩ := held rfl
    exact (run_established host start boot k (fun i early => guarded i (by omega)) valid).2
  refine ⟨success, ?_, ?_⟩
  · intro j k p succeeded before below disturbed unreserved event
    cases succeeded with
    | false => rfl
    | true =>
      exfalso
      obtain ⟨i, early, begun, quiet⟩ := success k p below event
      rcases Nat.lt_trichotomy i j with after | rfl | after
      · exact (quiet j after before).2 disturbed
      · obtain ⟨q, width, index, stored, -, -⟩ := disturbed
        rw [stepEvent] at stored
        rw [stored] at begun
        cases begun
      · exact unreserved i after early begun
  · intro k p succeeded below event
    exact step_conditional host (stateAfter host start k) p succeeded event

/-- A byte or halfword store is issued under a reservation. -/
def StoresNarrow (emu : Emulator) : Bool :=
  emu.reservationValid &&
    match issued emu with
    | some (_, inst) => inst.opcode = .store ∧ inst.funct3 ≠ 2
    | none => false

/-- Without such a store no invalidation is missed. -/
theorem missed_narrow (emu : Emulator) (missed : MissedInvalidation emu) :
    StoresNarrow emu = true := by
  obtain ⟨held, ready, inst, addr, pa, middle, width, mem, came, kind, funct3, notWord, -⟩ := missed
  have narrow : inst.funct3 ≠ 2 := by
    rw [funct3]
    cases width with
    | byte => decide
    | half => decide
    | word => exact absurd rfl notWord
  rw [StoresNarrow, held, came]
  exact decide_eq_true ⟨kind, narrow⟩

/-- `addi x1, x0, 0x100; addi x2, x0, 7; lr.w x3, (x1); sc.w x4, x2, (x1);
    lr.w x3, (x1); sw x2, 0(x1); sc.w x4, x2, (x1)`, from 0x1000. -/
def wordStoreProgram : Emulator :=
  loadImage (emuInit (fun _ => 0)) (programImage 0x1000
    [0x10000093, 0x00700113, 0x1000A1AF, 0x1820A22F, 0x1000A1AF, 0x0020A023, 0x1820A22F])

/-- The law over a run in which one store-conditional succeeds and one fails. -/
theorem wordStore_reservation :
    stepEvent idleHost wordStoreProgram 3 = .retired (.storeConditional 0x100 true) ∧
      stepEvent idleHost wordStoreProgram 6 = .retired (.storeConditional 0x100 false) ∧
      ReservationSound idleHost wordStoreProgram 7 := by
  have won : stepEvent idleHost wordStoreProgram 3 = .retired (.storeConditional 0x100 true) := by
    decide +kernel
  have lost : stepEvent idleHost wordStoreProgram 6 = .retired (.storeConditional 0x100 false) := by
    decide +kernel
  have wide : ∀ k : Fin 7, StoresNarrow (stateAfter idleHost wordStoreProgram k) = false := by
    decide +kernel
  refine ⟨won, lost, ?_⟩
  apply run_reservation_sound idleHost wordStoreProgram (Boot.loaded _ _) 7
  intro k below missed
  have narrow := missed_narrow _ missed
  rw [wide ⟨k, below⟩] at narrow
  cases narrow

/-- `addi x1, x0, 0x100; addi x2, x0, 7; lr.w x3, (x1); sb x2, 1(x1);
    sc.w x4, x2, (x1)`, from 0x1000. -/
def byteStoreProgram : Emulator :=
  loadImage (emuInit (fun _ => 0)) (programImage 0x1000
    [0x10000093, 0x00700113, 0x1000A1AF, 0x002080A3, 0x1820A22F])

/-- The byte store into the reserved word goes unnoticed, and the
    store-conditional succeeds. -/
theorem byteStore_missed : ¬ ReservationSound idleHost byteStoreProgram 5 := by
  have stored : stepEvent idleHost byteStoreProgram 3 = .retired (.stored 0x101 .byte) := by
    decide +kernel
  have won : stepEvent idleHost byteStoreProgram 4 = .retired (.storeConditional 0x100 true) := by
    decide +kernel
  have disturbed : Disturbs 0x100 (stepEvent idleHost byteStoreProgram 3) :=
    ⟨0x101, .byte, 0x101, stored, by decide, by decide⟩
  intro sound
  have lost := sound.failure 3 4 0x100 true (by decide) (by decide) disturbed
    (fun i after before => by omega) won
  cases lost

end RvEmu.Reservation
