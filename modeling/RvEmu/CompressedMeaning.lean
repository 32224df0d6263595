import RvEmu.Expansion

/-!
# Compressed instructions have the effect of their formats

A halfword is expanded, decoded and executed as a 32-bit word, with two bytes of
length. What that does is the effect that the description of the compressed
formats gives the halfword: a base instruction, a load or a store of a word, or
a breakpoint. The step around it ticks the timer and touches what it fetched,
and no accepted halfword is illegal.
-/

namespace RvEmu.CompressedMeaning

open LittleEndian WordMarks PageWalk PageTables ExecOutcome StepAnatomy InstructionSet
open BaseInstructions Expansion

/-! ## Execution -/

section Memory

variable (host : HostFloat) (emu : Emulator) (inst : DecodedInst) (length : Word)

theorem execute_load (va : Word) (address : emu.rf.regs inst.rs1 + inst.imm = va)
    (kind : inst.opcode = .load) (f3 : inst.funct3 = 2) (long : instLen inst = length) :
    execute host emu inst = loadWord length emu inst.rd va := by
  have switched : execSwitch host emu inst =
      if loadMisaligned inst va then .except emu excLoadMisaligned va
      else translateThen emu va .load (loadAccess inst va) := by
    simp only [execSwitch, kind]
    rw [← address]
    rfl
  have misaligned : loadMisaligned inst va = true ↔ va.toNat % 4 ≠ 0 := by
    rw [← low_two]
    simp [loadMisaligned, f3]
  have wide (mem : Memory) (pa : Word) :
      loadValue mem inst.funct3 pa = some (memoryRead32 mem pa) := by
    rw [f3]
    rfl
  simp only [execute, switched, loadWord]
  by_cases odd : va.toNat % 4 ≠ 0
  · rw [if_pos (misaligned.mpr odd), if_pos odd]
    rfl
  · rw [if_neg (mt misaligned.mp odd), if_neg odd, translateThen]
    cases translated : mmuTranslate emu va .load with
    | mk result after =>
      cases result with
      | error cause =>
        obtain ⟨same, page⟩ := mmuTranslate_error emu after va cause .load translated
        subst same page
        rfl
      | ok pa =>
        obtain ⟨mem, frame⟩ := mmuTranslate_frame emu after va pa .load translated
        have pc : after.rf.pc = emu.rf.pc := by
          rw [frame]
          rfl
        dsimp only
        by_cases timer : pa = clintMtimeLo
        · have read : wordRead after pa = some (after.mtime.setWidth 32) := if_pos timer
          simp only [loadAccess, if_pos (And.intro f3 timer), read, writeBack, regWrite_put, seqPc,
            long]
        · have read : wordRead after pa = memoryRead32 after.mem pa := if_neg timer
          simp only [loadAccess, if_neg (fun both => timer (And.right both)), read, wide]
          cases memoryRead32 after.mem pa with
          | none =>
            simp only [raise, pc]
            rfl
          | some value => simp only [writeBack, regWrite_put, seqPc, long]

/-- A store to the low half of the compare register keeps its high half. -/
theorem compare_joined (compare : DWord) (value : Word) :
    (compare &&& 0xFFFFFFFF00000000#64) ||| value.setWidth 64 =
      compare.extractLsb' 32 32 ++ value := by
  have mask : 0xFFFFFFFF00000000#64 = ~~~BitFields.lowOnes 64 32 := by decide
  apply BitVec.eq_of_getLsbD_eq
  intro i inside
  rw [mask, BitVec.getLsbD_or, BitVec.getLsbD_and, BitVec.getLsbD_not,
    BitFields.getLsbD_lowOnes _ _ inside, BitVec.getLsbD_append, BitVec.getLsbD_setWidth,
    decide_eq_true inside]
  by_cases low : i < 32
  · simp [low]
  · have high : value.getLsbD i = false := BitVec.getLsbD_of_ge value i (by omega)
    simp [low, high, show 32 + (i - 32) = i by omega, show i - 32 < 32 by omega]

/-- A store ends the reservation of its own address. -/
theorem dropReservation_valid (pa : Word) :
    dropReservation emu pa =
      { emu with reservationValid := emu.reservationValid && !(emu.reservationAddr = pa) } := by
  by_cases held : emu.reservationValid ∧ emu.reservationAddr = pa
  · rw [dropReservation, if_pos held]
    simp only [held.1, held.2, decide_true, Bool.not_true, Bool.and_false]
  · have kept : (emu.reservationValid && !(emu.reservationAddr = pa)) = emu.reservationValid := by
      cases valid : emu.reservationValid with
      | true =>
        have apart : ¬ emu.reservationAddr = pa := fun same => held ⟨valid, same⟩
        simp [apart]
      | false => rfl
    rw [kept, dropReservation, if_neg held]

theorem execute_store (va : Word) (address : emu.rf.regs inst.rs1 + inst.imm = va)
    (kind : inst.opcode = .store) (f3 : inst.funct3 = 2) (long : instLen inst = length) :
    execute host emu inst = storeWord length emu va (emu.rf.regs inst.rs2) := by
  have switched : execSwitch host emu inst =
      if storeMisaligned inst va then .except emu excStoreMisaligned va
      else translateThen emu va .store (storeAccess inst va) := by
    simp only [execSwitch, kind]
    rw [← address]
    rfl
  have misaligned : storeMisaligned inst va = true ↔ va.toNat % 4 ≠ 0 := by
    rw [← low_two]
    simp [storeMisaligned, f3]
  simp only [execute, switched, storeWord]
  by_cases odd : va.toNat % 4 ≠ 0
  · rw [if_pos (misaligned.mpr odd), if_pos odd]
    rfl
  · rw [if_neg (mt misaligned.mp odd), if_neg odd, translateThen]
    cases translated : mmuTranslate emu va .store with
    | mk result after =>
      cases result with
      | error cause =>
        obtain ⟨same, page⟩ := mmuTranslate_error emu after va cause .store translated
        subst same page
        rfl
      | ok pa =>
        obtain ⟨mem, frame⟩ := mmuTranslate_frame emu after va pa .store translated
        have pc : after.rf.pc = emu.rf.pc := by
          rw [frame]
          rfl
        have operand : after.rf.regs inst.rs2 = emu.rf.regs inst.rs2 := by
          rw [frame]
          rfl
        dsimp only
        by_cases timer : pa = clintMtimecmpLo
        · have compare : pa = 0x02004000 := timer
          simp only [storeAccess, if_pos (And.intro f3 timer), if_pos compare, compare_joined, seqPc,
            long, regRead, operand]
        · have memory : ¬ pa = 0x02004000 := timer
          have word : inst.funct3 = 2#3 := f3
          simp only [storeAccess, if_neg (fun both => timer (And.right both)), if_neg memory, word,
            regRead, operand]
          cases written : memoryWrite32 after.mem pa (emu.rf.regs inst.rs2) with
          | mk done mem =>
            cases done with
            | true =>
              simp only [finishStore, dropReservation_valid, seqPc, long, if_true]
            | false =>
              have unchanged : mem = after.mem := by
                have kept := memoryWrite32_refused after.mem pa (emu.rf.regs inst.rs2)
                rw [written] at kept
                exact kept Bool.false_ne_true
              subst unchanged
              simp only [finishStore, Bool.false_eq_true, if_false, raise, pc]
              rfl

end Memory

/-- Executing what was decoded from an encoded instruction runs it. -/
theorem execute_encoded (host : HostFloat) (emu : Emulator) (word length : Word)
    (inst : DecodedInst) (instr : Instruction) (encoded : Encodes word instr)
    (extracted : Extracted word length inst) :
    execute host emu inst = instr.run length emu := by
  cases instr with
  | base form => exact execute_base host emu word length inst form encoded extracted
  | lw rd rs1 offset =>
    obtain ⟨opcode, f3, rfl, rfl, rfl⟩ := encoded
    have kind := extracted.opcode
    have imm := extracted.imm
    rw [opcodeOf, opcode] at kind imm
    rw [execute_load host emu inst length _ rfl kind (extracted.funct3.trans f3) extracted.length,
      imm .i rfl, immOf, immI_field, extracted.rd, extracted.rs1]
    rfl
  | sw rs2 rs1 offset =>
    obtain ⟨opcode, f3, rfl, rfl, rfl⟩ := encoded
    have kind := extracted.opcode
    have imm := extracted.imm
    rw [opcodeOf, opcode] at kind imm
    rw [execute_store host emu inst length _ rfl kind (extracted.funct3.trans f3) extracted.length,
      imm .s rfl, immOf, immS_field, extracted.rs1, extracted.rs2]
    rfl
  | ebreak =>
    have raw : inst.raw = rawEbreak := extracted.raw.trans encoded
    have kind : inst.opcode = .system := by
      rw [extracted.opcode, encoded]
      decide
    have broken : execSwitch host emu inst = execEbreak emu inst := by
      simp only [execSwitch, kind, execSystem, raw]
      rfl
    simp only [execute, broken, execEbreak, Instruction.run, breakpoint, seqPc, extracted.length]
    by_cases vector : emu.csr.mtvec ≠ 0
    · rw [if_pos vector, if_pos vector]
      rfl
    · rw [if_neg vector, if_neg vector]

theorem encodes_format (word : Word) (instr : Instruction) (encoded : Encodes word instr) :
    ∃ fmt, getFmt (opcodeOf word) = some fmt := by
  cases instr with
  | base form => exact ofWord_format word form encoded
  | lw rd rs1 offset =>
    rw [opcodeOf, encoded.1]
    exact ⟨_, rfl⟩
  | sw rs2 rs1 offset =>
    rw [opcodeOf, encoded.1]
    exact ⟨_, rfl⟩
  | ebreak =>
    rw [encoded]
    exact ⟨.i, by decide⟩

/-- Only instructions other than these are illegal. -/
theorem raise_legal (emu : Emulator) (cause value tval : Word) (legal : cause ≠ 2) :
    (raise emu cause value).1 ≠ .trapped 2 tval := by
  intro same
  rcases raiseOrStop_event emu cause value emu.rf.pc with trapped | failed
  · exact legal (Event.trapped.inj (trapped.symm.trans same)).1
  · have differs := failed.symm.trans same
    cases differs

theorem run_legal (instr : Instruction) (length tval : Word) (emu : Emulator) :
    (instr.run length emu).1 ≠ .trapped 2 tval := by
  cases instr with
  | base form =>
    intro same
    cases same
  | lw rd rs1 offset =>
    simp only [Instruction.run, loadWord]
    split
    · exact raise_legal emu 4 _ tval (by decide)
    · split
      · exact raise_legal _ 13 _ tval (by decide)
      · split
        · exact raise_legal _ 5 _ tval (by decide)
        · intro same
          cases same
  | sw rs2 rs1 offset =>
    simp only [Instruction.run, storeWord]
    split
    · exact raise_legal emu 6 _ tval (by decide)
    · split
      · exact raise_legal _ 15 _ tval (by decide)
      · split
        · intro same
          cases same
        · split
          · exact raise_legal _ 7 _ tval (by decide)
          · intro same
            cases same
  | ebreak =>
    simp only [Instruction.run, breakpoint]
    split
    · exact raise_legal emu 3 0 tval (by decide)
    · intro same
      cases same

/-! ## The step -/

/-- No interrupt is taken, and the pc holds the halfword, fetched in the ready state. -/
structure Fetched (emu ready : Emulator) (c : Half) : Prop where
  quiet : (trapCheckInterrupt emu emu.rf.pc).1 = false
  even : emu.rf.pc &&& 1 = 0
  read : ∃ pa, mmuTranslate (timerTick emu) emu.rf.pc .fetch = (.ok pa, ready) ∧
    memoryRead16 ready.mem pa = some c

/-- The step ticks the timer, sets accessed bits of its fetch, and runs the
    instruction with two bytes of length; it is not illegal. -/
structure Performs (host : HostFloat) (emu ready : Emulator) (instr : Instruction) : Prop where
  timer : ready = ticked emu ready.mem
  accessed : Marked pteA (VisitedLeaf emu (fetchAccesses (timerTick emu))) emu.mem.data
    ready.mem.data
  effect : emuStep host emu = countCycle (instr.run 2 ready)
  legal : ∀ tval, (emuStep host emu).1 ≠ .trapped 2 tval

/-- The meaning of a halfword: what is accepted is decoded and performs the
    instruction of its formats, and what they reserve is rejected. -/
structure Meaning (c : Half) : Prop where
  decoded : ∀ raw, expandCompressed c = some raw → ∃ inst, decode raw = some inst
  performed : ∀ raw, expandCompressed c = some raw →
    ∃ instr, Instruction.ofHalf c = some instr ∧
      ∀ host emu ready, Fetched emu ready c → Performs host emu ready instr
  rejected : Reserved c → expandCompressed c = none

/-- The low bits of an accepted halfword are not both set. -/
theorem accepted_short (c : Half) (raw : Word) (accepted : expandCompressed c = some raw) :
    c &&& 3 ≠ 3 := by
  intro long
  have wide : c.setWidth 32 &&& (3 : Word) = 3 := by
    have widened := congrArg (BitVec.setWidth 32) long
    rwa [BitVec.setWidth_and] at widened
  simp only [expandCompressed, wide] at accepted
  cases accepted

/-- A step on an accepted halfword performs the instruction that its expansion encodes. -/
theorem step_encoded (host : HostFloat) (emu ready : Emulator) (c : Half) (raw : Word)
    (instr : Instruction) (accepted : expandCompressed c = some raw) (encoded : Encodes raw instr)
    (fetched : Fetched emu ready c) : Performs host emu ready instr := by
  obtain ⟨pa, translated, read⟩ := fetched.read
  have fetch : emuFetch (timerTick emu) emu.rf.pc = (.ok (raw, true), ready) := by
    simp only [emuFetch, translated, read, if_pos (accepted_short c raw accepted), accepted]
  obtain ⟨state, marked⟩ := fetch_marks emu ready _ fetch
  obtain ⟨fmt, known⟩ := encodes_format raw instr encoded
  obtain ⟨inst, decoded, extracted⟩ := decode_extracts raw fmt known true
  have executed := execute_encoded host ready raw 2 _ instr encoded extracted
  have effect : emuStep host emu = countCycle (instr.run 2 ready) := by
    rw [emuStep_halves, HalfwordFetch.frontEnd_fetch emu fetched.quiet fetched.even, fetch]
    simp only [HalfwordFetch.frontOf, decoded, backEnd, executed]
  refine ⟨state, marked, effect, ?_⟩
  intro tval
  have legal := run_legal instr 2 tval ready
  rw [effect, countCycle]
  split
  · exact legal
  · exact legal

/-- Every halfword means what its formats say. -/
theorem compressed_meaning (c : Half) : Meaning c := by
  constructor
  · intro raw accepted
    obtain ⟨instr, -, encoded⟩ := expand_encodes c raw accepted
    obtain ⟨fmt, known⟩ := encodes_format raw instr encoded
    obtain ⟨inst, decoded, -⟩ := decode_extracts raw fmt known true
    exact ⟨inst, decoded⟩
  · intro raw accepted
    obtain ⟨instr, reads, encoded⟩ := expand_encodes c raw accepted
    exact ⟨instr, reads, fun host emu ready fetched =>
      step_encoded host emu ready c raw instr accepted encoded fetched⟩
  · intro reserved
    cases accepted : expandCompressed c with
    | none => rfl
    | some raw =>
      obtain ⟨instr, reads, -⟩ := expand_encodes c raw accepted
      rw [reserved_none c reserved] at reads
      cases reads

/-- A machine at `c.jal -2`. -/
def backwardCall : Emulator :=
  loadImage (emuInit (fun _ => 0)) (programImage 0x1000 [0x00003FFD])

/-- The link is two bytes on, and the target two bytes back. -/
theorem backwardCall_links :
    (emuStep idleHost backwardCall).2.rf.pc = 0xFFE ∧
      (emuStep idleHost backwardCall).2.rf.regs 1 = 0x1002 := by
  have accepted : expandCompressed 0x3FFD = some 0xFFFFF0EF := by decide
  have stands : Instruction.ofHalf 0x3FFD = some (.base (.jal 1 0xFFFFFFFE)) := by decide
  obtain ⟨instr, reads, performed⟩ := (compressed_meaning 0x3FFD).performed _ accepted
  rw [stands] at reads
  cases reads
  have performs := performed idleHost backwardCall (timerTick backwardCall)
    { quiet := by decide, even := by decide, read := ⟨0x1000, rfl, by decide⟩ }
  rw [performs.effect]
  decide

end RvEmu.CompressedMeaning
