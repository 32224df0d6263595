import RvEmu.BaseInstructions

/-!
# Encodings that select no operation

Under most opcodes some values of the other fields are no instruction. Each of
them should have one effect: an illegal-instruction exception with the word for
its trap value, and memory as the fetch left it. The order of the tests decides.
Where the fields are tested first, it is so. Loads, stores and atomics test them
last, after the operand address has been checked, translated and read, so a
fault of the operand comes first, and the translation leaves its marks. The
arithmetic opcodes and the indirect jump do not test all of their fields.
-/

namespace RvEmu.Unimplemented

open LittleEndian PageWalk ExecOutcome StepAnatomy InstructionSet BaseInstructions

/-! ## The encodings -/

/-- The operations of `OP-FP`; the rounding mode selects none. -/
def floatSelects (funct7 : BitVec 7) (funct3 : BitVec 3) (rs2 : Reg) : Bool :=
  match funct7 with
  | 0x00#7 => true
  | 0x04#7 => true
  | 0x08#7 => true
  | 0x0C#7 => true
  | 0x10#7 => funct3 = 0 ∨ funct3 = 1 ∨ funct3 = 2
  | 0x14#7 => funct3 = 0 ∨ funct3 = 1
  | 0x2C#7 => rs2 = 0
  | 0x50#7 => funct3 = 0 ∨ funct3 = 1 ∨ funct3 = 2
  | 0x60#7 => rs2 = 0 ∨ rs2 = 1
  | 0x68#7 => rs2 = 0 ∨ rs2 = 1
  | 0x70#7 => rs2 = 0 ∧ (funct3 = 0 ∨ funct3 = 1)
  | 0x78#7 => rs2 = 0 ∧ funct3 = 0
  | _ => false

/-- The `funct5` of the atomics that read, modify and write. -/
def amoFunct5 : List (BitVec 7) := [0x00, 0x01, 0x04, 0x08, 0x0C, 0x10, 0x14, 0x18, 0x1C]

/-- The fields under the opcode select an operation. -/
def selects (word : Word) : Bool :=
  let funct3 := word.extractLsb' 12 3
  let funct7 := word.extractLsb' 25 7
  let rs2 := word.extractLsb' 20 5
  match opcodeOf word with
  | .alu => funct7 = 0x01 ∨ (operationOf funct7 funct3).isSome
  | .alui => (immediateForm word).isSome
  | .load => funct3 = 0 ∨ funct3 = 1 ∨ funct3 = 2 ∨ funct3 = 4 ∨ funct3 = 5
  | .store => funct3 = 0 ∨ funct3 = 1 ∨ funct3 = 2
  | .loadFp => funct3 = 2
  | .storeFp => funct3 = 2
  | .amo =>
    funct3 = 2 ∧ (funct7 >>> 2 = 0x02 ∧ rs2 = 0 ∨ funct7 >>> 2 = 0x03 ∨ funct7 >>> 2 ∈ amoFunct5)
  | .branch => (comparisonOf funct3).isSome
  | .jalr => funct3 = 0
  | .fp => floatSelects funct7 funct3 rs2
  | .system =>
    (funct3 ≠ 0 ∧ funct3 ≠ 4) ∨ word ∈ [rawMret, rawSret, rawEcall, rawEbreak] ∨
      word &&& 0xFE007FFF = 0x12000073
  | .fence => funct3 = 0
  | .lui => true
  | .auipc => true
  | .jal => true
  | .other _ => false

/-- The opcode is one that `execute` handles. -/
def Handled (word : Word) : Prop := ∀ bits, opcodeOf word ≠ .other bits

/-! ## The one effect -/

/-- A handler is installed for illegal instructions. -/
def Handles (emu : Emulator) : Prop :=
  if delegated emu excIllegalInst then emu.csr.stvec ≠ 0 else emu.csr.mtvec ≠ 0

instance (emu : Emulator) : Decidable (Handles emu) :=
  inferInstanceAs (Decidable (if delegated emu excIllegalInst then emu.csr.stvec ≠ 0
    else emu.csr.mtvec ≠ 0))

/-- The step traps the word as illegal, and memory is as the fetch left it. -/
structure RaisesIllegal (host : HostFloat) (emu ready : Emulator) (word : Word) : Prop where
  trapped : (emuStep host emu).1 = .trapped 2 word
  memory : (emuStep host emu).2.mem = ready.mem

/-- The address translates, through an entry that has its bits already. -/
def Untouched (emu : Emulator) (va : Word) (acc : Access) (pa : Word) : Prop :=
  (Bare emu ∧ pa = va) ∨
    ∃ leaf, ¬ Bare emu ∧ walk emu.mem emu.csr.satp va = some leaf ∧
      pteAllows emu leaf.pte acc = true ∧ pteTouched leaf.pte acc = leaf.pte ∧
      pa = leaf.target va

/-- The word is rejected without an effect of its operand: its fields are tested
    first, or the operand passes every test before them. -/
def Rejects (ready : Emulator) (word : Word) : Prop :=
  let rs1 := ready.rf.regs (word.extractLsb' 15 5)
  match opcodeOf word with
  | .alu => False
  | .alui => False
  | .jalr => False
  | .load => ∃ pa, Untouched ready (rs1 + immediateI word) .load pa
  | .store => ∃ pa, Untouched ready (rs1 + immediateS word) .store pa
  | .amo =>
    word.extractLsb' 12 3 ≠ 2 ∨
      (word.extractLsb' 25 7 >>> 2 ≠ 0x02 ∧ rs1.toNat % 4 = 0 ∧
        ∃ pa, Untouched ready rs1 .store pa ∧ (memoryRead32 ready.mem pa).isSome)
  | _ => True

/-! ## Exits of the switch -/

/-- The exits that raise an illegal-instruction exception and nothing else. -/
def IllegalExit (ready : Emulator) : Exec → Prop
  | .unknown after => after = ready
  | .except after cause _ => cause = excIllegalInst ∧ after = ready
  | _ => False

/-- The exits that change at most memory before they raise an exception. -/
def Framed (ready : Emulator) : Exec → Prop
  | .unknown after => ∃ mem, after = withMem ready mem
  | .except after _ _ => ∃ mem, after = withMem ready mem
  | .raised _ _ => False
  | _ => True

/-- Memory does not decide who handles an exception. -/
theorem handled_raise (ready : Emulator) (mem : Memory) (handles : Handles ready)
    (tval epc : Word) :
    ∃ after, raiseOrStop (withMem ready mem) excIllegalInst tval epc = (.trapped 2 tval, after) ∧
      after.mem = mem := by
  have still : Handles (withMem ready mem) := handles
  simp only [Handles] at still
  simp only [raiseOrStop, trapRaise]
  split at still
  · rename_i sent
    rw [if_pos sent, if_neg still]
    exact ⟨_, rfl, rfl⟩
  · rename_i kept
    rw [if_neg kept, if_neg still]
    exact ⟨_, rfl, rfl⟩

/-- Raising illegal instruction from a framed state is the one effect when the state
    is the one the fetch left. -/
theorem raised_iff (host : HostFloat) (emu ready : Emulator) (mem : Memory) (word epc : Word)
    (handles : Handles ready)
    (step : emuStep host emu =
      countCycle (raiseOrStop (withMem ready mem) excIllegalInst word epc)) :
    RaisesIllegal host emu ready word ↔ withMem ready mem = ready := by
  obtain ⟨after, raised, kept⟩ := handled_raise ready mem handles word epc
  have counts : ¬ Event.trapped 2 word = .failed := by
    intro same
    cases same
  rw [raised, countCycle, if_neg counts] at step
  constructor
  · intro illegal
    have same : mem = ready.mem := by
      rw [← illegal.memory, step]
      exact kept.symm
    rw [same]
    rfl
  · intro same
    constructor
    · rw [step]
    · rw [step, ← congrArg Emulator.mem same]
      exact kept

/-- A step that ends otherwise does not raise it. -/
theorem other_event (host : HostFloat) (emu ready : Emulator) (word : Word)
    (result : Event × Emulator) (step : emuStep host emu = countCycle result)
    (other : result.1 ≠ .trapped 2 word) : ¬ RaisesIllegal host emu ready word := by
  intro illegal
  have event := illegal.trapped
  rw [step, countCycle] at event
  split at event
  · exact other event
  · exact other event

/-- A step that issues the word raises what its exit says. -/
theorem raises_iff (host : HostFloat) (emu ready : Emulator) (inst : DecodedInst)
    (step : emuStep host emu = countCycle (execute host ready inst)) (handles : Handles ready)
    (framed : Framed ready (execSwitch host ready inst)) :
    RaisesIllegal host emu ready inst.raw ↔ IllegalExit ready (execSwitch host ready inst) := by
  simp only [execute] at step
  generalize execSwitch host ready inst = exit at step framed ⊢
  cases exit with
  | next after nextPc effect =>
    have retires := other_event host emu ready inst.raw _ step Event.noConfusion
    exact iff_of_false retires id
  | unknown after =>
    obtain ⟨mem, rfl⟩ := framed
    exact raised_iff host emu ready mem inst.raw ready.rf.pc handles step
  | except after cause addr =>
    obtain ⟨mem, rfl⟩ := framed
    by_cases illegal : cause = excIllegalInst
    · subst illegal
      have raised := raised_iff host emu ready mem inst.raw ready.rf.pc handles step
      exact raised.trans (and_iff_right rfl).symm
    · constructor
      · refine fun raises => absurd raises (other_event host emu ready inst.raw _ step ?_)
        intro same
        rcases raiseOrStop_event (withMem ready mem) cause _ ready.rf.pc with trapped | failed
        · exact illegal (Event.trapped.inj (trapped.symm.trans same)).1
        · have differs := failed.symm.trans same
          cases differs
      · exact fun both => absurd both.1 illegal
  | raised after cause => exact framed.elim
  | stopped after =>
    have stops := other_event host emu ready inst.raw _ step Event.noConfusion
    exact iff_of_false stops id

/-! ## Translations of the operand -/

/-- A translation that changes nothing has found its bits set. -/
theorem translate_untouched (ready : Emulator) (va pa : Word) (acc : Access) :
    mmuTranslate ready va acc = (.ok pa, ready) ↔ Untouched ready va acc pa := by
  constructor
  · intro translated
    rcases mmuTranslate_ok ready ready va pa acc translated with
      ⟨bare, same, -⟩ | ⟨leaf, paged, found, allowed, target, updated⟩
    · exact Or.inl ⟨bare, same⟩
    · refine Or.inr ⟨leaf, paged, found, allowed, ?_, target⟩
      obtain ⟨read, -, -, -⟩ := walk_found ready.mem ready.csr.satp va leaf found
      obtain ⟨-, stored⟩ := memoryRead32_some ready.mem leaf.addr leaf.pte read
      rw [pteUpdateAd_eq] at updated
      have kept : ready.mem = touchMemory ready.mem leaf acc := congrArg Emulator.mem updated
      have reread := reread_touched ready.mem leaf acc read
      rw [← kept, Leaf.reread, stored] at reread
      exact reread.symm
  · rw [mmuTranslate_eq]
    rintro (⟨bare, rfl⟩ | ⟨leaf, paged, found, allowed, kept, rfl⟩)
    · rw [if_pos bare]
    · rw [if_neg paged, found]
      dsimp only
      rw [if_pos allowed, pteUpdateAd, if_neg (not_not.mpr kept)]

/-- A translated access is illegal where it goes on, and goes on to be. -/
theorem translateThen_iff (ready : Emulator) (va : Word) (acc : Access)
    (access : Emulator → Word → Exec) :
    IllegalExit ready (translateThen ready va acc access) ↔
      ∃ pa after, mmuTranslate ready va acc = (.ok pa, after) ∧
        IllegalExit ready (access after pa) := by
  rw [translateThen]
  cases translated : mmuTranslate ready va acc with
  | mk result after =>
    cases result with
    | error cause =>
      have page : cause ≠ excIllegalInst := by
        rw [(mmuTranslate_error ready after va cause acc translated).2]
        cases acc <;> decide
      constructor
      · exact fun illegal => absurd illegal.1 page
      · rintro ⟨pa, later, same, -⟩
        cases same
    | ok pa =>
      constructor
      · exact fun illegal => ⟨pa, after, rfl, illegal⟩
      · rintro ⟨other, later, same, illegal⟩
        cases same
        exact illegal

/-- Where the access is illegal just in the state before it, under a condition on the
    address, it is illegal after a translation that changes nothing. -/
theorem translated_illegal (ready : Emulator) (va : Word) (acc : Access)
    (access : Emulator → Word → Exec) (passes : Word → Prop)
    (illegal : ∀ after pa, IllegalExit ready (access after pa) ↔ after = ready ∧ passes pa) :
    IllegalExit ready (translateThen ready va acc access) ↔
      ∃ pa, Untouched ready va acc pa ∧ passes pa := by
  rw [translateThen_iff]
  constructor
  · rintro ⟨pa, after, translated, exit⟩
    obtain ⟨rfl, passed⟩ := (illegal after pa).mp exit
    exact ⟨pa, (translate_untouched after va pa acc).mp translated, passed⟩
  · rintro ⟨pa, untouched, passed⟩
    exact ⟨pa, ready, (translate_untouched ready va pa acc).mpr untouched,
      (illegal ready pa).mpr ⟨rfl, passed⟩⟩

/-- The exit is framed when that of the access is. -/
theorem translateThen_framed (ready : Emulator) (va : Word) (acc : Access)
    (access : Emulator → Word → Exec)
    (framed : ∀ mem pa, Framed ready (access (withMem ready mem) pa)) :
    Framed ready (translateThen ready va acc access) := by
  rw [translateThen]
  cases translated : mmuTranslate ready va acc with
  | mk result after =>
    cases result with
    | error cause =>
      obtain ⟨same, -⟩ := mmuTranslate_error ready after va cause acc translated
      exact ⟨ready.mem, same⟩
    | ok pa =>
      obtain ⟨mem, same⟩ := mmuTranslate_frame ready after va pa acc translated
      rw [same]
      exact framed mem pa

/-! ## The opcodes -/

section Opcodes

variable (host : HostFloat) (ready : Emulator) (word : Word) (inst : DecodedInst)

/-- An access that is unknown after its translation. -/
theorem unknown_access (va : Word) (acc : Access)
    (switched : execSwitch host ready inst =
      translateThen ready va acc (fun after _ => .unknown after)) :
    Framed ready (execSwitch host ready inst) ∧
      (IllegalExit ready (execSwitch host ready inst) ↔ ∃ pa, Untouched ready va acc pa) := by
  rw [switched]
  constructor
  · exact translateThen_framed ready va acc _ (fun mem _ => ⟨mem, rfl⟩)
  · have illegal (after : Emulator) (pa : Word) :
        IllegalExit ready (.unknown after) ↔ after = ready ∧ True :=
      (and_iff_left trivial).symm
    rw [translated_illegal ready va acc _ _ illegal]
    simp only [and_true]

/-- A load of no width is translated like a load, and then unknown. -/
theorem load_switched (extracted : Extracted word 4 inst) (kind : opcodeOf word = .load)
    (unselected : ¬ selects word) :
    execSwitch host ready inst =
      translateThen ready (ready.rf.regs (word.extractLsb' 15 5) + immediateI word) .load
        (fun after _ => .unknown after) := by
  have funct3 : inst.funct3 = 3 ∨ inst.funct3 = 6 ∨ inst.funct3 = 7 := by
    simp only [selects, kind, decide_eq_true_eq] at unselected
    rw [extracted.funct3]
    generalize word.extractLsb' 12 3 = f3 at unselected ⊢
    revert f3
    decide
  have imm : inst.imm = immediateI word := by
    rw [extracted.imm .i (by rw [kind]; rfl), immOf, immI_field]
  have opcode : inst.opcode = .load := extracted.opcode.trans kind
  have access (addr : Word) : loadAccess inst addr = fun after _ => .unknown after := by
    funext after pa
    rcases funct3 with three | six | seven
    · simp [loadAccess, loadValue, three]
    · simp [loadAccess, loadValue, six]
    · simp [loadAccess, loadValue, seven]
  have aligned (addr : Word) : ¬ loadMisaligned inst addr = true := by
    rcases funct3 with three | six | seven
    · simp [loadMisaligned, three]
    · simp [loadMisaligned, six]
    · simp [loadMisaligned, seven]
  simp only [execSwitch, opcode, execLoad, regRead, extracted.rs1, imm, access]
  exact if_neg (aligned _)

theorem load_exit (extracted : Extracted word 4 inst) (kind : opcodeOf word = .load)
    (unselected : ¬ selects word) :
    Framed ready (execSwitch host ready inst) ∧
      (IllegalExit ready (execSwitch host ready inst) ↔ Rejects ready word) := by
  simp only [Rejects, kind]
  exact unknown_access host ready inst _ .load
    (load_switched host ready word inst extracted kind unselected)

/-- So is a store. -/
theorem store_switched (extracted : Extracted word 4 inst) (kind : opcodeOf word = .store)
    (unselected : ¬ selects word) :
    execSwitch host ready inst =
      translateThen ready (ready.rf.regs (word.extractLsb' 15 5) + immediateS word) .store
        (fun after _ => .unknown after) := by
  have funct3 : ¬ (inst.funct3 = 0 ∨ inst.funct3 = 1 ∨ inst.funct3 = 2) := by
    simp only [selects, kind, decide_eq_true_eq] at unselected
    rw [extracted.funct3]
    exact unselected
  rw [not_or, not_or] at funct3
  obtain ⟨byte, half, wide⟩ := funct3
  have imm : inst.imm = immediateS word := by
    rw [extracted.imm .s (by rw [kind]; rfl), immOf, immS_field]
  have opcode : inst.opcode = .store := extracted.opcode.trans kind
  have access (addr : Word) : storeAccess inst addr = fun after _ => .unknown after := by
    funext after pa
    simp only [storeAccess]
    rw [if_neg (fun both => wide both.1)]
    split
    · rename_i f3
      exact absurd f3 byte
    · rename_i f3
      exact absurd f3 half
    · rename_i f3
      exact absurd f3 wide
    · rfl
  have aligned (addr : Word) : ¬ storeMisaligned inst addr = true := by
    simp only [storeMisaligned, decide_eq_true_eq]
    rintro (⟨f3, -⟩ | ⟨f3, -⟩)
    · exact half f3
    · exact wide f3
  simp only [execSwitch, opcode, execStore, regRead, extracted.rs1, imm, access]
  exact if_neg (aligned _)

theorem store_exit (extracted : Extracted word 4 inst) (kind : opcodeOf word = .store)
    (unselected : ¬ selects word) :
    Framed ready (execSwitch host ready inst) ∧
      (IllegalExit ready (execSwitch host ready inst) ↔ Rejects ready word) := by
  simp only [Rejects, kind]
  exact unknown_access host ready inst _ .store
    (store_switched host ready word inst extracted kind unselected)

/-- Without an operation the value of an atomic is undefined. -/
theorem amo_undefined (f5 : BitVec 7) (old operand : Word) (outside : f5 ∉ amoFunct5) :
    amoResult f5 old operand = none := by
  simp only [amoResult]
  split
  case h_10 => rfl
  all_goals exact absurd (by decide) outside

/-- Reading a word without an operation on it. -/
theorem amoAccess_undefined (addr pa : Word) (after : Emulator)
    (outside : inst.funct7 >>> 2 ∉ amoFunct5) :
    amoAccess inst addr after pa =
      if (memoryRead32 after.mem pa).isSome then .unknown after
      else .except after excStoreAccess addr := by
  simp only [amoAccess]
  cases memoryRead32 after.mem pa with
  | none => rfl
  | some old => simp only [amo_undefined _ old _ outside, Option.isSome_some, if_true]

theorem amoAccess_framed (va : Word) (outside : inst.funct7 >>> 2 ∉ amoFunct5) (mem : Memory)
    (pa : Word) : Framed ready (amoAccess inst va (withMem ready mem) pa) := by
  rw [amoAccess_undefined inst va pa _ outside]
  split
  · exact ⟨mem, rfl⟩
  · exact ⟨mem, rfl⟩

/-- It is illegal where the word can be read. -/
theorem amoAccess_illegal (va : Word) (outside : inst.funct7 >>> 2 ∉ amoFunct5)
    (after : Emulator) (pa : Word) :
    IllegalExit ready (amoAccess inst va after pa) ↔
      after = ready ∧ (memoryRead32 ready.mem pa).isSome := by
  rw [amoAccess_undefined inst va pa after outside]
  constructor
  · intro illegal
    split at illegal
    · rename_i read
      have same : after = ready := illegal
      rw [same] at read
      exact ⟨same, read⟩
    · exact absurd illegal.1 (by decide)
  · rintro ⟨rfl, read⟩
    rw [if_pos read]
    exact rfl

/-- `LR.W` faults as a load or completes, whatever its second register field. -/
theorem lr_framed (va : Word) (mem : Memory) (pa : Word) :
    Framed ready (lrAccess inst va (withMem ready mem) pa) := by
  simp only [lrAccess]
  split
  · exact ⟨mem, rfl⟩
  · exact trivial

theorem lr_legal (va pa : Word) (after : Emulator) :
    ¬ IllegalExit ready (lrAccess inst va after pa) := by
  simp only [lrAccess]
  split
  · exact fun illegal => absurd illegal.1 (by decide)
  · exact id

/-- The tests of an atomic that is no `SC.W`, in their order. -/
theorem execAmo_tests (va : Word) (address : ready.rf.regs inst.rs1 = va)
    (funct3 : inst.funct3 = 2) (notSc : ¬ inst.funct7 >>> 2 = 0x03) :
    execAmo ready inst =
      if va &&& 3 ≠ 0 then
        .except ready
          (if inst.funct7 >>> 2 = 0x02 then excLoadMisaligned else excStoreMisaligned) va
      else if inst.funct7 >>> 2 = 0x02 then translateThen ready va .load (lrAccess inst va)
      else translateThen ready va .store (amoAccess inst va) := by
  subst address
  simp only [execAmo, funct3, if_neg notSc, regRead, ne_eq, not_true_eq_false, if_false]

/-- An atomic of another width is unknown at once; one without an operation only after
    its address has been checked, translated and read. -/
theorem amo_exit (extracted : Extracted word 4 inst) (kind : opcodeOf word = .amo)
    (unselected : ¬ selects word) :
    Framed ready (execSwitch host ready inst) ∧
      (IllegalExit ready (execSwitch host ready inst) ↔ Rejects ready word) := by
  have opcode : inst.opcode = .amo := extracted.opcode.trans kind
  have switched : execSwitch host ready inst = execAmo ready inst := by
    simp only [execSwitch, opcode]
  simp only [selects, kind, decide_eq_true_eq, ← extracted.funct3, ← extracted.funct7,
    ← extracted.rs2] at unselected
  simp only [Rejects, kind, ← extracted.funct3, ← extracted.funct7, ← extracted.rs1]
  rw [switched]
  by_cases wide : inst.funct3 ≠ 2
  · have exit : execAmo ready inst = .unknown ready := if_pos wide
    rw [exit]
    exact ⟨⟨ready.mem, rfl⟩, fun _ => Or.inl wide, fun _ => rfl⟩
  · have funct3 : inst.funct3 = 2 := not_not.mp wide
    have selects : ¬ (inst.funct7 >>> 2 = 0x02 ∧ inst.rs2 = 0 ∨ inst.funct7 >>> 2 = 0x03 ∨
        inst.funct7 >>> 2 ∈ amoFunct5) :=
      fun some => unselected ⟨funct3, some⟩
    rw [not_or, not_or] at selects
    obtain ⟨-, notSc, outside⟩ := selects
    obtain ⟨va, address⟩ : ∃ va, ready.rf.regs inst.rs1 = va := ⟨_, rfl⟩
    rw [execAmo_tests ready inst va address funct3 notSc, address, or_iff_right wide]
    by_cases odd : va &&& 3 ≠ 0
    · rw [if_pos odd]
      refine ⟨⟨ready.mem, rfl⟩, fun illegal => absurd illegal.1 ?_, ?_⟩
      · split <;> decide
      · rintro ⟨-, aligned, -⟩
        exact absurd aligned ((low_two va).mp odd)
    · have aligned : va.toNat % 4 = 0 := not_not.mp (mt (low_two va).mpr odd)
      rw [if_neg odd]
      by_cases lr : inst.funct7 >>> 2 = 0x02
      · rw [if_pos lr]
        refine ⟨translateThen_framed ready va .load _ (lr_framed ready inst va), ?_, ?_⟩
        · rw [translateThen_iff]
          rintro ⟨pa, after, -, illegal⟩
          exact absurd illegal (lr_legal ready inst va pa after)
        · exact fun rejected => absurd lr rejected.1
      · rw [if_neg lr]
        refine ⟨translateThen_framed ready va .store _ (amoAccess_framed ready inst va outside), ?_⟩
        rw [translated_illegal ready va .store _ _ (amoAccess_illegal ready inst va outside)]
        exact ⟨fun passed => ⟨lr, aligned, passed⟩, fun rejected => rejected.2.2⟩

/-- A number that is neither zero nor one is above one. -/
theorem above_one {w : Nat} (field : BitVec (w + 2)) (not0 : field ≠ 0) (not1 : field ≠ 1) :
    field > 1 := by
  have one : (1 : BitVec (w + 2)).toNat = 1 := BitVec.toNat_one (by omega)
  have zero : field.toNat ≠ 0 :=
    fun same => not0 (BitVec.eq_of_toNat_eq (same.trans BitVec.toNat_zero.symm))
  have other : field.toNat ≠ 1 :=
    fun same => not1 (BitVec.eq_of_toNat_eq (same.trans one.symm))
  rw [gt_iff_lt, BitVec.lt_def]
  omega

theorem above_two (field : BitVec 3) (not0 : field ≠ 0) (not1 : field ≠ 1) (not2 : field ≠ 2) :
    field > 2 := by
  bv_omega

/-- Fields of `OP-FP` that select no operation are not supported. -/
theorem fpu_unsupported (rf : Regfile) (csr : Csr)
    (unselected : ¬ floatSelects inst.funct7 inst.funct3 inst.rs2 = true) :
    fpuExecute host rf csr inst = none := by
  simp only [floatSelects] at unselected
  simp only [fpuExecute]
  split at unselected
  case h_13 =>
    split
    all_goals simp_all
  all_goals
    rename_i funct7
    simp only [funct7]
    simp only [decide_eq_true_eq, not_or, not_true_eq_false] at unselected
  case h_5 =>
    obtain ⟨not0, not1, not2⟩ := unselected
    rw [if_neg not0, if_neg not1, if_neg not2]
  case h_6 => exact if_pos (above_one inst.funct3 unselected.1 unselected.2)
  case h_7 => exact if_pos unselected
  case h_8 =>
    obtain ⟨not0, not1, not2⟩ := unselected
    exact if_pos (above_two inst.funct3 not0 not1 not2)
  case h_9 => exact if_pos (above_one inst.rs2 unselected.1 unselected.2)
  case h_10 => exact if_pos (above_one inst.rs2 unselected.1 unselected.2)
  case h_11 =>
    by_cases rs2 : inst.rs2 ≠ 0
    · exact if_pos rs2
    · have other := not_and.mp unselected (not_not.mp rs2)
      rw [not_or] at other
      rw [if_neg rs2, if_neg other.1, if_neg other.2]
  case h_12 => exact if_pos (not_and_or.mp unselected)

/-- A system word outside the special ones is illegal as a CSR instruction without an
    operation, if not for its privilege or number. -/
theorem csr_exit (none : csrOperand inst = fun _ _ => none) :
    Framed ready (execCsr ready inst) ∧ IllegalExit ready (execCsr ready inst) := by
  simp only [execCsr, none]
  split
  · exact ⟨⟨ready.mem, rfl⟩, rfl, rfl⟩
  · split
    · exact ⟨⟨ready.mem, rfl⟩, rfl, rfl⟩
    · split
      · exact ⟨⟨ready.mem, rfl⟩, rfl, rfl⟩
      · exact ⟨⟨ready.mem, rfl⟩, rfl⟩

theorem system_exit (extracted : Extracted word 4 inst) (kind : opcodeOf word = .system)
    (unselected : ¬ selects word) :
    Framed ready (execSwitch host ready inst) ∧
      IllegalExit ready (execSwitch host ready inst) := by
  simp only [selects, kind, decide_eq_true_eq, not_or, List.mem_cons,
    List.not_mem_nil] at unselected
  obtain ⟨funct3, ⟨mret, sret, ecall, ebreak, -⟩, fence⟩ := unselected
  have opcode : inst.opcode = .system := extracted.opcode.trans kind
  have switched : execSwitch host ready inst = execCsr ready inst := by
    simp only [execSwitch, opcode, execSystem, extracted.raw]
    rw [if_neg mret, if_neg sret, if_neg fence, if_neg ecall, if_neg ebreak]
  rw [switched]
  apply csr_exit
  funext old source
  rw [← extracted.funct3] at funct3
  simp only [csrOperand]
  split
  case h_7 => rfl
  all_goals
    rename_i selected
    rw [selected] at funct3
    exact absurd (by decide) funct3

/-- A comparison that is undefined in the encoding is undefined in the switch. -/
theorem branch_undefined (funct3 : BitVec 3) (a b : Word) (undefined : comparisonOf funct3 = none) :
    branchTaken funct3 a b = none := by
  simp only [branchTaken]
  split
  case h_7 => rfl
  all_goals cases undefined

/-- An instruction that is unknown at once, where nothing else is asked of the word. -/
theorem unknown_exit (switched : execSwitch host ready inst = .unknown ready)
    (always : Rejects ready word) :
    Framed ready (execSwitch host ready inst) ∧
      (IllegalExit ready (execSwitch host ready inst) ↔ Rejects ready word) := by
  rw [switched]
  exact ⟨⟨ready.mem, rfl⟩, fun _ => always, fun _ => rfl⟩

/-- An instruction that completes with a result, where it should never. -/
theorem completed_exit
    (completes : ∃ after nextPc effect, execSwitch host ready inst = .next after nextPc effect)
    (never : ¬ Rejects ready word) :
    Framed ready (execSwitch host ready inst) ∧
      (IllegalExit ready (execSwitch host ready inst) ↔ Rejects ready word) := by
  obtain ⟨after, nextPc, effect, switched⟩ := completes
  rw [switched]
  exact ⟨trivial, False.elim, never⟩

/-- What an unselected word ends in. -/
theorem unselected_exit (extracted : Extracted word 4 inst)
    (handled : Handled word) (known : opcodeOf word ≠ .fence) (unselected : ¬ selects word) :
    Framed ready (execSwitch host ready inst) ∧
      (IllegalExit ready (execSwitch host ready inst) ↔ Rejects ready word) := by
  have same := extracted.opcode
  cases kind : opcodeOf word with
  | alu =>
    rw [kind] at same
    apply completed_exit
    · simp only [execSwitch, same]
      exact ⟨_, _, _, rfl⟩
    · simp only [Rejects, kind, not_false_eq_true]
  | alui =>
    rw [kind] at same
    apply completed_exit
    · simp only [execSwitch, same]
      exact ⟨_, _, _, rfl⟩
    · simp only [Rejects, kind, not_false_eq_true]
  | jalr =>
    rw [kind] at same
    apply completed_exit
    · simp only [execSwitch, same]
      exact ⟨_, _, _, rfl⟩
    · simp only [Rejects, kind, not_false_eq_true]
  | load => exact load_exit host ready word inst extracted kind unselected
  | store => exact store_exit host ready word inst extracted kind unselected
  | amo => exact amo_exit host ready word inst extracted kind unselected
  | loadFp =>
    rw [kind] at same
    simp only [selects, kind, decide_eq_true_eq, ← extracted.funct3] at unselected
    have switched : execSwitch host ready inst = .unknown ready := by
      simp only [execSwitch, same, execLoadFp, if_pos unselected]
    exact unknown_exit host ready word inst switched (by simp only [Rejects, kind])
  | storeFp =>
    rw [kind] at same
    simp only [selects, kind, decide_eq_true_eq, ← extracted.funct3] at unselected
    have switched : execSwitch host ready inst = .unknown ready := by
      simp only [execSwitch, same, execStoreFp, if_pos unselected]
    exact unknown_exit host ready word inst switched (by simp only [Rejects, kind])
  | branch =>
    rw [kind] at same
    simp only [selects, kind, ← extracted.funct3, Option.not_isSome_iff_eq_none] at unselected
    have switched : execSwitch host ready inst = .unknown ready := by
      simp only [execSwitch, same, execBranch, branch_undefined _ _ _ unselected]
    exact unknown_exit host ready word inst switched (by simp only [Rejects, kind])
  | fp =>
    rw [kind] at same
    simp only [selects, kind, ← extracted.funct3, ← extracted.funct7,
      ← extracted.rs2] at unselected
    have switched : execSwitch host ready inst = .unknown ready := by
      simp only [execSwitch, same, execFp, fpu_unsupported host inst _ _ unselected]
    exact unknown_exit host ready word inst switched (by simp only [Rejects, kind])
  | system =>
    obtain ⟨framed, illegal⟩ := system_exit host ready word inst extracted kind unselected
    simp only [Rejects, kind]
    exact ⟨framed, iff_true_intro illegal⟩
  | fence => exact absurd kind known
  | lui =>
    simp only [selects, kind, not_true_eq_false] at unselected
  | auipc =>
    simp only [selects, kind, not_true_eq_false] at unselected
  | jal =>
    simp only [selects, kind, not_true_eq_false] at unselected
  | other bits => exact absurd kind (handled bits)

end Opcodes

/-! ## The step -/

/-- The handler of the state before the step is the handler after its fetch. -/
theorem ready_handles (emu : Emulator) (mem : Memory) (handles : Handles emu) :
    Handles (ticked emu mem) := by
  simp only [Handles, ticked, timerTick_eq]
  exact handles

/-- A fetched word is refused by `decode`, or its fields are executed. -/
theorem fetched_step (host : HostFloat) (emu ready : Emulator) (word : Word)
    (quiet : (trapCheckInterrupt emu emu.rf.pc).1 = false) (even : emu.rf.pc &&& 1 = 0)
    (fetched : emuFetch (timerTick emu) emu.rf.pc = (.ok (word, false), ready)) :
    (getFmt (opcodeOf word) = none ∧
        emuStep host emu = countCycle (raiseOrStop ready excIllegalInst word emu.rf.pc)) ∨
      ∃ inst, getFmt (opcodeOf word) ≠ none ∧ Extracted word 4 inst ∧
        emuStep host emu = countCycle (execute host ready inst) := by
  have halves : emuStep host emu =
      countCycle (backEnd host emu.rf.pc (HalfwordFetch.frontOf (.ok (word, false), ready))) := by
    rw [emuStep_halves, HalfwordFetch.frontEnd_fetch emu quiet even, fetched]
  cases known : getFmt (opcodeOf word) with
  | none =>
    have refused : decode word = none := by
      rw [decode, known]
    refine Or.inl ⟨rfl, ?_⟩
    rw [halves]
    simp only [HalfwordFetch.frontOf, refused]
    rfl
  | some fmt =>
    obtain ⟨inst, decoded, extracted⟩ := decode_extracts word fmt known false
    refine Or.inr ⟨withLength inst false, Option.some_ne_none fmt, extracted, ?_⟩
    rw [halves]
    simp only [HalfwordFetch.frontOf, decoded]
    rfl

/-- A fetched word whose fields select no operation raises illegal instruction, and
    nothing else, exactly when it is rejected without an effect of its operand. -/
theorem illegal_iff (host : HostFloat) (emu ready : Emulator) (word : Word)
    (quiet : (trapCheckInterrupt emu emu.rf.pc).1 = false) (even : emu.rf.pc &&& 1 = 0)
    (fetched : emuFetch (timerTick emu) emu.rf.pc = (.ok (word, false), ready))
    (handles : Handles emu) (handled : Handled word) (unselected : ¬ selects word) :
    RaisesIllegal host emu ready word ↔ Rejects ready word := by
  obtain ⟨state, -⟩ := fetch_marks emu ready _ fetched
  have installed : Handles ready := by
    rw [state]
    exact ready_handles emu ready.mem handles
  rcases fetched_step host emu ready word quiet even fetched with
    ⟨unknown, step⟩ | ⟨inst, known, extracted, step⟩
  · have fence : opcodeOf word = .fence := by
      cases kind : opcodeOf word with
      | fence => rfl
      | other bits => exact absurd kind (handled bits)
      | _ =>
        rw [kind] at unknown
        cases unknown
    have raised := raised_iff host emu ready ready.mem word emu.rf.pc installed step
    simp only [Rejects, fence]
    exact iff_true_intro (raised.mpr rfl)
  · have noFence : opcodeOf word ≠ .fence := by
      intro fence
      exact known (by rw [fence]; rfl)
    obtain ⟨framed, exits⟩ :=
      unselected_exit host ready word inst extracted handled noFence unselected
    have raises := raises_iff host emu ready inst step installed framed
    have raw : inst.raw = word := extracted.raw
    rw [raw] at raises
    exact raises.trans exits

/-! ## An undefined atomic -/

/-- A machine with a handler, at an atomic whose `funct5` is undefined, with its address
    in `x1`. -/
def undefinedAtomic (address : Word) : Emulator :=
  let emu := loadImage (emuInit (fun _ => 0)) (programImage 0x1000 [0x2800A02F])
  { emu with
    rf := { emu.rf with regs := fun r => if r = 1 then address else 0 }
    csr := { csrInit with mtvec := 0x100 } }

theorem handled_amo (word : Word) (kind : opcodeOf word = .amo) : Handled word := by
  intro bits same
  rw [kind] at same
  cases same

/-- At an aligned address it is illegal. -/
theorem undefinedAtomic_illegal :
    RaisesIllegal idleHost (undefinedAtomic 0) (timerTick (undefinedAtomic 0)) 0x2800A02F := by
  apply (illegal_iff idleHost (undefinedAtomic 0) (timerTick (undefinedAtomic 0)) 0x2800A02F
    (by decide) (by decide) rfl (by decide) (handled_amo _ (by decide)) (by decide)).mpr
  exact Or.inr ⟨by decide, by decide, 0, Or.inl ⟨by decide, rfl⟩, by decide⟩

/-- At a misaligned one its operand raises first. -/
theorem undefinedAtomic_misaligned :
    (emuStep idleHost (undefinedAtomic 2)).1 = .trapped 6 2 ∧
      ¬ ∀ host emu ready word, (trapCheckInterrupt emu emu.rf.pc).1 = false →
        emu.rf.pc &&& 1 = 0 →
        emuFetch (timerTick emu) emu.rf.pc = (.ok (word, false), ready) →
        emu.state = .running → Handles emu → Handled word → ¬ selects word →
        RaisesIllegal host emu ready word := by
  have event : (emuStep idleHost (undefinedAtomic 2)).1 = .trapped 6 2 := by
    decide +kernel
  refine ⟨event, fun always => ?_⟩
  have illegal := always idleHost (undefinedAtomic 2) (timerTick (undefinedAtomic 2)) 0x2800A02F
    (by decide) (by decide) rfl rfl (by decide) (handled_amo _ (by decide)) (by decide)
  have differs := event.symm.trans illegal.trapped
  revert differs
  decide

end RvEmu.Unimplemented
