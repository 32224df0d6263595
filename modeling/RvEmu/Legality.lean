import RvEmu.Unimplemented

/-!
# What the executor accepts

The tests in the cases of `execute` accept the instruction set and more: some
fields of the arithmetic opcodes, of the indirect jump, of `LR.W` and of
floating-point rounding are never looked at. Under the accepted fields the switch
is not left for the unknown label. Under the others it is, unless the operand
faults before the fields are tested.
-/

namespace RvEmu.Legality

open LittleEndian WordMarks PageWalk PageTables ExecOutcome StepAnatomy
open InstructionSet BaseInstructions Unimplemented

/-! ## The accepted fields -/

/-- The fields that no test of `execute` rejects; `decode` refuses every fence. -/
def accepts (word : Word) : Bool :=
  let funct3 := word.extractLsb' 12 3
  let funct5 := word.extractLsb' 25 7 >>> 2
  match opcodeOf word with
  | .alu => true
  | .alui => true
  | .jalr => true
  | .amo => funct3 = 2 ∧ (funct5 = 0x02 ∨ funct5 = 0x03 ∨ amoFunct5.contains funct5)
  | .fence => false
  | _ => selects word

/-- Every operation is accepted. -/
theorem selects_accepts (word : Word) (known : opcodeOf word ≠ .fence)
    (selected : selects word = true) : accepts word = true := by
  cases kind : opcodeOf word with
  | alu => simp only [accepts, kind]
  | alui => simp only [accepts, kind]
  | jalr => simp only [accepts, kind]
  | amo =>
    simp only [selects, kind, decide_eq_true_eq] at selected
    simp only [accepts, kind, decide_eq_true_eq, List.contains_iff_mem]
    obtain ⟨funct3, ⟨lr, -⟩ | other⟩ := selected
    · exact ⟨funct3, Or.inl lr⟩
    · exact ⟨funct3, Or.inr other⟩
  | fence => exact absurd kind known
  | _ =>
    simp only [accepts, kind]
    exact selected

/-! ## Exits under accepted fields -/

/-- The exit raises illegal instruction. -/
def Illegal : Exec → Prop
  | .unknown _ => True
  | .except _ cause _ => cause = excIllegalInst
  | .raised _ cause => cause = excIllegalInst
  | _ => False

theorem writeBack_lawful (emu : Emulator) (rd : Reg) (result nextPc : Word) (effect : Effect) :
    ¬ Illegal (writeBack emu rd result nextPc effect) := id

theorem finishStore_lawful (emu : Emulator) (inst : DecodedInst) (addr pa : Word) (width : Width)
    (written : Bool × Memory) : ¬ Illegal (finishStore emu inst addr pa width written) := by
  rw [finishStore]
  split
  · exact id
  · exact (by decide : excStoreAccess ≠ excIllegalInst)

/-- Page faults are no illegal instructions. -/
theorem translateThen_lawful (emu : Emulator) (addr : Word) (acc : Access)
    (access : Emulator → Word → Exec) (lawful : ∀ after pa, ¬ Illegal (access after pa)) :
    ¬ Illegal (translateThen emu addr acc access) := by
  rw [translateThen]
  cases translated : mmuTranslate emu addr acc with
  | mk result after =>
    cases result with
    | error cause =>
      obtain ⟨-, page⟩ := mmuTranslate_error emu after addr cause acc translated
      subst page
      cases acc with
      | fetch => exact (by decide : excInstPageFault ≠ excIllegalInst)
      | load => exact (by decide : excLoadPageFault ≠ excIllegalInst)
      | store => exact (by decide : excStorePageFault ≠ excIllegalInst)
    | ok pa => exact lawful after pa

section Accepted

variable (host : HostFloat) (ready : Emulator) (word : Word) (inst : DecodedInst)

theorem load_lawful (funct3 : inst.funct3 = 0 ∨ inst.funct3 = 1 ∨ inst.funct3 = 2 ∨
    inst.funct3 = 4 ∨ inst.funct3 = 5) : ¬ Illegal (execLoad ready inst) := by
  have known : ∀ mem pa, loadValue mem inst.funct3 pa ≠ none := by
    intro mem pa
    rcases funct3 with f3 | f3 | f3 | f3 | f3 <;> rw [f3] <;> exact Option.some_ne_none _
  rw [execLoad]
  split
  · exact (by decide : excLoadMisaligned ≠ excIllegalInst)
  · apply translateThen_lawful
    intro after pa
    rw [loadAccess]
    split
    · exact id
    · split
      · rename_i unknown
        exact absurd unknown (known _ _)
      · exact (by decide : excLoadAccess ≠ excIllegalInst)
      · exact id

theorem store_lawful (funct3 : inst.funct3 = 0 ∨ inst.funct3 = 1 ∨ inst.funct3 = 2) :
    ¬ Illegal (execStore ready inst) := by
  rw [execStore]
  split
  · exact (by decide : excStoreMisaligned ≠ excIllegalInst)
  · apply translateThen_lawful
    intro after pa
    rw [storeAccess]
    split
    · exact id
    · rcases funct3 with f3 | f3 | f3
      · rw [f3]
        exact finishStore_lawful _ _ _ _ _ _
      · rw [f3]
        exact finishStore_lawful _ _ _ _ _ _
      · rw [f3]
        exact finishStore_lawful _ _ _ _ _ _

theorem loadFp_lawful (funct3 : inst.funct3 = 2) : ¬ Illegal (execLoadFp ready inst) := by
  rw [execLoadFp, if_neg (not_not.mpr funct3)]
  dsimp only
  split
  · exact (by decide : excLoadMisaligned ≠ excIllegalInst)
  · apply translateThen_lawful
    intro after pa
    rw [loadFpAccess]
    split
    · exact (by decide : excLoadAccess ≠ excIllegalInst)
    · exact id

theorem storeFp_lawful (funct3 : inst.funct3 = 2) : ¬ Illegal (execStoreFp ready inst) := by
  rw [execStoreFp, if_neg (not_not.mpr funct3)]
  dsimp only
  split
  · exact (by decide : excStoreMisaligned ≠ excIllegalInst)
  · apply translateThen_lawful
    intro after pa
    exact finishStore_lawful _ _ _ _ _ _

/-- A listed operation computes a value. -/
theorem amo_defined (f5 : BitVec 7) (old operand : Word) (listed : f5 ∈ amoFunct5) :
    amoResult f5 old operand ≠ none := by
  simp only [amoFunct5, List.mem_cons, List.not_mem_nil, or_false] at listed
  rcases listed with rfl | rfl | rfl | rfl | rfl | rfl | rfl | rfl | rfl <;>
    exact Option.some_ne_none _

theorem amo_lawful (funct3 : inst.funct3 = 2)
    (funct5 : inst.funct7 >>> 2 = 0x02 ∨ inst.funct7 >>> 2 = 0x03 ∨
      inst.funct7 >>> 2 ∈ amoFunct5) : ¬ Illegal (execAmo ready inst) := by
  rw [execAmo, if_neg (not_not.mpr funct3)]
  dsimp only
  split
  · have codes : (if inst.funct7 >>> 2 = 0x02 then excLoadMisaligned else excStoreMisaligned) ≠
        excIllegalInst := by
      split <;> decide
    exact codes
  · split
    · apply translateThen_lawful
      intro after pa
      rw [lrAccess]
      split
      · exact (by decide : excLoadAccess ≠ excIllegalInst)
      · exact id
    · rename_i notLr
      split
      · apply translateThen_lawful
        intro after pa
        rw [scAccess]
        split
        · dsimp only
          split
          · exact id
          · exact (by decide : excStoreAccess ≠ excIllegalInst)
        · exact id
      · rename_i notSc
        have listed := (funct5.resolve_left notLr).resolve_left notSc
        apply translateThen_lawful
        intro after pa
        rw [amoAccess]
        split
        · exact (by decide : excStoreAccess ≠ excIllegalInst)
        · split
          · rename_i undefined
            exact absurd undefined (amo_defined _ _ _ listed)
          · dsimp only
            split
            · exact id
            · exact (by decide : excStoreAccess ≠ excIllegalInst)

theorem branch_lawful (funct3 : (comparisonOf inst.funct3).isSome = true) :
    ¬ Illegal (execBranch ready inst) := by
  have known : ∀ a b, branchTaken inst.funct3 a b ≠ none := by
    intro a b
    generalize inst.funct3 = f3 at funct3
    simp only [comparisonOf] at funct3
    split at funct3
    case h_7 => cases funct3
    all_goals exact Option.some_ne_none _
  rw [execBranch]
  split
  · rename_i undefined
    exact absurd undefined (known _ _)
  · exact id

/-- The fields of an operation are supported, whatever the rounding mode. -/
theorem fpu_supported (rf : Regfile) (csr : Csr)
    (selected : floatSelects inst.funct7 inst.funct3 inst.rs2 = true) :
    fpuExecute host rf csr inst ≠ none := by
  have small : ∀ field : Reg, field = 0 ∨ field = 1 → ¬ field > 1 := by decide
  have smallMode : ∀ field : BitVec 3, field = 0 ∨ field = 1 → ¬ field > 1 := by decide
  have comparison : ∀ field : BitVec 3, field = 0 ∨ field = 1 ∨ field = 2 → ¬ field > 2 := by decide
  simp only [floatSelects] at selected
  simp only [fpuExecute]
  split at selected
  case h_13 => cases selected
  all_goals
    rename_i funct7
    simp only [funct7]
    simp only [decide_eq_true_eq] at selected
  case h_5 =>
    rcases selected with f3 | f3 | f3
    · rw [if_pos f3]
      exact Option.some_ne_none _
    · rw [f3]
      exact Option.some_ne_none _
    · rw [f3]
      exact Option.some_ne_none _
  case h_6 =>
    rw [if_neg (smallMode _ selected)]
    exact Option.some_ne_none _
  case h_7 =>
    rw [if_neg (not_not.mpr selected)]
    exact Option.some_ne_none _
  case h_8 =>
    rw [if_neg (comparison _ selected)]
    exact Option.some_ne_none _
  case h_9 =>
    rw [if_neg (small _ selected)]
    exact Option.some_ne_none _
  case h_10 =>
    rw [if_neg (small _ selected)]
    exact Option.some_ne_none _
  case h_11 =>
    rw [if_neg (not_not.mpr selected.1)]
    rcases selected.2 with f3 | f3
    · rw [if_pos f3]
      exact Option.some_ne_none _
    · rw [f3]
      exact Option.some_ne_none _
  case h_12 =>
    rw [if_neg (not_or.mpr ⟨not_not.mpr selected.1, not_not.mpr selected.2⟩)]
    exact Option.some_ne_none _
  all_goals exact Option.some_ne_none _

theorem fp_lawful (selected : floatSelects inst.funct7 inst.funct3 inst.rs2 = true) :
    ¬ Illegal (execFp host ready inst) := by
  rw [execFp]
  split
  · rename_i unsupported
    exact absurd unsupported (fpu_supported host inst ready.rf ready.csr selected)
  · exact id

/-- Six values of `funct3` are CSR instructions. -/
theorem csrOperand_defined (old source : Word) (notZero : inst.funct3 ≠ 0)
    (notFour : inst.funct3 ≠ 4) : csrOperand inst old source ≠ none := by
  have cases : ∀ f3 : BitVec 3, f3 ≠ 0 → f3 ≠ 4 →
      f3 = 1 ∨ f3 = 2 ∨ f3 = 3 ∨ f3 = 5 ∨ f3 = 6 ∨ f3 = 7 := by decide
  rcases cases inst.funct3 notZero notFour with f3 | f3 | f3 | f3 | f3 | f3 <;>
    rw [csrOperand, f3] <;> exact Option.some_ne_none _

/-- A system word that is accepted is not left for the unknown label. -/
theorem system_known (raw : inst.raw = word)
    (selected : (inst.funct3 ≠ 0 ∧ inst.funct3 ≠ 4) ∨
      word ∈ [rawMret, rawSret, rawEcall, rawEbreak] ∨ word &&& 0xFE007FFF = 0x12000073)
    (after : Emulator) : execSystem ready inst ≠ .unknown after := by
  have ecall : execEcall ready inst ≠ .unknown after := by
    rw [execEcall]
    split
    · exact Exec.noConfusion
    · split <;> exact Exec.noConfusion
  have ebreak : execEbreak ready inst ≠ .unknown after := by
    rw [execEbreak]
    split <;> exact Exec.noConfusion
  have csr : (inst.funct3 ≠ 0 ∧ inst.funct3 ≠ 4) → execCsr ready inst ≠ .unknown after := by
    intro funct3
    rw [execCsr]
    dsimp only
    split
    · exact Exec.noConfusion
    · split
      · exact Exec.noConfusion
      · split
        · exact Exec.noConfusion
        · split
          · rename_i undefined
            exact absurd undefined (csrOperand_defined inst _ _ funct3.1 funct3.2)
          · split <;> exact Exec.noConfusion
  rw [execSystem, raw]
  split
  · split <;> exact Exec.noConfusion
  · rename_i mret
    split
    · split <;> exact Exec.noConfusion
    · rename_i sret
      split
      · split <;> exact Exec.noConfusion
      · rename_i fence
        split
        · exact ecall
        · rename_i notEcall
          split
          · exact ebreak
          · rename_i notEbreak
            apply csr
            rcases selected with funct3 | listed | fenced
            · exact funct3
            · simp only [List.mem_cons, List.not_mem_nil, or_false] at listed
              rcases listed with same | same | same | same
              · exact absurd same mret
              · exact absurd same sret
              · exact absurd same notEcall
              · exact absurd same notEbreak
            · exact absurd fenced fence

/-- A word with accepted fields is never illegal, but for the privilege or the number of
    a system instruction. -/
theorem accepted_lawful (extracted : Extracted word 4 inst) (accepted : accepts word = true)
    (kind : opcodeOf word ≠ .system) : ¬ Illegal (execSwitch host ready inst) := by
  have same := extracted.opcode
  cases opcode : opcodeOf word with
  | load =>
    simp only [accepts, selects, opcode, decide_eq_true_eq, ← extracted.funct3] at accepted
    simp only [execSwitch, same.trans opcode]
    exact load_lawful ready inst accepted
  | store =>
    simp only [accepts, selects, opcode, decide_eq_true_eq, ← extracted.funct3] at accepted
    simp only [execSwitch, same.trans opcode]
    exact store_lawful ready inst accepted
  | loadFp =>
    simp only [accepts, selects, opcode, decide_eq_true_eq, ← extracted.funct3] at accepted
    simp only [execSwitch, same.trans opcode]
    exact loadFp_lawful ready inst accepted
  | storeFp =>
    simp only [accepts, selects, opcode, decide_eq_true_eq, ← extracted.funct3] at accepted
    simp only [execSwitch, same.trans opcode]
    exact storeFp_lawful ready inst accepted
  | amo =>
    simp only [accepts, opcode, decide_eq_true_eq, List.contains_iff_mem, ← extracted.funct3,
      ← extracted.funct7] at accepted
    simp only [execSwitch, same.trans opcode]
    exact amo_lawful ready inst accepted.1 accepted.2
  | branch =>
    simp only [accepts, selects, opcode, ← extracted.funct3] at accepted
    simp only [execSwitch, same.trans opcode]
    exact branch_lawful ready inst accepted
  | fp =>
    simp only [accepts, selects, opcode, ← extracted.funct3, ← extracted.funct7,
      ← extracted.rs2] at accepted
    simp only [execSwitch, same.trans opcode]
    exact fp_lawful host ready inst accepted
  | system => exact absurd opcode kind
  | fence => simp only [accepts, opcode, Bool.false_eq_true] at accepted
  | other bits => simp only [accepts, selects, opcode, Bool.false_eq_true] at accepted
  | _ =>
    simp only [execSwitch, same.trans opcode]
    exact writeBack_lawful _ _ _ _ _

/-- A word with accepted fields is never left for the unknown label. -/
theorem accepted_known (extracted : Extracted word 4 inst) (accepted : accepts word = true)
    (after : Emulator) : execSwitch host ready inst ≠ .unknown after := by
  by_cases kind : opcodeOf word = .system
  · simp only [accepts, selects, kind, decide_eq_true_eq, ← extracted.funct3] at accepted
    simp only [execSwitch, extracted.opcode.trans kind]
    exact system_known ready word inst extracted.raw accepted after
  · intro unknown
    apply accepted_lawful host ready word inst extracted accepted kind
    rw [unknown]
    exact trivial

end Accepted

/-! ## Exits under the other fields -/

/-- The switch is left for the unknown label, or an exception is raised first. -/
def Refuses : Exec → Prop
  | .unknown _ => True
  | .except _ _ _ => True
  | _ => False

/-- The tests that loads, stores and atomics make of their operand before the last test of
    their fields. -/
def OperandPasses (ready : Emulator) (word : Word) : Prop :=
  let rs1 := ready.rf.regs (word.extractLsb' 15 5)
  match opcodeOf word with
  | .load => ∃ pa, Resolves ready (rs1 + immediateI word) .load pa
  | .store => ∃ pa, Resolves ready (rs1 + immediateS word) .store pa
  | .amo =>
    word.extractLsb' 12 3 ≠ 2 ∨
      (rs1.toNat % 4 = 0 ∧ ∃ pa, Resolves ready rs1 .store pa ∧ (memoryRead32 ready.mem pa).isSome)
  | _ => True

/-- A translation succeeds where the tables resolve its address. -/
theorem translate_resolves (emu : Emulator) (va pa : Word) (acc : Access) :
    (mmuTranslate emu va acc).1 = .ok pa ↔ Resolves emu va acc pa := by
  constructor
  · intro translated
    rcases mmuTranslate_ok emu _ va pa acc (Prod.ext translated rfl) with
      ⟨bare, same, -⟩ | ⟨leaf, paged, found, allowed, target, -⟩
    · exact Or.inl ⟨bare, same⟩
    · exact Or.inr ⟨leaf, paged, found, allowed, target⟩
  · exact resolves_translates emu emu.mem (fun _ => False) (marked_refl adMask _ emu.mem.data) va pa
      acc

/-- What a word does that the switch does not accept. -/
structure RefusedExit (ready : Emulator) (word : Word) (exit : Exec) : Prop where
  framed : Framed ready exit
  refuses : Refuses exit
  illegal : Illegal exit ↔ OperandPasses ready word

/-- A translated access that is refused: it is illegal where the translation succeeds and
    the access then is. -/
theorem translateThen_refused (ready : Emulator) (word va : Word) (acc : Access)
    (access : Emulator → Word → Exec) (passes : Word → Prop)
    (framed : ∀ mem pa, Framed ready (access (withMem ready mem) pa))
    (refuses : ∀ after pa, Refuses (access after pa))
    (illegal : ∀ after pa, Illegal (access after pa) ↔ passes pa)
    (operand : OperandPasses ready word ↔ ∃ pa, Resolves ready va acc pa ∧ passes pa) :
    RefusedExit ready word (translateThen ready va acc access) := by
  refine ⟨translateThen_framed ready va acc access framed, ?_, ?_⟩
  · rw [translateThen]
    split
    · exact trivial
    · exact refuses _ _
  · rw [operand, translateThen]
    cases translated : mmuTranslate ready va acc with
    | mk result after =>
      have resolved : ∀ pa, Resolves ready va acc pa ↔ result = .ok pa := by
        intro pa
        rw [← translate_resolves, translated]
      cases result with
      | error cause =>
        obtain ⟨-, page⟩ := mmuTranslate_error ready after va cause acc translated
        have fault : cause ≠ excIllegalInst := by
          rw [page]
          cases acc <;> decide
        constructor
        · exact fun wrong => absurd wrong fault
        · rintro ⟨pa, resolves, -⟩
          cases (resolved pa).mp resolves
      | ok pa =>
        constructor
        · exact fun wrong => ⟨pa, (resolved pa).mpr rfl, (illegal after pa).mp wrong⟩
        · rintro ⟨other, resolves, passed⟩
          cases (resolved other).mp resolves
          exact (illegal after pa).mpr passed

section Refused

variable (host : HostFloat) (ready : Emulator) (word : Word) (inst : DecodedInst)

theorem unknown_refused (exit : Exec) (unknown : exit = .unknown ready)
    (passes : OperandPasses ready word) : RefusedExit ready word exit := by
  rw [unknown]
  exact ⟨⟨ready.mem, rfl⟩, trivial, fun _ => passes, fun _ => trivial⟩

/-- An access that is unknown once it is translated. -/
theorem access_refused (va : Word) (acc : Access)
    (switched : execSwitch host ready inst =
      translateThen ready va acc (fun after _ => .unknown after))
    (operand : OperandPasses ready word ↔ ∃ pa, Resolves ready va acc pa) :
    RefusedExit ready word (execSwitch host ready inst) := by
  rw [switched]
  apply translateThen_refused ready word va acc _ (fun _ => True)
  · exact fun mem _ => ⟨mem, rfl⟩
  · exact fun _ _ => trivial
  · exact fun _ _ => Iff.rfl
  · simp only [operand, and_true]

/-- The size of memory decides whether a word can be read. -/
theorem read_sized (before after : Memory) (pa : Word) :
    (memoryRead32 after pa).isSome = (memoryRead32 before pa).isSome := by
  rw [memoryRead32_sized before after pa, Option.isSome_map]

theorem amo_refused (extracted : Extracted word 4 inst) (kind : opcodeOf word = .amo)
    (refused : ¬ accepts word) : RefusedExit ready word (execSwitch host ready inst) := by
  have switched : execSwitch host ready inst = execAmo ready inst := by
    simp only [execSwitch, extracted.opcode.trans kind]
  simp only [accepts, kind, decide_eq_true_eq, List.contains_iff_mem, ← extracted.funct3,
    ← extracted.funct7] at refused
  have operand : OperandPasses ready word ↔ inst.funct3 ≠ 2 ∨
      ((ready.rf.regs inst.rs1).toNat % 4 = 0 ∧
        ∃ pa, Resolves ready (ready.rf.regs inst.rs1) .store pa ∧
          (memoryRead32 ready.mem pa).isSome) := by
    simp only [OperandPasses, kind, extracted.funct3, extracted.rs1]
  rw [switched]
  by_cases wide : inst.funct3 ≠ 2
  · exact unknown_refused ready word _ (if_pos wide) (operand.mpr (Or.inl wide))
  · have funct3 : inst.funct3 = 2 := not_not.mp wide
    have codes := not_and.mp refused funct3
    rw [not_or, not_or] at codes
    obtain ⟨notLr, notSc, outside⟩ := codes
    rw [execAmo_tests ready inst _ rfl funct3 notSc, if_neg notLr]
    by_cases odd : ready.rf.regs inst.rs1 &&& 3 ≠ 0
    · rw [if_pos odd]
      refine ⟨⟨ready.mem, rfl⟩, trivial, ?_, ?_⟩
      · exact fun wrong => absurd wrong (by decide : excStoreMisaligned ≠ excIllegalInst)
      · intro passes
        rcases operand.mp passes with other | ⟨aligned, -⟩
        · exact absurd other wide
        · exact absurd aligned ((low_two _).mp odd)
    · have aligned : (ready.rf.regs inst.rs1).toNat % 4 = 0 :=
        not_not.mp (mt (low_two _).mpr odd)
      rw [if_neg odd, if_neg notLr]
      apply translateThen_refused ready word _ .store _
        (fun pa => (memoryRead32 ready.mem pa).isSome = true)
      · exact amoAccess_framed ready inst _ outside
      · intro after pa
        rw [amoAccess_undefined inst _ pa after outside]
        split <;> exact trivial
      · intro after pa
        rw [amoAccess_undefined inst _ pa after outside, read_sized ready.mem after.mem pa]
        split
        · rename_i readable
          exact ⟨fun _ => readable, fun _ => trivial⟩
        · rename_i outsideRam
          exact ⟨fun wrong => absurd wrong (by decide : excStoreAccess ≠ excIllegalInst),
            fun readable => absurd readable outsideRam⟩
      · rw [operand, or_iff_right wide, and_iff_right aligned]

/-- A word that the switch does not accept is left for the unknown label, or faults
    before. -/
theorem refused_exit (extracted : Extracted word 4 inst) (known : opcodeOf word ≠ .fence)
    (refused : ¬ accepts word) : RefusedExit ready word (execSwitch host ready inst) := by
  have same := extracted.opcode
  have unselected : ¬ selects word := fun selected => refused (selects_accepts word known selected)
  cases kind : opcodeOf word with
  | load =>
    apply access_refused host ready word inst _ .load
      (load_switched host ready word inst extracted kind unselected)
    simp only [OperandPasses, kind]
  | store =>
    apply access_refused host ready word inst _ .store
      (store_switched host ready word inst extracted kind unselected)
    simp only [OperandPasses, kind]
  | amo => exact amo_refused host ready word inst extracted kind refused
  | loadFp =>
    simp only [selects, kind, decide_eq_true_eq, ← extracted.funct3] at unselected
    simp only [execSwitch, same.trans kind]
    exact unknown_refused ready word _ (if_pos unselected) (by simp only [OperandPasses, kind])
  | storeFp =>
    simp only [selects, kind, decide_eq_true_eq, ← extracted.funct3] at unselected
    simp only [execSwitch, same.trans kind]
    exact unknown_refused ready word _ (if_pos unselected) (by simp only [OperandPasses, kind])
  | branch =>
    simp only [selects, kind, ← extracted.funct3, Option.not_isSome_iff_eq_none] at unselected
    have unknown : execBranch ready inst = .unknown ready := by
      simp only [execBranch, branch_undefined _ _ _ unselected]
    simp only [execSwitch, same.trans kind]
    exact unknown_refused ready word _ unknown (by simp only [OperandPasses, kind])
  | fp =>
    simp only [selects, kind, ← extracted.funct3, ← extracted.funct7, ← extracted.rs2] at unselected
    have unknown : execFp host ready inst = .unknown ready := by
      simp only [execFp, fpu_unsupported host inst _ _ unselected]
    simp only [execSwitch, same.trans kind]
    exact unknown_refused ready word _ unknown (by simp only [OperandPasses, kind])
  | system =>
    obtain ⟨framed, illegal⟩ := system_exit host ready word inst extracted kind unselected
    generalize execSwitch host ready inst = exit at framed illegal ⊢
    have passes : OperandPasses ready word := by simp only [OperandPasses, kind]
    cases exit with
    | unknown after => exact ⟨framed, trivial, fun _ => passes, fun _ => trivial⟩
    | except after cause addr => exact ⟨framed, trivial, fun _ => passes, fun _ => illegal.1⟩
    | _ => exact illegal.elim
  | other bits =>
    simp only [execSwitch, same.trans kind]
    exact unknown_refused ready word _ rfl (by simp only [OperandPasses, kind])
  | fence => exact absurd kind known
  | alu => exact absurd (by simp only [accepts, kind]) refused
  | alui => exact absurd (by simp only [accepts, kind]) refused
  | jalr => exact absurd (by simp only [accepts, kind]) refused
  | _ => exact absurd (by simp only [selects, kind]) unselected

end Refused

end RvEmu.Legality
