import Mathlib.Tactic.Tauto
import RvEmu.Disasm
import RvEmu.Legality

/-!
# The disassembler and the executor

Two case analyses over the fields of a word decide whether it is an instruction:
`decode_disasm` prints a text or the raw word, and `execute` goes on or leaves for
the unknown label. They agree but for four kinds of words. The executor runs
`OP` and the shifts of `OP-IMM` with any `funct7`, and `sret` and `sfence.vma`, which
are printed as raw words. And three floating-point operations are printed without a
look at fields that the executor requires to be zero.
-/

namespace RvEmu.DisassemblerAgreement

open ExecOutcome InstructionSet BaseInstructions Unimplemented Legality

/-! ## Texts -/

/-- The text starts, and not with a period. -/
def named (text : String) : Bool :=
  match text.toList with
  | [] => false
  | first :: _ => first ≠ '.'

theorem named_append (mn rest : String) (start : named mn = true) : named (mn ++ rest) = true := by
  simp only [named] at start ⊢
  rw [String.toList_append]
  cases chars : mn.toList with
  | nil =>
    rw [chars] at start
    cases start
  | cons first tail =>
    rw [chars] at start
    exact start

theorem named_line (mn : String) (operands : List String) (start : named mn = true) :
    named (line mn operands) = true := by
  rw [line, String.append_assoc]
  exact named_append mn _ start

/-- A line is a named text where its mnemonic is. -/
theorem shown_line (mn : String) (operands : List String) (start : named mn = true) :
    (some (line mn operands)).all named = true :=
  named_line mn operands start

/-- A raw word starts with a period. -/
theorem wordText_unnamed (raw : Word) : named (wordText raw) = false := by
  simp only [named, wordText, String.toList_append]
  rfl

/-- Each name of a table, if there is one, starts so. -/
theorem nameAt_named (names : List (Option String)) (funct3 : BitVec 3)
    (starts : (names.all fun entry => entry.all named) = true) :
    (nameAt names funct3).all named = true := by
  simp only [nameAt]
  cases entry : names[funct3.toNat]? with
  | none => rfl
  | some value => exact List.all_eq_true.mp starts value (List.mem_of_getElem? entry)

theorem aluName_named (funct3 : BitVec 3) (funct7 : BitVec 7) :
    (aluName funct3 funct7).all named = true := by
  simp only [aluName]
  split
  · exact nameAt_named _ _ (by decide)
  · split
    · exact nameAt_named _ _ (by decide)
    · split
      · exact nameAt_named _ _ (by decide)
      · rfl

theorem aluiName_named (funct3 : BitVec 3) (funct7 : BitVec 7) :
    (aluiName funct3 funct7).all named = true := by
  simp only [aluiName]
  split
  · decide
  · split
    · rfl
    · split
      · rfl
      · exact nameAt_named _ _ (by decide)

theorem amoName_named (f5 : BitVec 7) : (amoName f5).all named = true := by
  simp only [amoName]
  split <;> decide

/-- A name that is looked up starts the text that is made of it. -/
theorem map_named (name : Option String) (text : String → String)
    (starts : name.all named = true) (kept : ∀ mn, named mn = true → named (text mn) = true) :
    (name.map text).all named = true := by
  cases name with
  | none => rfl
  | some mn => exact kept mn starts

theorem lines_named (name : Option String) (operands : List String)
    (starts : name.all named = true) : (name.map (line · operands)).all named = true :=
  map_named name _ starts (fun mn start => named_line mn operands start)

theorem disasmSystem_named (inst : DecodedInst) : (disasmSystem inst).all named = true := by
  simp only [disasmSystem]
  split
  · decide
  · split
    · decide
    · split
      · decide
      · apply map_named _ _ (nameAt_named _ _ (by decide))
        intro mn start
        split
        · exact named_line mn _ start
        · exact named_line mn _ start

theorem disasmFp_named (inst : DecodedInst) : (disasmFp inst).all named = true := by
  simp only [disasmFp, disasmThree]
  split
  all_goals
    repeat' split
  all_goals first
    | exact shown_line _ _ (by decide)
    | rfl

theorem disasmAmo_named (inst : DecodedInst) : (disasmAmo inst).all named = true := by
  have starts := amoName_named (inst.funct7 >>> 2)
  simp only [disasmAmo]
  cases name : amoName (inst.funct7 >>> 2) with
  | none => rfl
  | some n =>
    rw [name] at starts
    dsimp only
    split
    · rfl
    · split
      · exact shown_line n _ starts
      · exact shown_line n _ starts

theorem disasmText_named (inst : DecodedInst) : (disasmText inst).all named = true := by
  simp only [disasmText]
  cases inst.opcode with
  | alu => exact lines_named _ _ (aluName_named _ _)
  | alui =>
    apply map_named _ _ (aluiName_named _ _)
    intro mn start
    simp only [disasmAlui]
    split
    · exact named_line mn _ start
    · exact named_line mn _ start
  | load => exact lines_named _ _ (nameAt_named _ _ (by decide))
  | store => exact lines_named _ _ (nameAt_named _ _ (by decide))
  | branch => exact lines_named _ _ (nameAt_named _ _ (by decide))
  | loadFp =>
    dsimp only
    split
    · exact shown_line _ _ (by decide)
    · rfl
  | storeFp =>
    dsimp only
    split
    · exact shown_line _ _ (by decide)
    · rfl
  | system => exact disasmSystem_named inst
  | fp => exact disasmFp_named inst
  | amo => exact disasmAmo_named inst
  | fence => exact (by decide : named "fence" = true)
  | other bits => rfl
  | _ => exact shown_line _ _ (by decide)

/-- The raw word is printed where the switch prints nothing. -/
theorem shown_as_word (inst : DecodedInst) :
    decodeDisasm inst = wordText inst.raw ↔ disasmText inst = none := by
  rw [decodeDisasm]
  cases shown : disasmText inst with
  | none => exact ⟨fun _ => rfl, fun _ => rfl⟩
  | some text =>
    have start : named text = true := by
      have texts := disasmText_named inst
      rw [shown] at texts
      exact texts
    constructor
    · intro same
      change text = wordText inst.raw at same
      rw [same, wordText_unnamed] at start
      cases start
    · rintro ⟨⟩

/-! ## The law -/

/-- Machine mode without a handler, where the instruction makes no memory access and no CSR
    access that faults. -/
structure Unfaulted (host : HostFloat) (emu : Emulator) (inst : DecodedInst) : Prop where
  machine : emu.priv = privM
  unhandled : emu.csr.mtvec = 0 ∧ emu.csr.stvec = 0
  faultless : ∀ after cause addr, execSwitch host emu inst ≠ .except after cause addr

/-- The word is printed raw exactly when it is rejected as unknown, whatever the state. -/
def Agree (word : Word) : Prop :=
  ∀ inst, decode word = some inst → ∀ host emu, Unfaulted host emu inst →
    (decodeDisasm inst = wordText word ↔ ∃ after, execSwitch host emu inst = .unknown after)

/-- The words on which the two sides differ. -/
def disagrees (word : Word) : Bool :=
  let funct3 := word.extractLsb' 12 3
  let funct7 := word.extractLsb' 25 7
  let rs2 := word.extractLsb' 20 5
  match opcodeOf word with
  | .alu =>
    ¬ (funct7 = 0x00 ∨ funct7 = 0x01 ∨ (funct7 = 0x20 ∧ (funct3 = 0 ∨ funct3 = 5)))
  | .alui =>
    (funct3 = 1 ∧ funct7 ≠ 0x00) ∨ (funct3 = 5 ∧ funct7 ≠ 0x00 ∧ funct7 ≠ 0x20)
  | .system => word = rawSret ∨ word &&& 0xFE007FFF = 0x12000073
  | .fp =>
    (funct7 = 0x2C ∧ rs2 ≠ 0) ∨ (funct7 = 0x70 ∧ (funct3 = 0 ∨ funct3 = 1) ∧ rs2 ≠ 0) ∨
      (funct7 = 0x78 ∧ ¬ (rs2 = 0 ∧ funct3 = 0))
  | _ => false

/-! ## Fields -/

theorem aluName_shown (funct3 : BitVec 3) (funct7 : BitVec 7) :
    (aluName funct3 funct7).isSome =
      decide (funct7 = 0x00 ∨ funct7 = 0x01 ∨ (funct7 = 0x20 ∧ (funct3 = 0 ∨ funct3 = 5))) := by
  by_cases muldiv : funct7 = 0x01
  · subst muldiv
    revert funct3
    decide
  · by_cases other : funct7 = 0x20
    · subst other
      revert funct3
      decide
    · by_cases base : funct7 = 0x00
      · subst base
        revert funct3
        decide
      · simp only [aluName, muldiv, other, base, if_false, false_and, or_self, decide_false,
          Option.isSome_none]

theorem aluiName_shown (funct3 : BitVec 3) (funct7 : BitVec 7) :
    (aluiName funct3 funct7).isSome =
      !decide ((funct3 = 1 ∧ funct7 ≠ 0x00) ∨ (funct3 = 5 ∧ funct7 ≠ 0x00 ∧ funct7 ≠ 0x20)) := by
  revert funct3 funct7
  decide +kernel

theorem amoName_shown (f5 : BitVec 7) :
    (amoName f5).isSome = decide (f5 = 0x02 ∨ f5 = 0x03 ∨ amoFunct5.contains f5) := by
  revert f5
  decide

/-- A text under one test is printed just where the test holds. -/
theorem tested_shown (passes : Prop) [Decidable passes] (text : String) :
    (if passes then some text else none).isSome = (decide passes ^^ false) := by
  by_cases passed : passes
  · rw [if_pos passed, decide_eq_true passed]
    rfl
  · rw [if_neg passed, decide_eq_false passed]
    rfl

/-- The fields that are printed under `OP-FP`. -/
theorem disasmFp_shown (inst : DecodedInst) :
    (disasmFp inst).isSome =
      (floatSelects inst.funct7 inst.funct3 inst.rs2 ^^
        decide ((inst.funct7 = 0x2C ∧ inst.rs2 ≠ 0) ∨
          (inst.funct7 = 0x70 ∧ (inst.funct3 = 0 ∨ inst.funct3 = 1) ∧ inst.rs2 ≠ 0) ∨
          (inst.funct7 = 0x78 ∧ ¬ (inst.rs2 = 0 ∧ inst.funct3 = 0)))) := by
  simp only [disasmFp]
  split
  case h_12 funct7 =>
    rw [Option.isSome_some, funct7]
    generalize inst.rs2 = rs2
    generalize inst.funct3 = f3
    revert rs2 f3
    decide
  case h_13 => simp_all [floatSelects]
  all_goals
    rename_i funct7
    simp only [floatSelects, funct7]
    repeat' split
  all_goals simp_all

theorem disasmAmo_shown (inst : DecodedInst) :
    (disasmAmo inst).isSome =
      decide (inst.funct3 = 2 ∧ (inst.funct7 >>> 2 = 0x02 ∨ inst.funct7 >>> 2 = 0x03 ∨
        amoFunct5.contains (inst.funct7 >>> 2))) := by
  have listed := amoName_shown (inst.funct7 >>> 2)
  rw [Bool.decide_and, ← listed, disasmAmo]
  cases name : amoName (inst.funct7 >>> 2) with
  | none => exact (Bool.and_false _).symm
  | some n =>
    dsimp only
    rw [Option.isSome_some, Bool.and_true]
    by_cases wide : inst.funct3 = 2
    · rw [if_neg (not_not.mpr wide), decide_eq_true wide]
      split <;> rfl
    · rw [if_pos wide, decide_eq_false wide]
      rfl

/-- The fields that `sret` and `sfence.vma` have in common with no CSR instruction. -/
theorem supervisor_funct3 (word : Word)
    (supervisor : word = rawSret ∨ word &&& 0xFE007FFF = 0x12000073) :
    word.extractLsb' 12 3 = 0 ∧ word ∉ [rawMret, rawEcall, rawEbreak] := by
  rcases supervisor with rfl | fenced
  · decide
  · constructor
    · have masked : word.extractLsb' 12 3 =
          (word &&& (0xFE007FFF : Word)).extractLsb' 12 3 := by
        rw [BitVec.extractLsb'_and]
        exact (BitVec.and_allOnes).symm
      rw [masked, fenced]
      decide
    · intro member
      simp only [List.mem_cons, List.not_mem_nil, or_false] at member
      rcases member with rfl | rfl | rfl
      · revert fenced
        decide
      · revert fenced
        decide
      · revert fenced
        decide

theorem disasmSystem_shown (word : Word) (inst : DecodedInst) (raw : inst.raw = word)
    (funct3 : inst.funct3 = word.extractLsb' 12 3) :
    (disasmSystem inst).isSome =
      (decide ((inst.funct3 ≠ 0 ∧ inst.funct3 ≠ 4) ∨
          word ∈ [rawMret, rawSret, rawEcall, rawEbreak] ∨ word &&& 0xFE007FFF = 0x12000073) ^^
        decide (word = rawSret ∨ word &&& 0xFE007FFF = 0x12000073)) := by
  have names : ∀ f3, (csrName f3).isSome = decide (f3 ≠ 0 ∧ f3 ≠ 4) := by decide
  by_cases plain : word ∈ [rawMret, rawEcall, rawEbreak]
  · have other : ¬ (word = rawSret ∨ word &&& 0xFE007FFF = 0x12000073) :=
      fun supervisor => (supervisor_funct3 word supervisor).2 plain
    have accepted : (inst.funct3 ≠ 0 ∧ inst.funct3 ≠ 4) ∨
        word ∈ [rawMret, rawSret, rawEcall, rawEbreak] ∨ word &&& 0xFE007FFF = 0x12000073 := by
      right
      left
      simp only [List.mem_cons, List.not_mem_nil, or_false] at plain ⊢
      tauto
    rw [decide_eq_true accepted, decide_eq_false other]
    simp only [List.mem_cons, List.not_mem_nil, or_false] at plain
    simp only [disasmSystem, raw]
    rcases plain with rfl | rfl | rfl
    · rfl
    · rfl
    · rfl
  · simp only [List.mem_cons, List.not_mem_nil, or_false, not_or] at plain
    obtain ⟨mret, ecall, ebreak⟩ := plain
    have looked : (disasmSystem inst).isSome = decide (inst.funct3 ≠ 0 ∧ inst.funct3 ≠ 4) := by
      simp only [disasmSystem, raw]
      rw [if_neg (by exact ecall), if_neg (by exact ebreak), if_neg (by exact mret),
        Option.isSome_map, names]
    rw [looked]
    by_cases supervisor : word = rawSret ∨ word &&& 0xFE007FFF = 0x12000073
    · have zero : inst.funct3 = 0 := funct3.trans (supervisor_funct3 word supervisor).1
      have accepted : (inst.funct3 ≠ 0 ∧ inst.funct3 ≠ 4) ∨
          word ∈ [rawMret, rawSret, rawEcall, rawEbreak] ∨
            word &&& 0xFE007FFF = 0x12000073 := by
        right
        rcases supervisor with sret | fenced
        · exact Or.inl (by rw [sret]; decide)
        · exact Or.inr fenced
      rw [decide_eq_true accepted, decide_eq_true supervisor, zero]
      rfl
    · obtain ⟨sret, fenced⟩ := not_or.mp supervisor
      have unlisted : ¬ (word ∈ [rawMret, rawSret, rawEcall, rawEbreak] ∨
          word &&& 0xFE007FFF = 0x12000073) := by
        simp only [List.mem_cons, List.not_mem_nil, or_false]
        tauto
      rw [decide_eq_false supervisor, Bool.xor_false]
      simp only [or_iff_left unlisted]

/-- The switch prints a text where the fields are accepted, but for the words on which the
    two differ. -/
theorem shown_accepted (word : Word) (inst : DecodedInst) (extracted : Extracted word 4 inst)
    (known : getFmt (opcodeOf word) ≠ none) :
    (disasmText inst).isSome = (accepts word ^^ disagrees word) := by
  have same := extracted.opcode
  simp only [accepts, selects, disagrees, ← extracted.funct3, ← extracted.funct7, ← extracted.rs2]
  simp only [disasmText]
  cases kind : opcodeOf word with
  | alu =>
    rw [same.trans kind, Option.isSome_map, aluName_shown]
    simp
  | alui =>
    rw [same.trans kind, Option.isSome_map, aluiName_shown]
    simp
  | load =>
    have names : ∀ f3, (loadName f3).isSome =
        decide (f3 = 0 ∨ f3 = 1 ∨ f3 = 2 ∨ f3 = 4 ∨ f3 = 5) := by decide
    rw [same.trans kind, Option.isSome_map, names]
    exact (Bool.xor_false _).symm
  | store =>
    have names : ∀ f3, (storeName f3).isSome = decide (f3 = 0 ∨ f3 = 1 ∨ f3 = 2) := by decide
    rw [same.trans kind, Option.isSome_map, names]
    exact (Bool.xor_false _).symm
  | branch =>
    have names : ∀ f3, (branchName f3).isSome = (comparisonOf f3).isSome := by decide
    rw [same.trans kind, Option.isSome_map, names]
    exact (Bool.xor_false _).symm
  | loadFp =>
    rw [same.trans kind]
    exact tested_shown _ _
  | storeFp =>
    rw [same.trans kind]
    exact tested_shown _ _
  | fp =>
    rw [same.trans kind, disasmFp_shown]
  | amo =>
    rw [same.trans kind, disasmAmo_shown]
    exact (Bool.xor_false _).symm
  | system =>
    rw [same.trans kind, disasmSystem_shown word inst extracted.raw extracted.funct3]
  | fence =>
    rw [kind] at known
    exact absurd rfl known
  | other bits =>
    rw [kind] at known
    exact absurd rfl known
  | _ =>
    rw [same.trans kind]
    rfl

/-! ## Agreement -/

/-- The decoded instruction has the fields of the word. -/
theorem decoded_extracted (word : Word) (inst : DecodedInst) (decoded : decode word = some inst) :
    getFmt (opcodeOf word) ≠ none ∧ Extracted word 4 inst := by
  cases known : getFmt (opcodeOf word) with
  | none =>
    rw [decode, known] at decoded
    cases decoded
  | some fmt =>
    obtain ⟨other, also, extracted⟩ := decode_extracts word fmt known false
    cases decoded.symm.trans also
    exact ⟨Option.some_ne_none fmt, extracted⟩

/-- What is printed raw, read off the fields. -/
theorem printed_raw (word : Word) (inst : DecodedInst) (decoded : decode word = some inst) :
    decodeDisasm inst = wordText word ↔ (accepts word ^^ disagrees word) = false := by
  obtain ⟨known, extracted⟩ := decoded_extracted word inst decoded
  have text := shown_as_word inst
  rw [extracted.raw] at text
  rw [text, ← shown_accepted word inst extracted known, Option.isSome_eq_false_iff,
    Option.isNone_iff_eq_none]

/-- What is left for the unknown label where nothing faults. -/
theorem left_unknown (word : Word) (inst : DecodedInst) (decoded : decode word = some inst)
    (host : HostFloat) (emu : Emulator) (calm : Unfaulted host emu inst) :
    (∃ after, execSwitch host emu inst = .unknown after) ↔ accepts word = false := by
  obtain ⟨known, extracted⟩ := decoded_extracted word inst decoded
  have noFence : opcodeOf word ≠ .fence := by
    intro fence
    exact known (by rw [fence]; rfl)
  constructor
  · rintro ⟨after, unknown⟩
    rw [← Bool.not_eq_true]
    exact fun accepted => accepted_known host emu word inst extracted accepted after unknown
  · intro refused
    have exits := refused_exit host emu word inst extracted noFence (by rw [refused]; decide)
    have refuses := exits.refuses
    cases exit : execSwitch host emu inst with
    | unknown after => exact ⟨after, rfl⟩
    | except after cause addr => exact absurd exit (calm.faultless after cause addr)
    | _ =>
      rw [exit] at refuses
      exact refuses.elim

/-- None of the words on which the two sides differ can fault. -/
theorem disagreeing_faultless (word : Word) (inst : DecodedInst)
    (extracted : Extracted word 4 inst) (differs : disagrees word = true) (host : HostFloat)
    (emu : Emulator) (machine : emu.priv = privM) (after : Emulator) (cause addr : Word) :
    execSwitch host emu inst ≠ .except after cause addr := by
  have same := extracted.opcode
  cases kind : opcodeOf word with
  | alu =>
    simp only [execSwitch, same.trans kind]
    exact Exec.noConfusion
  | alui =>
    simp only [execSwitch, same.trans kind]
    exact Exec.noConfusion
  | fp =>
    simp only [execSwitch, same.trans kind, execFp]
    split <;> exact Exec.noConfusion
  | system =>
    simp only [disagrees, kind, decide_eq_true_eq] at differs
    have unlisted := (supervisor_funct3 word differs).2
    simp only [List.mem_cons, List.not_mem_nil, or_false, not_or] at unlisted
    have allowed : ¬ emu.priv < privS := by
      rw [machine]
      decide
    simp only [execSwitch, same.trans kind, execSystem, extracted.raw]
    rw [if_neg unlisted.1, if_neg allowed, if_neg allowed]
    rcases differs with sret | fenced
    · rw [if_pos sret]
      exact Exec.noConfusion
    · rw [if_pos fenced]
      split <;> exact Exec.noConfusion
  | _ => simp only [disagrees, kind, Bool.false_eq_true] at differs

/-- The two sides agree on every word but the listed ones, and on none of those. -/
theorem agree_iff (word : Word) : Agree word ↔ disagrees word = false := by
  constructor
  · intro agree
    by_contra differs
    rw [Bool.not_eq_false] at differs
    obtain ⟨fmt, known⟩ : ∃ fmt, getFmt (opcodeOf word) = some fmt := by
      cases kind : opcodeOf word with
      | fence => simp only [disagrees, kind, Bool.false_eq_true] at differs
      | other bits => simp only [disagrees, kind, Bool.false_eq_true] at differs
      | _ => exact ⟨_, rfl⟩
    obtain ⟨inst, decoded, extracted⟩ := decode_extracts word fmt known false
    let emu := emuInit (fun _ => 0)
    have calm : Unfaulted idleHost emu inst := by
      refine ⟨rfl, ⟨rfl, rfl⟩, ?_⟩
      exact disagreeing_faultless word inst extracted differs idleHost emu rfl
    have both := agree inst decoded idleHost emu calm
    rw [printed_raw word inst decoded, left_unknown word inst decoded idleHost emu calm,
      differs] at both
    revert both
    cases accepts word <;> decide
  · intro agrees inst decoded host emu calm
    rw [printed_raw word inst decoded, left_unknown word inst decoded host emu calm, agrees,
      Bool.xor_false]

/-- `sret` runs in machine mode and is printed as data. -/
theorem sret_printed_raw :
    (∃ inst, decode rawSret = some inst ∧ decodeDisasm inst = ".word 0x10200073" ∧
        (execute idleHost (emuInit (fun _ => 0)) inst).1 = .retired .quiet) ∧
      ¬ ∀ word, Agree word := by
  have shown : ∃ inst, decode rawSret = some inst ∧ decodeDisasm inst = ".word 0x10200073" ∧
      (execute idleHost (emuInit (fun _ => 0)) inst).1 = .retired .quiet :=
    ⟨_, rfl, by decide, by decide⟩
  refine ⟨shown, ?_⟩
  intro always
  obtain ⟨inst, decoded, text, -⟩ := shown
  obtain ⟨-, extracted⟩ := decoded_extracted rawSret inst decoded
  have calm : Unfaulted idleHost (emuInit (fun _ => 0)) inst := by
    refine ⟨rfl, ⟨rfl, rfl⟩, ?_⟩
    exact disagreeing_faultless rawSret inst extracted (by decide) idleHost _ rfl
  have unknown := (always rawSret inst decoded idleHost _ calm).mp text
  have accepted := (left_unknown rawSret inst decoded idleHost _ calm).mp unknown
  revert accepted
  decide

end RvEmu.DisassemblerAgreement
