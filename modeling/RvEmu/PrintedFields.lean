import Mathlib.Data.List.Basic
import RvEmu.DisassemblerText

/-!
# What a listing leaves out

Each mnemonic belongs to one form: the fields by which it was looked up, and the operands
that follow it. So two words that are printed alike have the same form and agree in its
operands, and the bits in which they can still differ are a few fields, which the law here
lists. Without the operations of `OP-FP`, whose rounding mode is one of these, instructions
that are printed alike also run alike.
-/

namespace RvEmu.PrintedFields

open DisassemblerText DisassemblerAgreement BaseInstructions InstructionSet EncodingInverse
  Unimplemented Legality

/-! ## Forms -/

/-- What a mnemonic tells: the opcode, and the fields by which it was looked up. -/
inductive Form where
  | alu (funct3 : BitVec 3) (funct7 : BitVec 7)
  | immediate (funct3 : BitVec 3)
  | shift (funct3 : BitVec 3) (funct7 : BitVec 7)
  | load (funct3 : BitVec 3)
  | store (funct3 : BitVec 3)
  | branch (funct3 : BitVec 3)
  | jal
  | jalr
  | lui
  | auipc
  | whole (raw : Word)
  | csr (funct3 : BitVec 3)
  | csrImm (funct3 : BitVec 3)
  | flw
  | fsw
  | rounded (funct7 : BitVec 7)
  | sqrt
  | exact (funct7 : BitVec 7) (funct3 : BitVec 3)
  | compare (funct3 : BitVec 3)
  | toInteger (rs2 : Reg)
  | fromInteger (rs2 : Reg)
  | toWord (funct3 : BitVec 3)
  | fromWord
  | reserved
  | atomic (funct5 : BitVec 7)
deriving DecidableEq

/-- The operands that follow the mnemonic. -/
def Form.operands : Form → List Operand
  | .alu _ _ => [.rd, .rs1, .rs2]
  | .immediate _ => [.rd, .rs1, .imm]
  | .shift _ _ => [.rd, .rs1, .amount]
  | .load _ => [.rd, .based]
  | .store _ => [.rs2, .based]
  | .branch _ => [.rs1, .rs2, .offset]
  | .jal => [.rd, .offset]
  | .jalr => [.rd, .based]
  | .lui => [.rd, .upper]
  | .auipc => [.rd, .upper]
  | .whole _ => []
  | .csr _ => [.rd, .csr, .rs1]
  | .csrImm _ => [.rd, .csr, .zimm]
  | .flw => [.frd, .based]
  | .fsw => [.frs2, .based]
  | .rounded _ => [.frd, .frs1, .frs2]
  | .sqrt => [.frd, .frs1]
  | .exact _ _ => [.frd, .frs1, .frs2]
  | .compare _ => [.rd, .frs1, .frs2]
  | .toInteger _ => [.rd, .frs1]
  | .fromInteger _ => [.frd, .rs1]
  | .toWord _ => [.rd, .frs1]
  | .fromWord => [.frd, .rs1]
  | .reserved => [.rd, .indirect]
  | .atomic _ => [.rd, .rs2, .indirect]

/-- The instruction has the opcode and the fields of a form. -/
def Form.Matches (inst : DecodedInst) : Form → Prop
  | .alu funct3 funct7 => inst.opcode = .alu ∧ inst.funct3 = funct3 ∧ inst.funct7 = funct7
  | .immediate funct3 => inst.opcode = .alui ∧ inst.funct3 = funct3
  | .shift funct3 funct7 => inst.opcode = .alui ∧ inst.funct3 = funct3 ∧ inst.funct7 = funct7
  | .load funct3 => inst.opcode = .load ∧ inst.funct3 = funct3
  | .store funct3 => inst.opcode = .store ∧ inst.funct3 = funct3
  | .branch funct3 => inst.opcode = .branch ∧ inst.funct3 = funct3
  | .jal => inst.opcode = .jal
  | .jalr => inst.opcode = .jalr
  | .lui => inst.opcode = .lui
  | .auipc => inst.opcode = .auipc
  | .whole raw => inst.opcode = .system ∧ inst.raw = raw
  | .csr funct3 => inst.opcode = .system ∧ inst.funct3 = funct3
  | .csrImm funct3 => inst.opcode = .system ∧ inst.funct3 = funct3
  | .flw => inst.opcode = .loadFp ∧ inst.funct3 = 2
  | .fsw => inst.opcode = .storeFp ∧ inst.funct3 = 2
  | .rounded funct7 => inst.opcode = .fp ∧ inst.funct7 = funct7
  | .sqrt => inst.opcode = .fp ∧ inst.funct7 = 0x2C
  | .exact funct7 funct3 => inst.opcode = .fp ∧ inst.funct7 = funct7 ∧ inst.funct3 = funct3
  | .compare funct3 => inst.opcode = .fp ∧ inst.funct7 = 0x50 ∧ inst.funct3 = funct3
  | .toInteger rs2 => inst.opcode = .fp ∧ inst.funct7 = 0x60 ∧ inst.rs2 = rs2
  | .fromInteger rs2 => inst.opcode = .fp ∧ inst.funct7 = 0x68 ∧ inst.rs2 = rs2
  | .toWord funct3 => inst.opcode = .fp ∧ inst.funct7 = 0x70 ∧ inst.funct3 = funct3
  | .fromWord => inst.opcode = .fp ∧ inst.funct7 = 0x78
  | .reserved => inst.opcode = .amo ∧ inst.funct3 = 2 ∧ inst.funct7 >>> 2 = 0x02
  | .atomic funct5 => inst.opcode = .amo ∧ inst.funct3 = 2 ∧ inst.funct7 >>> 2 = funct5

/-- The mnemonics and their forms. -/
def forms : List (String × Form) :=
  [("add", .alu 0 0x00), ("sub", .alu 0 0x20), ("sll", .alu 1 0x00), ("slt", .alu 2 0x00),
    ("sltu", .alu 3 0x00), ("xor", .alu 4 0x00), ("srl", .alu 5 0x00), ("sra", .alu 5 0x20),
    ("or", .alu 6 0x00), ("and", .alu 7 0x00),
    ("mul", .alu 0 0x01), ("mulh", .alu 1 0x01), ("mulhsu", .alu 2 0x01), ("mulhu", .alu 3 0x01),
    ("div", .alu 4 0x01), ("divu", .alu 5 0x01), ("rem", .alu 6 0x01), ("remu", .alu 7 0x01),
    ("addi", .immediate 0), ("slti", .immediate 2), ("sltiu", .immediate 3),
    ("xori", .immediate 4), ("ori", .immediate 6), ("andi", .immediate 7),
    ("slli", .shift 1 0x00), ("srli", .shift 5 0x00), ("srai", .shift 5 0x20),
    ("lb", .load 0), ("lh", .load 1), ("lw", .load 2), ("lbu", .load 4), ("lhu", .load 5),
    ("sb", .store 0), ("sh", .store 1), ("sw", .store 2),
    ("beq", .branch 0), ("bne", .branch 1), ("blt", .branch 4), ("bge", .branch 5),
    ("bltu", .branch 6), ("bgeu", .branch 7),
    ("jal", .jal), ("jalr", .jalr), ("lui", .lui), ("auipc", .auipc),
    ("ecall", .whole 0x00000073), ("ebreak", .whole 0x00100073), ("mret", .whole 0x30200073),
    ("csrrw", .csr 1), ("csrrs", .csr 2), ("csrrc", .csr 3),
    ("csrrwi", .csrImm 5), ("csrrsi", .csrImm 6), ("csrrci", .csrImm 7),
    ("flw", .flw), ("fsw", .fsw),
    ("fadd.s", .rounded 0x00), ("fsub.s", .rounded 0x04), ("fmul.s", .rounded 0x08),
    ("fdiv.s", .rounded 0x0C), ("fsqrt.s", .sqrt),
    ("fsgnj.s", .exact 0x10 0), ("fsgnjn.s", .exact 0x10 1), ("fsgnjx.s", .exact 0x10 2),
    ("fmin.s", .exact 0x14 0), ("fmax.s", .exact 0x14 1),
    ("fle.s", .compare 0), ("flt.s", .compare 1), ("feq.s", .compare 2),
    ("fcvt.w.s", .toInteger 0), ("fcvt.wu.s", .toInteger 1),
    ("fcvt.s.w", .fromInteger 0), ("fcvt.s.wu", .fromInteger 1),
    ("fmv.x.w", .toWord 0), ("fclass.s", .toWord 1), ("fmv.w.x", .fromWord),
    ("lr.w", .reserved), ("sc.w", .atomic 0x03), ("amoadd.w", .atomic 0x00),
    ("amoswap.w", .atomic 0x01), ("amoxor.w", .atomic 0x04), ("amoor.w", .atomic 0x08),
    ("amoand.w", .atomic 0x0C), ("amomin.w", .atomic 0x10), ("amomax.w", .atomic 0x14),
    ("amominu.w", .atomic 0x18), ("amomaxu.w", .atomic 0x1C)]

/-- A mnemonic with its operands, or alone. -/
def render (mn : String) : List String → String
  | [] => mn
  | operand :: operands => line mn (operand :: operands)

/-- A text is the mnemonic and the operands of a form that matches. -/
structure Printed (inst : DecodedInst) (text mn : String) (form : Form) : Prop where
  known : forms.lookup mn = some form
  fields : form.Matches inst
  rendered : text = render mn (form.operands.map (Operand.text inst))

/-- A mnemonic, if there is one, is that of the form. -/
def Names (form : Form) (name : Option String) : Bool :=
  name.all fun mn => forms.lookup mn = some form

theorem alu_names : ∀ funct3 funct7, Names (.alu funct3 funct7) (aluName funct3 funct7) = true := by
  decide

theorem alui_names : ∀ funct3 funct7,
    Names (if funct3 = 1 ∨ funct3 = 5 then .shift funct3 funct7 else .immediate funct3)
      (aluiName funct3 funct7) = true := by
  decide

theorem load_names : ∀ funct3, Names (.load funct3) (loadName funct3) = true := by
  decide

theorem store_names : ∀ funct3, Names (.store funct3) (storeName funct3) = true := by
  decide

theorem branch_names : ∀ funct3, Names (.branch funct3) (branchName funct3) = true := by
  decide

theorem csr_names : ∀ funct3,
    Names (if funct3 ≥ 5 then .csrImm funct3 else .csr funct3) (csrName funct3) = true := by
  decide

theorem amo_names : ∀ funct5 : BitVec 7,
    Names (if funct5 = 0x02 then .reserved else .atomic funct5) (amoName funct5) = true := by
  decide

/-- What is printed under a name that is looked up has the form of the name. -/
theorem looked_up (inst : DecodedInst) (text : String) (form : Form) (name : Option String)
    (write : String → String) (names : Names form name = true) (fields : form.Matches inst)
    (written : ∀ mn, write mn = render mn (form.operands.map (Operand.text inst)))
    (shown : name.map write = some text) : ∃ mn form, Printed inst text mn form := by
  cases name with
  | none => cases shown
  | some mn =>
    refine ⟨mn, form, of_decide_eq_true names, fields, ?_⟩
    rw [← written mn]
    exact (Option.some.inj shown).symm

/-- So has what is printed under a fixed name. -/
theorem spelled_out (inst : DecodedInst) (text mn : String) (form : Form)
    (known : forms.lookup mn = some form) (fields : form.Matches inst)
    (shown : some (render mn (form.operands.map (Operand.text inst))) = some text) :
    ∃ mn form, Printed inst text mn form :=
  ⟨mn, form, known, fields, (Option.some.inj shown).symm⟩

theorem alui_printed (inst : DecodedInst) (text : String) (opcode : inst.opcode = .alui)
    (shown : (aluiName inst.funct3 inst.funct7).map (disasmAlui inst) = some text) :
    ∃ mn form, Printed inst text mn form := by
  have names := alui_names inst.funct3 inst.funct7
  by_cases shift : inst.funct3 = 1 ∨ inst.funct3 = 5
  · rw [if_pos shift] at names
    refine looked_up inst text _ _ _ names ⟨opcode, rfl, rfl⟩ ?_ shown
    intro mn
    rw [disasmAlui, if_pos shift]
    rfl
  · rw [if_neg shift] at names
    refine looked_up inst text _ _ _ names ⟨opcode, rfl⟩ ?_ shown
    intro mn
    rw [disasmAlui, if_neg shift]
    rfl

theorem system_printed (inst : DecodedInst) (text : String) (opcode : inst.opcode = .system)
    (shown : disasmSystem inst = some text) : ∃ mn form, Printed inst text mn form := by
  simp only [disasmSystem] at shown
  split at shown
  next raw => exact spelled_out inst text "ecall" (.whole 0x00000073) (by decide) ⟨opcode, raw⟩ shown
  split at shown
  next raw =>
    exact spelled_out inst text "ebreak" (.whole 0x00100073) (by decide) ⟨opcode, raw⟩ shown
  split at shown
  next raw => exact spelled_out inst text "mret" (.whole 0x30200073) (by decide) ⟨opcode, raw⟩ shown
  have names := csr_names inst.funct3
  by_cases immediate : inst.funct3 ≥ 5
  · rw [if_pos immediate] at names
    refine looked_up inst text _ _ _ names ⟨opcode, rfl⟩ ?_ shown
    intro mn
    rw [if_pos immediate]
    rfl
  · rw [if_neg immediate] at names
    refine looked_up inst text _ _ _ names ⟨opcode, rfl⟩ ?_ shown
    intro mn
    rw [if_neg immediate]
    rfl

theorem amo_printed (inst : DecodedInst) (text : String) (opcode : inst.opcode = .amo)
    (shown : disasmAmo inst = some text) : ∃ mn form, Printed inst text mn form := by
  have names := amo_names (inst.funct7 >>> 2)
  simp only [disasmAmo] at shown
  cases name : amoName (inst.funct7 >>> 2) with
  | none =>
    rw [name] at shown
    cases shown
  | some mn =>
    rw [name] at shown names
    dsimp only at shown
    split at shown
    next => cases shown
    next word =>
      have word := Decidable.of_not_not word
      split at shown
      next lr =>
        rw [if_pos lr] at names
        exact spelled_out inst text mn .reserved (of_decide_eq_true names) ⟨opcode, word, lr⟩ shown
      next other =>
        rw [if_neg other] at names
        exact spelled_out inst text mn _ (of_decide_eq_true names) ⟨opcode, word, rfl⟩ shown

/-- The forms of `OP-FP` whose mnemonic takes `funct7` alone. -/
theorem fp_single (inst : DecodedInst) (text : String) (opcode : inst.opcode = .fp)
    (funct7 : inst.funct7 = 0x00 ∨ inst.funct7 = 0x04 ∨ inst.funct7 = 0x08 ∨ inst.funct7 = 0x0C ∨
      inst.funct7 = 0x2C ∨ inst.funct7 = 0x78)
    (shown : disasmFp inst = some text) : ∃ mn form, Printed inst text mn form := by
  rcases funct7 with field | field | field | field | field | field <;>
    simp only [disasmFp, field] at shown
  · exact spelled_out inst text "fadd.s" (.rounded 0x00) (by decide) ⟨opcode, field⟩ shown
  · exact spelled_out inst text "fsub.s" (.rounded 0x04) (by decide) ⟨opcode, field⟩ shown
  · exact spelled_out inst text "fmul.s" (.rounded 0x08) (by decide) ⟨opcode, field⟩ shown
  · exact spelled_out inst text "fdiv.s" (.rounded 0x0C) (by decide) ⟨opcode, field⟩ shown
  · exact spelled_out inst text "fsqrt.s" .sqrt (by decide) ⟨opcode, field⟩ shown
  · exact spelled_out inst text "fmv.w.x" .fromWord (by decide) ⟨opcode, field⟩ shown

/-- A text under one test, or another. -/
theorem tested {α : Type} (passes : Prop) [Decidable passes] (one : α) (rest : Option α) (text : α)
    (shown : (if passes then some one else rest) = some text) :
    (passes ∧ some one = some text) ∨ rest = some text := by
  split at shown
  next holds => exact .inl ⟨holds, shown⟩
  next => exact .inr shown

/-- The forms whose mnemonic takes `funct3` or `rs2` too. -/
theorem fp_double (inst : DecodedInst) (text : String) (opcode : inst.opcode = .fp)
    (funct7 : inst.funct7 = 0x10 ∨ inst.funct7 = 0x14 ∨ inst.funct7 = 0x50 ∨ inst.funct7 = 0x60 ∨
      inst.funct7 = 0x68 ∨ inst.funct7 = 0x70)
    (shown : disasmFp inst = some text) : ∃ mn form, Printed inst text mn form := by
  rcases funct7 with field | field | field | field | field | field <;>
    simp only [disasmFp, field] at shown
  · rcases tested _ _ _ _ shown with ⟨test, first⟩ | shown
    · exact spelled_out inst text "fsgnj.s" (.exact 0x10 0) (by decide) ⟨opcode, field, test⟩ first
    rcases tested _ _ _ _ shown with ⟨test, second⟩ | shown
    · exact spelled_out inst text "fsgnjn.s" (.exact 0x10 1) (by decide) ⟨opcode, field, test⟩ second
    rcases tested _ _ _ _ shown with ⟨test, third⟩ | shown
    · exact spelled_out inst text "fsgnjx.s" (.exact 0x10 2) (by decide) ⟨opcode, field, test⟩ third
    · cases shown
  · rcases tested _ _ _ _ shown with ⟨test, first⟩ | shown
    · exact spelled_out inst text "fmin.s" (.exact 0x14 0) (by decide) ⟨opcode, field, test⟩ first
    rcases tested _ _ _ _ shown with ⟨test, second⟩ | shown
    · exact spelled_out inst text "fmax.s" (.exact 0x14 1) (by decide) ⟨opcode, field, test⟩ second
    · cases shown
  · rcases tested _ _ _ _ shown with ⟨test, first⟩ | shown
    · exact spelled_out inst text "fle.s" (.compare 0) (by decide) ⟨opcode, field, test⟩ first
    rcases tested _ _ _ _ shown with ⟨test, second⟩ | shown
    · exact spelled_out inst text "flt.s" (.compare 1) (by decide) ⟨opcode, field, test⟩ second
    rcases tested _ _ _ _ shown with ⟨test, third⟩ | shown
    · exact spelled_out inst text "feq.s" (.compare 2) (by decide) ⟨opcode, field, test⟩ third
    · cases shown
  · rcases tested _ _ _ _ shown with ⟨test, first⟩ | shown
    · exact spelled_out inst text "fcvt.w.s" (.toInteger 0) (by decide) ⟨opcode, field, test⟩ first
    rcases tested _ _ _ _ shown with ⟨test, second⟩ | shown
    · exact spelled_out inst text "fcvt.wu.s" (.toInteger 1) (by decide) ⟨opcode, field, test⟩ second
    · cases shown
  · rcases tested _ _ _ _ shown with ⟨test, first⟩ | shown
    · exact spelled_out inst text "fcvt.s.w" (.fromInteger 0) (by decide) ⟨opcode, field, test⟩ first
    rcases tested _ _ _ _ shown with ⟨test, second⟩ | shown
    · exact spelled_out inst text "fcvt.s.wu" (.fromInteger 1) (by decide) ⟨opcode, field, test⟩
        second
    · cases shown
  · rcases tested _ _ _ _ shown with ⟨test, first⟩ | shown
    · exact spelled_out inst text "fmv.x.w" (.toWord 0) (by decide) ⟨opcode, field, test⟩ first
    rcases tested _ _ _ _ shown with ⟨test, second⟩ | shown
    · exact spelled_out inst text "fclass.s" (.toWord 1) (by decide) ⟨opcode, field, test⟩ second
    · cases shown

theorem fp_printed (inst : DecodedInst) (text : String) (opcode : inst.opcode = .fp)
    (shown : disasmFp inst = some text) : ∃ mn form, Printed inst text mn form := by
  have some := shown
  simp only [disasmFp] at some
  split at some
  next funct7 => exact fp_single inst text opcode (.inl funct7) shown
  next funct7 => exact fp_single inst text opcode (.inr (.inl funct7)) shown
  next funct7 => exact fp_single inst text opcode (.inr (.inr (.inl funct7))) shown
  next funct7 => exact fp_single inst text opcode (.inr (.inr (.inr (.inl funct7)))) shown
  next funct7 => exact fp_single inst text opcode (.inr (.inr (.inr (.inr (.inl funct7))))) shown
  next funct7 => exact fp_double inst text opcode (.inl funct7) shown
  next funct7 => exact fp_double inst text opcode (.inr (.inl funct7)) shown
  next funct7 => exact fp_double inst text opcode (.inr (.inr (.inl funct7))) shown
  next funct7 => exact fp_double inst text opcode (.inr (.inr (.inr (.inl funct7)))) shown
  next funct7 => exact fp_double inst text opcode (.inr (.inr (.inr (.inr (.inl funct7))))) shown
  next funct7 => exact fp_double inst text opcode (.inr (.inr (.inr (.inr (.inr funct7))))) shown
  next funct7 => exact fp_single inst text opcode (.inr (.inr (.inr (.inr (.inr funct7))))) shown
  next => cases some

/-- Every text of the switch has a form. -/
theorem text_printed (inst : DecodedInst) (text : String) (decoded : inst.opcode ≠ .fence)
    (shown : disasmText inst = some text) : ∃ mn form, Printed inst text mn form := by
  simp only [disasmText] at shown
  cases opcode : inst.opcode with
  | alu =>
    rw [opcode] at shown
    exact looked_up inst text _ _ _ (alu_names _ _) ⟨opcode, rfl, rfl⟩ (fun _ => rfl) shown
  | alui =>
    rw [opcode] at shown
    exact alui_printed inst text opcode shown
  | load =>
    rw [opcode] at shown
    exact looked_up inst text _ _ _ (load_names _) ⟨opcode, rfl⟩ (fun _ => rfl) shown
  | store =>
    rw [opcode] at shown
    exact looked_up inst text _ _ _ (store_names _) ⟨opcode, rfl⟩ (fun _ => rfl) shown
  | branch =>
    rw [opcode] at shown
    exact looked_up inst text _ _ _ (branch_names _) ⟨opcode, rfl⟩ (fun _ => rfl) shown
  | jal =>
    rw [opcode] at shown
    exact spelled_out inst text "jal" .jal (by decide) opcode shown
  | jalr =>
    rw [opcode] at shown
    exact spelled_out inst text "jalr" .jalr (by decide) opcode shown
  | lui =>
    rw [opcode] at shown
    exact spelled_out inst text "lui" .lui (by decide) opcode shown
  | auipc =>
    rw [opcode] at shown
    exact spelled_out inst text "auipc" .auipc (by decide) opcode shown
  | system =>
    rw [opcode] at shown
    exact system_printed inst text opcode shown
  | fence => exact absurd opcode decoded
  | loadFp =>
    rw [opcode] at shown
    rcases tested _ _ _ _ shown with ⟨word, shown⟩ | none
    · exact spelled_out inst text "flw" .flw (by decide) ⟨opcode, word⟩ shown
    · cases none
  | storeFp =>
    rw [opcode] at shown
    rcases tested _ _ _ _ shown with ⟨word, shown⟩ | none
    · exact spelled_out inst text "fsw" .fsw (by decide) ⟨opcode, word⟩ shown
    · cases none
  | fp =>
    rw [opcode] at shown
    exact fp_printed inst text opcode shown
  | amo =>
    rw [opcode] at shown
    exact amo_printed inst text opcode shown
  | other bits =>
    rw [opcode] at shown
    cases shown

/-! ## The same text -/

/-- Every mnemonic is free of blanks. -/
theorem mnemonic_clean (mn : String) (form : Form) (known : forms.lookup mn = some form) :
    ' ' ∉ mn.toList := by
  obtain ⟨before, after, split, -⟩ := List.lookup_eq_some_iff.mp known
  have member : (mn, form) ∈ forms := by
    rw [split]
    exact List.mem_append_right before List.mem_cons_self
  have clean : ∀ entry ∈ forms, ' ' ∉ entry.1.toList := by decide
  exact clean _ member

theorem line_chars (mn : String) (operands : List String) :
    (line mn operands).toList =
      mn.toList ++ ' ' :: (", ".toList).intercalate (operands.map String.toList) := by
  rw [line, String.toList_append, String.toList_append, String.toList_intercalate,
    List.append_assoc]
  rfl

/-- A text is the text of one mnemonic and one list of operands. -/
theorem render_unique (mn other : String) (operands others : List String)
    (clean : ' ' ∉ mn.toList) (also : ' ' ∉ other.toList)
    (commas : ∀ operand ∈ operands, ',' ∉ operand.toList)
    (more : ∀ operand ∈ others, ',' ∉ operand.toList)
    (same : render mn operands = render other others) : mn = other ∧ operands = others := by
  have spelled : ∀ words : List String, (∀ word ∈ words, ',' ∉ word.toList) →
      ∀ chars ∈ words.map String.toList, ',' ∉ chars :=
    fun _ clean => List.forall_mem_map.mpr clean
  cases operands with
  | nil =>
    cases others with
    | nil => exact ⟨same, rfl⟩
    | cons second others =>
      have chars := congrArg String.toList same
      simp only [render, line_chars] at chars
      exact (Separated.cut_marked ' ' _ _ _ clean chars.symm).elim
  | cons first operands =>
    cases others with
    | nil =>
      have chars := congrArg String.toList same
      simp only [render, line_chars] at chars
      exact (Separated.cut_marked ' ' _ _ _ also chars).elim
    | cons second others =>
      have chars := congrArg String.toList same
      simp only [render, line_chars] at chars
      obtain ⟨names, words⟩ := Separated.cut_unique ' ' _ _ _ _ clean also chars
      have lists := Separated.intercalate_unique ',' [' '] _ _ (List.cons_ne_nil _ _)
        (List.cons_ne_nil _ _) (spelled _ commas) (spelled _ more) words
      refine ⟨String.toList_inj.mp names, ?_⟩
      exact List.map_injective_iff.mpr (fun _ _ => String.toList_injective) lists

/-- Instructions that are printed alike have one form, and agree in its operands. -/
theorem form_shown (one other : DecodedInst) (text mn mn' : String) (form form' : Form)
    (printed : Printed one text mn form) (also : Printed other text mn' form') :
    form' = form ∧ form.operands.Forall (Operand.Same one other) := by
  have commas : ∀ (inst : DecodedInst) (operands : List Operand),
      ∀ operand ∈ operands.map (Operand.text inst), ',' ∉ operand.toList := by
    intro inst operands
    exact List.forall_mem_map.mpr fun operand _ => text_clean operand inst
  obtain ⟨rfl, operands⟩ := render_unique mn mn' _ _ (mnemonic_clean mn form printed.known)
    (mnemonic_clean mn' form' also.known) (commas one _) (commas other _)
    (printed.rendered.symm.trans also.rendered)
  obtain rfl := Option.some.inj (printed.known.symm.trans also.known)
  refine ⟨rfl, List.forall_iff_forall_mem.mpr ?_⟩
  intro operand member
  exact text_shows operand one other (List.map_inj_left.mp operands operand member)

/-! ## The bits that are told -/

/-- A joined word shows its parts. -/
theorem joined_parts {n m : Nat} (high high' : BitVec n) (low low' : BitVec m)
    (same : high ++ low = high' ++ low') : high = high' ∧ low = low' := by
  have front := congrArg (BitVec.extractLsb' m n) same
  have back := congrArg (BitVec.extractLsb' 0 m) same
  rw [BitVec.extractLsb'_append_eq_left, BitVec.extractLsb'_append_eq_left] at front
  rw [BitVec.extractLsb'_append_eq_right, BitVec.extractLsb'_append_eq_right] at back
  exact ⟨front, back⟩

/-- A sign extension shows the field that is extended. -/
theorem extended_shows {m : Nat} (field other : BitVec m) (inside : m ≤ 32)
    (same : field.signExtend 32 = other.signExtend 32) : field = other := by
  have narrowed := congrArg (BitVec.setWidth m) same
  rwa [BitFields.narrow_signExtend field inside, BitFields.narrow_signExtend other inside]
    at narrowed

/-- The low bits of a slice are a shorter slice. -/
theorem slice_slice (word : Word) (start n m : Nat) (inside : m ≤ n) :
    (word.extractLsb' start n).extractLsb' 0 m = word.extractLsb' start m := by
  apply BitVec.eq_of_getLsbD_eq
  intro i bound
  rw [BitVec.getLsbD_extractLsb', BitVec.getLsbD_extractLsb', BitVec.getLsbD_extractLsb',
    Nat.zero_add, decide_eq_true bound, decide_eq_true (Nat.lt_of_lt_of_le bound inside),
    Bool.true_and]

/-- Two words have the same bits from a position on. -/
def SameSlice (word other : Word) (slice : Nat × Nat) : Prop :=
  word.extractLsb' slice.1 slice.2 = other.extractLsb' slice.1 slice.2

/-- Words that agree in slices agree under a mask that the slices cover. -/
theorem slices_masked (mask word other : Word) (slices : List (Nat × Nat))
    (covered : ∀ i : Fin 32, mask.getLsbD i.val = true →
      ∃ slice ∈ slices, slice.1 ≤ i.val ∧ i.val < slice.1 + slice.2)
    (same : ∀ slice ∈ slices, SameSlice word other slice) : word &&& mask = other &&& mask := by
  apply BitVec.eq_of_getLsbD_eq
  intro i inside
  rw [BitVec.getLsbD_and, BitVec.getLsbD_and]
  cases bit : mask.getLsbD i with
  | false => rw [Bool.and_false, Bool.and_false]
  | true =>
    obtain ⟨slice, member, above, below⟩ := covered ⟨i, inside⟩ bit
    change slice.1 ≤ i at above
    change i < slice.1 + slice.2 at below
    have at' := congrArg (BitVec.getLsbD · (i - slice.1)) (same slice member)
    rw [BitVec.getLsbD_extractLsb', BitVec.getLsbD_extractLsb', Nat.add_sub_cancel' above,
      decide_eq_true (by omega : i - slice.1 < slice.2), Bool.true_and, Bool.true_and] at at'
    rw [at']

/-- Words that agree under a mask agree in the slices inside it. -/
theorem masked_slice (mask word other : Word) (start n : Nat)
    (inside : ∀ i : Fin n, mask.getLsbD (start + i.val) = true)
    (same : word &&& mask = other &&& mask) : SameSlice word other (start, n) := by
  apply BitVec.eq_of_getLsbD_eq
  intro i bound
  have at' := congrArg (BitVec.getLsbD · (start + i)) same
  rw [BitVec.getLsbD_and, BitVec.getLsbD_and, inside ⟨i, bound⟩, Bool.and_true, Bool.and_true]
    at at'
  rw [BitVec.getLsbD_extractLsb', BitVec.getLsbD_extractLsb', at']

section Fields

variable (word word' : Word) (one other : DecodedInst) (left : Extracted word 4 one)
  (right : Extracted word' 4 other)

include left right

theorem rd_slice (same : one.rd = other.rd) : SameSlice word word' (7, 5) := by
  rwa [left.rd, right.rd] at same

theorem rs1_slice (same : one.rs1 = other.rs1) : SameSlice word word' (15, 5) := by
  rwa [left.rs1, right.rs1] at same

theorem rs2_slice (same : one.rs2 = other.rs2) : SameSlice word word' (20, 5) := by
  rwa [left.rs2, right.rs2] at same

theorem funct3_slice (same : one.funct3 = other.funct3) : SameSlice word word' (12, 3) := by
  rwa [left.funct3, right.funct3] at same

theorem funct7_slice (same : one.funct7 = other.funct7) : SameSlice word word' (25, 7) := by
  rwa [left.funct7, right.funct7] at same

theorem funct5_slice (same : one.funct7 >>> 2 = other.funct7 >>> 2) :
    SameSlice word word' (27, 5) := by
  have narrowed := congrArg (BitVec.extractLsb' 0 5) same
  rw [left.funct7, right.funct7] at narrowed
  apply BitVec.eq_of_getLsbD_eq
  intro i bound
  have at' := congrArg (BitVec.getLsbD · i) narrowed
  simp only [BitVec.getLsbD_extractLsb', BitVec.getLsbD_ushiftRight, decide_eq_true bound,
    decide_eq_true (by omega : 2 + (0 + i) < 7), Bool.true_and] at at'
  rw [BitVec.getLsbD_extractLsb', BitVec.getLsbD_extractLsb', decide_eq_true bound,
    Bool.true_and, Bool.true_and]
  have position : 25 + (2 + (0 + i)) = 27 + i := by omega
  rwa [position] at at'

theorem slice_funct5 (same : SameSlice word word' (27, 5)) :
    one.funct7 >>> 2 = other.funct7 >>> 2 := by
  rw [left.funct7, right.funct7]
  apply BitVec.eq_of_getLsbD_eq
  intro i bound
  have at' := congrArg (BitVec.getLsbD · i) same
  simp only [BitVec.getLsbD_extractLsb', BitVec.getLsbD_ushiftRight] at at' ⊢
  have position : 25 + (2 + i) = 27 + i := by omega
  rw [position]
  by_cases inside : 2 + i < 7
  · rw [decide_eq_true (by omega : i < 5), Bool.true_and, Bool.true_and] at at'
    rw [at']
  · rw [decide_eq_false inside, Bool.false_and, Bool.false_and]

theorem opcode_slice (same : one.opcode = other.opcode) : SameSlice word word' (0, 7) := by
  rw [left.opcode, right.opcode] at same
  have bits := congrArg opcodeBits same
  rwa [opcodeBits_opcodeOf, opcodeBits_opcodeOf] at bits

/-- The immediates of both words, where they have one format. -/
theorem imm_same (fmt : InstFmt) (format : getFmt one.opcode = some fmt)
    (same : one.opcode = other.opcode) (imm : one.imm = other.imm) :
    immOf fmt word = immOf fmt word' := by
  have format' : getFmt other.opcode = some fmt := same ▸ format
  rw [left.opcode] at format
  rw [right.opcode] at format'
  rw [← left.imm fmt format, ← right.imm fmt format', imm]

theorem imm_i (format : getFmt one.opcode = some .i) (same : one.opcode = other.opcode)
    (imm : one.imm = other.imm) : SameSlice word word' (20, 12) := by
  have words : immI word = immI word' := imm_same word word' one other left right .i format same imm
  rw [immI_field, immI_field] at words
  exact extended_shows _ _ (by decide) words

theorem imm_s (format : getFmt one.opcode = some .s) (same : one.opcode = other.opcode)
    (imm : one.imm = other.imm) : SameSlice word word' (25, 7) ∧ SameSlice word word' (7, 5) := by
  have words : immS word = immS word' := imm_same word word' one other left right .s format same imm
  rw [immS_field, immS_field] at words
  exact joined_parts _ _ _ _ (extended_shows _ _ (by decide) words)

theorem imm_b (format : getFmt one.opcode = some .b) (same : one.opcode = other.opcode)
    (imm : one.imm = other.imm) :
    SameSlice word word' (31, 1) ∧ SameSlice word word' (7, 1) ∧ SameSlice word word' (25, 6) ∧
      SameSlice word word' (8, 4) := by
  have words : immB word = immB word' := imm_same word word' one other left right .b format same imm
  rw [immB_field, immB_field] at words
  obtain ⟨words, -⟩ := joined_parts _ _ _ _ (extended_shows _ _ (by decide) words)
  obtain ⟨words, fourth⟩ := joined_parts _ _ _ _ words
  obtain ⟨words, third⟩ := joined_parts _ _ _ _ words
  obtain ⟨first, second⟩ := joined_parts _ _ _ _ words
  exact ⟨first, second, third, fourth⟩

theorem imm_j (format : getFmt one.opcode = some .j) (same : one.opcode = other.opcode)
    (imm : one.imm = other.imm) :
    SameSlice word word' (31, 1) ∧ SameSlice word word' (12, 8) ∧ SameSlice word word' (20, 1) ∧
      SameSlice word word' (21, 10) := by
  have words : immJ word = immJ word' := imm_same word word' one other left right .j format same imm
  rw [immJ_field, immJ_field] at words
  obtain ⟨words, -⟩ := joined_parts _ _ _ _ (extended_shows _ _ (by decide) words)
  obtain ⟨words, fourth⟩ := joined_parts _ _ _ _ words
  obtain ⟨words, third⟩ := joined_parts _ _ _ _ words
  obtain ⟨first, second⟩ := joined_parts _ _ _ _ words
  exact ⟨first, second, third, fourth⟩

theorem imm_u (format : getFmt one.opcode = some .u) (same : one.opcode = other.opcode)
    (upper : one.imm >>> 12 = other.imm >>> 12) : SameSlice word word' (12, 20) := by
  have format' : getFmt other.opcode = some .u := same ▸ format
  rw [left.opcode] at format
  rw [right.opcode] at format'
  have narrowed := congrArg (BitVec.setWidth 20) upper
  rw [left.imm .u format, right.imm .u format'] at narrowed
  change (immU word >>> 12).setWidth 20 = (immU word' >>> 12).setWidth 20 at narrowed
  rwa [BitVec.setWidth_ushiftRight_eq_extractLsb, BitVec.setWidth_ushiftRight_eq_extractLsb,
    immU_field, immU_field, immediateU, immediateU, BitVec.extractLsb'_append_eq_left,
    BitVec.extractLsb'_append_eq_left] at narrowed

theorem amount_slice (format : getFmt one.opcode = some .i) (same : one.opcode = other.opcode)
    (amount : one.imm &&& 0x1F = other.imm &&& 0x1F) : SameSlice word word' (20, 5) := by
  have format' : getFmt other.opcode = some .i := same ▸ format
  rw [left.opcode] at format
  rw [right.opcode] at format'
  have low := masked_slice 0x1F one.imm other.imm 0 5 (by decide) amount
  rw [left.imm .i format, right.imm .i format'] at low
  change (immI word).extractLsb' 0 5 = (immI word').extractLsb' 0 5 at low
  rwa [immI_field, immI_field, immediateI, immediateI,
    BitFields.slice_signExtend _ 0 5 (by decide) (by decide),
    BitFields.slice_signExtend _ 0 5 (by decide) (by decide),
    slice_slice word 20 12 5 (by decide), slice_slice word' 20 12 5 (by decide)] at low

end Fields

/-- The fields that a form and its operands tell, beside the opcode. -/
def Form.slices : Form → List (Nat × Nat)
  | .alu _ _ => [(12, 3), (25, 7), (7, 5), (15, 5), (20, 5)]
  | .immediate _ => [(12, 3), (7, 5), (15, 5), (20, 12)]
  | .shift _ _ => [(12, 3), (25, 7), (7, 5), (15, 5), (20, 5)]
  | .load _ => [(12, 3), (7, 5), (15, 5), (20, 12)]
  | .store _ => [(12, 3), (15, 5), (20, 5), (25, 7), (7, 5)]
  | .branch _ => [(12, 3), (15, 5), (20, 5), (31, 1), (7, 1), (25, 6), (8, 4)]
  | .jal => [(7, 5), (31, 1), (12, 8), (20, 1), (21, 10)]
  | .jalr => [(7, 5), (15, 5), (20, 12)]
  | .lui => [(7, 5), (12, 20)]
  | .auipc => [(7, 5), (12, 20)]
  | .whole _ => [(0, 32)]
  | .csr _ => [(12, 3), (7, 5), (15, 5), (20, 12)]
  | .csrImm _ => [(12, 3), (7, 5), (15, 5), (20, 12)]
  | .flw => [(12, 3), (7, 5), (15, 5), (20, 12)]
  | .fsw => [(12, 3), (15, 5), (20, 5), (25, 7), (7, 5)]
  | .rounded _ => [(25, 7), (7, 5), (15, 5), (20, 5)]
  | .sqrt => [(25, 7), (7, 5), (15, 5)]
  | .exact _ _ => [(25, 7), (12, 3), (7, 5), (15, 5), (20, 5)]
  | .compare _ => [(25, 7), (12, 3), (7, 5), (15, 5), (20, 5)]
  | .toInteger _ => [(25, 7), (20, 5), (7, 5), (15, 5)]
  | .fromInteger _ => [(25, 7), (20, 5), (7, 5), (15, 5)]
  | .toWord _ => [(25, 7), (12, 3), (7, 5), (15, 5)]
  | .fromWord => [(25, 7), (7, 5), (15, 5)]
  | .reserved => [(12, 3), (27, 5), (7, 5), (15, 5)]
  | .atomic _ => [(12, 3), (27, 5), (7, 5), (20, 5), (15, 5)]

/-- The bits that they leave out. -/
def Form.hidden : Form → Word
  | .jalr => 0x00007000
  | .rounded _ => 0x00007000
  | .sqrt => 0x01F07000
  | .toInteger _ => 0x00007000
  | .fromInteger _ => 0x00007000
  | .toWord _ => 0x01F00000
  | .fromWord => 0x01F07000
  | .reserved => 0x07F00000
  | .atomic _ => 0x06000000
  | _ => 0

/-- A bit is told or left out. -/
theorem slices_cover (form : Form) (i : Fin 32) (kept : (~~~form.hidden).getLsbD i.val = true) :
    ∃ slice ∈ (0, 7) :: form.slices, slice.1 ≤ i.val ∧ i.val < slice.1 + slice.2 := by
  revert i
  cases form <;>
    simp only [Form.hidden, Form.slices] <;>
    decide

/-- The opcode of a form. -/
def Form.opcode : Form → Opcode
  | .alu _ _ => .alu
  | .immediate _ => .alui
  | .shift _ _ => .alui
  | .load _ => .load
  | .store _ => .store
  | .branch _ => .branch
  | .jal => .jal
  | .jalr => .jalr
  | .lui => .lui
  | .auipc => .auipc
  | .whole _ => .system
  | .csr _ => .system
  | .csrImm _ => .system
  | .flw => .loadFp
  | .fsw => .storeFp
  | .rounded _ => .fp
  | .sqrt => .fp
  | .exact _ _ => .fp
  | .compare _ => .fp
  | .toInteger _ => .fp
  | .fromInteger _ => .fp
  | .toWord _ => .fp
  | .fromWord => .fp
  | .reserved => .amo
  | .atomic _ => .amo

theorem matches_opcode (inst : DecodedInst) (form : Form) (fields : form.Matches inst) :
    inst.opcode = form.opcode := by
  cases form
  case jal => exact fields
  case jalr => exact fields
  case lui => exact fields
  case auipc => exact fields
  all_goals exact fields.1

/-- What has one form and the same operands agrees in the fields of the form. -/
theorem slices_told (word word' : Word) (one other : DecodedInst) (left : Extracted word 4 one)
    (right : Extracted word' 4 other) (form : Form) (fields : form.Matches one)
    (also : form.Matches other) (operands : form.operands.Forall (Operand.Same one other)) :
    ((0, 7) :: form.slices).Forall (SameSlice word word') := by
  have opcode := matches_opcode one form fields
  have opcodes := opcode.trans (matches_opcode other form also).symm
  have low := opcode_slice word word' one other left right opcodes
  have d := rd_slice word word' one other left right
  have r1 := rs1_slice word word' one other left right
  have r2 := rs2_slice word word' one other left right
  have f3 := funct3_slice word word' one other left right
  have f5 := funct5_slice word word' one other left right
  have f7 := funct7_slice word word' one other left right
  cases form with
  | alu funct3 funct7 =>
    obtain ⟨-, third, seventh⟩ := fields
    obtain ⟨-, third', seventh'⟩ := also
    obtain ⟨rd, rs1, rs2⟩ := operands
    exact ⟨low, f3 (third.trans third'.symm), f7 (seventh.trans seventh'.symm), d rd, r1 rs1,
      r2 rs2⟩
  | immediate funct3 =>
    obtain ⟨-, third⟩ := fields
    obtain ⟨-, third'⟩ := also
    obtain ⟨rd, rs1, imm⟩ := operands
    have format : getFmt one.opcode = some .i := by
      rw [opcode]
      rfl
    exact ⟨low, f3 (third.trans third'.symm), d rd, r1 rs1,
      imm_i word word' one other left right format opcodes imm⟩
  | shift funct3 funct7 =>
    obtain ⟨-, third, seventh⟩ := fields
    obtain ⟨-, third', seventh'⟩ := also
    obtain ⟨rd, rs1, amount⟩ := operands
    have format : getFmt one.opcode = some .i := by
      rw [opcode]
      rfl
    exact ⟨low, f3 (third.trans third'.symm), f7 (seventh.trans seventh'.symm), d rd, r1 rs1,
      amount_slice word word' one other left right format opcodes amount⟩
  | load funct3 =>
    obtain ⟨-, third⟩ := fields
    obtain ⟨-, third'⟩ := also
    obtain ⟨rd, ⟨imm, rs1⟩⟩ := operands
    have format : getFmt one.opcode = some .i := by
      rw [opcode]
      rfl
    exact ⟨low, f3 (third.trans third'.symm), d rd, r1 rs1,
      imm_i word word' one other left right format opcodes imm⟩
  | store funct3 =>
    obtain ⟨-, third⟩ := fields
    obtain ⟨-, third'⟩ := also
    obtain ⟨rs2, ⟨imm, rs1⟩⟩ := operands
    have format : getFmt one.opcode = some .s := by
      rw [opcode]
      rfl
    exact ⟨low, f3 (third.trans third'.symm), r1 rs1, r2 rs2,
      imm_s word word' one other left right format opcodes imm⟩
  | branch funct3 =>
    obtain ⟨-, third⟩ := fields
    obtain ⟨-, third'⟩ := also
    obtain ⟨rs1, rs2, offset⟩ := operands
    have format : getFmt one.opcode = some .b := by
      rw [opcode]
      rfl
    exact ⟨low, f3 (third.trans third'.symm), r1 rs1, r2 rs2,
      imm_b word word' one other left right format opcodes offset⟩
  | jal =>
    obtain ⟨rd, offset⟩ := operands
    have format : getFmt one.opcode = some .j := by
      rw [opcode]
      rfl
    exact ⟨low, d rd, imm_j word word' one other left right format opcodes offset⟩
  | jalr =>
    obtain ⟨rd, ⟨imm, rs1⟩⟩ := operands
    have format : getFmt one.opcode = some .i := by
      rw [opcode]
      rfl
    exact ⟨low, d rd, r1 rs1, imm_i word word' one other left right format opcodes imm⟩
  | lui =>
    obtain ⟨rd, upper⟩ := operands
    have format : getFmt one.opcode = some .u := by
      rw [opcode]
      rfl
    exact ⟨low, d rd, imm_u word word' one other left right format opcodes upper⟩
  | auipc =>
    obtain ⟨rd, upper⟩ := operands
    have format : getFmt one.opcode = some .u := by
      rw [opcode]
      rfl
    exact ⟨low, d rd, imm_u word word' one other left right format opcodes upper⟩
  | whole raw =>
    obtain ⟨-, same⟩ := fields
    obtain ⟨-, same'⟩ := also
    rw [left.raw] at same
    rw [right.raw] at same'
    exact ⟨low, congrArg (BitVec.extractLsb' 0 32) (same.trans same'.symm)⟩
  | csr funct3 =>
    obtain ⟨-, third⟩ := fields
    obtain ⟨-, third'⟩ := also
    obtain ⟨rd, imm, rs1⟩ := operands
    have format : getFmt one.opcode = some .i := by
      rw [opcode]
      rfl
    exact ⟨low, f3 (third.trans third'.symm), d rd, r1 rs1,
      imm_i word word' one other left right format opcodes imm⟩
  | csrImm funct3 =>
    obtain ⟨-, third⟩ := fields
    obtain ⟨-, third'⟩ := also
    obtain ⟨rd, imm, rs1⟩ := operands
    have format : getFmt one.opcode = some .i := by
      rw [opcode]
      rfl
    exact ⟨low, f3 (third.trans third'.symm), d rd, r1 rs1,
      imm_i word word' one other left right format opcodes imm⟩
  | flw =>
    obtain ⟨-, third⟩ := fields
    obtain ⟨-, third'⟩ := also
    obtain ⟨rd, ⟨imm, rs1⟩⟩ := operands
    have format : getFmt one.opcode = some .i := by
      rw [opcode]
      rfl
    exact ⟨low, f3 (third.trans third'.symm), d rd, r1 rs1,
      imm_i word word' one other left right format opcodes imm⟩
  | fsw =>
    obtain ⟨-, third⟩ := fields
    obtain ⟨-, third'⟩ := also
    obtain ⟨rs2, ⟨imm, rs1⟩⟩ := operands
    have format : getFmt one.opcode = some .s := by
      rw [opcode]
      rfl
    exact ⟨low, f3 (third.trans third'.symm), r1 rs1, r2 rs2,
      imm_s word word' one other left right format opcodes imm⟩
  | rounded funct7 =>
    obtain ⟨-, seventh⟩ := fields
    obtain ⟨-, seventh'⟩ := also
    obtain ⟨rd, rs1, rs2⟩ := operands
    exact ⟨low, f7 (seventh.trans seventh'.symm), d rd, r1 rs1, r2 rs2⟩
  | sqrt =>
    obtain ⟨-, seventh⟩ := fields
    obtain ⟨-, seventh'⟩ := also
    obtain ⟨rd, rs1⟩ := operands
    exact ⟨low, f7 (seventh.trans seventh'.symm), d rd, r1 rs1⟩
  | exact funct7 funct3 =>
    obtain ⟨-, seventh, third⟩ := fields
    obtain ⟨-, seventh', third'⟩ := also
    obtain ⟨rd, rs1, rs2⟩ := operands
    exact ⟨low, f7 (seventh.trans seventh'.symm), f3 (third.trans third'.symm), d rd, r1 rs1,
      r2 rs2⟩
  | compare funct3 =>
    obtain ⟨-, seventh, third⟩ := fields
    obtain ⟨-, seventh', third'⟩ := also
    obtain ⟨rd, rs1, rs2⟩ := operands
    exact ⟨low, f7 (seventh.trans seventh'.symm), f3 (third.trans third'.symm), d rd, r1 rs1,
      r2 rs2⟩
  | toInteger rs2 =>
    obtain ⟨-, seventh, second⟩ := fields
    obtain ⟨-, seventh', second'⟩ := also
    obtain ⟨rd, rs1⟩ := operands
    exact ⟨low, f7 (seventh.trans seventh'.symm), r2 (second.trans second'.symm), d rd, r1 rs1⟩
  | fromInteger rs2 =>
    obtain ⟨-, seventh, second⟩ := fields
    obtain ⟨-, seventh', second'⟩ := also
    obtain ⟨rd, rs1⟩ := operands
    exact ⟨low, f7 (seventh.trans seventh'.symm), r2 (second.trans second'.symm), d rd, r1 rs1⟩
  | toWord funct3 =>
    obtain ⟨-, seventh, third⟩ := fields
    obtain ⟨-, seventh', third'⟩ := also
    obtain ⟨rd, rs1⟩ := operands
    exact ⟨low, f7 (seventh.trans seventh'.symm), f3 (third.trans third'.symm), d rd, r1 rs1⟩
  | fromWord =>
    obtain ⟨-, seventh⟩ := fields
    obtain ⟨-, seventh'⟩ := also
    obtain ⟨rd, rs1⟩ := operands
    exact ⟨low, f7 (seventh.trans seventh'.symm), d rd, r1 rs1⟩
  | reserved =>
    obtain ⟨-, third, fifth⟩ := fields
    obtain ⟨-, third', fifth'⟩ := also
    obtain ⟨rd, rs1⟩ := operands
    exact ⟨low, f3 (third.trans third'.symm), f5 (fifth.trans fifth'.symm), d rd, r1 rs1⟩
  | atomic funct5 =>
    obtain ⟨-, third, fifth⟩ := fields
    obtain ⟨-, third', fifth'⟩ := also
    obtain ⟨rd, rs2, rs1⟩ := operands
    exact ⟨low, f3 (third.trans third'.symm), f5 (fifth.trans fifth'.symm), d rd, r2 rs2, r1 rs1⟩

/-! ## The law -/

/-- The bits that the text of a floating-point operation leaves out. -/
def unprintedFp (funct7 : BitVec 7) : Word :=
  match funct7 with
  | 0x00#7 => 0x00007000
  | 0x04#7 => 0x00007000
  | 0x08#7 => 0x00007000
  | 0x0C#7 => 0x00007000
  | 0x2C#7 => 0x01F07000
  | 0x60#7 => 0x00007000
  | 0x68#7 => 0x00007000
  | 0x70#7 => 0x01F00000
  | 0x78#7 => 0x01F07000
  | _ => 0

/-- The bits that the text of an instruction leaves out. -/
def unprinted (inst : DecodedInst) : Word :=
  if disasmText inst = none then 0
  else
    match inst.opcode with
    | .jalr => 0x00007000
    | .amo => if inst.funct7 >>> 2 = 0x02 then 0x07F00000 else 0x06000000
    | .fp => unprintedFp inst.funct7
    | _ => 0

/-- The fields of a form are those of its kind. -/
def Form.proper : Form → Bool
  | .rounded funct7 => [0x00, 0x04, 0x08, 0x0C].contains funct7
  | .exact funct7 _ => [0x10, 0x14].contains funct7
  | .atomic funct5 => funct5 ≠ 0x02
  | _ => true

theorem lookup_proper (mn : String) (form : Form) (known : forms.lookup mn = some form) :
    form.proper = true := by
  obtain ⟨before, after, split, -⟩ := List.lookup_eq_some_iff.mp known
  have member : (mn, form) ∈ forms := by
    rw [split]
    exact List.mem_append_right before List.mem_cons_self
  have proper : ∀ entry ∈ forms, entry.2.proper = true := by decide
  exact proper _ member

/-- A text leaves out what its form does. -/
theorem unprinted_hidden (inst : DecodedInst) (text mn : String) (form : Form)
    (shown : disasmText inst = some text) (printed : Printed inst text mn form) :
    unprinted inst = form.hidden := by
  have proper := lookup_proper mn form printed.known
  have fields := printed.fields
  have opcode := matches_opcode inst form fields
  have printing : ¬ disasmText inst = none := by
    rw [shown]
    exact Option.some_ne_none text
  rw [unprinted, if_neg printing, opcode]
  cases form with
  | rounded funct7 =>
    obtain ⟨-, rfl⟩ := fields
    rw [Form.proper, List.contains_iff_mem] at proper
    simp only [List.mem_cons, List.not_mem_nil, or_false] at proper
    rcases proper with field | field | field | field <;> exact congrArg unprintedFp field
  | sqrt => exact congrArg unprintedFp fields.2
  | exact funct7 funct3 =>
    obtain ⟨-, rfl, -⟩ := fields
    rw [Form.proper, List.contains_iff_mem] at proper
    simp only [List.mem_cons, List.not_mem_nil, or_false] at proper
    rcases proper with field | field <;> exact congrArg unprintedFp field
  | compare funct3 => exact congrArg unprintedFp fields.2.1
  | toInteger rs2 => exact congrArg unprintedFp fields.2.1
  | fromInteger rs2 => exact congrArg unprintedFp fields.2.1
  | toWord funct3 => exact congrArg unprintedFp fields.2.1
  | fromWord => exact congrArg unprintedFp fields.2
  | reserved => exact if_pos fields.2.2
  | atomic funct5 =>
    obtain ⟨-, -, rfl⟩ := fields
    exact if_neg (of_decide_eq_true proper)
  | _ => rfl

/-- Words that are printed alike differ in the bits that are left out alone. -/
theorem alike_masked (word word' : Word) (one other : DecodedInst)
    (decoded : decode word = some one) (decoded' : decode word' = some other)
    (same : decodeDisasm one = decodeDisasm other) :
    word &&& ~~~unprinted one = word' &&& ~~~unprinted one := by
  obtain ⟨known, left⟩ := decoded_extracted word one decoded
  obtain ⟨known', right⟩ := decoded_extracted word' other decoded'
  have unfenced : ∀ inst : DecodedInst, getFmt inst.opcode ≠ none → inst.opcode ≠ .fence := by
    intro inst format fence
    rw [fence] at format
    exact format rfl
  cases shown : disasmText one with
  | none =>
    have raw := (shown_as_word one).mpr shown
    have unnamed := wordText_unnamed one.raw
    rw [← raw, same] at unnamed
    cases shown' : disasmText other with
    | none =>
      have raw' := (shown_as_word other).mpr shown'
      rw [raw, raw', left.raw, right.raw] at same
      rw [wordText_shows word word' same]
    | some text =>
      have named := disasmText_named other
      rw [decodeDisasm, shown'] at unnamed
      rw [shown'] at named
      exact absurd (named.symm.trans unnamed) (by decide)
  | some text =>
    have named := disasmText_named one
    rw [shown] at named
    have printing : decodeDisasm one = text := by rw [decodeDisasm, shown]; rfl
    cases shown' : disasmText other with
    | none =>
      have unnamed := wordText_unnamed other.raw
      rw [← (shown_as_word other).mpr shown', ← same, printing] at unnamed
      exact absurd (named.symm.trans unnamed) (by decide)
    | some text' =>
      have printing' : decodeDisasm other = text' := by rw [decodeDisasm, shown']; rfl
      obtain rfl : text = text' := printing.symm.trans (same.trans printing')
      obtain ⟨mn, form, printed⟩ := text_printed one text (unfenced one (left.opcode ▸ known)) shown
      obtain ⟨mn', form', printed'⟩ :=
        text_printed other text (unfenced other (right.opcode ▸ known')) shown'
      obtain ⟨rfl, operands⟩ := form_shown one other text mn mn' form form' printed printed'
      rw [unprinted_hidden one text mn form' shown printed]
      apply slices_masked _ word word' _ (slices_cover form')
      exact List.forall_iff_forall_mem.mp
        (slices_told word word' one other left right form' printed.fields printed'.fields operands)

/-- Words that differ in hidden bits alone agree in a field outside them. -/
theorem clear_slice (hidden field word word' : Word) (start n : Nat)
    (inside : ∀ i : Fin n, field.getLsbD (start + i.val) = true) (clear : hidden &&& field = 0)
    (same : word &&& ~~~hidden = word' &&& ~~~hidden) : SameSlice word word' (start, n) := by
  apply masked_slice (~~~hidden) word word' start n _ same
  intro i
  have bit := inside i
  have at' := congrArg (BitVec.getLsbD · (start + i.val)) clear
  rw [BitVec.getLsbD_and, bit, Bool.and_true] at at'
  have none : hidden.getLsbD (start + i.val) = false := at'.trans BitVec.getLsbD_zero
  rw [BitVec.getLsbD_not, none, decide_eq_true (BitVec.lt_of_getLsbD bit)]
  rfl

/-- No text leaves out the opcode, the destination or the first source. -/
theorem unprinted_clear (inst : DecodedInst) : unprinted inst &&& 0x000F8FFF = 0 := by
  have fp : ∀ funct7, unprintedFp funct7 &&& 0x000F8FFF = 0 := by decide
  rw [unprinted]
  split
  · exact BitVec.zero_and
  · cases inst.opcode with
    | jalr => exact (by decide : (0x00007000 : Word) &&& 0x000F8FFF = 0)
    | amo =>
      dsimp only
      split <;> decide
    | fp => exact fp inst.funct7
    | _ => exact BitVec.zero_and

section Masked

variable (word word' : Word) (one other : DecodedInst) (left : Extracted word 4 one)
  (right : Extracted word' 4 other)
  (same : word &&& ~~~unprinted one = word' &&& ~~~unprinted one)

include left right same

theorem masked_registers : other.opcode = one.opcode ∧ other.rd = one.rd ∧ other.rs1 = one.rs1 := by
  have told : ∀ field : Word, 0x000F8FFF &&& field = field → unprinted one &&& field = 0 := by
    intro field part
    rw [← part, ← BitVec.and_assoc, unprinted_clear]
    exact BitVec.zero_and
  have opcode := clear_slice _ 0x7F word word' 0 7 (by decide) (told _ (by decide)) same
  have rd := clear_slice _ 0xF80 word word' 7 5 (by decide) (told _ (by decide)) same
  have rs1 := clear_slice _ 0xF8000 word word' 15 5 (by decide) (told _ (by decide)) same
  rw [left.opcode, right.opcode, left.rd, right.rd, left.rs1, right.rs1]
  exact ⟨(opcodeOf_congr word word' opcode).symm, rd.symm, rs1.symm⟩

theorem masked_funct3 (clear : unprinted one &&& 0x7000 = 0) : other.funct3 = one.funct3 := by
  have slice := clear_slice _ 0x7000 word word' 12 3 (by decide) clear same
  rw [left.funct3, right.funct3]
  exact slice.symm

theorem masked_rs2 (clear : unprinted one &&& 0x01F00000 = 0) : other.rs2 = one.rs2 := by
  have slice := clear_slice _ 0x01F00000 word word' 20 5 (by decide) clear same
  rw [left.rs2, right.rs2]
  exact slice.symm

theorem masked_funct7 (clear : unprinted one &&& 0xFE000000 = 0) : other.funct7 = one.funct7 := by
  have slice := clear_slice _ 0xFE000000 word word' 25 7 (by decide) clear same
  rw [left.funct7, right.funct7]
  exact slice.symm

theorem masked_funct5 (clear : unprinted one &&& 0xF8000000 = 0) :
    other.funct7 >>> 2 = one.funct7 >>> 2 := by
  have slice := clear_slice _ 0xF8000000 word word' 27 5 (by decide) clear same
  exact (slice_funct5 word word' one other left right slice).symm

/-- An indirect jump is told but for `funct3`. -/
theorem masked_jalr (jump : one.opcode = .jalr) (printing : disasmText one ≠ none) :
    other.imm = one.imm := by
  have mask : unprinted one = 0x7000 := by
    rw [unprinted, if_neg printing, jump]
  have slice := clear_slice _ 0xFFF00000 word word' 20 12 (by decide) (mask ▸ by decide) same
  have jump' := (masked_registers word word' one other left right same).1.trans jump
  rw [left.opcode] at jump
  rw [right.opcode] at jump'
  rw [left.imm .i (by rw [jump]; rfl), right.imm .i (by rw [jump']; rfl)]
  change immI word' = immI word
  rw [immI_field, immI_field]
  exact congrArg (BitVec.signExtend 32) slice.symm

/-- An atomic operation is told but for its ordering bits, and for the second source where
    it has none. -/
theorem masked_amo (amo : one.opcode = .amo) (printing : disasmText one ≠ none) :
    other.funct3 = one.funct3 ∧ other.funct7 >>> 2 = one.funct7 >>> 2 ∧
      (one.funct7 >>> 2 ≠ 0x02 → other.rs2 = one.rs2) := by
  have mask : unprinted one = if one.funct7 >>> 2 = 0x02 then 0x07F00000 else 0x06000000 := by
    rw [unprinted, if_neg printing, amo]
  refine ⟨?_, ?_, ?_⟩
  · apply masked_funct3 word word' one other left right same
    rw [mask]
    split <;> decide
  · apply masked_funct5 word word' one other left right same
    rw [mask]
    split <;> decide
  · intro second
    apply masked_rs2 word word' one other left right same
    rw [mask, if_neg second]
    decide

end Masked

/-- What has the same fields but for those that are left out is printed alike. -/
theorem fp_alike (one other : DecodedInst) (funct7 : other.funct7 = one.funct7)
    (rd : other.rd = one.rd) (rs1 : other.rs1 = one.rs1)
    (funct3 : unprintedFp one.funct7 &&& 0x7000 = 0 → other.funct3 = one.funct3)
    (rs2 : unprintedFp one.funct7 &&& 0x01F00000 = 0 → other.rs2 = one.rs2) :
    disasmFp other = disasmFp one := by
  simp only [disasmFp, disasmThree, funct7, rd, rs1]
  split
  next field => rw [rs2 (field ▸ by decide)]
  next field => rw [rs2 (field ▸ by decide)]
  next field => rw [rs2 (field ▸ by decide)]
  next field => rw [rs2 (field ▸ by decide)]
  next => rfl
  next field => rw [rs2 (field ▸ by decide), funct3 (field ▸ by decide)]
  next field => rw [rs2 (field ▸ by decide), funct3 (field ▸ by decide)]
  next field => rw [rs2 (field ▸ by decide), funct3 (field ▸ by decide)]
  next field => rw [rs2 (field ▸ by decide)]
  next field => rw [rs2 (field ▸ by decide)]
  next field => rw [funct3 (field ▸ by decide)]
  next => rfl
  next => rfl

theorem amo_alike (one other : DecodedInst) (rd : other.rd = one.rd) (rs1 : other.rs1 = one.rs1)
    (funct3 : other.funct3 = one.funct3) (funct5 : other.funct7 >>> 2 = one.funct7 >>> 2)
    (rs2 : one.funct7 >>> 2 ≠ 0x02 → other.rs2 = one.rs2) : disasmAmo other = disasmAmo one := by
  simp only [disasmAmo, rd, rs1, funct3, funct5]
  by_cases reserved : one.funct7 >>> 2 = 0x02
  · simp only [if_pos reserved]
  · rw [rs2 reserved]

/-- Only the texts of three opcodes leave bits out. -/
theorem unprinted_opcodes (inst : DecodedInst) (hides : unprinted inst ≠ 0) :
    disasmText inst ≠ none ∧
      (inst.opcode = .jalr ∨ inst.opcode = .amo ∨
        inst.opcode = .fp ∧ unprinted inst = unprintedFp inst.funct7) := by
  rw [unprinted] at hides
  split at hides
  next => exact absurd rfl hides
  next printing =>
    refine ⟨printing, ?_⟩
    cases opcode : inst.opcode with
    | jalr => exact .inl rfl
    | amo => exact .inr (.inl rfl)
    | fp =>
      refine .inr (.inr ⟨rfl, ?_⟩)
      rw [unprinted, if_neg printing, opcode]
    | _ =>
      rw [opcode] at hides
      exact absurd rfl hides

/-- Where nothing is left out, the instructions are one. -/
theorem whole_same (word word' : Word) (one other : DecodedInst)
    (decoded : decode word = some one) (decoded' : decode word' = some other)
    (same : word &&& ~~~unprinted one = word' &&& ~~~unprinted one)
    (whole : unprinted one = 0) : one = other := by
  rw [whole] at same
  have words : word = word' := (BitVec.and_allOnes.symm.trans same).trans BitVec.and_allOnes
  subst words
  exact Option.some.inj (decoded.symm.trans decoded')

/-- Words that differ in hidden bits alone are printed alike. -/
theorem masked_alike (word word' : Word) (one other : DecodedInst)
    (decoded : decode word = some one) (decoded' : decode word' = some other)
    (same : word &&& ~~~unprinted one = word' &&& ~~~unprinted one) :
    decodeDisasm one = decodeDisasm other := by
  obtain ⟨-, left⟩ := decoded_extracted word one decoded
  obtain ⟨-, right⟩ := decoded_extracted word' other decoded'
  by_cases whole : unprinted one = 0
  · rw [whole_same word word' one other decoded decoded' same whole]
  obtain ⟨printing, opcodes⟩ := unprinted_opcodes one whole
  obtain ⟨opcode, rd, rs1⟩ := masked_registers word word' one other left right same
  suffices texts : disasmText other = disasmText one by
    obtain ⟨text, shown⟩ := Option.ne_none_iff_exists'.mp printing
    rw [decodeDisasm, decodeDisasm, texts, shown]
    rfl
  rcases opcodes with jump | amo | ⟨fp, mask⟩
  · have imm := masked_jalr word word' one other left right same jump printing
    simp only [disasmText, opcode, jump, rd, rs1, imm]
  · obtain ⟨funct3, funct5, rs2⟩ := masked_amo word word' one other left right same amo printing
    simp only [disasmText, opcode, amo]
    exact amo_alike one other rd rs1 funct3 funct5 rs2
  · simp only [disasmText, opcode, fp]
    have tail : ∀ funct7, unprintedFp funct7 &&& 0xFE000000 = 0 := by decide
    have funct7 := masked_funct7 word word' one other left right same (mask ▸ tail one.funct7)
    refine fp_alike one other funct7 rd rs1 ?_ ?_
    · rw [← mask]
      exact masked_funct3 word word' one other left right same
    · rw [← mask]
      exact masked_rs2 word word' one other left right same

/-- Words are printed alike exactly when they differ in the bits that are left out alone. -/
theorem same_text_iff (word word' : Word) (one other : DecodedInst)
    (decoded : decode word = some one) (decoded' : decode word' = some other) :
    decodeDisasm one = decodeDisasm other ↔
      word &&& ~~~unprinted one = word' &&& ~~~unprinted one :=
  ⟨alike_masked word word' one other decoded decoded',
    masked_alike word word' one other decoded decoded'⟩

/-- `jalr ra, 0(ra)`, with and without ones in the field that no text mentions. -/
theorem calls_alike :
    decodeDisasm (DecodeCoverage.fieldsOf 0x000080E7) =
      decodeDisasm (DecodeCoverage.fieldsOf 0x0000F0E7) :=
  (same_text_iff 0x000080E7 0x0000F0E7 _ _ (DecodeCoverage.decode_fieldsOf _ .i rfl)
    (DecodeCoverage.decode_fieldsOf _ .i rfl)).mpr (by decide)

/-! ## Running what is printed alike -/

/-- The executor reads the raw word of an illegal instruction alone. -/
theorem execute_alike (host : HostFloat) (emu : Emulator) (one other : DecodedInst)
    (switched : execSwitch host emu other = execSwitch host emu one)
    (lawful : ¬ Illegal (execSwitch host emu one)) : execute host emu other = execute host emu one := by
  rw [execute, execute, switched]
  cases outcome : execSwitch host emu one with
  | next after nextPc effect => rfl
  | unknown after =>
    rw [outcome] at lawful
    exact absurd trivial lawful
  | except after cause addr =>
    rw [outcome] at lawful
    have other : cause ≠ excIllegalInst := lawful
    dsimp only
    rw [if_neg other, if_neg other]
  | raised after cause => rfl
  | stopped after => rfl

theorem jalr_switched (host : HostFloat) (emu : Emulator) (one other : DecodedInst)
    (jump : one.opcode = .jalr) (opcode : other.opcode = one.opcode) (rd : other.rd = one.rd)
    (rs1 : other.rs1 = one.rs1) (imm : other.imm = one.imm)
    (length : instLen other = instLen one) :
    execSwitch host emu other = execSwitch host emu one := by
  simp only [execSwitch, opcode, jump, rd, rs1, imm, seqPc, length]

theorem amo_switched (host : HostFloat) (emu : Emulator) (one other : DecodedInst)
    (amo : one.opcode = .amo) (opcode : other.opcode = one.opcode) (rd : other.rd = one.rd)
    (rs1 : other.rs1 = one.rs1) (funct3 : other.funct3 = one.funct3)
    (funct5 : other.funct7 >>> 2 = one.funct7 >>> 2)
    (rs2 : one.funct7 >>> 2 ≠ 0x02 → other.rs2 = one.rs2)
    (length : instLen other = instLen one) :
    execSwitch host emu other = execSwitch host emu one := by
  have reserved : ∀ addr, lrAccess other addr = lrAccess one addr := by
    intro addr
    funext after pa
    simp only [lrAccess, rd, seqPc, length]
  simp only [execSwitch, opcode, amo]
  by_cases lr : one.funct7 >>> 2 = 0x02
  · simp only [execAmo, funct3, funct5, rs1, reserved, if_pos lr]
  · have conditional : ∀ addr, scAccess other addr = scAccess one addr := by
      intro addr
      funext after pa
      simp only [scAccess, rd, rs2 lr, seqPc, length]
    have modify : ∀ addr, amoAccess other addr = amoAccess one addr := by
      intro addr
      funext after pa
      simp only [amoAccess, rd, rs2 lr, funct5, seqPc, length]
    simp only [execAmo, funct3, funct5, rs1, conditional, modify, if_neg lr]

/-- A listing tells how its instructions run: words that are printed alike execute alike on
    every machine, but for the floating-point operations whose text leaves bits out. -/
theorem same_text_runs (word word' : Word) (one other : DecodedInst)
    (decoded : decode word = some one) (decoded' : decode word' = some other)
    (told : one.opcode = .fp → unprinted one = 0) (same : decodeDisasm one = decodeDisasm other)
    (host : HostFloat) (emu : Emulator) : execute host emu other = execute host emu one := by
  have masked := alike_masked word word' one other decoded decoded' same
  obtain ⟨-, left⟩ := decoded_extracted word one decoded
  obtain ⟨-, right⟩ := decoded_extracted word' other decoded'
  by_cases whole : unprinted one = 0
  · rw [whole_same word word' one other decoded decoded' masked whole]
  obtain ⟨printing, opcodes⟩ := unprinted_opcodes one whole
  obtain ⟨opcode, rd, rs1⟩ := masked_registers word word' one other left right masked
  have length := right.length.trans left.length.symm
  rcases opcodes with jump | amo | ⟨fp, -⟩
  · have imm := masked_jalr word word' one other left right masked jump printing
    apply execute_alike host emu one other
    · exact jalr_switched host emu one other jump opcode rd rs1 imm length
    · simp only [execSwitch, jump]
      exact writeBack_lawful _ _ _ _ _
  · obtain ⟨funct3, funct5, rs2⟩ := masked_amo word word' one other left right masked amo printing
    apply execute_alike host emu one other
    · exact amo_switched host emu one other amo opcode rd rs1 funct3 funct5 rs2 length
    · have shown : (disasmAmo one).isSome = true := by
        rw [Option.isSome_iff_ne_none]
        simpa only [disasmText, amo] using printing
      rw [disasmAmo_shown] at shown
      obtain ⟨word, listed⟩ := of_decide_eq_true shown
      simp only [execSwitch, amo]
      exact amo_lawful emu one word (by simpa only [List.contains_iff_mem] using listed)
  · exact absurd (told fp) whole

/-- The two calls go to the same place. -/
theorem calls_run_alike :
    execute idleHost (emuInit (fun _ => 0)) (DecodeCoverage.fieldsOf 0x0000F0E7) =
      execute idleHost (emuInit (fun _ => 0)) (DecodeCoverage.fieldsOf 0x000080E7) :=
  same_text_runs 0x000080E7 0x0000F0E7 _ _ (DecodeCoverage.decode_fieldsOf _ .i rfl)
    (DecodeCoverage.decode_fieldsOf _ .i rfl) (fun fp => absurd fp (by decide)) (by decide)
    idleHost (emuInit (fun _ => 0))

end RvEmu.PrintedFields
