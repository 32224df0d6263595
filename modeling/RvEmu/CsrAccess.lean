import RvEmu.BaseInstructions

/-!
# Access to the control and status registers

A CSR instruction carries the number of its register in the upper twelve bits.
The decoder reads them as the immediate of format I, which is signed, and the
switches over CSR numbers compare with the sign-extended word. Numbers below
0x800 come through as they are, and the six operations do what they say on every
such register. The cycle counter at 0xB00 does not come through.
-/

namespace RvEmu.CsrAccess

open InstructionSet BaseInstructions StepAnatomy

/-! ## The instructions -/

/-- The operations, with a register or a five-bit number for their source. -/
inductive CsrOp where
  | rw
  | rs
  | rc
  | rwi
  | rsi
  | rci
deriving DecidableEq

/-- The `funct3` of each operation. -/
def CsrOp.funct3 : CsrOp → BitVec 3
  | .rw => 1
  | .rs => 2
  | .rc => 3
  | .rwi => 5
  | .rsi => 6
  | .rci => 7

/-- The source operand. -/
def CsrOp.source (x : Reg → Word) (rs1 : Reg) : CsrOp → Word
  | .rw | .rs | .rc => x rs1
  | .rwi | .rsi | .rci => rs1.setWidth 32

/-- What is written to the register, from its old value and the source. -/
def CsrOp.written (old source : Word) : CsrOp → Word
  | .rw | .rwi => source
  | .rs | .rsi => old ||| source
  | .rc | .rci => old &&& ~~~source

/-- The instruction word. -/
def csrWord (op : CsrOp) (name : CsrName) (rd rs1 : Reg) : Word :=
  (name.number.setWidth 12 ++ rs1 ++ op.funct3 ++ rd ++ 0x73#7 : BitVec (12 + 5 + 3 + 5 + 7))

/-- Decoding and executing the instruction reads the register into `rd`, writes it,
    and goes on to the next word; nothing else changes. -/
def CsrLaw (host : HostFloat) (emu : Emulator) (op : CsrOp) (name : CsrName) (rd rs1 : Reg) :
    Prop :=
  ∃ inst old, decode (csrWord op name rd rs1) = some inst ∧
    csrRead emu.csr name.number = some old ∧
    execute host emu inst =
      (.retired .quiet,
        { emu with
          csr := (csrWrite emu.csr name.number (op.written old (op.source emu.rf.regs rs1))).2
          rf := { emu.rf with regs := put emu.rf.regs rd old, pc := emu.rf.pc + 4 } })

/-! ## The number of the register -/

/-- The switches know every name by its number. -/
theorem csrNamed_self (name : CsrName) : csrNamed name.number = some name := by
  cases name <;> rfl

/-- A number below 0x800 is its own sign extension. -/
theorem number_extended (name : CsrName) (low : name.number < 0x800) :
    (name.number.setWidth 12).signExtend 32 = name.number := by
  revert low
  cases name <;> decide

/-- Sign extension changes a larger one to a number that no switch knows. -/
theorem number_lost (name : CsrName) (high : ¬ name.number < 0x800) :
    csrNamed ((name.number.setWidth 12).signExtend 32) = none := by
  revert high
  cases name <;> decide

/-- A sufficient level passes the test. -/
theorem privileged_ok (priv : Word) (name : CsrName)
    (privileged : (name.number >>> 8) &&& 0x3 ≤ priv) : csrPrivOk priv name.number = true := by
  have level : (name.number >>> 8) &&& 0x3 ≠ 2 := by
    cases name <;> decide
  simp only [csrPrivOk, if_neg level]
  exact decide_eq_true privileged

theorem writable_ok (name : CsrName) : csrWritable name.number = true := by
  cases name <;> decide

/-! ## Decoding -/

section Access

variable (host : HostFloat) (emu : Emulator) (op : CsrOp) (name : CsrName) (rd rs1 : Reg)

/-- The fields of the word are those it was put together from. -/
theorem csrWord_fields :
    (csrWord op name rd rs1).extractLsb' 0 7 = 0x73#7 ∧
      (csrWord op name rd rs1).extractLsb' 7 5 = rd ∧
      (csrWord op name rd rs1).extractLsb' 12 3 = op.funct3 ∧
      (csrWord op name rd rs1).extractLsb' 15 5 = rs1 ∧
      (csrWord op name rd rs1).extractLsb' 20 12 = name.number.setWidth 12 := by
  rw [csrWord]
  simp (disch := decide) only [BitVec.extractLsb'_append_eq_of_le,
    BitVec.extractLsb'_append_eq_of_add_le, BitVec.extractLsb'_eq_self, Nat.sub_self,
    Nat.reduceSub, and_self]

/-- No CSR instruction is one of the other system instructions. -/
theorem csrWord_regular :
    csrWord op name rd rs1 ≠ rawMret ∧ csrWord op name rd rs1 ≠ rawSret ∧
      csrWord op name rd rs1 &&& 0xFE007FFF ≠ 0x12000073 ∧
      csrWord op name rd rs1 ≠ rawEcall ∧ csrWord op name rd rs1 ≠ rawEbreak := by
  obtain ⟨-, -, funct3, -, -⟩ := csrWord_fields op name rd rs1
  generalize csrWord op name rd rs1 = word at funct3 ⊢
  have nonzero : word.extractLsb' 12 3 ≠ 0 := by
    rw [funct3]
    cases op <;> decide
  have masked : (word &&& 0xFE007FFF).extractLsb' 12 3 = word.extractLsb' 12 3 := by
    have ones : (0xFE007FFF : Word).extractLsb' 12 3 = BitVec.allOnes 3 := by decide
    rw [BitVec.extractLsb'_and, ones, BitVec.and_allOnes]
  refine ⟨?_, ?_, ?_, ?_, ?_⟩
  · rintro rfl
    exact nonzero (by decide)
  · rintro rfl
    exact nonzero (by decide)
  · intro same
    rw [← masked, same] at nonzero
    exact nonzero (by decide)
  · rintro rfl
    exact nonzero (by decide)
  · rintro rfl
    exact nonzero (by decide)

/-- The operation and its source, as the switch on `funct3` has them. -/
theorem operand_written (inst : DecodedInst) (old : Word) (funct3 : inst.funct3 = op.funct3)
    (source : inst.rs1 = rs1) :
    csrOperand inst old (regRead emu.rf inst.rs1) =
      some (op.written old (op.source emu.rf.regs rs1)) := by
  subst source
  cases op with
  | rw => simp only [csrOperand, funct3, CsrOp.funct3]; rfl
  | rs => simp only [csrOperand, funct3, CsrOp.funct3]; rfl
  | rc => simp only [csrOperand, funct3, CsrOp.funct3]; rfl
  | rwi => simp only [csrOperand, funct3, CsrOp.funct3]; rfl
  | rsi => simp only [csrOperand, funct3, CsrOp.funct3]; rfl
  | rci => simp only [csrOperand, funct3, CsrOp.funct3]; rfl

/-- The word is decoded as a system instruction, with the sign-extended number. -/
theorem csrWord_decoded :
    ∃ inst, decode (csrWord op name rd rs1) = some inst ∧ inst.rd = rd ∧ inst.rs1 = rs1 ∧
      inst.funct3 = op.funct3 ∧ instLen inst = 4 ∧
      inst.imm = (name.number.setWidth 12).signExtend 32 ∧
      execSwitch host emu inst = execCsr emu inst := by
  obtain ⟨opcode, rdField, funct3, rs1Field, number⟩ := csrWord_fields op name rd rs1
  obtain ⟨mret, sret, fence, ecall, ebreak⟩ := csrWord_regular op name rd rs1
  have kind : opcodeOf (csrWord op name rd rs1) = .system := by
    rw [opcodeOf, opcode]
    rfl
  have known : getFmt (opcodeOf (csrWord op name rd rs1)) = some .i := by
    rw [kind]
    rfl
  obtain ⟨inst, decoded, extracted⟩ := decode_extracts _ .i known false
  have same : withLength inst false = inst := rfl
  rw [same] at extracted
  refine ⟨inst, decoded, extracted.rd.trans rdField, extracted.rs1.trans rs1Field,
    extracted.funct3.trans funct3, extracted.length, ?_, ?_⟩
  · rw [extracted.imm .i known, immOf, immI_field, immediateI, number]
  · simp only [execSwitch, extracted.opcode, kind, execSystem, extracted.raw]
    rw [if_neg mret, if_neg sret, if_neg fence, if_neg ecall, if_neg ebreak]

/-- Below 0x800 the law holds. -/
theorem low_law (privileged : (name.number >>> 8) &&& 0x3 ≤ emu.priv)
    (low : name.number < 0x800) : CsrLaw host emu op name rd rs1 := by
  obtain ⟨inst, decoded, rdField, rs1Field, funct3, length, number, switched⟩ :=
    csrWord_decoded host emu op name rd rs1
  rw [number_extended name low] at number
  have read : csrRead emu.csr name.number = some (csrValue emu.csr name) := by
    rw [csrRead, csrNamed_self]
    rfl
  have write (value : Word) : (csrWrite emu.csr name.number value).1 = true := by
    rw [csrWrite, csrNamed_self]
  have allowed : ¬ (!csrPrivOk emu.priv name.number) = true := by
    rw [privileged_ok emu.priv name privileged]
    decide
  have writable (others : Prop) : ¬ ((!csrWritable name.number) = true ∧ others) := by
    rw [writable_ok name]
    exact fun both => Bool.noConfusion both.1
  refine ⟨inst, csrValue emu.csr name, decoded, read, ?_⟩
  have executed : execCsr emu inst =
      writeBack
        { emu with
          csr := (csrWrite emu.csr name.number
            (op.written (csrValue emu.csr name) (op.source emu.rf.regs rs1))).2 }
        rd (csrValue emu.csr name) (emu.rf.pc + 4) .quiet := by
    simp only [execCsr, number]
    rw [if_neg allowed, if_neg (writable _), read]
    simp only [operand_written emu op rs1 inst _ funct3 rs1Field, write, if_true, rdField, seqPc,
      length]
  simp only [execute, switched, executed, writeBack, regWrite_put]

/-- From 0x800 on the register is unknown, and the instruction illegal. -/
theorem high_illegal (high : ¬ name.number < 0x800) :
    ∃ inst, decode (csrWord op name rd rs1) = some inst ∧
      execSwitch host emu inst = .except emu excIllegalInst 0 := by
  obtain ⟨inst, decoded, -, -, -, -, number, switched⟩ := csrWord_decoded host emu op name rd rs1
  have unknown : csrRead emu.csr inst.imm = none := by
    rw [csrRead, number, number_lost name high]
    rfl
  refine ⟨inst, decoded, ?_⟩
  rw [switched]
  simp only [execCsr, unknown]
  split
  · rfl
  · split
    · rfl
    · rfl

/-- With the privilege its number asks for, a CSR instruction does what it says
    exactly on the registers numbered below 0x800. -/
theorem csr_law_iff (privileged : (name.number >>> 8) &&& 0x3 ≤ emu.priv) :
    CsrLaw host emu op name rd rs1 ↔ name.number < 0x800 := by
  constructor
  · rintro ⟨inst, old, decoded, -, executed⟩
    by_contra high
    obtain ⟨other, same, illegal⟩ := high_illegal host emu op name rd rs1 high
    rw [decoded] at same
    cases same
    have refused := congrArg Prod.fst executed
    simp only [execute, illegal] at refused
    rcases raiseOrStop_event emu excIllegalInst _ emu.rf.pc with trapped | failed
    · have differs := trapped.symm.trans refused
      cases differs
    · have differs := failed.symm.trans refused
      cases differs
  · exact low_law host emu op name rd rs1 privileged

end Access

/-! ## Two registers -/

/-- A machine-mode state with a handler, and a value in `x5` and in the scratch register. -/
def scratchState : Emulator :=
  { emuInit (fun _ => 0) with
    rf := { regfileInit with regs := fun r => if r = 5 then 0x80000001 else 0, pc := 0x1000 }
    csr := { csrInit with mtvec := 0x100, mscratch := 0xFFFF0000 }
    state := .running }

/-- `csrrw x5, mscratch, x5` exchanges the two, whatever the order of its writes. -/
theorem scratch_exchanged :
    ∃ inst, decode 0x340292F3 = some inst ∧
      (execute idleHost scratchState inst).2.rf.regs 5 = 0xFFFF0000 ∧
      (execute idleHost scratchState inst).2.csr.mscratch = 0x80000001 := by
  have word : csrWord .rw .mscratch 5 5 = 0x340292F3 := by decide
  obtain ⟨inst, old, decoded, read, executed⟩ :=
    (csr_law_iff idleHost scratchState .rw .mscratch 5 5 (by decide)).mpr (by decide)
  have value : old = 0xFFFF0000 := (Option.some.inj read).symm
  rw [word] at decoded
  rw [value] at executed
  refine ⟨inst, decoded, ?_, ?_⟩
  · rw [executed]
    decide
  · rw [executed]
    decide

/-- Reading the cycle counter in machine mode, with `csrrs x1, mcycle, x0`, is illegal. -/
theorem mcycle_illegal :
    (∃ inst, decode 0xB00020F3 = some inst ∧
        (execute idleHost scratchState inst).1 = .trapped 2 0xB00020F3) ∧
      ¬ ∀ emu op name rd rs1, (CsrName.number name >>> 8) &&& 0x3 ≤ emu.priv →
        CsrLaw idleHost emu op name rd rs1 := by
  have illegal : ∃ inst, decode 0xB00020F3 = some inst ∧
      (execute idleHost scratchState inst).1 = .trapped 2 0xB00020F3 :=
    ⟨_, rfl, by decide⟩
  constructor
  · exact illegal
  · intro always
    obtain ⟨inst, old, decoded, -, executed⟩ := always scratchState .rs .mcycle 1 0 (by decide)
    obtain ⟨other, same, trapped⟩ := illegal
    have word : csrWord .rs .mcycle 1 0 = 0xB00020F3 := by decide
    rw [word, same] at decoded
    cases decoded
    rw [executed] at trapped
    cases trapped

end RvEmu.CsrAccess
