import RvEmu.PageTables
import RvEmu.Execute

/-!
# What one instruction can do

The ways through the switch of `execute`, said once. An instruction that asks
for a data access ends after its translation in one of a few outcomes; every
other instruction ends in the state it started from, apart from the registers,
CSRs or run state that its kind may change. Invariants of the machine are proved
from these outcomes and never open the switch again.
-/

namespace RvEmu.ExecOutcome

open LittleEndian PageWalk

/-- The address and kind of the data access that an instruction translates. An
    access refused before translation asks for none. -/
def dataAccess (emu : Emulator) (inst : DecodedInst) : Option (Word × Access) :=
  let addr := regRead emu.rf inst.rs1 + inst.imm
  let amoAddr := regRead emu.rf inst.rs1
  match inst.opcode with
  | .load => if loadMisaligned inst addr then none else some (addr, .load)
  | .loadFp => if inst.funct3 ≠ 2 ∨ addr &&& 3 ≠ 0 then none else some (addr, .load)
  | .store => if storeMisaligned inst addr then none else some (addr, .store)
  | .storeFp => if inst.funct3 ≠ 2 ∨ addr &&& 3 ≠ 0 then none else some (addr, .store)
  | .amo =>
    if inst.funct3 ≠ 2 ∨ amoAddr &&& 3 ≠ 0 then none
    else some (amoAddr, if inst.funct7 >>> 2 = 0x02 then .load else .store)
  | _ => none

/-- The part of a memory instruction that follows the translation. -/
def accessOf (inst : DecodedInst) (addr : Word) : Emulator → Word → Exec :=
  match inst.opcode with
  | .load => loadAccess inst addr
  | .loadFp => loadFpAccess inst addr
  | .store => storeAccess inst addr
  | .storeFp => storeFpAccess inst addr
  | .amo =>
    if inst.funct7 >>> 2 = 0x02 then lrAccess inst addr
    else if inst.funct7 >>> 2 = 0x03 then scAccess inst addr
    else amoAccess inst addr
  | _ => fun emu _ => .unknown emu

/-- An instruction with a data access translates it and then goes on. -/
theorem execSwitch_access (host : HostFloat) (emu : Emulator) (inst : DecodedInst) (addr : Word)
    (acc : Access) (asks : dataAccess emu inst = some (addr, acc)) :
    execSwitch host emu inst = translateThen emu addr acc (accessOf inst addr) := by
  simp only [dataAccess] at asks
  simp only [execSwitch, accessOf]
  cases kind : inst.opcode <;> simp only [kind] at asks ⊢
  case load =>
    split at asks
    · cases asks
    · rename_i aligned
      cases asks
      simp only [execLoad, if_neg aligned]
  case loadFp =>
    split at asks
    · cases asks
    · rename_i aligned
      cases asks
      obtain ⟨width, low⟩ := not_or.mp aligned
      simp only [execLoadFp, if_neg width, if_neg low]
  case store =>
    split at asks
    · cases asks
    · rename_i aligned
      cases asks
      simp only [execStore, if_neg aligned]
  case storeFp =>
    split at asks
    · cases asks
    · rename_i aligned
      cases asks
      obtain ⟨width, low⟩ := not_or.mp aligned
      simp only [execStoreFp, if_neg width, if_neg low]
  case amo =>
    split at asks
    · cases asks
    · rename_i aligned
      cases asks
      obtain ⟨width, low⟩ := not_or.mp aligned
      simp only [execAmo, if_neg width, if_neg low]
      split
      · rfl
      · split
        · rfl
        · rfl
  all_goals cases asks

/-- A performed write of some value through the accessor of the width. -/
def Written (mem : Memory) (pa : Word) : Width → Memory → Prop
  | .byte, after => ∃ val, memoryWrite8 mem pa val = (true, after)
  | .half, after => ∃ val, memoryWrite16 mem pa val = (true, after)
  | .word, after => ∃ val, memoryWrite32 mem pa val = (true, after)

/-- The ways a memory instruction ends once its address is translated. The state
    named is the one after the translation. -/
inductive AccessOutcome (inst : DecodedInst) (addr : Word) (acc : Access) (pa : Word)
    (emu : Emulator) : Exec → Prop where
  | loaded (rf : Regfile) (samePc : rf.pc = emu.rf.pc) :
      AccessOutcome inst addr acc pa emu (.next { emu with rf := rf } (seqPc emu inst) .quiet)
  | reserved (rf : Regfile) (samePc : rf.pc = emu.rf.pc) (aligned : addr &&& 3 = 0) :
      AccessOutcome inst addr acc pa emu
        (.next { emu with reservationValid := true, reservationAddr := pa, rf := rf }
          (seqPc emu inst) (.loadReserved pa))
  | timerSet (value : DWord) (storing : acc = .store) :
      AccessOutcome inst addr acc pa emu
        (.next { emu with mtimecmp := value } (seqPc emu inst) .quiet)
  | stored (width : Width) (mem : Memory) (rf : Regfile) (samePc : rf.pc = emu.rf.pc)
      (storing : acc = .store) (written : Written emu.mem pa width mem)
      (natural : addr.toNat % width.bytes = 0)
      (narrow : width = .word ∨ (inst.opcode = .store ∧ inst.funct3 = width.funct3)) :
      AccessOutcome inst addr acc pa emu
        (.next (dropReservation { emu with mem := mem, rf := rf } pa) (seqPc emu inst)
          (.stored pa width))
  | conditional (mem : Memory) (storing : acc = .store)
      (written : Written emu.mem pa .word mem) (natural : addr.toNat % 4 = 0)
      (held : emu.reservationValid = true ∧ emu.reservationAddr = pa) :
      AccessOutcome inst addr acc pa emu
        (.next
          { emu with mem := mem, reservationValid := false, rf := regWrite emu.rf inst.rd 0 }
          (seqPc emu inst) (.storeConditional pa true))
  | lost :
      AccessOutcome inst addr acc pa emu
        (.next { emu with reservationValid := false, rf := regWrite emu.rf inst.rd 1 }
          (seqPc emu inst) (.storeConditional pa false))
  | unknown : AccessOutcome inst addr acc pa emu (.unknown emu)
  | fault (cause : Word) (code : cause < 16) :
      AccessOutcome inst addr acc pa emu (.except emu cause addr)

/-- The ways an instruction leaves the switch. -/
inductive Outcome (emu : Emulator) (inst : DecodedInst) : Exec → Prop where
  | registers (rf : Regfile) (nextPc : Word) (samePc : rf.pc = emu.rf.pc) :
      Outcome emu inst (.next { emu with rf := rf } nextPc .quiet)
  | floating (rf : Regfile) (flags : Word) (samePc : rf.pc = emu.rf.pc) :
      Outcome emu inst
        (.next { emu with rf := rf, csr := { emu.csr with fflags := flags } } (seqPc emu inst)
          .quiet)
  | csrWritten (name : CsrName) (val : Word) (rf : Regfile) (samePc : rf.pc = emu.rf.pc)
      (kind : inst.opcode = .system) (addressed : name.number = inst.imm)
      (allowed : csrPrivOk emu.priv name.number = true)
      (operand : csrOperand inst (csrValue emu.csr name) (regRead emu.rf inst.rs1) = some val) :
      Outcome emu inst
        (.next { emu with csr := csrStored emu.csr val name, rf := rf } (seqPc emu inst) .quiet)
  | mret (raw : inst.raw = rawMret) (level : emu.priv = privM) :
      Outcome emu inst (.next (trapMret emu).2 (trapMret emu).1 .quiet)
  | sret (raw : inst.raw = rawSret) (level : ¬ emu.priv < privS) :
      Outcome emu inst (.next (trapSret emu).2 (trapSret emu).1 .quiet)
  | hostCalled (raw : inst.raw = rawEcall) (noHandler : emu.csr.mtvec = 0 ∧ emu.csr.stvec = 0)
      (level : emu.priv = privM) :
      Outcome emu inst (.next (hostCall emu) (seqPc emu inst) .quiet)
  | halted :
      Outcome emu inst
        (.next { emu with state := .halted, exitCode := 0 } (seqPc emu inst) .quiet)
  | unknown : Outcome emu inst (.unknown emu)
  | except (cause addr : Word) (code : cause < 16) : Outcome emu inst (.except emu cause addr)
  | raised (cause : Word) (code : cause < 16) : Outcome emu inst (.raised emu cause)
  | stopped : Outcome emu inst (.stopped emu)
  | accessed (addr : Word) (acc : Access) (pa : Word) (after : Emulator) (exit : Exec)
      (asks : dataAccess emu inst = some (addr, acc))
      (translated : mmuTranslate emu addr acc = (.ok pa, after))
      (rest : AccessOutcome inst addr acc pa after exit) : Outcome emu inst exit

/-! ## The data accesses -/

/-- A refused word write leaves the memory alone. -/
theorem memoryWrite32_refused (mem : Memory) (pa val : Word)
    (refused : ¬ (memoryWrite32 mem pa val).1 = true) : (memoryWrite32 mem pa val).2 = mem := by
  simp only [memoryWrite32] at refused ⊢
  split
  · rfl
  · rename_i inside
    rw [if_neg inside] at refused
    exact absurd rfl refused

theorem memoryWrite16_refused (mem : Memory) (pa : Word) (val : Half)
    (refused : ¬ (memoryWrite16 mem pa val).1 = true) : (memoryWrite16 mem pa val).2 = mem := by
  simp only [memoryWrite16] at refused ⊢
  split
  · rfl
  · rename_i inside
    rw [if_neg inside] at refused
    exact absurd rfl refused

theorem memoryWrite8_refused (mem : Memory) (pa : Word) (val : Byte)
    (refused : ¬ (memoryWrite8 mem pa val).1 = true) : (memoryWrite8 mem pa val).2 = mem := by
  simp only [memoryWrite8] at refused ⊢
  split
  · rfl
  · rename_i ram
    rw [if_neg ram] at refused
    split
    · rfl
    · rename_i inside
      rw [if_neg inside] at refused
      exact absurd rfl refused

/-- Every store path ends with the store performed, or with an access fault in
    the state it started from. -/
theorem finishStore_outcome (emu : Emulator) (inst : DecodedInst) (addr pa : Word)
    (width : Width) (written : Bool × Memory)
    (performed : written.1 = true → Written emu.mem pa width written.2)
    (refused : ¬ written.1 = true → written.2 = emu.mem)
    (natural : addr.toNat % width.bytes = 0)
    (narrow : width = .word ∨ (inst.opcode = .store ∧ inst.funct3 = width.funct3)) :
    AccessOutcome inst addr .store pa emu (finishStore emu inst addr pa width written) := by
  simp only [finishStore]
  by_cases done : written.1 = true
  · rw [if_pos done]
    exact .stored width written.2 emu.rf rfl rfl (performed done) natural narrow
  · rw [if_neg done, refused done]
    exact .fault excStoreAccess (by decide)

/-- An address whose two low bits are clear is a multiple of four. -/
theorem low_two_clear (addr : Word) (clear : addr &&& 3 = 0) : addr.toNat % 4 = 0 := by
  have masked : (addr &&& 3).toNat = addr.toNat % 2 ^ 2 := BitMasks.and_low addr 2 (by decide)
  rw [clear] at masked
  exact masked.symm

/-- The low two bits are the remainder by four. -/
theorem low_two (addr : Word) : addr &&& 3 ≠ 0 ↔ addr.toNat % 4 ≠ 0 := by
  have masked : (addr &&& 3).toNat = addr.toNat % 4 := BitMasks.and_low addr 2 (by decide)
  rw [← masked]
  exact not_congr BitVec.toNat_inj.symm

/-- An address whose low bit is clear is even. -/
theorem low_one_clear (addr : Word) (clear : addr &&& 1 = 0) : addr.toNat % 2 = 0 := by
  have masked : (addr &&& 1).toNat = addr.toNat % 2 ^ 1 := BitMasks.and_low addr 1 (by decide)
  rw [clear] at masked
  exact masked.symm

theorem loadAccess_outcome (emu : Emulator) (inst : DecodedInst) (addr pa : Word) (acc : Access) :
    AccessOutcome inst addr acc pa emu (loadAccess inst addr emu pa) := by
  simp only [loadAccess]
  split
  · exact .loaded _ (regWrite_pc _ _ _)
  · split
    · exact .unknown
    · exact .fault excLoadAccess (by decide)
    · exact .loaded _ (regWrite_pc _ _ _)

theorem loadFpAccess_outcome (emu : Emulator) (inst : DecodedInst) (addr pa : Word)
    (acc : Access) : AccessOutcome inst addr acc pa emu (loadFpAccess inst addr emu pa) := by
  simp only [loadFpAccess]
  split
  · exact .fault excLoadAccess (by decide)
  · exact .loaded _ rfl

/-- A store of any width that passed the alignment check is naturally aligned. -/
theorem storeAccess_outcome (emu : Emulator) (inst : DecodedInst) (addr pa : Word)
    (kind : inst.opcode = .store) (aligned : ¬ storeMisaligned inst addr = true) :
    AccessOutcome inst addr .store pa emu (storeAccess inst addr emu pa) := by
  simp only [storeAccess]
  split
  · exact .timerSet _ rfl
  · split
    · rename_i byteStore
      apply finishStore_outcome
      · intro done
        exact ⟨_, Prod.ext done rfl⟩
      · exact memoryWrite8_refused emu.mem pa _
      · exact Nat.mod_one _
      · exact Or.inr ⟨kind, byteStore⟩
    · rename_i halfStore
      have even : addr &&& 1 = 0 := by
        by_contra odd
        apply aligned
        simpa [storeMisaligned, halfStore] using odd
      apply finishStore_outcome
      · intro done
        exact ⟨_, Prod.ext done rfl⟩
      · exact memoryWrite16_refused emu.mem pa _
      · exact low_one_clear addr even
      · exact Or.inr ⟨kind, halfStore⟩
    · rename_i wordStore
      have low : addr &&& 3 = 0 := by
        by_contra odd
        apply aligned
        simpa [storeMisaligned, wordStore] using odd
      apply finishStore_outcome
      · intro done
        exact ⟨_, Prod.ext done rfl⟩
      · exact memoryWrite32_refused emu.mem pa _
      · exact low_two_clear addr low
      · exact Or.inl rfl
    · exact .unknown

theorem storeFpAccess_outcome (emu : Emulator) (inst : DecodedInst) (addr pa : Word)
    (low : addr &&& 3 = 0) :
    AccessOutcome inst addr .store pa emu (storeFpAccess inst addr emu pa) := by
  simp only [storeFpAccess]
  apply finishStore_outcome
  · intro done
    exact ⟨_, Prod.ext done rfl⟩
  · exact memoryWrite32_refused emu.mem pa _
  · exact low_two_clear addr low
  · exact Or.inl rfl

theorem lrAccess_outcome (emu : Emulator) (inst : DecodedInst) (addr pa : Word) (acc : Access)
    (low : addr &&& 3 = 0) : AccessOutcome inst addr acc pa emu (lrAccess inst addr emu pa) := by
  simp only [lrAccess]
  split
  · exact .fault excLoadAccess (by decide)
  · exact .reserved _ (regWrite_pc _ _ _) low

theorem scAccess_outcome (emu : Emulator) (inst : DecodedInst) (addr pa : Word)
    (low : addr &&& 3 = 0) : AccessOutcome inst addr .store pa emu (scAccess inst addr emu pa) := by
  simp only [scAccess]
  split
  · rename_i held
    split
    · rename_i done
      exact .conditional _ rfl ⟨_, Prod.ext done rfl⟩ (low_two_clear addr low) held
    · rename_i refused
      rw [memoryWrite32_refused _ _ _ refused]
      exact .fault excStoreAccess (by decide)
  · exact .lost

theorem amoAccess_outcome (emu : Emulator) (inst : DecodedInst) (addr pa : Word)
    (low : addr &&& 3 = 0) :
    AccessOutcome inst addr .store pa emu (amoAccess inst addr emu pa) := by
  unfold amoAccess
  split
  · exact .fault excStoreAccess (by decide)
  · split
    · exact .unknown
    · dsimp only
      split
      · rename_i done
        exact .stored .word _ _ (regWrite_pc _ _ _) rfl ⟨_, Prod.ext done rfl⟩
          (low_two_clear addr low) (Or.inl rfl)
      · rename_i refused
        rw [memoryWrite32_refused _ _ _ refused]
        exact .fault excStoreAccess (by decide)

/-- Once translated, the access of an instruction ends in one of the outcomes. -/
theorem accessOf_outcome (before emu : Emulator) (inst : DecodedInst) (addr pa : Word)
    (acc : Access) (asks : dataAccess before inst = some (addr, acc)) :
    AccessOutcome inst addr acc pa emu (accessOf inst addr emu pa) := by
  simp only [dataAccess] at asks
  simp only [accessOf]
  cases kind : inst.opcode <;> simp only [kind] at asks ⊢
  case load => exact loadAccess_outcome emu inst addr pa acc
  case loadFp => exact loadFpAccess_outcome emu inst addr pa acc
  case store =>
    split at asks
    · cases asks
    · rename_i aligned
      cases asks
      exact storeAccess_outcome emu inst _ pa kind aligned
  case storeFp =>
    split at asks
    · cases asks
    · rename_i aligned
      cases asks
      exact storeFpAccess_outcome emu inst _ pa (not_not.mp (not_or.mp aligned).2)
  case amo =>
    split at asks
    · cases asks
    · rename_i aligned
      have low := not_not.mp (not_or.mp aligned).2
      cases asks
      split
      · exact lrAccess_outcome emu inst _ pa _ low
      · split
        · exact scAccess_outcome emu inst _ pa low
        · exact amoAccess_outcome emu inst _ pa low
  all_goals cases asks

/-! ## Every instruction -/

theorem execEcall_outcome (emu : Emulator) (inst : DecodedInst) (raw : inst.raw = rawEcall) :
    Outcome emu inst (execEcall emu inst) := by
  simp only [execEcall]
  split
  · apply Outcome.raised
    simp only [ecallCause]
    split
    · decide
    · split
      · decide
      · decide
  · rename_i vectors
    obtain ⟨machine, supervisor⟩ := not_or.mp vectors
    split
    · exact .stopped
    · rename_i level
      exact .hostCalled raw ⟨not_not.mp machine, not_not.mp supervisor⟩ (not_not.mp level)

theorem execEbreak_outcome (emu : Emulator) (inst : DecodedInst) :
    Outcome emu inst (execEbreak emu inst) := by
  simp only [execEbreak]
  split
  · exact .raised excBreakpoint (by decide)
  · exact .halted

theorem execCsr_outcome (emu : Emulator) (inst : DecodedInst) (kind : inst.opcode = .system) :
    Outcome emu inst (execCsr emu inst) := by
  simp only [execCsr]
  split
  · exact .except excIllegalInst 0 (by decide)
  · rename_i allowed
    split
    · exact .except excIllegalInst 0 (by decide)
    · cases named : csrNamed inst.imm with
      | none =>
        simp only [csrRead, named, Option.map_none]
        exact .except excIllegalInst 0 (by decide)
      | some name =>
        have number := csrNamed_number inst.imm name named
        simp only [csrRead, csrWrite, named, Option.map_some, if_true]
        split
        · exact .unknown
        · rename_i operand
          refine .csrWritten name _ _ (regWrite_pc _ _ _) kind number ?_ operand
          rw [number]
          simpa using allowed

theorem execSystem_outcome (emu : Emulator) (inst : DecodedInst) (kind : inst.opcode = .system) :
    Outcome emu inst (execSystem emu inst) := by
  simp only [execSystem]
  split
  · rename_i raw
    split
    · exact .except excIllegalInst 0 (by decide)
    · rename_i level
      exact .mret raw (not_not.mp level)
  · split
    · rename_i raw
      split
      · exact .except excIllegalInst 0 (by decide)
      · rename_i level
        exact .sret raw level
    · split
      · split
        · exact .except excIllegalInst 0 (by decide)
        · exact .registers emu.rf _ rfl
      · split
        · rename_i raw
          exact execEcall_outcome emu inst raw
        · split
          · exact execEbreak_outcome emu inst
          · exact execCsr_outcome emu inst kind

theorem execFp_outcome (host : HostFloat) (emu : Emulator) (inst : DecodedInst) :
    Outcome emu inst (execFp host emu inst) := by
  simp only [execFp]
  cases done : fpuExecute host emu.rf emu.csr inst with
  | none => exact .unknown
  | some result =>
    obtain ⟨samePc, -, raised⟩ := fpuExecute_frame host emu.rf emu.csr inst result done
    obtain ⟨flags, csr⟩ := raised_only emu.csr result.2 raised
    obtain ⟨rf, after⟩ := result
    cases csr
    exact .floating rf flags samePc

theorem execBranch_outcome (emu : Emulator) (inst : DecodedInst) :
    Outcome emu inst (execBranch emu inst) := by
  simp only [execBranch]
  split
  · exact .unknown
  · exact .registers emu.rf _ rfl

/-- The opcodes whose instructions access data memory. -/
def memoryOpcodes : List Opcode := [.load, .loadFp, .store, .storeFp, .amo]

/-- A memory instruction that asks for no data access is refused in the same way
    in every state with these registers. -/
theorem refused_exit (host : HostFloat) (emu : Emulator) (inst : DecodedInst)
    (memory : inst.opcode ∈ memoryOpcodes) (none : dataAccess emu inst = none) :
    (∀ other, other.rf = emu.rf → execSwitch host other inst = .unknown other) ∨
      ∃ cause addr, cause < 16 ∧
        ∀ other, other.rf = emu.rf → execSwitch host other inst = .except other cause addr := by
  simp only [dataAccess] at none
  simp only [execSwitch]
  cases kind : inst.opcode <;> simp only [kind] at none memory ⊢
  case load =>
    split at none
    · rename_i misaligned
      refine Or.inr ⟨excLoadMisaligned, regRead emu.rf inst.rs1 + inst.imm, by decide, ?_⟩
      intro other same
      simp only [execLoad]
      rw [same, if_pos misaligned]
    · cases none
  case loadFp =>
    split at none
    · rename_i refused
      by_cases width : inst.funct3 ≠ 2
      · refine Or.inl ?_
        intro other same
        rw [execLoadFp, if_pos width]
      · have low := refused.resolve_left width
        refine Or.inr ⟨excLoadMisaligned, regRead emu.rf inst.rs1 + inst.imm, by decide, ?_⟩
        intro other same
        simp only [execLoadFp]
        rw [if_neg width, same, if_pos low]
    · cases none
  case store =>
    split at none
    · rename_i misaligned
      refine Or.inr ⟨excStoreMisaligned, regRead emu.rf inst.rs1 + inst.imm, by decide, ?_⟩
      intro other same
      simp only [execStore]
      rw [same, if_pos misaligned]
    · cases none
  case storeFp =>
    split at none
    · rename_i refused
      by_cases width : inst.funct3 ≠ 2
      · refine Or.inl ?_
        intro other same
        rw [execStoreFp, if_pos width]
      · have low := refused.resolve_left width
        refine Or.inr ⟨excStoreMisaligned, regRead emu.rf inst.rs1 + inst.imm, by decide, ?_⟩
        intro other same
        simp only [execStoreFp]
        rw [if_neg width, same, if_pos low]
    · cases none
  case amo =>
    split at none
    · rename_i refused
      by_cases width : inst.funct3 ≠ 2
      · refine Or.inl ?_
        intro other same
        simp only [execAmo]
        rw [if_pos width]
      · have low := refused.resolve_left width
        have code : (if inst.funct7 >>> 2 = 0x02 then excLoadMisaligned
            else excStoreMisaligned) < 16 := by
          split
          · decide
          · decide
        refine Or.inr ⟨_, regRead emu.rf inst.rs1, code, ?_⟩
        intro other same
        simp only [execAmo]
        rw [if_neg width, same, if_pos low]
    · cases none
  all_goals simp [memoryOpcodes] at memory

/-- A memory instruction without a data access was refused before it. -/
theorem noAccess_outcome (host : HostFloat) (emu : Emulator) (inst : DecodedInst)
    (memory : inst.opcode ∈ memoryOpcodes) (none : dataAccess emu inst = none) :
    Outcome emu inst (execSwitch host emu inst) := by
  rcases refused_exit host emu inst memory none with refused | ⟨cause, addr, code, refused⟩
  · rw [refused emu rfl]
    exact .unknown
  · rw [refused emu rfl]
    exact .except cause addr code

/-- The switch ends in one of the outcomes. -/
theorem execSwitch_outcome (host : HostFloat) (emu : Emulator) (inst : DecodedInst) :
    Outcome emu inst (execSwitch host emu inst) := by
  cases asked : dataAccess emu inst with
  | some request =>
    obtain ⟨addr, acc⟩ := request
    rw [execSwitch_access host emu inst addr acc asked]
    simp only [translateThen]
    cases translated : mmuTranslate emu addr acc with
    | mk result after =>
      cases result with
      | error cause =>
        obtain ⟨same, page⟩ := mmuTranslate_error emu after addr cause acc translated
        subst same
        apply Outcome.except
        rw [page]
        cases acc <;> decide
      | ok pa =>
        exact .accessed addr acc pa after _ asked translated
          (accessOf_outcome emu after inst addr pa acc asked)
  | none =>
    by_cases memory : inst.opcode ∈ memoryOpcodes
    · exact noAccess_outcome host emu inst memory asked
    · simp only [execSwitch]
      cases kind : inst.opcode <;> simp only [kind] at memory ⊢
      case alu => exact .registers _ _ (regWrite_pc _ _ _)
      case alui => exact .registers _ _ (regWrite_pc _ _ _)
      case fp => exact execFp_outcome host emu inst
      case branch => exact execBranch_outcome emu inst
      case jal => exact .registers _ _ (regWrite_pc _ _ _)
      case jalr => exact .registers _ _ (regWrite_pc _ _ _)
      case lui => exact .registers _ _ (regWrite_pc _ _ _)
      case auipc => exact .registers _ _ (regWrite_pc _ _ _)
      case system => exact execSystem_outcome emu inst kind
      case fence => exact .registers emu.rf _ rfl
      case other => exact .unknown
      all_goals simp [memoryOpcodes] at memory

/-! ## Privilege and control registers -/

/-- Ending a reservation changes its flag alone. -/
theorem dropReservation_frame (emu : Emulator) (pa : Word) :
    ∃ valid, dropReservation emu pa = { emu with reservationValid := valid } := by
  simp only [dropReservation]
  split
  · exact ⟨false, rfl⟩
  · exact ⟨emu.reservationValid, rfl⟩

/-- A host system call changes the registers and the run state. -/
theorem hostCall_frame (emu : Emulator) :
    ∃ rf state exitCode,
      hostCall emu = { emu with rf := rf, state := state, exitCode := exitCode } := by
  simp only [hostCall]
  split
  · exact ⟨_, _, _, rfl⟩
  · split
    · exact ⟨_, _, _, rfl⟩
    · exact ⟨_, _, _, rfl⟩

/-- A data access leaves the privilege level and the CSRs alone. -/
theorem access_control (inst : DecodedInst) (addr pa nextPc : Word) (acc : Access)
    (emu after : Emulator) (effect : Effect)
    (rest : AccessOutcome inst addr acc pa emu (.next after nextPc effect)) :
    after.priv = emu.priv ∧ after.csr = emu.csr := by
  cases rest with
  | loaded => exact ⟨rfl, rfl⟩
  | reserved => exact ⟨rfl, rfl⟩
  | timerSet => exact ⟨rfl, rfl⟩
  | stored width mem rf =>
    obtain ⟨valid, dropped⟩ :=
      dropReservation_frame { emu with mem := mem, rf := rf } pa
    rw [dropped]
    exact ⟨rfl, rfl⟩
  | conditional => exact ⟨rfl, rfl⟩
  | lost => exact ⟨rfl, rfl⟩

/-- What a completed instruction does to the privilege level and the CSRs: it is
    a CSR write its level allows, one of the two returns, or it changes at most
    the floating-point flags. -/
theorem outcome_control (emu after : Emulator) (inst : DecodedInst) (nextPc : Word)
    (effect : Effect) (outcome : Outcome emu inst (.next after nextPc effect)) :
    (after.priv = emu.priv ∧ FlagsOnly emu.csr after.csr) ∨
      (∃ name val, csrPrivOk emu.priv name.number = true ∧
        (inst.opcode = .system ∧ name.number = inst.imm ∧
          csrOperand inst (csrValue emu.csr name) (regRead emu.rf inst.rs1) = some val) ∧
        after.priv = emu.priv ∧ after.csr = csrStored emu.csr val name) ∨
      (inst.raw = rawMret ∧ emu.priv = privM ∧ after = (trapMret emu).2) ∨
      (inst.raw = rawSret ∧ ¬ emu.priv < privS ∧ after = (trapSret emu).2) := by
  cases outcome with
  | registers => exact Or.inl ⟨rfl, flags_same emu.csr⟩
  | floating rf flags => exact Or.inl ⟨rfl, flags, rfl⟩
  | csrWritten name val rf samePc kind addressed allowed operand =>
    exact Or.inr (Or.inl ⟨name, val, allowed, ⟨kind, addressed, operand⟩, rfl, rfl⟩)
  | mret raw level => exact Or.inr (Or.inr (Or.inl ⟨raw, level, rfl⟩))
  | sret raw level => exact Or.inr (Or.inr (Or.inr ⟨raw, level, rfl⟩))
  | hostCalled =>
    obtain ⟨rf, state, exitCode, called⟩ := hostCall_frame emu
    rw [called]
    exact Or.inl ⟨rfl, flags_same emu.csr⟩
  | halted => exact Or.inl ⟨rfl, flags_same emu.csr⟩
  | accessed addr acc pa middle exit asks translated rest =>
    obtain ⟨mem, same⟩ := mmuTranslate_frame emu middle addr pa acc translated
    obtain ⟨samePriv, sameCsr⟩ := access_control inst addr pa nextPc acc middle after effect rest
    subst same
    refine Or.inl ⟨samePriv, ?_⟩
    rw [sameCsr]
    exact flags_same emu.csr

/-! ## Memory -/

/-- A performed write leaves every byte outside its span alone. -/
theorem written_outside (mem after : Memory) (pa index : Word) (width : Width)
    (written : Written mem pa width after) (outside : ¬ Spans pa width.bytes index) :
    after.data index = mem.data index := by
  cases width with
  | byte =>
    obtain ⟨val, done⟩ := written
    have distinct : index ≠ pa := by
      rintro rfl
      apply outside
      simp [Spans, Width.bytes]
    simp only [memoryWrite8] at done
    split at done
    · cases done
      rfl
    · split at done
      · cases done
      · cases done
        exact Function.update_of_ne distinct val mem.data
  | half =>
    obtain ⟨val, done⟩ := written
    simp only [memoryWrite16] at done
    split at done
    · cases done
    · cases done
      exact putHalf_outside mem.data pa val index outside
  | word =>
    obtain ⟨val, done⟩ := written
    simp only [memoryWrite32] at done
    split at done
    · cases done
    · cases done
      exact putWord_outside mem.data pa val index outside

/-- What a completed instruction does to memory: nothing, or what its translation
    did, or after a store translation one naturally aligned write. -/
theorem outcome_memory (emu after : Emulator) (inst : DecodedInst) (nextPc : Word)
    (effect : Effect) (outcome : Outcome emu inst (.next after nextPc effect)) :
    after.mem = emu.mem ∨
      ∃ addr acc pa middle, dataAccess emu inst = some (addr, acc) ∧
        mmuTranslate emu addr acc = (.ok pa, middle) ∧
        (after.mem = middle.mem ∨
          (acc = .store ∧ ∃ width, Written middle.mem pa width after.mem ∧
            addr.toNat % width.bytes = 0)) := by
  cases outcome with
  | registers => exact Or.inl rfl
  | floating => exact Or.inl rfl
  | csrWritten => exact Or.inl rfl
  | mret => exact Or.inl rfl
  | sret => exact Or.inl rfl
  | hostCalled =>
    obtain ⟨rf, state, exitCode, called⟩ := hostCall_frame emu
    rw [called]
    exact Or.inl rfl
  | halted => exact Or.inl rfl
  | accessed addr acc pa middle exit asks translated rest =>
    refine Or.inr ⟨addr, acc, pa, middle, asks, translated, ?_⟩
    cases rest with
    | loaded => exact Or.inl rfl
    | reserved => exact Or.inl rfl
    | timerSet => exact Or.inl rfl
    | stored width mem rf samePc storing written natural narrow =>
      obtain ⟨valid, dropped⟩ := dropReservation_frame { middle with mem := mem, rf := rf } pa
      rw [dropped]
      exact Or.inr ⟨storing, width, written, natural⟩
    | conditional mem storing written natural held =>
      exact Or.inr ⟨storing, .word, written, natural⟩
    | lost => exact Or.inl rfl

end RvEmu.ExecOutcome
