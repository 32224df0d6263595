import RvEmu.StepAnatomy
import RvEmu.TrapReturn

/-!
# Well-formed machines

The rest of the machine relies on facts that no single check establishes: `x0`
reads zero, the pc is even, vectors and saved pcs are multiples of four, and the
fields of the CSRs stay inside their widths. Every register has several writers,
and each of them keeps the facts: the decoders give even offsets to jumps, the
walker keeps page offsets, trap entry clears the low bits it saves, and a CSR
write masks what it stores.
-/

namespace RvEmu.WellFormed

open PageWalk PageTables ExecOutcome StepAnatomy

/-- The CSRs hold values of their fields. -/
structure CsrFormed (csr : Csr) : Prop where
  mtvec : csr.mtvec.toNat % 4 = 0
  stvec : csr.stvec.toNat % 4 = 0
  mepc : csr.mepc.toNat % 4 = 0
  sepc : csr.sepc.toNat % 4 = 0
  fflags : csr.fflags ≤ 0x1F
  frm : csr.frm ≤ 7
  medeleg : csr.medeleg.toNat < 2 ^ 16
  mideleg : csr.mideleg.toNat < 2 ^ 16
  satp : csr.satp = 0 ∨ csr.satp &&& satpModeBit ≠ 0
  sip : csr.sip = 0
  mip : csr.mip &&& ~~~mipMtip = 0

/-- The whole machine is well formed. -/
structure Formed (emu : Emulator) : Prop where
  zero : emu.rf.regs 0 = 0
  pc : emu.rf.pc.toNat % 2 = 0
  csr : CsrFormed emu.csr
  mtimecmp : emu.mtimecmp >>> 32 = 0
  reservation : emu.reservationValid = true → emu.reservationAddr.toNat % 4 = 0

/-! ## Masked fields -/

/-- A value with its two low bits cleared is a multiple of four. -/
theorem cleared_multiple (word : Word) : (word &&& ~~~(0x3 : Word)).toNat % 4 = 0 := by
  apply (TrapReturn.epc_kept_iff _).mp
  rw [BitVec.and_assoc, BitVec.and_self]

/-- A value masked with low ones is at most the mask. -/
theorem masked_le (word mask : Word) : word &&& mask ≤ mask := by
  rw [BitVec.le_def, BitVec.toNat_and]
  exact Nat.and_le_right

/-- Masking keeps a register inside its field. -/
theorem masked_inside (word val mask : Word) (inside : word &&& ~~~mask = 0) :
    (word &&& val) &&& ~~~mask = 0 := by
  rw [BitVec.and_assoc, BitVec.and_comm val, ← BitVec.and_assoc, inside]
  exact BitVec.zero_and

/-- A CSR write stores a value of the field. -/
theorem stored_formed (csr : Csr) (val : Word) (name : CsrName) (formed : CsrFormed csr) :
    CsrFormed (csrStored csr val name) := by
  have wide : (val &&& 0xFFFF).toNat < 2 ^ 16 := Nat.lt_succ_of_le (masked_le val 0xFFFF)
  obtain ⟨mtvec, stvec, mepc, sepc, fflags, frm, medeleg, mideleg, satp, sip, mip⟩ := formed
  cases name with
  | fflags =>
    exact ⟨mtvec, stvec, mepc, sepc, masked_le val 0x1F, frm, medeleg, mideleg, satp, sip, mip⟩
  | frm =>
    exact ⟨mtvec, stvec, mepc, sepc, fflags, masked_le val 0x7, medeleg, mideleg, satp, sip, mip⟩
  | fcsr =>
    exact ⟨mtvec, stvec, mepc, sepc, masked_le val 0x1F, masked_le (val >>> 5) 0x7, medeleg,
      mideleg, satp, sip, mip⟩
  | stvec =>
    exact ⟨mtvec, cleared_multiple val, mepc, sepc, fflags, frm, medeleg, mideleg, satp, sip, mip⟩
  | sepc =>
    exact ⟨mtvec, stvec, mepc, cleared_multiple val, fflags, frm, medeleg, mideleg, satp, sip, mip⟩
  | mtvec =>
    exact ⟨cleared_multiple val, stvec, mepc, sepc, fflags, frm, medeleg, mideleg, satp, sip, mip⟩
  | mepc =>
    exact ⟨mtvec, stvec, cleared_multiple val, sepc, fflags, frm, medeleg, mideleg, satp, sip, mip⟩
  | medeleg =>
    exact ⟨mtvec, stvec, mepc, sepc, fflags, frm, wide, mideleg, satp, sip, mip⟩
  | mideleg =>
    exact ⟨mtvec, stvec, mepc, sepc, fflags, frm, medeleg, wide, satp, sip, mip⟩
  | satp =>
    refine ⟨mtvec, stvec, mepc, sepc, fflags, frm, medeleg, mideleg, ?_, sip, mip⟩
    simp only [csrStored]
    by_cases bare : val &&& satpModeBit = 0
    · exact Or.inl (if_pos bare)
    · right
      rw [if_neg bare, BitVec.and_assoc]
      exact bare
  | sip =>
    refine ⟨mtvec, stvec, mepc, sepc, fflags, frm, medeleg, mideleg, satp, ?_, mip⟩
    change csr.sip &&& val = 0
    rw [sip]
    exact BitVec.zero_and
  | mip =>
    exact ⟨mtvec, stvec, mepc, sepc, fflags, frm, medeleg, mideleg, satp, sip,
      masked_inside csr.mip val mipMtip mip⟩
  | sstatus | sie | sscratch | scause | stval | mstatus | mie | mscratch | mcause | mtval |
      mcycle =>
    exact ⟨mtvec, stvec, mepc, sepc, fflags, frm, medeleg, mideleg, satp, sip, mip⟩

/-- The flags of a floating-point instruction fit. -/
theorem raised_formed (before after : Csr) (formed : CsrFormed before)
    (raised : Raised before after) : CsrFormed after := by
  obtain ⟨flags, known, rfl⟩ := raised
  exact { formed with fflags := flags_or before.fflags flags formed.fflags known }

/-! ## The timer, translations and traps -/

/-- The tick drives one pending bit, and memory is not part of the facts. -/
theorem ticked_formed (emu : Emulator) (mem : Memory) (formed : Formed emu) :
    Formed (ticked emu mem) := by
  have pending : tickedMip emu &&& ~~~mipMtip = 0 := by
    have inside := formed.csr.mip
    simp only [tickedMip]
    split
    · rw [BitMasks.or_keeps _ _ _ (by decide)]
      exact inside
    · rw [BitVec.and_assoc, BitVec.and_self]
      exact inside
  rw [ticked, timerTick_eq]
  exact ⟨formed.zero, formed.pc, { formed.csr with mip := pending }, formed.mtimecmp,
    formed.reservation⟩

/-- Entering a handler saves a multiple of four and goes to a vector. -/
theorem raised_trap_formed (emu after : Emulator) (cause tval epc : Word) (formed : Formed emu)
    (raised : trapRaise emu cause tval epc = (true, after)) : Formed after := by
  have stvec := formed.csr.stvec
  have mtvec := formed.csr.mtvec
  rcases trapRaise_cases emu after cause tval epc raised with ⟨-, -, rfl⟩ | ⟨-, -, rfl⟩
  · constructor
    · exact formed.zero
    · change emu.csr.stvec.toNat % 2 = 0
      omega
    · exact { formed.csr with sepc := cleared_multiple epc }
    · exact formed.mtimecmp
    · exact formed.reservation
  · constructor
    · exact formed.zero
    · change emu.csr.mtvec.toNat % 2 = 0
      omega
    · exact { formed.csr with mepc := cleared_multiple epc }
    · exact formed.mtimecmp
    · exact formed.reservation

/-- A raised exception enters a handler or stops the machine. -/
theorem raiseOrStop_formed (emu : Emulator) (cause tval epc : Word) (formed : Formed emu) :
    Formed (raiseOrStop emu cause tval epc).2 := by
  simp only [raiseOrStop]
  rcases raised : trapRaise emu cause tval epc with ⟨entered, after⟩
  cases entered with
  | true => exact raised_trap_formed emu after cause tval epc formed raised
  | false =>
    have same := trapRaise_refused emu after cause tval epc raised
    subst same
    exact ⟨formed.zero, formed.pc, formed.csr, formed.mtimecmp, formed.reservation⟩

/-- The counters are not part of the facts. -/
theorem countCycle_formed (result : Event × Emulator) (formed : Formed result.2) :
    Formed (countCycle result).2 := by
  simp only [countCycle]
  split
  · exact formed
  · exact ⟨formed.zero, formed.pc,
      { formed.csr with }, formed.mtimecmp, formed.reservation⟩

/-! ## Decoded instructions -/

/-- What the decoder promises: an even length, and even offsets of jumps. -/
structure Decoded (inst : DecodedInst) : Prop where
  length : inst.len = 2 ∨ inst.len = 4
  offset : inst.opcode = .branch ∨ inst.opcode = .jal → inst.imm &&& 1 = 0

/-- Sign extension from above keeps the lowest bit. -/
theorem sext_low (val : Word) (n : Nat) (kept : ((1#32 <<< (n + 1)) - 1) &&& 1 = 1)
    (clear : ~~~((1#32 <<< (n + 1)) - 1) &&& 1 = 0) : sext val n &&& 1 = val &&& 1 := by
  simp only [sext]
  split
  · exact BitMasks.or_keeps val _ 1 clear
  · rw [BitVec.and_assoc, kept]

theorem or_even (left right : Word) (leftEven : left &&& 1 = 0) (rightEven : right &&& 1 = 0) :
    (left ||| right) &&& 1 = 0 := by
  rw [BitMasks.or_keeps left right 1 rightEven]
  exact leftEven

theorem shift_even (word : Word) (count : Nat) : (word <<< (count + 1)) &&& 1 = 0 := by
  apply BitVec.eq_of_getLsbD_eq
  intro i inside
  cases i with
  | zero => simp
  | succ i => simp [BitVec.getLsbD_one]

theorem immB_even (raw : Word) : immB raw &&& 1 = 0 := by
  simp only [immB]
  rw [sext_low _ 12 (by decide) (by decide)]
  apply or_even
  · apply or_even
    · exact or_even _ _ (shift_even _ 11) (shift_even _ 10)
    · exact shift_even _ 4
  · exact shift_even _ 0

theorem immJ_even (raw : Word) : immJ raw &&& 1 = 0 := by
  simp only [immJ]
  rw [sext_low _ 20 (by decide) (by decide)]
  apply or_even
  · apply or_even
    · exact or_even _ _ (shift_even _ 19) (shift_even _ 11)
    · exact shift_even _ 10
  · exact shift_even _ 0

/-- Issued instructions come from the decoder. -/
theorem decode_decoded (raw : Word) (inst : DecodedInst) (compressed : Bool)
    (known : decode raw = some inst) : Decoded (withLength inst compressed) := by
  obtain ⟨-, length, kind⟩ := decode_fields raw inst known
  have offset : inst.opcode = .branch ∨ inst.opcode = .jal → inst.imm &&& 1 = 0 := by
    rw [kind]
    intro jump
    simp only [decode] at known
    rcases jump with branch | jal
    · rw [branch] at known
      cases known
      exact immB_even raw
    · rw [jal] at known
      cases known
      exact immJ_even raw
  constructor
  · cases compressed with
    | true => exact Or.inl rfl
    | false => exact Or.inr length
  · cases compressed with
    | true => exact offset
    | false => exact offset

/-! ## Execution -/

/-- Where the switch ends, the machine is well formed, and the next pc even. -/
def ExitFormed : Exec → Prop
  | .next emu nextPc _ => Formed emu ∧ nextPc.toNat % 2 = 0
  | .unknown emu => Formed emu
  | .except emu _ _ => Formed emu
  | .raised emu _ => Formed emu
  | .stopped emu => Formed emu

/-- The sum of even words is even. -/
theorem sum_even (left right : Word) (leftEven : left.toNat % 2 = 0)
    (rightEven : right.toNat % 2 = 0) : (left + right).toNat % 2 = 0 := by
  rw [BitVec.toNat_add]
  omega

section Switch

variable (emu : Emulator) (inst : DecodedInst)

/-- The next pc in sequence is even. -/
theorem seqPc_even (pc : emu.rf.pc.toNat % 2 = 0) (decoded : Decoded inst) :
    (seqPc emu inst).toNat % 2 = 0 := by
  apply sum_even _ _ pc
  rcases decoded.length with two | four
  · rw [instLen, two]
    decide
  · rw [instLen, four]
    decide

/-- A register write keeps `x0` and the pc. -/
theorem regWrite_formed (formed : Formed emu) (rd : Reg) (val : Word) :
    Formed { emu with rf := regWrite emu.rf rd val } := by
  constructor
  · rw [regWrite_zero]
    exact formed.zero
  · rw [regWrite_pc]
    exact formed.pc
  · exact formed.csr
  · exact formed.mtimecmp
  · exact formed.reservation

theorem writeBack_formed (formed : Formed emu) (rd : Reg) (result nextPc : Word) (effect : Effect)
    (even : nextPc.toNat % 2 = 0) : ExitFormed (writeBack emu rd result nextPc effect) :=
  ⟨regWrite_formed emu formed rd result, even⟩

/-- Memory is not part of the facts. -/
theorem memory_formed (formed : Formed emu) (mem : Memory) : Formed { emu with mem := mem } :=
  ⟨formed.zero, formed.pc, formed.csr, formed.mtimecmp, formed.reservation⟩

/-- Ending a reservation keeps the facts. -/
theorem dropReservation_formed (formed : Formed emu) (pa : Word) :
    Formed (dropReservation emu pa) := by
  simp only [dropReservation]
  split
  · exact ⟨formed.zero, formed.pc, formed.csr, formed.mtimecmp, fun held => Bool.noConfusion held⟩
  · exact formed

/-- A translation keeps the registers and the offset in the page. -/
theorem translateThen_formed (formed : Formed emu) (addr : Word) (acc : Access)
    (access : Emulator → Word → Exec)
    (accessed : ∀ mem pa, pa.toNat % 4096 = addr.toNat % 4096 →
      ExitFormed (access (withMem emu mem) pa)) : ExitFormed (translateThen emu addr acc access) := by
  simp only [translateThen]
  cases translated : mmuTranslate emu addr acc with
  | mk result middle =>
    cases result with
    | error cause =>
      obtain ⟨rfl, -⟩ := mmuTranslate_error emu middle addr cause acc translated
      exact formed
    | ok pa =>
      obtain ⟨mem, state, -, resolves⟩ := translate_touched emu middle emu.mem [(addr, acc)] addr pa
        acc (touched_refl emu _) (List.mem_singleton_self _) translated
      rw [state]
      exact accessed mem pa (resolves_offset emu addr pa acc resolves)

theorem finishStore_formed (formed : Formed emu) (decoded : Decoded inst) (addr pa : Word)
    (width : Width) (written : Bool × Memory) :
    ExitFormed (finishStore emu inst addr pa width written) := by
  simp only [finishStore]
  split
  · exact ⟨dropReservation_formed _ (memory_formed emu formed written.2) pa,
      seqPc_even emu inst formed.pc decoded⟩
  · exact memory_formed emu formed written.2

theorem loadAccess_formed (formed : Formed emu) (decoded : Decoded inst) (addr pa : Word) :
    ExitFormed (loadAccess inst addr emu pa) := by
  have next := seqPc_even emu inst formed.pc decoded
  simp only [loadAccess]
  split
  · exact writeBack_formed emu formed _ _ _ _ next
  · split
    · exact formed
    · exact formed
    · exact writeBack_formed emu formed _ _ _ _ next

theorem loadFpAccess_formed (formed : Formed emu) (decoded : Decoded inst) (addr pa : Word) :
    ExitFormed (loadFpAccess inst addr emu pa) := by
  simp only [loadFpAccess]
  split
  · exact formed
  · exact ⟨⟨formed.zero, formed.pc, formed.csr, formed.mtimecmp, formed.reservation⟩,
      seqPc_even emu inst formed.pc decoded⟩

/-- A store to the low half of the compare register leaves its high half alone. -/
theorem compare_high (compare : DWord) (val : Word) (clear : compare >>> 32 = 0) :
    ((compare &&& 0xFFFFFFFF00000000#64) ||| val.setWidth 64) >>> 32 = 0 := by
  have wide : val.setWidth 64 >>> 32 = 0 := by
    apply BitVec.eq_of_toNat_eq
    have bound : val.toNat < 2 ^ 32 := val.isLt
    rw [BitVec.toNat_ushiftRight, BitVec.toNat_setWidth, Nat.shiftRight_eq_div_pow]
    change val.toNat % 2 ^ 64 / 2 ^ 32 = 0
    omega
  rw [BitVec.ushiftRight_or_distrib, BitVec.ushiftRight_and_distrib, clear, wide]
  decide

theorem storeAccess_formed (formed : Formed emu) (decoded : Decoded inst) (addr pa : Word) :
    ExitFormed (storeAccess inst addr emu pa) := by
  simp only [storeAccess]
  split
  · exact ⟨⟨formed.zero, formed.pc, formed.csr, compare_high _ _ formed.mtimecmp,
      formed.reservation⟩, seqPc_even emu inst formed.pc decoded⟩
  · split
    · exact finishStore_formed emu inst formed decoded addr pa _ _
    · exact finishStore_formed emu inst formed decoded addr pa _ _
    · exact finishStore_formed emu inst formed decoded addr pa _ _
    · exact formed

/-- A reservation is made at an aligned address. -/
theorem lrAccess_formed (formed : Formed emu) (decoded : Decoded inst) (addr pa : Word)
    (aligned : pa.toNat % 4 = 0) : ExitFormed (lrAccess inst addr emu pa) := by
  simp only [lrAccess]
  split
  · exact formed
  · have reserved : Formed { emu with reservationValid := true, reservationAddr := pa } :=
      ⟨formed.zero, formed.pc, formed.csr, formed.mtimecmp, fun _ => aligned⟩
    exact writeBack_formed _ reserved _ _ _ _ (seqPc_even emu inst formed.pc decoded)

theorem scAccess_formed (formed : Formed emu) (decoded : Decoded inst) (addr pa : Word) :
    ExitFormed (scAccess inst addr emu pa) := by
  have next := seqPc_even emu inst formed.pc decoded
  have ended (mem : Memory) : Formed { emu with mem := mem, reservationValid := false } :=
    ⟨formed.zero, formed.pc, formed.csr, formed.mtimecmp, fun held => Bool.noConfusion held⟩
  simp only [scAccess]
  split
  · split
    · exact writeBack_formed _ (ended _) _ _ _ _ next
    · exact memory_formed emu formed _
  · exact writeBack_formed _ (ended emu.mem) _ _ _ _ next

theorem amoAccess_formed (formed : Formed emu) (decoded : Decoded inst) (addr pa : Word) :
    ExitFormed (amoAccess inst addr emu pa) := by
  simp only [amoAccess]
  split
  · exact formed
  · split
    · exact formed
    · split
      · have written (mem : Memory) (old : Word) :
            Formed { emu with mem := mem, rf := regWrite emu.rf inst.rd old } :=
          regWrite_formed _ (memory_formed emu formed mem) inst.rd old
        exact ⟨dropReservation_formed _ (written _ _) pa, seqPc_even emu inst formed.pc decoded⟩
      · exact memory_formed emu formed _

theorem execLoad_formed (formed : Formed emu) (decoded : Decoded inst) :
    ExitFormed (execLoad emu inst) := by
  simp only [execLoad]
  split
  · exact formed
  · apply translateThen_formed emu formed
    intro mem pa _
    exact loadAccess_formed _ inst (memory_formed emu formed mem) decoded _ pa

theorem execLoadFp_formed (formed : Formed emu) (decoded : Decoded inst) :
    ExitFormed (execLoadFp emu inst) := by
  simp only [execLoadFp]
  split
  · exact formed
  · split
    · exact formed
    · apply translateThen_formed emu formed
      intro mem pa _
      exact loadFpAccess_formed _ inst (memory_formed emu formed mem) decoded _ pa

theorem execStore_formed (formed : Formed emu) (decoded : Decoded inst) :
    ExitFormed (execStore emu inst) := by
  simp only [execStore]
  split
  · exact formed
  · apply translateThen_formed emu formed
    intro mem pa _
    exact storeAccess_formed _ inst (memory_formed emu formed mem) decoded _ pa

theorem execStoreFp_formed (formed : Formed emu) (decoded : Decoded inst) :
    ExitFormed (execStoreFp emu inst) := by
  simp only [execStoreFp]
  split
  · exact formed
  · split
    · exact formed
    · apply translateThen_formed emu formed
      intro mem pa _
      exact finishStore_formed _ inst (memory_formed emu formed mem) decoded _ pa _ _

theorem execAmo_formed (formed : Formed emu) (decoded : Decoded inst) :
    ExitFormed (execAmo emu inst) := by
  simp only [execAmo]
  split
  · exact formed
  · split
    · exact formed
    · rename_i aligned
      have multiple := low_two_clear _ (not_not.mp aligned)
      split
      · apply translateThen_formed emu formed
        intro mem pa offset
        exact lrAccess_formed _ inst (memory_formed emu formed mem) decoded _ pa (by omega)
      · split
        · apply translateThen_formed emu formed
          intro mem pa _
          exact scAccess_formed _ inst (memory_formed emu formed mem) decoded _ pa
        · apply translateThen_formed emu formed
          intro mem pa _
          exact amoAccess_formed _ inst (memory_formed emu formed mem) decoded _ pa

theorem execBranch_formed (formed : Formed emu) (decoded : Decoded inst)
    (kind : inst.opcode = .branch) : ExitFormed (execBranch emu inst) := by
  have offset := low_one_clear inst.imm (decoded.offset (Or.inl kind))
  simp only [execBranch]
  split
  · exact formed
  · refine ⟨formed, ?_⟩
    split
    · exact sum_even _ _ formed.pc offset
    · exact seqPc_even emu inst formed.pc decoded

/-- A host system call writes a register or the run state. -/
theorem hostCall_formed (formed : Formed emu) : Formed (hostCall emu) := by
  have stopped (state : EmuState) (exitCode : Word) :
      Formed { emu with state := state, exitCode := exitCode } :=
    ⟨formed.zero, formed.pc, formed.csr, formed.mtimecmp, formed.reservation⟩
  simp only [hostCall]
  split
  · exact stopped _ _
  · split
    · exact regWrite_formed emu formed 10 _
    · exact stopped _ emu.exitCode

theorem execEcall_formed (formed : Formed emu) (decoded : Decoded inst) :
    ExitFormed (execEcall emu inst) := by
  simp only [execEcall]
  split
  · exact formed
  · split
    · exact formed
    · exact ⟨hostCall_formed emu formed, seqPc_even emu inst formed.pc decoded⟩

theorem execEbreak_formed (formed : Formed emu) (decoded : Decoded inst) :
    ExitFormed (execEbreak emu inst) := by
  simp only [execEbreak]
  split
  · exact formed
  · exact ⟨⟨formed.zero, formed.pc, formed.csr, formed.mtimecmp, formed.reservation⟩,
      seqPc_even emu inst formed.pc decoded⟩

/-- The machine with other CSRs. -/
theorem csr_formed (formed : Formed emu) (csr : Csr) (fields : CsrFormed csr) :
    Formed { emu with csr := csr } :=
  ⟨formed.zero, formed.pc, fields, formed.mtimecmp, formed.reservation⟩

theorem csrWrite_formed (csr : Csr) (formed : CsrFormed csr) (addr val : Word) :
    CsrFormed (csrWrite csr addr val).2 := by
  simp only [csrWrite]
  split
  · exact stored_formed csr val _ formed
  · exact formed

theorem execCsr_formed (formed : Formed emu) (decoded : Decoded inst) :
    ExitFormed (execCsr emu inst) := by
  have written (val : Word) :=
    csr_formed emu formed _ (csrWrite_formed emu.csr formed.csr inst.imm val)
  simp only [execCsr]
  split
  · exact formed
  · split
    · exact formed
    · split
      · exact formed
      · split
        · exact formed
        · split
          · exact writeBack_formed _ (written _) _ _ _ _ (seqPc_even emu inst formed.pc decoded)
          · exact written _

/-- The returns go to saved pcs. -/
theorem returned_formed (formed : Formed emu) (status priv : Word) :
    Formed { emu with priv := priv, csr := { emu.csr with mstatus := status } } :=
  ⟨formed.zero, formed.pc, { formed.csr with }, formed.mtimecmp, formed.reservation⟩

theorem execSystem_formed (formed : Formed emu) (decoded : Decoded inst) :
    ExitFormed (execSystem emu inst) := by
  have mepc := formed.csr.mepc
  have sepc := formed.csr.sepc
  simp only [execSystem]
  split
  · split
    · exact formed
    · refine ⟨returned_formed emu formed _ _, ?_⟩
      change emu.csr.mepc.toNat % 2 = 0
      omega
  · split
    · split
      · exact formed
      · refine ⟨returned_formed emu formed _ _, ?_⟩
        change emu.csr.sepc.toNat % 2 = 0
        omega
    · split
      · split
        · exact formed
        · exact ⟨formed, seqPc_even emu inst formed.pc decoded⟩
      · split
        · exact execEcall_formed emu inst formed decoded
        · split
          · exact execEbreak_formed emu inst formed decoded
          · exact execCsr_formed emu inst formed decoded

theorem execFp_formed (host : HostFloat) (formed : Formed emu) (decoded : Decoded inst) :
    ExitFormed (execFp host emu inst) := by
  simp only [execFp]
  cases done : fpuExecute host emu.rf emu.csr inst with
  | none => exact formed
  | some result =>
    obtain ⟨pc, zero, raised⟩ := fpuExecute_frame host emu.rf emu.csr inst result done
    refine ⟨⟨?_, ?_, ?_, ?_, ?_⟩, seqPc_even emu inst formed.pc decoded⟩
    · rw [zero]
      exact formed.zero
    · rw [pc]
      exact formed.pc
    · exact raised_formed emu.csr result.2 formed.csr raised
    · exact formed.mtimecmp
    · exact formed.reservation

/-- An indirect jump clears the lowest bit of its target. -/
theorem indirect_even (target : Word) : (target &&& ~~~(1 : Word)).toNat % 2 = 0 := by
  apply low_one_clear
  rw [BitVec.and_assoc]
  exact BitVec.and_zero

/-- Every case of the switch keeps the machine well formed. -/
theorem execSwitch_formed (host : HostFloat) (formed : Formed emu) (decoded : Decoded inst) :
    ExitFormed (execSwitch host emu inst) := by
  have next := seqPc_even emu inst formed.pc decoded
  simp only [execSwitch]
  cases kind : inst.opcode with
  | alu => exact writeBack_formed emu formed _ _ _ _ next
  | alui => exact writeBack_formed emu formed _ _ _ _ next
  | load => exact execLoad_formed emu inst formed decoded
  | loadFp => exact execLoadFp_formed emu inst formed decoded
  | store => exact execStore_formed emu inst formed decoded
  | storeFp => exact execStoreFp_formed emu inst formed decoded
  | fp => exact execFp_formed emu inst host formed decoded
  | amo => exact execAmo_formed emu inst formed decoded
  | branch => exact execBranch_formed emu inst formed decoded kind
  | jal =>
    have offset := low_one_clear inst.imm (decoded.offset (Or.inr kind))
    exact writeBack_formed emu formed _ _ _ _ (sum_even _ _ formed.pc offset)
  | jalr => exact writeBack_formed emu formed _ _ _ _ (indirect_even _)
  | lui => exact writeBack_formed emu formed _ _ _ _ next
  | auipc => exact writeBack_formed emu formed _ _ _ _ next
  | system => exact execSystem_formed emu inst formed decoded
  | fence => exact ⟨formed, next⟩
  | other => exact formed

/-- So does what follows the switch. -/
theorem execute_formed (host : HostFloat) (formed : Formed emu) (decoded : Decoded inst) :
    Formed (execute host emu inst).2 := by
  have exit := execSwitch_formed emu inst host formed decoded
  simp only [execute]
  generalize execSwitch host emu inst = ended at exit
  cases ended with
  | next after nextPc effect =>
    obtain ⟨kept, even⟩ := exit
    exact ⟨kept.zero, even, kept.csr, kept.mtimecmp, kept.reservation⟩
  | unknown after => exact raiseOrStop_formed after _ _ _ exit
  | except after cause addr => exact raiseOrStop_formed after _ _ _ exit
  | raised after cause => exact raiseOrStop_formed after _ _ _ exit
  | stopped after =>
    exact ⟨exit.zero, exit.pc, exit.csr, exit.mtimecmp, exit.reservation⟩

end Switch

/-! ## Steps and runs -/

/-- Every step keeps a well-formed machine well formed. -/
theorem step_formed (host : HostFloat) (emu : Emulator) (formed : Formed emu) :
    Formed (emuStep host emu).2 := by
  rw [emuStep_halves]
  apply countCycle_formed
  cases front : frontEnd emu with
  | interrupted after =>
    have ticks := ticked_formed emu emu.mem formed
    obtain ⟨raised, -⟩ := taken_state emu after _ (interrupted_front emu after front)
    rw [← ticked_same] at raised
    exact raised_trap_formed _ after _ _ _ ticks raised
  | refused after cause tval =>
    obtain ⟨-, mem, rfl, -⟩ := refused_front emu after cause tval front
    exact raiseOrStop_formed _ cause tval _ (ticked_formed emu mem formed)
  | issued after inst =>
    have came : issued emu = some (after, inst) := by
      rw [issued, front]
    obtain ⟨-, -, -, ⟨raw, compressed, decoded, -, known, rfl⟩, mem, rfl, -⟩ :=
      issued_front emu after inst came
    exact execute_formed _ _ host (ticked_formed emu mem formed)
      (decode_decoded raw decoded compressed known)

/-- A machine is well formed from a reset, or from an image with an even entry, on. -/
theorem boot_formed (start : Emulator) (boot : Boot start) (even : start.rf.pc.toNat % 2 = 0) :
    Formed start := by
  have csr : CsrFormed csrInit := by
    constructor <;> decide
  have compare : (0 : DWord) >>> 32 = 0 := by decide
  cases boot with
  | reset beyond => exact ⟨rfl, even, csr, compare, fun held => Bool.noConfusion held⟩
  | loaded beyond image => exact ⟨rfl, even, csr, compare, fun held => Bool.noConfusion held⟩

/-- Every state of every run from such a start is well formed, and no step of it takes
    the misaligned branch of the fetch. -/
theorem run_formed (host : HostFloat) (start : Emulator) (boot : Boot start)
    (even : start.rf.pc.toNat % 2 = 0) (n : Nat) :
    Formed (stateAfter host start n) ∧ (stateAfter host start n).rf.pc &&& 1 = 0 := by
  have formed := Runs.invariant (emuStep host) Formed (step_formed host) start
    (boot_formed start boot even) n
  constructor
  · exact formed
  · have masked : ((stateAfter host start n).rf.pc &&& 1).toNat =
        (stateAfter host start n).rf.pc.toNat % 2 ^ 1 :=
      BitMasks.and_low _ 1 (by decide)
    exact BitVec.eq_of_toNat_eq (masked.trans formed.pc)

/-- A program that jumps two bytes back. -/
theorem jump_formed :
    Formed (stateAfter idleHost
        (loadImage (emuInit fun _ => 0) (programImage 0x1002 [0xFFFFF06F])) 3) ∧
      (stateAfter idleHost
        (loadImage (emuInit fun _ => 0) (programImage 0x1002 [0xFFFFF06F])) 3).rf.pc &&& 1 = 0 :=
  run_formed idleHost _ (.loaded _ _) (by decide) 3

end RvEmu.WellFormed
