import RvEmu.Fpu
import RvEmu.Mmu
import RvEmu.Trap

/-!
# Instruction execution

`execute` is one switch on the opcode. Its cases leave it in one of five ways:
by `break` with the next pc, by `goto unknown`, by `goto except` with a cause
and an address, by raising an environment call or breakpoint themselves, or by
stopping the machine at once. `Exec` names these ways, each with the state at
that point; `execute` then does what the source does after the switch.

A completed instruction also reports its effect on data memory. The source
keeps no such record and no function here reads it: it is the observation over
which properties of runs are stated.
-/

namespace RvEmu

/-- What a completed instruction did to data memory, by physical address. A
store to the timer-compare register reaches no memory and is quiet. -/
inductive Effect where
  | quiet
  | loadReserved (pa : Word)
  | storeConditional (pa : Word) (succeeded : Bool)
  | stored (pa : Word) (width : Width)
deriving DecidableEq

/-- Where the switch of `execute` ended. -/
inductive Exec where
  | next (emu : Emulator) (nextPc : Word) (effect : Effect)
  | unknown (emu : Emulator)
  | except (emu : Emulator) (cause addr : Word)
  | raised (emu : Emulator) (cause : Word)
  | stopped (emu : Emulator)

/-- What a step did, as an observer of the run sees it. -/
inductive Event where
  | retired (effect : Effect)
  | trapped (cause tval : Word)
  | interrupted
  | failed
deriving DecidableEq

/-- The instruction's length in bytes. -/
def instLen (inst : DecodedInst) : Word :=
  if inst.len ≠ 0 then inst.len.setWidth 32 else 4

/-- The pc of the next instruction in sequence. -/
def seqPc (emu : Emulator) (inst : DecodedInst) : Word := emu.rf.pc + instLen inst

def rvDiv (a b : Word) : Word :=
  if b = 0 then 0xFFFFFFFF
  else if a = 0x80000000 ∧ b = 0xFFFFFFFF then 0x80000000
  else a.sdiv b

def rvDivu (a b : Word) : Word := if b = 0 then 0xFFFFFFFF else a / b

def rvRem (a b : Word) : Word :=
  if b = 0 then a
  else if a = 0x80000000 ∧ b = 0xFFFFFFFF then 0
  else a.srem b

def rvRemu (a b : Word) : Word := if b = 0 then a else a % b

/-- The RV32M operations. -/
def mulDivResult (funct3 : BitVec 3) (a b : Word) : Word :=
  match funct3 with
  | 0#3 => a * b
  | 1#3 => ((a.signExtend 64 * b.signExtend 64).sshiftRight 32).setWidth 32
  | 2#3 => ((a.signExtend 64 * b.setWidth 64).sshiftRight 32).setWidth 32
  | 3#3 => ((a.setWidth 64 * b.setWidth 64) >>> 32).setWidth 32
  | 4#3 => rvDiv a b
  | 5#3 => rvDivu a b
  | 6#3 => rvRem a b
  | _ => rvRemu a b

/-- The register-register operations. Both switches cover all eight values of
`funct3`, so their `default` is never taken. -/
def aluResult (inst : DecodedInst) (a b : Word) : Word :=
  if inst.funct7 = 0x01 then mulDivResult inst.funct3 a b
  else
    match inst.funct3 with
    | 0#3 => if inst.funct7 = 0x20 then a - b else a + b
    | 1#3 => a <<< (b &&& 0x1F)
    | 2#3 => if a.slt b then 1 else 0
    | 3#3 => if a < b then 1 else 0
    | 4#3 => a ^^^ b
    | 5#3 => if inst.funct7 = 0x20 then a.sshiftRight (b &&& 0x1F).toNat else a >>> (b &&& 0x1F)
    | 6#3 => a ||| b
    | _ => a &&& b

/-- The register-immediate operations. -/
def aluiResult (inst : DecodedInst) (a : Word) : Word :=
  match inst.funct3 with
  | 0#3 => a + inst.imm
  | 1#3 => a <<< (inst.imm &&& 0x1F)
  | 2#3 => if a.slt inst.imm then 1 else 0
  | 3#3 => if a < inst.imm then 1 else 0
  | 4#3 => a ^^^ inst.imm
  | 5#3 =>
    if inst.funct7 = 0x20 then a.sshiftRight (inst.imm &&& 0x1F).toNat
    else a >>> (inst.imm &&& 0x1F)
  | 6#3 => a ||| inst.imm
  | _ => a &&& inst.imm

/-- `reg_write` of a result, then on to the given pc. -/
def writeBack (emu : Emulator) (rd : Reg) (result nextPc : Word) (effect : Effect) : Exec :=
  .next { emu with rf := regWrite emu.rf rd result } nextPc effect

/-- The call of `mmu_translate` that every data access makes: a fault goes to
`except` with the virtual address. -/
def translateThen (emu : Emulator) (addr : Word) (acc : Access)
    (access : Emulator → Word → Exec) : Exec :=
  match mmuTranslate emu addr acc with
  | (.error cause, emu) => .except emu cause addr
  | (.ok pa, emu) => access emu pa

/-- The value a `LOAD` reads; the outer `none` is `goto unknown`, the inner one
`goto except`. -/
def loadValue (mem : Memory) (funct3 : BitVec 3) (pa : Word) : Option (Option Word) :=
  match funct3 with
  | 0#3 => some ((memoryRead8 mem pa).map (·.signExtend 32))
  | 1#3 => some ((memoryRead16 mem pa).map (·.signExtend 32))
  | 2#3 => some (memoryRead32 mem pa)
  | 4#3 => some ((memoryRead8 mem pa).map (·.setWidth 32))
  | 5#3 => some ((memoryRead16 mem pa).map (·.setWidth 32))
  | _ => none

/-- `LOAD` after translation. -/
def loadAccess (inst : DecodedInst) (addr : Word) (emu : Emulator) (pa : Word) : Exec :=
  if inst.funct3 = 2 ∧ pa = clintMtimeLo then
    writeBack emu inst.rd (emu.mtime.setWidth 32) (seqPc emu inst) .quiet
  else
    match loadValue emu.mem inst.funct3 pa with
    | none => .unknown emu
    | some none => .except emu excLoadAccess addr
    | some (some result) => writeBack emu inst.rd result (seqPc emu inst) .quiet

/-- The alignment check of `LOAD`. -/
def loadMisaligned (inst : DecodedInst) (addr : Word) : Bool :=
  ((inst.funct3 = 1 ∨ inst.funct3 = 5) ∧ addr &&& 1 ≠ 0) ∨ (inst.funct3 = 2 ∧ addr &&& 3 ≠ 0)

def execLoad (emu : Emulator) (inst : DecodedInst) : Exec :=
  let addr := regRead emu.rf inst.rs1 + inst.imm
  if loadMisaligned inst addr then .except emu excLoadMisaligned addr
  else translateThen emu addr .load (loadAccess inst addr)

/-- `FLW` after translation. -/
def loadFpAccess (inst : DecodedInst) (addr : Word) (emu : Emulator) (pa : Word) : Exec :=
  match memoryRead32 emu.mem pa with
  | none => .except emu excLoadAccess addr
  | some b32 => .next { emu with rf := fregWrite emu.rf inst.rd b32 } (seqPc emu inst) .quiet

def execLoadFp (emu : Emulator) (inst : DecodedInst) : Exec :=
  if inst.funct3 ≠ 2 then .unknown emu
  else
    let addr := regRead emu.rf inst.rs1 + inst.imm
    if addr &&& 3 ≠ 0 then .except emu excLoadMisaligned addr
    else translateThen emu addr .load (loadFpAccess inst addr)

/-- A store that hits the reserved address ends the reservation. -/
def dropReservation (emu : Emulator) (pa : Word) : Emulator :=
  if emu.reservationValid ∧ emu.reservationAddr = pa then { emu with reservationValid := false }
  else emu

/-- The end of every store path: a refused write faults, a performed one checks
the reservation. -/
def finishStore (emu : Emulator) (inst : DecodedInst) (addr pa : Word) (width : Width)
    (written : Bool × Memory) : Exec :=
  if written.1 then
    .next (dropReservation { emu with mem := written.2 } pa) (seqPc emu inst) (.stored pa width)
  else .except { emu with mem := written.2 } excStoreAccess addr

/-- `STORE` after translation. -/
def storeAccess (inst : DecodedInst) (addr : Word) (emu : Emulator) (pa : Word) : Exec :=
  let val := regRead emu.rf inst.rs2
  if inst.funct3 = 2 ∧ pa = clintMtimecmpLo then
    .next { emu with mtimecmp := (emu.mtimecmp &&& 0xFFFFFFFF00000000#64) ||| val.setWidth 64 }
      (seqPc emu inst) .quiet
  else
    match inst.funct3 with
    | 0#3 => finishStore emu inst addr pa .byte (memoryWrite8 emu.mem pa (val.setWidth 8))
    | 1#3 => finishStore emu inst addr pa .half (memoryWrite16 emu.mem pa (val.setWidth 16))
    | 2#3 => finishStore emu inst addr pa .word (memoryWrite32 emu.mem pa val)
    | _ => .unknown emu

/-- The alignment check of `STORE`. -/
def storeMisaligned (inst : DecodedInst) (addr : Word) : Bool :=
  (inst.funct3 = 1 ∧ addr &&& 1 ≠ 0) ∨ (inst.funct3 = 2 ∧ addr &&& 3 ≠ 0)

def execStore (emu : Emulator) (inst : DecodedInst) : Exec :=
  let addr := regRead emu.rf inst.rs1 + inst.imm
  if storeMisaligned inst addr then .except emu excStoreMisaligned addr
  else translateThen emu addr .store (storeAccess inst addr)

/-- `FSW` after translation. -/
def storeFpAccess (inst : DecodedInst) (addr : Word) (emu : Emulator) (pa : Word) : Exec :=
  finishStore emu inst addr pa .word (memoryWrite32 emu.mem pa (emu.rf.fregs inst.rs2))

def execStoreFp (emu : Emulator) (inst : DecodedInst) : Exec :=
  if inst.funct3 ≠ 2 then .unknown emu
  else
    let addr := regRead emu.rf inst.rs1 + inst.imm
    if addr &&& 3 ≠ 0 then .except emu excStoreMisaligned addr
    else translateThen emu addr .store (storeFpAccess inst addr)

/-- `LR.W` after translation. -/
def lrAccess (inst : DecodedInst) (addr : Word) (emu : Emulator) (pa : Word) : Exec :=
  match memoryRead32 emu.mem pa with
  | none => .except emu excLoadAccess addr
  | some b32 =>
    writeBack { emu with reservationValid := true, reservationAddr := pa } inst.rd b32
      (seqPc emu inst) (.loadReserved pa)

/-- `SC.W` after translation: it writes only under a reservation of exactly this
address, and ends the reservation either way. -/
def scAccess (inst : DecodedInst) (addr : Word) (emu : Emulator) (pa : Word) : Exec :=
  if emu.reservationValid ∧ emu.reservationAddr = pa then
    let written := memoryWrite32 emu.mem pa (regRead emu.rf inst.rs2)
    if written.1 then
      writeBack { emu with mem := written.2, reservationValid := false } inst.rd 0
        (seqPc emu inst) (.storeConditional pa true)
    else .except { emu with mem := written.2 } excStoreAccess addr
  else
    writeBack { emu with reservationValid := false } inst.rd 1 (seqPc emu inst)
      (.storeConditional pa false)

/-- The value an `AMO` stores; `none` is an undefined operation. -/
def amoResult (f5 : BitVec 7) (b32 val : Word) : Option Word :=
  match f5 with
  | 0x00#7 => some (b32 + val)
  | 0x01#7 => some val
  | 0x04#7 => some (b32 ^^^ val)
  | 0x08#7 => some (b32 ||| val)
  | 0x0C#7 => some (b32 &&& val)
  | 0x10#7 => some (if b32.slt val then b32 else val)
  | 0x14#7 => some (if val.slt b32 then b32 else val)
  | 0x18#7 => some (if b32 < val then b32 else val)
  | 0x1C#7 => some (if b32 > val then b32 else val)
  | _ => none

/-- The other `AMO` operations after translation: read, modify, write. -/
def amoAccess (inst : DecodedInst) (addr : Word) (emu : Emulator) (pa : Word) : Exec :=
  match memoryRead32 emu.mem pa with
  | none => .except emu excStoreAccess addr
  | some b32 =>
    match amoResult (inst.funct7 >>> 2) b32 (regRead emu.rf inst.rs2) with
    | none => .unknown emu
    | some newval =>
      let written := memoryWrite32 emu.mem pa newval
      if written.1 then
        .next
          (dropReservation { emu with mem := written.2, rf := regWrite emu.rf inst.rd b32 } pa)
          (seqPc emu inst) (.stored pa .word)
      else .except { emu with mem := written.2 } excStoreAccess addr

def execAmo (emu : Emulator) (inst : DecodedInst) : Exec :=
  let f5 := inst.funct7 >>> 2
  if inst.funct3 ≠ 2 then .unknown emu
  else
    let addr := regRead emu.rf inst.rs1
    if addr &&& 3 ≠ 0 then
      .except emu (if f5 = 0x02 then excLoadMisaligned else excStoreMisaligned) addr
    else if f5 = 0x02 then translateThen emu addr .load (lrAccess inst addr)
    else if f5 = 0x03 then translateThen emu addr .store (scAccess inst addr)
    else translateThen emu addr .store (amoAccess inst addr)

/-- Whether a branch is taken; `none` is an undefined comparison. -/
def branchTaken (funct3 : BitVec 3) (a b : Word) : Option Bool :=
  match funct3 with
  | 0#3 => some (a = b)
  | 1#3 => some (a ≠ b)
  | 4#3 => some (a.slt b)
  | 5#3 => some (!a.slt b)
  | 6#3 => some (a < b)
  | 7#3 => some (a ≥ b)
  | _ => none

def execBranch (emu : Emulator) (inst : DecodedInst) : Exec :=
  match branchTaken inst.funct3 (regRead emu.rf inst.rs1) (regRead emu.rf inst.rs2) with
  | none => .unknown emu
  | some taken =>
    .next emu (if taken then emu.rf.pc + inst.imm else seqPc emu inst) .quiet

/-- The number of bytes the host `write` call prints: it stops at the first
address that is not readable. -/
def writtenCount (mem : Memory) (buf : Word) : Nat → Word → Word
  | 0, i => i
  | remaining + 1, i =>
    match memoryRead8 mem (buf + i) with
    | none => i
    | some _ => writtenCount mem buf remaining (i + 1)

/-- The host system calls of a machine without handlers. -/
def hostCall (emu : Emulator) : Emulator :=
  let a0 := regRead emu.rf 10
  let a1 := regRead emu.rf 11
  let a2 := regRead emu.rf 12
  let a7 := regRead emu.rf 17
  if a7 = 0 ∨ a7 = 93 then { emu with state := .halted, exitCode := a0 }
  else if a7 = 64 then
    let len := if a2 > 8192 then 8192 else a2
    { emu with rf := regWrite emu.rf 10 (writtenCount emu.mem a1 len.toNat 0) }
  else { emu with state := .exception }

/-- The environment-call cause of each level. -/
def ecallCause (priv : Word) : Word :=
  if priv = privM then excEcallM else if priv = privS then excEcallS else excEcallU

def execEcall (emu : Emulator) (inst : DecodedInst) : Exec :=
  if emu.csr.mtvec ≠ 0 ∨ emu.csr.stvec ≠ 0 then .raised emu (ecallCause emu.priv)
  else if emu.priv ≠ privM then .stopped emu
  else .next (hostCall emu) (seqPc emu inst) .quiet

/-- A breakpoint traps only when the machine vector is set; otherwise it halts. -/
def execEbreak (emu : Emulator) (inst : DecodedInst) : Exec :=
  if emu.csr.mtvec ≠ 0 then .raised emu excBreakpoint
  else .next { emu with state := .halted, exitCode := 0 } (seqPc emu inst) .quiet

/-- The value a CSR instruction writes; `none` is an undefined `funct3`. -/
def csrOperand (inst : DecodedInst) (csrVal rs1Val : Word) : Option Word :=
  let zimm := inst.rs1.setWidth 32
  match inst.funct3 with
  | 1#3 => some rs1Val
  | 2#3 => some (csrVal ||| rs1Val)
  | 3#3 => some (csrVal &&& ~~~rs1Val)
  | 5#3 => some zimm
  | 6#3 => some (csrVal ||| zimm)
  | 7#3 => some (csrVal &&& ~~~zimm)
  | _ => none

def execCsr (emu : Emulator) (inst : DecodedInst) : Exec :=
  let csrAddr := inst.imm
  let rs1Val := regRead emu.rf inst.rs1
  if !csrPrivOk emu.priv csrAddr then .except emu excIllegalInst 0
  else if !csrWritable csrAddr ∧ (inst.funct3 = 1 ∨ inst.funct3 = 5 ∨ rs1Val ≠ 0) then
    .except emu excIllegalInst 0
  else
    match csrRead emu.csr csrAddr with
    | none => .except emu excIllegalInst 0
    | some csrVal =>
      match csrOperand inst csrVal rs1Val with
      | none => .unknown emu
      | some wdata =>
        let written := csrWrite emu.csr csrAddr wdata
        if written.1 then
          writeBack { emu with csr := written.2 } inst.rd csrVal (seqPc emu inst) .quiet
        else .except { emu with csr := written.2 } excIllegalInst 0

/-- Whole-word encodings of the system instructions. -/
def rawMret : Word := 0x30200073
def rawSret : Word := 0x10200073
def rawEcall : Word := 0x00000073
def rawEbreak : Word := 0x00100073

def execSystem (emu : Emulator) (inst : DecodedInst) : Exec :=
  if inst.raw = rawMret then
    if emu.priv ≠ privM then .except emu excIllegalInst 0
    else .next (trapMret emu).2 (trapMret emu).1 .quiet
  else if inst.raw = rawSret then
    if emu.priv < privS then .except emu excIllegalInst 0
    else .next (trapSret emu).2 (trapSret emu).1 .quiet
  else if inst.raw &&& 0xFE007FFF = 0x12000073 then
    if emu.priv < privS then .except emu excIllegalInst 0
    else .next emu (seqPc emu inst) .quiet
  else if inst.raw = rawEcall then execEcall emu inst
  else if inst.raw = rawEbreak then execEbreak emu inst
  else execCsr emu inst

def execFp (host : HostFloat) (emu : Emulator) (inst : DecodedInst) : Exec :=
  match fpuExecute host emu.rf emu.csr inst with
  | none => .unknown emu
  | some (rf, csr) => .next { emu with rf := rf, csr := csr } (seqPc emu inst) .quiet

/-- The switch of `execute`. -/
def execSwitch (host : HostFloat) (emu : Emulator) (inst : DecodedInst) : Exec :=
  match inst.opcode with
  | .alu =>
    writeBack emu inst.rd (aluResult inst (regRead emu.rf inst.rs1) (regRead emu.rf inst.rs2))
      (seqPc emu inst) .quiet
  | .alui =>
    writeBack emu inst.rd (aluiResult inst (regRead emu.rf inst.rs1)) (seqPc emu inst) .quiet
  | .load => execLoad emu inst
  | .loadFp => execLoadFp emu inst
  | .store => execStore emu inst
  | .storeFp => execStoreFp emu inst
  | .fp => execFp host emu inst
  | .amo => execAmo emu inst
  | .branch => execBranch emu inst
  | .jal => writeBack emu inst.rd (seqPc emu inst) (emu.rf.pc + inst.imm) .quiet
  | .jalr =>
    writeBack emu inst.rd (seqPc emu inst)
      ((regRead emu.rf inst.rs1 + inst.imm) &&& ~~~(1 : Word)) .quiet
  | .lui => writeBack emu inst.rd inst.imm (seqPc emu inst) .quiet
  | .auipc => writeBack emu inst.rd (emu.rf.pc + inst.imm) (seqPc emu inst) .quiet
  | .system => execSystem emu inst
  | .fence => .next emu (seqPc emu inst) .quiet
  | .other _ => .unknown emu

/-- The pattern around every call of `trap_raise` for an exception: without a
handler the machine stops with an exception. -/
def raiseOrStop (emu : Emulator) (cause tval epc : Word) : Event × Emulator :=
  match trapRaise emu cause tval epc with
  | (true, emu) => (.trapped cause tval, emu)
  | (false, emu) => (.failed, { emu with state := .exception })

/-- `execute`; it returns false exactly at the event `failed`. The pc is the one
the instruction was fetched from. -/
def execute (host : HostFloat) (emu : Emulator) (inst : DecodedInst) : Event × Emulator :=
  let pc := emu.rf.pc
  match execSwitch host emu inst with
  | .next emu nextPc effect => (.retired effect, { emu with rf := { emu.rf with pc := nextPc } })
  | .unknown emu => raiseOrStop emu excIllegalInst inst.raw pc
  | .except emu cause addr =>
    raiseOrStop emu cause (if cause = excIllegalInst then inst.raw else addr) pc
  | .raised emu cause => raiseOrStop emu cause 0 pc
  | .stopped emu => (.failed, { emu with state := .exception })

end RvEmu
