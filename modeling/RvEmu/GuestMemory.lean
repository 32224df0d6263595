import RvEmu.CompressedMeaning
import RvEmu.Foundation.ByteOverlay
import RvEmu.MemoryBounds

/-!
# Guest loads and stores agree

In machine mode an effective address is a physical one. A store lays the low
bytes of a register over memory, a load takes the number in its bytes and
extends it, and nothing else changes. So a load after a store finds the stored
bytes where the two ranges overlap and the old ones elsewhere. An address that
is not naturally aligned, or is outside memory and no device, is refused with
its cause and itself for the trap value.
-/

namespace RvEmu.GuestMemory

open LittleEndian ByteOverlay MemoryBounds ExecOutcome CompressedMeaning

/-! ## The instructions -/

/-- `F3_LB`, `F3_LH` and `F3_LW`, and the unsigned forms; a word has no extension. -/
def loadFunct3 (width : Width) (signed : Bool) : BitVec 3 :=
  match width with
  | .byte => if signed then 0 else 4
  | .half => if signed then 1 else 5
  | .word => 2

/-- `SB`, `SH` and `SW`. -/
structure IsStore (inst : DecodedInst) (width : Width) : Prop where
  opcode : inst.opcode = .store
  funct3 : inst.funct3 = width.funct3

/-- `LB`, `LH`, `LW`, `LBU` and `LHU`. -/
structure IsLoad (inst : DecodedInst) (width : Width) (signed : Bool) : Prop where
  opcode : inst.opcode = .load
  funct3 : inst.funct3 = loadFunct3 width signed

/-- The wrapping sum of the base register and the immediate. -/
def effective (emu : Emulator) (inst : DecodedInst) : Word := regRead emu.rf inst.rs1 + inst.imm

/-- Natural alignment. -/
def Natural (width : Width) (addr : Word) : Prop := addr.toNat % width.bytes = 0

/-- The whole range is in RAM. -/
def InRam (width : Width) (addr : Word) : Prop := addr.toNat + width.bytes ≤ memSize.toNat

/-- The UART and the two registers of the CLINT. -/
def Device (addr : Word) : Prop :=
  addr = csrMmioUart ∨ addr = clintMtimecmpLo ∨ addr = clintMtimeLo

/-- A number of some bytes, extended to a word. -/
def extended (width : Width) (signed : Bool) (value : Nat) : Word :=
  if signed then (BitVec.ofNat (8 * width.bytes) value).signExtend 32 else BitVec.ofNat 32 value

/-! ## The laws -/

/-- The machine after a store: other bytes, the registers and the CSRs are as before. -/
def storedState (emu : Emulator) (inst : DecodedInst) (width : Width) (addr value : Word) :
    Emulator :=
  { emu with
    mem := { emu.mem with data := overlay emu.mem.data addr width.bytes value }
    rf := { emu.rf with pc := seqPc emu inst }
    reservationValid := emu.reservationValid && !(emu.reservationAddr = addr) }

/-- The machine after a load: only `rd` and the pc change. -/
def loadedState (emu : Emulator) (inst : DecodedInst) (value : Word) : Emulator :=
  { emu with
    rf := { emu.rf with
      regs := InstructionSet.put emu.rf.regs inst.rd value, pc := seqPc emu inst } }

/-- The instruction is refused: it traps to the machine's handler with its cause and
    address, and neither memory nor a register changes. -/
def Refused (host : HostFloat) (emu : Emulator) (inst : DecodedInst) (cause addr : Word) : Prop :=
  ∃ after, execute host emu inst = (.trapped cause addr, after) ∧
    after.mem = emu.mem ∧ after.rf.regs = emu.rf.regs ∧ after.rf.fregs = emu.rf.fregs ∧
    after.csr.mcause = cause ∧ after.csr.mtval = addr

/-- A store and a later load, in RAM. -/
def StoreThenLoad (host : HostFloat) (emu : Emulator) (store load : DecodedInst) (m n : Width)
    (signed : Bool) : Prop :=
  let a := effective emu store
  let b := effective emu load
  let value := regRead emu.rf store.rs2
  let middle := storedState emu store m a value
  execute host emu store = (.retired (.stored a m), middle) ∧
    execute host middle load =
      (.retired .quiet,
        loadedState middle load
          (extended n signed (number (overlay emu.mem.data a m.bytes value) b n.bytes)))

/-- Loads and stores of the guest, from a machine state. -/
structure Agrees (host : HostFloat) (emu : Emulator) : Prop where
  agree : ∀ store load m n signed, IsStore store m → IsLoad load n signed →
    Natural m (effective emu store) → InRam m (effective emu store) →
    Natural n (effective emu load) → InRam n (effective emu load) →
    StoreThenLoad host emu store load m n signed
  storeMisaligned : ∀ inst width, IsStore inst width → emu.csr.mtvec ≠ 0 →
    ¬ Natural width (effective emu inst) → Refused host emu inst 6 (effective emu inst)
  loadMisaligned : ∀ inst width signed, IsLoad inst width signed → emu.csr.mtvec ≠ 0 →
    ¬ Natural width (effective emu inst) → Refused host emu inst 4 (effective emu inst)
  storeOutside : ∀ inst width, IsStore inst width → emu.csr.mtvec ≠ 0 →
    Natural width (effective emu inst) → ¬ InRam width (effective emu inst) →
    effective emu inst < 0xFFFFFFFC → ¬ Device (effective emu inst) →
    Refused host emu inst 7 (effective emu inst)
  loadOutside : ∀ inst width signed, IsLoad inst width signed → emu.csr.mtvec ≠ 0 →
    Natural width (effective emu inst) → ¬ InRam width (effective emu inst) →
    effective emu inst < 0xFFFFFFFC → ¬ Device (effective emu inst) →
    Refused host emu inst 5 (effective emu inst)

/-! ## Alignment and bounds -/

theorem low_one (addr : Word) : addr &&& 1 ≠ 0 ↔ addr.toNat % 2 ≠ 0 := by
  have masked : (addr &&& 1).toNat = addr.toNat % 2 := BitMasks.and_low addr 1 (by decide)
  rw [← masked]
  exact not_congr BitVec.toNat_inj.symm

/-- The checks of the source are natural alignment. -/
theorem storeMisaligned_iff (inst : DecodedInst) (width : Width) (addr : Word)
    (kind : IsStore inst width) : storeMisaligned inst addr = true ↔ ¬ Natural width addr := by
  have funct3 := kind.funct3
  cases width with
  | byte => simp [storeMisaligned, funct3, Width.funct3, Natural, Width.bytes, Nat.mod_one]
  | half =>
    refine Iff.trans ?_ (low_one addr)
    simp [storeMisaligned, funct3, Width.funct3]
  | word =>
    refine Iff.trans ?_ (low_two addr)
    simp [storeMisaligned, funct3, Width.funct3]

theorem loadMisaligned_iff (inst : DecodedInst) (width : Width) (signed : Bool) (addr : Word)
    (kind : IsLoad inst width signed) :
    loadMisaligned inst addr = true ↔ ¬ Natural width addr := by
  have funct3 := kind.funct3
  cases width with
  | byte =>
    cases signed <;> simp [loadMisaligned, funct3, loadFunct3, Natural, Width.bytes, Nat.mod_one]
  | half =>
    refine Iff.trans ?_ (low_one addr)
    cases signed <;> simp [loadMisaligned, funct3, loadFunct3]
  | word =>
    refine Iff.trans ?_ (low_two addr)
    simp [loadMisaligned, funct3, loadFunct3]

/-- No device has an address in RAM. -/
theorem inRam_quiet (width : Width) (addr : Word) (inside : InRam width addr) : ¬ Device addr := by
  have positive : 0 < width.bytes := by
    rcases width.bytes_cases with size | size | size <;> omega
  have bound : addr.toNat + width.bytes ≤ 0x100000 := inside
  rintro (rfl | rfl | rfl)
  · change 0x20000000 + width.bytes ≤ 0x100000 at bound
    omega
  · change 0x02004000 + width.bytes ≤ 0x100000 at bound
    omega
  · change 0x0200BFF8 + width.bytes ≤ 0x100000 at bound
    omega

/-! ## Accesses after translation -/

/-- The number that the read accessor of a width finds. -/
def readNumber (width : Width) (mem : Memory) (addr : Word) : Option Nat :=
  match width with
  | .byte => (memoryRead8 mem addr).map BitVec.toNat
  | .half => (memoryRead16 mem addr).map BitVec.toNat
  | .word => (memoryRead32 mem addr).map BitVec.toNat

/-- The write accessor of a width, on the low bits of a word. -/
def writeLow (width : Width) (mem : Memory) (addr value : Word) : Bool × Memory :=
  match width with
  | .byte => memoryWrite8 mem addr (value.setWidth 8)
  | .half => memoryWrite16 mem addr (value.setWidth 16)
  | .word => memoryWrite32 mem addr value

/-- The tests of both accessors. -/
def Passes (width : Width) (mem : Memory) (addr : Word) : Prop :=
  match width with
  | .byte => ¬ addr ≥ mem.size
  | .half => ¬ addr + 2 > mem.size
  | .word => ¬ addr + 4 > mem.size

section Accesses

variable (mem : Memory) (width : Width) (addr : Word)

/-- Below the end of the address space, they are the bounds of RAM. -/
theorem passes_iff (noWrap : width = .byte ∨ addr.toNat + width.bytes < 2 ^ 32) :
    Passes width mem addr ↔ InRam width addr := by
  cases width with
  | byte => exact (byte_test mem addr).trans (inBounds_iff mem addr 1 (by decide))
  | half =>
    have small : addr.toNat + 2 < 2 ^ 32 := noWrap.resolve_left Width.noConfusion
    exact (sum_test mem addr 2 (by decide) (by decide) small).trans
      (inBounds_iff mem addr 2 (by decide))
  | word =>
    have small : addr.toNat + 4 < 2 ^ 32 := noWrap.resolve_left Width.noConfusion
    exact (sum_test mem addr 4 (by decide) (by decide) small).trans
      (inBounds_iff mem addr 4 (by decide))

/-- An address in RAM passes. -/
theorem inRam_passes (inside : InRam width addr) : Passes width mem addr := by
  have bound : addr.toNat + width.bytes ≤ 0x100000 := inside
  exact (passes_iff mem width addr (Or.inr (by omega))).mpr inside

theorem readNumber_eq :
    (Passes width mem addr → readNumber width mem addr = some (number mem.data addr width.bytes)) ∧
      (¬ Passes width mem addr → readNumber width mem addr = none) := by
  cases width with
  | byte =>
    constructor
    · intro passed
      rw [readNumber, memoryRead8, if_neg passed, Width.bytes, ← byte_number]
      rfl
    · intro failed
      rw [readNumber, memoryRead8, if_pos (Classical.not_not.mp failed)]
      rfl
  | half =>
    constructor
    · intro passed
      rw [readNumber, memoryRead16, if_neg passed, Width.bytes, ← half_number]
      rfl
    · intro failed
      rw [readNumber, memoryRead16, if_pos (Classical.not_not.mp failed)]
      rfl
  | word =>
    constructor
    · intro passed
      rw [readNumber, memoryRead32, if_neg passed, Width.bytes, ← word_number]
      rfl
    · intro failed
      rw [readNumber, memoryRead32, if_pos (Classical.not_not.mp failed)]
      rfl

theorem writeLow_eq (value : Word) (quiet : ¬ Device addr) :
    (Passes width mem addr → writeLow width mem addr value =
      (true, { mem with data := overlay mem.data addr width.bytes value })) ∧
      (¬ Passes width mem addr → writeLow width mem addr value = (false, mem)) := by
  have silent : addr ≠ csrMmioUart := fun uart => quiet (Or.inl uart)
  cases width with
  | byte =>
    constructor
    · intro passed
      rw [writeLow, memoryWrite8, if_neg silent, if_neg passed, update_overlay]
      rfl
    · intro failed
      rw [writeLow, memoryWrite8, if_neg silent, if_pos (Classical.not_not.mp failed)]
  | half =>
    constructor
    · intro passed
      rw [writeLow, memoryWrite16, if_neg passed, putHalf_overlay]
      rfl
    · intro failed
      rw [writeLow, memoryWrite16, if_pos (Classical.not_not.mp failed)]
  | word =>
    constructor
    · intro passed
      rw [writeLow, memoryWrite32, if_neg passed, putWord_overlay]
      rfl
    · intro failed
      rw [writeLow, memoryWrite32, if_pos (Classical.not_not.mp failed)]

/-- The switch of `LOAD` reads the number and extends it. -/
theorem loadValue_number (inst : DecodedInst) (signed : Bool) (kind : IsLoad inst width signed) :
    loadValue mem inst.funct3 addr =
      some ((readNumber width mem addr).map (extended width signed)) := by
  have funct3 := kind.funct3
  cases width with
  | byte =>
    cases signed with
    | true =>
      change inst.funct3 = 0#3 at funct3
      simp only [loadValue, funct3, readNumber, Option.map_map]
      congr 2
      funext byte
      simp [extended, Width.bytes]
    | false =>
      change inst.funct3 = 4#3 at funct3
      simp only [loadValue, funct3, readNumber, Option.map_map]
      congr 2
      funext byte
      simp [extended]
  | half =>
    cases signed with
    | true =>
      change inst.funct3 = 1#3 at funct3
      simp only [loadValue, funct3, readNumber, Option.map_map]
      congr 2
      funext byte
      simp [extended, Width.bytes]
    | false =>
      change inst.funct3 = 5#3 at funct3
      simp only [loadValue, funct3, readNumber, Option.map_map]
      congr 2
      funext byte
      simp [extended]
  | word =>
    change inst.funct3 = 2#3 at funct3
    simp only [loadValue, funct3, readNumber, Option.map_map]
    cases memoryRead32 mem addr with
    | none => rfl
    | some word => cases signed <;> simp [extended, Width.bytes]

/-- The switch of `STORE` writes the low bytes of its operand. -/
theorem storeAccess_low (emu : Emulator) (inst : DecodedInst) (va : Word)
    (kind : IsStore inst width) (quiet : ¬ Device addr) :
    storeAccess inst va emu addr =
      finishStore emu inst va addr width
        (writeLow width emu.mem addr (regRead emu.rf inst.rs2)) := by
  have funct3 := kind.funct3
  have timer : ¬ (inst.funct3 = 2 ∧ addr = clintMtimecmpLo) :=
    fun both => quiet (Or.inr (Or.inl both.2))
  rw [storeAccess, if_neg timer]
  cases width with
  | byte =>
    change inst.funct3 = 0#3 at funct3
    simp only [funct3]
    rfl
  | half =>
    change inst.funct3 = 1#3 at funct3
    simp only [funct3]
    rfl
  | word =>
    change inst.funct3 = 2#3 at funct3
    simp only [funct3]
    rfl

end Accesses

/-! ## Execution -/

section Execution

variable (host : HostFloat) (emu : Emulator) (inst : DecodedInst) (machine : emu.priv = privM)

/-- Machine mode translates nothing. -/
theorem translateThen_machine (va : Word) (acc : Access) (access : Emulator → Word → Exec)
    (machine : emu.priv = privM) : translateThen emu va acc access = access emu va := by
  rw [translateThen, mmuTranslate, if_pos (Or.inl machine)]

/-- An exception of a machine with a handler leaves memory and registers alone. -/
theorem except_refused (cause addr : Word) (legal : cause ≠ excIllegalInst)
    (handler : emu.csr.mtvec ≠ 0) (machine : emu.priv = privM)
    (switched : execSwitch host emu inst = .except emu cause addr) :
    Refused host emu inst cause addr := by
  have level : delegated emu cause = false := by
    simp only [delegated, machine]
    exact decide_eq_false (fun sent => absurd sent.1 (by decide))
  have raised : trapRaise emu cause addr emu.rf.pc =
      (true, enterMachine emu cause addr emu.rf.pc) := by
    rw [trapRaise, level, if_neg handler]
    rfl
  refine ⟨enterMachine emu cause addr emu.rf.pc, ?_, rfl, rfl, rfl, rfl, rfl⟩
  simp only [execute, switched, if_neg legal, raiseOrStop, raised]

/-- The end of a store that was performed or refused. -/
theorem finishStore_stored (va addr value : Word) (width : Width) :
    finishStore emu inst va addr width
        (true, { emu.mem with data := overlay emu.mem.data addr width.bytes value }) =
      .next { storedState emu inst width addr value with rf := emu.rf } (seqPc emu inst)
        (.stored addr width) := by
  rw [finishStore, if_pos rfl, dropReservation_valid]
  rfl

/-- A store in RAM. -/
theorem store_executes (width : Width) (kind : IsStore inst width) (machine : emu.priv = privM)
    (natural : Natural width (effective emu inst)) (inside : InRam width (effective emu inst)) :
    execute host emu inst =
      (.retired (.stored (effective emu inst) width),
        storedState emu inst width (effective emu inst) (regRead emu.rf inst.rs2)) := by
  have quiet := inRam_quiet width _ inside
  have passed := inRam_passes emu.mem width _ inside
  have aligned : ¬ storeMisaligned inst (effective emu inst) = true :=
    fun odd => (storeMisaligned_iff inst width _ kind).mp odd natural
  have switched : execSwitch host emu inst = .next
      { storedState emu inst width (effective emu inst) (regRead emu.rf inst.rs2) with
        rf := emu.rf }
      (seqPc emu inst) (.stored (effective emu inst) width) := by
    simp only [execSwitch, kind.opcode]
    change (if storeMisaligned inst (effective emu inst) = true then _
      else translateThen emu (effective emu inst) .store
        (storeAccess inst (effective emu inst))) = _
    rw [if_neg aligned, translateThen_machine emu _ _ _ machine,
      storeAccess_low width _ emu inst _ kind quiet, (writeLow_eq emu.mem width _ _ quiet).1 passed,
      finishStore_stored]
  simp only [execute, switched]
  rfl

/-- A load in RAM. -/
theorem load_executes (width : Width) (signed : Bool) (kind : IsLoad inst width signed)
    (machine : emu.priv = privM) (natural : Natural width (effective emu inst))
    (inside : InRam width (effective emu inst)) :
    execute host emu inst =
      (.retired .quiet,
        loadedState emu inst
          (extended width signed (number emu.mem.data (effective emu inst) width.bytes))) := by
  have quiet := inRam_quiet width _ inside
  have passed := inRam_passes emu.mem width _ inside
  have aligned : ¬ loadMisaligned inst (effective emu inst) = true :=
    fun odd => (loadMisaligned_iff inst width signed _ kind).mp odd natural
  have timer : ¬ (inst.funct3 = 2 ∧ effective emu inst = clintMtimeLo) :=
    fun both => quiet (Or.inr (Or.inr both.2))
  apply BaseInstructions.execute_written
  simp only [execSwitch, kind.opcode]
  change (if loadMisaligned inst (effective emu inst) = true then _
    else translateThen emu (effective emu inst) .load (loadAccess inst (effective emu inst))) = _
  rw [if_neg aligned, translateThen_machine emu _ _ _ machine, loadAccess, if_neg timer,
    loadValue_number emu.mem width _ inst signed kind,
    (readNumber_eq emu.mem width _).1 passed]
  rfl

/-- A store off its alignment. -/
theorem store_misaligned (width : Width) (kind : IsStore inst width) (machine : emu.priv = privM)
    (handler : emu.csr.mtvec ≠ 0) (odd : ¬ Natural width (effective emu inst)) :
    Refused host emu inst excStoreMisaligned (effective emu inst) := by
  apply except_refused host emu inst _ _ (by decide) handler machine
  simp only [execSwitch, kind.opcode]
  exact if_pos ((storeMisaligned_iff inst width _ kind).mpr odd)

theorem load_misaligned (width : Width) (signed : Bool) (kind : IsLoad inst width signed)
    (machine : emu.priv = privM) (handler : emu.csr.mtvec ≠ 0)
    (odd : ¬ Natural width (effective emu inst)) :
    Refused host emu inst excLoadMisaligned (effective emu inst) := by
  apply except_refused host emu inst _ _ (by decide) handler machine
  simp only [execSwitch, kind.opcode]
  exact if_pos ((loadMisaligned_iff inst width signed _ kind).mpr odd)

/-- An address below the last word does not wrap in the tests. -/
theorem below_end (width : Width) (addr : Word) (below : addr < 0xFFFFFFFC) :
    width = .byte ∨ addr.toNat + width.bytes < 2 ^ 32 := by
  right
  have bound : addr.toNat < 0xFFFFFFFC := below
  rcases width.bytes_cases with size | size | size <;> omega

/-- A store outside RAM and the devices. -/
theorem store_outside (width : Width) (kind : IsStore inst width) (machine : emu.priv = privM)
    (handler : emu.csr.mtvec ≠ 0) (natural : Natural width (effective emu inst))
    (outside : ¬ InRam width (effective emu inst)) (below : effective emu inst < 0xFFFFFFFC)
    (quiet : ¬ Device (effective emu inst)) :
    Refused host emu inst excStoreAccess (effective emu inst) := by
  have failed : ¬ Passes width emu.mem (effective emu inst) :=
    mt (passes_iff emu.mem width _ (below_end width _ below)).mp outside
  have aligned : ¬ storeMisaligned inst (effective emu inst) = true :=
    fun odd => (storeMisaligned_iff inst width _ kind).mp odd natural
  apply except_refused host emu inst _ _ (by decide) handler machine
  simp only [execSwitch, kind.opcode]
  change (if storeMisaligned inst (effective emu inst) = true then _
    else translateThen emu (effective emu inst) .store (storeAccess inst (effective emu inst))) = _
  rw [if_neg aligned, translateThen_machine emu _ _ _ machine,
    storeAccess_low width _ emu inst _ kind quiet, (writeLow_eq emu.mem width _ _ quiet).2 failed]
  rfl

theorem load_outside (width : Width) (signed : Bool) (kind : IsLoad inst width signed)
    (machine : emu.priv = privM) (handler : emu.csr.mtvec ≠ 0)
    (natural : Natural width (effective emu inst)) (outside : ¬ InRam width (effective emu inst))
    (below : effective emu inst < 0xFFFFFFFC) (quiet : ¬ Device (effective emu inst)) :
    Refused host emu inst excLoadAccess (effective emu inst) := by
  have failed : ¬ Passes width emu.mem (effective emu inst) :=
    mt (passes_iff emu.mem width _ (below_end width _ below)).mp outside
  have aligned : ¬ loadMisaligned inst (effective emu inst) = true :=
    fun odd => (loadMisaligned_iff inst width signed _ kind).mp odd natural
  have timer : ¬ (inst.funct3 = 2 ∧ effective emu inst = clintMtimeLo) :=
    fun both => quiet (Or.inr (Or.inr both.2))
  apply except_refused host emu inst _ _ (by decide) handler machine
  simp only [execSwitch, kind.opcode]
  change (if loadMisaligned inst (effective emu inst) = true then _
    else translateThen emu (effective emu inst) .load (loadAccess inst (effective emu inst))) = _
  rw [if_neg aligned, translateThen_machine emu _ _ _ machine, loadAccess, if_neg timer,
    loadValue_number emu.mem width _ inst signed kind, (readNumber_eq emu.mem width _).2 failed]
  rfl

end Execution

/-! ## Agreement -/

/-- Loads and stores agree in every machine-mode state. -/
theorem loads_stores_agree (host : HostFloat) (emu : Emulator) (machine : emu.priv = privM) :
    Agrees host emu where
  agree := by
    intro store load m n signed storing loading storeNatural storeInside loadNatural loadInside
    refine ⟨store_executes host emu store m storing machine storeNatural storeInside, ?_⟩
    exact load_executes host (storedState emu store m (effective emu store)
      (regRead emu.rf store.rs2)) load n signed loading machine loadNatural loadInside
  storeMisaligned := fun inst width kind handler odd =>
    store_misaligned host emu inst width kind machine handler odd
  loadMisaligned := fun inst width signed kind handler odd =>
    load_misaligned host emu inst width signed kind machine handler odd
  storeOutside := fun inst width kind handler natural outside below quiet =>
    store_outside host emu inst width kind machine handler natural outside below quiet
  loadOutside := fun inst width signed kind handler natural outside below quiet =>
    load_outside host emu inst width signed kind machine handler natural outside below quiet

/-- A running machine with a handler, with an address in `x1` and a value in `x2`. -/
def halfwordState : Emulator :=
  let emu := loadImage (emuInit (fun _ => 0)) (programImage 0x1000 [])
  let regs := InstructionSet.put (InstructionSet.put emu.rf.regs 1 0x2004) 2 0x12348001
  { emu with csr := { csrInit with mtvec := 0x100 }, rf := { emu.rf with regs } }

/-- After `sh x2, -2(x1)`, `lw x3, -4(x1)` finds two old bytes and two new ones. -/
theorem halfwordState_agrees :
    Agrees idleHost halfwordState ∧
      ∃ store load, decode 0xFE209F23 = some store ∧ decode 0xFFC0A183 = some load ∧
        (execute idleHost (execute idleHost halfwordState store).2 load).2.rf.regs 3 =
          0x80010000 := by
  refine ⟨loads_stores_agree idleHost halfwordState rfl, _, _, rfl, rfl, ?_⟩
  decide

end RvEmu.GuestMemory
