import RvEmu.Csr
import RvEmu.Decode

/-!
# The machine state

`emulator_t` holds memory, the register file, the CSRs, the machine timer, the
privilege level, the LR/SC reservation and the run state. Console output is not
part of it: the source writes characters to the host and never reads them back.
-/

namespace RvEmu

open LittleEndian

/-- `regfile_t`. A register number has five bits, so every access is inside the
arrays. -/
structure Regfile where
  regs : Reg → Word
  fregs : Reg → Word
  pc : Word

/-- `regfile_init`. -/
def regfileInit : Regfile where
  regs := fun _ => 0
  fregs := fun _ => 0
  pc := 0

def regRead (rf : Regfile) (idx : Reg) : Word := rf.regs idx

/-- `reg_write`: writes to `x0` are dropped. -/
def regWrite (rf : Regfile) (idx : Reg) (val : Word) : Regfile :=
  if idx = 0 then rf else { rf with regs := Function.update rf.regs idx val }

/-- `emu->rf.fregs[idx] = val`. -/
def fregWrite (rf : Regfile) (idx : Reg) (val : Word) : Regfile :=
  { rf with fregs := Function.update rf.fregs idx val }

/-- `emu_state_t`. -/
inductive EmuState where
  | running
  | halted
  | exception
deriving DecidableEq

/-- `emulator_t`. The reservation flag is only ever 0 or 1. -/
structure Emulator where
  mem : Memory
  rf : Regfile
  csr : Csr
  mtime : DWord
  mtimecmp : DWord
  priv : Word
  reservationValid : Bool
  reservationAddr : Word
  state : EmuState
  entry : Word
  exitCode : Word

/-- The machine with other memory contents. -/
def withMem (emu : Emulator) (mem : Memory) : Emulator := { emu with mem := mem }

/-- `emu_init`, with the host's bytes after the allocation. `trap_init` clears
the timer and `mstatus`, which are zero already. -/
def emuInit (beyond : Store) : Emulator where
  mem := memoryInit beyond
  rf := regfileInit
  csr := csrInit
  mtime := 0
  mtimecmp := 0
  priv := privM
  reservationValid := false
  reservationAddr := 0
  state := .halted
  entry := 0
  exitCode := 0

/-- A program image: the contents a loader leaves in memory and the entry
address it reports. -/
structure Image where
  data : Store
  entry : Word

/-- What `emu_load_elf` does to the machine once the image is in memory. -/
def loadImage (emu : Emulator) (image : Image) : Emulator :=
  { emu with
    mem := { emu.mem with data := image.data }
    entry := image.entry
    rf := { emu.rf with pc := image.entry }
    state := .running
    exitCode := 0 }

/-- The image of a program: its words in order from the entry address, and zeros
    elsewhere. -/
def programImage (entry : Word) (program : List Word) : Image where
  data := fun index =>
    match program[(index - entry).toNat / 4]? with
    | some word => byteOf word ((index - entry).toNat % 4)
    | none => 0
  entry := entry

/-- The image holds the program's words in order. -/
theorem programImage_word (entry : Word) (program : List Word) (k : Nat)
    (bound : 4 * k + 4 ≤ 2 ^ 32) :
    wordAt (programImage entry program).data (entry + BitVec.ofNat 32 (4 * k)) =
      (program[k]?).getD 0 := by
  have bytes : ∀ index j, j < 4 → (index - entry).toNat = 4 * k + j →
      (programImage entry program).data index = byteOf ((program[k]?).getD 0) j := by
    intro index j small distance
    have word : (4 * k + j) / 4 = k := by omega
    have rest : (4 * k + j) % 4 = j := by omega
    dsimp only [programImage]
    rw [distance, word, rest]
    cases program[k]? with
    | none => simp [byteOf]
    | some value => rfl
  rw [← join_bytes ((program[k]?).getD 0), wordAt, bytes _ 0 (by decide), bytes _ 1 (by decide),
    bytes _ 2 (by decide), bytes _ 3 (by decide)]
  · bv_omega
  · bv_omega
  · bv_omega
  · bv_omega

/-- The states execution starts from: a reset machine, with or without an image. -/
inductive Boot : Emulator → Prop where
  | reset (beyond : Store) : Boot (emuInit beyond)
  | loaded (beyond : Store) (image : Image) : Boot (loadImage (emuInit beyond) image)

@[simp] theorem regWrite_pc (rf : Regfile) (idx : Reg) (val : Word) :
    (regWrite rf idx val).pc = rf.pc := by
  simp only [regWrite]
  split <;> rfl

@[simp] theorem regWrite_zero (rf : Regfile) (idx : Reg) (val : Word) :
    (regWrite rf idx val).regs 0 = rf.regs 0 := by
  simp only [regWrite]
  split
  · rfl
  · rename_i written
    exact Function.update_of_ne (fun zero => written zero.symm) val rf.regs

end RvEmu
