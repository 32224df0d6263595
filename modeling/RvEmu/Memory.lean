import RvEmu.Foundation.LittleEndian
import RvEmu.Foundation.Regions

/-!
# The emulator's byte memory

`memory_t` is an array of `size` bytes reached through six accessors that test
the address first. The model keeps a byte at every 32-bit index, because the
accessors compute indices in 32 bits and an index past the array is where a
wrong test would lead: indices at or above `size` are host memory after the
allocation, about which C promises nothing.

The tests add the access width to the address in 32 bits. That sum wraps for an
access reaching the last addresses of the space, and exactly there a test
accepts an access that lies outside the array.
-/

namespace RvEmu

open LittleEndian

/-- `u8`, `u16`, `u32` and `u64`. -/
abbrev Byte := BitVec 8
abbrev Half := BitVec 16
abbrev Word := BitVec 32
abbrev DWord := BitVec 64

/-- `MEM_SIZE`: one mebibyte. -/
def memSize : Word := 0x100000#32

/-- `CSR_MMIO_UART`: a byte stored here is printed and reaches no memory. -/
def csrMmioUart : Word := 0x20000000#32

/-- `memory_t` as `memory_init` builds it. No function changes the size while
the memory is in use, so the size comes with its value. -/
structure Memory where
  data : Store
  size : Word
  sized : size = memSize

/-- `memory_init`: the array is zeroed; what the host keeps after it is not. -/
def memoryInit (beyond : Store) : Memory where
  data := fun index => if index < memSize then 0 else beyond index
  size := memSize
  sized := rfl

/-- The widths of the accessors. -/
inductive Width where
  | byte
  | half
  | word
deriving DecidableEq

def Width.bytes : Width → Nat
  | .byte => 1
  | .half => 2
  | .word => 4

/-- `F3_SB`, `F3_SH` and `F3_SW`. -/
def Width.funct3 : Width → BitVec 3
  | .byte => 0
  | .half => 1
  | .word => 2

theorem Width.bytes_cases (width : Width) :
    width.bytes = 1 ∨ width.bytes = 2 ∨ width.bytes = 4 := by
  cases width with
  | byte => exact Or.inl rfl
  | half => exact Or.inr (Or.inl rfl)
  | word => exact Or.inr (Or.inr rfl)

/-- Natural alignment depends on the offset in the page alone. -/
theorem Width.natural_offset (width : Width) (va pa : Word)
    (offset : pa.toNat % 4096 = va.toNat % 4096) (natural : va.toNat % width.bytes = 0) :
    pa.toNat % width.bytes = 0 := by
  rcases width.bytes_cases with size | size | size <;> rw [size] at natural ⊢ <;> omega

def memoryRead8 (mem : Memory) (addr : Word) : Option Byte :=
  if addr ≥ mem.size then none else some (mem.data addr)

def memoryRead16 (mem : Memory) (addr : Word) : Option Half :=
  if addr + 2 > mem.size then none else some (halfAt mem.data addr)

def memoryRead32 (mem : Memory) (addr : Word) : Option Word :=
  if addr + 4 > mem.size then none else some (wordAt mem.data addr)

def memoryWrite8 (mem : Memory) (addr : Word) (val : Byte) : Bool × Memory :=
  if addr = csrMmioUart then (true, mem)
  else if addr ≥ mem.size then (false, mem)
  else (true, { mem with data := Function.update mem.data addr val })

def memoryWrite16 (mem : Memory) (addr : Word) (val : Half) : Bool × Memory :=
  if addr + 2 > mem.size then (false, mem)
  else (true, { mem with data := putHalf mem.data addr val })

def memoryWrite32 (mem : Memory) (addr : Word) (val : Word) : Bool × Memory :=
  if addr + 4 > mem.size then (false, mem)
  else (true, { mem with data := putWord mem.data addr val })

/-- `memory_load`: the number of bytes copied, and the memory. `memcpy` goes up through
host addresses, which do not wrap after 32 bits. -/
def memoryLoad (mem : Memory) (addr : Word) (src : Nat → Byte) (len : Word) : Word × Memory :=
  let len :=
    if addr + len > mem.size then
      if addr < mem.size then mem.size - addr else 0
    else len
  (len,
    { mem with
      data := Regions.lay { start := addr.toNat, count := len.toNat, cell := src } mem.data })

theorem size_toNat (mem : Memory) : mem.size.toNat = 0x100000 := by
  rw [mem.sized]
  rfl

/-! ## Memories that agree on a place -/

/-- The memories agree on the place. -/
def Agrees (place : Word → Prop) (left right : Memory) : Prop :=
  AgreeOn place left.data right.data

/-- All memories have one size. -/
theorem same_size (left right : Memory) : right.size = left.size := by
  rw [right.sized, left.sized]

section Agreement

variable (place : Word → Prop) (left right : Memory) (addr : Word)

theorem read8_agree (agree : Agrees place left right)
    (inside : ∀ index, Spans addr 1 index → place index) :
    memoryRead8 right addr = memoryRead8 left addr := by
  have here : Spans addr 1 addr := by simp [Spans]
  rw [memoryRead8, memoryRead8, same_size left right, agree addr (inside addr here)]

theorem read16_agree (agree : Agrees place left right)
    (inside : ∀ index, Spans addr 2 index → place index) :
    memoryRead16 right addr = memoryRead16 left addr := by
  rw [memoryRead16, memoryRead16, same_size left right, agree_half place _ _ addr agree inside]

theorem read32_agree (agree : Agrees place left right)
    (inside : ∀ index, Spans addr 4 index → place index) :
    memoryRead32 right addr = memoryRead32 left addr := by
  rw [memoryRead32, memoryRead32, same_size left right, agree_word place _ _ addr agree inside]

/-- Both memories perform the same write or refuse it. -/
def WrittenAlike (one other : Bool × Memory) : Prop :=
  other.1 = one.1 ∧ Agrees place one.2 other.2

theorem write8_agree (val : Byte) (agree : Agrees place left right) :
    WrittenAlike place (memoryWrite8 left addr val) (memoryWrite8 right addr val) := by
  obtain ⟨leftData, leftSize, rfl⟩ := left
  obtain ⟨rightData, rightSize, rfl⟩ := right
  simp only [memoryWrite8]
  split
  · exact ⟨rfl, agree⟩
  · split
    · exact ⟨rfl, agree⟩
    · exact ⟨rfl, agree_update place _ _ addr val agree⟩

theorem write16_agree (val : Half) (agree : Agrees place left right) :
    WrittenAlike place (memoryWrite16 left addr val) (memoryWrite16 right addr val) := by
  obtain ⟨leftData, leftSize, rfl⟩ := left
  obtain ⟨rightData, rightSize, rfl⟩ := right
  simp only [memoryWrite16]
  split
  · exact ⟨rfl, agree⟩
  · exact ⟨rfl, agree_putHalf place _ _ addr val agree⟩

theorem write32_agree (val : Word) (agree : Agrees place left right) :
    WrittenAlike place (memoryWrite32 left addr val) (memoryWrite32 right addr val) := by
  obtain ⟨leftData, leftSize, rfl⟩ := left
  obtain ⟨rightData, rightSize, rfl⟩ := right
  simp only [memoryWrite32]
  split
  · exact ⟨rfl, agree⟩
  · exact ⟨rfl, agree_putWord place _ _ addr val agree⟩

end Agreement

end RvEmu
