import RvEmu.Memory

/-!
# The bounds law of the memory accessors

The law of an accessor of width `n` says three things of one call: it succeeds
exactly when each of the `n` indices, counted without wrapping, lies in the
array; it depends on and changes no byte outside the array; and a refused write
changes nothing. The byte store at the UART succeeds without touching memory.

An accessor that forms the sum of address and width satisfies the law exactly
when that sum does not wrap. For the last addresses of the space the sum is
small again, the test passes, and the access lies outside the array.
-/

namespace RvEmu.MemoryBounds

open LittleEndian

/-- Every index of the access, as a natural number, lies in the array. -/
def InBounds (mem : Memory) (addr : Word) (count : Nat) : Prop :=
  ∀ k, k < count → addr.toNat + k < mem.size.toNat

/-- A read succeeds exactly in bounds and its result depends on no byte outside
the array. -/
structure ReadLaw {α : Type} (read : Memory → Word → Option α) (count : Nat)
    (mem : Memory) (addr : Word) : Prop where
  accepts : (read mem addr).isSome = true ↔ InBounds mem addr count
  confined : ∀ other : Memory, (∀ index, index < mem.size → other.data index = mem.data index) →
    read other addr = read mem addr

/-- A write succeeds exactly in bounds or at a device, reaches no byte outside
the array and none at all at the device, and changes nothing when it refuses. -/
structure WriteLaw {α : Type} (write : Memory → Word → α → Bool × Memory) (count : Nat)
    (device : Word → Prop) (mem : Memory) (addr : Word) : Prop where
  accepts : ∀ val, (write mem addr val).1 = true ↔ device addr ∨ InBounds mem addr count
  confined : ∀ val index, ¬ index < mem.size → (write mem addr val).2.data index = mem.data index
  untouched : ∀ val, device addr → (write mem addr val).2 = mem
  refused : ∀ val, (write mem addr val).1 = false → (write mem addr val).2 = mem

/-- The law of the read accessor of each width. -/
def ReadChecked : Width → Memory → Word → Prop
  | .byte => ReadLaw memoryRead8 1
  | .half => ReadLaw memoryRead16 2
  | .word => ReadLaw memoryRead32 4

/-- The law of the write accessor of each width; only the byte store knows the
UART. -/
def WriteChecked : Width → Memory → Word → Prop
  | .byte => WriteLaw memoryWrite8 1 (· = csrMmioUart)
  | .half => WriteLaw memoryWrite16 2 (fun _ => False)
  | .word => WriteLaw memoryWrite32 4 (fun _ => False)

/-- The sum in the bounds test does not wrap; the byte accessors form no sum. -/
def NoWrap (width : Width) (addr : Word) : Prop :=
  width = .byte ∨ addr.toNat + width.bytes < 2 ^ 32

/-- Being in bounds is a bound on the last index. -/
theorem inBounds_iff (mem : Memory) (addr : Word) (count : Nat) (positive : 0 < count) :
    InBounds mem addr count ↔ addr.toNat + count ≤ 0x100000 := by
  rw [InBounds, size_toNat]
  constructor
  · intro inside
    have last := inside (count - 1) (by omega)
    omega
  · intro bound k below
    omega

/-- The test of the byte accessors is the bound itself. -/
theorem byte_test (mem : Memory) (addr : Word) :
    ¬ addr ≥ mem.size ↔ InBounds mem addr 1 := by
  rw [inBounds_iff mem addr 1 (by decide), ge_iff_le, BitVec.le_def, size_toNat]
  omega

/-- Without wrapping, the test of a wider accessor is the bound. -/
theorem sum_test (mem : Memory) (addr : Word) (count : Nat) (positive : 0 < count)
    (small : count < 2 ^ 32) (noWrap : addr.toNat + count < 2 ^ 32) :
    ¬ addr + BitVec.ofNat 32 count > mem.size ↔ InBounds mem addr count := by
  rw [inBounds_iff mem addr count positive, gt_iff_lt, BitVec.lt_def, size_toNat,
    BitVec.toNat_add, BitVec.toNat_ofNat, Nat.mod_eq_of_lt small, Nat.mod_eq_of_lt noWrap]
  omega

/-- With wrapping, the test passes although the access lies outside the array. -/
theorem wrapped_test (mem : Memory) (addr : Word) (count : Nat) (positive : 0 < count)
    (small : count ≤ 0x100000) (wraps : ¬ addr.toNat + count < 2 ^ 32) :
    ¬ addr + BitVec.ofNat 32 count > mem.size ∧ ¬ InBounds mem addr count := by
  have bound : addr.toNat < 2 ^ 32 := addr.isLt
  rw [inBounds_iff mem addr count positive, gt_iff_lt, BitVec.lt_def, size_toNat,
    BitVec.toNat_add, BitVec.toNat_ofNat]
  omega

/-- In bounds, the span of an access is inside the array. -/
theorem span_inside (mem : Memory) (addr : Word) (count : Nat) (positive : 0 < count)
    (inside : InBounds mem addr count) (index : Word) (member : Spans addr count index) :
    index < mem.size := by
  rw [inBounds_iff mem addr count positive] at inside
  have low : addr.toNat < 2 ^ 32 := addr.isLt
  have high : index.toNat < 2 ^ 32 := index.isLt
  rw [Spans, BitVec.toNat_sub] at member
  rw [BitVec.lt_def, size_toNat]
  omega

section Accessors

variable {α : Type} (mem : Memory) (addr : Word) (count : Nat) (positive : 0 < count)
  (small : count ≤ 0x100000)
include positive small

/-- A read of the common shape obeys the law exactly when its sum does not wrap.
A wrapped read succeeds outside the array, against the first part of the law. -/
theorem read_law_iff (read : Memory → Word → Option α) (value : Store → α)
    (shape : ∀ m : Memory, read m addr =
      if addr + BitVec.ofNat 32 count > m.size then none else some (value m.data))
    (spanned : ∀ left right : Store,
      (∀ index, Spans addr count index → left index = right index) → value left = value right) :
    ReadLaw read count mem addr ↔ addr.toNat + count < 2 ^ 32 := by
  constructor
  · intro law
    by_contra wraps
    obtain ⟨passes, outside⟩ := wrapped_test mem addr count positive small wraps
    apply outside
    apply law.accepts.mp
    rw [shape, if_neg passes]
    rfl
  · intro noWrap
    have test := sum_test mem addr count positive (by omega) noWrap
    constructor
    · rw [← test, shape]
      by_cases refused : addr + BitVec.ofNat 32 count > mem.size
      · simp [refused]
      · simp [refused]
    · intro other same
      have sizes : other.size = mem.size := other.sized.trans mem.sized.symm
      rw [shape, shape, sizes]
      by_cases refused : addr + BitVec.ofNat 32 count > mem.size
      · rw [if_pos refused, if_pos refused]
      · rw [if_neg refused, if_neg refused]
        congr 1
        apply spanned
        intro index member
        exact same index (span_inside mem addr count positive (test.mp refused) index member)

/-- A write of the common shape obeys the law exactly when its sum does not
wrap. -/
theorem write_law_iff (val : α) (write : Memory → Word → α → Bool × Memory)
    (put : Store → α → Store)
    (shape : ∀ val, write mem addr val =
      if addr + BitVec.ofNat 32 count > mem.size then (false, mem)
      else (true, { mem with data := put mem.data val }))
    (frame : ∀ val index, ¬ Spans addr count index → put mem.data val index = mem.data index) :
    WriteLaw write count (fun _ => False) mem addr ↔ addr.toNat + count < 2 ^ 32 := by
  constructor
  · intro law
    by_contra wraps
    obtain ⟨passes, outside⟩ := wrapped_test mem addr count positive small wraps
    have accepted : (write mem addr val).1 = true := by
      rw [shape, if_neg passes]
    exact outside (((law.accepts val).mp accepted).resolve_left id)
  · intro noWrap
    have test := sum_test mem addr count positive (by omega) noWrap
    refine ⟨?_, ?_, fun _ => False.elim, ?_⟩
    · intro val
      rw [← test, shape, false_or]
      by_cases refused : addr + BitVec.ofNat 32 count > mem.size
      · simp [refused]
      · simp [refused]
    · intro val index outside
      rw [shape]
      by_cases refused : addr + BitVec.ofNat 32 count > mem.size
      · rw [if_pos refused]
      · rw [if_neg refused]
        apply frame
        intro member
        exact outside (span_inside mem addr count positive (test.mp refused) index member)
    · intro val refusal
      rw [shape] at refusal ⊢
      by_cases refused : addr + BitVec.ofNat 32 count > mem.size
      · rw [if_pos refused]
      · rw [if_neg refused] at refusal
        cases refusal

end Accessors

/-- The byte read forms no sum and obeys the law at every address. -/
theorem byte_read_law (mem : Memory) (addr : Word) : ReadLaw memoryRead8 1 mem addr := by
  have test := byte_test mem addr
  constructor
  · rw [← test, memoryRead8]
    by_cases refused : addr ≥ mem.size
    · simp [refused]
    · simp [refused]
  · intro other same
    have sizes : other.size = mem.size := other.sized.trans mem.sized.symm
    rw [memoryRead8, memoryRead8, sizes]
    by_cases refused : addr ≥ mem.size
    · rw [if_pos refused, if_pos refused]
    · rw [if_neg refused, if_neg refused, same addr (BitVec.not_le.mp refused)]

/-- The byte store obeys the law at every address, the UART being its device. -/
theorem byte_write_law (mem : Memory) (addr : Word) :
    WriteLaw memoryWrite8 1 (· = csrMmioUart) mem addr := by
  have test := byte_test mem addr
  refine ⟨?_, ?_, ?_, ?_⟩
  · intro val
    rw [← test, memoryWrite8]
    by_cases device : addr = csrMmioUart
    · simp [device]
    · by_cases refused : addr ≥ mem.size
      · simp [device, refused]
      · simp [device, refused]
  · intro val index outside
    rw [memoryWrite8]
    by_cases device : addr = csrMmioUart
    · rw [if_pos device]
    · by_cases refused : addr ≥ mem.size
      · rw [if_neg device, if_pos refused]
      · rw [if_neg device, if_neg refused]
        have distinct : index ≠ addr := by
          rintro rfl
          exact outside (BitVec.not_le.mp refused)
        simp only [Function.update_apply, distinct, if_false]
  · intro val device
    rw [memoryWrite8, if_pos device]
  · intro val refusal
    rw [memoryWrite8] at refusal ⊢
    by_cases device : addr = csrMmioUart
    · rw [if_pos device]
    · by_cases refused : addr ≥ mem.size
      · rw [if_neg device, if_pos refused]
      · rw [if_neg device, if_neg refused] at refusal
        cases refusal

theorem half_read_law_iff (mem : Memory) (addr : Word) :
    ReadLaw memoryRead16 2 mem addr ↔ addr.toNat + 2 < 2 ^ 32 :=
  read_law_iff mem addr 2 (by decide) (by decide) memoryRead16
    (fun data => halfAt data addr) (fun _ => rfl)
    (fun left right same => halfAt_congr left right addr same)

theorem word_read_law_iff (mem : Memory) (addr : Word) :
    ReadLaw memoryRead32 4 mem addr ↔ addr.toNat + 4 < 2 ^ 32 :=
  read_law_iff mem addr 4 (by decide) (by decide) memoryRead32
    (fun data => wordAt data addr) (fun _ => rfl)
    (fun left right same => wordAt_congr left right addr same)

/-- Each accessor obeys its law at an address exactly when its bounds test does
not wrap there. The byte accessors never wrap; the halfword test wraps at the
last two addresses of the space and the word test at the last four. -/
theorem bounds_checked_iff (width : Width) (mem : Memory) (addr : Word) :
    (ReadChecked width mem addr ↔ NoWrap width addr) ∧
      (WriteChecked width mem addr ↔ NoWrap width addr) := by
  cases width with
  | byte =>
    have always : NoWrap .byte addr := Or.inl rfl
    exact ⟨iff_of_true (byte_read_law mem addr) always,
      iff_of_true (byte_write_law mem addr) always⟩
  | half =>
    have sum : NoWrap .half addr ↔ addr.toNat + 2 < 2 ^ 32 := by
      simp [NoWrap, Width.bytes]
    rw [sum]
    constructor
    · exact half_read_law_iff mem addr
    · exact write_law_iff mem addr 2 (by decide) (by decide) 0 memoryWrite16
        (fun data val => putHalf data addr val) (fun _ => rfl)
        (fun val index outside => putHalf_outside mem.data addr val index outside)
  | word =>
    have sum : NoWrap .word addr ↔ addr.toNat + 4 < 2 ^ 32 := by
      simp [NoWrap, Width.bytes]
    rw [sum]
    constructor
    · exact word_read_law_iff mem addr
    · exact write_law_iff mem addr 4 (by decide) (by decide) 0 memoryWrite32
        (fun data val => putWord data addr val) (fun _ => rfl)
        (fun val index outside => putWord_outside mem.data addr val index outside)

/-- At address 0xFFFFFFFC the word accessors of a fresh memory succeed although
all four indices lie past the array. -/
theorem word_access_escapes :
    ((memoryRead32 (memoryInit fun _ => 0) 0xFFFFFFFC#32).isSome = true ∧
        ¬ InBounds (memoryInit fun _ => 0) 0xFFFFFFFC#32 4 ∧
        (memoryWrite32 (memoryInit fun _ => 0) 0xFFFFFFFC#32 1#32).2.data 0xFFFFFFFC#32 ≠
          (memoryInit fun _ => 0).data 0xFFFFFFFC#32) ∧
      ¬ ReadChecked .word (memoryInit fun _ => 0) 0xFFFFFFFC#32 ∧
      ¬ WriteChecked .word (memoryInit fun _ => 0) 0xFFFFFFFC#32 := by
  have outside : ¬ InBounds (memoryInit fun _ => 0) 0xFFFFFFFC#32 4 := by
    rw [inBounds_iff _ _ 4 (by decide)]
    decide
  have read : (memoryRead32 (memoryInit fun _ => 0) 0xFFFFFFFC#32).isSome = true := by
    decide
  have written : (memoryWrite32 (memoryInit fun _ => 0) 0xFFFFFFFC#32 1#32).1 = true := by
    decide
  refine ⟨⟨read, outside, by decide⟩, ?_, ?_⟩
  · intro law
    exact outside (law.accepts.mp read)
  · intro law
    rcases (law.accepts 1#32).mp written with device | inside
    · exact device
    · exact outside inside

end RvEmu.MemoryBounds
