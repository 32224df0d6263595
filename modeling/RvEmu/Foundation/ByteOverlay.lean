import RvEmu.Foundation.BitMasks
import RvEmu.Foundation.LittleEndian

/-!
# Numbers in a byte store, and bytes laid over it

Reads of every width are one function of the store: the number whose digits to
base 256 are the bytes from an address up. Writes of every width are one too:
the low bytes of a word laid over the store. A read after a write then needs no
cases on the two widths and their overlap; it is the number in the overlaid
store.
-/

namespace RvEmu.ByteOverlay

open LittleEndian

/-- The number in `count` bytes, least significant first. -/
def number (data : Store) (addr : BitVec 32) : Nat → Nat
  | 0 => 0
  | count + 1 =>
    number data addr count + (data (addr + BitVec.ofNat 32 count)).toNat * 256 ^ count

/-- The low bytes of a word laid over `count` addresses. -/
def overlay (data : Store) (addr : BitVec 32) (count : Nat) (value : BitVec 32) : Store :=
  fun index =>
    if Spans addr count index then byteOf value (index - addr).toNat else data index

section Numbers

variable (data : Store) (addr : BitVec 32)

/-- The number fits its bytes. -/
theorem number_lt (count : Nat) : number data addr count < 256 ^ count := by
  induction count with
  | zero => exact Nat.one_pos
  | succ count below =>
    have byte := (data (addr + BitVec.ofNat 32 count)).isLt
    have digit : (data (addr + BitVec.ofNat 32 count)).toNat * 256 ^ count ≤ 255 * 256 ^ count :=
      Nat.mul_le_mul_right _ (by omega)
    rw [number, Nat.pow_succ]
    omega

/-- A byte is the number in one byte. -/
theorem byte_number : (data addr).toNat = number data addr 1 := by
  have here : addr + BitVec.ofNat 32 0 = addr := BitVec.add_zero addr
  rw [number, number, here, Nat.pow_zero, Nat.mul_one, Nat.zero_add]

/-- A byte shifted to its place. -/
theorem placed_byte {w : Nat} (byte : BitVec 8) (k : Nat) (inside : 8 * k + 8 ≤ w) :
    (byte.setWidth w <<< (8 * k)).toNat = byte.toNat * 256 ^ k := by
  have small := byte.isLt
  have power : 2 ^ (8 * k) = 256 ^ k := by
    rw [Nat.pow_mul]
  have room : 2 ^ (8 * k) * 2 ^ 8 ≤ 2 ^ w := by
    rw [← Nat.pow_add]
    exact Nat.pow_le_pow_right (by decide) inside
  have bound : byte.toNat * 2 ^ (8 * k) < 2 ^ w := by
    have scaled : byte.toNat * 2 ^ (8 * k) < 2 ^ 8 * 2 ^ (8 * k) :=
      Nat.mul_lt_mul_of_pos_right small (Nat.two_pow_pos _)
    rw [Nat.mul_comm] at room
    omega
  rw [BitVec.toNat_shiftLeft, BitVec.toNat_setWidth_of_le (by omega), Nat.shiftLeft_eq,
    Nat.mod_eq_of_lt bound, power]

/-- A byte joined above a number. -/
theorem join_byte {w : Nat} (low : BitVec w) (byte : BitVec 8) (k : Nat) (inside : 8 * k + 8 ≤ w)
    (small : low.toNat < 256 ^ k) :
    (low ||| byte.setWidth w <<< (8 * k)).toNat = low.toNat + byte.toNat * 256 ^ k := by
  have placed := placed_byte byte k inside
  have power : 2 ^ (8 * k) = 256 ^ k := by
    rw [Nat.pow_mul]
  have multiple : (byte.setWidth w <<< (8 * k)).toNat % 2 ^ (8 * k) = 0 := by
    rw [placed, power]
    exact Nat.mul_mod_left _ _
  rw [BitVec.or_comm, BitMasks.or_low _ _ (8 * k) multiple (by rw [power]; exact small), placed,
    Nat.add_comm]

/-- A halfword is the number in two bytes. -/
theorem half_number : (halfAt data addr).toNat = number data addr 2 := by
  have first := number_lt data addr 1
  have lowest : ((data addr).setWidth 16).toNat = number data addr 1 := by
    rw [BitVec.toNat_setWidth_of_le (by decide), byte_number]
  rw [halfAt, join_byte ((data addr).setWidth 16) (data (addr + 1)) 1 (by decide)
    (by rw [lowest]; exact first), lowest]
  rfl

/-- A word is the number in four bytes. -/
theorem word_number : (wordAt data addr).toNat = number data addr 4 := by
  have lowest : ((data addr).setWidth 32).toNat = number data addr 1 := by
    rw [BitVec.toNat_setWidth_of_le (by decide), byte_number]
  have second : ((data addr).setWidth 32 ||| (data (addr + 1)).setWidth 32 <<< 8).toNat =
      number data addr 2 := by
    have first := number_lt data addr 1
    rw [join_byte ((data addr).setWidth 32) (data (addr + 1)) 1 (by decide)
      (by rw [lowest]; exact first), lowest]
    rfl
  have third : ((data addr).setWidth 32 ||| (data (addr + 1)).setWidth 32 <<< 8 |||
      (data (addr + 2)).setWidth 32 <<< 16).toNat = number data addr 3 := by
    have below := number_lt data addr 2
    rw [join_byte _ (data (addr + 2)) 2 (by decide) (by rw [second]; exact below), second]
    rfl
  have below := number_lt data addr 3
  rw [wordAt, join_byte _ (data (addr + 3)) 3 (by decide) (by rw [third]; exact below), third]
  rfl

end Numbers

section Overlays

variable (data : Store) (addr value : BitVec 32)

/-- The overlay is determined by its bytes. -/
theorem eq_overlay (store : Store) (count : Nat)
    (inside : ∀ k, k < count → store (addr + BitVec.ofNat 32 k) = byteOf value k)
    (outside : ∀ index, ¬ Spans addr count index → store index = data index) :
    store = overlay data addr count value := by
  funext index
  by_cases spanned : Spans addr count index
  · have place : addr + BitVec.ofNat 32 (index - addr).toNat = index := by
      rw [BitVec.ofNat_toNat, BitVec.setWidth_eq, BitVec.add_comm, BitVec.sub_add_cancel]
    have byte := inside (index - addr).toNat spanned
    rw [place] at byte
    rw [byte, overlay, if_pos spanned]
  · rw [outside index spanned, overlay, if_neg spanned]

/-- The lowest two bytes of a word through its narrowings. -/
theorem low_byte : value.setWidth 8 = byteOf value 0 := by
  apply BitVec.eq_of_getLsbD_eq
  intro i inside
  rw [byteOf_bit value 0 i inside, BitVec.getLsbD_setWidth, decide_eq_true inside, Bool.true_and]
  simp

theorem half_bytes :
    ((value.setWidth 16 &&& 0xFF#16).setWidth 8) = byteOf value 0 ∧
      (((value.setWidth 16 >>> 8) &&& 0xFF#16).setWidth 8) = byteOf value 1 := by
  have mask : (0xFF#16).setWidth 8 = BitVec.allOnes 8 := by decide
  constructor
  · rw [BitVec.setWidth_and, mask, BitVec.and_allOnes, BitVec.setWidth_setWidth_of_le _ (by decide),
      low_byte]
  · apply BitVec.eq_of_getLsbD_eq
    intro i inside
    rw [BitVec.setWidth_and, mask, BitVec.and_allOnes, byteOf_bit value 1 i inside,
      BitVec.getLsbD_setWidth, BitVec.getLsbD_ushiftRight, BitVec.getLsbD_setWidth,
      decide_eq_true inside, decide_eq_true (by omega : 8 + i < 16)]
    rfl

/-- A byte store lays over one byte. -/
theorem update_overlay :
    Function.update data addr (value.setWidth 8) = overlay data addr 1 value := by
  apply eq_overlay data addr value _ 1
  · intro k inside
    have zero : k = 0 := by omega
    have here : addr + BitVec.ofNat 32 0 = addr := BitVec.add_zero addr
    rw [zero, here, Function.update_self addr, low_byte]
  · intro index outside
    have apart : index ≠ addr := by
      rintro rfl
      simp [Spans] at outside
    exact Function.update_of_ne apart _ _

/-- A halfword store lays over two. -/
theorem putHalf_overlay :
    putHalf data addr (value.setWidth 16) = overlay data addr 2 value := by
  obtain ⟨first, second⟩ := half_bytes value
  apply eq_overlay data addr value _ 2
  · intro k inside
    have apart : addr ≠ addr + 1 := by bv_omega
    rcases (by omega : k = 0 ∨ k = 1) with rfl | rfl
    · have here : addr + BitVec.ofNat 32 0 = addr := BitVec.add_zero addr
      rw [here, putHalf, Function.update_of_ne apart, Function.update_self addr, first]
    · have next : addr + BitVec.ofNat 32 1 = addr + 1 := rfl
      rw [next, putHalf, Function.update_self (addr + 1), second]
  · exact fun index outside => putHalf_outside data addr _ index outside

/-- A word store lays over four. -/
theorem putWord_overlay : putWord data addr value = overlay data addr 4 value := by
  obtain ⟨byte0, byte1, byte2, byte3⟩ := putWord_bytes data addr value
  apply eq_overlay data addr value _ 4
  · intro k inside
    have here : addr + BitVec.ofNat 32 0 = addr := BitVec.add_zero addr
    rcases (by omega : k = 0 ∨ k = 1 ∨ k = 2 ∨ k = 3) with rfl | rfl | rfl | rfl
    · rw [here, byte0]
    · exact byte1
    · exact byte2
    · exact byte3
  · exact fun index outside => putWord_outside data addr value index outside

end Overlays

end RvEmu.ByteOverlay
