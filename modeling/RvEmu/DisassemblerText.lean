import RvEmu.DisassemblerAgreement
import RvEmu.EncodingInverse
import RvEmu.Foundation.Numerals
import RvEmu.Foundation.Separated

/-!
# What the disassembler tells

A printed line is a mnemonic and its operands. The mnemonics are apart, and every kind of
operand is printed in a form that shows its value, so the line tells the instruction that it
was printed from: all its bits but those of a few fields, which no text mentions. These are
the rounding mode, fields that the executor wants to be zero, and bits that mean nothing to
it.
-/

namespace RvEmu.DisassemblerText

open Numerals BaseInstructions

/-! ## Numbers in texts -/

/-- The characters of `%d`. -/
def signedDigits : Int → List Char
  | .ofNat n => Nat.toDigits 10 n
  | .negSucc n => '-' :: Nat.toDigits 10 (n + 1)

/-- The characters of `%+d`. -/
def offsetDigits : Int → List Char
  | .ofNat n => '+' :: Nat.toDigits 10 n
  | .negSucc n => '-' :: Nat.toDigits 10 (n + 1)

theorem toDigits_injective : Function.Injective (Nat.toDigits 10) := by
  intro n m same
  rw [← Nat.ofDigitChars_ten_toDigits (n := n), same, Nat.ofDigitChars_ten_toDigits]

theorem toDigits_digit (n : Nat) (c : Char) (member : c ∈ Nat.toDigits 10 n) :
    c.isDigit = true :=
  Nat.isDigit_of_mem_toDigits (by decide) (by decide) member

theorem unsigned_chars {w : Nat} (value : BitVec w) :
    (formatUnsigned value).toList = Nat.toDigits 10 value.toNat :=
  Nat.toList_repr

theorem signed_chars (value : Word) : (formatSigned value).toList = signedDigits value.toInt := by
  rw [formatSigned]
  cases value.toInt with
  | ofNat n => exact Nat.toList_repr
  | negSucc n =>
    change ("-" ++ Nat.repr (n + 1)).toList = _
    rw [String.toList_append, Nat.toList_repr]
    rfl

theorem offset_chars (value : Word) : (formatOffset value).toList = offsetDigits value.toInt := by
  rw [formatOffset, String.toList_append, signed_chars]
  cases value.toInt with
  | ofNat n =>
    have positive : (0 : Int) ≤ .ofNat n := Int.natCast_nonneg n
    rw [if_pos positive]
    rfl
  | negSucc n =>
    rw [if_neg (Int.not_le.mpr (Int.negSucc_lt_zero n))]
    rfl

theorem hex_chars (value : Word) :
    (formatHex value).toList = '0' :: 'x' :: numeral 16 value.toNat := by
  rw [formatHex, String.toList_append]
  exact congrArg ('0' :: 'x' :: ·) String.toList_ofList

theorem signedDigits_injective : Function.Injective signedDigits := by
  intro one other same
  cases one with
  | ofNat n =>
    cases other with
    | ofNat m => rw [toDigits_injective same]
    | negSucc m =>
      have digit := toDigits_digit n '-' (by
        change '-' ∈ signedDigits (.ofNat n)
        rw [same]
        exact List.mem_cons_self)
      cases digit
  | negSucc n =>
    cases other with
    | ofNat m =>
      have digit := toDigits_digit m '-' (by
        change '-' ∈ signedDigits (.ofNat m)
        rw [← same]
        exact List.mem_cons_self)
      cases digit
    | negSucc m =>
      have digits := toDigits_injective (List.cons.inj same).2
      rw [Nat.succ.inj digits]

theorem offsetDigits_injective : Function.Injective offsetDigits := by
  intro one other same
  cases one with
  | ofNat n =>
    cases other with
    | ofNat m => rw [toDigits_injective (List.cons.inj same).2]
    | negSucc m => exact absurd (List.cons.inj same).1 (by decide)
  | negSucc n =>
    cases other with
    | ofNat m => exact absurd (List.cons.inj same).1 (by decide)
    | negSucc m =>
      have digits := toDigits_injective (List.cons.inj same).2
      rw [Nat.succ.inj digits]

/-- What is printed shows the value. -/
theorem formatUnsigned_shows {w : Nat} (value other : BitVec w)
    (same : formatUnsigned value = formatUnsigned other) : value = other := by
  have chars := congrArg String.toList same
  rw [unsigned_chars, unsigned_chars] at chars
  exact BitVec.eq_of_toNat_eq (toDigits_injective chars)

theorem formatSigned_shows (value other : Word) (same : formatSigned value = formatSigned other) :
    value = other := by
  have chars := congrArg String.toList same
  rw [signed_chars, signed_chars] at chars
  exact BitVec.eq_of_toInt_eq (signedDigits_injective chars)

theorem formatOffset_shows (value other : Word) (same : formatOffset value = formatOffset other) :
    value = other := by
  have chars := congrArg String.toList same
  rw [offset_chars, offset_chars] at chars
  exact BitVec.eq_of_toInt_eq (offsetDigits_injective chars)

theorem formatHex_shows (value other : Word) (same : formatHex value = formatHex other) :
    value = other := by
  have chars := congrArg String.toList same
  rw [hex_chars, hex_chars] at chars
  exact BitVec.eq_of_toNat_eq
    (numeral_injective 16 (by decide) (by decide) (List.cons.inj (List.cons.inj chars).2).2)

theorem rn_shows : ∀ one other : Reg, rn one = rn other → one = other := by decide +kernel

theorem fregName_shows (one other : Reg) (same : fregName one = fregName other) : one = other := by
  have chars := congrArg String.toList same
  rw [fregName, fregName, String.toList_append, String.toList_append] at chars
  exact formatUnsigned_shows one other (String.toList_inj.mp (List.append_cancel_left chars))

theorem word_chars (raw : Word) :
    (wordText raw).toList =
      ".word 0x".toList ++
        (List.replicate (8 - (hexDigits raw).length) '0' ++ hexDigits raw) := by
  rw [wordText, String.toList_append]
  exact congrArg (".word 0x".toList ++ ·) String.toList_ofList

theorem wordText_shows (raw other : Word) (same : wordText raw = wordText other) : raw = other := by
  have chars := congrArg String.toList same
  rw [word_chars, word_chars] at chars
  have digits := List.append_cancel_left chars
  have value : ∀ word : Word,
      valueOf 16 (List.replicate (8 - (hexDigits word).length) '0' ++ hexDigits word) =
        word.toNat := by
    intro word
    rw [valueOf_zeros]
    exact numeral_value 16 (by decide) (by decide) word.toNat
  have numbers := congrArg (valueOf 16) digits
  rw [value, value] at numbers
  exact BitVec.eq_of_toNat_eq numbers

/-! ## Operands -/

/-- The kinds of operands. -/
inductive Operand where
  | rd
  | rs1
  | rs2
  | frd
  | frs1
  | frs2
  | imm
  | offset
  | upper
  | csr
  | amount
  | zimm
  | based
  | indirect
deriving DecidableEq

def Operand.text (inst : DecodedInst) : Operand → String
  | .rd => rn inst.rd
  | .rs1 => rn inst.rs1
  | .rs2 => rn inst.rs2
  | .frd => fregName inst.rd
  | .frs1 => fregName inst.rs1
  | .frs2 => fregName inst.rs2
  | .imm => formatSigned inst.imm
  | .offset => formatOffset inst.imm
  | .upper => formatHex (inst.imm >>> 12)
  | .csr => formatHex inst.imm
  | .amount => formatUnsigned (inst.imm &&& 0x1F)
  | .zimm => formatUnsigned inst.rs1
  | .based => RvEmu.based inst.imm inst.rs1
  | .indirect => "(" ++ rn inst.rs1 ++ ")"

/-- The two instructions agree in what an operand is printed from. -/
def Operand.Same (one other : DecodedInst) : Operand → Prop
  | .rd => one.rd = other.rd
  | .rs1 => one.rs1 = other.rs1
  | .rs2 => one.rs2 = other.rs2
  | .frd => one.rd = other.rd
  | .frs1 => one.rs1 = other.rs1
  | .frs2 => one.rs2 = other.rs2
  | .imm => one.imm = other.imm
  | .offset => one.imm = other.imm
  | .upper => one.imm >>> 12 = other.imm >>> 12
  | .csr => one.imm = other.imm
  | .amount => one.imm &&& 0x1F = other.imm &&& 0x1F
  | .zimm => one.rs1 = other.rs1
  | .based => one.imm = other.imm ∧ one.rs1 = other.rs1
  | .indirect => one.rs1 = other.rs1

/-- A digit or a sign. -/
def numeric (c : Char) : Bool := c.isDigit || c = '-' || c = '+'

theorem signed_numeric (value : Word) (c : Char) (member : c ∈ (formatSigned value).toList) :
    numeric c = true := by
  rw [signed_chars] at member
  cases shape : value.toInt with
  | ofNat n =>
    rw [shape] at member
    rw [numeric, toDigits_digit n c member]
    rfl
  | negSucc n =>
    rw [shape] at member
    rcases List.mem_cons.mp member with rfl | digit
    · rfl
    · rw [numeric, toDigits_digit _ c digit]
      rfl

theorem based_chars (offset : Word) (base : Reg) :
    (based offset base).toList = (formatSigned offset).toList ++ '(' :: ((rn base).toList ++ [')']) := by
  rw [based, String.toList_append, String.toList_append, String.toList_append, List.append_assoc,
    List.append_assoc]
  rfl

theorem based_shows (offset other : Word) (base register : Reg)
    (same : based offset base = based other register) : offset = other ∧ base = register := by
  have chars := congrArg String.toList same
  rw [based_chars, based_chars] at chars
  have clean : ∀ value : Word, '(' ∉ (formatSigned value).toList := by
    intro value member
    exact absurd (signed_numeric value '(' member) (by decide)
  obtain ⟨front, rest⟩ := Separated.cut_unique '(' _ _ _ _ (clean offset) (clean other) chars
  exact ⟨formatSigned_shows offset other (String.toList_inj.mp front),
    rn_shows base register (String.toList_inj.mp (List.append_cancel_right rest))⟩

/-- The text of an operand shows what it is printed from. -/
theorem text_shows (operand : Operand) (one other : DecodedInst)
    (same : operand.text one = operand.text other) : operand.Same one other := by
  cases operand with
  | rd => exact rn_shows _ _ same
  | rs1 => exact rn_shows _ _ same
  | rs2 => exact rn_shows _ _ same
  | frd => exact fregName_shows _ _ same
  | frs1 => exact fregName_shows _ _ same
  | frs2 => exact fregName_shows _ _ same
  | imm => exact formatSigned_shows _ _ same
  | offset => exact formatOffset_shows _ _ same
  | upper => exact formatHex_shows _ _ same
  | csr => exact formatHex_shows _ _ same
  | amount => exact formatUnsigned_shows _ _ same
  | zimm => exact formatUnsigned_shows _ _ same
  | based => exact based_shows _ _ _ _ same
  | indirect =>
    have chars := congrArg String.toList same
    change (_ ++ _ ++ _ : String).toList = (_ ++ _ ++ _ : String).toList at chars
    rw [String.toList_append, String.toList_append, String.toList_append, String.toList_append,
      List.append_assoc, List.append_assoc] at chars
    exact rn_shows _ _ (String.toList_inj.mp
      (List.append_cancel_right (List.append_cancel_left chars)))

/-- No operand contains a comma. -/
theorem text_clean (operand : Operand) (inst : DecodedInst) : ',' ∉ (operand.text inst).toList := by
  have register : ∀ idx : Reg, ',' ∉ (rn idx).toList := by decide +kernel
  have digits : ∀ n, ',' ∉ Nat.toDigits 10 n := fun n member =>
    absurd (toDigits_digit n ',' member) (by decide)
  have unsigned : ∀ {w : Nat} (value : BitVec w), ',' ∉ (formatUnsigned value).toList := by
    intro w value
    rw [unsigned_chars]
    exact digits _
  have float : ∀ idx : Reg, ',' ∉ (fregName idx).toList := by
    intro idx member
    rw [fregName, String.toList_append] at member
    rcases List.mem_append.mp member with letter | number
    · exact absurd letter (by decide)
    · exact unsigned idx number
  have signed : ∀ value : Word, ',' ∉ (formatSigned value).toList := fun value member =>
    absurd (signed_numeric value ',' member) (by decide)
  have hex : ∀ value : Word, ',' ∉ (formatHex value).toList := by
    intro value member
    rw [hex_chars] at member
    simp only [List.mem_cons] at member
    rcases member with zero | x | digit
    · exact absurd zero (by decide)
    · exact absurd x (by decide)
    · have above := isDigitOf_above 16 ','
        (numeral_digits 16 (by decide) (by decide) value.toNat ',' digit)
      exact absurd above (by decide)
  cases operand with
  | rd => exact register inst.rd
  | rs1 => exact register inst.rs1
  | rs2 => exact register inst.rs2
  | frd => exact float inst.rd
  | frs1 => exact float inst.rs1
  | frs2 => exact float inst.rs2
  | imm => exact signed inst.imm
  | offset =>
    change ',' ∉ (formatOffset inst.imm).toList
    rw [formatOffset, String.toList_append]
    intro member
    rcases List.mem_append.mp member with sign | number
    · split at sign
      · exact absurd sign (by decide)
      · exact absurd sign (by decide)
    · exact signed inst.imm number
  | upper => exact hex _
  | csr => exact hex inst.imm
  | amount => exact unsigned _
  | zimm => exact unsigned inst.rs1
  | based =>
    change ',' ∉ (based inst.imm inst.rs1).toList
    rw [based_chars]
    simp only [List.mem_append, List.mem_cons, List.not_mem_nil, or_false, not_or]
    exact ⟨signed inst.imm, by decide, register inst.rs1, by decide⟩
  | indirect =>
    change ',' ∉ ("(" ++ rn inst.rs1 ++ ")").toList
    rw [String.toList_append, String.toList_append]
    simp only [List.mem_append, not_or]
    exact ⟨⟨by decide, register inst.rs1⟩, by decide⟩

end RvEmu.DisassemblerText
