import RvEmu.Elf

/-!
# The assembler of the demo programs

The generator of the demo programs has an assembler and an ELF writer of its own. A program
is a list of labels, raw data and instructions. The first pass gives every label its address,
the second encodes the instructions, and `write_elf` puts the code into an executable with
one segment for it and one of zeros for data.

Its integers have no bounds. The encoders mask what they take, so an operand that does not
fit its field is cut to the field without notice; a name that is not known, a number of
arguments that does not match and a mnemonic that is not known are exceptions, and `none`
here.
-/

namespace RvEmu.Assembler

/-! ## Programs -/

/-- The mnemonics of the second pass. -/
inductive Mnemonic where
  | li32
  | mv
  | addi
  | add
  | sub
  | mul
  | divu
  | remu
  | sb
  | sw
  | lw
  | li
  | bne
  | beq
  | blt
  | mret
  | sret
  | ebreak
  | word
  | csrrw
  | csrrs
  | csrrc
  | csrrwi
  | csrrsi
  | csrrci
  | csrw
  | csrr
  | csrs
  | csrci
  | bnez
  | jal
  | j
  | lrW
  | scW
  | amoaddW
  | amoswapW
  | amoxorW
  | amoorW
  | amoandW
  | amominW
  | amomaxW
  | amominuW
  | amomaxuW
  | ecall
deriving DecidableEq

/-- The strings that the second pass compares with. -/
def mnemonics : List (String × Mnemonic) :=
  [("li32", .li32), ("mv", .mv), ("addi", .addi), ("add", .add), ("sub", .sub),
    ("mul", .mul), ("divu", .divu), ("remu", .remu), ("sb", .sb), ("sw", .sw), ("lw", .lw),
    ("li", .li), ("bne", .bne), ("beq", .beq), ("blt", .blt), ("mret", .mret),
    ("sret", .sret), ("ebreak", .ebreak), ("word", .word), ("csrrw", .csrrw),
    ("csrrs", .csrrs), ("csrrc", .csrrc), ("csrrwi", .csrrwi), ("csrrsi", .csrrsi),
    ("csrrci", .csrrci), ("csrw", .csrw), ("csrr", .csrr), ("csrs", .csrs),
    ("csrci", .csrci), ("bnez", .bnez), ("jal", .jal), ("j", .j), ("lr.w", .lrW),
    ("sc.w", .scW), ("amoadd.w", .amoaddW), ("amoswap.w", .amoswapW), ("amoxor.w", .amoxorW),
    ("amoor.w", .amoorW), ("amoand.w", .amoandW), ("amomin.w", .amominW),
    ("amomax.w", .amomaxW), ("amominu.w", .amominuW), ("amomaxu.w", .amomaxuW),
    ("ecall", .ecall)]

/-- The mnemonic that a string is; any other is `unknown mnemonic`. -/
def mnemonicOf (text : String) : Option Mnemonic := mnemonics.lookup text

/-- An argument of `emit`. -/
inductive Arg where
  | str (text : String)
  | int (value : Int)
deriving DecidableEq

/-- What `label`, `data` and `emit` append. -/
inductive Item where
  | label (name : String)
  | data (raw : List Byte)
  | insn (mnemonic : String) (args : List Arg)
deriving DecidableEq

/-- `BASE`, where the code is linked, and `DATA` with its size. -/
def base : Nat := 0x10000
def dataBase : Nat := 0x11000
def dataSize : Nat := 0x100

/-- `REGS`. -/
def regs : List (String × Int) :=
  [("zero", 0), ("ra", 1), ("sp", 2), ("gp", 3), ("tp", 4),
    ("t0", 5), ("t1", 6), ("t2", 7), ("s0", 8), ("s1", 9),
    ("a0", 10), ("a1", 11), ("a2", 12), ("a3", 13), ("a4", 14), ("a5", 15),
    ("a6", 16), ("a7", 17),
    ("s2", 18), ("s3", 19), ("s4", 20), ("s5", 21), ("s6", 22), ("s7", 23),
    ("s8", 24), ("s9", 25), ("s10", 26), ("s11", 27),
    ("t3", 28), ("t4", 29), ("t5", 30), ("t6", 31)]

/-- `reg`. -/
def reg : Arg → Option Int
  | .str text => regs.lookup text
  | .int value => some value

/-- An argument in an arithmetic expression; a string there is a `TypeError`. -/
def number : Arg → Option Int
  | .str _ => none
  | .int value => some value

/-! ## Encoders -/

/-- The low bits of an integer, of which every mask below takes some. -/
def low (value : Int) : Word := BitVec.ofInt 32 value

def rType (f7 : Word) (rs2 rs1 : Arg) (f3 : Word) (rd : Arg) (op : Word) : Option Word := do
  let rs2 ← reg rs2
  let rs1 ← reg rs1
  let rd ← reg rd
  return ((f7 &&& 0x7F) <<< 25) ||| ((low rs2 &&& 0x1F) <<< 20) ||| ((low rs1 &&& 0x1F) <<< 15) |||
    ((f3 &&& 7) <<< 12) ||| ((low rd &&& 0x1F) <<< 7) ||| (op &&& 0x7F)

def iType (imm : Int) (rs1 : Arg) (f3 : Word) (rd : Arg) (op : Word) : Option Word := do
  let rs1 ← reg rs1
  let rd ← reg rd
  return ((low imm &&& 0xFFF) <<< 20) ||| ((low rs1 &&& 0x1F) <<< 15) ||| ((f3 &&& 7) <<< 12) |||
    ((low rd &&& 0x1F) <<< 7) ||| (op &&& 0x7F)

def sType (imm : Int) (rs2 rs1 : Arg) (f3 op : Word) : Option Word := do
  let rs2 ← reg rs2
  let rs1 ← reg rs1
  return ((low (imm.shiftRight 5) &&& 0x7F) <<< 25) ||| ((low rs2 &&& 0x1F) <<< 20) |||
    ((low rs1 &&& 0x1F) <<< 15) ||| ((f3 &&& 7) <<< 12) ||| ((low imm &&& 0x1F) <<< 7) |||
    (op &&& 0x7F)

def bType (imm : Int) (rs2 rs1 : Arg) (f3 op : Word) : Option Word := do
  let rs2 ← reg rs2
  let rs1 ← reg rs1
  return ((low (imm.shiftRight 12) &&& 1) <<< 31) ||| ((low (imm.shiftRight 5) &&& 0x3F) <<< 25) |||
    ((low rs2 &&& 0x1F) <<< 20) ||| ((low rs1 &&& 0x1F) <<< 15) ||| ((f3 &&& 7) <<< 12) |||
    ((low (imm.shiftRight 1) &&& 0xF) <<< 8) ||| ((low (imm.shiftRight 11) &&& 1) <<< 7) |||
    (op &&& 0x7F)

def amoType (f5 : Word) (rs2 rs1 rd : Arg) : Option Word := do
  let rs2 ← reg rs2
  let rs1 ← reg rs1
  let rd ← reg rd
  return ((f5 &&& 0x1F) <<< 27) ||| ((low rs2 &&& 0x1F) <<< 20) ||| ((low rs1 &&& 0x1F) <<< 15) |||
    (2 <<< 12) ||| ((low rd &&& 0x1F) <<< 7) ||| 0x2F

def uType (imm20 : Int) (rd : Arg) (op : Word) : Option Word := do
  let rd ← reg rd
  return ((low imm20 &&& 0xFFFFF) <<< 12) ||| ((low rd &&& 0x1F) <<< 7) ||| (op &&& 0x7F)

def jType (imm : Int) (rd : Arg) (op : Word) : Option Word := do
  let rd ← reg rd
  return ((low (imm.shiftRight 20) &&& 1) <<< 31) ||| ((low (imm.shiftRight 1) &&& 0x3FF) <<< 21) |||
    ((low (imm.shiftRight 11) &&& 1) <<< 20) ||| ((low (imm.shiftRight 12) &&& 0xFF) <<< 12) |||
    ((low rd &&& 0x1F) <<< 7) ||| (op &&& 0x7F)

/-! ## The first pass -/

/-- `labels`. An entry is added in front, so a lookup finds the last of a name, as the
dictionary does. -/
abbrev Labels := List (String × Nat)

/-- `_words`. -/
def words : Item → Nat
  | .insn mnemonic _ => if mnemonic = "li32" then 2 else 1
  | _ => 0

/-- What an item adds to the address. -/
def size : Item → Nat
  | .data raw => raw.length
  | item => 4 * words item

/-- The addresses of the labels. -/
def passOne : List Item → Nat → Labels → Labels
  | [], _, labels => labels
  | .label name :: rest, addr, labels => passOne rest addr ((name, addr) :: labels)
  | item :: rest, addr, labels => passOne rest (addr + size item) labels

/-! ## The second pass -/

/-- `value`. -/
def value (labels : Labels) : Arg → Option Int
  | .str name => (labels.lookup name).map Int.ofNat
  | .int number => some number

/-- `labels[label]`; no label is a number. -/
def target (labels : Labels) : Arg → Option Int
  | .str name => (labels.lookup name).map Int.ofNat
  | .int _ => none

/-- Unpacking the arguments; another number of them is a `ValueError`. -/
def one (args : List Arg) (use : Arg → Option (List Word)) : Option (List Word) :=
  match args with
  | [a] => use a
  | _ => none

def two (args : List Arg) (use : Arg → Arg → Option (List Word)) : Option (List Word) :=
  match args with
  | [a, b] => use a b
  | _ => none

def three (args : List Arg) (use : Arg → Arg → Arg → Option (List Word)) : Option (List Word) :=
  match args with
  | [a, b, c] => use a b c
  | _ => none

/-- The two words of `li32`. -/
def li32 (labels : Labels) (rd val : Arg) : Option (List Word) := do
  let val := (← value labels val) % 0x100000000
  let hi := (val + 0x800).shiftRight 12
  let lo := val - hi * 0x1000
  let upper ← uType hi rd 0x37
  let lower ← iType lo rd 0 rd 0x13
  return [upper, lower]

/-- The instructions of format I, from an argument for their immediate. -/
def withImm (imm rs1 : Arg) (f3 : Word) (rd : Arg) (op : Word) : Option (List Word) := do
  let imm ← number imm
  let word ← iType imm rs1 f3 rd op
  return [word]

def storing (imm rs2 rs1 : Arg) (f3 : Word) : Option (List Word) := do
  let imm ← number imm
  let word ← sType imm rs2 rs1 f3 0x23
  return [word]

/-- The branches, from the label that they go to. -/
def branching (labels : Labels) (addr : Nat) (label rs2 rs1 : Arg) (f3 : Word) :
    Option (List Word) := do
  let off := (← target labels label) - addr
  let word ← bType off rs2 rs1 f3 0x63
  return [word]

def jumping (labels : Labels) (addr : Nat) (label rd : Arg) : Option (List Word) := do
  let off := (← target labels label) - addr
  let word ← jType off rd 0x6F
  return [word]

def computing (f7 : Word) (rs2 rs1 : Arg) (f3 : Word) (rd : Arg) : Option (List Word) :=
  (rType f7 rs2 rs1 f3 rd 0x33).map ([·])

def atomic (f5 : Word) (rs2 rs1 rd : Arg) : Option (List Word) :=
  (amoType f5 rs2 rs1 rd).map ([·])

/-- The words of an instruction at an address. -/
def encode (labels : Labels) (addr : Nat) (mn : Mnemonic) (args : List Arg) : Option (List Word) :=
  match mn with
  | .li32 => two args fun rd val => li32 labels rd val
  | .mv => two args fun rd rs => withImm (.int 0) rs 0 rd 0x13
  | .addi => three args fun rd rs imm => withImm imm rs 0 rd 0x13
  | .add => three args fun rd rs1 rs2 => computing 0 rs2 rs1 0 rd
  | .sub => three args fun rd rs1 rs2 => computing 0x20 rs2 rs1 0 rd
  | .mul => three args fun rd rs1 rs2 => computing 0x01 rs2 rs1 0 rd
  | .divu => three args fun rd rs1 rs2 => computing 0x01 rs2 rs1 5 rd
  | .remu => three args fun rd rs1 rs2 => computing 0x01 rs2 rs1 7 rd
  | .sb => three args fun rs2 rs1 imm => storing imm rs2 rs1 0
  | .sw => three args fun rs2 rs1 imm => storing imm rs2 rs1 2
  | .lw => three args fun rd rs1 imm => withImm imm rs1 2 rd 0x03
  | .li => two args fun rd imm => withImm imm (.int 0) 0 rd 0x13
  | .bne => three args fun rs1 rs2 label => branching labels addr label rs2 rs1 1
  | .beq => three args fun rs1 rs2 label => branching labels addr label rs2 rs1 0
  | .blt => three args fun rs1 rs2 label => branching labels addr label rs2 rs1 4
  | .mret => some [0x30200073]
  | .sret => some [0x10200073]
  | .ebreak => some [0x00100073]
  | .word => one args fun raw => (number raw).map fun raw => [low raw]
  | .csrrw => three args fun rd csr rs1 => withImm csr rs1 1 rd 0x73
  | .csrrs => three args fun rd csr rs1 => withImm csr rs1 2 rd 0x73
  | .csrrc => three args fun rd csr rs1 => withImm csr rs1 3 rd 0x73
  | .csrrwi => three args fun rd csr uimm => withImm csr uimm 5 rd 0x73
  | .csrrsi => three args fun rd csr uimm => withImm csr uimm 6 rd 0x73
  | .csrrci => three args fun rd csr uimm => withImm csr uimm 7 rd 0x73
  | .csrw => two args fun csr rs1 => withImm csr rs1 1 (.int 0) 0x73
  | .csrr => two args fun rd csr => withImm csr (.int 0) 2 rd 0x73
  | .csrs => two args fun csr rs1 => withImm csr rs1 2 (.int 0) 0x73
  | .csrci => two args fun csr uimm => withImm csr uimm 7 (.int 0) 0x73
  | .bnez => two args fun rs1 label => branching labels addr label (.int 0) rs1 1
  | .jal => two args fun rd label => jumping labels addr label rd
  | .j => one args fun label => jumping labels addr label (.int 0)
  | .lrW => two args fun rd rs1 => atomic 0x02 (.int 0) rs1 rd
  | .scW => three args fun rd rs2 rs1 => atomic 0x03 rs2 rs1 rd
  | .amoaddW => three args fun rd rs2 rs1 => atomic 0x00 rs2 rs1 rd
  | .amoswapW => three args fun rd rs2 rs1 => atomic 0x01 rs2 rs1 rd
  | .amoxorW => three args fun rd rs2 rs1 => atomic 0x04 rs2 rs1 rd
  | .amoorW => three args fun rd rs2 rs1 => atomic 0x08 rs2 rs1 rd
  | .amoandW => three args fun rd rs2 rs1 => atomic 0x0C rs2 rs1 rd
  | .amominW => three args fun rd rs2 rs1 => atomic 0x10 rs2 rs1 rd
  | .amomaxW => three args fun rd rs2 rs1 => atomic 0x14 rs2 rs1 rd
  | .amominuW => three args fun rd rs2 rs1 => atomic 0x18 rs2 rs1 rd
  | .amomaxuW => three args fun rd rs2 rs1 => atomic 0x1C rs2 rs1 rd
  | .ecall => some [0x00000073]

/-- The bytes of the items from an address on. -/
def passTwo (labels : Labels) : List Item → Nat → Option (List Byte)
  | [], _ => some []
  | .label _ :: rest, addr => passTwo labels rest addr
  | .data raw :: rest, addr => do
    let out ← passTwo labels rest (addr + raw.length)
    return raw ++ out
  | .insn mn args :: rest, addr => do
    let words ← encode labels addr (← mnemonicOf mn) args
    let out ← passTwo labels rest (addr + 4 * words.length)
    return words.flatMap le32 ++ out

/-- `assemble`: the code and the labels. -/
def assemble (items : List Item) : Option (List Byte × Labels) :=
  let labels := passOne items base []
  (passTwo labels items base).map (·, labels)

/-! ## The executable -/

/-- The program headers of `write_elf`. -/
def codeHeader (code : List Byte) : Phdr where
  pType := 1
  pOffset := 0x1000
  pVaddr := BitVec.ofNat 32 base
  pFilesz := BitVec.ofNat 32 code.length
  pMemsz := BitVec.ofNat 32 code.length
  pFlags := 5

def dataHeader : Phdr where
  pType := 1
  pOffset := 0x2000
  pVaddr := BitVec.ofNat 32 dataBase
  pFilesz := 0
  pMemsz := BitVec.ofNat 32 dataSize
  pFlags := 6

/-- `write_elf`: the bytes of the file, for code that ends before the data segment. The
entry is packed as 32 bits, in which a larger one has no room. -/
def writeElf (code : List Byte) (entry : Nat) : Option (List Byte) :=
  if 2 ^ 32 ≤ entry ∨ 0x1000 < code.length then none
  else
    some (elfFile (BitVec.ofNat 32 entry) [codeHeader code, dataHeader]
      (List.replicate (0x1000 - 116) 0 ++ code ++ List.replicate (0x1000 - code.length) 0))

/-- What `main` of a generator writes: the program assembled, with its `_start` for an
entry. -/
def generate (items : List Item) : Option (List Byte) := do
  let (code, labels) ← assemble items
  let entry ← labels.lookup "_start"
  writeElf code entry

end RvEmu.Assembler
