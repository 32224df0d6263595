import RvEmu.Machine

/-!
# The ELF loader

`elf_load` reads a whole file into a buffer, checks the header of a 32-bit RISC-V
executable, and copies its loadable segments to memory one program header after
another. All offsets, sizes and addresses are 32-bit numbers from the file, and every
range test adds two of them in 32 bits.

The buffer has as many bytes as the length of the file says in 32 bits, and an index
past it reads what the host keeps there. Beside its result the loader records the
bytes it touches. Printing is not part of the model.
-/

namespace RvEmu

open LittleEndian Regions

/-- `file_buf` after the file has been read: the file, and the host's bytes after the
buffer. -/
structure FileBuf where
  file : List Byte
  beyond : Nat → Byte

/-- `file_size`: the length of the file as a `u32`. -/
def FileBuf.size (buf : FileBuf) : Word := BitVec.ofNat 32 buf.file.length

/-- `file_buf[index]`. -/
def FileBuf.byte (buf : FileBuf) (index : Nat) : Byte :=
  if index < buf.size.toNat then buf.file.getD index 0 else buf.beyond index

/-- `rd32le` at a place of a buffer. -/
def rd32le (bytes : Nat → Byte) (place : Nat) : Word :=
  (bytes place).setWidth 32 ||| ((bytes (place + 1)).setWidth 32 <<< 8) |||
    ((bytes (place + 2)).setWidth 32 <<< 16) ||| ((bytes (place + 3)).setWidth 32 <<< 24)

/-- `rd16le` at a place of a buffer. -/
def rd16le (bytes : Nat → Byte) (place : Nat) : Half :=
  (bytes place).setWidth 16 ||| ((bytes (place + 1)).setWidth 16 <<< 8)

/-- The constants of `elf.h`. -/
def elfMagic : Word := 0x464C457F
def emRiscv : Half := 243
def etExec : Half := 2
def ptLoad : Word := 1
def pfX : Word := 1
def pfW : Word := 2

/-- The fields of `elf32_ehdr_t` that are used. -/
structure Ehdr where
  eType : Half
  eMachine : Half
  eEntry : Word
  ePhoff : Word
  ePhentsize : Half
  ePhnum : Half

def parseEhdr (bytes : Nat → Byte) : Ehdr where
  eType := rd16le bytes 16
  eMachine := rd16le bytes 18
  eEntry := rd32le bytes 24
  ePhoff := rd32le bytes 28
  ePhentsize := rd16le bytes 42
  ePhnum := rd16le bytes 44

/-- The fields of `elf32_phdr_t` that are used. -/
structure Phdr where
  pType : Word
  pOffset : Word
  pVaddr : Word
  pFilesz : Word
  pMemsz : Word
  pFlags : Word

def parsePhdr (bytes : Nat → Byte) (place : Nat) : Phdr where
  pType := rd32le bytes place
  pOffset := rd32le bytes (place + 4)
  pVaddr := rd32le bytes (place + 8)
  pFilesz := rd32le bytes (place + 16)
  pMemsz := rd32le bytes (place + 20)
  pFlags := rd32le bytes (place + 24)

/-- The bytes of a number in a file, as `struct.pack` writes them. -/
def le16 (value : Half) : List Byte := [value.setWidth 8, (value >>> 8).setWidth 8]
def le32 (value : Word) : List Byte :=
  [byteOf value 0, byteOf value 1, byteOf value 2, byteOf value 3]

/-- The header that `write_elf` of the demo generator writes. -/
def elfHeader (entry : Word) (phnum : Half) : List Byte :=
  [0x7F, 0x45, 0x4C, 0x46, 1, 1, 1, 0, 0, 0, 0, 0, 0, 0, 0, 0] ++ le16 2 ++ le16 243 ++
    le32 1 ++ le32 entry ++ le32 52 ++ le32 0 ++ le32 0 ++ le16 52 ++ le16 32 ++ le16 phnum ++
    le16 40 ++ le16 0 ++ le16 0

/-- A program header as `write_elf` writes it. -/
def elfProgramHeader (ph : Phdr) : List Byte :=
  le32 ph.pType ++ le32 ph.pOffset ++ le32 ph.pVaddr ++ le32 ph.pVaddr ++ le32 ph.pFilesz ++
    le32 ph.pMemsz ++ le32 ph.pFlags ++ le32 0x1000

/-- A file in the layout of `write_elf`: the header, the program headers, and the rest. -/
def elfFile (entry : Word) (segments : List Phdr) (rest : List Byte) : List Byte :=
  elfHeader entry (BitVec.ofNat 16 segments.length) ++ segments.flatMap elfProgramHeader ++ rest

/-- `elf_info_t`. Its `entry` is never set. -/
structure ElfInfo where
  textStart : Word
  textEnd : Word
  dataStart : Word
  dataEnd : Word
  bssStart : Word
  bssEnd : Word
  phdrCount : Word

/-- The bytes a step of the loader touches: `count` from an index of `file_buf`, or of
`mem->data`. -/
inductive Touch where
  | fileRead (start count : Nat)
  | memWrite (start count : Nat)
deriving DecidableEq

/-- What the loader has done so far. -/
structure Loading where
  mem : Memory
  info : ElfInfo
  touches : List Touch

/-- The offset of program header `i` in the file. -/
def phOffset (ehdr : Ehdr) (i : Word) : Word := ehdr.ePhoff + i * ehdr.ePhentsize.setWidth 32

/-- The part of a segment past its file bytes is zeroed, where it fits. -/
def clearBss (ph : Phdr) (loading : Loading) : Loading :=
  let bssStart := ph.pVaddr + ph.pFilesz
  let bssSize := ph.pMemsz - ph.pFilesz
  let info := { loading.info with bssStart := bssStart, bssEnd := bssStart + bssSize }
  if bssStart + bssSize ≤ loading.mem.size then
    { mem :=
        { loading.mem with
          data := lay { start := bssStart.toNat, count := bssSize.toNat, cell := fun _ => 0 }
            loading.mem.data }
      info := info
      touches := loading.touches ++ [.memWrite bssStart.toNat bssSize.toNat] }
  else { loading with info := info }

/-- The update of `info` at the end of the loop body. -/
def noteSegment (ph : Phdr) (info : ElfInfo) : ElfInfo :=
  let segmentEnd := ph.pVaddr + ph.pMemsz
  let text :=
    if ph.pFlags &&& pfX ≠ 0 then
      { info with
        textStart := if ph.pVaddr < info.textStart then ph.pVaddr else info.textStart
        textEnd := if segmentEnd > info.textEnd then segmentEnd else info.textEnd }
    else info
  let data :=
    if ph.pFlags &&& pfW ≠ 0 then
      { text with
        dataStart := if ph.pVaddr < text.dataStart then ph.pVaddr else text.dataStart
        dataEnd := if segmentEnd > text.dataEnd then segmentEnd else text.dataEnd }
    else text
  { data with phdrCount := data.phdrCount + 1 }

/-- The loop body after `parse_phdr`. -/
def loadSegment (buf : FileBuf) (ph : Phdr) (loading : Loading) : Loading :=
  if ph.pType ≠ ptLoad then loading
  else if ph.pOffset + ph.pFilesz > buf.size then loading
  else
    let loaded := memoryLoad loading.mem ph.pVaddr
      (fun k => buf.byte (ph.pOffset.toNat + k)) ph.pFilesz
    let copied : Loading :=
      { loading with
        mem := loaded.2
        touches := loading.touches ++
          [.fileRead ph.pOffset.toNat loaded.1.toNat, .memWrite ph.pVaddr.toNat loaded.1.toNat] }
    let cleared := if ph.pMemsz > ph.pFilesz then clearBss ph copied else copied
    { cleared with info := noteSegment ph cleared.info }

/-- The loop over the program headers, with the number that remain. -/
def elfLoadLoop (buf : FileBuf) (ehdr : Ehdr) : Nat → Word → Loading → Loading
  | 0, _, loading => loading
  | remaining + 1, i, loading =>
    let offset := phOffset ehdr i
    if offset + 32 > buf.size then loading
    else
      let parsed := { loading with touches := loading.touches ++ [.fileRead offset.toNat 32] }
      elfLoadLoop buf ehdr remaining (i + 1)
        (loadSegment buf (parsePhdr buf.byte offset.toNat) parsed)

/-- `memset(info, 0, sizeof(*info))`. -/
def elfInfoClear : ElfInfo where
  textStart := 0
  textEnd := 0
  dataStart := 0
  dataEnd := 0
  bssStart := 0
  bssEnd := 0
  phdrCount := 0

/-- `elf_load`: the entry address, with 0 for failure, and what was done. A file that
cannot be opened or read whole is `none`. -/
def elfLoad (opened : Option FileBuf) (mem : Memory) : Word × Loading :=
  let start : Loading := { mem := mem, info := elfInfoClear, touches := [] }
  match opened with
  | none => (0, start)
  | some buf =>
    if buf.size < 52 then (0, start)
    else
      let checked := { start with touches := [.fileRead 0 4] }
      if rd32le buf.byte 0 ≠ elfMagic then (0, checked)
      else
        let ehdr := parseEhdr buf.byte
        let parsed := { start with touches := [.fileRead 0 4, .fileRead 16 36] }
        if ehdr.eType ≠ etExec then (0, parsed)
        else if ehdr.eMachine ≠ emRiscv then (0, parsed)
        else
          let info := { elfInfoClear with textStart := 0xFFFFFFFF, dataStart := 0xFFFFFFFF }
          let loaded := elfLoadLoop buf ehdr ehdr.ePhnum.toNat 0 { parsed with info := info }
          if loaded.info.phdrCount = 0 then (0, loaded) else (ehdr.eEntry, loaded)

/-- `emu_load_elf`: whether it succeeded, and the machine. -/
def emuLoadElf (opened : Option FileBuf) (emu : Emulator) : Bool × Emulator :=
  let result := elfLoad opened emu.mem
  let loaded := { emu with mem := result.2.mem }
  if result.1 = 0 then (false, loaded)
  else
    (true,
      { loaded with
        entry := result.1
        rf := { loaded.rf with pc := result.1 }
        state := .running
        exitCode := 0 })

end RvEmu
