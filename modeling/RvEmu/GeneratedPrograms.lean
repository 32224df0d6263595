import RvEmu.AssembledPrograms
import RvEmu.ImageCorrectness
import RvEmu.Stopping

/-!
# Generated programs

The generator writes what it has assembled to an executable, which the loader takes apart
again. What `write_elf` packs into the headers is what `elf_load` reads from them, for any
number of segments. The file of a program is a well-formed image, so after loading it the
code stands in memory, the data is zero, and the machine is about to run from `_start`. The
program then runs on the machine as it is written, to its end.
-/

namespace RvEmu.GeneratedPrograms

open LittleEndian hiding base
open Assembler AssemblyLanguage AssembledPrograms ElfLoading LoadedImage ImageCorrectness

/-! ## Reading what was packed -/

/-- The bytes behind a prefix. -/
theorem fileByte_behind (front rest : List Byte) (place k : Nat) (here : front.length = place) :
    fileByte (front ++ rest) (place + k) = rest.getD k 0 := by
  subst here
  rw [fileByte, List.getD_append_right _ _ _ _ (Nat.le_add_right _ _), Nat.add_sub_cancel_left]

/-- A packed word is read back. -/
theorem rd32le_packed (front rest : List Byte) (value : Word) (place : Nat)
    (here : front.length = place) :
    rd32le (fileByte (front ++ (le32 value ++ rest))) place = value := by
  have first := fileByte_behind front (le32 value ++ rest) place 0 here
  rw [Nat.add_zero] at first
  rw [rd32le, first, fileByte_behind _ _ _ 1 here, fileByte_behind _ _ _ 2 here,
    fileByte_behind _ _ _ 3 here]
  exact join_bytes value

/-- So is a packed halfword. -/
theorem rd16le_packed (front rest : List Byte) (value : Half) (place : Nat)
    (here : front.length = place) :
    rd16le (fileByte (front ++ (le16 value ++ rest))) place = value := by
  have first := fileByte_behind front (le16 value ++ rest) place 0 here
  rw [Nat.add_zero] at first
  rw [rd16le, first, fileByte_behind _ _ _ 1 here]
  change (value.setWidth 8).setWidth 16 ||| ((value >>> 8).setWidth 8).setWidth 16 <<< 8 = value
  apply BitVec.eq_of_getLsbD_eq
  intro i inside
  simp only [BitVec.getLsbD_or, BitVec.getLsbD_setWidth, BitVec.getLsbD_shiftLeft,
    BitVec.getLsbD_ushiftRight]
  by_cases low : i < 8
  · simp [inside, low]
  · have high : i - 8 < 8 := by omega
    simp [inside, low, high, show i - 8 < 16 by omega, show 8 + (i - 8) = i by omega]

/-- A record of fields, between a prefix and a rest. -/
def record (front : List Byte) (fields : List (List Byte)) (rest : List Byte) : List Byte :=
  front ++ (fields.flatten ++ rest)

/-- A record up to one of its fields, and from there. -/
theorem record_field (front : List Byte) (fields : List (List Byte)) (rest : List Byte) (k : Nat)
    (field : List Byte) (known : fields[k]? = some field) :
    record front fields rest =
      (front ++ (fields.take k).flatten) ++ (field ++ ((fields.drop (k + 1)).flatten ++ rest)) := by
  obtain ⟨inside, found⟩ := List.getElem?_eq_some_iff.mp known
  have split : fields = fields.take k ++ field :: fields.drop (k + 1) := by
    rw [← found, ← List.drop_eq_getElem_cons inside, List.take_append_drop]
  rw [record]
  nth_rewrite 1 [split]
  simp only [List.flatten_append, List.flatten_cons, List.append_assoc]

section Fields

variable (front : List Byte) (fields : List (List Byte)) (rest : List Byte) (k place : Nat)
  (here : front.length + (fields.take k).flatten.length = place)
include here

theorem rd32le_field (value : Word) (known : fields[k]? = some (le32 value)) :
    rd32le (fileByte (record front fields rest)) place = value := by
  rw [record_field front fields rest k _ known]
  exact rd32le_packed _ _ value place (by rw [List.length_append, here])

theorem rd16le_field (value : Half) (known : fields[k]? = some (le16 value)) :
    rd16le (fileByte (record front fields rest)) place = value := by
  rw [record_field front fields rest k _ known]
  exact rd16le_packed _ _ value place (by rw [List.length_append, here])

end Fields

/-! ## Headers -/

/-- The fields of the header. -/
def headerFields (entry : Word) (phnum : Half) : List (List Byte) :=
  [le32 elfMagic, [1, 1, 1, 0, 0, 0, 0, 0, 0, 0, 0, 0], le16 2, le16 243, le32 1, le32 entry,
    le32 52, le32 0, le32 0, le16 52, le16 32, le16 phnum, le16 40, le16 0, le16 0]

/-- The fields of a program header. -/
def segmentFields (ph : Phdr) : List (List Byte) :=
  [le32 ph.pType, le32 ph.pOffset, le32 ph.pVaddr, le32 ph.pVaddr, le32 ph.pFilesz,
    le32 ph.pMemsz, le32 ph.pFlags, le32 0x1000]

section Headers

variable (entry : Word) (segments : List Phdr) (rest : List Byte)

/-- A file is the record of its header. -/
theorem elfFile_header :
    elfFile entry segments rest =
      record [] (headerFields entry (BitVec.ofNat 16 segments.length))
        (segments.flatMap elfProgramHeader ++ rest) := by
  rw [elfFile, List.append_assoc]
  rfl

theorem magic_packed : rd32le (fileByte (elfFile entry segments rest)) 0 = elfMagic := by
  rw [elfFile_header]
  exact rd32le_field [] _ _ 0 0 rfl elfMagic rfl

/-- The header is read as it was packed. -/
theorem header_packed :
    header (elfFile entry segments rest) =
      { eType := 2
        eMachine := 243
        eEntry := entry
        ePhoff := 52
        ePhentsize := 32
        ePhnum := BitVec.ofNat 16 segments.length } := by
  rw [header, parseEhdr, elfFile_header, rd16le_field [] _ _ 2 16 rfl 2 rfl,
    rd16le_field [] _ _ 3 18 rfl 243 rfl, rd32le_field [] _ _ 5 24 rfl entry rfl,
    rd32le_field [] _ _ 6 28 rfl 52 rfl, rd16le_field [] _ _ 10 42 rfl 32 rfl,
    rd16le_field [] _ _ 11 44 rfl _ rfl]

/-- Program headers of 32 bytes. -/
theorem programHeaders_length (headers : List Phdr) :
    (headers.flatMap elfProgramHeader).length = 32 * headers.length := by
  induction headers with
  | nil => rfl
  | cons ph others inductionHypothesis =>
    rw [List.flatMap_cons, List.length_append, inductionHypothesis, List.length_cons]
    change 32 + _ = _
    omega

/-- A file is the record of any of its program headers. -/
theorem elfFile_segment (i : Nat) (ph : Phdr) (known : segments[i]? = some ph) :
    ∃ front behind, front.length = 52 + 32 * i ∧
      elfFile entry segments rest = record front (segmentFields ph) behind := by
  obtain ⟨inside, found⟩ := List.getElem?_eq_some_iff.mp known
  have split : segments = segments.take i ++ ph :: segments.drop (i + 1) := by
    rw [← found, ← List.drop_eq_getElem_cons inside, List.take_append_drop]
  refine ⟨elfHeader entry (BitVec.ofNat 16 segments.length) ++
    (segments.take i).flatMap elfProgramHeader,
    (segments.drop (i + 1)).flatMap elfProgramHeader ++ rest, ?_, ?_⟩
  · rw [List.length_append, programHeaders_length, List.length_take_of_le (by omega)]
    rfl
  · rw [elfFile]
    nth_rewrite 2 [split]
    rw [List.flatMap_append, List.flatMap_cons, record]
    simp only [List.append_assoc]
    rfl

/-- The program headers are read as they were packed. -/
theorem segment_packed (i : Nat) (ph : Phdr) (known : segments[i]? = some ph) :
    segmentAt (elfFile entry segments rest) i = ph := by
  have place : headerPlace (elfFile entry segments rest) i = 52 + 32 * i := by
    rw [headerPlace, header_packed]
    change 52 + i * 32 = 52 + 32 * i
    rw [Nat.mul_comm]
  obtain ⟨front, behind, here, file⟩ := elfFile_segment entry segments rest i ph known
  rw [segmentAt, place, ← here, file, parsePhdr,
    rd32le_field front _ _ 0 front.length rfl ph.pType rfl,
    rd32le_field front _ _ 1 (front.length + 4) rfl ph.pOffset rfl,
    rd32le_field front _ _ 2 (front.length + 8) rfl ph.pVaddr rfl,
    rd32le_field front _ _ 4 (front.length + 16) rfl ph.pFilesz rfl,
    rd32le_field front _ _ 5 (front.length + 20) rfl ph.pMemsz rfl,
    rd32le_field front _ _ 6 (front.length + 24) rfl ph.pFlags rfl]

end Headers

/-! ## The file of a program -/

section File

variable (code : List Byte) (entry : Nat) (file : List Byte)
  (writes : writeElf code entry = some file)
include writes

/-- What is written, when it is. -/
theorem writeElf_file :
    entry < 2 ^ 32 ∧ code.length ≤ 0x1000 ∧
      file = elfFile (BitVec.ofNat 32 entry) [codeHeader code, dataHeader]
        (List.replicate (0x1000 - 116) 0 ++ code ++ List.replicate (0x1000 - code.length) 0) := by
  rw [writeElf] at writes
  split at writes
  · cases writes
  · rename_i fits
    cases writes
    exact ⟨by omega, by omega, rfl⟩

/-- The file has 8192 bytes. -/
theorem writeElf_length : file.length = 0x2000 := by
  obtain ⟨-, short, rfl⟩ := writeElf_file code entry file writes
  rw [elfFile, List.length_append, List.length_append, programHeaders_length, List.length_append,
    List.length_append, List.length_replicate, List.length_replicate]
  change 52 + 32 * 2 + (0x1000 - 116 + code.length + (0x1000 - code.length)) = 0x2000
  omega

/-- The code stands at 0x1000 in it. -/
theorem writeElf_code (k : Nat) (inside : k < code.length) :
    fileByte file (0x1000 + k) = code[k] := by
  obtain ⟨-, short, rfl⟩ := writeElf_file code entry file writes
  have front : (elfHeader (BitVec.ofNat 32 entry) (BitVec.ofNat 16 2) ++
      [codeHeader code, dataHeader].flatMap elfProgramHeader ++
      List.replicate (0x1000 - 116) (0 : Byte)).length = 0x1000 := by
    rw [List.length_append, List.length_append, programHeaders_length, List.length_replicate]
    rfl
  have split : elfFile (BitVec.ofNat 32 entry) [codeHeader code, dataHeader]
      (List.replicate (0x1000 - 116) 0 ++ code ++ List.replicate (0x1000 - code.length) 0) =
      (elfHeader (BitVec.ofNat 32 entry) (BitVec.ofNat 16 2) ++
        [codeHeader code, dataHeader].flatMap elfProgramHeader ++
        List.replicate (0x1000 - 116) 0) ++ (code ++ List.replicate (0x1000 - code.length) 0) := by
    rw [elfFile]
    simp only [List.append_assoc]
    rfl
  rw [split, fileByte_behind _ _ _ k front, List.getD_append _ _ _ _ inside,
    List.getD_eq_getElem _ _ inside]

/-- Its header has the entry and two segments, that of the code and that of the data. -/
theorem writeElf_header :
    header file =
        { eType := 2
          eMachine := 243
          eEntry := BitVec.ofNat 32 entry
          ePhoff := 52
          ePhentsize := 32
          ePhnum := 2 } ∧
      rd32le (fileByte file) 0 = elfMagic ∧ segmentAt file 0 = codeHeader code ∧
        segmentAt file 1 = dataHeader := by
  obtain ⟨-, -, rfl⟩ := writeElf_file code entry file writes
  exact ⟨header_packed _ _ _, magic_packed _ _ _, segment_packed _ _ _ 0 _ rfl,
    segment_packed _ _ _ 1 _ rfl⟩

theorem writeElf_loadable (i : Nat) : Loadable file i ↔ i = 0 ∨ i = 1 := by
  obtain ⟨head, -, first, second⟩ := writeElf_header code entry file writes
  rw [Loadable, head]
  constructor
  · rintro ⟨below, -⟩
    change i < 2 at below
    omega
  · rintro (rfl | rfl)
    · exact ⟨Nat.two_pos, by rw [first]; rfl⟩
    · exact ⟨Nat.one_lt_two, by rw [second]; rfl⟩

/-- The code fits its segment. -/
theorem codeHeader_size :
    (codeHeader code).pFilesz.toNat = code.length ∧
      (codeHeader code).pMemsz.toNat = code.length := by
  obtain ⟨-, short, -⟩ := writeElf_file code entry file writes
  have size : (BitVec.ofNat 32 code.length).toNat = code.length := by
    rw [BitVec.toNat_ofNat, Nat.mod_eq_of_lt (by omega)]
  exact ⟨size, size⟩

/-- It is a well-formed image. -/
theorem writeElf_wellFormed (nonzero : entry ≠ 0) : WellFormedImage file := by
  have length := writeElf_length code entry file writes
  obtain ⟨small, short, -⟩ := writeElf_file code entry file writes
  obtain ⟨head, magic, first, second⟩ := writeElf_header code entry file writes
  obtain ⟨fileSize, memorySize⟩ := codeHeader_size code entry file writes
  have loadable := writeElf_loadable code entry file writes
  refine
    { executable := ⟨by omega, magic, by rw [head], by rw [head]⟩
      entry := ?_
      table := ?_
      nonempty := ⟨0, (loadable 0).mpr (Or.inl rfl)⟩
      inFile := ?_
      sizes := ?_
      inMemory := ?_
      disjoint := ?_ }
  · rw [head]
    intro zero
    have same := congrArg BitVec.toNat zero
    change (BitVec.ofNat 32 entry).toNat = 0 at same
    rw [BitVec.toNat_ofNat, Nat.mod_eq_of_lt small] at same
    exact nonzero same
  · intro i below
    rw [head] at below
    change i < 2 at below
    rw [HeaderInside, headerPlace, head, length]
    change 52 + i * 32 + 32 ≤ 0x2000
    omega
  · intro i loads
    rcases (loadable i).mp loads with rfl | rfl
    · rw [first, fileSize, length]
      change 0x1000 + code.length ≤ 0x2000
      omega
    · rw [second, length]
      decide
  · intro i loads
    rcases (loadable i).mp loads with rfl | rfl
    · rw [first, fileSize, memorySize]
    · rw [second]
      decide
  · intro i loads
    rcases (loadable i).mp loads with rfl | rfl
    · rw [first, memorySize]
      change 0x10000 + code.length ≤ 0x100000
      omega
    · rw [second]
      decide
  · intro i j one other place inOne inOther
    have below : ∀ place, InSegment (codeHeader code) place → place < 0x11000 := by
      rintro place ⟨-, inside⟩
      rw [memorySize] at inside
      change place < 0x10000 + code.length at inside
      omega
    have above : ∀ place, InSegment dataHeader place → 0x11000 ≤ place :=
      fun place inside => inside.1
    rcases (loadable i).mp one with rfl | rfl
    · rcases (loadable j).mp other with rfl | rfl
      · rfl
      · rw [first] at inOne
        rw [second] at inOther
        exact absurd (above place inOther) (Nat.not_le.mpr (below place inOne))
    · rcases (loadable j).mp other with rfl | rfl
      · rw [second] at inOne
        rw [first] at inOther
        exact absurd (above place inOne) (Nat.not_le.mpr (below place inOther))
      · rfl

end File

/-! ## Loading a program -/

/-- What loading has made of a machine: the code is in memory and the data is zero, nothing
    else of the memory has changed, and the machine is about to run from the entry. -/
structure LoadedProgram (code : List Byte) (entry : Nat) (emu after : Emulator) : Prop where
  intact : Intact code after
  zeroed : ∀ k, k < dataSize → after.mem.data (BitVec.ofNat 32 (dataBase + k)) = 0
  frame : ∀ index : Word, index.toNat < base ∨ base + code.length ≤ index.toNat →
    index.toNat < dataBase ∨ dataBase + dataSize ≤ index.toNat →
    after.mem.data index = emu.mem.data index
  machine : after =
    { emu with
      mem := after.mem
      entry := BitVec.ofNat 32 entry
      rf := { emu.rf with pc := BitVec.ofNat 32 entry }
      state := .running
      exitCode := 0 }

/-- A file of `write_elf` is loaded. -/
theorem writeElf_loads (code : List Byte) (entry : Nat) (file : List Byte)
    (writes : writeElf code entry = some file) (nonzero : entry ≠ 0) (beyond : Nat → Byte)
    (emu : Emulator) :
    (emuLoadElf (some (FileBuf.mk file beyond)) emu).1 = true ∧
      LoadedProgram code entry emu (emuLoadElf (some (FileBuf.mk file beyond)) emu).2 := by
  obtain ⟨small, short, -⟩ := writeElf_file code entry file writes
  have length := writeElf_length code entry file writes
  obtain ⟨head, -, first, second⟩ := writeElf_header code entry file writes
  obtain ⟨fileSize, memorySize⟩ := codeHeader_size code entry file writes
  have loadable := writeElf_loadable code entry file writes
  have wellFormed := writeElf_wellFormed code entry file writes nonzero
  have loaded := image_loaded file wellFormed (by omega) beyond emu
  have codeThere := loaded.segments 0 ((loadable 0).mpr (Or.inl rfl))
  have dataThere := loaded.segments 1 ((loadable 1).mpr (Or.inr rfl))
  rw [first] at codeThere
  rw [second] at dataThere
  refine ⟨loaded.succeeds, ?_, ?_, ?_, ?_⟩
  · intro k byte known
    obtain ⟨inside, rfl⟩ := List.getElem?_eq_some_iff.mp known
    rw [loaded.memory]
    have copied := codeThere.copied k (by rw [fileSize]; exact inside)
    change _ = fileByte file (0x1000 + k) at copied
    rw [writeElf_code code entry file writes k inside] at copied
    exact copied
  · intro k inside
    rw [loaded.memory]
    exact dataThere.zeroed k (Nat.zero_le k) inside
  · intro index outCode outData
    rw [loaded.memory]
    apply loaded.frame
    intro i loads
    rcases (loadable i).mp loads with rfl | rfl
    · rw [first, InSegment, memorySize]
      change ¬ (base ≤ index.toNat ∧ index.toNat < base + code.length)
      omega
    · rw [second]
      change ¬ (dataBase ≤ index.toNat ∧ index.toNat < dataBase + dataSize)
      omega
  · have result : (elfLoad (some (FileBuf.mk file beyond)) emu.mem).1 = BitVec.ofNat 32 entry := by
      rw [loaded.entry, head]
    have found : ¬ (elfLoad (some (FileBuf.mk file beyond)) emu.mem).1 = 0 := by
      rw [loaded.entry]
      exact wellFormed.entry
    simp only [emuLoadElf, if_neg found]
    rw [result]

/-- What is generated was assembled, from a `_start` on, and written. -/
theorem generate_parts (items : List Item) (file : List Byte)
    (generates : generate items = some file) :
    ∃ code labels entry, assemble items = some (code, labels) ∧
      (entry, .label "_start") ∈ Layout.places size items base ∧ entry ≠ 0 ∧
      writeElf code entry = some file := by
  simp only [generate, Option.bind_eq_bind, Option.bind_eq_some_iff] at generates
  obtain ⟨⟨code, labels⟩, assembled, entry, known, writes⟩ := generates
  obtain ⟨bytes, passed, same⟩ := Option.map_eq_some_iff.mp assembled
  obtain ⟨rfl, rfl⟩ := Prod.mk.inj same
  have placed := label_placed items base entry "_start" known
  obtain ⟨above, -⟩ := Layout.places_inside size items base entry _ placed
  have nonzero : entry ≠ 0 := by
    change 0x10000 ≤ entry at above
    omega
  exact ⟨bytes, _, entry, assembled, placed, nonzero, writes⟩

/-- Every program that is generated is loaded, and stands at its `_start`. -/
theorem generated_loads (items : List Item) (file : List Byte)
    (generates : generate items = some file) (beyond : Nat → Byte) (emu : Emulator) :
    ∃ code labels entry, assemble items = some (code, labels) ∧
      (entry, .label "_start") ∈ Layout.places size items base ∧
      (emuLoadElf (some (FileBuf.mk file beyond)) emu).1 = true ∧
      LoadedProgram code entry emu (emuLoadElf (some (FileBuf.mk file beyond)) emu).2 := by
  obtain ⟨code, labels, entry, assembled, placed, nonzero, writes⟩ :=
    generate_parts items file generates
  obtain ⟨succeeds, loaded⟩ := writeElf_loads code entry file writes nonzero beyond emu
  exact ⟨code, labels, entry, assembled, placed, succeeds, loaded⟩

/-- A program that exits through the host, past a word of data. -/
def exitItems : List Item :=
  [.label "_start", .insn "li32" [.str "a7", .int 93], .insn "j" [.str "exit"],
    .data [0xFF, 0xFF, 0xFF, 0xFF], .label "exit", .insn "ecall" []]

/-- Its code. -/
def exitCode : List Byte :=
  [0xB7, 0x08, 0x00, 0x00, 0x93, 0x88, 0xD8, 0x05, 0x6F, 0x00, 0x80, 0x00, 0xFF, 0xFF, 0xFF, 0xFF,
    0x73, 0x00, 0x00, 0x00]

theorem exitItems_assembled :
    assemble exitItems = some (exitCode, [("exit", 0x10010), ("_start", 0x10000)]) := by
  decide +kernel

/-- The file of the exit program. -/
def exitFile : List Byte := (writeElf exitCode 0x10000).getD []

theorem exitItems_generates : generate exitItems = some exitFile := by
  rw [generate, exitItems_assembled]
  rfl

/-- It is loaded into a new machine. -/
theorem exitFile_loads :
    ∃ code entry,
      (emuLoadElf (some (FileBuf.mk exitFile fun _ => 0)) (emuInit fun _ => 0)).1 = true ∧
      LoadedProgram code entry (emuInit fun _ => 0)
        (emuLoadElf (some (FileBuf.mk exitFile fun _ => 0)) (emuInit fun _ => 0)).2 := by
  obtain ⟨code, -, entry, -, -, succeeds, loaded⟩ :=
    generated_loads exitItems exitFile exitItems_generates (fun _ => 0) (emuInit fun _ => 0)
  exact ⟨code, entry, succeeds, loaded⟩

/-- A new machine that is about to run it. -/
def exitMachine : Emulator :=
  { emuInit fun _ => 0 with
    entry := 0x10000
    rf := { regfileInit with pc := 0x10000 }
    state := .running }

/-! ## Running a program -/

/-- A generated program that comes to an end as it is written is run to that end by the
    machine that has loaded it, in one call of `emu_run` whose limit, if it has one, is as
    long as the program. -/
theorem generated_runs (host : HostFloat) (items : List Item) (file : List Byte)
    (generates : generate items = some file) (code : List Byte) (labels : Labels)
    (assembled : assemble items = some (code, labels)) (beyond : Nat → Byte)
    (emu finish : Emulator) (k : Nat)
    (runs : RunsTo host items code (emuLoadElf (some (FileBuf.mk file beyond)) emu).2 k finish)
    (ended : finish.state ≠ .running) (limit : DWord) (enough : limit = 0 ∨ k ≤ limit.toNat) :
    ∃ result, RunReturns host limit (emuLoadElf (some (FileBuf.mk file beyond)) emu).2 result ∧
      result.calls = k ∧ result.emu = finish := by
  obtain ⟨bytes, table, entry, same, -, nonzero, writes⟩ := generate_parts items file generates
  rw [assembled] at same
  cases same
  obtain ⟨-, short, -⟩ := writeElf_file code entry file writes
  obtain ⟨-, loaded⟩ := writeElf_loads code entry file writes nonzero beyond emu
  have fits : base + code.length ≤ 0x100000 := by
    change 0x10000 + code.length ≤ 0x100000
    omega
  have running : (emuLoadElf (some (FileBuf.mk file beyond)) emu).2.state = .running := by
    rw [loaded.machine]
  generalize (emuLoadElf (some (FileBuf.mk file beyond)) emu).2 = start at runs running ⊢
  obtain ⟨came, goes⟩ := assembled_runs host code fits items labels assembled start k finish runs
  have some : k ≠ 0 := by
    rintro rfl
    exact ended (came ▸ running)
  obtain ⟨last, rfl⟩ := Nat.exists_eq_succ_of_ne_zero some
  have before := (Stopping.run_stops host start running last).mp fun j below =>
    goes j (Nat.lt_succ_of_le below)
  have stops := (Stopping.step_stops host (stateAfter host start last)
    (goes last (Nat.lt_succ_self last))).mp (by
      change (stateAfter host start (last + 1)).state ≠ .running
      rw [came]
      exact ended)
  exact ⟨_, Stopping.endsAfter_returns host limit start running (last + 1)
    (.stopped last enough before stops), Nat.zero_add _, came⟩

/-- The machine after the three instructions of the exit program. -/
def exited (emu : Emulator) : Emulator :=
  (Instr.word rawEcall).after idleHost
    ((Instr.jump 0 0x10010).after idleHost ((Instr.constant 17 93).after idleHost emu))

/-- A new machine goes through them when the code is in memory. -/
theorem exitItems_run (mem : Memory) (intact : Intact exitCode (withMem exitMachine mem)) :
    RunsTo idleHost exitItems exitCode (withMem exitMachine mem) 4
      (exited (withMem exitMachine mem)) := by
  have first : instrAt exitItems 0x10000 = some (.constant 17 93) := by decide +kernel
  have second : instrAt exitItems 0x10008 = some (.jump 0 0x10010) := by decide +kernel
  have third : instrAt exitItems 0x10010 = some (.word rawEcall) := by decide +kernel
  have masked : (0 : Word) &&& mieMtie = 0 := by decide
  refine RunsTo.instruction _ (.constant 17 93) 2 _ first ?_ ?_
  · exact ready_bare _ _ _ rfl intact (Or.inl rfl) masked
  refine RunsTo.instruction _ (.jump 0 0x10010) 1 _ second ?_ ?_
  · exact ready_bare _ _ _ rfl intact (Or.inl rfl) masked
  refine RunsTo.instruction _ (.word rawEcall) 0 _ third ?_ (RunsTo.done _)
  exact ready_bare _ _ _ rfl intact (Or.inl rfl) masked

theorem exited_halted (mem : Memory) : (exited (withMem exitMachine mem)).state = .halted := rfl

/-- From its file the exit program is run to its end in four steps. -/
theorem exitFile_runs :
    ∃ result, RunReturns idleHost 0
        (emuLoadElf (some (FileBuf.mk exitFile fun _ => 0)) (emuInit fun _ => 0)).2 result ∧
      result.calls = 4 ∧ result.emu.state = .halted := by
  obtain ⟨-, loaded⟩ := writeElf_loads exitCode 0x10000 exitFile rfl (by decide) (fun _ => 0)
    (emuInit fun _ => 0)
  have machine : (emuLoadElf (some (FileBuf.mk exitFile fun _ => 0)) (emuInit fun _ => 0)).2 =
      withMem exitMachine _ := loaded.machine
  have intact := loaded.intact
  rw [machine] at intact
  obtain ⟨result, returns, calls, came⟩ := generated_runs idleHost exitItems exitFile
    exitItems_generates exitCode _ exitItems_assembled (fun _ => 0) (emuInit fun _ => 0)
    (exited (withMem exitMachine _)) 4 (by rw [machine]; exact exitItems_run _ intact)
    (by rw [exited_halted]; decide) 0 (Or.inl rfl)
  exact ⟨result, returns, calls, came ▸ exited_halted _⟩

end RvEmu.GeneratedPrograms
