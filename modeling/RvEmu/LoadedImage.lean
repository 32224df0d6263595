import RvEmu.ElfLoading

/-!
# The image of a file

What a file says is read here off its bytes, at places that are natural numbers: its
header, its program headers, and the memory that its loadable segments describe. As
long as no sum wraps the loader follows this description, with three reservations that
it makes by design. It stops at the first program header outside the file, it passes
over a segment whose bytes are not in the file, and it clips at the end of memory.

A well-formed image needs none of them, so its segments are found in memory whole. The
length of the file is a 32-bit number too, and for files of four gigabytes and more the
loader sees less than the file.
-/

namespace RvEmu.LoadedImage

open Regions ElfLoading

/-! ## The file -/

/-- A byte of the file. -/
def fileByte (file : List Byte) (place : Nat) : Byte := file.getD place 0

/-- The header of the file. -/
def header (file : List Byte) : Ehdr := parseEhdr (fileByte file)

/-- The place of program header `i`. -/
def headerPlace (file : List Byte) (i : Nat) : Nat :=
  (header file).ePhoff.toNat + i * (header file).ePhentsize.toNat

/-- The segment of program header `i`. -/
def segmentAt (file : List Byte) (i : Nat) : Phdr :=
  parsePhdr (fileByte file) (headerPlace file i)

/-- The file has program header `i`, and it describes a loadable segment. -/
def Loadable (file : List Byte) (i : Nat) : Prop :=
  i < (header file).ePhnum.toNat ∧ (segmentAt file i).pType = 1

/-- The file starts with the header of a RISC-V executable. -/
structure Executable (file : List Byte) : Prop where
  long : 52 ≤ file.length
  magic : rd32le (fileByte file) 0 = 0x464C457F
  kind : (header file).eType = 2
  machine : (header file).eMachine = 243

/-- Program header `i` lies in the file. -/
def HeaderInside (file : List Byte) (i : Nat) : Prop := headerPlace file i + 32 ≤ file.length

instance (file : List Byte) (i : Nat) : Decidable (HeaderInside file i) :=
  inferInstanceAs (Decidable (_ ≤ _))

/-- The program headers before the first that is not in the file. -/
def headersInside (file : List Byte) : List Nat :=
  (List.range (header file).ePhnum.toNat).takeWhile fun i => HeaderInside file i

/-- The segment is loadable and its bytes lie in the file. -/
def InFile (file : List Byte) (ph : Phdr) : Prop :=
  ph.pType = 1 ∧ ph.pOffset.toNat + ph.pFilesz.toNat ≤ file.length

instance (file : List Byte) (ph : Phdr) : Decidable (InFile file ph) :=
  inferInstanceAs (Decidable (_ ∧ _))

/-- No sum of the file reaches 2^32. -/
structure Unwrapped (file : List Byte) : Prop where
  length : file.length < 2 ^ 32
  table : ∀ i, i < (header file).ePhnum.toNat → headerPlace file i + 32 < 2 ^ 32
  bytes : ∀ i, Loadable file i →
    (segmentAt file i).pOffset.toNat + (segmentAt file i).pFilesz.toNat < 2 ^ 32
  copied : ∀ i, Loadable file i →
    (segmentAt file i).pVaddr.toNat + (segmentAt file i).pFilesz.toNat < 2 ^ 32
  whole : ∀ i, Loadable file i →
    (segmentAt file i).pVaddr.toNat + (segmentAt file i).pMemsz.toNat < 2 ^ 32

/-- What the loader places of a segment: its file bytes up to the end of memory, and the
    zeros after them when the whole segment fits. -/
def placed (file : List Byte) (ph : Phdr) : List (Region Byte) :=
  if InFile file ph then
    { start := ph.pVaddr.toNat
      count := min ph.pFilesz.toNat (memSize.toNat - ph.pVaddr.toNat)
      cell := fun k => fileByte file (ph.pOffset.toNat + k) } ::
    (if ph.pFilesz.toNat < ph.pMemsz.toNat ∧
        ph.pVaddr.toNat + ph.pMemsz.toNat ≤ memSize.toNat then
      [{ start := ph.pVaddr.toNat + ph.pFilesz.toNat
         count := ph.pMemsz.toNat - ph.pFilesz.toNat
         cell := fun _ => 0 }]
    else [])
  else []

/-- What it places of the file, in the order of the program headers. -/
def image (file : List Byte) : List (Region Byte) :=
  (headersInside file).flatMap fun i => placed file (segmentAt file i)

/-! ## The buffer holds the file -/

theorem rd32le_congr (left right : Nat → Byte) (place : Nat)
    (same : ∀ k, k < 4 → left (place + k) = right (place + k)) :
    rd32le left place = rd32le right place := by
  have first := same 0 (by decide)
  rw [Nat.add_zero] at first
  rw [rd32le, rd32le, first, same 1 (by decide), same 2 (by decide), same 3 (by decide)]

theorem rd16le_congr (left right : Nat → Byte) (place : Nat)
    (same : ∀ k, k < 2 → left (place + k) = right (place + k)) :
    rd16le left place = rd16le right place := by
  have first := same 0 (by decide)
  rw [Nat.add_zero] at first
  rw [rd16le, rd16le, first, same 1 (by decide)]

/-- The header depends on the first 52 bytes. -/
theorem parseEhdr_congr (left right : Nat → Byte) (same : ∀ k, k < 52 → left k = right k) :
    parseEhdr left = parseEhdr right := by
  have half : ∀ place, place + 2 ≤ 52 → rd16le left place = rd16le right place :=
    fun place fits => rd16le_congr left right place fun k small => same _ (by omega)
  have word : ∀ place, place + 4 ≤ 52 → rd32le left place = rd32le right place :=
    fun place fits => rd32le_congr left right place fun k small => same _ (by omega)
  simp only [parseEhdr, half 16 (by decide), half 18 (by decide), word 24 (by decide),
    word 28 (by decide), half 42 (by decide), half 44 (by decide)]

/-- A program header depends on its 32 bytes. -/
theorem parsePhdr_congr (left right : Nat → Byte) (place : Nat)
    (same : ∀ k, k < 32 → left (place + k) = right (place + k)) :
    parsePhdr left place = parsePhdr right place := by
  have word : ∀ offset, offset + 4 ≤ 32 →
      rd32le left (place + offset) = rd32le right (place + offset) := by
    intro offset fits
    apply rd32le_congr
    intro k small
    rw [Nat.add_assoc]
    exact same _ (by omega)
  have first := word 0 (by decide)
  rw [Nat.add_zero] at first
  simp only [parsePhdr, first, word 4 (by decide), word 8 (by decide), word 16 (by decide),
    word 20 (by decide), word 24 (by decide)]

/-- The loader looks for a program header at its place. -/
theorem phOffset_place (file : List Byte) (i : Nat) (small : i < (header file).ePhnum.toNat)
    (unwrapped : headerPlace file i + 32 < 2 ^ 32) :
    (phOffset (header file) (BitVec.ofNat 32 i)).toNat = headerPlace file i := by
  have bound : (header file).ePhnum.toNat < 2 ^ 16 := (header file).ePhnum.isLt
  have stride : (header file).ePhentsize.toNat < 2 ^ 16 := (header file).ePhentsize.isLt
  rw [headerPlace] at unwrapped ⊢
  rw [phOffset, BitVec.toNat_add, BitVec.toNat_mul, BitVec.toNat_ofNat, BitVec.toNat_setWidth,
    Nat.mod_eq_of_lt (Nat.lt_trans small (Nat.lt_trans bound (by decide))),
    Nat.mod_eq_of_lt (Nat.lt_trans stride (by decide))]
  generalize i * (header file).ePhentsize.toNat = distance at unwrapped ⊢
  omega

/-- Up to the end of memory, all file bytes are copied. -/
theorem copyCount_min (ph : Phdr) (copied : ph.pVaddr.toNat + ph.pFilesz.toNat < 2 ^ 32) :
    (copyCount ph).toNat = min ph.pFilesz.toNat (memSize.toNat - ph.pVaddr.toNat) := by
  have sum : (ph.pVaddr + ph.pFilesz).toNat = ph.pVaddr.toNat + ph.pFilesz.toNat := by
    rw [BitVec.toNat_add, Nat.mod_eq_of_lt copied]
  by_cases clipped : ph.pVaddr + ph.pFilesz > memSize
  · rw [copyCount_clipped ph clipped]
    rw [gt_iff_lt, BitVec.lt_def, sum] at clipped
    omega
  · rw [copyCount_whole ph clipped]
    rw [gt_iff_lt, BitVec.lt_def, sum] at clipped
    omega

/-- The zeroed part is placed when the whole segment fits. -/
theorem clears_iff (ph : Phdr) (whole : ph.pVaddr.toNat + ph.pMemsz.toNat < 2 ^ 32) :
    Clears ph ↔ ph.pFilesz.toNat < ph.pMemsz.toNat ∧
      ph.pVaddr.toNat + ph.pMemsz.toNat ≤ memSize.toNat := by
  have sum : (ph.pVaddr + ph.pFilesz) + (ph.pMemsz - ph.pFilesz) = ph.pVaddr + ph.pMemsz := by
    rw [BitVec.add_assoc, BitVec.add_comm ph.pFilesz, BitVec.sub_add_cancel]
  rw [Clears, sum, gt_iff_lt, BitVec.lt_def, BitVec.le_def, BitVec.toNat_add,
    Nat.mod_eq_of_lt whole]

section Buffer

variable (file : List Byte) (beyond : Nat → Byte) (length : file.length < 2 ^ 32)
include length

theorem size_length : (FileBuf.mk file beyond).size.toNat = file.length := by
  rw [FileBuf.size, BitVec.toNat_ofNat, Nat.mod_eq_of_lt length]

theorem byte_file (place : Nat) (inside : place < file.length) :
    (FileBuf.mk file beyond).byte place = fileByte file place := by
  rw [FileBuf.byte, size_length file beyond length, if_pos inside]
  rfl

theorem header_file (long : 52 ≤ file.length) :
    parseEhdr (FileBuf.mk file beyond).byte = header file :=
  parseEhdr_congr _ _ fun k small => byte_file file beyond length k (by omega)

/-- The loader accepts the executables. -/
theorem accepted_iff : Accepted (FileBuf.mk file beyond) ↔ Executable file := by
  have size := size_length file beyond length
  have short : (FileBuf.mk file beyond).size < 52 ↔ file.length < 52 := by
    rw [BitVec.lt_def, size]
    rfl
  constructor
  · rintro ⟨long, magic, kind, machine⟩
    have enough : 52 ≤ file.length := Nat.le_of_not_lt (mt short.mpr long)
    rw [header_file file beyond length enough] at kind machine
    refine ⟨enough, ?_, kind, machine⟩
    rw [← rd32le_congr _ _ 0 fun k small => byte_file file beyond length _ (by omega)]
    exact magic
  · rintro ⟨long, magic, kind, machine⟩
    refine ⟨fun less => absurd (short.mp less) (by omega), ?_, ?_, ?_⟩
    · rw [rd32le_congr _ _ 0 fun k small => byte_file file beyond length _ (by omega)]
      exact magic
    · rw [header_file file beyond length long]
      exact kind
    · rw [header_file file beyond length long]
      exact machine

/-- Its range test is that it lies in the file. -/
theorem tablePasses_iff (i : Nat) (small : i < (header file).ePhnum.toNat)
    (unwrapped : headerPlace file i + 32 < 2 ^ 32) :
    TablePasses (FileBuf.mk file beyond) (header file) i ↔ HeaderInside file i := by
  have place := phOffset_place file i small unwrapped
  have sum : (phOffset (header file) (BitVec.ofNat 32 i) + 32).toNat = headerPlace file i + 32 := by
    rw [BitVec.toNat_add, place]
    change (headerPlace file i + 32) % 2 ^ 32 = _
    exact Nat.mod_eq_of_lt unwrapped
  rw [TablePasses, gt_iff_lt, BitVec.not_lt, BitVec.le_def, sum, size_length file beyond length]
  rfl

/-- A header in the file is parsed as its segment. -/
theorem headerAt_segment (long : 52 ≤ file.length) (i : Nat)
    (small : i < (header file).ePhnum.toNat) (unwrapped : headerPlace file i + 32 < 2 ^ 32)
    (inside : HeaderInside file i) : headerAt (FileBuf.mk file beyond) i = segmentAt file i := by
  rw [HeaderInside] at inside
  rw [headerAt, header_file file beyond length long, phOffset_place file i small unwrapped]
  exact parsePhdr_congr _ _ _ fun k below => byte_file file beyond length _ (by omega)

/-- A segment that passes the file-range test lies in the file. -/
theorem loads_iff (ph : Phdr)
    (unwrapped : ph.pType = 1 → ph.pOffset.toNat + ph.pFilesz.toNat < 2 ^ 32) :
    Loads (FileBuf.mk file beyond) ph ↔ InFile file ph := by
  rw [Loads, InFile]
  refine and_congr_right fun kind => ?_
  rw [gt_iff_lt, BitVec.not_lt, BitVec.le_def, BitVec.toNat_add,
    Nat.mod_eq_of_lt (unwrapped kind), size_length file beyond length]

/-- The regions of a segment do what its placement says. -/
theorem segmentRegions_placed (ph : Phdr)
    (bytes : ph.pType = 1 → ph.pOffset.toNat + ph.pFilesz.toNat < 2 ^ 32)
    (copied : ph.pType = 1 → ph.pVaddr.toNat + ph.pFilesz.toNat < 2 ^ 32)
    (whole : ph.pType = 1 → ph.pVaddr.toNat + ph.pMemsz.toNat < 2 ^ 32)
    (data : LittleEndian.Store) :
    layAll (segmentRegions (FileBuf.mk file beyond) ph) data = layAll (placed file ph) data := by
  have test := loads_iff file beyond length ph bytes
  by_cases inFile : InFile file ph
  · have loads := test.mpr inFile
    have count := copyCount_min ph (copied inFile.1)
    have clears := clears_iff ph (whole inFile.1)
    have fileBytes : lay (copyRegion (FileBuf.mk file beyond) ph) data =
        lay { start := ph.pVaddr.toNat
              count := min ph.pFilesz.toNat (memSize.toNat - ph.pVaddr.toNat)
              cell := fun k => fileByte file (ph.pOffset.toNat + k) } data := by
      apply lay_congr
      · rfl
      · exact count
      · intro k small
        change k < (copyCount ph).toNat at small
        rw [count] at small
        have inside := inFile.2
        exact byte_file file beyond length _ (by omega)
    rw [segmentRegions, placed, if_pos loads, if_pos inFile, layAll, layAll, fileBytes]
    by_cases clearing : Clears ph
    · obtain ⟨larger, fits⟩ := clears.mp clearing
      rw [if_pos clearing, if_pos (clears.mp clearing), layAll, layAll]
      apply lay_congr
      · change (ph.pVaddr + ph.pFilesz).toNat = _
        rw [BitVec.toNat_add, Nat.mod_eq_of_lt (copied inFile.1)]
      · change (ph.pMemsz - ph.pFilesz).toNat = _
        bv_omega
      · intro k small
        rfl
    · rw [if_neg clearing, if_neg (mt clears.mpr clearing)]
  · rw [segmentRegions, placed, if_neg (mt test.mp inFile), if_neg inFile]

end Buffer

/-! ## What the loader does by design -/

theorem mem_headersInside (file : List Byte) (i : Nat) :
    i ∈ headersInside file ↔
      i < (header file).ePhnum.toNat ∧ ∀ j, j ≤ i → HeaderInside file j := by
  rw [headersInside, List.range_eq_range', mem_takeWhile_range]
  simp only [Nat.zero_le, true_and, forall_const, Nat.zero_add, decide_eq_true_eq]

/-- The loader processes the segment of program header `i`. -/
def Processed (file : List Byte) (i : Nat) : Prop :=
  i ∈ headersInside file ∧ InFile file (segmentAt file i)

section Unwrapped

variable (file : List Byte) (beyond : Nat → Byte) (executable : Executable file)
  (unwrapped : Unwrapped file)
include executable unwrapped

/-- The loader reads the program headers that are inside. -/
theorem reaches_iff (i : Nat) :
    Reaches (FileBuf.mk file beyond) i ↔ i ∈ headersInside file := by
  rw [Reaches, header_file file beyond unwrapped.length executable.long, mem_headersInside]
  refine and_congr_right fun small => forall_congr' fun j => imp_congr_right fun earlier => ?_
  have before := Nat.lt_of_le_of_lt earlier small
  exact tablePasses_iff file beyond unwrapped.length j before (unwrapped.table j before)

theorem headersRead_inside : headersRead (FileBuf.mk file beyond) = headersInside file := by
  rw [headersRead, headersInside, header_file file beyond unwrapped.length executable.long]
  have same : ∀ i, i ∈ List.range (header file).ePhnum.toNat →
      decide (TablePasses (FileBuf.mk file beyond) (header file) i) =
        decide (HeaderInside file i) := by
    intro i member
    have small := List.mem_range.mp member
    exact decide_eq_decide.mpr
      (tablePasses_iff file beyond unwrapped.length i small (unwrapped.table i small))
  exact takeWhile_congr _ _ _ same

/-- A header that is read is parsed as its segment. -/
theorem headerAt_inside (i : Nat) (inside : i ∈ headersInside file) :
    headerAt (FileBuf.mk file beyond) i = segmentAt file i := by
  obtain ⟨small, passed⟩ := (mem_headersInside file i).mp inside
  exact headerAt_segment file beyond unwrapped.length executable.long i small
    (unwrapped.table i small) (passed i (Nat.le_refl i))

/-- A segment loads exactly when it is processed. -/
theorem loadsAny_iff : LoadsAny (FileBuf.mk file beyond) ↔ ∃ i, Processed file i := by
  refine exists_congr fun i => ?_
  rw [reaches_iff file beyond executable unwrapped, Processed]
  refine and_congr_right fun inside => ?_
  rw [headerAt_inside file beyond executable unwrapped i inside]
  obtain ⟨small, -⟩ := (mem_headersInside file i).mp inside
  exact loads_iff file beyond unwrapped.length _ fun kind => unwrapped.bytes i ⟨small, kind⟩

/-- The regions of the load do what the image says. -/
theorem imageRegions_image (data : LittleEndian.Store) :
    layAll (imageRegions (FileBuf.mk file beyond)) data = layAll (image file) data := by
  rw [imageRegions, image, headersRead_inside file beyond executable unwrapped]
  apply layAll_flatMap_congr
  intro i inside data
  obtain ⟨small, -⟩ := (mem_headersInside file i).mp inside
  rw [headerAt_inside file beyond executable unwrapped i inside]
  exact segmentRegions_placed file beyond unwrapped.length _
    (fun kind => unwrapped.bytes i ⟨small, kind⟩) (fun kind => unwrapped.copied i ⟨small, kind⟩)
    (fun kind => unwrapped.whole i ⟨small, kind⟩) data

end Unwrapped

/-- The outcome of a load. It succeeds for an executable with a non-zero entry of which
    some segment is processed, and memory then holds what it held before with the image
    of the file laid over it. -/
structure LoadOutcome (file : List Byte) (beyond : Nat → Byte) (emu : Emulator) : Prop where
  reported : (emuLoadElf (some (FileBuf.mk file beyond)) emu).1 = true ↔
    (elfLoad (some (FileBuf.mk file beyond)) emu.mem).1 ≠ 0
  verdict : (elfLoad (some (FileBuf.mk file beyond)) emu.mem).1 ≠ 0 ↔
    Executable file ∧ (header file).eEntry ≠ 0 ∧ ∃ i, Processed file i
  contents : (elfLoad (some (FileBuf.mk file beyond)) emu.mem).1 ≠ 0 →
    (emuLoadElf (some (FileBuf.mk file beyond)) emu).2.mem.data =
      layAll (image file) emu.mem.data

/-- A file whose sums do not wrap is loaded by this rule, whatever memory holds. -/
theorem load_outcome (file : List Byte) (beyond : Nat → Byte) (emu : Emulator)
    (unwrapped : Unwrapped file) : LoadOutcome file beyond emu := by
  obtain ⟨reported, memory⟩ := emuLoadElf_reported (some (FileBuf.mk file beyond)) emu
  refine ⟨reported, ?_, ?_⟩
  · by_cases executable : Executable file
    · have accepted := (accepted_iff file beyond unwrapped.length).mpr executable
      obtain ⟨⟨loaded, empty⟩, -, -⟩ := elfLoad_accepted _ emu.mem accepted
      rw [loadsAny_iff file beyond executable unwrapped] at loaded empty
      by_cases processed : ∃ i, Processed file i
      · rw [loaded processed, header_file file beyond unwrapped.length executable.long]
        exact ⟨fun entry => ⟨executable, entry, processed⟩, fun all => all.2.1⟩
      · rw [empty processed]
        exact ⟨fun entry => absurd rfl entry, fun all => absurd all.2.2 processed⟩
    · have refused := mt (accepted_iff file beyond unwrapped.length).mp executable
      rw [(elfLoad_refused _ emu.mem refused).1]
      exact ⟨fun entry => absurd rfl entry, fun all => absurd all.1 executable⟩
  · intro entry
    have executable : Executable file := by
      by_contra other
      have refused := mt (accepted_iff file beyond unwrapped.length).mp other
      exact entry (elfLoad_refused _ emu.mem refused).1
    have accepted := (accepted_iff file beyond unwrapped.length).mpr executable
    obtain ⟨-, regions, -⟩ := elfLoad_accepted _ emu.mem accepted
    rw [memory, regions]
    exact imageRegions_image file beyond executable unwrapped emu.mem.data

/-- A segment is in memory: it lies in the file and in memory whole, its file bytes are
    at its address, and zeros follow them. -/
structure InPlace (file : List Byte) (data : LittleEndian.Store) (ph : Phdr) : Prop where
  inFile : ph.pOffset.toNat + ph.pFilesz.toNat ≤ file.length
  inMemory : ph.pVaddr.toNat + ph.pMemsz.toNat ≤ memSize.toNat
  copied : ∀ k, k < ph.pFilesz.toNat →
    data (BitVec.ofNat 32 (ph.pVaddr.toNat + k)) = fileByte file (ph.pOffset.toNat + k)
  zeroed : ∀ k, ph.pFilesz.toNat ≤ k → k < ph.pMemsz.toNat →
    data (BitVec.ofNat 32 (ph.pVaddr.toNat + k)) = 0

/-- Four bytes at 0x1000 from the file, and a second segment of which the file has
    nothing. -/
def truncatedFile : List Byte :=
  elfFile 0x1000
    [{ pType := 1, pOffset := 116, pVaddr := 0x1000, pFilesz := 4, pMemsz := 4, pFlags := 5 },
      { pType := 1, pOffset := 120, pVaddr := 0x2000, pFilesz := 8, pMemsz := 8, pFlags := 6 }]
    [0x13, 0x00, 0x00, 0x00]

theorem truncatedFile_unwrapped : Unwrapped truncatedFile := by
  have count : (header truncatedFile).ePhnum.toNat = 2 := by decide
  have sums : ∀ i, i < 2 →
      (segmentAt truncatedFile i).pOffset.toNat + (segmentAt truncatedFile i).pFilesz.toNat <
          2 ^ 32 ∧
        (segmentAt truncatedFile i).pVaddr.toNat + (segmentAt truncatedFile i).pFilesz.toNat <
          2 ^ 32 ∧
        (segmentAt truncatedFile i).pVaddr.toNat + (segmentAt truncatedFile i).pMemsz.toNat <
          2 ^ 32 := by
    decide
  constructor
  · decide
  · rw [count]
    decide
  · exact fun i loadable => (sums i (count ▸ loadable.1)).1
  · exact fun i loadable => (sums i (count ▸ loadable.1)).2.1
  · exact fun i loadable => (sums i (count ▸ loadable.1)).2.2

/-- The rule for it, in a reset machine. -/
theorem truncatedFile_outcome :
    LoadOutcome truncatedFile (fun _ => 0) (emuInit fun _ => 0) :=
  load_outcome truncatedFile (fun _ => 0) (emuInit fun _ => 0) truncatedFile_unwrapped

/-- Loading it succeeds without its second segment. -/
theorem truncatedFile_succeeds :
    (elfLoad (some (FileBuf.mk truncatedFile fun _ => 0)) (memoryInit fun _ => 0)).1 = 0x1000 ∧
      ¬ ∀ file beyond emu, (elfLoad (some (FileBuf.mk file beyond)) emu.mem).1 ≠ 0 →
        ∀ i, Loadable file i →
          InPlace file (emuLoadElf (some (FileBuf.mk file beyond)) emu).2.mem.data
            (segmentAt file i) := by
  have loaded : (elfLoad (some (FileBuf.mk truncatedFile fun _ => 0))
      (memoryInit fun _ => 0)).1 = 0x1000 := by
    decide +kernel
  refine ⟨loaded, ?_⟩
  intro always
  have second : Loadable truncatedFile 1 := ⟨by decide, by decide⟩
  have succeeded : (elfLoad (some (FileBuf.mk truncatedFile fun _ => 0))
      (emuInit fun _ => 0).mem).1 ≠ 0 := by
    change (elfLoad (some (FileBuf.mk truncatedFile fun _ => 0)) (memoryInit fun _ => 0)).1 ≠ 0
    rw [loaded]
    decide
  have inFile := (always truncatedFile (fun _ => 0) (emuInit fun _ => 0) succeeded 1 second).inFile
  revert inFile
  decide

end RvEmu.LoadedImage
