import RvEmu.Elf

/-!
# What loading a file does

The loop of `elf_load` never looks at memory contents, so the whole load is known
from the buffer: which headers are read, which segments pass the file-range test,
which regions these lay over memory and which bytes are touched on the way. The
result is then the entry address when the header was accepted and a segment loaded,
and 0 otherwise.

Every range test compares a sum that may wrap. A test that passes without wrapping
bounds the access behind it; one that passes by wrapping lets an access out of
bounds. Loading is safe exactly for the files that make no sum wrap behind a passed
test.
-/

namespace RvEmu.ElfLoading

open Regions

/-! ## One segment -/

/-- The segment is loadable and passes the file-range test. -/
def Loads (buf : FileBuf) (ph : Phdr) : Prop :=
  ph.pType = ptLoad ∧ ¬ ph.pOffset + ph.pFilesz > buf.size

instance (buf : FileBuf) (ph : Phdr) : Decidable (Loads buf ph) :=
  inferInstanceAs (Decidable (_ ∧ _))

/-- The number of bytes `memory_load` copies. -/
def copyCount (ph : Phdr) : Word :=
  if ph.pVaddr + ph.pFilesz > memSize then
    if ph.pVaddr < memSize then memSize - ph.pVaddr else 0
  else ph.pFilesz

/-- A clipped copy goes up to the end of memory. -/
theorem copyCount_clipped (ph : Phdr) (clipped : ph.pVaddr + ph.pFilesz > memSize) :
    (copyCount ph).toNat = memSize.toNat - ph.pVaddr.toNat := by
  rw [copyCount, if_pos clipped]
  by_cases starts : ph.pVaddr < memSize
  · have bound : memSize.toNat < 2 ^ 32 := memSize.isLt
    rw [if_pos starts, BitVec.toNat_sub]
    rw [BitVec.lt_def] at starts
    omega
  · rw [if_neg starts]
    rw [BitVec.lt_def] at starts
    change 0 = _
    omega

theorem copyCount_whole (ph : Phdr) (whole : ¬ ph.pVaddr + ph.pFilesz > memSize) :
    copyCount ph = ph.pFilesz := by
  rw [copyCount, if_neg whole]

/-- The segment has a part to zero, and that part passes its range test. -/
def Clears (ph : Phdr) : Prop :=
  ph.pMemsz > ph.pFilesz ∧
    (ph.pVaddr + ph.pFilesz) + (ph.pMemsz - ph.pFilesz) ≤ memSize

instance (ph : Phdr) : Decidable (Clears ph) := inferInstanceAs (Decidable (_ ∧ _))

/-- The file bytes of a segment, as a region of memory. -/
def copyRegion (buf : FileBuf) (ph : Phdr) : Region Byte where
  start := ph.pVaddr.toNat
  count := (copyCount ph).toNat
  cell := fun k => buf.byte (ph.pOffset.toNat + k)

/-- The zeroed part of a segment. -/
def bssRegion (ph : Phdr) : Region Byte where
  start := (ph.pVaddr + ph.pFilesz).toNat
  count := (ph.pMemsz - ph.pFilesz).toNat
  cell := fun _ => 0

/-- The regions a program header lays over memory. -/
def segmentRegions (buf : FileBuf) (ph : Phdr) : List (Region Byte) :=
  if Loads buf ph then copyRegion buf ph :: (if Clears ph then [bssRegion ph] else []) else []

/-- The bytes the loop body touches for it. -/
def segmentTouches (buf : FileBuf) (ph : Phdr) : List Touch :=
  if Loads buf ph then
    [.fileRead ph.pOffset.toNat (copyCount ph).toNat,
        .memWrite ph.pVaddr.toNat (copyCount ph).toNat] ++
      (if Clears ph then
        [.memWrite (ph.pVaddr + ph.pFilesz).toNat (ph.pMemsz - ph.pFilesz).toNat] else [])
  else []

/-- Only the count of segments matters for the result. -/
theorem noteSegment_count (ph : Phdr) (info : ElfInfo) :
    (noteSegment ph info).phdrCount = info.phdrCount + 1 := by
  simp only [noteSegment]
  split <;> split <;> rfl

/-- The loop body, for a header it has parsed. -/
theorem loadSegment_effect (buf : FileBuf) (ph : Phdr) (loading : Loading) :
    (loadSegment buf ph loading).mem.data =
        layAll (segmentRegions buf ph) loading.mem.data ∧
      (loadSegment buf ph loading).touches = loading.touches ++ segmentTouches buf ph ∧
      (loadSegment buf ph loading).info.phdrCount =
        loading.info.phdrCount + (if Loads buf ph then 1 else 0) := by
  obtain ⟨⟨data, size, rfl⟩, info, touches⟩ := loading
  by_cases loads : Loads buf ph
  · have kind := not_not.mpr loads.1
    simp only [loadSegment, segmentRegions, segmentTouches, if_pos loads, if_neg kind,
      if_neg loads.2]
    by_cases larger : ph.pMemsz > ph.pFilesz
    · by_cases fits : (ph.pVaddr + ph.pFilesz) + (ph.pMemsz - ph.pFilesz) ≤ memSize
      · have clears : Clears ph := ⟨larger, fits⟩
        simp only [if_pos larger, if_pos clears, clearBss, memoryLoad, if_pos fits]
        exact ⟨rfl, List.append_assoc _ _ _, noteSegment_count ph _⟩
      · have stays : ¬ Clears ph := fun clears => fits clears.2
        simp only [if_pos larger, if_neg stays, clearBss, memoryLoad, if_neg fits]
        exact ⟨rfl, rfl, noteSegment_count ph _⟩
    · have stays : ¬ Clears ph := fun clears => larger clears.1
      simp only [if_neg larger, if_neg stays]
      exact ⟨rfl, rfl, noteSegment_count ph _⟩
  · have skipped : loadSegment buf ph { mem := ⟨data, memSize, rfl⟩, info, touches } =
        { mem := ⟨data, memSize, rfl⟩, info, touches } := by
      simp only [loadSegment]
      by_cases kind : ph.pType ≠ ptLoad
      · rw [if_pos kind]
      · rw [if_neg kind, if_pos]
        by_contra inside
        exact loads ⟨not_not.mp kind, inside⟩
    rw [skipped]
    simp only [segmentRegions, segmentTouches, if_neg loads, layAll, List.append_nil]
    exact ⟨trivial, trivial, (BitVec.add_zero _).symm⟩

/-! ## The loop -/

/-- The offsets of the headers the loop reads. -/
def readOffsets (buf : FileBuf) (ehdr : Ehdr) : Nat → Word → List Word
  | 0, _ => []
  | remaining + 1, i =>
    if phOffset ehdr i + 32 > buf.size then []
    else phOffset ehdr i :: readOffsets buf ehdr remaining (i + 1)

/-- The regions of the headers at these offsets, in file order. -/
def regionsAt (buf : FileBuf) (offsets : List Word) : List (Region Byte) :=
  offsets.flatMap fun offset => segmentRegions buf (parsePhdr buf.byte offset.toNat)

/-- The touches for these headers: each is read, and then loaded. -/
def touchesAt (buf : FileBuf) (offsets : List Word) : List Touch :=
  offsets.flatMap fun offset =>
    .fileRead offset.toNat 32 :: segmentTouches buf (parsePhdr buf.byte offset.toNat)

/-- The number of segments that load. -/
def loadedCount (buf : FileBuf) (offsets : List Word) : Nat :=
  offsets.countP fun offset => Loads buf (parsePhdr buf.byte offset.toNat)

theorem loadedCount_cons (buf : FileBuf) (offset : Word) (rest : List Word) :
    BitVec.ofNat 32 (loadedCount buf (offset :: rest)) =
      (if Loads buf (parsePhdr buf.byte offset.toNat) then 1 else 0) +
        BitVec.ofNat 32 (loadedCount buf rest) := by
  rw [loadedCount, List.countP_cons, BitVec.ofNat_add, BitVec.add_comm]
  by_cases loads : Loads buf (parsePhdr buf.byte offset.toNat)
  · rw [if_pos loads, if_pos (decide_eq_true loads)]
    rfl
  · rw [if_neg loads, if_neg (by simpa using loads)]
    rfl

/-- The whole loop, by induction on the headers that remain. -/
theorem elfLoadLoop_effect (buf : FileBuf) (ehdr : Ehdr) (remaining : Nat) (i : Word)
    (loading : Loading) :
    (elfLoadLoop buf ehdr remaining i loading).mem.data =
        layAll (regionsAt buf (readOffsets buf ehdr remaining i)) loading.mem.data ∧
      (elfLoadLoop buf ehdr remaining i loading).touches =
        loading.touches ++ touchesAt buf (readOffsets buf ehdr remaining i) ∧
      (elfLoadLoop buf ehdr remaining i loading).info.phdrCount =
        loading.info.phdrCount +
          BitVec.ofNat 32 (loadedCount buf (readOffsets buf ehdr remaining i)) := by
  induction remaining generalizing i loading with
  | zero => exact ⟨rfl, (List.append_nil _).symm, (BitVec.add_zero _).symm⟩
  | succ remaining inductionHypothesis =>
    simp only [elfLoadLoop, readOffsets]
    by_cases ended : phOffset ehdr i + 32 > buf.size
    · rw [if_pos ended, if_pos ended]
      exact ⟨rfl, (List.append_nil _).symm, (BitVec.add_zero _).symm⟩
    · rw [if_neg ended, if_neg ended]
      obtain ⟨regions, touches, count⟩ := inductionHypothesis (i + 1)
        (loadSegment buf (parsePhdr buf.byte (phOffset ehdr i).toNat)
          { loading with
            touches := loading.touches ++ [.fileRead (phOffset ehdr i).toNat 32] })
      obtain ⟨segment, segmentTouched, segmentCounted⟩ := loadSegment_effect buf
        (parsePhdr buf.byte (phOffset ehdr i).toNat)
        { loading with
          touches := loading.touches ++ [.fileRead (phOffset ehdr i).toNat 32] }
      refine ⟨?_, ?_, ?_⟩
      · rw [regions, segment, regionsAt, regionsAt, List.flatMap_cons, layAll_append]
      · rw [touches, segmentTouched, touchesAt, touchesAt, List.flatMap_cons]
        simp only [List.append_assoc, List.cons_append, List.nil_append]
      · rw [count, segmentCounted, loadedCount_cons, BitVec.add_assoc]

/-- The members of a stretch of numbers before the first that fails a test. -/
theorem mem_takeWhile_range (test : Nat → Bool) (start count i : Nat) :
    i ∈ (List.range' start count).takeWhile test ↔
      (start ≤ i ∧ i < start + count) ∧ ∀ j, start ≤ j → j ≤ i → test j = true := by
  induction count generalizing start with
  | zero =>
    simp only [List.range'_zero, List.takeWhile_nil, List.not_mem_nil, false_iff]
    rintro ⟨⟨above, below⟩, -⟩
    omega
  | succ count inductionHypothesis =>
    rw [List.range'_succ, List.takeWhile_cons]
    by_cases passed : test start = true
    · rw [if_pos passed, List.mem_cons, inductionHypothesis (start + 1)]
      constructor
      · rintro (same | ⟨⟨above, below⟩, tested⟩)
        · subst same
          refine ⟨⟨Nat.le_refl i, by omega⟩, ?_⟩
          intro j above below
          rw [Nat.le_antisymm below above]
          exact passed
        · refine ⟨⟨by omega, by omega⟩, ?_⟩
          intro j first last
          by_cases same : j = start
          · rw [same]
            exact passed
          · exact tested j (by omega) last
      · rintro ⟨⟨above, below⟩, tested⟩
        by_cases same : i = start
        · exact Or.inl same
        · exact Or.inr ⟨⟨by omega, by omega⟩, fun j first last => tested j (by omega) last⟩
    · rw [if_neg passed]
      simp only [List.not_mem_nil, false_iff]
      rintro ⟨⟨above, -⟩, tested⟩
      exact passed (tested start (Nat.le_refl start) above)

/-- Tests that agree on a list stop at the same place. -/
theorem takeWhile_congr {α : Type} (items : List α) (left right : α → Bool)
    (same : ∀ item, item ∈ items → left item = right item) :
    items.takeWhile left = items.takeWhile right := by
  induction items with
  | nil => rfl
  | cons item rest inductionHypothesis =>
    rw [List.takeWhile_cons, List.takeWhile_cons, same item List.mem_cons_self,
      inductionHypothesis fun other member => same other (List.mem_cons_of_mem item member)]

/-- The range test of program header `i`. -/
def TablePasses (buf : FileBuf) (ehdr : Ehdr) (i : Nat) : Prop :=
  ¬ phOffset ehdr (BitVec.ofNat 32 i) + 32 > buf.size

instance (buf : FileBuf) (ehdr : Ehdr) (i : Nat) : Decidable (TablePasses buf ehdr i) :=
  inferInstanceAs (Decidable (¬ _))

/-- The headers read are those before the first that fails the range test. -/
theorem readOffsets_eq (buf : FileBuf) (ehdr : Ehdr) (remaining start : Nat) :
    readOffsets buf ehdr remaining (BitVec.ofNat 32 start) =
      ((List.range' start remaining).takeWhile fun i => TablePasses buf ehdr i).map
        fun i => phOffset ehdr (BitVec.ofNat 32 i) := by
  induction remaining generalizing start with
  | zero => rfl
  | succ remaining inductionHypothesis =>
    have next : BitVec.ofNat 32 start + 1 = BitVec.ofNat 32 (start + 1) := by
      rw [BitVec.ofNat_add]
      rfl
    rw [readOffsets, List.range'_succ, List.takeWhile_cons]
    by_cases ended : phOffset ehdr (BitVec.ofNat 32 start) + 32 > buf.size
    · have fails : ¬ decide (TablePasses buf ehdr start) = true := by
        rw [decide_eq_true_eq]
        exact fun passes => passes ended
      rw [if_pos ended, if_neg fails]
      rfl
    · have passes : decide (TablePasses buf ehdr start) = true := decide_eq_true ended
      rw [if_neg ended, if_pos passes, next, inductionHypothesis (start + 1), List.map_cons]

/-! ## The whole load -/

/-- The file is long enough and its header is that of a RISC-V executable. -/
def Accepted (buf : FileBuf) : Prop :=
  ¬ buf.size < 52 ∧ rd32le buf.byte 0 = elfMagic ∧ (parseEhdr buf.byte).eType = etExec ∧
    (parseEhdr buf.byte).eMachine = emRiscv

instance (buf : FileBuf) : Decidable (Accepted buf) :=
  inferInstanceAs (Decidable (_ ∧ _ ∧ _ ∧ _))

/-- The offsets of the program headers that a load of the file reads. -/
def headerOffsets (buf : FileBuf) : List Word :=
  readOffsets buf (parseEhdr buf.byte) (parseEhdr buf.byte).ePhnum.toNat 0

/-- The program headers that a load of the file reads. -/
def headersRead (buf : FileBuf) : List Nat :=
  (List.range (parseEhdr buf.byte).ePhnum.toNat).takeWhile fun i =>
    TablePasses buf (parseEhdr buf.byte) i

theorem headerOffsets_eq (buf : FileBuf) :
    headerOffsets buf =
      (headersRead buf).map fun i => phOffset (parseEhdr buf.byte) (BitVec.ofNat 32 i) := by
  rw [headerOffsets, headersRead, List.range_eq_range']
  exact readOffsets_eq buf (parseEhdr buf.byte) _ 0

/-- A program header that a load of the file reads: the range tests of the header table
    pass up to it. -/
def Reaches (buf : FileBuf) (i : Nat) : Prop :=
  i < (parseEhdr buf.byte).ePhnum.toNat ∧
    ∀ j, j ≤ i → TablePasses buf (parseEhdr buf.byte) j

theorem mem_headersRead (buf : FileBuf) (i : Nat) : i ∈ headersRead buf ↔ Reaches buf i := by
  rw [headersRead, List.range_eq_range', mem_takeWhile_range]
  simp only [Nat.zero_le, true_and, forall_const, Nat.zero_add, decide_eq_true_eq, Reaches]

/-- Program header `i` where the loader looks for it. -/
def headerAt (buf : FileBuf) (i : Nat) : Phdr :=
  parsePhdr buf.byte (phOffset (parseEhdr buf.byte) (BitVec.ofNat 32 i)).toNat

/-- Some segment loads. -/
def LoadsAny (buf : FileBuf) : Prop := ∃ i, Reaches buf i ∧ Loads buf (headerAt buf i)

/-- The count of segments is small, so it is zero exactly when none has loaded. -/
theorem phdrCount_zero_iff (buf : FileBuf) :
    (0 : Word) + BitVec.ofNat 32 (loadedCount buf (headerOffsets buf)) = 0 ↔ ¬ LoadsAny buf := by
  have few : loadedCount buf (headerOffsets buf) ≤ (headerOffsets buf).length :=
    List.countP_le_length
  have length : (headerOffsets buf).length ≤ (parseEhdr buf.byte).ePhnum.toNat := by
    rw [headerOffsets_eq, List.length_map, headersRead]
    exact Nat.le_trans (List.takeWhile_sublist _).length_le (Nat.le_of_eq List.length_range)
  have bound : (parseEhdr buf.byte).ePhnum.toNat < 2 ^ 16 := (parseEhdr buf.byte).ePhnum.isLt
  have zero : (0 : Word) + BitVec.ofNat 32 (loadedCount buf (headerOffsets buf)) = 0 ↔
      loadedCount buf (headerOffsets buf) = 0 := by
    bv_omega
  rw [zero, loadedCount, List.countP_eq_zero]
  simp only [headerOffsets_eq, List.mem_map, mem_headersRead, decide_eq_true_eq]
  constructor
  · rintro none ⟨i, reaches, loads⟩
    exact none _ ⟨i, reaches, rfl⟩ loads
  · rintro none _ ⟨i, reaches, rfl⟩ loads
    exact none ⟨i, reaches, loads⟩

/-- The regions that a load of the file lays over memory. -/
def imageRegions (buf : FileBuf) : List (Region Byte) :=
  (headersRead buf).flatMap fun i => segmentRegions buf (headerAt buf i)

/-- The bytes that its program headers touch. -/
def imageTouches (buf : FileBuf) : List Touch :=
  (headersRead buf).flatMap fun i =>
    .fileRead (phOffset (parseEhdr buf.byte) (BitVec.ofNat 32 i)).toNat 32 ::
      segmentTouches buf (headerAt buf i)

/-- A refused file changes nothing, and at most its header has been read. -/
theorem elfLoad_refused (buf : FileBuf) (mem : Memory) (refused : ¬ Accepted buf) :
    (elfLoad (some buf) mem).1 = 0 ∧ (elfLoad (some buf) mem).2.mem = mem ∧
      ∀ touch, touch ∈ (elfLoad (some buf) mem).2.touches →
        ¬ buf.size < 52 ∧ (touch = .fileRead 0 4 ∨ touch = .fileRead 16 36) := by
  simp only [elfLoad]
  by_cases short : buf.size < 52
  · rw [if_pos short]
    refine ⟨rfl, rfl, ?_⟩
    intro touch member
    cases member
  · rw [if_neg short]
    by_cases magic : rd32le buf.byte 0 ≠ elfMagic
    · rw [if_pos magic]
      refine ⟨rfl, rfl, ?_⟩
      intro touch member
      exact ⟨short, Or.inl (List.mem_singleton.mp member)⟩
    · have header : ∀ touch, touch ∈ [Touch.fileRead 0 4, Touch.fileRead 16 36] →
          ¬ buf.size < 52 ∧ (touch = .fileRead 0 4 ∨ touch = .fileRead 16 36) := by
        intro touch member
        rw [List.mem_cons, List.mem_singleton] at member
        exact ⟨short, member⟩
      rw [if_neg magic]
      by_cases kind : (parseEhdr buf.byte).eType ≠ etExec
      · rw [if_pos kind]
        exact ⟨rfl, rfl, header⟩
      · rw [if_neg kind]
        by_cases machine : (parseEhdr buf.byte).eMachine ≠ emRiscv
        · rw [if_pos machine]
          exact ⟨rfl, rfl, header⟩
        · exact absurd ⟨short, not_not.mp magic, not_not.mp kind, not_not.mp machine⟩ refused

/-- An accepted file is loaded: its entry is returned when a segment has loaded, its
    regions are laid over memory in order, and its touches are those of its header and
    of the program headers read. -/
theorem elfLoad_accepted (buf : FileBuf) (mem : Memory) (accepted : Accepted buf) :
    ((LoadsAny buf → (elfLoad (some buf) mem).1 = (parseEhdr buf.byte).eEntry) ∧
        (¬ LoadsAny buf → (elfLoad (some buf) mem).1 = 0)) ∧
      (elfLoad (some buf) mem).2.mem.data =
        layAll (imageRegions buf) mem.data ∧
      (elfLoad (some buf) mem).2.touches =
        [.fileRead 0 4, .fileRead 16 36] ++ imageTouches buf := by
  obtain ⟨long, magic, kind, machine⟩ := accepted
  simp only [elfLoad]
  rw [if_neg long, if_neg (not_not.mpr magic), if_neg (not_not.mpr kind),
    if_neg (not_not.mpr machine)]
  obtain ⟨regions, touches, count⟩ := elfLoadLoop_effect buf (parseEhdr buf.byte)
    (parseEhdr buf.byte).ePhnum.toNat 0
    { mem := mem
      info := { elfInfoClear with textStart := 0xFFFFFFFF, dataStart := 0xFFFFFFFF }
      touches := [.fileRead 0 4, .fileRead 16 36] }
  have counted := phdrCount_zero_iff buf
  change _ = layAll (regionsAt buf (headerOffsets buf)) _ at regions
  change _ = _ ++ touchesAt buf (headerOffsets buf) at touches
  rw [headerOffsets_eq, regionsAt, List.flatMap_map] at regions
  rw [headerOffsets_eq, touchesAt, List.flatMap_map] at touches
  rw [headerOffsets] at counted
  change _ = (0 : Word) + _ at count
  rw [← count] at counted
  split
  · rename_i zero
    have none := counted.mp zero
    exact ⟨⟨fun any => absurd any none, fun _ => rfl⟩, regions, touches⟩
  · rename_i nonzero
    have any := not_not.mp (mt counted.mpr nonzero)
    exact ⟨⟨fun _ => rfl, fun none => absurd any none⟩, regions, touches⟩

/-! ## Success and failure -/

/-- Success is a non-zero entry, and memory is what the loader has made of it. -/
theorem emuLoadElf_reported (opened : Option FileBuf) (emu : Emulator) :
    ((emuLoadElf opened emu).1 = true ↔ (elfLoad opened emu.mem).1 ≠ 0) ∧
      (emuLoadElf opened emu).2.mem = (elfLoad opened emu.mem).2.mem := by
  simp only [emuLoadElf]
  by_cases failed : (elfLoad opened emu.mem).1 = 0
  · rw [if_pos failed]
    exact ⟨iff_of_false Bool.false_ne_true (not_not.mpr failed), rfl⟩
  · rw [if_neg failed]
    exact ⟨iff_of_true rfl failed, rfl⟩

/-- A failed load has no other effect than the loader's on memory. -/
theorem emuLoadElf_failed (opened : Option FileBuf) (emu : Emulator)
    (failed : (elfLoad opened emu.mem).1 = 0) :
    emuLoadElf opened emu = (false, { emu with mem := (elfLoad opened emu.mem).2.mem }) := by
  simp only [emuLoadElf]
  rw [if_pos failed]

/-- Memories differ in their contents only. -/
theorem memory_eq (left right : Memory) (data : left.data = right.data) : left = right := by
  obtain ⟨leftData, leftSize, rfl⟩ := left
  obtain ⟨rightData, rightSize, rfl⟩ := right
  change leftData = rightData at data
  rw [data]

/-- A successful load is a load of the image that the loader has left in memory. -/
theorem emuLoadElf_loaded (opened : Option FileBuf) (emu : Emulator)
    (succeeded : (elfLoad opened emu.mem).1 ≠ 0) :
    emuLoadElf opened emu =
      (true, loadImage emu
        { data := (elfLoad opened emu.mem).2.mem.data, entry := (elfLoad opened emu.mem).1 }) := by
  have memory : (elfLoad opened emu.mem).2.mem =
      { emu.mem with data := (elfLoad opened emu.mem).2.mem.data } :=
    memory_eq _ _ rfl
  simp only [emuLoadElf]
  rw [if_neg succeeded, loadImage, ← memory]

/-- So a machine into which a file has been loaded after reset is one that a run starts
    from. -/
theorem load_boots (opened : Option FileBuf) (beyond : LittleEndian.Store)
    (succeeded : (emuLoadElf opened (emuInit beyond)).1 = true) :
    Boot (emuLoadElf opened (emuInit beyond)).2 := by
  rw [(emuLoadElf_reported opened (emuInit beyond)).1] at succeeded
  rw [emuLoadElf_loaded opened (emuInit beyond) succeeded]
  exact .loaded beyond _

/-- A load that fails leaves the machine as it was. -/
def LoadIntact (opened : Option FileBuf) (emu : Emulator) : Prop :=
  (emuLoadElf opened emu).1 = false → (emuLoadElf opened emu).2 = emu

/-- The segment has no file bytes, or they start past the end of memory and their end
    does not wrap below it, and nothing of it passes to be zeroed. -/
def PlacesNothing (ph : Phdr) : Prop :=
  (ph.pFilesz = 0 ∨ (ph.pVaddr + ph.pFilesz > memSize ∧ memSize ≤ ph.pVaddr)) ∧ ¬ Clears ph

theorem copyCount_zero_iff (ph : Phdr) :
    (copyCount ph).toNat = 0 ↔
      ph.pFilesz = 0 ∨ (ph.pVaddr + ph.pFilesz > memSize ∧ memSize ≤ ph.pVaddr) := by
  by_cases clipped : ph.pVaddr + ph.pFilesz > memSize
  · rw [copyCount_clipped ph clipped, Nat.sub_eq_zero_iff_le, ← BitVec.le_def]
    constructor
    · exact fun past => Or.inr ⟨clipped, past⟩
    · rintro (empty | ⟨-, past⟩)
      · have sum : ph.pVaddr + 0 = ph.pVaddr := BitVec.add_zero _
        rw [empty, sum] at clipped
        exact BitVec.le_of_lt clipped
      · exact past
  · have zero : ph.pFilesz.toNat = 0 ↔ ph.pFilesz = 0 :=
      ⟨fun same => BitVec.eq_of_toNat_eq same, fun same => by rw [same]; rfl⟩
    rw [copyCount_whole ph clipped, zero]
    exact ⟨Or.inl, fun either => either.resolve_right fun both => clipped both.1⟩

/-- A region that starts at an index covers one unless it is empty. -/
theorem uncovered_iff (region : Region Byte) (start : Word) (same : region.start = start.toNat) :
    (∀ index : Word, ¬ region.Covers index.toNat) ↔ region.count = 0 := by
  constructor
  · intro uncovered
    by_contra some
    exact uncovered start ⟨Nat.le_of_eq same, by omega⟩
  · rintro empty index ⟨above, below⟩
    omega

/-- The regions of a segment miss memory exactly when it places nothing. -/
theorem segment_uncovered_iff (buf : FileBuf) (ph : Phdr) :
    (∀ region, region ∈ segmentRegions buf ph → ∀ index : Word, ¬ region.Covers index.toNat) ↔
      (Loads buf ph → PlacesNothing ph) := by
  by_cases loads : Loads buf ph
  · have copied := (uncovered_iff (copyRegion buf ph) ph.pVaddr rfl).trans (copyCount_zero_iff ph)
    rw [segmentRegions, if_pos loads, List.forall_mem_cons, copied, PlacesNothing]
    by_cases clears : Clears ph
    · have larger : (bssRegion ph).count ≠ 0 := by
        have more := clears.1
        rw [gt_iff_lt, BitVec.lt_def] at more
        change (ph.pMemsz - ph.pFilesz).toNat ≠ 0
        bv_omega
      rw [if_pos clears, List.forall_mem_singleton, uncovered_iff (bssRegion ph) _ rfl]
      constructor
      · rintro ⟨-, empty⟩
        exact absurd empty larger
      · intro nothing
        exact absurd clears (nothing loads).2
    · rw [if_neg clears]
      constructor
      · rintro ⟨file, -⟩ _
        exact ⟨file, clears⟩
      · intro nothing
        exact ⟨(nothing loads).1, fun region member => by cases member⟩
  · rw [segmentRegions, if_neg loads]
    exact iff_of_true (fun region member => by cases member) (fun loads' => absurd loads' loads)

/-- The load of a file leaves every memory as it was exactly when no segment that loads
    places anything. -/
theorem image_uncovered_iff (buf : FileBuf) :
    (∀ data : LittleEndian.Store, layAll (imageRegions buf) data = data) ↔
      ∀ i, Reaches buf i → Loads buf (headerAt buf i) → PlacesNothing (headerAt buf i) := by
  have bytes : Nontrivial Byte := ⟨0, 1, by decide⟩
  rw [layAll_same_iff]
  constructor
  · intro uncovered i reaches
    refine (segment_uncovered_iff buf (headerAt buf i)).mp fun region own => ?_
    exact uncovered region
      (List.mem_flatMap.mpr ⟨i, (mem_headersRead buf i).mpr reaches, own⟩)
  · intro nothing region member
    obtain ⟨i, inside, own⟩ := List.mem_flatMap.mp member
    have reaches := (mem_headersRead buf i).mp inside
    exact (segment_uncovered_iff buf (headerAt buf i)).mpr (nothing i reaches) region own

/-- Failed loads leave every machine as it was, unless the file is an executable with
    entry 0 of which some segment is placed. -/
theorem load_intact_iff (opened : Option FileBuf) :
    (∀ emu, LoadIntact opened emu) ↔
      ∀ buf, opened = some buf → Accepted buf → (parseEhdr buf.byte).eEntry = 0 →
        ∀ i, Reaches buf i → Loads buf (headerAt buf i) → PlacesNothing (headerAt buf i) := by
  cases opened with
  | none => exact iff_of_true (fun emu _ => rfl) (fun buf impossible => by cases impossible)
  | some buf =>
    constructor
    · intro intact other same accepted entry
      cases same
      rw [← image_uncovered_iff]
      intro data
      have machine := intact { emuInit (fun _ => 0) with mem := ⟨data, memSize, rfl⟩ }
      obtain ⟨⟨loaded, empty⟩, regions, -⟩ := elfLoad_accepted buf ⟨data, memSize, rfl⟩ accepted
      have failed : (elfLoad (some buf) ⟨data, memSize, rfl⟩).1 = 0 := by
        by_cases any : LoadsAny buf
        · rw [loaded any, entry]
        · exact empty any
      rw [LoadIntact, emuLoadElf_failed _ _ failed] at machine
      have same := congrArg (fun emu => emu.mem.data) (machine rfl)
      exact regions.symm.trans same
    · intro nothing emu failure
      have failed : (elfLoad (some buf) emu.mem).1 = 0 := by
        by_contra entry
        rw [(emuLoadElf_reported (some buf) emu).1.mpr entry] at failure
        cases failure
      have same : (elfLoad (some buf) emu.mem).2.mem = emu.mem := by
        by_cases accepted : Accepted buf
        · obtain ⟨⟨loaded, -⟩, regions, -⟩ := elfLoad_accepted buf emu.mem accepted
          apply memory_eq
          rw [regions]
          refine (image_uncovered_iff buf).mpr (fun i reaches loads => ?_) emu.mem.data
          have entry := loaded ⟨i, reaches, loads⟩
          exact nothing buf rfl accepted (entry.symm.trans failed) i reaches loads
        · exact (elfLoad_refused buf emu.mem accepted).2.1
      rw [emuLoadElf_failed _ _ failed, same]

/-- An executable with entry 0 and four bytes at address 0. -/
def entryZeroFile : FileBuf where
  file := elfFile 0
    [{ pType := ptLoad, pOffset := 84, pVaddr := 0, pFilesz := 4, pMemsz := 4, pFlags := 5 }]
    [0x13, 0x00, 0x00, 0x00]
  beyond := fun _ => 0

/-- Its segment is loaded, and then its entry is taken for a failure. -/
theorem entryZeroFile_damages :
    ((emuLoadElf (some entryZeroFile) (emuInit fun _ => 0)).1 = false ∧
        (emuLoadElf (some entryZeroFile) (emuInit fun _ => 0)).2.mem.data 0 = 0x13 ∧
        (emuInit fun _ => 0).mem.data 0 = 0) ∧
      ¬ ∀ opened emu, LoadIntact opened emu := by
  have failed : (emuLoadElf (some entryZeroFile) (emuInit fun _ => 0)).1 = false := by
    decide +kernel
  have changed : (emuLoadElf (some entryZeroFile) (emuInit fun _ => 0)).2.mem.data 0 = 0x13 := by
    decide +kernel
  have before : (emuInit fun _ => 0).mem.data 0 = 0 := rfl
  refine ⟨⟨failed, changed, before⟩, ?_⟩
  intro intact
  rw [intact (some entryZeroFile) (emuInit fun _ => 0) failed, before] at changed
  revert changed
  decide

/-! ## Safety -/

/-- The touched bytes lie in the buffer, or in memory. -/
def Touch.Inside (fileSize memorySize : Word) : Touch → Prop
  | .fileRead start count => ∀ k, k < count → start + k < fileSize.toNat
  | .memWrite start count => ∀ k, k < count → start + k < memorySize.toNat

/-- Loading the file reads inside the buffer and writes inside memory. -/
def LoadSafe (buf : FileBuf) (mem : Memory) : Prop :=
  ∀ touch, touch ∈ (elfLoad (some buf) mem).2.touches →
    Touch.Inside buf.size mem.size touch

/-- No sum of a loaded segment wraps behind a range test that passes. Where the copy
    is clipped, only its clipped part has to lie in the file. -/
structure SumsFit (buf : FileBuf) (ph : Phdr) : Prop where
  memory : ph.pVaddr.toNat + ph.pFilesz.toNat < 2 ^ 32 ∨ ph.pVaddr + ph.pFilesz > memSize
  file : ph.pOffset.toNat + ph.pFilesz.toNat < 2 ^ 32 ∨
    (ph.pVaddr + ph.pFilesz > memSize ∧
      (memSize ≤ ph.pVaddr ∨
        ph.pOffset.toNat + (memSize.toNat - ph.pVaddr.toNat) ≤ buf.size.toNat))
  bss : ph.pMemsz > ph.pFilesz →
    (ph.pVaddr + ph.pFilesz).toNat + (ph.pMemsz - ph.pFilesz).toNat < 2 ^ 32 ∨
      (ph.pVaddr + ph.pFilesz) + (ph.pMemsz - ph.pFilesz) > memSize

/-- Behind a passed test, an access is inside exactly when its sum does not wrap. -/
theorem passed_iff (start count bound : Word) (passed : ¬ start + count > bound) :
    (∀ k, k < count.toNat → start.toNat + k < bound.toNat) ↔
      start.toNat + count.toNat < 2 ^ 32 := by
  have small : (start + count).toNat ≤ bound.toNat := by
    rw [gt_iff_lt, BitVec.lt_def] at passed
    omega
  have limit : bound.toNat < 2 ^ 32 := bound.isLt
  have low : start.toNat < 2 ^ 32 := start.isLt
  rw [BitVec.toNat_add] at small
  constructor
  · intro inside
    by_contra wraps
    have last := inside (count.toNat - 1) (by omega)
    omega
  · intro fits k below
    omega

/-- The bytes of a copy are inside exactly when neither of its sums wraps, or the copy is
    clipped and nothing is left of it, or what is left lies in the file. -/
theorem copy_inside_iff (buf : FileBuf) (ph : Phdr) (loads : Loads buf ph) :
    (Touch.Inside buf.size memSize (.fileRead ph.pOffset.toNat (copyCount ph).toNat) ∧
        Touch.Inside buf.size memSize (.memWrite ph.pVaddr.toNat (copyCount ph).toNat)) ↔
      (ph.pVaddr.toNat + ph.pFilesz.toNat < 2 ^ 32 ∨ ph.pVaddr + ph.pFilesz > memSize) ∧
        (ph.pOffset.toNat + ph.pFilesz.toNat < 2 ^ 32 ∨
          (ph.pVaddr + ph.pFilesz > memSize ∧
            (memSize ≤ ph.pVaddr ∨
              ph.pOffset.toNat + (memSize.toNat - ph.pVaddr.toNat) ≤ buf.size.toNat))) := by
  by_cases clipped : ph.pVaddr + ph.pFilesz > memSize
  · have inFile : (ph.pOffset + ph.pFilesz).toNat ≤ buf.size.toNat := by
      have passed := loads.2
      rw [gt_iff_lt, BitVec.lt_def] at passed
      omega
    have beyond : memSize.toNat < (ph.pVaddr + ph.pFilesz).toNat := clipped
    rw [BitVec.toNat_add] at inFile beyond
    have sum : (ph.pVaddr.toNat + ph.pFilesz.toNat) % 2 ^ 32 ≤
        ph.pVaddr.toNat + ph.pFilesz.toNat := Nat.mod_le _ _
    simp only [Touch.Inside, copyCount_clipped ph clipped, BitVec.le_def]
    constructor
    · rintro ⟨file, -⟩
      refine ⟨Or.inr clipped, Or.inr ⟨clipped, ?_⟩⟩
      by_cases nothing : memSize.toNat ≤ ph.pVaddr.toNat
      · exact Or.inl nothing
      · have last := file (memSize.toNat - ph.pVaddr.toNat - 1) (by omega)
        exact Or.inr (by omega)
    · rintro ⟨-, fits⟩
      refine ⟨?_, fun k small => by omega⟩
      intro k small
      rcases fits with noWrap | ⟨-, outside | part⟩
      · rw [Nat.mod_eq_of_lt noWrap] at inFile
        omega
      · omega
      · omega
  · rw [copyCount_whole ph clipped, Touch.Inside, Touch.Inside, passed_iff _ _ _ loads.2,
      passed_iff _ _ _ clipped]
    constructor
    · rintro ⟨file, memory⟩
      exact ⟨Or.inl memory, Or.inl file⟩
    · rintro ⟨memory, file⟩
      exact ⟨file.resolve_right fun both => clipped both.1, memory.resolve_right clipped⟩

/-- The touches of a segment are inside exactly when its sums fit. -/
theorem segment_safe_iff (buf : FileBuf) (ph : Phdr) :
    (∀ touch, touch ∈ segmentTouches buf ph → Touch.Inside buf.size memSize touch) ↔
      (Loads buf ph → SumsFit buf ph) := by
  by_cases loads : Loads buf ph
  · have copied := copy_inside_iff buf ph loads
    have cleared : (∀ touch, touch ∈ (if Clears ph then [Touch.memWrite
          (ph.pVaddr + ph.pFilesz).toNat (ph.pMemsz - ph.pFilesz).toNat] else []) →
          Touch.Inside buf.size memSize touch) ↔
        (ph.pMemsz > ph.pFilesz →
          (ph.pVaddr + ph.pFilesz).toNat + (ph.pMemsz - ph.pFilesz).toNat < 2 ^ 32 ∨
            (ph.pVaddr + ph.pFilesz) + (ph.pMemsz - ph.pFilesz) > memSize) := by
      by_cases clears : Clears ph
      · have test : ¬ (ph.pVaddr + ph.pFilesz) + (ph.pMemsz - ph.pFilesz) > memSize :=
          BitVec.not_lt.mpr clears.2
        rw [if_pos clears, List.forall_mem_singleton, Touch.Inside, passed_iff _ _ _ test]
        exact ⟨fun fits _ => Or.inl fits, fun fits => (fits clears.1).resolve_right test⟩
      · rw [if_neg clears]
        refine iff_of_true (fun touch member => by cases member) ?_
        intro larger
        right
        rw [gt_iff_lt, ← BitVec.not_le]
        exact fun fits => clears ⟨larger, fits⟩
    rw [segmentTouches, if_pos loads, List.forall_mem_append, cleared, List.forall_mem_cons,
      List.forall_mem_singleton, copied]
    constructor
    · rintro ⟨⟨memory, file⟩, bss⟩ _
      exact ⟨memory, file, bss⟩
    · intro fits
      exact ⟨⟨(fits loads).memory, (fits loads).file⟩, (fits loads).bss⟩
  · rw [segmentTouches, if_neg loads]
    exact iff_of_true (fun touch member => by cases member) (fun loads' => absurd loads' loads)

/-- Loading a file is safe exactly when it is refused, or no program header read makes
    a sum wrap: the one that bounds its own 32 bytes, or one behind a passed test of its
    segment. -/
theorem load_safe_iff (buf : FileBuf) (mem : Memory) :
    LoadSafe buf mem ↔
      (Accepted buf → ∀ i, Reaches buf i →
        (phOffset (parseEhdr buf.byte) (BitVec.ofNat 32 i)).toNat + 32 < 2 ^ 32 ∧
          (Loads buf (headerAt buf i) → SumsFit buf (headerAt buf i))) := by
  rw [LoadSafe, mem.sized]
  have header : ¬ buf.size < 52 → Touch.Inside buf.size memSize (.fileRead 0 4) ∧
      Touch.Inside buf.size memSize (.fileRead 16 36) := by
    intro long
    have bound : 52 ≤ buf.size.toNat := BitVec.not_lt.mp long
    exact ⟨fun k small => by omega, fun k small => by omega⟩
  by_cases accepted : Accepted buf
  · obtain ⟨-, -, touches⟩ := elfLoad_accepted buf mem accepted
    obtain ⟨magic, fields⟩ := header accepted.1
    rw [touches, List.forall_mem_append, List.forall_mem_cons, List.forall_mem_singleton]
    constructor
    · rintro ⟨-, inside⟩ _ i reaches
      have member := (mem_headersRead buf i).mpr reaches
      have own : ∀ touch, touch ∈ Touch.fileRead
          (phOffset (parseEhdr buf.byte) (BitVec.ofNat 32 i)).toNat 32 ::
            segmentTouches buf (headerAt buf i) → Touch.Inside buf.size memSize touch :=
        fun touch within => inside touch (List.mem_flatMap.mpr ⟨i, member, within⟩)
      rw [List.forall_mem_cons, segment_safe_iff] at own
      exact ⟨(passed_iff _ 32 _ (reaches.2 i (Nat.le_refl i))).mp own.1, own.2⟩
    · intro fits
      refine ⟨⟨magic, fields⟩, ?_⟩
      intro touch within
      obtain ⟨i, member, own⟩ := List.mem_flatMap.mp within
      have reaches := (mem_headersRead buf i).mp member
      obtain ⟨room, sums⟩ := fits accepted i reaches
      rcases List.mem_cons.mp own with read | segment
      · rw [read]
        exact (passed_iff _ 32 _ (reaches.2 i (Nat.le_refl i))).mpr room
      · exact (segment_safe_iff buf (headerAt buf i)).mpr sums touch segment
  · obtain ⟨-, -, touches⟩ := elfLoad_refused buf mem accepted
    refine iff_of_true ?_ (fun accepted' => absurd accepted' accepted)
    intro touch member
    obtain ⟨long, read | read⟩ := touches touch member
    · rw [read]
      exact (header long).1
    · rw [read]
      exact (header long).2

/-- A file of 84 bytes with a segment of 32 bytes at offset 0xFFFFFFF0. -/
def wrappingFile : FileBuf where
  file := elfFile 0x1000
    [{ pType := ptLoad, pOffset := 0xFFFFFFF0, pVaddr := 0x1000, pFilesz := 0x20,
        pMemsz := 0x20, pFlags := 5 }] []
  beyond := fun _ => 0

/-- The end of its segment wraps to 16 and passes for a place in the file, and the copy
    reads 32 bytes four gigabytes past the start of the buffer. -/
theorem wrappingFile_escapes :
    (wrappingFile.file.length = 84 ∧ Touch.fileRead 0xFFFFFFF0 0x20 ∈
        (elfLoad (some wrappingFile) (memoryInit fun _ => 0)).2.touches) ∧
      ¬ ∀ buf mem, LoadSafe buf mem := by
  have length : wrappingFile.file.length = 84 := by decide
  have read : Touch.fileRead 0xFFFFFFF0 0x20 ∈
      (elfLoad (some wrappingFile) (memoryInit fun _ => 0)).2.touches := by
    decide +kernel
  refine ⟨⟨length, read⟩, ?_⟩
  intro always
  have inside := always wrappingFile (memoryInit fun _ => 0) _ read 0 (by decide)
  rw [FileBuf.size, length] at inside
  revert inside
  decide

end RvEmu.ElfLoading
