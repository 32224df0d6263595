import Mathlib.Data.List.GetD
import RvEmu.LoadedImage

/-!
# Well-formed images

A well-formed image is an executable whose program headers and segment bytes lie in
the file, and whose segments lie in memory without overlap. Loading one leaves exactly
its segments in memory: a cell belongs to at most one of them, and takes the value that
this one describes, in whatever order the headers stand.

The file itself may be of any length. The loader keeps that length in 32 bits, so the
result holds for the files shorter than four gigabytes and for no longer ones.
-/

namespace RvEmu.ImageCorrectness

open Regions ElfLoading LoadedImage

/-- A place in the memory range of a segment. -/
def InSegment (ph : Phdr) (place : Nat) : Prop :=
  ph.pVaddr.toNat ≤ place ∧ place < ph.pVaddr.toNat + ph.pMemsz.toNat

/-- An executable image, with all sums taken as natural numbers. -/
structure WellFormedImage (file : List Byte) : Prop where
  executable : Executable file
  entry : (header file).eEntry ≠ 0
  table : ∀ i, i < (header file).ePhnum.toNat → HeaderInside file i
  nonempty : ∃ i, Loadable file i
  inFile : ∀ i, Loadable file i →
    (segmentAt file i).pOffset.toNat + (segmentAt file i).pFilesz.toNat ≤ file.length
  sizes : ∀ i, Loadable file i →
    (segmentAt file i).pFilesz.toNat ≤ (segmentAt file i).pMemsz.toNat
  inMemory : ∀ i, Loadable file i →
    (segmentAt file i).pVaddr.toNat + (segmentAt file i).pMemsz.toNat ≤ memSize.toNat
  disjoint : ∀ i j, Loadable file i → Loadable file j → ∀ place,
    InSegment (segmentAt file i) place → InSegment (segmentAt file j) place → i = j

/-- The image is in memory and nothing else has changed, and the machine runs from its
    entry. -/
structure ImageLoaded (file : List Byte) (beyond : Nat → Byte) (emu : Emulator) : Prop where
  entry : (elfLoad (some (FileBuf.mk file beyond)) emu.mem).1 = (header file).eEntry
  segments : ∀ i, Loadable file i →
    InPlace file (elfLoad (some (FileBuf.mk file beyond)) emu.mem).2.mem.data (segmentAt file i)
  frame : ∀ index : Word, (∀ i, Loadable file i → ¬ InSegment (segmentAt file i) index.toNat) →
    (elfLoad (some (FileBuf.mk file beyond)) emu.mem).2.mem.data index = emu.mem.data index
  succeeds : (emuLoadElf (some (FileBuf.mk file beyond)) emu).1 = true
  memory : (emuLoadElf (some (FileBuf.mk file beyond)) emu).2.mem =
    (elfLoad (some (FileBuf.mk file beyond)) emu.mem).2.mem
  starts : (emuLoadElf (some (FileBuf.mk file beyond)) emu).2.rf.pc = (header file).eEntry
  runs : (emuLoadElf (some (FileBuf.mk file beyond)) emu).2.state = .running

/-! ## What a segment describes -/

/-- The value that a segment gives a place of its range. -/
def contents (file : List Byte) (ph : Phdr) (place : Nat) : Byte :=
  if place - ph.pVaddr.toNat < ph.pFilesz.toNat then
    fileByte file (ph.pOffset.toNat + (place - ph.pVaddr.toNat))
  else 0

section Segment

variable (file : List Byte) (ph : Phdr) (sizes : ph.pFilesz.toNat ≤ ph.pMemsz.toNat)
include sizes

/-- What is placed of a segment stays in its range and has its contents. -/
theorem placed_cell (region : Region Byte) (member : region ∈ placed file ph) (place : Nat)
    (covered : region.Covers place) :
    InSegment ph place ∧ region.cell (place - region.start) = contents file ph place := by
  rw [placed] at member
  split at member
  · rcases List.mem_cons.mp member with copy | rest
    · subst copy
      obtain ⟨above, below⟩ := covered
      change ph.pVaddr.toNat ≤ place at above
      change place < ph.pVaddr.toNat +
        min ph.pFilesz.toNat (memSize.toNat - ph.pVaddr.toNat) at below
      refine ⟨⟨above, by omega⟩, ?_⟩
      rw [contents, if_pos (by omega)]
    · split at rest
      · have bss := List.mem_singleton.mp rest
        subst bss
        obtain ⟨above, below⟩ := covered
        change ph.pVaddr.toNat + ph.pFilesz.toNat ≤ place at above
        change place < ph.pVaddr.toNat + ph.pFilesz.toNat +
          (ph.pMemsz.toNat - ph.pFilesz.toNat) at below
        refine ⟨⟨by omega, by omega⟩, ?_⟩
        rw [contents, if_neg (by omega)]
      · cases rest
  · cases member

/-- A segment that fits is placed whole. -/
theorem placed_covers (inFile : InFile file ph)
    (fits : ph.pVaddr.toNat + ph.pMemsz.toNat ≤ memSize.toNat) (place : Nat)
    (inside : InSegment ph place) : ∃ region, region ∈ placed file ph ∧ region.Covers place := by
  obtain ⟨above, below⟩ := inside
  rw [placed, if_pos inFile]
  by_cases fromFile : place < ph.pVaddr.toNat + ph.pFilesz.toNat
  · refine ⟨_, List.mem_cons_self, above, ?_⟩
    change place < ph.pVaddr.toNat + min ph.pFilesz.toNat (memSize.toNat - ph.pVaddr.toNat)
    omega
  · have larger : ph.pFilesz.toNat < ph.pMemsz.toNat := by omega
    rw [if_pos ⟨larger, fits⟩]
    refine ⟨_, List.mem_cons_of_mem _ List.mem_cons_self, Nat.le_of_not_lt fromFile, ?_⟩
    change place < ph.pVaddr.toNat + ph.pFilesz.toNat + (ph.pMemsz.toNat - ph.pFilesz.toNat)
    omega

end Segment

/-! ## The image -/

section WellFormed

variable (file : List Byte) (wellFormed : WellFormedImage file)
include wellFormed

/-- Every program header is read. -/
theorem reads_all (i : Nat) (small : i < (header file).ePhnum.toNat) : i ∈ headersInside file :=
  (mem_headersInside file i).mpr
    ⟨small, fun j earlier => wellFormed.table j (Nat.lt_of_le_of_lt earlier small)⟩

/-- A well-formed file of less than four gigabytes makes no sum wrap. -/
theorem unwrapped (short : file.length < 2 ^ 32) : Unwrapped file := by
  have memory : memSize.toNat < 2 ^ 32 := memSize.isLt
  constructor
  · exact short
  · intro i small
    exact Nat.lt_of_le_of_lt (wellFormed.table i small) short
  · intro i loadable
    exact Nat.lt_of_le_of_lt (wellFormed.inFile i loadable) short
  · intro i loadable
    have sizes := wellFormed.sizes i loadable
    have inMemory := wellFormed.inMemory i loadable
    omega
  · intro i loadable
    exact Nat.lt_of_le_of_lt (wellFormed.inMemory i loadable) memory

/-- A region of the image belongs to one of the loadable segments. -/
theorem image_region (region : Region Byte) (member : region ∈ image file) (place : Nat)
    (covered : region.Covers place) :
    ∃ i, Loadable file i ∧ InSegment (segmentAt file i) place ∧
      region.cell (place - region.start) = contents file (segmentAt file i) place := by
  obtain ⟨i, inside, own⟩ := List.mem_flatMap.mp member
  have loads : (segmentAt file i).pType = 1 := by
    by_contra other
    rw [placed, if_neg fun inFile => other inFile.1] at own
    cases own
  have loadable : Loadable file i := ⟨((mem_headersInside file i).mp inside).1, loads⟩
  exact ⟨i, loadable,
    placed_cell file (segmentAt file i) (wellFormed.sizes i loadable) region own place covered⟩

/-- Outside the segments the image changes nothing. -/
theorem image_outside (data : LittleEndian.Store) (index : Word)
    (outside : ∀ i, Loadable file i → ¬ InSegment (segmentAt file i) index.toNat) :
    layAll (image file) data index = data index := by
  apply layAll_outside
  intro region member covered
  obtain ⟨i, loadable, inside, -⟩ := image_region file wellFormed region member _ covered
  exact outside i loadable inside

/-- In a segment the image has its contents: no other segment reaches there. -/
theorem image_inside (data : LittleEndian.Store) (i : Nat) (loadable : Loadable file i)
    (index : Word) (inside : InSegment (segmentAt file i) index.toNat) :
    layAll (image file) data index = contents file (segmentAt file i) index.toNat := by
  apply layAll_inside
  · obtain ⟨region, member, covered⟩ := placed_covers file (segmentAt file i)
      (wellFormed.sizes i loadable) ⟨loadable.2, wellFormed.inFile i loadable⟩
      (wellFormed.inMemory i loadable) index.toNat inside
    exact ⟨region,
      List.mem_flatMap.mpr ⟨i, reads_all file wellFormed i loadable.1, member⟩, covered⟩
  · intro region member covered
    obtain ⟨j, other, also, value⟩ := image_region file wellFormed region member _ covered
    rw [value, wellFormed.disjoint i j loadable other _ inside also]

/-- So every segment is in place. -/
theorem image_inPlace (data : LittleEndian.Store) (i : Nat) (loadable : Loadable file i) :
    InPlace file (layAll (image file) data) (segmentAt file i) := by
  have memory : memSize.toNat = 0x100000 := rfl
  have sizes := wellFormed.sizes i loadable
  have inMemory := wellFormed.inMemory i loadable
  have cell : ∀ k, k < (segmentAt file i).pMemsz.toNat →
      layAll (image file) data (BitVec.ofNat 32 ((segmentAt file i).pVaddr.toNat + k)) =
        if k < (segmentAt file i).pFilesz.toNat then
          fileByte file ((segmentAt file i).pOffset.toNat + k)
        else 0 := by
    intro k small
    have place : (BitVec.ofNat 32 ((segmentAt file i).pVaddr.toNat + k)).toNat =
        (segmentAt file i).pVaddr.toNat + k := by
      rw [BitVec.toNat_ofNat, Nat.mod_eq_of_lt (by omega)]
    rw [image_inside file wellFormed data i loadable _ (by rw [place, InSegment]; omega), place,
      contents, Nat.add_sub_cancel_left]
  refine ⟨wellFormed.inFile i loadable, inMemory, ?_, ?_⟩
  · intro k small
    rw [cell k (by omega), if_pos small]
  · intro k past small
    rw [cell k small, if_neg (Nat.not_lt.mpr past)]

/-- A well-formed file of less than four gigabytes is loaded right. -/
theorem image_loaded (short : file.length < 2 ^ 32) (beyond : Nat → Byte) (emu : Emulator) :
    ImageLoaded file beyond emu := by
  have executable := wellFormed.executable
  have noWrap := unwrapped file wellFormed short
  have accepted := (accepted_iff file beyond short).mpr executable
  obtain ⟨⟨loaded, -⟩, regions, -⟩ := elfLoad_accepted _ emu.mem accepted
  have processed : ∃ i, Processed file i := by
    obtain ⟨i, loadable⟩ := wellFormed.nonempty
    exact ⟨i, reads_all file wellFormed i loadable.1, loadable.2, wellFormed.inFile i loadable⟩
  have entry := loaded ((loadsAny_iff file beyond executable noWrap).mpr processed)
  rw [header_file file beyond short executable.long] at entry
  rw [imageRegions_image file beyond executable noWrap] at regions
  have nonzero : (elfLoad (some (FileBuf.mk file beyond)) emu.mem).1 ≠ 0 := by
    rw [entry]
    exact wellFormed.entry
  have started := emuLoadElf_loaded (some (FileBuf.mk file beyond)) emu nonzero
  constructor
  · exact entry
  · intro i loadable
    rw [regions]
    exact image_inPlace file wellFormed emu.mem.data i loadable
  · intro index outside
    rw [regions]
    exact image_outside file wellFormed emu.mem.data index outside
  · rw [started]
  · exact (emuLoadElf_reported _ emu).2
  · rw [started]
    exact entry
  · rw [started]
    rfl

end WellFormed

/-! ## Long files -/

/-- The start of a file settles the bytes that it has. -/
theorem fileByte_append (front rest : List Byte) (place : Nat) (inside : place < front.length) :
    fileByte (front ++ rest) place = fileByte front place := by
  rw [fileByte, fileByte, List.getD_append _ _ _ _ inside]

theorem header_append (front rest : List Byte) (long : 52 ≤ front.length) :
    header (front ++ rest) = header front :=
  parseEhdr_congr _ _ fun k small => fileByte_append front rest k (by omega)

/-- The header and the only program header of the long files. Their segment is one byte
    at the end of the first four gigabytes. -/
def longFront : List Byte :=
  elfFile 0x1000
    [{ pType := 1, pOffset := 0xFFFFFFFF, pVaddr := 0x1000, pFilesz := 1, pMemsz := 1,
        pFlags := 5 }] []

/-- A file of a given length: zeros follow the headers. -/
def longFile (length : Nat) : List Byte := longFront ++ List.replicate (length - 84) 0

theorem longFront_length : longFront.length = 84 := by decide

theorem longFile_front (length place : Nat) (inside : place < 84) :
    fileByte (longFile length) place = fileByte longFront place :=
  fileByte_append longFront _ place (by rw [longFront_length]; exact inside)

theorem longFile_header (length : Nat) : header (longFile length) = header longFront :=
  header_append longFront _ (by rw [longFront_length]; decide)

theorem longFile_length (length : Nat) (long : 84 ≤ length) :
    (longFile length).length = length := by
  rw [longFile, List.length_append, longFront_length, List.length_replicate]
  omega

/-- Past its headers a long file has zeros only. -/
theorem longFile_zero (length place : Nat) (past : 84 ≤ place) :
    fileByte (longFile length) place = 0 := by
  rw [fileByte, longFile, List.getD_append_right _ _ _ _ (by rw [longFront_length]; exact past)]
  rw [List.getD_eq_getElem?_getD, List.getElem?_getD_replicate_default_eq]

/-- A program header of a long file is the one its headers say. -/
theorem longFile_segment (length i : Nat) (only : i < 1) :
    segmentAt (longFile length) i = segmentAt longFront i := by
  have first : i = 0 := Nat.lt_one_iff.mp only
  have place : headerPlace longFront 0 = 52 := by decide
  subst first
  rw [segmentAt, segmentAt, headerPlace, longFile_header, ← headerPlace, place]
  apply parsePhdr_congr
  intro k small
  exact longFile_front length _ (by omega)

theorem longFile_loadable (length i : Nat) : Loadable (longFile length) i ↔ i = 0 := by
  have count : (header longFront).ePhnum.toNat = 1 := by decide
  have kind : (segmentAt longFront 0).pType = 1 := by decide
  rw [Loadable, longFile_header, count]
  constructor
  · rintro ⟨small, -⟩
    exact Nat.lt_one_iff.mp small
  · intro first
    rw [longFile_segment length i (Nat.lt_one_iff.mpr first), first]
    exact ⟨Nat.one_pos, kind⟩

/-- From four gigabytes on it is well formed. -/
theorem longFile_wellFormed (length : Nat) (long : 2 ^ 32 ≤ length) :
    WellFormedImage (longFile length) := by
  have size := longFile_length length (by omega)
  have count : (header longFront).ePhnum.toNat = 1 := by decide
  have place : headerPlace longFront 0 = 52 := by decide
  have only : ∀ i, Loadable (longFile length) i →
      segmentAt (longFile length) i = segmentAt longFront 0 := by
    intro i loadable
    have first := (longFile_loadable length i).mp loadable
    rw [longFile_segment length i (Nat.lt_one_iff.mpr first), first]
  constructor
  · constructor
    · omega
    · rw [rd32le_congr _ _ 0 fun k small => longFile_front length _ (by omega)]
      decide
    · rw [longFile_header]
      decide
    · rw [longFile_header]
      decide
  · rw [longFile_header]
    decide
  · intro i small
    rw [longFile_header, count] at small
    have first : i = 0 := Nat.lt_one_iff.mp small
    rw [HeaderInside, headerPlace, longFile_header, ← headerPlace, first, place]
    omega
  · exact ⟨0, (longFile_loadable length 0).mpr rfl⟩
  · intro i loadable
    have offset : (segmentAt longFront 0).pOffset.toNat + (segmentAt longFront 0).pFilesz.toNat =
        2 ^ 32 := by
      decide
    rw [only i loadable, offset, size]
    exact long
  · intro i loadable
    rw [only i loadable]
    decide
  · intro i loadable
    rw [only i loadable]
    decide
  · intro i j loadable other place _ _
    rw [(longFile_loadable length i).mp loadable, (longFile_loadable length j).mp other]

/-- A long file in the loader's buffer, with ones after it. -/
def longBuf (length : Nat) : FileBuf := { file := longFile length, beyond := fun _ => 1 }

/-- What is seen of the headers is what they say. -/
theorem longBuf_byte (length place : Nat) (seen : place < (longBuf length).size.toNat)
    (small : place < 84) : (longBuf length).byte place = fileByte longFront place := by
  rw [FileBuf.byte, if_pos seen]
  exact longFile_front length place small

theorem longBuf_parsed (length : Nat) (seen : 52 ≤ (longBuf length).size.toNat) :
    parseEhdr (longBuf length).byte = header longFront :=
  parseEhdr_congr _ _ fun k small => longBuf_byte length k (by omega) (by omega)

theorem longFront_offset : phOffset (header longFront) (BitVec.ofNat 32 0) = 52 := by decide

/-- A program header that is not seen whole is not read. -/
theorem longBuf_unseen (length : Nat) (parsed : 52 ≤ (longBuf length).size.toNat)
    (unseen : ¬ 84 ≤ (longBuf length).size.toNat) : ¬ LoadsAny (longBuf length) := by
  rintro ⟨i, reaches, -⟩
  have passes := reaches.2 0 (Nat.zero_le i)
  rw [TablePasses, longBuf_parsed length parsed, longFront_offset, gt_iff_lt,
    BitVec.lt_def] at passes
  exact unseen (Nat.le_of_not_lt passes)

/-- When it is seen, its segment wraps past the range test. -/
theorem longBuf_regions (length : Nat) (seen : 84 ≤ (longBuf length).size.toNat) :
    imageRegions (longBuf length) =
      [copyRegion (longBuf length) (segmentAt longFront 0)] := by
  have parsed := longBuf_parsed length (by omega)
  have passes : TablePasses (longBuf length) (header longFront) 0 := by
    rw [TablePasses, longFront_offset, gt_iff_lt, BitVec.lt_def]
    exact Nat.not_lt.mpr seen
  have count : (header longFront).ePhnum.toNat = 1 := by decide
  have read : headersRead (longBuf length) = [0] := by
    rw [headersRead, parsed, count]
    exact List.takeWhile_cons_of_pos (decide_eq_true passes)
  have place : headerPlace longFront 0 = 52 := by decide
  have here : headerAt (longBuf length) 0 = segmentAt longFront 0 := by
    rw [headerAt, parsed, longFront_offset, segmentAt, place]
    apply parsePhdr_congr
    intro k small
    change (longBuf length).byte (52 + k) = fileByte longFront (52 + k)
    exact longBuf_byte length _ (by omega) (by omega)
  have loads : Loads (longBuf length) (segmentAt longFront 0) := by
    have sum : (segmentAt longFront 0).pOffset + (segmentAt longFront 0).pFilesz = 0 := by decide
    rw [Loads, sum, gt_iff_lt, BitVec.lt_def]
    exact ⟨by decide, Nat.not_lt_zero _⟩
  have keeps : ¬ Clears (segmentAt longFront 0) := by decide
  rw [imageRegions, read, List.flatMap_cons, List.flatMap_nil, List.append_nil, here,
    segmentRegions, if_pos loads, if_neg keeps]

/-- Then the byte that lands in memory comes from past the buffer. -/
theorem longBuf_lands (length : Nat) (seen : 84 ≤ (longBuf length).size.toNat)
    (data : LittleEndian.Store) : layAll (imageRegions (longBuf length)) data 0x1000 = 1 := by
  have bound : (longBuf length).size.toNat < 2 ^ 32 := (longBuf length).size.isLt
  have vaddr : (segmentAt longFront 0).pVaddr.toNat = 0x1000 := by decide
  have offset : (segmentAt longFront 0).pOffset.toNat = 0xFFFFFFFF := by decide
  have count : (copyCount (segmentAt longFront 0)).toNat = 1 := by decide
  have covered : (copyRegion (longBuf length) (segmentAt longFront 0)).Covers
      (0x1000 : Word).toNat := by
    simp only [Region.Covers, copyRegion, vaddr, count]
    decide
  have start : (0x1000 : Word).toNat - 0x1000 = 0 := by decide
  have past : ¬ 0xFFFFFFFF < (longBuf length).size.toNat := by omega
  rw [longBuf_regions length seen, layAll, layAll, lay_inside _ _ _ covered]
  simp only [copyRegion, vaddr, offset, start, Nat.add_zero]
  rw [FileBuf.byte, if_neg past]
  rfl

/-- The loader sees less of a long file than its length, and does not load it right. -/
theorem longFile_fails (length : Nat) (emu : Emulator) :
    ¬ ImageLoaded (longFile length) (fun _ => 1) emu := by
  intro loaded
  have buffer : FileBuf.mk (longFile length) (fun _ => 1) = longBuf length := rfl
  have entry := loaded.entry
  rw [buffer] at entry
  have nonzero : (header (longFile length)).eEntry ≠ 0 := by
    rw [longFile_header]
    decide
  have accepted : Accepted (longBuf length) := by
    by_contra refused
    rw [(elfLoad_refused _ emu.mem refused).1] at entry
    exact nonzero entry.symm
  obtain ⟨⟨-, unloaded⟩, regions, -⟩ := elfLoad_accepted _ emu.mem accepted
  by_cases seen : 84 ≤ (longBuf length).size.toNat
  · -- The byte of the segment is the host's and not the file's.
    have filesz : (segmentAt longFront 0).pFilesz.toNat = 1 := by decide
    have offset : (segmentAt longFront 0).pOffset.toNat = 0xFFFFFFFF := by decide
    have place : BitVec.ofNat 32 (segmentAt longFront 0).pVaddr.toNat = 0x1000 := by decide
    have copied := (loaded.segments 0 ((longFile_loadable length 0).mpr rfl)).copied 0
    rw [buffer, longFile_segment length 0 Nat.one_pos, filesz, offset, Nat.add_zero, place,
      longFile_zero length _ (by decide), regions, longBuf_lands length seen] at copied
    exact absurd (copied Nat.one_pos) (by decide)
  · rw [unloaded (longBuf_unseen length (BitVec.not_lt.mp accepted.1) seen)] at entry
    exact nonzero entry.symm

/-- Loading is right for the well-formed files of a length exactly when that length fits
    in 32 bits. -/
theorem image_loaded_iff (length : Nat) :
    (∀ file beyond emu, file.length = length → WellFormedImage file →
      ImageLoaded file beyond emu) ↔ length < 2 ^ 32 := by
  constructor
  · intro right
    by_contra long
    have least : 2 ^ 32 ≤ length := Nat.le_of_not_lt long
    exact longFile_fails length (emuInit fun _ => 0)
      (right (longFile length) (fun _ => 1) (emuInit fun _ => 0)
        (longFile_length length (by omega)) (longFile_wellFormed length least))
  · intro short file beyond emu same wellFormed
    exact image_loaded file wellFormed (same ▸ short) beyond emu

/-- The shortest long file is well formed and is not loaded right. -/
theorem longFile_refutes :
    (WellFormedImage (longFile (2 ^ 32)) ∧
        ¬ ImageLoaded (longFile (2 ^ 32)) (fun _ => 1) (emuInit fun _ => 0)) ∧
      ¬ ∀ file beyond emu, WellFormedImage file → ImageLoaded file beyond emu := by
  have wellFormed := longFile_wellFormed (2 ^ 32) (Nat.le_refl _)
  have fails := longFile_fails (2 ^ 32) (emuInit fun _ => 0)
  exact ⟨⟨wellFormed, fails⟩, fun always => fails (always _ _ _ wellFormed)⟩

end RvEmu.ImageCorrectness
