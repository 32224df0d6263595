import RvEmu.Debug
import RvEmu.HalfwordFetch
import RvEmu.MemoryAgreement
import RvEmu.Unimplemented

/-!
# What the debugger shows

The debugger fetches on its own. Where addresses are physical, or mapped to themselves,
its fetch is that of the step: both read one halfword or two, and they decode the same.
Elsewhere it reads another place than the step, and at an odd pc it decodes what the
step refuses. Whether the two agree then is up to the contents of memory. They agree
for all contents only where the pc cannot be read and nothing can be run.
-/

namespace RvEmu.DebuggerFetch

open LittleEndian PageWalk PageTables ExecOutcome StepAnatomy HalfwordFetch Unimplemented
  MemoryAgreement

/-! ## The law -/

/-- The fetch of the step faults: its pc is odd, its page faults or its memory cannot be
    read. An instruction that is fetched and not decoded is illegal. -/
def FetchFaults (emu : Emulator) : Prop :=
  ∃ after cause tval, frontEnd emu = .refused after cause tval ∧ cause ≠ excIllegalInst

/-- The debugger shows what will run, and shows no instruction where the fetch faults. -/
structure Shows (emu : Emulator) : Prop where
  issued : ∀ after inst, frontEnd emu = .issued after inst →
    ∃ raw compressed, fetchDecoded emu emu.rf.pc = .decoded inst raw compressed
  faulted : FetchFaults emu → ∀ inst raw compressed,
    fetchDecoded emu emu.rf.pc ≠ .decoded inst raw compressed

/-- Some bytes lie outside memory, by the test of the accessors. -/
def Unreadable (addr count : Word) : Prop := addr + count > memSize

instance (addr count : Word) : Decidable (Unreadable addr count) :=
  inferInstanceAs (Decidable (addr + count > memSize))

/-- The pc is an even physical address. Or there is no halfword at it to show, and none to
    run: it is odd, or its entry in the root lies outside memory. -/
def Physical (emu : Emulator) : Prop :=
  (Bare emu ∧ emu.rf.pc &&& 1 = 0) ∨
    (Unreadable emu.rf.pc 2 ∧
      (emu.rf.pc &&& 1 ≠ 0 ∨ (¬ Bare emu ∧ Unreadable (firstSlot emu.csr.satp emu.rf.pc) 4)))

instance (emu : Emulator) : Decidable (Physical emu) :=
  inferInstanceAs (Decidable ((Bare emu ∧ emu.rf.pc &&& 1 = 0) ∨
    (Unreadable emu.rf.pc 2 ∧
      (emu.rf.pc &&& 1 ≠ 0 ∨ (¬ Bare emu ∧ Unreadable (firstSlot emu.csr.satp emu.rf.pc) 4)))))

/-! ## Physical addresses -/

/-- Two decoders of one fetched word: that of the debugger and that of the step. -/
structure SameParcel (debugger : FetchDecoded) (front : Front) : Prop where
  issued : ∀ after inst, front = .issued after inst →
    ∃ raw compressed, debugger = .decoded inst raw compressed
  faulted : ∀ after cause tval, front = .refused after cause tval → cause ≠ excIllegalInst →
    debugger = .unmapped

theorem sameParcel_fault (after : Emulator) (cause tval : Word) :
    SameParcel .unmapped (.refused after cause tval) := by
  constructor
  · rintro _ _ ⟨⟩
  · exact fun _ _ _ _ _ => rfl

theorem sameParcel_illegal (debugger : FetchDecoded) (after : Emulator) (tval : Word) :
    SameParcel debugger (.refused after excIllegalInst tval) := by
  constructor
  · rintro _ _ ⟨⟩
  · rintro _ cause _ ⟨⟩ fault
    exact absurd rfl fault

theorem sameParcel_issued (after : Emulator) (inst : DecodedInst) (raw : Word)
    (compressed : Bool) :
    SameParcel (.decoded inst raw compressed) (.issued after inst) := by
  constructor
  · rintro _ _ ⟨⟩
    exact ⟨raw, compressed, rfl⟩
  · rintro _ _ _ ⟨⟩

/-- A word that both have read is decoded alike. -/
theorem sameParcel_long (after : Emulator) (word : Word) :
    SameParcel
      (match decode word with
      | none => .illegal word
      | some inst => .decoded inst word false)
      (frontOf (.ok (word, false), after)) := by
  simp only [frontOf]
  cases decode word with
  | none => exact sameParcel_illegal _ after word
  | some inst => exact sameParcel_issued after inst word false

/-- The four bytes at an address, read at once or by halfwords. -/
theorem read_halves (mem : Memory) (addr : Word) (low : Half)
    (read : memoryRead16 mem addr = some low) :
    memoryRead32 mem addr = (memoryRead16 mem (addr + 2)).map
      (fun high : Half => low.setWidth 32 ||| high.setWidth 32 <<< 16) := by
  have next : addr + 2 + 2 = addr + 4 := by bv_omega
  simp only [memoryRead16] at read ⊢
  split at read
  · cases read
  · cases read
    rw [next, memoryRead32]
    split
    · rfl
    · rw [wordAt_halves]
      rfl

/-- The halfwords of the fetch lie at their own addresses, and the translation leaves no
    mark: translation is off, or the page is mapped to itself and has been accessed. The
    page of the second halfword counts where another one begins. -/
def InPlace (emu : Emulator) : Prop :=
  Untouched emu emu.rf.pc .fetch emu.rf.pc ∧
    (¬ emu.rf.pc &&& 0xFFF ≤ 0xFFC → Untouched emu (emu.rf.pc + 2) .fetch (emu.rf.pc + 2))

theorem bare_inPlace (emu : Emulator) (bare : Bare emu) : InPlace emu :=
  ⟨Or.inl ⟨bare, rfl⟩, fun _ => Or.inl ⟨bare, rfl⟩⟩

/-- Such a translation passes the address through. -/
theorem untouched_passes (emu : Emulator) (va : Word) (untouched : Untouched emu va .fetch va) :
    mmuTranslate (timerTick emu) va .fetch = (.ok va, timerTick emu) := by
  rw [translate_tick, (translate_untouched emu va va .fetch).mpr untouched]

/-- Where addresses are physical, the debugger's fetch is the fetch of the step. -/
theorem inPlace_sameParcel (emu : Emulator) (inPlace : InPlace emu) :
    SameParcel (fetchDecoded emu emu.rf.pc) (frontOf (emuFetch (timerTick emu) emu.rf.pc)) := by
  simp only [fetchDecoded, emuFetch, untouched_passes emu emu.rf.pc inPlace.1, timerTick_mem]
  cases low : memoryRead16 emu.mem emu.rf.pc with
  | none => exact sameParcel_fault _ excInstAccess emu.rf.pc
  | some lo =>
    dsimp only
    by_cases short : lo &&& 3 ≠ 3
    · rw [if_pos short, if_pos short]
      cases expandCompressed lo with
      | none => exact sameParcel_illegal _ _ _
      | some raw =>
        simp only [frontOf]
        cases decode raw with
        | none => exact sameParcel_illegal _ _ _
        | some inst => exact sameParcel_issued _ _ _ true
    · rw [if_neg short, if_neg short]
      by_cases within : emu.rf.pc &&& 0xFFF ≤ 0xFFC
      · rw [if_pos within]
        cases memoryRead32 emu.mem emu.rf.pc with
        | none => exact sameParcel_fault _ excInstAccess emu.rf.pc
        | some word => exact sameParcel_long _ word
      · rw [if_neg within, read_halves emu.mem emu.rf.pc lo low,
          untouched_passes emu (emu.rf.pc + 2) (inPlace.2 within)]
        dsimp only
        rw [timerTick_mem]
        cases memoryRead16 emu.mem (emu.rf.pc + 2) with
        | none => exact sameParcel_fault _ excInstAccess emu.rf.pc
        | some high => exact sameParcel_long _ _

/-- So the debugger shows what will run. -/
theorem inPlace_shows (emu : Emulator) (quiet : (trapCheckInterrupt emu emu.rf.pc).1 = false)
    (even : emu.rf.pc &&& 1 = 0) (inPlace : InPlace emu) : Shows emu := by
  have same := inPlace_sameParcel emu inPlace
  rw [← frontEnd_fetch emu quiet even] at same
  constructor
  · exact same.issued
  · rintro ⟨after, cause, tval, refused, fault⟩ inst raw compressed shown
    rw [same.faulted after cause tval refused fault] at shown
    cases shown

/-! ## Addresses without memory -/

theorem unreadable_half (mem : Memory) (addr : Word) :
    memoryRead16 mem addr = none ↔ Unreadable addr 2 := by
  simp [memoryRead16, mem.sized, Unreadable]

theorem unreadable_word (mem : Memory) (addr : Word) :
    memoryRead32 mem addr = none ↔ Unreadable addr 4 := by
  simp [memoryRead32, mem.sized, Unreadable]

/-- At an odd pc the step is refused. -/
theorem odd_front (emu : Emulator) (quiet : (trapCheckInterrupt emu emu.rf.pc).1 = false)
    (odd : emu.rf.pc &&& 1 ≠ 0) :
    ∃ after, frontEnd emu = .refused after excInstMisaligned emu.rf.pc := by
  have outcome := frontEnd_outcome emu
  generalize frontEnd emu = front at outcome ⊢
  cases outcome with
  | interrupted after taken =>
    rw [taken] at quiet
    cases quiet
  | odd => exact ⟨_, rfl⟩
  | unfetched _ even => exact absurd even odd
  | unknown _ even => exact absurd even odd
  | issued _ even => exact absurd even odd

/-- An address without a leaf is refused with a page fault. -/
theorem unmapped_front (emu : Emulator) (quiet : (trapCheckInterrupt emu emu.rf.pc).1 = false)
    (even : emu.rf.pc &&& 1 = 0) (paged : ¬ Bare emu)
    (unmapped : walk emu.mem emu.csr.satp emu.rf.pc = none) :
    frontEnd emu = .refused (timerTick emu) excInstPageFault emu.rf.pc := by
  have refused : mmuTranslate emu emu.rf.pc .fetch = (.error excInstPageFault, emu) := by
    rw [mmuTranslate_eq, if_neg paged, unmapped]
    rfl
  have ticked := translate_tick emu emu.rf.pc .fetch
  rw [refused] at ticked
  rw [frontEnd_fetch emu quiet even]
  simp only [emuFetch, ticked, frontOf]

/-- Where there is nothing to show and nothing to run, the debugger is right. -/
theorem unreadable_shows (emu : Emulator) (quiet : (trapCheckInterrupt emu emu.rf.pc).1 = false)
    (outside : Unreadable emu.rf.pc 2)
    (unfetched : emu.rf.pc &&& 1 ≠ 0 ∨
      (¬ Bare emu ∧ Unreadable (firstSlot emu.csr.satp emu.rf.pc) 4)) : Shows emu := by
  have unmapped : fetchDecoded emu emu.rf.pc = .unmapped := by
    rw [fetchDecoded, (unreadable_half emu.mem emu.rf.pc).mpr outside]
  have refused : ∃ after cause, frontEnd emu = .refused after cause emu.rf.pc := by
    by_cases odd : emu.rf.pc &&& 1 ≠ 0
    · obtain ⟨after, front⟩ := odd_front emu quiet odd
      exact ⟨after, _, front⟩
    · obtain ⟨paged, root⟩ := unfetched.resolve_left odd
      refine ⟨_, _, unmapped_front emu quiet (not_not.mp odd) paged ?_⟩
      rw [walk, (unreadable_word emu.mem _).mpr root]
  obtain ⟨after, cause, front⟩ := refused
  constructor
  · intro later inst issued
    rw [front] at issued
    cases issued
  · intro _ inst raw compressed shown
    rw [unmapped] at shown
    cases shown

/-! ## Memory that shows an instruction -/

/-- Every byte is 0x40, so every halfword is `c.lw x8, 0(x8)` with an offset, and no entry
    of a table is valid. -/
def uniformMemory : Memory where
  data := fun _ => 0x40
  size := memSize
  sized := rfl

theorem uniform_half (addr : Word) : halfAt uniformMemory.data addr = 0x4040 := by
  simp only [halfAt, uniformMemory]
  decide

theorem uniform_word (addr : Word) : wordAt uniformMemory.data addr = 0x40404040 := by
  simp only [wordAt, uniformMemory]
  decide

/-- A compressed load, as both sides decode it. -/
theorem load_parcel :
    ∃ raw inst, expandCompressed 0x4040 = some raw ∧ decode raw = some inst :=
  ⟨_, _, rfl, rfl⟩

/-- The debugger shows the load wherever it can read. -/
theorem uniform_shown (emu : Emulator) (inside : ¬ Unreadable emu.rf.pc 2) :
    ∃ inst raw compressed,
      fetchDecoded (withMem emu uniformMemory) emu.rf.pc = .decoded inst raw compressed := by
  obtain ⟨raw, inst, expanded, decoded⟩ := load_parcel
  have read : memoryRead16 (withMem emu uniformMemory).mem emu.rf.pc = some 0x4040 := by
    rw [memoryRead16]
    exact (if_neg inside).trans (congrArg some (uniform_half emu.rf.pc))
  have short : (0x4040 : Half) &&& 3 ≠ 3 := by decide
  refine ⟨{ inst with len := 2 }, (0x4040 : Half).setWidth 32, true, ?_⟩
  rw [fetchDecoded, read]
  dsimp only
  rw [if_pos short, expanded]
  dsimp only
  rw [decoded]

/-- Its tables have no leaf. -/
theorem uniform_unmapped (satp va : Word) : walk uniformMemory satp va = none := by
  cases found : walk uniformMemory satp va with
  | none => rfl
  | some leaf =>
    obtain ⟨read, valid, -, -⟩ := walk_found uniformMemory satp va leaf found
    obtain ⟨-, stored⟩ := memoryRead32_some uniformMemory _ leaf.pte read
    rw [uniform_word] at stored
    rw [← stored] at valid
    exact absurd valid (by decide)

/-- The fetch faults, and the debugger shows an instruction. -/
theorem uniform_unfaithful (emu : Emulator)
    (quiet : (trapCheckInterrupt emu emu.rf.pc).1 = false) (inside : ¬ Unreadable emu.rf.pc 2)
    (translated : ¬ (Bare emu ∧ emu.rf.pc &&& 1 = 0)) : ¬ Shows (withMem emu uniformMemory) := by
  have still : (trapCheckInterrupt (withMem emu uniformMemory) emu.rf.pc).1 = false := by
    rw [trapCheckInterrupt_withMem]
    exact quiet
  have faults : FetchFaults (withMem emu uniformMemory) := by
    by_cases odd : emu.rf.pc &&& 1 ≠ 0
    · obtain ⟨after, front⟩ := odd_front (withMem emu uniformMemory) still odd
      exact ⟨after, _, _, front, by decide⟩
    · have even : emu.rf.pc &&& 1 = 0 := not_not.mp odd
      have paged : ¬ Bare (withMem emu uniformMemory) := fun bare => translated ⟨bare, even⟩
      exact ⟨_, _, _, unmapped_front (withMem emu uniformMemory) still even paged
        (uniform_unmapped _ _), by decide⟩
  intro shows
  obtain ⟨inst, raw, compressed, shown⟩ := uniform_shown emu inside
  exact shows.faulted faults inst raw compressed shown

/-! ## Memory that runs an instruction -/

/-- The number of the page for second-level entries, and of the page for instructions.
    Neither is the page of the root. -/
def tablePage (root : Nat) : Nat := if root = 1 then 2 else 1

def codePage (root : Nat) : Nat := if root = 3 then 4 else 3

/-- A pointer to the table, and a leaf for the code that has been accessed. -/
def pointerWord (root : Nat) : Word := if root = 1 then 0x801 else 0x401

def leafWord (root : Nat) (user : Bool) : Word :=
  (if root = 3 then 0x1049 else 0xC49) ||| (if user then pteU else 0)

/-- What every word of a page holds. In the pages outside the tables it is the load, twice. -/
def pageWord (root : Nat) (user : Bool) (page : Nat) : Word :=
  if page = root then pointerWord root
  else if page = tablePage root then leafWord root user
  else 0x40404040

/-- Memory that maps every address to the code. -/
def mappedMemory (root : Nat) (user : Bool) : Memory where
  data := fun index =>
    byteOf (pageWord root user (index.toNat / 4096)) (index.toNat % 4)
  size := memSize
  sized := rfl

/-- An aligned word holds the word of its page. -/
theorem mapped_word (root : Nat) (user : Bool) (addr : Word) (aligned : Aligned addr) :
    wordAt (mappedMemory root user).data addr = pageWord root user (addr.toNat / 4096) := by
  have bound : addr.toNat < 2 ^ 32 := addr.isLt
  rw [Aligned] at aligned
  have bytes : ∀ index k, k < 4 → index.toNat = addr.toNat + k →
      (mappedMemory root user).data index = byteOf (pageWord root user (addr.toNat / 4096)) k := by
    intro index k small place
    have page : (addr.toNat + k) / 4096 = addr.toNat / 4096 := by omega
    have rest : (addr.toNat + k) % 4 = k := by omega
    dsimp only [mappedMemory]
    rw [place, page, rest]
  rw [← join_bytes (pageWord root user (addr.toNat / 4096)), wordAt, bytes _ 0 (by decide) rfl,
    bytes _ 1 (by decide), bytes _ 2 (by decide), bytes _ 3 (by decide)]
  · bv_omega
  · bv_omega
  · bv_omega

theorem pointer_shape (root : Nat) :
    pointerWord root &&& pteV ≠ 0 ∧ pointerWord root &&& (pteR ||| pteX) = 0 ∧
      (ptePa (pointerWord root)).toNat = tablePage root * 4096 := by
  simp only [pointerWord, tablePage]
  split
  · decide
  · decide

theorem leaf_shape (root : Nat) (user : Bool) :
    leafWord root user &&& pteV ≠ 0 ∧ leafWord root user &&& (pteR ||| pteX) ≠ 0 ∧
      pteTouched (leafWord root user) .fetch = leafWord root user ∧
      (ptePa (leafWord root user)).toNat = codePage root * 4096 := by
  simp only [leafWord, codePage]
  cases user with
  | false =>
    split
    · decide
    · decide
  | true =>
    split
    · decide
    · decide

/-- The leaf has the user bit where it is asked for. -/
theorem leaf_user (root : Nat) (user : Bool) :
    leafWord root user &&& pteW = 0 ∧ leafWord root user &&& pteX ≠ 0 ∧
      (leafWord root user &&& pteU ≠ 0 ↔ user = true) := by
  simp only [leafWord]
  cases user with
  | false =>
    split
    · decide
    · decide
  | true =>
    split
    · decide
    · decide

/-- The code can be fetched at the level that the leaf is made for. -/
theorem leaf_allows (emu : Emulator) (root : Nat) :
    pteAllows emu (leafWord root (emu.priv = privU)) .fetch = true := by
  obtain ⟨-, shape, -, -⟩ := leaf_shape root (emu.priv = privU)
  obtain ⟨plain, runs, user⟩ := leaf_user root (emu.priv = privU)
  rw [decide_eq_true_eq] at user
  have kernel : ¬ (emu.priv = privU ∧ leafWord root (emu.priv = privU) &&& pteU = 0) :=
    fun both => user.mpr both.1 both.2
  have supervisor : ¬ (emu.priv = privS ∧ leafWord root (emu.priv = privU) &&& pteU ≠ 0 ∧
      (Access.fetch = .fetch ∨ emu.csr.mstatus &&& mstatusSum = 0)) := by
    rintro ⟨level, bit, -⟩
    have both : privU = privS := (user.mp bit).symm.trans level
    exact absurd both (by decide)
  rw [pteAllows, if_neg shape, if_neg (fun both => both.1 plain), if_neg kernel,
    if_neg supervisor]
  exact decide_eq_true runs

/-- The root's number of a page. -/
def rootNumber (satp : Word) : Nat := satp.toNat % 2 ^ 20

section Mapped

variable (satp va : Word) (user : Bool)

theorem mapped_root :
    wordAt (mappedMemory (rootNumber satp) user).data (firstSlot satp va) =
      pointerWord (rootNumber satp) := by
  have small := index_toNat va 22
  have page : (firstSlot satp va).toNat / 4096 = rootNumber satp := by
    rw [firstSlot_toNat, rootTable_toNat, rootNumber]
    omega
  rw [mapped_word _ user _ (firstSlot_aligned satp va), page, pageWord, if_pos rfl]

theorem mapped_table (root : Nat) :
    ¬ Unreadable (secondSlot (pointerWord root) va) 4 ∧
      wordAt (mappedMemory root user).data (secondSlot (pointerWord root) va) =
        leafWord root user := by
  have small := index_toNat va 12
  have place := secondSlot_toNat (pointerWord root) va
  rw [(pointer_shape root).2.2] at place
  have low : tablePage root ≤ 2 := by
    simp only [tablePage]
    split <;> omega
  have page : (secondSlot (pointerWord root) va).toNat / 4096 = tablePage root := by omega
  have other : tablePage root ≠ root := by
    simp only [tablePage]
    split <;> omega
  constructor
  · simp only [Unreadable, memSize]
    bv_omega
  · rw [mapped_word _ user _ (secondSlot_aligned _ va), page, pageWord, if_neg other, if_pos rfl]

/-- Every address translates through one leaf. -/
theorem mapped_walk (inside : ¬ Unreadable (firstSlot satp va) 4) :
    walk (mappedMemory (rootNumber satp) user) satp va =
      some
        { addr := secondSlot (pointerWord (rootNumber satp)) va
          pte := leafWord (rootNumber satp) user
          large := false } := by
  obtain ⟨valid, inner, -⟩ := pointer_shape (rootNumber satp)
  obtain ⟨leafValid, leafShape, -, -⟩ := leaf_shape (rootNumber satp) user
  obtain ⟨readable, stored⟩ := mapped_table va user (rootNumber satp)
  have first : memoryRead32 (mappedMemory (rootNumber satp) user) (firstSlot satp va) =
      some (pointerWord (rootNumber satp)) := by
    rw [memoryRead32, mapped_root]
    exact if_neg inside
  have second : memoryRead32 (mappedMemory (rootNumber satp) user)
      (secondSlot (pointerWord (rootNumber satp)) va) =
      some (leafWord (rootNumber satp) user) := by
    rw [memoryRead32, stored]
    exact if_neg readable
  exact reaches_walk _ satp va _
    (.table _ _ first valid inner second leafValid leafShape)

/-- The code lies outside the tables, so it holds the load. -/
theorem mapped_code (pa : Word) (root : Nat) (page : pa.toNat / 4096 = codePage root)
    (even : pa.toNat % 2 = 0) :
    memoryRead16 (mappedMemory root user) pa = some 0x4040 := by
  have bound : codePage root ≤ 4 := by
    simp only [codePage]
    split <;> omega
  have apart : codePage root ≠ root ∧ codePage root ≠ tablePage root := by
    simp only [codePage, tablePage]
    split <;> split <;> omega
  have byte : ∀ index : Word, index.toNat / 4096 = codePage root →
      (mappedMemory root user).data index = 0x40 := by
    intro index inside
    dsimp only [mappedMemory]
    rw [inside, pageWord, if_neg apart.1, if_neg apart.2]
    have small : index.toNat % 4 < 4 := Nat.mod_lt _ (by decide)
    generalize index.toNat % 4 = k at small ⊢
    revert k
    decide
  have next : (pa + 1).toNat / 4096 = codePage root := by bv_omega
  have inside : ¬ pa + 2 > (mappedMemory root user).size := by
    simp only [mappedMemory, memSize]
    bv_omega
  rw [memoryRead16, if_neg inside, halfAt, byte pa page, byte (pa + 1) next]
  decide

end Mapped

/-- The first halfword at a virtual address is the load, and its fetch changes nothing. -/
theorem mapped_fetched (emu : Emulator) (paged : ¬ Bare emu) (even : emu.rf.pc &&& 1 = 0)
    (inside : ¬ Unreadable (firstSlot emu.csr.satp emu.rf.pc) 4) :
    ∃ pa, Untouched (withMem emu (mappedMemory (rootNumber emu.csr.satp) (emu.priv = privU)))
        emu.rf.pc .fetch pa ∧
      memoryRead16 (mappedMemory (rootNumber emu.csr.satp) (emu.priv = privU)) pa =
        some 0x4040 := by
  obtain ⟨-, -, kept, table⟩ := leaf_shape (rootNumber emu.csr.satp) (emu.priv = privU)
  have found := mapped_walk emu.csr.satp emu.rf.pc (emu.priv = privU) inside
  refine ⟨_, Or.inr ⟨_, paged, found, leaf_allows emu _, kept, rfl⟩, ?_⟩
  have place := target_toNat
    { addr := secondSlot (pointerWord (rootNumber emu.csr.satp)) emu.rf.pc
      pte := leafWord (rootNumber emu.csr.satp) (emu.priv = privU)
      large := false } emu.rf.pc (fun large => Bool.noConfusion large)
  have halved : emu.rf.pc.toNat % 2 = 0 := low_one_clear emu.rf.pc even
  rw [ptePa_toNat] at table
  simp only [extent, pageNumber, Bool.false_eq_true, if_false] at place
  apply mapped_code
  · omega
  · omega

/-- The load is issued, and the debugger has nothing to show. -/
theorem mapped_unfaithful (emu : Emulator)
    (quiet : (trapCheckInterrupt emu emu.rf.pc).1 = false) (paged : ¬ Bare emu)
    (even : emu.rf.pc &&& 1 = 0) (outside : Unreadable emu.rf.pc 2)
    (inside : ¬ Unreadable (firstSlot emu.csr.satp emu.rf.pc) 4) :
    ¬ Shows
      (withMem emu (mappedMemory (rootNumber emu.csr.satp) (emu.priv = privU))) := by
  obtain ⟨pa, untouched, read⟩ := mapped_fetched emu paged even inside
  generalize mappedMemory (rootNumber emu.csr.satp) (emu.priv = privU) = mem at untouched read ⊢
  obtain ⟨raw, inst, expanded, decoded⟩ := load_parcel
  have still : (trapCheckInterrupt (withMem emu mem) (withMem emu mem).rf.pc).1 = false := by
    rw [trapCheckInterrupt_withMem]
    exact quiet
  have short : (0x4040 : Half) &&& 3 ≠ 3 := by decide
  have translated := translate_tick (withMem emu mem) emu.rf.pc .fetch
  rw [(translate_untouched (withMem emu mem) emu.rf.pc pa .fetch).mpr untouched] at translated
  have fetched : emuFetch (timerTick (withMem emu mem)) emu.rf.pc =
      (.ok (raw, true), timerTick (withMem emu mem)) := by
    rw [emuFetch, translated]
    dsimp only
    rw [timerTick_mem, withMem_mem, read]
    dsimp only
    rw [if_pos short, expanded]
  have issued := frontEnd_fetch (withMem emu mem) still even
  rw [withMem_rf, fetched] at issued
  simp only [frontOf, decoded] at issued
  intro shows
  obtain ⟨shownRaw, compressed, shown⟩ := shows.issued _ _ issued
  rw [fetchDecoded, withMem_mem, withMem_rf,
    (unreadable_half mem emu.rf.pc).mpr outside] at shown
  cases shown

/-! ## Where the debugger is right -/

/-- Where addresses are physical in effect the debugger is right. For given registers it is
    right whatever memory holds just where the pc is an even physical address, or where
    there is nothing to show and nothing to run. -/
theorem shows_iff (emu : Emulator) (quiet : (trapCheckInterrupt emu emu.rf.pc).1 = false) :
    (emu.rf.pc &&& 1 = 0 → InPlace emu → Shows emu) ∧
      ((∀ mem, Shows (withMem emu mem)) ↔ Physical emu) := by
  refine ⟨inPlace_shows emu quiet, ?_, ?_⟩
  · intro always
    by_cases outside : Unreadable emu.rf.pc 2
    · by_cases odd : emu.rf.pc &&& 1 ≠ 0
      · exact Or.inr ⟨outside, Or.inl odd⟩
      · have even : emu.rf.pc &&& 1 = 0 := not_not.mp odd
        by_cases bare : Bare emu
        · exact Or.inl ⟨bare, even⟩
        · by_cases root : Unreadable (firstSlot emu.csr.satp emu.rf.pc) 4
          · exact Or.inr ⟨outside, Or.inr ⟨bare, root⟩⟩
          · exact absurd (always _) (mapped_unfaithful emu quiet bare even outside root)
    · by_cases physical : Bare emu ∧ emu.rf.pc &&& 1 = 0
      · exact Or.inl physical
      · exact absurd (always _) (uniform_unfaithful emu quiet outside physical)
  · intro physical mem
    have still : (trapCheckInterrupt (withMem emu mem) (withMem emu mem).rf.pc).1 = false := by
      rw [trapCheckInterrupt_withMem]
      exact quiet
    rcases physical with ⟨bare, even⟩ | ⟨outside, unfetched⟩
    · exact inPlace_shows (withMem emu mem) still even (bare_inPlace (withMem emu mem) bare)
    · exact unreadable_shows (withMem emu mem) still outside unfetched

/-- A user state whose pc is 0x4000. The entry of its page is given; `addi x0, x0, 0` is at
    0x3000 and `lui x1, 0` at 0x4000. -/
def remapped (entry : Word) : Emulator :=
  { emuInit (fun _ => 0) with
    mem :=
      { data := fun index =>
          if index < 0x2000 then (programImage 0x1000 [0x801]).data index
          else if index < 0x3000 then (programImage 0x2010 [entry]).data index
          else if index < 0x4000 then (programImage 0x3000 [0x00000013]).data index
          else (programImage 0x4000 [0x000000B7]).data index
        size := memSize
        sized := rfl }
    rf := { regfileInit with pc := 0x4000 }
    csr := { csrInit with satp := 0x80000001 }
    priv := privU
    state := .running }

/-- With its page mapped to itself the instruction shown is the one to run. In machine
    mode it is so for every memory. -/
theorem remapped_shows :
    Shows (remapped 0x105B) ∧
      ∀ mem, Shows (withMem { remapped 0x105B with priv := privM } mem) := by
  have found : walk (remapped 0x105B).mem 0x80000001 0x4000 =
      some { addr := 0x2010, pte := 0x105B, large := false } := by
    decide +kernel
  have paged : ¬ Bare (remapped 0x105B) := by decide
  have first : Untouched (remapped 0x105B) 0x4000 .fetch 0x4000 :=
    Or.inr ⟨_, paged, found, by decide, by decide, by decide⟩
  have within : ¬ ¬ (0x4000 : Word) &&& 0xFFF ≤ 0xFFC := by decide
  constructor
  · exact (shows_iff (remapped 0x105B) (by decide)).1 (by decide)
      ⟨first, fun crosses => absurd crosses within⟩
  · exact (shows_iff { remapped 0x105B with priv := privM } (by decide)).2.mpr
      (Or.inl ⟨Or.inl rfl, by decide⟩)

/-- The word that an issued or a shown instruction was decoded from. -/
def issuedRaw : Front → Option Word
  | .issued _ inst => some inst.raw
  | _ => none

def shownRaw : FetchDecoded → Option Word
  | .decoded inst _ _ => some inst.raw
  | _ => none

theorem shows_raw (emu : Emulator) (shows : Shows emu) (word : Word)
    (issued : issuedRaw (frontEnd emu) = some word) :
    shownRaw (fetchDecoded emu emu.rf.pc) = some word := by
  cases front : frontEnd emu with
  | interrupted after =>
    rw [front] at issued
    cases issued
  | refused after cause tval =>
    rw [front] at issued
    cases issued
  | issued after inst =>
    obtain ⟨raw, compressed, shown⟩ := shows.issued after inst front
    rw [front] at issued
    rw [shown]
    exact issued

/-- With its page mapped to 0x3000, `addi` runs and `lui` is shown. -/
theorem remapped_stale :
    issuedRaw (frontEnd (remapped 0xC5B)) = some 0x00000013 ∧
      shownRaw (fetchDecoded (remapped 0xC5B) 0x4000) = some 0x000000B7 ∧
      ¬ ∀ emu, (trapCheckInterrupt emu emu.rf.pc).1 = false → Shows emu := by
  have runs : issuedRaw (frontEnd (remapped 0xC5B)) = some 0x00000013 := by decide +kernel
  have shown : shownRaw (fetchDecoded (remapped 0xC5B) 0x4000) = some 0x000000B7 := by
    decide +kernel
  refine ⟨runs, shown, ?_⟩
  intro always
  have same := shows_raw (remapped 0xC5B) (always (remapped 0xC5B) (by decide)) 0x00000013 runs
  have differ := shown.symm.trans same
  exact absurd differ (by decide)

end RvEmu.DebuggerFetch
