import RvEmu.StepAnatomy

/-!
# Integrity of memory under paging

A user step writes memory through a store's translation and through the accessed
and dirty updates of the walker. Stores are naturally aligned and stay in one
page, so each byte a step changes lies in the page the store's leaf gives, or in
a leaf entry that gained those bits.

The leaf gives the page its number names only while that number fits the 32-bit
address space. Otherwise `PTE_PA` drops the high bits, and the store lands in low
memory that no leaf need map.
-/

namespace RvEmu.PageIntegrity

open LittleEndian WordMarks PageWalk PageTables ExecOutcome StepAnatomy

/-- A leaf that lets user code write. -/
structure UserWritable (pte : Word) : Prop where
  valid : pte &&& pteV ≠ 0
  readable : pte &&& pteR ≠ 0
  writable : pte &&& pteW ≠ 0
  user : pte &&& pteU ≠ 0

/-- The byte lies in a page that the tables of the state let user code write. -/
def InWritablePage (emu : Emulator) (index : Word) : Prop :=
  ∃ leaf, LeafOf emu.mem emu.csr.satp leaf ∧ UserWritable leaf.pte ∧ Maps leaf index

/-- The byte lies in the 32-bit alias of such a page. -/
def InWritableAlias (emu : Emulator) (index : Word) : Prop :=
  ∃ leaf, LeafOf emu.mem emu.csr.satp leaf ∧ UserWritable leaf.pte ∧ MapsAlias leaf index

/-- The byte belongs to a leaf entry that a translation of the step visited, and
    the entry differs by accessed and dirty bits turned on. -/
def InMarkedLeaf (emu : Emulator) (after : Memory) (index : Word) : Prop :=
  VisitedLeaf emu (stepAccesses emu) (base index) ∧
    Gains adMask (wordAt emu.mem.data (base index)) (wordAt after.data (base index))

/-- Every byte the step changes is in one of the allowed places. -/
def OnlyIn (place : Emulator → Word → Prop) (emu : Emulator) (after : Memory) : Prop :=
  ∀ index, after.data index ≠ emu.mem.data index → place emu index ∨ InMarkedLeaf emu after index

/-- Every leaf that lets a store of the step pass names a page with a 32-bit
    address. -/
def StoresAddressable (emu : Emulator) : Prop :=
  ∀ va leaf, (va, Access.store) ∈ stepAccesses emu →
    walk emu.mem emu.csr.satp va = some leaf → pteAllows emu leaf.pte .store = true →
    Addressable leaf

/-- A store that user code may perform goes through a user-writable leaf. -/
theorem store_allowed (emu : Emulator) (mem : Memory) (satp va : Word) (leaf : Leaf)
    (user : emu.priv = privU) (found : walk mem satp va = some leaf)
    (allowed : pteAllows emu leaf.pte .store = true) : UserWritable leaf.pte := by
  obtain ⟨-, valid, -, -⟩ := walk_found mem satp va leaf found
  have userPage := allowed_user emu leaf.pte .store user allowed
  simp only [pteAllows] at allowed
  split at allowed
  · cases allowed
  · split at allowed
    · cases allowed
    · split at allowed
      · cases allowed
      · split at allowed
        · cases allowed
        · simp only [decide_eq_true_eq] at allowed
          exact ⟨valid, allowed.1, allowed.2, userPage⟩

/-- Touched memory differs in marked leaves alone. -/
theorem touched_only (place : Emulator → Word → Prop) (emu : Emulator) (mem : Memory)
    (touched : Touched emu (stepAccesses emu) mem) : OnlyIn place emu mem := by
  intro index differs
  refine Or.inr ⟨?_, ?_⟩
  · exact marked_byte adMask _ _ _ touched index differs
  · exact touched.gains (base index) (base_aligned index)

/-- A write through a leaf changes bytes of its alias, or what was touched before
    it. The span of the write lies in one page, so a word with a byte elsewhere is
    not written at all. -/
theorem written_only (emu : Emulator) (middle after : Memory) (leaf : Leaf) (va : Word)
    (width : Width) (touched : Touched emu (stepAccesses emu) middle)
    (found : walk emu.mem emu.csr.satp va = some leaf)
    (written : Written middle (leaf.target va) width after)
    (natural : va.toNat % width.bytes = 0) :
    OnlyIn (fun _ index => MapsAlias leaf index) emu after := by
  obtain ⟨-, -, -, superpage⟩ := walk_found emu.mem emu.csr.satp va leaf found
  have inPage := target_alias leaf va superpage
  have offset := target_offset leaf va superpage
  have aligned := width.natural_offset va (leaf.target va) offset natural
  intro index differs
  by_cases inside : MapsAlias leaf index
  · exact Or.inl inside
  · have apart : ∀ other, Spans (base index) 4 other →
        ¬ Spans (leaf.target va) width.bytes other := by
      intro other member spanned
      apply inside
      have samePage := access_page (leaf.target va) other width.bytes width.bytes_cases aligned
        spanned
      have wordPage := (aligned_span (base index) other (base_aligned index)).mp member
      have indexPage := (aligned_span (base index) index (base_aligned index)).mp
        (base_spans index)
      have start := base_aligned index
      simp only [Aligned] at start
      exact alias_page leaf (leaf.target va) index inPage (by omega)
    have unwritten : after.data index = middle.data index :=
      written_outside middle after _ index width written (apart index (base_spans index))
    have word : wordAt after.data (base index) = wordAt middle.data (base index) := by
      apply wordAt_congr
      intro other member
      exact written_outside middle after _ other width written (apart other member)
    rw [unwritten] at differs
    refine Or.inr ⟨marked_byte adMask _ _ _ touched index differs, ?_⟩
    rw [word]
    exact touched.gains (base index) (base_aligned index)

/-- A user step under paging changes bytes of the alias of one user-writable leaf
    that a store translation of the step visits, or of marked leaves. -/
theorem step_writes (host : HostFloat) (emu : Emulator) (user : emu.priv = privU)
    (paged : emu.csr.satp &&& satpModeBit ≠ 0) :
    OnlyIn (fun _ _ => False) emu (emuStep host emu).2.mem ∨
      ∃ va leaf, (va, Access.store) ∈ stepAccesses emu ∧
        walk emu.mem emu.csr.satp va = some leaf ∧
        pteAllows emu leaf.pte .store = true ∧ UserWritable leaf.pte ∧
        OnlyIn (fun _ index => MapsAlias leaf index) emu (emuStep host emu).2.mem := by
  have notBare : ¬ Bare emu := by
    rintro (machine | bare)
    · rw [user] at machine
      cases machine
    · exact paged bare
  have shape := step_shape host emu
  generalize emuStep host emu = result at shape
  cases shape with
  | interrupted after taken =>
    obtain ⟨raised, -⟩ := taken_state emu after _ taken
    have same : after.mem = emu.mem := by
      rcases trapRaise_cases _ after _ _ _ raised with ⟨-, -, rfl⟩ | ⟨-, -, rfl⟩
      · exact timerTick_mem emu
      · exact timerTick_mem emu
    refine Or.inl ?_
    intro index differs
    exact absurd (congrArg (fun mem => mem.data index) same) differs
  | trapped mem cause tval after touched code raised =>
    have same : after.mem = mem := by
      rcases trapRaise_cases _ after _ _ _ raised with ⟨-, -, rfl⟩ | ⟨-, -, rfl⟩
      · rfl
      · rfl
    subst same
    exact Or.inl (touched_only _ emu after.mem touched)
  | failed mem touched => exact Or.inl (touched_only _ emu mem touched)
  | retired mem inst after nextPc effect came touched outcome =>
    have wider := touched_fetch emu mem inst came touched
    change OnlyIn _ emu after.mem ∨ ∃ va leaf, _ ∧ _ ∧ _ ∧ _ ∧ OnlyIn _ emu after.mem
    rcases outcome_memory (ticked emu mem) after inst nextPc effect outcome with
      same | ⟨addr, acc, pa, middle, asks, translated, effects⟩
    · rw [same]
      exact Or.inl (touched_only _ emu mem wider)
    · have member := data_member emu mem inst (addr, acc) came asks
      obtain ⟨later, rfl, touchedLater, resolves⟩ :=
        ticked_translate emu middle mem _ addr pa acc wider member translated
      rcases effects with same | ⟨rfl, width, written, natural⟩
      · rw [same]
        exact Or.inl (touched_only _ emu later touchedLater)
      · rcases resolves with ⟨bare, -⟩ | ⟨leaf, -, found, allowed, rfl⟩
        · exact absurd bare notBare
        · exact Or.inr ⟨addr, leaf, member, found, allowed,
            store_allowed emu emu.mem emu.csr.satp addr leaf user found allowed,
            written_only emu later after.mem leaf addr width touchedLater found written natural⟩

/-- From user level under paging, with the tables inside memory, the bytes a step
    changes lie in aliases of user-writable pages or in marked leaves; and when its
    store goes through a leaf with a 32-bit page address, they lie in the
    user-writable pages themselves or in marked leaves. -/
theorem step_integrity (host : HostFloat) (emu : Emulator) (user : emu.priv = privU)
    (paged : emu.csr.satp &&& satpModeBit ≠ 0) (inside : TablesInside emu.mem emu.csr.satp) :
    OnlyIn InWritableAlias emu (emuStep host emu).2.mem ∧
      (StoresAddressable emu → OnlyIn InWritablePage emu (emuStep host emu).2.mem) := by
  rcases step_writes host emu user paged with
    unwritten | ⟨va, leaf, member, found, allowed, writable, written⟩
  · constructor
    · intro index differs
      exact Or.inr ((unwritten index differs).resolve_left id)
    · intro addressable index differs
      exact Or.inr ((unwritten index differs).resolve_left id)
  · have leafOf := walk_leafOf emu.mem emu.csr.satp va leaf inside found
    constructor
    · intro index differs
      rcases written index differs with aliased | marked
      · exact Or.inl ⟨leaf, leafOf, writable, aliased⟩
      · exact Or.inr marked
    · intro addressable index differs
      rcases written index differs with aliased | marked
      · have mapped := maps_of_alias leaf index (addressable va leaf member found allowed)
          aliased
        exact Or.inl ⟨leaf, leafOf, writable, mapped⟩
      · exact Or.inr marked

/-- A user state whose root page holds one entry, with one instruction at 0x2000, a
    word at 0x700 and 5 in `x1`. -/
def superpageState (entry inst word : Word) : Emulator :=
  { emuInit (fun _ => 0) with
    mem :=
      { data := fun index =>
          if index < 0x1000 then (programImage 0x700 [word]).data index
          else if index < 0x2000 then (programImage 0x1000 [entry]).data index
          else (programImage 0x2000 [inst]).data index
        size := memSize
        sized := rfl }
    rf := { regWrite regfileInit 1 5 with pc := 0x2000 }
    csr := { csrInit with satp := 0x80000001 }
    priv := privU
    state := .running }

/-- Its root page has the one entry. -/
theorem superpage_entries (entry inst word : Word) (slot : Nat) (bound : slot < 1024) :
    entryAt (superpageState entry inst word).mem (rootPage 0x80000001) slot =
      if slot = 0 then entry else 0 := by
  have root : rootPage 0x80000001 = 4096 := by decide
  have stored : (BitVec.ofNat 32 (4096 + 4 * slot)).toNat = 4096 + 4 * slot := by
    rw [BitVec.toNat_ofNat, Nat.mod_eq_of_lt (by omega)]
  have address : BitVec.ofNat 32 (4096 + 4 * slot) =
      (0x1000 : Word) + BitVec.ofNat 32 (4 * slot) := by bv_omega
  have inTable : entryAt (superpageState entry inst word).mem (rootPage 0x80000001) slot =
      wordAt (programImage 0x1000 [entry]).data (BitVec.ofNat 32 (4096 + 4 * slot)) := by
    rw [entryAt, root]
    apply wordAt_congr
    intro index member
    have aligned : Aligned (BitVec.ofNat 32 (4096 + 4 * slot)) := by
      rw [Aligned, stored]
      omega
    obtain ⟨above, below⟩ := (aligned_span _ index aligned).mp member
    rw [stored] at above below
    have low : ¬ index < 0x1000 := by
      rw [BitVec.not_lt, BitVec.le_def]
      change 4096 ≤ index.toNat
      omega
    have high : index < 0x2000 := by
      rw [BitVec.lt_def]
      change index.toNat < 8192
      omega
    change (if index < 0x1000 then _ else if index < 0x2000 then _ else _) = _
    rw [if_neg low, if_pos high]
  rw [inTable, address, programImage_word 0x1000 [entry] slot (by omega)]
  cases slot with
  | zero => rfl
  | succ slot => rfl

/-- A root whose first entry is no pointer and whose others are invalid has no
    second-level pages. -/
theorem superpage_pointer (entry inst word : Word) (leafShape : entry &&& (pteR ||| pteX) ≠ 0)
    (slot : Nat) (bound : slot < 1024) :
    ¬ PointerEntry (entryAt (superpageState entry inst word).mem (rootPage 0x80000001) slot) := by
  rw [superpage_entries entry inst word slot bound]
  split
  · exact fun pointer => leafShape pointer.2
  · exact fun pointer => absurd pointer.1 (by decide)

theorem superpage_tables (entry inst word : Word) (leafShape : entry &&& (pteR ||| pteX) ≠ 0) :
    TablesInside (superpageState entry inst word).mem 0x80000001 := by
  have root : rootPage 0x80000001 + 4096 ≤ 0x100000 := by decide
  constructor
  · rw [size_toNat]
    exact root
  · intro slot bound pointer
    exact absurd pointer (superpage_pointer entry inst word leafShape slot bound)

/-- Its only leaf is the entry. -/
theorem superpage_leaf (entry inst word : Word) (leafShape : entry &&& (pteR ||| pteX) ≠ 0)
    (leaf : Leaf) (leafOf : LeafOf (superpageState entry inst word).mem 0x80000001 leaf) :
    leaf.pte = entry := by
  cases leafOf with
  | large slot bound valid superpage =>
    rw [superpage_entries entry inst word slot bound] at valid ⊢
    split at valid
    · rename_i first
      exact if_pos first
    · exact absurd valid.1 (by decide)
  | page slot inner bound innerBound pointer valid =>
    exact absurd pointer (superpage_pointer entry inst word leafShape slot bound)

/-- `sw x1, 0x700(x0)` with the low four megabytes mapped to themselves. -/
def plainStore : Emulator := superpageState 0x1F 0x70102023 0

/-- The store keeps to the mapped page. -/
theorem plainStore_integrity :
    OnlyIn InWritablePage plainStore (emuStep idleHost plainStore).2.mem := by
  have inside : TablesInside plainStore.mem plainStore.csr.satp :=
    superpage_tables 0x1F 0x70102023 0 (by decide)
  apply (step_integrity idleHost plainStore rfl (by decide) inside).2
  intro va leaf member found allowed
  have same : leaf.pte = 0x1F := superpage_leaf 0x1F 0x70102023 0 (by decide) leaf
    (walk_leafOf plainStore.mem plainStore.csr.satp va leaf inside found)
  rw [Addressable, same]
  decide

/-- `sw x1, 0x700(x0)` with the page of number 2^20 mapped. The alias of that page is
    low memory. -/
def aliasedStore : Emulator := superpageState 0x4000001F 0x70102023 0

/-- The store changes the byte at 0x700, which lies in no mapped page. -/
theorem store_escapes :
    ((emuStep idleHost aliasedStore).2.mem.data 0x700 = 5 ∧ aliasedStore.mem.data 0x700 = 0 ∧
        ¬ InWritablePage aliasedStore 0x700) ∧
      ¬ ∀ host emu, emu.priv = privU → emu.csr.satp &&& satpModeBit ≠ 0 →
        TablesInside emu.mem emu.csr.satp →
        OnlyIn InWritablePage emu (emuStep host emu).2.mem := by
  have inside : TablesInside aliasedStore.mem aliasedStore.csr.satp :=
    superpage_tables 0x4000001F 0x70102023 0 (by decide)
  have stored : (emuStep idleHost aliasedStore).2.mem.data 0x700 = 5 := by decide +kernel
  have blank : aliasedStore.mem.data 0x700 = 0 := by decide +kernel
  have before : wordAt aliasedStore.mem.data (base 0x700) = 0 := by decide +kernel
  have after : wordAt (emuStep idleHost aliasedStore).2.mem.data (base 0x700) = 5 := by
    decide +kernel
  have outside : ¬ InWritablePage aliasedStore 0x700 := by
    rintro ⟨leaf, leafOf, -, above, -⟩
    have beyond : ¬ pageNumber 0x4000001F * 4096 ≤ (0x700 : Word).toNat := by decide
    have same : leaf.pte = 0x4000001F :=
      superpage_leaf 0x4000001F 0x70102023 0 (by decide) leaf leafOf
    rw [same] at above
    exact beyond above
  refine ⟨⟨stored, blank, outside⟩, ?_⟩
  intro always
  have changed : (emuStep idleHost aliasedStore).2.mem.data 0x700 ≠
      aliasedStore.mem.data 0x700 := by
    rw [stored, blank]
    decide
  rcases always idleHost aliasedStore rfl (by decide) inside 0x700 changed with
    mapped | ⟨-, gained⟩
  · exact outside mapped
  · rw [before, after] at gained
    have kept := gains_field adMask 0 5 1 gained (by decide)
    revert kept
    decide

end RvEmu.PageIntegrity
