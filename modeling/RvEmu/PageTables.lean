import RvEmu.PageWalk

/-!
# Page tables as maps of physical memory

An entry names its page by a 22-bit number, so tables and pages have addresses
of 34 bits, counted here as natural numbers. A leaf maps four kilobytes, or four
megabytes when it stands in the root. The tables of an address space are inside
memory when the root page and every page that a pointer entry of the root names
are.

The walker computes in 32 bits. For tables inside memory nothing is lost, so the
leaves it finds are leaves of the tables. The page of a leaf may lie anywhere: a
leaf whose number needs more than twenty bits maps a page beyond the address
space, and the walker's address for it is the alias with the high bits dropped.
-/

namespace RvEmu.PageTables

open LittleEndian WordMarks PageWalk

/-- The page number of an entry. -/
def pageNumber (pte : Word) : Nat := pte.toNat / 2 ^ 10

/-- The address of the root page named by `satp`. -/
def rootPage (satp : Word) : Nat := satp.toNat % 2 ^ 22 * 4096

/-- The address of the second-level page named by a pointer entry. -/
def tablePage (pte : Word) : Nat := pageNumber pte * 4096

/-- Entry `slot` of the table in a page. -/
def entryAt (mem : Memory) (page slot : Nat) : Word :=
  wordAt mem.data (BitVec.ofNat 32 (page + 4 * slot))

/-- A valid entry without read and execute permission names the next table. -/
def PointerEntry (pte : Word) : Prop := pte &&& pteV ≠ 0 ∧ pte &&& (pteR ||| pteX) = 0

/-- A valid entry with one of them is a leaf. -/
def LeafEntry (pte : Word) : Prop := pte &&& pteV ≠ 0 ∧ pte &&& (pteR ||| pteX) ≠ 0

/-- The leaves of an address space. A leaf in the root must name an aligned
    four-megabyte page. -/
inductive LeafOf (mem : Memory) (satp : Word) : Leaf → Prop where
  | large (slot : Nat) (inside : slot < 1024)
      (entry : LeafEntry (entryAt mem (rootPage satp) slot))
      (superpage : pageNumber (entryAt mem (rootPage satp) slot) % 1024 = 0) :
      LeafOf mem satp
        { addr := BitVec.ofNat 32 (rootPage satp + 4 * slot)
          pte := entryAt mem (rootPage satp) slot
          large := true }
  | page (slot inner : Nat) (inside : slot < 1024) (innerInside : inner < 1024)
      (pointer : PointerEntry (entryAt mem (rootPage satp) slot))
      (entry : LeafEntry
        (entryAt mem (tablePage (entryAt mem (rootPage satp) slot)) inner)) :
      LeafOf mem satp
        { addr := BitVec.ofNat 32 (tablePage (entryAt mem (rootPage satp) slot) + 4 * inner)
          pte := entryAt mem (tablePage (entryAt mem (rootPage satp) slot)) inner
          large := false }

/-- The root page and every second-level page lie in memory. -/
structure TablesInside (mem : Memory) (satp : Word) : Prop where
  root : rootPage satp + 4096 ≤ mem.size.toNat
  second : ∀ slot, slot < 1024 → PointerEntry (entryAt mem (rootPage satp) slot) →
    tablePage (entryAt mem (rootPage satp) slot) + 4096 ≤ mem.size.toNat

/-- The number of bytes a leaf maps. -/
def extent (leaf : Leaf) : Nat := if leaf.large then 2 ^ 22 else 2 ^ 12

/-- The byte at an address belongs to the page of the leaf. -/
def Maps (leaf : Leaf) (index : Word) : Prop :=
  pageNumber leaf.pte * 4096 ≤ index.toNat ∧
    index.toNat < pageNumber leaf.pte * 4096 + extent leaf

/-- The byte belongs to the page that the number gives when only its low twenty
    bits are kept. -/
def MapsAlias (leaf : Leaf) (index : Word) : Prop :=
  pageNumber leaf.pte % 2 ^ 20 * 4096 ≤ index.toNat ∧
    index.toNat < pageNumber leaf.pte % 2 ^ 20 * 4096 + extent leaf

/-- The page of the leaf has a 32-bit address. -/
def Addressable (leaf : Leaf) : Prop := pageNumber leaf.pte < 2 ^ 20

instance (leaf : Leaf) : Decidable (Addressable leaf) :=
  inferInstanceAs (Decidable (pageNumber leaf.pte < 2 ^ 20))

/-- Within the address space a page is its own alias. -/
theorem maps_of_alias (leaf : Leaf) (index : Word) (addressable : Addressable leaf)
    (aliased : MapsAlias leaf index) : Maps leaf index := by
  have kept : pageNumber leaf.pte % 2 ^ 20 = pageNumber leaf.pte := Nat.mod_eq_of_lt addressable
  rw [MapsAlias, kept] at aliased
  exact aliased

/-- Pages of leaves are made of whole four-kilobyte pages. -/
theorem alias_page (leaf : Leaf) (index other : Word) (aliased : MapsAlias leaf index)
    (samePage : other.toNat / 4096 = index.toNat / 4096) : MapsAlias leaf other := by
  obtain ⟨above, below⟩ := aliased
  simp only [MapsAlias]
  simp only [extent] at below ⊢
  split at below
  · rename_i large
    rw [if_pos large]
    omega
  · rename_i small
    rw [if_neg small]
    omega

/-! ## The walker's addresses -/

/-- The number of an address gives the address back. -/
theorem ofNat_toNat (addr : Word) (number : Nat) (same : addr.toNat = number) :
    BitVec.ofNat 32 number = addr := by
  apply BitVec.eq_of_toNat_eq
  rw [BitVec.toNat_ofNat, ← same, Nat.mod_eq_of_lt addr.isLt]

/-- For a root inside memory the first-level entry stands in the root page. -/
theorem firstSlot_stored (mem : Memory) (satp va : Word)
    (inside : rootPage satp + 4096 ≤ mem.size.toNat) :
    (firstSlot satp va).toNat = rootPage satp + 4 * ((va >>> 22) &&& 0x3FF).toNat := by
  rw [size_toNat] at inside
  simp only [rootPage] at inside ⊢
  rw [firstSlot_toNat, rootTable_toNat]
  omega

theorem firstSlot_entry (mem : Memory) (satp va : Word)
    (inside : rootPage satp + 4096 ≤ mem.size.toNat) :
    BitVec.ofNat 32 (rootPage satp + 4 * ((va >>> 22) &&& 0x3FF).toNat) = firstSlot satp va :=
  ofNat_toNat _ _ (firstSlot_stored mem satp va inside)

/-- For a table inside memory the second-level entry stands in its page. -/
theorem secondSlot_stored (mem : Memory) (pointer va : Word)
    (inside : tablePage pointer + 4096 ≤ mem.size.toNat) :
    (secondSlot pointer va).toNat = tablePage pointer + 4 * ((va >>> 12) &&& 0x3FF).toNat := by
  rw [size_toNat] at inside
  simp only [tablePage, pageNumber] at inside ⊢
  rw [secondSlot_toNat, ptePa_toNat]
  omega

theorem secondSlot_entry (mem : Memory) (pointer va : Word)
    (inside : tablePage pointer + 4096 ≤ mem.size.toNat) :
    BitVec.ofNat 32 (tablePage pointer + 4 * ((va >>> 12) &&& 0x3FF).toNat) =
      secondSlot pointer va :=
  ofNat_toNat _ _ (secondSlot_stored mem pointer va inside)

/-- The alignment test of a superpage reads the low half of its number. -/
theorem superpage_test (pte : Word) :
    (pte >>> 10) &&& 0x3FF = 0 ↔ pageNumber pte % 1024 = 0 := by
  have masked : ((pte >>> 10) &&& 0x3FF).toNat = (pte >>> 10).toNat % 2 ^ 10 :=
    BitMasks.and_low (pte >>> 10) 10 (by decide)
  have shifted : (pte >>> 10).toNat = pageNumber pte := by
    rw [BitVec.toNat_ushiftRight, Nat.shiftRight_eq_div_pow]
    rfl
  rw [shifted] at masked
  constructor
  · intro zero
    rw [zero] at masked
    exact masked.symm
  · intro multiple
    apply BitVec.eq_of_toNat_eq
    rw [masked]
    exact multiple

/-- Every leaf a walk finds in tables inside memory is a leaf of the tables. -/
theorem walk_leafOf (mem : Memory) (satp va : Word) (leaf : Leaf)
    (inside : TablesInside mem satp) (found : walk mem satp va = some leaf) :
    LeafOf mem satp leaf := by
  have root := firstSlot_entry mem satp va inside.root
  have rootIndex := index_toNat va 22
  have innerIndex := index_toNat va 12
  have entry (pte : Word) (read : memoryRead32 mem (firstSlot satp va) = some pte) :
      entryAt mem (rootPage satp) ((va >>> 22) &&& 0x3FF).toNat = pte := by
    rw [entryAt, root, (memoryRead32_some mem _ pte read).2]
  cases walk_reaches mem satp va leaf found with
  | root pte read valid leafShape superpage =>
    have multiple := (superpage_test pte).mp superpage
    have result : LeafOf mem satp _ := LeafOf.large _ rootIndex
      (by rw [entry pte read]; exact ⟨valid, leafShape⟩) (by rw [entry pte read]; exact multiple)
    rw [entry pte read, root] at result
    exact result
  | table pte inner read valid pointerShape second innerValid innerShape =>
    have pointer : PointerEntry pte := ⟨valid, pointerShape⟩
    have table := inside.second _ rootIndex (by rw [entry pte read]; exact pointer)
    rw [entry pte read] at table
    have slot := secondSlot_entry mem pte va table
    have innerEntry : entryAt mem (tablePage pte) ((va >>> 12) &&& 0x3FF).toNat = inner := by
      rw [entryAt, slot, (memoryRead32_some mem _ inner second).2]
    have result : LeafOf mem satp _ := LeafOf.page _ _ rootIndex innerIndex
      (by rw [entry pte read]; exact pointer)
      (by rw [entry pte read, innerEntry]; exact ⟨innerValid, innerShape⟩)
    rw [entry pte read, innerEntry, slot] at result
    exact result

/-! ## The bytes of the tables -/

/-- The byte belongs to the root page or to a page that a pointer entry of the root
    names. -/
inductive TableByte (mem : Memory) (satp : Word) (index : Word) : Prop where
  | root (above : rootPage satp ≤ index.toNat) (below : index.toNat < rootPage satp + 4096) :
      TableByte mem satp index
  | second (slot : Nat) (inside : slot < 1024)
      (pointer : PointerEntry (entryAt mem (rootPage satp) slot))
      (above : tablePage (entryAt mem (rootPage satp) slot) ≤ index.toNat)
      (below : index.toNat < tablePage (entryAt mem (rootPage satp) slot) + 4096) :
      TableByte mem satp index

/-- The bytes of an entry of a table inside memory are bytes of its page. -/
theorem entry_bytes (addr index : Word) (page slot : Nat) (aligned : Aligned addr)
    (stored : addr.toNat = page + 4 * slot) (bound : slot < 1024) (member : Spans addr 4 index) :
    page ≤ index.toNat ∧ index.toNat < page + 4096 := by
  obtain ⟨above, below⟩ := (aligned_span addr index aligned).mp member
  constructor
  · omega
  · omega

/-- A walk reads bytes of the tables alone. -/
theorem walk_agree (left right : Memory) (satp va : Word) (inside : TablesInside left satp)
    (agree : Agrees (TableByte left satp) left right) : walk right satp va = walk left satp va := by
  have rootIndex := index_toNat va 22
  have innerIndex := index_toNat va 12
  have firstStored := firstSlot_stored left satp va inside.root
  have firstRead : memoryRead32 right (firstSlot satp va) =
      memoryRead32 left (firstSlot satp va) := by
    apply read32_agree (TableByte left satp) left right _ agree
    intro index member
    obtain ⟨above, below⟩ := entry_bytes _ index _ _ (firstSlot_aligned satp va) firstStored
      rootIndex member
    exact .root above below
  simp only [walk]
  rw [firstRead]
  cases first : memoryRead32 left (firstSlot satp va) with
  | none => rfl
  | some pte =>
    dsimp only
    split
    · rfl
    · rename_i valid
      split
      · rfl
      · rename_i pointerShape
        obtain ⟨-, stored⟩ := memoryRead32_some left _ pte first
        have entry : entryAt left (rootPage satp) ((va >>> 22) &&& 0x3FF).toNat = pte := by
          rw [entryAt, firstSlot_entry left satp va inside.root, stored]
        have pointer : PointerEntry pte := ⟨valid, not_not.mp pointerShape⟩
        have table := inside.second _ rootIndex (by rw [entry]; exact pointer)
        rw [entry] at table
        have secondStored := secondSlot_stored left pte va table
        have secondRead : memoryRead32 right (secondSlot pte va) =
            memoryRead32 left (secondSlot pte va) := by
          apply read32_agree (TableByte left satp) left right _ agree
          intro index member
          obtain ⟨above, below⟩ := entry_bytes _ index _ _ (secondSlot_aligned pte va)
            secondStored innerIndex member
          exact .second _ rootIndex (by rw [entry]; exact pointer) (by rw [entry]; exact above)
            (by rw [entry]; exact below)
        rw [secondRead]

/-- Accessed and dirty updates leave every entry of the root with its page and its
    kind. -/
theorem entry_marked (before after : Memory) (marked : Word → Prop) (satp : Word) (slot : Nat)
    (changed : Marked adMask marked before.data after.data) :
    tablePage (entryAt after (rootPage satp) slot) =
        tablePage (entryAt before (rootPage satp) slot) ∧
      (PointerEntry (entryAt after (rootPage satp) slot) ↔
        PointerEntry (entryAt before (rootPage satp) slot)) := by
  have aligned : Aligned (BitVec.ofNat 32 (rootPage satp + 4 * slot)) := by
    simp only [Aligned, rootPage]
    rw [BitVec.toNat_ofNat]
    omega
  have gained : Gains adMask (entryAt before (rootPage satp) slot)
      (entryAt after (rootPage satp) slot) := changed.gains _ aligned
  have number := gains_ppn _ _ gained
  have valid := gains_test _ _ pteV gained (by decide)
  have shape := gains_test _ _ (pteR ||| pteX) gained (by decide)
  constructor
  · have same := congrArg BitVec.toNat number
    rw [BitVec.toNat_ushiftRight, BitVec.toNat_ushiftRight, Nat.shiftRight_eq_div_pow,
      Nat.shiftRight_eq_div_pow] at same
    simp only [tablePage, pageNumber]
    rw [same]
  · simp only [PointerEntry]
    rw [valid, shape]

/-- Accessed and dirty updates keep the tables inside memory, and their bytes. -/
theorem tables_marked (before after : Memory) (marked : Word → Prop) (satp : Word)
    (changed : Marked adMask marked before.data after.data) (inside : TablesInside before satp) :
    TablesInside after satp ∧
      ∀ index, TableByte after satp index → TableByte before satp index := by
  refine ⟨⟨?_, ?_⟩, ?_⟩
  · have root := inside.root
    rw [size_toNat] at root ⊢
    exact root
  · intro slot bound pointer
    obtain ⟨page, kind⟩ := entry_marked before after marked satp slot changed
    have second := inside.second slot bound (kind.mp pointer)
    rw [size_toNat] at second ⊢
    rw [page]
    exact second
  · rintro index (⟨above, below⟩ | ⟨slot, bound, pointer, above, below⟩)
    · exact .root above below
    · obtain ⟨page, kind⟩ := entry_marked before after marked satp slot changed
      rw [page] at above below
      exact .second slot bound (kind.mp pointer) above below

/-! ## The address of a translation -/

/-- Clearing the flags of an entry keeps its page address. -/
theorem ptePa_cleared (pte : Word) : ptePa (pte &&& ~~~(0x3FF : Word)) = ptePa pte := by
  have dropped : (~~~(0x3FF : Word)) >>> 10 = 0x3FFFFF#32 := by decide
  have whole : (pte >>> 10) &&& 0x3FFFFF#32 = pte >>> 10 := by
    apply BitVec.eq_of_toNat_eq
    have masked : ((pte >>> 10) &&& 0x3FFFFF#32).toNat = (pte >>> 10).toNat % 2 ^ 22 :=
      BitMasks.and_low (pte >>> 10) 22 (by decide)
    have bound : pte.toNat < 2 ^ 32 := pte.isLt
    rw [masked, BitVec.toNat_ushiftRight, Nat.shiftRight_eq_div_pow]
    omega
  rw [ptePa, BitVec.ushiftRight_and_distrib, dropped, whole, ptePa]

/-- The translated address is the alias of the page plus the offset in it. -/
theorem target_toNat (leaf : Leaf) (va : Word)
    (superpage : leaf.large = true → (leaf.pte >>> 10) &&& 0x3FF = 0) :
    (leaf.target va).toNat =
      pageNumber leaf.pte % 2 ^ 20 * 4096 + va.toNat % extent leaf := by
  have page := ptePa_toNat leaf.pte
  have bound : leaf.pte.toNat < 2 ^ 32 := leaf.pte.isLt
  simp only [Leaf.target, extent, pageNumber]
  by_cases large : leaf.large = true
  · have multiple := (superpage_test leaf.pte).mp (superpage large)
    simp only [pageNumber] at multiple
    have masked : (va &&& 0x3FFFFF).toNat = va.toNat % 2 ^ 22 :=
      BitMasks.and_low va 22 (by decide)
    rw [if_pos large, if_pos large, ptePa_cleared, BitMasks.or_low _ _ 22, page, masked]
    · rw [page]
      omega
    · rw [masked]
      exact Nat.mod_lt _ (by decide)
  · have masked : (va &&& 0xFFF).toNat = va.toNat % 2 ^ 12 :=
      BitMasks.and_low va 12 (by decide)
    rw [if_neg large, if_neg large, BitMasks.or_low _ _ 12, page, masked]
    · rw [page]
      omega
    · rw [masked]
      exact Nat.mod_lt _ (by decide)

/-- The translated address lies in the alias of the page. -/
theorem target_alias (leaf : Leaf) (va : Word)
    (superpage : leaf.large = true → (leaf.pte >>> 10) &&& 0x3FF = 0) :
    MapsAlias leaf (leaf.target va) := by
  have positive : 0 < extent leaf := by
    simp only [extent]
    split <;> decide
  have small : va.toNat % extent leaf < extent leaf := Nat.mod_lt _ positive
  simp only [MapsAlias]
  rw [target_toNat leaf va superpage]
  omega

/-- Translation keeps the offset in the page. -/
theorem target_offset (leaf : Leaf) (va : Word)
    (superpage : leaf.large = true → (leaf.pte >>> 10) &&& 0x3FF = 0) :
    (leaf.target va).toNat % 4096 = va.toNat % 4096 := by
  rw [target_toNat leaf va superpage]
  simp only [extent]
  split
  · omega
  · omega

/-- The address does not depend on the accessed and dirty bits. -/
theorem target_gains (leaf : Leaf) (pte va : Word) (gained : Gains adMask leaf.pte pte) :
    ({ leaf with pte := pte } : Leaf).target va = leaf.target va := by
  have number := gains_ppn leaf.pte pte gained
  have page : ptePa pte = ptePa leaf.pte := by
    rw [ptePa, number, ptePa]
  simp only [Leaf.target]
  simp only [ptePa_cleared, page]

/-- Touching an entry twice is touching it once. -/
theorem pteTouched_twice (pte : Word) (acc : Access) :
    pteTouched (pteTouched pte acc) acc = pteTouched pte acc := by
  have again : ∀ bits, pte ||| bits ||| bits = pte ||| bits := by
    intro bits
    rw [BitVec.or_assoc, BitVec.or_self]
  cases acc with
  | fetch => exact again pteA
  | load => exact again pteA
  | store =>
    change pte ||| pteA ||| pteD ||| pteA ||| pteD = pte ||| pteA ||| pteD
    rw [BitVec.or_assoc (pte ||| pteA ||| pteD), BitVec.or_assoc pte]
    exact again (pteA ||| pteD)

/-- What a translation returns does not depend on accessed and dirty bits. -/
theorem translate_marked (emu : Emulator) (mem : Memory) (marked : Word → Prop)
    (changed : Marked adMask marked emu.mem.data mem.data) (va : Word) (acc : Access) :
    (mmuTranslate (withMem emu mem) va acc).1 = (mmuTranslate emu va acc).1 := by
  rw [mmuTranslate_eq, mmuTranslate_eq]
  by_cases bare : Bare emu
  · have still : Bare (withMem emu mem) := bare
    rw [if_pos bare, if_pos still]
  · have still : ¬ Bare (withMem emu mem) := bare
    have walked : walk (withMem emu mem).mem (withMem emu mem).csr.satp va =
        (walk emu.mem emu.csr.satp va).map (·.reread mem) :=
      walk_marked emu.mem mem marked changed emu.csr.satp va
    rw [if_neg bare, if_neg still, walked]
    cases found : walk emu.mem emu.csr.satp va with
    | none => rfl
    | some leaf =>
      obtain ⟨read, -, -, -⟩ := walk_found emu.mem emu.csr.satp va leaf found
      obtain ⟨-, stored⟩ := memoryRead32_some emu.mem _ _ read
      have aligned := walk_aligned emu.mem emu.csr.satp va leaf found
      have gained : Gains adMask leaf.pte (leaf.reread mem).pte := by
        rw [← stored]
        exact changed.gains leaf.addr aligned
      have permitted : pteAllows (withMem emu mem) (leaf.reread mem).pte acc =
          pteAllows emu leaf.pte acc := pteAllows_gains emu leaf.pte _ acc gained
      have target : (leaf.reread mem).target va = leaf.target va := target_gains leaf _ va gained
      simp only [Option.map_some, permitted, target]
      split
      · rfl
      · rfl

/-- The update of the leaf a walk found marks its word. -/
theorem leaf_marked (emu : Emulator) (va : Word) (leaf : Leaf) (acc : Access)
    (found : walk emu.mem emu.csr.satp va = some leaf) :
    Marked adMask (· = leaf.addr) emu.mem.data (touchMemory emu.mem leaf acc).data := by
  obtain ⟨read, -, -, -⟩ := walk_found emu.mem emu.csr.satp va leaf found
  obtain ⟨-, stored⟩ := memoryRead32_some emu.mem leaf.addr leaf.pte read
  exact touchMemory_marked emu.mem leaf acc (walk_aligned emu.mem emu.csr.satp va leaf found) stored

/-- A walk depends on the page of the address alone. -/
theorem walk_page (mem : Memory) (satp va other : Word) (same : other >>> 12 = va >>> 12) :
    walk mem satp other = walk mem satp va := by
  have split : ∀ addr : Word, addr >>> 22 = addr >>> 12 >>> 10 := by
    intro addr
    exact BitVec.shiftRight_add addr 12 10
  have first : firstSlot satp other = firstSlot satp va := by
    simp only [firstSlot, split, same]
  have second : ∀ pointer, secondSlot pointer other = secondSlot pointer va := by
    intro pointer
    simp only [secondSlot, same]
  simp only [walk, first, second]

/-- After a translation, another one for the page finds the bits of its leaf set, and
    updates nothing. -/
theorem translate_again (emu after : Emulator) (va other pa : Word) (acc : Access)
    (translated : mmuTranslate emu va acc = (.ok pa, after)) (page : other >>> 12 = va >>> 12) :
    (mmuTranslate after other acc).2 = after := by
  rcases mmuTranslate_ok emu after va pa acc translated with
    ⟨bare, -, rfl⟩ | ⟨leaf, paged, found, allowed, -, updated⟩
  · rw [mmuTranslate_eq, if_pos bare]
  · obtain ⟨read, -, -, -⟩ := walk_found emu.mem emu.csr.satp va leaf found
    have marked := leaf_marked emu va leaf acc found
    have again : walk (touchMemory emu.mem leaf acc) emu.csr.satp other =
        some (leaf.reread (touchMemory emu.mem leaf acc)) := by
      rw [walk_page _ _ va _ page, walk_marked _ _ _ marked emu.csr.satp va, found]
      rfl
    have value := reread_touched emu.mem leaf acc read
    rw [pteUpdateAd_eq] at updated
    subst updated
    have stillPaged : ¬ Bare { emu with mem := touchMemory emu.mem leaf acc } := paged
    rw [mmuTranslate_eq, if_neg stillPaged]
    dsimp only
    rw [again]
    dsimp only
    split
    · rw [pteUpdateAd_eq]
      have settled : touchMemory (touchMemory emu.mem leaf acc)
          (leaf.reread (touchMemory emu.mem leaf acc)) acc = touchMemory emu.mem leaf acc := by
        rw [touchMemory, value, pteTouched_twice]
        exact if_neg (not_not.mpr rfl)
      rw [settled]
    · rfl

/-- A naturally aligned access of at most four bytes stays in one page. -/
theorem access_page (pa index : Word) (count : Nat) (small : count = 1 ∨ count = 2 ∨ count = 4)
    (natural : pa.toNat % count = 0) (member : Spans pa count index) :
    index.toNat / 4096 = pa.toNat / 4096 := by
  have sameWord := natural_word pa index count small natural member
  omega

end RvEmu.PageTables
