import RvEmu.PageIntegrity

/-!
# Translation follows the Sv32 rules

The rules are stated in their own terms: tables are pages of numbered entries in
memory, an entry is its flags and its page number, and addresses are natural
numbers, so nothing here wraps. An address reaches at most two entries, one in
the root and, below a pointer, one in the table it names.

The walker computes the same addresses in 32 bits. Below the last page of the
space its sums do not wrap, so it consults the same entries, and the page it
gives is the page of the leaf.
-/

namespace RvEmu.Sv32

open LittleEndian PageWalk PageTables PageIntegrity

/-! ## The rules -/

/-- The flags of an entry. -/
def valid (pte : Word) : Bool := pte.getLsbD 0
def readable (pte : Word) : Bool := pte.getLsbD 1
def writable (pte : Word) : Bool := pte.getLsbD 2
def executable (pte : Word) : Bool := pte.getLsbD 3
def user (pte : Word) : Bool := pte.getLsbD 4

/-- A valid entry that cannot be read or executed names the next table. -/
def Pointer (pte : Word) : Prop :=
  valid pte = true ∧ readable pte = false ∧ executable pte = false

/-- A valid entry that can be read or executed maps a page. -/
def Mapping (pte : Word) : Prop :=
  valid pte = true ∧ (readable pte = true ∨ executable pte = true)

/-- Where a leaf stands: in the root, mapping four megabytes, or below it, mapping
    four kilobytes. -/
inductive Level where
  | one
  | zero
deriving DecidableEq

/-- The bytes that a leaf maps at its level. -/
def Level.span : Level → Nat
  | .one => 2 ^ 22
  | .zero => 2 ^ 12

/-- The entry of a table, where its address lies inside memory. -/
def entryIn (mem : Memory) (page slot : Nat) : Option Word :=
  if page + 4 * slot + 4 ≤ mem.size.toNat then some (entryAt mem page slot) else none

/-- The entries an address consults. -/
inductive Consulted (emu : Emulator) (va : Word) : Level → Word → Prop where
  | root (pte : Word)
      (stored : entryIn emu.mem (rootPage emu.csr.satp) (va.toNat / 2 ^ 22) = some pte) :
      Consulted emu va .one pte
  | below (pointer pte : Word)
      (above : entryIn emu.mem (rootPage emu.csr.satp) (va.toNat / 2 ^ 22) = some pointer)
      (names : Pointer pointer)
      (stored : entryIn emu.mem (tablePage pointer) (va.toNat / 2 ^ 12 % 2 ^ 10) = some pte) :
      Consulted emu va .zero pte

/-- The walk ends in a leaf. A leaf of the root maps an aligned four megabytes. -/
structure Finds (emu : Emulator) (va : Word) (level : Level) (pte : Word) : Prop where
  consulted : Consulted emu va level pte
  mapping : Mapping pte
  superpage : level = .one → pageNumber pte % 1024 = 0

/-- The leaf permits the kind of access. -/
def Permits (pte : Word) : Access → Prop
  | .fetch => executable pte = true
  | .load => readable pte = true
  | .store => readable pte = true ∧ writable pte = true

/-- The leaf belongs to the privilege: user code uses user pages, and a supervisor
    uses them for data alone, while `SUM` is set. -/
def Belongs (emu : Emulator) (pte : Word) (acc : Access) : Prop :=
  if emu.priv = privU then user pte = true
  else user pte = true → acc ≠ .fetch ∧ emu.csr.mstatus.getLsbD 18 = true

/-- The page-fault codes. -/
def pageFault : Access → Word
  | .fetch => 12
  | .load => 13
  | .store => 15

/-- The tables that the rules are about: the ones an address reaches have 32-bit
    addresses, and no entry is writable without being readable. -/
structure Orderly (emu : Emulator) (va : Word) : Prop where
  root : rootPage emu.csr.satp < 0xFFFFF * 4096
  pointers : ∀ level pte, Consulted emu va level pte → Pointer pte → pageNumber pte < 0xFFFFF
  leaves : ∀ level pte, Consulted emu va level pte → Mapping pte → pageNumber pte < 2 ^ 20
  unreserved : ∀ level pte, Consulted emu va level pte →
    ¬ (readable pte = false ∧ writable pte = true)

/-- A translation succeeds exactly with the address that a permitted leaf gives, and
    otherwise reports the page fault of the access. -/
structure Exact (emu : Emulator) (va : Word) (acc : Access) : Prop where
  translates : ∀ pa, (mmuTranslate emu va acc).1 = .ok pa ↔
    ∃ level pte, Finds emu va level pte ∧ Permits pte acc ∧ Belongs emu pte acc ∧
      pa.toNat = pageNumber pte * 4096 + va.toNat % level.span
  faults : (¬ ∃ level pte, Finds emu va level pte ∧ Permits pte acc ∧ Belongs emu pte acc) →
    (mmuTranslate emu va acc).1 = .error (pageFault acc)

/-! ## Masks and flags -/

theorem valid_mask (pte : Word) : pte &&& pteV = 0 ↔ valid pte = false :=
  BitMasks.and_bit pte 0 (by decide)

theorem readable_mask (pte : Word) : pte &&& pteR = 0 ↔ readable pte = false :=
  BitMasks.and_bit pte 1 (by decide)

theorem writable_mask (pte : Word) : pte &&& pteW = 0 ↔ writable pte = false :=
  BitMasks.and_bit pte 2 (by decide)

theorem executable_mask (pte : Word) : pte &&& pteX = 0 ↔ executable pte = false :=
  BitMasks.and_bit pte 3 (by decide)

theorem user_mask (pte : Word) : pte &&& pteU = 0 ↔ user pte = false :=
  BitMasks.and_bit pte 4 (by decide)

theorem leaf_mask (pte : Word) :
    pte &&& (pteR ||| pteX) = 0 ↔ readable pte = false ∧ executable pte = false := by
  have split : pte &&& (pteR ||| pteX) = (pte &&& pteR) ||| (pte &&& pteX) :=
    BitVec.and_or_distrib_left
  rw [split, BitVec.ofNat_eq_ofNat, BitVec.or_eq_zero_iff]
  exact and_congr (readable_mask pte) (executable_mask pte)

/-! ## The walker's reads -/

theorem firstIndex_toNat (va : Word) : ((va >>> 22) &&& 0x3FF).toNat = va.toNat / 2 ^ 22 := by
  have masked : ((va >>> 22) &&& 0x3FF).toNat = (va >>> 22).toNat % 2 ^ 10 :=
    BitMasks.and_low (va >>> 22) 10 (by decide)
  have bound : va.toNat < 2 ^ 32 := va.isLt
  rw [masked, BitVec.toNat_ushiftRight, Nat.shiftRight_eq_div_pow]
  omega

theorem secondIndex_toNat (va : Word) :
    ((va >>> 12) &&& 0x3FF).toNat = va.toNat / 2 ^ 12 % 2 ^ 10 := by
  have masked : ((va >>> 12) &&& 0x3FF).toNat = (va >>> 12).toNat % 2 ^ 10 :=
    BitMasks.and_low (va >>> 12) 10 (by decide)
  rw [masked, BitVec.toNat_ushiftRight, Nat.shiftRight_eq_div_pow]

/-- Where the address does not wrap, the bounds test of a read is exact. -/
theorem read_entry (mem : Memory) (addr : Word) (page slot : Nat)
    (stored : addr.toNat = page + 4 * slot) (below : page + 4 * slot + 4 < 2 ^ 32) :
    memoryRead32 mem addr = entryIn mem page slot := by
  have entry : entryAt mem page slot = wordAt mem.data addr := by
    rw [entryAt, ofNat_toNat addr _ stored]
  have sum : (addr + 4).toNat = page + 4 * slot + 4 := by
    rw [BitVec.toNat_add, stored]
    exact Nat.mod_eq_of_lt below
  simp only [memoryRead32, entryIn, entry, gt_iff_lt, BitVec.lt_def, sum]
  by_cases inside : page + 4 * slot + 4 ≤ mem.size.toNat
  · rw [if_neg (Nat.not_lt.mpr inside), if_pos inside]
  · rw [if_pos (Nat.not_le.mp inside), if_neg inside]

/-- The first read of a walk is the root entry. -/
theorem root_read (emu : Emulator) (va : Word) (orderly : Orderly emu va) :
    memoryRead32 emu.mem (firstSlot emu.csr.satp va) =
      entryIn emu.mem (rootPage emu.csr.satp) (va.toNat / 2 ^ 22) := by
  have root := orderly.root
  have bound : va.toNat < 2 ^ 32 := va.isLt
  apply read_entry
  · simp only [rootPage] at root ⊢
    rw [firstSlot_toNat, rootTable_toNat, firstIndex_toNat]
    omega
  · omega

/-- Below a pointer the second read is the entry of the table it names. -/
theorem table_read (emu : Emulator) (pointer va : Word) (small : pageNumber pointer < 0xFFFFF) :
    memoryRead32 emu.mem (secondSlot pointer va) =
      entryIn emu.mem (tablePage pointer) (va.toNat / 2 ^ 12 % 2 ^ 10) := by
  apply read_entry
  · simp only [tablePage, pageNumber] at small ⊢
    rw [secondSlot_toNat, ptePa_toNat, secondIndex_toNat]
    omega
  · simp only [tablePage]
    omega

/-- Leaves of the root are the large ones. -/
def Level.large : Level → Bool
  | .one => true
  | .zero => false

theorem mapping_masks (pte : Word) (mapping : Mapping pte) :
    pte &&& pteV ≠ 0 ∧ pte &&& (pteR ||| pteX) ≠ 0 := by
  obtain ⟨present, kind⟩ := mapping
  constructor
  · rw [Ne, valid_mask, present]
    decide
  · rw [Ne, leaf_mask]
    rintro ⟨unreadable, unexecutable⟩
    rw [unreadable, unexecutable] at kind
    revert kind
    decide

theorem masks_mapping (pte : Word) (present : pte &&& pteV ≠ 0)
    (kind : pte &&& (pteR ||| pteX) ≠ 0) : Mapping pte := by
  rw [Ne, valid_mask, Bool.not_eq_false] at present
  rw [Ne, leaf_mask, not_and_or, Bool.not_eq_false, Bool.not_eq_false] at kind
  exact ⟨present, kind⟩

theorem masks_pointer (pte : Word) (present : pte &&& pteV ≠ 0)
    (kind : pte &&& (pteR ||| pteX) = 0) : Pointer pte := by
  rw [Ne, valid_mask, Bool.not_eq_false] at present
  rw [leaf_mask] at kind
  exact ⟨present, kind⟩

/-- A leaf that the rules find is the leaf of the walk. -/
theorem finds_walk (emu : Emulator) (va : Word) (level : Level) (pte : Word)
    (orderly : Orderly emu va) (finds : Finds emu va level pte) :
    ∃ addr, walk emu.mem emu.csr.satp va =
      some { addr := addr, pte := pte, large := level.large } := by
  obtain ⟨consulted, mapping, superpage⟩ := finds
  obtain ⟨present, kind⟩ := mapping_masks pte mapping
  cases consulted with
  | root _ stored =>
    rw [← root_read emu va orderly] at stored
    exact ⟨_, reaches_walk emu.mem _ va _
      (.root pte stored present kind ((superpage_test pte).mpr (superpage rfl)))⟩
  | below pointer _ above names stored =>
    have small := orderly.pointers _ _ (.root pointer above) names
    have pointerPresent : ¬ pointer &&& pteV = 0 := by
      rw [valid_mask, names.1]
      decide
    rw [← root_read emu va orderly] at above
    rw [← table_read emu pointer va small] at stored
    exact ⟨_, reaches_walk emu.mem _ va _
      (.table pointer pte above pointerPresent ((leaf_mask _).mpr names.2) stored present kind)⟩

/-- The leaf of the walk is one that the rules find. -/
theorem walk_finds (emu : Emulator) (va : Word) (leaf : Leaf) (orderly : Orderly emu va)
    (found : walk emu.mem emu.csr.satp va = some leaf) :
    ∃ level, Finds emu va level leaf.pte ∧ leaf.large = level.large := by
  cases walk_reaches emu.mem emu.csr.satp va leaf found with
  | root pte first present kind aligned =>
    rw [root_read emu va orderly] at first
    have superpage := (superpage_test pte).mp aligned
    exact ⟨.one, ⟨.root pte first, masks_mapping pte present kind, fun _ => superpage⟩, rfl⟩
  | table pte inner first present pointerKind second innerPresent innerKind =>
    have names := masks_pointer pte present pointerKind
    rw [root_read emu va orderly] at first
    have small := orderly.pointers _ _ (.root pte first) names
    rw [table_read emu pte va small] at second
    refine ⟨.zero, ⟨.below pte inner first names second,
      masks_mapping inner innerPresent innerKind, ?_⟩, rfl⟩
    intro large
    cases large

/-! ## Permissions -/

/-- The last test of `pte_allows` reads the flags that the access needs. -/
theorem permits_masks (pte : Word) (acc : Access) :
    (match acc with
      | .fetch => decide (pte &&& pteX ≠ 0)
      | .load => decide (pte &&& pteR ≠ 0)
      | .store => decide (pte &&& pteR ≠ 0 ∧ pte &&& pteW ≠ 0)) = true ↔ Permits pte acc := by
  cases acc with
  | fetch =>
    simp only [decide_eq_true_iff, Permits]
    rw [Ne, executable_mask, Bool.not_eq_false]
  | load =>
    simp only [decide_eq_true_iff, Permits]
    rw [Ne, readable_mask, Bool.not_eq_false]
  | store =>
    simp only [decide_eq_true_iff, Permits]
    rw [Ne, Ne, readable_mask, writable_mask, Bool.not_eq_false, Bool.not_eq_false]

/-- `SUM` is bit 18 of `mstatus`. -/
theorem sum_mask (status : Word) : status &&& mstatusSum = 0 ↔ status.getLsbD 18 = false :=
  BitMasks.and_bit status 18 (by decide)

/-- For a leaf that is not writable alone, `pte_allows` is the rule. -/
theorem allows_iff (emu : Emulator) (pte : Word) (acc : Access)
    (below : emu.priv = privU ∨ emu.priv = privS) (mapping : Mapping pte)
    (unreserved : ¬ (readable pte = false ∧ writable pte = true)) :
    pteAllows emu pte acc = true ↔ Permits pte acc ∧ Belongs emu pte acc := by
  obtain ⟨-, kind⟩ := mapping_masks pte mapping
  have regular : ¬ (pte &&& pteW ≠ 0 ∧ pte &&& pteR = 0) := by
    rw [Ne, writable_mask, readable_mask, Bool.not_eq_false]
    exact fun both => unreserved ⟨both.2, both.1⟩
  simp only [pteAllows]
  rw [if_neg kind, if_neg regular]
  by_cases level : emu.priv = privU
  · have other : ¬ (emu.priv = privS ∧ pte &&& pteU ≠ 0 ∧
        (acc = .fetch ∨ emu.csr.mstatus &&& mstatusSum = 0)) := by
      rw [level]
      exact fun supervisor => absurd supervisor.1 (by decide)
    have belongs : Belongs emu pte acc ↔ user pte = true := by
      rw [Belongs, if_pos level]
    rw [if_neg other, belongs]
    by_cases kernel : pte &&& pteU = 0
    · rw [if_pos ⟨level, kernel⟩, (user_mask pte).mp kernel]
      constructor
      · exact fun absent => Bool.noConfusion absent
      · exact fun both => Bool.noConfusion both.2
    · rw [if_neg (fun both => kernel both.2)]
      rw [user_mask, Bool.not_eq_false] at kernel
      rw [kernel]
      exact (permits_masks pte acc).trans (and_iff_left rfl).symm
  · have supervisor : emu.priv = privS := below.resolve_left level
    have belongs : Belongs emu pte acc ↔
        ¬ (pte &&& pteU ≠ 0 ∧ (acc = .fetch ∨ emu.csr.mstatus &&& mstatusSum = 0)) := by
      have flag : pte &&& pteU ≠ 0 ↔ user pte = true := by
        rw [Ne, user_mask, Bool.not_eq_false]
      rw [Belongs, if_neg level, flag, sum_mask, not_and, not_or, Bool.not_eq_false]
    rw [if_neg (fun both => level both.1), belongs]
    by_cases refused : pte &&& pteU ≠ 0 ∧ (acc = .fetch ∨ emu.csr.mstatus &&& mstatusSum = 0)
    · rw [if_pos ⟨supervisor, refused⟩]
      constructor
      · exact fun absent => Bool.noConfusion absent
      · exact fun both => absurd refused both.2
    · rw [if_neg (fun both => refused both.2)]
      exact (permits_masks pte acc).trans (and_iff_left refused).symm

/-! ## Translation -/

theorem faultCause_code (acc : Access) : faultCause acc = pageFault acc := by
  cases acc with
  | fetch => rfl
  | load => rfl
  | store => rfl

/-- The address that the walker gives for an orderly leaf is the one of its page. -/
theorem target_page (leaf : Leaf) (level : Level) (va pa : Word)
    (large : leaf.large = level.large)
    (superpage : level = .one → pageNumber leaf.pte % 1024 = 0)
    (small : pageNumber leaf.pte < 2 ^ 20) :
    leaf.target va = pa ↔ pa.toNat = pageNumber leaf.pte * 4096 + va.toNat % level.span := by
  have aligned : leaf.large = true → (leaf.pte >>> 10) &&& 0x3FF = 0 := by
    intro first
    apply (superpage_test leaf.pte).mpr
    cases level with
    | one => exact superpage rfl
    | zero =>
      rw [first] at large
      cases large
  have size : extent leaf = level.span := by
    rw [extent, large]
    cases level with
    | one => rfl
    | zero => rfl
  have address := target_toNat leaf va aligned
  rw [size, Nat.mod_eq_of_lt small] at address
  rw [← address]
  exact ⟨fun same => congrArg BitVec.toNat same.symm, fun same => (BitVec.eq_of_toNat_eq same).symm⟩

/-- Below machine level with the mode bit set, translation is on. -/
theorem paged_below (emu : Emulator) (below : emu.priv = privU ∨ emu.priv = privS)
    (mode : emu.csr.satp.getLsbD 31 = true) : ¬ Bare emu := by
  rintro (machine | off)
  · rcases below with level | level
    · rw [level] at machine
      revert machine
      decide
    · rw [level] at machine
      revert machine
      decide
  · rw [(BitMasks.and_bit emu.csr.satp 31 (by decide)).mp off] at mode
    cases mode

/-- A translation succeeds through the leaf of the walk, when that allows the access. -/
theorem translates_walk (emu : Emulator) (va pa : Word) (acc : Access) (paged : ¬ Bare emu) :
    (mmuTranslate emu va acc).1 = .ok pa ↔
      ∃ leaf, walk emu.mem emu.csr.satp va = some leaf ∧ pteAllows emu leaf.pte acc = true ∧
        leaf.target va = pa := by
  rw [mmuTranslate_eq, if_neg paged]
  cases found : walk emu.mem emu.csr.satp va with
  | none =>
    constructor
    · intro success
      cases success
    · rintro ⟨leaf, other, -⟩
      cases other
  | some leaf =>
    dsimp only
    split
    · rename_i allowed
      constructor
      · exact fun success => ⟨leaf, rfl, allowed, Except.ok.inj success⟩
      · rintro ⟨other, same, -, address⟩
        cases same
        exact congrArg Except.ok address
    · rename_i refused
      constructor
      · intro success
        cases success
      · rintro ⟨other, same, allowed, -⟩
        cases same
        exact absurd allowed refused

/-- Otherwise it reports the page fault of the access. -/
theorem faults_walk (emu : Emulator) (va : Word) (acc : Access) (paged : ¬ Bare emu)
    (absent : ¬ ∃ leaf, walk emu.mem emu.csr.satp va = some leaf ∧
      pteAllows emu leaf.pte acc = true) :
    (mmuTranslate emu va acc).1 = .error (pageFault acc) := by
  rw [mmuTranslate_eq, if_neg paged]
  cases found : walk emu.mem emu.csr.satp va with
  | none => exact congrArg Except.error (faultCause_code acc)
  | some leaf =>
    dsimp only
    rw [if_neg (fun allowed => absent ⟨leaf, found, allowed⟩), faultCause_code]

/-- The leaves of the walk that allow an access are the ones found that grant it. -/
theorem granted_iff (emu : Emulator) (va : Word) (acc : Access)
    (below : emu.priv = privU ∨ emu.priv = privS) (orderly : Orderly emu va) (level : Level)
    (pte : Word) (finds : Finds emu va level pte) :
    pteAllows emu pte acc = true ↔ Permits pte acc ∧ Belongs emu pte acc :=
  allows_iff emu pte acc below finds.mapping (orderly.unreserved level pte finds.consulted)

/-- Where translation is on, `mmu_translate` follows the rules on orderly tables. -/
theorem translate_exact (emu : Emulator) (va : Word) (acc : Access)
    (below : emu.priv = privU ∨ emu.priv = privS) (mode : emu.csr.satp.getLsbD 31 = true)
    (orderly : Orderly emu va) : Exact emu va acc := by
  have paged := paged_below emu below mode
  constructor
  · intro pa
    rw [translates_walk emu va pa acc paged]
    constructor
    · rintro ⟨leaf, found, allowed, target⟩
      obtain ⟨level, finds, large⟩ := walk_finds emu va leaf orderly found
      obtain ⟨permits, belongs⟩ :=
        (granted_iff emu va acc below orderly level leaf.pte finds).mp allowed
      have small := orderly.leaves level leaf.pte finds.consulted finds.mapping
      exact ⟨level, leaf.pte, finds, permits, belongs,
        (target_page leaf level va pa large finds.superpage small).mp target⟩
    · rintro ⟨level, pte, finds, permits, belongs, address⟩
      obtain ⟨addr, found⟩ := finds_walk emu va level pte orderly finds
      have allowed := (granted_iff emu va acc below orderly level pte finds).mpr ⟨permits, belongs⟩
      have small := orderly.leaves level pte finds.consulted finds.mapping
      exact ⟨_, found, allowed, (target_page { addr := addr, pte := pte, large := level.large }
        level va pa rfl finds.superpage small).mpr address⟩
  · intro absent
    apply faults_walk emu va acc paged
    rintro ⟨leaf, found, allowed⟩
    obtain ⟨level, finds, -⟩ := walk_finds emu va leaf orderly found
    obtain ⟨permits, belongs⟩ :=
      (granted_iff emu va acc below orderly level leaf.pte finds).mp allowed
    exact absent ⟨level, leaf.pte, finds, permits, belongs⟩

/-- A user load through an aligned superpage. -/
theorem superpage_exact : Exact (superpageState 0x1F 0 0) 0x700 .load := by
  have single : ∀ level pte, Consulted (superpageState 0x1F 0 0) 0x700 level pte → pte = 0x1F := by
    intro level pte consulted
    have stored : entryIn (superpageState 0x1F 0 0).mem (rootPage 0x80000001) 0 =
        some 0x1F := by
      decide +kernel
    cases consulted with
    | root _ entry => exact Option.some.inj (entry.symm.trans stored)
    | below pointer _ entry names _ =>
      have same : pointer = 0x1F := Option.some.inj (entry.symm.trans stored)
      rw [same] at names
      exact absurd names.2.1 (by decide)
  apply translate_exact (superpageState 0x1F 0 0) 0x700 .load (Or.inl rfl) (by decide)
  constructor
  · decide
  · intro level pte consulted _
    rw [single level pte consulted]
    decide
  · intro level pte consulted _
    rw [single level pte consulted]
    decide
  · intro level pte consulted
    rw [single level pte consulted]
    decide

end RvEmu.Sv32
