import RvEmu.MemoryAgreement
import RvEmu.PageIntegrity

/-!
# Address spaces that user code cannot change

The tables of an address space are memory like any other, so user code that could
write a byte of them could map any page for itself. A sealed address space lets user
code write none of its tables. What is left are the accessed and dirty bits that the
walker turns on, and tables that gained such bits describe the same address space: the
same pages, with the same permissions, at the same addresses.
-/

namespace RvEmu.AddressSpaces

open LittleEndian WordMarks PageWalk PageTables StepAnatomy MemoryAgreement PageIntegrity

/-- User code can write no byte of the tables. -/
def Sealed (mem : Memory) (satp : Word) : Prop :=
  ∀ leaf index, LeafOf mem satp leaf → UserWritable leaf.pte → MapsAlias leaf index →
    ¬ TableByte mem satp index

/-- An address space: paging is on, and its tables are in memory and sealed. -/
structure AddressSpace (mem : Memory) (satp : Word) : Prop where
  paged : satp &&& satpModeBit ≠ 0
  inside : TablesInside mem satp
  closed : Sealed mem satp

/-- The words of the tables are as before, apart from accessed and dirty bits turned on. -/
def TablesGained (satp : Word) (before after : Memory) : Prop :=
  ∀ addr, Aligned addr → TableByte before satp addr →
    Gains adMask (wordAt before.data addr) (wordAt after.data addr)

/-! ## The bytes of the tables -/

/-- Tables are made of whole pages. -/
theorem tableByte_page (mem : Memory) (satp index other : Word)
    (inTables : TableByte mem satp index) (samePage : other.toNat / 4096 = index.toNat / 4096) :
    TableByte mem satp other := by
  cases inTables with
  | root above below =>
    simp only [rootPage] at above below
    refine .root ?_ ?_
    · simp only [rootPage]
      omega
    · simp only [rootPage]
      omega
  | second slot bound pointer above below =>
    simp only [tablePage] at above below
    refine .second slot bound pointer ?_ ?_
    · simp only [tablePage]
      omega
    · simp only [tablePage]
      omega

/-- A word with a byte in the tables starts in the tables. -/
theorem tableByte_base (mem : Memory) (satp index : Word) (inTables : TableByte mem satp index) :
    TableByte mem satp (base index) := by
  have start := base_toNat index
  exact tableByte_page mem satp index (base index) inTables (by omega)

/-- A word that starts in the tables is in them. -/
theorem tableByte_spans (mem : Memory) (satp addr index : Word) (aligned : Aligned addr)
    (inTables : TableByte mem satp addr) (member : Spans addr 4 index) :
    TableByte mem satp index := by
  obtain ⟨above, below⟩ := (aligned_span addr index aligned).mp member
  simp only [Aligned] at aligned
  exact tableByte_page mem satp addr index inTables (by omega)

/-- An entry of a table page in memory is an aligned word of that page. -/
theorem slot_stored (mem : Memory) (page slot : Nat) (whole : page % 4096 = 0)
    (inMemory : page + 4096 ≤ mem.size.toNat) (bound : slot < 1024) :
    Aligned (BitVec.ofNat 32 (page + 4 * slot)) ∧
      page ≤ (BitVec.ofNat 32 (page + 4 * slot)).toNat ∧
      (BitVec.ofNat 32 (page + 4 * slot)).toNat < page + 4096 := by
  have size := size_toNat mem
  have stored : (BitVec.ofNat 32 (page + 4 * slot)).toNat = page + 4 * slot := by
    rw [BitVec.toNat_ofNat, Nat.mod_eq_of_lt (by omega)]
  rw [Aligned, stored]
  omega

theorem rootPage_whole (satp : Word) : rootPage satp % 4096 = 0 := Nat.mul_mod_left _ _

theorem tablePage_whole (pte : Word) : tablePage pte % 4096 = 0 := Nat.mul_mod_left _ _

/-- Every leaf entry is stored in the tables, at an aligned address. -/
theorem leafOf_stored (mem : Memory) (satp : Word) (leaf : Leaf) (inside : TablesInside mem satp)
    (leafOf : LeafOf mem satp leaf) : Aligned leaf.addr ∧ TableByte mem satp leaf.addr := by
  cases leafOf with
  | large slot bound entry superpage =>
    obtain ⟨aligned, above, below⟩ :=
      slot_stored mem _ slot (rootPage_whole satp) inside.root bound
    exact ⟨aligned, .root above below⟩
  | page slot inner bound innerBound pointer entry =>
    obtain ⟨aligned, above, below⟩ :=
      slot_stored mem _ inner (tablePage_whole _) (inside.second slot bound pointer) innerBound
    exact ⟨aligned, .second slot bound pointer above below⟩

/-! ## Tables that gained accessed and dirty bits -/

/-- An entry that gained such bits names the same page and is of the same kind. -/
structure SameEntry (old new : Word) : Prop where
  number : pageNumber new = pageNumber old
  pointer : PointerEntry new ↔ PointerEntry old
  leaf : LeafEntry new ↔ LeafEntry old
  writable : UserWritable new ↔ UserWritable old
  user : new &&& pteU = old &&& pteU

theorem gained_same (old new : Word) (gained : Gains adMask old new) : SameEntry old new := by
  have valid := gains_test _ _ pteV gained (by decide)
  have shape := gains_test _ _ (pteR ||| pteX) gained (by decide)
  have readable := gains_test _ _ pteR gained (by decide)
  have writable := gains_test _ _ pteW gained (by decide)
  have user := gains_test _ _ pteU gained (by decide)
  constructor
  case number =>
    have same := congrArg BitVec.toNat (gains_ppn _ _ gained)
    rw [BitVec.toNat_ushiftRight, BitVec.toNat_ushiftRight, Nat.shiftRight_eq_div_pow,
      Nat.shiftRight_eq_div_pow] at same
    exact same
  case pointer =>
    simp only [PointerEntry]
    rw [valid, shape]
  case leaf =>
    simp only [LeafEntry]
    rw [valid, shape]
  case writable =>
    constructor
    · rintro ⟨isValid, canRead, canWrite, isUser⟩
      rw [valid] at isValid
      rw [readable] at canRead
      rw [writable] at canWrite
      rw [user] at isUser
      exact ⟨isValid, canRead, canWrite, isUser⟩
    · rintro ⟨isValid, canRead, canWrite, isUser⟩
      constructor
      · rw [valid]
        exact isValid
      · rw [readable]
        exact canRead
      · rw [writable]
        exact canWrite
      · rw [user]
        exact isUser
  case user => exact user

section Gained

variable (satp : Word) (before after : Memory) (inside : TablesInside before satp)
  (gained : TablesGained satp before after)

include inside gained

theorem root_same (slot : Nat) (bound : slot < 1024) :
    SameEntry (entryAt before (rootPage satp) slot) (entryAt after (rootPage satp) slot) := by
  obtain ⟨aligned, above, below⟩ :=
    slot_stored before _ slot (rootPage_whole satp) inside.root bound
  exact gained_same _ _ (gained _ aligned (.root above below))

theorem table_same (slot : Nat) (bound : slot < 1024) :
    tablePage (entryAt after (rootPage satp) slot) =
      tablePage (entryAt before (rootPage satp) slot) := by
  simp only [tablePage]
  rw [(root_same satp before after inside gained slot bound).number]

/-- They are in memory, at the same place. -/
theorem gained_inside : TablesInside after satp := by
  constructor
  · rw [same_size before after]
    exact inside.root
  · intro slot bound pointer
    have same := root_same satp before after inside gained slot bound
    rw [same_size before after, table_same satp before after inside gained slot bound]
    exact inside.second slot bound (same.pointer.mp pointer)

theorem gained_bytes (index : Word) :
    TableByte after satp index ↔ TableByte before satp index := by
  constructor
  · rintro (⟨above, below⟩ | ⟨slot, bound, pointer, above, below⟩)
    · exact .root above below
    · have same := root_same satp before after inside gained slot bound
      rw [table_same satp before after inside gained slot bound] at above below
      exact .second slot bound (same.pointer.mp pointer) above below
  · rintro (⟨above, below⟩ | ⟨slot, bound, pointer, above, below⟩)
    · exact .root above below
    · have same := root_same satp before after inside gained slot bound
      rw [← table_same satp before after inside gained slot bound] at above below
      exact .second slot bound (same.pointer.mpr pointer) above below

/-- Each of their leaves is a leaf of the old tables that gained such bits. -/
theorem gained_leaf (leaf : Leaf) (leafOf : LeafOf after satp leaf) :
    ∃ pte, LeafOf before satp { leaf with pte := pte } ∧ SameEntry pte leaf.pte := by
  cases leafOf with
  | large slot bound entry superpage =>
    have same := root_same satp before after inside gained slot bound
    refine ⟨entryAt before (rootPage satp) slot, .large slot bound (same.leaf.mp entry) ?_, same⟩
    rw [← same.number]
    exact superpage
  | page slot inner bound innerBound pointer entry =>
    have kind := (root_same satp before after inside gained slot bound).pointer.mp pointer
    obtain ⟨aligned, above, below⟩ :=
      slot_stored before _ inner (tablePage_whole _) (inside.second slot bound kind) innerBound
    have same := gained_same _ _ (gained _ aligned (.second slot bound kind above below))
    rw [table_same satp before after inside gained slot bound] at entry ⊢
    exact ⟨_, .page slot inner bound innerBound kind (same.leaf.mp entry), same⟩

end Gained

/-- A leaf with the same page maps the same bytes. -/
theorem same_alias (leaf : Leaf) (pte index : Word) (same : SameEntry pte leaf.pte)
    (aliased : MapsAlias leaf index) : MapsAlias { leaf with pte := pte } index := by
  simp only [MapsAlias, extent] at aliased ⊢
  rw [same.number] at aliased
  exact aliased

/-- The address space stays one. -/
theorem gained_space (satp : Word) (before after : Memory) (space : AddressSpace before satp)
    (gained : TablesGained satp before after) : AddressSpace after satp := by
  refine ⟨space.paged, gained_inside satp before after space.inside gained, ?_⟩
  intro leaf index leafOf writable aliased inTables
  obtain ⟨pte, old, same⟩ := gained_leaf satp before after space.inside gained leaf leafOf
  have before := (gained_bytes satp before after space.inside gained index).mp inTables
  exact space.closed _ index old (same.writable.mp writable)
    (same_alias leaf pte index same aliased)
    before

theorem gained_refl (satp : Word) (mem : Memory) : TablesGained satp mem mem :=
  fun addr _ _ => gains_refl adMask (wordAt mem.data addr)

theorem gained_trans (satp : Word) (first second third : Memory)
    (inside : TablesInside first satp) (earlier : TablesGained satp first second)
    (later : TablesGained satp second third) : TablesGained satp first third := by
  intro addr aligned inTables
  have still := (gained_bytes satp first second inside earlier addr).mpr inTables
  exact gains_trans adMask _ _ _ (earlier addr aligned inTables) (later addr aligned still)

open Classical in
/-- The memory whose tables are those of the second and whose other bytes are those of the
    first. -/
noncomputable def withTables (satp : Word) (before after : Memory) : Memory :=
  { before with
    data := fun index =>
      if TableByte before satp index then after.data index else before.data index }

/-- It differs from the first by accessed and dirty bits of the tables. -/
theorem withTables_marked (satp : Word) (before after : Memory)
    (gained : TablesGained satp before after) :
    Marked adMask (TableByte before satp) before.data (withTables satp before after).data := by
  have outside : ∀ addr, Aligned addr → ¬ TableByte before satp addr →
      wordAt (withTables satp before after).data addr = wordAt before.data addr := by
    intro addr aligned absent
    apply wordAt_congr
    intro index member
    obtain ⟨above, below⟩ := (aligned_span addr index aligned).mp member
    simp only [Aligned] at aligned
    refine if_neg fun inTables => absent ?_
    exact tableByte_page before satp index addr inTables (by omega)
  constructor
  · intro addr aligned
    by_cases inTables : TableByte before satp addr
    · have same : wordAt (withTables satp before after).data addr = wordAt after.data addr := by
        apply wordAt_congr
        intro index member
        exact if_pos (tableByte_spans before satp addr index aligned inTables member)
      rw [same]
      exact gained addr aligned inTables
    · rw [outside addr aligned inTables]
      exact gains_refl adMask _
  · exact outside

/-- Tables that gained accessed and dirty bits translate every address as before. -/
theorem translate_gained (emu : Emulator) (mem : Memory)
    (inside : TablesInside emu.mem emu.csr.satp)
    (gained : TablesGained emu.csr.satp emu.mem mem) (va : Word) (acc : Access) :
    (mmuTranslate (withMem emu mem) va acc).1 = (mmuTranslate emu va acc).1 := by
  have changed := withTables_marked emu.csr.satp emu.mem mem gained
  obtain ⟨still, fewer⟩ := tables_marked emu.mem _ _ emu.csr.satp changed inside
  have agree : Agrees (TableByte (withTables emu.csr.satp emu.mem mem) emu.csr.satp)
      (withTables emu.csr.satp emu.mem mem) mem := by
    intro index inTables
    exact if_pos (fewer index inTables)
  have walked := walk_agree _ mem emu.csr.satp va still agree
  have alike := translate_alike (fun _ => False)
    (withMem emu (withTables emu.csr.satp emu.mem mem)) mem va acc walked
    (fun _ absent => absent.elim)
  rw [← translate_marked emu _ _ changed va acc]
  generalize mmuTranslate (withMem emu (withTables emu.csr.satp emu.mem mem)) va acc = one
    at alike ⊢
  have twin : withMem (withMem emu (withTables emu.csr.satp emu.mem mem)) mem = withMem emu mem :=
    rfl
  rw [twin] at alike
  generalize mmuTranslate (withMem emu mem) va acc = other at alike ⊢
  cases alike with
  | intro result after memory agree => rfl

end RvEmu.AddressSpaces
