import RvEmu.Mmu
import RvEmu.Foundation.WordMarks

/-!
# The page-table walk

`mmu_translate` finds a leaf entry, tests it and touches it. The finding half is
stated here as a function of memory, `satp` and the address alone, and the
translation is its composition with `pte_allows` and `pte_update_ad`.

The walker writes into the tables it reads, possibly into tables that several
levels share. A walk never inspects the accessed and dirty bits, and the entries
it visits are aligned words, so a walk after any number of such updates finds
the same leaf address, with the updated value.
-/

namespace RvEmu.PageWalk

open LittleEndian WordMarks

/-- A leaf entry: where it is stored, its value, and whether it was found in the
    first level and maps four megabytes. -/
structure Leaf where
  addr : Word
  pte : Word
  large : Bool
deriving DecidableEq

/-- The root table of an address space. -/
def rootTable (satp : Word) : Word := (satp &&& satpPpnMask) <<< 12

/-- The first-level entry for an address. -/
def firstSlot (satp va : Word) : Word := rootTable satp + ((va >>> 22) &&& 0x3FF) * 4

/-- The second-level entry for an address, under a pointer entry. -/
def secondSlot (pointer va : Word) : Word := ptePa pointer + ((va >>> 12) &&& 0x3FF) * 4

/-- The leaf entry that a translation of the address reaches, before any
    permission test. -/
def walk (mem : Memory) (satp va : Word) : Option Leaf :=
  match memoryRead32 mem (firstSlot satp va) with
  | none => none
  | some pte =>
    if pte &&& pteV = 0 then none
    else if pte &&& (pteR ||| pteX) ≠ 0 then
      if (pte >>> 10) &&& 0x3FF ≠ 0 then none
      else some { addr := firstSlot satp va, pte := pte, large := true }
    else
      match memoryRead32 mem (secondSlot pte va) with
      | none => none
      | some leaf =>
        if leaf &&& pteV = 0 then none
        else if leaf &&& (pteR ||| pteX) = 0 then none
        else some { addr := secondSlot pte va, pte := leaf, large := false }

/-- The physical address that a leaf gives a virtual one. -/
def Leaf.target (leaf : Leaf) (va : Word) : Word :=
  if leaf.large then ptePa (leaf.pte &&& ~~~(0x3FF : Word)) ||| (va &&& 0x3FFFFF)
  else ptePa leaf.pte ||| (va &&& 0xFFF)

/-- Whether addresses pass through untranslated. -/
def Bare (emu : Emulator) : Prop := emu.priv = privM ∨ emu.csr.satp &&& satpModeBit = 0

instance (emu : Emulator) : Decidable (Bare emu) :=
  inferInstanceAs (Decidable (emu.priv = privM ∨ emu.csr.satp &&& satpModeBit = 0))

/-- `mmu_translate` is the walk, then the permission test, then the update. -/
theorem mmuTranslate_eq (emu : Emulator) (va : Word) (acc : Access) :
    mmuTranslate emu va acc =
      if Bare emu then (.ok va, emu)
      else
        match walk emu.mem emu.csr.satp va with
        | none => (.error (faultCause acc), emu)
        | some leaf =>
          if pteAllows emu leaf.pte acc then
            (.ok (leaf.target va), pteUpdateAd emu leaf.addr leaf.pte acc)
          else (.error (faultCause acc), emu) := by
  by_cases bare : Bare emu
  · rw [if_pos bare]
    exact if_pos bare
  · rw [if_neg bare]
    simp only [mmuTranslate, walk]
    simp only [mmuReadPte]
    rw [if_neg (by exact bare)]
    change (match memoryRead32 emu.mem (firstSlot emu.csr.satp va) with
      | none => _
      | some pte => _) = _
    cases memoryRead32 emu.mem (firstSlot emu.csr.satp va) with
    | none => rfl
    | some pte =>
      by_cases valid : pte &&& pteV = 0
      · simp only [valid, if_true]
      · simp only [valid, if_false]
        by_cases leafShape : pte &&& (pteR ||| pteX) ≠ 0
        · simp only [if_pos leafShape]
          by_cases misaligned : (pte >>> 10) &&& 0x3FF ≠ 0
          · simp only [if_pos misaligned]
          · simp only [if_neg misaligned]
            cases pteAllows emu pte acc <;> rfl
        · simp only [if_neg leafShape]
          change (match memoryRead32 emu.mem (secondSlot pte va) with
            | none => _
            | some pte => _) = _
          cases memoryRead32 emu.mem (secondSlot pte va) with
          | none => rfl
          | some leaf =>
            by_cases leafValid : leaf &&& pteV = 0
            · simp only [leafValid, if_true]
            · simp only [leafValid, if_false]
              by_cases pointer : leaf &&& (pteR ||| pteX) = 0
              · simp only [pointer, if_true]
              · simp only [pointer, if_false]
                cases pteAllows emu leaf acc <;> rfl

/-- A translation that fails leaves the state alone and reports the page-fault
    code of the access. -/
theorem mmuTranslate_error (emu after : Emulator) (va cause : Word) (acc : Access)
    (refused : mmuTranslate emu va acc = (.error cause, after)) :
    after = emu ∧ cause = faultCause acc := by
  rw [mmuTranslate_eq] at refused
  by_cases bare : Bare emu
  · rw [if_pos bare] at refused
    cases refused
  · rw [if_neg bare] at refused
    cases found : walk emu.mem emu.csr.satp va with
    | none =>
      rw [found] at refused
      cases refused
      exact ⟨rfl, rfl⟩
    | some leaf =>
      rw [found] at refused
      dsimp only at refused
      split at refused
      · cases refused
      · cases refused
        exact ⟨rfl, rfl⟩

/-- A translation that succeeds passes the address through, or found a leaf that
    allows the access and updated that leaf. -/
theorem mmuTranslate_ok (emu after : Emulator) (va pa : Word) (acc : Access)
    (translated : mmuTranslate emu va acc = (.ok pa, after)) :
    (Bare emu ∧ pa = va ∧ after = emu) ∨
      ∃ leaf, ¬ Bare emu ∧ walk emu.mem emu.csr.satp va = some leaf ∧
        pteAllows emu leaf.pte acc = true ∧ pa = leaf.target va ∧
        after = pteUpdateAd emu leaf.addr leaf.pte acc := by
  rw [mmuTranslate_eq] at translated
  by_cases bare : Bare emu
  · rw [if_pos bare] at translated
    cases translated
    exact Or.inl ⟨bare, rfl, rfl⟩
  · rw [if_neg bare] at translated
    cases found : walk emu.mem emu.csr.satp va with
    | none =>
      rw [found] at translated
      cases translated
    | some leaf =>
      rw [found] at translated
      dsimp only at translated
      split at translated
      · rename_i allowed
        cases translated
        exact Or.inr ⟨leaf, bare, rfl, allowed, rfl, rfl⟩
      · cases translated

/-! ## What a walk reads -/

/-- A word that was read is the word stored there, in range. -/
theorem memoryRead32_some (mem : Memory) (addr value : Word)
    (read : memoryRead32 mem addr = some value) :
    ¬ addr + 4 > mem.size ∧ wordAt mem.data addr = value := by
  simp only [memoryRead32] at read
  split at read
  · cases read
  · rename_i inside
    cases read
    exact ⟨inside, rfl⟩

/-- How a walk reaches a leaf: in the root, aligned to four megabytes, or in the table that a
    pointer of the root names. -/
inductive Reaches (mem : Memory) (satp va : Word) : Leaf → Prop where
  | root (pte : Word) (read : memoryRead32 mem (firstSlot satp va) = some pte)
      (valid : pte &&& pteV ≠ 0) (leafShape : pte &&& (pteR ||| pteX) ≠ 0)
      (superpage : (pte >>> 10) &&& 0x3FF = 0) :
      Reaches mem satp va { addr := firstSlot satp va, pte := pte, large := true }
  | table (pointer pte : Word) (read : memoryRead32 mem (firstSlot satp va) = some pointer)
      (valid : pointer &&& pteV ≠ 0) (pointerShape : pointer &&& (pteR ||| pteX) = 0)
      (second : memoryRead32 mem (secondSlot pointer va) = some pte)
      (leafValid : pte &&& pteV ≠ 0) (leafShape : pte &&& (pteR ||| pteX) ≠ 0) :
      Reaches mem satp va { addr := secondSlot pointer va, pte := pte, large := false }

theorem walk_reaches (mem : Memory) (satp va : Word) (leaf : Leaf)
    (found : walk mem satp va = some leaf) : Reaches mem satp va leaf := by
  simp only [walk] at found
  cases first : memoryRead32 mem (firstSlot satp va) with
  | none =>
    rw [first] at found
    cases found
  | some pte =>
    rw [first] at found
    dsimp only at found
    split at found
    · cases found
    · rename_i valid
      split at found
      · rename_i leafShape
        split at found
        · cases found
        · rename_i unaligned
          cases found
          exact .root pte first valid leafShape (not_not.mp unaligned)
      · rename_i pointerShape
        cases second : memoryRead32 mem (secondSlot pte va) with
        | none =>
          rw [second] at found
          cases found
        | some inner =>
          rw [second] at found
          dsimp only at found
          split at found
          · cases found
          · rename_i innerValid
            split at found
            · cases found
            · rename_i innerLeaf
              cases found
              exact .table pte inner first valid (not_not.mp pointerShape) second innerValid
                innerLeaf

theorem reaches_walk (mem : Memory) (satp va : Word) (leaf : Leaf)
    (reached : Reaches mem satp va leaf) : walk mem satp va = some leaf := by
  cases reached with
  | root pte read valid leafShape superpage =>
    rw [walk, read]
    dsimp only
    rw [if_neg valid, if_pos leafShape, if_neg (not_not.mpr superpage)]
  | table pointer pte read valid pointerShape second leafValid leafShape =>
    rw [walk, read]
    dsimp only
    rw [if_neg valid, if_neg (not_not.mpr pointerShape), second]
    dsimp only
    rw [if_neg leafValid, if_neg leafShape]

/-- A found leaf is a valid leaf entry stored at its address. -/
theorem walk_found (mem : Memory) (satp va : Word) (leaf : Leaf)
    (found : walk mem satp va = some leaf) :
    memoryRead32 mem leaf.addr = some leaf.pte ∧ leaf.pte &&& pteV ≠ 0 ∧
      leaf.pte &&& (pteR ||| pteX) ≠ 0 ∧
      (leaf.large = true → (leaf.pte >>> 10) &&& 0x3FF = 0) := by
  cases walk_reaches mem satp va leaf found with
  | root pte read valid leafShape superpage => exact ⟨read, valid, leafShape, fun _ => superpage⟩
  | table pointer pte _ _ _ second leafValid leafShape =>
    exact ⟨second, leafValid, leafShape, fun large => Bool.noConfusion large⟩

/-- The page address of an entry is a multiple of the page size. -/
theorem ptePa_toNat (pte : Word) : (ptePa pte).toNat = pte.toNat / 2 ^ 10 % 2 ^ 20 * 4096 := by
  have bound : pte.toNat < 2 ^ 32 := pte.isLt
  rw [ptePa, BitVec.toNat_shiftLeft, BitVec.toNat_ushiftRight, Nat.shiftLeft_eq,
    Nat.shiftRight_eq_div_pow]
  omega

theorem rootTable_toNat (satp : Word) :
    (rootTable satp).toNat = satp.toNat % 2 ^ 20 * 4096 := by
  have masked : (satp &&& satpPpnMask).toNat = satp.toNat % 2 ^ 22 :=
    BitMasks.and_low satp 22 (by decide)
  rw [rootTable, BitVec.toNat_shiftLeft, Nat.shiftLeft_eq, masked]
  omega

/-- An index of ten bits times the entry size stays in a page. -/
theorem index_toNat (va : Word) (count : Nat) :
    ((va >>> count) &&& 0x3FF).toNat < 1024 := by
  have masked : ((va >>> count) &&& 0x3FF).toNat = (va >>> count).toNat % 2 ^ 10 :=
    BitMasks.and_low (va >>> count) 10 (by decide)
  rw [masked]
  exact Nat.mod_lt _ (by decide)

/-- An entry of a page-aligned table has the address counted from its page. -/
theorem slot_toNat (table index : Word) (page : table.toNat % 4096 = 0)
    (small : index.toNat < 1024) : (table + index * 4).toNat = table.toNat + 4 * index.toNat := by
  have bound : table.toNat < 2 ^ 32 := table.isLt
  rw [BitVec.toNat_add, BitVec.toNat_mul]
  change (table.toNat + index.toNat * 4 % 2 ^ 32) % 2 ^ 32 = table.toNat + 4 * index.toNat
  omega

theorem firstSlot_toNat (satp va : Word) :
    (firstSlot satp va).toNat =
      (rootTable satp).toNat + 4 * ((va >>> 22) &&& 0x3FF).toNat := by
  apply slot_toNat
  · rw [rootTable_toNat]
    omega
  · exact index_toNat va 22

theorem secondSlot_toNat (pointer va : Word) :
    (secondSlot pointer va).toNat =
      (ptePa pointer).toNat + 4 * ((va >>> 12) &&& 0x3FF).toNat := by
  apply slot_toNat
  · rw [ptePa_toNat]
    omega
  · exact index_toNat va 12

theorem firstSlot_aligned (satp va : Word) : Aligned (firstSlot satp va) := by
  rw [Aligned, firstSlot_toNat, rootTable_toNat]
  omega

theorem secondSlot_aligned (pointer va : Word) : Aligned (secondSlot pointer va) := by
  rw [Aligned, secondSlot_toNat, ptePa_toNat]
  omega

/-- Leaf entries are aligned words. -/
theorem walk_aligned (mem : Memory) (satp va : Word) (leaf : Leaf)
    (found : walk mem satp va = some leaf) : Aligned leaf.addr := by
  cases walk_reaches mem satp va leaf found with
  | root => exact firstSlot_aligned satp va
  | table pointer => exact secondSlot_aligned pointer va

/-! ## Accessed and dirty bits -/

/-- The two bits that a translation may turn on. -/
def adMask : Word := pteA ||| pteD

/-- The touched entry has gained only these bits. -/
theorem touched_gains (pte : Word) (acc : Access) : Gains adMask pte (pteTouched pte acc) := by
  cases acc with
  | fetch => exact ⟨pteA, rfl⟩
  | load => exact ⟨pteA, rfl⟩
  | store =>
    refine ⟨adMask, ?_⟩
    change (pte ||| pteA) ||| pteD = pte ||| (adMask &&& adMask)
    rw [BitVec.and_self, BitVec.or_assoc]
    rfl

/-- The bits `pte_allows` and the walk test lie outside the mask. -/
theorem gains_test (old new field : Word) (gained : Gains adMask old new)
    (disjoint : adMask &&& field = 0) : new &&& field = old &&& field :=
  gains_field adMask old new field gained disjoint

/-- The page number lies outside the mask. -/
theorem gains_ppn (old new : Word) (gained : Gains adMask old new) :
    new >>> 10 = old >>> 10 :=
  gains_shift adMask old new gained 10 (by decide)

/-- User code gets access through entries with the user bit alone. -/
theorem allowed_user (emu : Emulator) (pte : Word) (acc : Access) (user : emu.priv = privU)
    (allowed : pteAllows emu pte acc = true) : pte &&& pteU ≠ 0 := by
  intro kernel
  have refused : emu.priv = privU ∧ pte &&& pteU = 0 := ⟨user, kernel⟩
  simp only [pteAllows] at allowed
  rw [if_pos refused] at allowed
  split at allowed
  · cases allowed
  · split at allowed
    · cases allowed
    · cases allowed

/-- The permission test does not see the accessed and dirty bits. -/
theorem pteAllows_gains (emu : Emulator) (old new : Word) (acc : Access)
    (gained : Gains adMask old new) : pteAllows emu new acc = pteAllows emu old acc := by
  have readExec := gains_test old new (pteR ||| pteX) gained (by decide)
  have write := gains_test old new pteW gained (by decide)
  have read := gains_test old new pteR gained (by decide)
  have user := gains_test old new pteU gained (by decide)
  have exec := gains_test old new pteX gained (by decide)
  simp only [pteAllows, readExec, write, read, user, exec]

/-- The update of a leaf changes the memory alone. -/
def touchMemory (mem : Memory) (leaf : Leaf) (acc : Access) : Memory :=
  if pteTouched leaf.pte acc ≠ leaf.pte then
    (memoryWrite32 mem leaf.addr (pteTouched leaf.pte acc)).2
  else mem

theorem pteUpdateAd_eq (emu : Emulator) (leaf : Leaf) (acc : Access) :
    pteUpdateAd emu leaf.addr leaf.pte acc =
      { emu with mem := touchMemory emu.mem leaf acc } := by
  simp only [pteUpdateAd, touchMemory]
  split
  · rfl
  · rfl

/-- Touching a leaf marks the word it is stored in. -/
theorem touchMemory_marked (mem : Memory) (leaf : Leaf) (acc : Access)
    (aligned : Aligned leaf.addr) (stored : wordAt mem.data leaf.addr = leaf.pte) :
    Marked adMask (· = leaf.addr) mem.data (touchMemory mem leaf acc).data := by
  simp only [touchMemory]
  split
  · simp only [memoryWrite32]
    split
    · exact marked_refl adMask _ mem.data
    · apply marked_put adMask mem.data leaf.addr _ aligned
      rw [stored]
      exact touched_gains leaf.pte acc
  · exact marked_refl adMask _ mem.data

/-- A translation changes at most memory. -/
theorem mmuTranslate_frame (emu after : Emulator) (va pa : Word) (acc : Access)
    (translated : mmuTranslate emu va acc = (.ok pa, after)) :
    ∃ mem, after = withMem emu mem := by
  rcases mmuTranslate_ok emu after va pa acc translated with
    ⟨-, -, same⟩ | ⟨leaf, -, -, -, -, updated⟩
  · exact ⟨emu.mem, same⟩
  · rw [pteUpdateAd_eq] at updated
    exact ⟨touchMemory emu.mem leaf acc, updated⟩

/-- A read in range succeeds before and after the same updates. -/
theorem memoryRead32_sized (before after : Memory) (addr : Word) :
    memoryRead32 after addr = (memoryRead32 before addr).map (fun _ => wordAt after.data addr) := by
  have sizes : after.size = before.size := after.sized.trans before.sized.symm
  simp only [memoryRead32]
  rw [sizes]
  split
  · rfl
  · rfl

/-- A leaf whose word now reads differently. -/
def Leaf.reread (leaf : Leaf) (mem : Memory) : Leaf :=
  { leaf with pte := wordAt mem.data leaf.addr }

/-- The touched leaf, reread, is the entry that was stored. -/
theorem reread_touched (mem : Memory) (leaf : Leaf) (acc : Access)
    (read : memoryRead32 mem leaf.addr = some leaf.pte) :
    (leaf.reread (touchMemory mem leaf acc)).pte = pteTouched leaf.pte acc := by
  obtain ⟨inside, stored⟩ := memoryRead32_some mem leaf.addr leaf.pte read
  simp only [Leaf.reread, touchMemory]
  by_cases missing : pteTouched leaf.pte acc ≠ leaf.pte
  · rw [if_pos missing]
    simp only [memoryWrite32, if_neg inside]
    exact wordAt_putWord mem.data leaf.addr _
  · rw [if_neg missing, stored]
    exact (not_not.mp missing).symm

/-- After accessed and dirty updates anywhere, a walk finds the leaf it found
    before, reread. Each test of the walk reads bits outside the mask, and the
    pointer entry names the same table. -/
theorem walk_marked (before after : Memory) (marked : Word → Prop)
    (changed : Marked adMask marked before.data after.data) (satp va : Word) :
    walk after satp va = (walk before satp va).map (·.reread after) := by
  simp only [walk]
  rw [memoryRead32_sized before after (firstSlot satp va)]
  cases first : memoryRead32 before (firstSlot satp va) with
  | none => rfl
  | some pte =>
    obtain ⟨-, stored⟩ := memoryRead32_some before _ pte first
    have gained : Gains adMask pte (wordAt after.data (firstSlot satp va)) := by
      rw [← stored]
      exact changed.gains _ (firstSlot_aligned satp va)
    have valid := gains_test pte _ pteV gained (by decide)
    have shape := gains_test pte _ (pteR ||| pteX) gained (by decide)
    have number := gains_ppn pte _ gained
    have table : secondSlot (wordAt after.data (firstSlot satp va)) va = secondSlot pte va := by
      simp only [secondSlot, ptePa, number]
    simp only [Option.map_some, valid, shape, number, table]
    by_cases invalid : pte &&& pteV = 0
    · simp only [if_pos invalid, Option.map_none]
    · simp only [if_neg invalid]
      by_cases leafShape : pte &&& (pteR ||| pteX) ≠ 0
      · simp only [if_pos leafShape]
        by_cases misaligned : (pte >>> 10) &&& 0x3FF ≠ 0
        · simp only [if_pos misaligned, Option.map_none]
        · simp only [if_neg misaligned, Option.map_some, Leaf.reread]
      · simp only [if_neg leafShape]
        rw [memoryRead32_sized before after (secondSlot pte va)]
        cases second : memoryRead32 before (secondSlot pte va) with
        | none => rfl
        | some inner =>
          obtain ⟨-, innerStored⟩ := memoryRead32_some before _ inner second
          have innerGained : Gains adMask inner (wordAt after.data (secondSlot pte va)) := by
            rw [← innerStored]
            exact changed.gains _ (secondSlot_aligned pte va)
          have innerValid := gains_test inner _ pteV innerGained (by decide)
          have innerShape := gains_test inner _ (pteR ||| pteX) innerGained (by decide)
          simp only [Option.map_some, innerValid, innerShape]
          by_cases innerInvalid : inner &&& pteV = 0
          · simp only [if_pos innerInvalid, Option.map_none]
          · simp only [if_neg innerInvalid]
            by_cases innerPointer : inner &&& (pteR ||| pteX) = 0
            · simp only [if_pos innerPointer, Option.map_none]
            · simp only [if_neg innerPointer, Option.map_some, Leaf.reread]

end RvEmu.PageWalk
