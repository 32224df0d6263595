import RvEmu.Sv32

/-!
# The path of a walk

A translation computes at most three addresses: those of the entries it reads, one
or two, and the address it returns. The path lists them, each with the page
number and the displacement it is made of, and the walk depends on memory through
the entries on its path alone.

Two rules about the path fail in the walker. An entry that is writable and not
readable is reserved: as a leaf it is refused at both levels, but one that is not
executable either has the shape of a pointer, and the walk goes on through it.
Page numbers have 22 bits and addresses 32, so an address on the path is exact
when its page number is below 2^20, and otherwise an alias of low memory.
-/

namespace RvEmu.WalkPath

open PageWalk PageTables PageIntegrity Sv32

/-! ## Reads -/

/-- An address on the path of a walk: the number of its page, the displacement in the
    page, and the 32-bit address that is used. -/
structure Computed where
  page : Nat
  displacement : Nat
  used : Word

/-- The address in full. -/
def Computed.full (computed : Computed) : Nat := computed.page * 4096 + computed.displacement

/-- The entry of the root table for an address. -/
def rootEntry (satp va : Word) : Computed where
  page := satp.toNat % 2 ^ 22
  displacement := 4 * (va.toNat / 2 ^ 22)
  used := firstSlot satp va

/-- The entry for it in the table that a pointer names. -/
def tableEntry (pointer va : Word) : Computed where
  page := pageNumber pointer
  displacement := 4 * (va.toNat / 2 ^ 12 % 2 ^ 10)
  used := secondSlot pointer va

/-- The entries that a translation reads, in order. The second is read even when it
    lies outside memory, and the read then fails. -/
def walkReads (mem : Memory) (satp va : Word) : List Computed :=
  match memoryRead32 mem (firstSlot satp va) with
  | none => [rootEntry satp va]
  | some pte =>
    if pte &&& pteV = 0 ∨ pte &&& (pteR ||| pteX) ≠ 0 then [rootEntry satp va]
    else [rootEntry satp va, tableEntry pte va]

/-- The root entry is read first. -/
theorem root_read_first (mem : Memory) (satp va : Word) :
    ∃ rest, walkReads mem satp va = rootEntry satp va :: rest := by
  simp only [walkReads]
  split
  · exact ⟨[], rfl⟩
  · split
    · exact ⟨[], rfl⟩
    · exact ⟨_, rfl⟩

/-- A walk reads one or two entries. -/
theorem walkReads_length (mem : Memory) (satp va : Word) :
    (walkReads mem satp va).length ≤ 2 := by
  simp only [walkReads]
  split
  · exact Nat.le_succ 1
  · split
    · exact Nat.le_succ 1
    · exact Nat.le_refl 2

/-- A second read goes to the table that a valid pointer in the root names. -/
theorem second_read (mem : Memory) (satp va : Word) (read : Computed)
    (member : read ∈ walkReads mem satp va) :
    read = rootEntry satp va ∨
      ∃ pointer, memoryRead32 mem (firstSlot satp va) = some pointer ∧ pointer &&& pteV ≠ 0 ∧
        pointer &&& (pteR ||| pteX) = 0 ∧ read = tableEntry pointer va := by
  cases first : memoryRead32 mem (firstSlot satp va) with
  | none =>
    simp only [walkReads, first, List.mem_singleton] at member
    exact Or.inl member
  | some pte =>
    simp only [walkReads, first] at member
    split at member
    · exact Or.inl (List.mem_singleton.mp member)
    · rename_i follows
      obtain ⟨valid, shape⟩ := not_or.mp follows
      rcases List.mem_cons.mp member with same | below
      · exact Or.inl same
      · exact Or.inr ⟨pte, rfl, valid, not_not.mp shape, List.mem_singleton.mp below⟩

/-- The walk depends on memory through its reads alone. -/
theorem walkReads_congr (left right : Memory) (satp va : Word)
    (same : ∀ read, read ∈ walkReads left satp va →
      memoryRead32 right read.used = memoryRead32 left read.used) :
    walk right satp va = walk left satp va ∧
      walkReads right satp va = walkReads left satp va := by
  obtain ⟨rest, reads⟩ := root_read_first left satp va
  have root : memoryRead32 right (firstSlot satp va) = memoryRead32 left (firstSlot satp va) :=
    same (rootEntry satp va) (reads ▸ List.mem_cons_self)
  simp only [walk, walkReads, root] at same ⊢
  cases first : memoryRead32 left (firstSlot satp va) with
  | none => exact ⟨rfl, trivial⟩
  | some pte =>
    simp only [first] at same
    refine ⟨?_, trivial⟩
    dsimp only
    by_cases invalid : pte &&& pteV = 0
    · rw [if_pos invalid, if_pos invalid]
    · by_cases leafShape : pte &&& (pteR ||| pteX) ≠ 0
      · rw [if_neg invalid, if_pos leafShape, if_neg invalid, if_pos leafShape]
      · rw [if_neg (not_or.mpr ⟨invalid, leafShape⟩)] at same
        have table : memoryRead32 right (secondSlot pte va) =
            memoryRead32 left (secondSlot pte va) :=
          same (tableEntry pte va) (List.mem_cons_of_mem _ List.mem_cons_self)
        rw [if_neg invalid, if_neg leafShape, if_neg invalid, if_neg leafShape, table]

/-- The leaf of a walk is the entry read last: the root entry, or the one in the table
    that the root entry names. -/
theorem leaf_read (mem : Memory) (satp va : Word) (leaf : Leaf)
    (found : walk mem satp va = some leaf) :
    ∃ root, memoryRead32 mem (firstSlot satp va) = some root ∧
      ((root &&& (pteR ||| pteX) ≠ 0 ∧ leaf.pte = root ∧
          walkReads mem satp va = [rootEntry satp va]) ∨
        (root &&& pteV ≠ 0 ∧ root &&& (pteR ||| pteX) = 0 ∧
          memoryRead32 mem (secondSlot root va) = some leaf.pte ∧
          walkReads mem satp va = [rootEntry satp va, tableEntry root va])) := by
  cases walk_reaches mem satp va leaf found with
  | root pte read _ leafShape _ =>
    refine ⟨pte, read, Or.inl ⟨leafShape, rfl, ?_⟩⟩
    simp only [walkReads, read]
    rw [if_pos (Or.inr leafShape)]
  | table pointer pte read valid pointerShape second _ _ =>
    refine ⟨pointer, read, Or.inr ⟨valid, pointerShape, second, ?_⟩⟩
    simp only [walkReads, read]
    rw [if_neg (not_or.mpr ⟨valid, not_not.mpr pointerShape⟩)]

/-! ## Reserved entries -/

/-- The reserved encoding: valid and writable, and not readable. -/
def Reserved (pte : Word) : Prop :=
  valid pte = true ∧ writable pte = true ∧ readable pte = false

instance (pte : Word) : Decidable (Reserved pte) :=
  inferInstanceAs (Decidable (valid pte = true ∧ writable pte = true ∧ readable pte = false))

/-- A translation that reads a reserved entry ends there with a page fault and changes
    nothing. -/
structure ReservedRefused (emu : Emulator) (va : Word) (acc : Access) : Prop where
  faults : ∀ read, read ∈ walkReads emu.mem emu.csr.satp va → ∀ pte,
    memoryRead32 emu.mem read.used = some pte → Reserved pte →
    mmuTranslate emu va acc = (.error (pageFault acc), emu)
  notFollowed : ∀ before read after, walkReads emu.mem emu.csr.satp va = before ++ read :: after →
    ∀ pte, memoryRead32 emu.mem read.used = some pte → Reserved pte → after = []

/-- The permission test refuses a reserved leaf. -/
theorem reserved_refused (emu : Emulator) (pte : Word) (acc : Access) (reserved : Reserved pte) :
    pteAllows emu pte acc = false := by
  obtain ⟨-, writes, reads⟩ := reserved
  have named : pte &&& pteW ≠ 0 ∧ pte &&& pteR = 0 := by
    rw [Ne, writable_mask, readable_mask, writes]
    exact ⟨by decide, reads⟩
  simp only [pteAllows]
  rw [if_pos named, ite_self]

/-- A translation whose leaf is reserved, or that finds no leaf, faults. -/
theorem refused_faults (emu : Emulator) (va : Word) (acc : Access) (paged : ¬ Bare emu)
    (reserved : ∀ leaf, walk emu.mem emu.csr.satp va = some leaf → Reserved leaf.pte) :
    mmuTranslate emu va acc = (.error (pageFault acc), emu) := by
  rw [mmuTranslate_eq, if_neg paged, ← faultCause_code acc]
  cases found : walk emu.mem emu.csr.satp va with
  | none => rfl
  | some leaf =>
    have refused := reserved_refused emu leaf.pte acc (reserved leaf found)
    dsimp only
    rw [refused]
    rfl

/-- A reserved entry has the shape of a leaf when it is executable, and otherwise that
    of a pointer. -/
theorem reserved_shape (pte : Word) (reserved : Reserved pte) :
    pte &&& (pteR ||| pteX) ≠ 0 ↔ executable pte = true := by
  rw [Ne, leaf_mask, reserved.2.2]
  simp

/-- A reserved entry with the shape of a pointer is followed. -/
theorem pointer_followed (mem : Memory) (satp va pte : Word)
    (stored : memoryRead32 mem (firstSlot satp va) = some pte) (reserved : Reserved pte)
    (pointer : executable pte = false) :
    walkReads mem satp va = [rootEntry satp va, tableEntry pte va] := by
  have valid : ¬ pte &&& pteV = 0 := by
    rw [valid_mask, reserved.1]
    decide
  have shape : ¬ pte &&& (pteR ||| pteX) ≠ 0 := by
    rw [reserved_shape pte reserved, pointer]
    decide
  simp only [walkReads, stored]
  rw [if_neg (not_or.mpr ⟨valid, shape⟩)]

section Shaped

variable (mem : Memory) (satp va : Word)
  (leafShape : ∀ pte, memoryRead32 mem (firstSlot satp va) = some pte → Reserved pte →
    pte &&& (pteR ||| pteX) ≠ 0)
include leafShape

/-- When a reserved root entry has the shape of a leaf, a walk that reads a reserved entry
    finds none but that one. -/
theorem reserved_leaf (read : Computed) (member : read ∈ walkReads mem satp va) (pte : Word)
    (stored : memoryRead32 mem read.used = some pte) (reserved : Reserved pte) (leaf : Leaf)
    (found : walk mem satp va = some leaf) : Reserved leaf.pte := by
  obtain ⟨root, first, ⟨-, same, reads⟩ | ⟨-, pointer, second, reads⟩⟩ :=
    leaf_read mem satp va leaf found
  · rw [reads, List.mem_singleton] at member
    subst member
    rw [same, ← Option.some.inj (stored.symm.trans first)]
    exact reserved
  · rw [reads, List.mem_cons, List.mem_singleton] at member
    rcases member with same | same
    · subst same
      rw [← Option.some.inj (stored.symm.trans first)] at pointer
      exact absurd pointer (leafShape pte stored reserved)
    · subst same
      rw [← Option.some.inj (stored.symm.trans second)]
      exact reserved

/-- And nothing is read after it. -/
theorem reserved_last (before after : List Computed) (read : Computed)
    (reads : walkReads mem satp va = before ++ read :: after) (pte : Word)
    (stored : memoryRead32 mem read.used = some pte) (reserved : Reserved pte) : after = [] := by
  cases before with
  | nil =>
    obtain ⟨rest, first⟩ := root_read_first mem satp va
    obtain ⟨same, -⟩ := List.cons.inj (reads.symm.trans first)
    subst same
    have ends : walkReads mem satp va = [rootEntry satp va] := by
      have root : memoryRead32 mem (firstSlot satp va) = some pte := stored
      simp only [walkReads, root]
      rw [if_pos (Or.inr (leafShape pte root reserved))]
    exact (List.cons.inj (reads.symm.trans ends)).2
  | cons root before =>
    have length := congrArg List.length reads
    rw [List.length_append, List.length_cons, List.length_cons] at length
    have short := walkReads_length mem satp va
    exact List.eq_nil_of_length_eq_zero (by omega)

end Shaped

/-- Below machine level with translation on, reserved entries are refused exactly when
    the root entry of the address is not reserved with the shape of a pointer. -/
theorem reserved_iff (emu : Emulator) (va : Word) (acc : Access)
    (below : emu.priv = privU ∨ emu.priv = privS) (mode : emu.csr.satp.getLsbD 31 = true) :
    ReservedRefused emu va acc ↔
      ¬ ∃ pte, memoryRead32 emu.mem (firstSlot emu.csr.satp va) = some pte ∧ Reserved pte ∧
        executable pte = false := by
  constructor
  · rintro ⟨-, notFollowed⟩ ⟨pte, stored, reserved, pointer⟩
    have reads := pointer_followed emu.mem emu.csr.satp va pte stored reserved pointer
    have ended := notFollowed [] _ _ reads pte stored reserved
    cases ended
  · intro shaped
    -- A reserved root entry is executable, so the walk ends with it.
    have leafShape : ∀ pte, memoryRead32 emu.mem (firstSlot emu.csr.satp va) = some pte →
        Reserved pte → pte &&& (pteR ||| pteX) ≠ 0 := by
      intro pte stored reserved
      rw [reserved_shape pte reserved]
      by_contra pointer
      exact shaped ⟨pte, stored, reserved, Bool.eq_false_iff.mpr pointer⟩
    constructor
    · intro read member pte stored reserved
      apply refused_faults emu va acc (paged_below emu below mode)
      exact reserved_leaf emu.mem emu.csr.satp va leafShape read member pte stored reserved
    · intro before read after
      exact reserved_last emu.mem emu.csr.satp va leafShape before after read

/-- A load whose root entry, of number 2 and flags valid and writable, leads to a leaf. -/
def reservedPointer : Emulator := superpageState 0x805 0x1F 0

/-- The exact condition for it. -/
theorem reservedPointer_refused :
    ReservedRefused reservedPointer 0x700 .load ↔
      ¬ ∃ pte, memoryRead32 reservedPointer.mem (firstSlot reservedPointer.csr.satp 0x700) =
        some pte ∧ Reserved pte ∧ executable pte = false :=
  reserved_iff reservedPointer 0x700 .load (Or.inl rfl) (by decide)

/-- The walk follows the reserved entry, and the translation succeeds. -/
theorem reserved_followed :
    (memoryRead32 reservedPointer.mem 0x1000 = some 0x805 ∧ Reserved 0x805 ∧
        (mmuTranslate reservedPointer 0x700 .load).1 = .ok 0x700) ∧
      ¬ ∀ emu va acc, (emu.priv = privU ∨ emu.priv = privS) →
        emu.csr.satp.getLsbD 31 = true → ReservedRefused emu va acc := by
  have stored : memoryRead32 reservedPointer.mem 0x1000 = some 0x805 := by decide +kernel
  have reserved : Reserved 0x805 := by decide
  have paged : ¬ Bare reservedPointer := paged_below reservedPointer (Or.inl rfl) (by decide)
  have translated : (mmuTranslate reservedPointer 0x700 .load).1 = .ok 0x700 :=
    (translates_walk reservedPointer 0x700 0x700 .load paged).mpr
      ⟨{ addr := 0x2000, pte := 0x1F, large := false }, by decide +kernel, by decide +kernel,
        by decide⟩
  refine ⟨⟨stored, reserved, translated⟩, ?_⟩
  intro always
  have refused := always reservedPointer 0x700 .load (Or.inl rfl) (by decide)
  obtain ⟨rest, reads⟩ := root_read_first reservedPointer.mem reservedPointer.csr.satp 0x700
  have faulted := refused.faults (rootEntry reservedPointer.csr.satp 0x700)
    (reads ▸ List.mem_cons_self) 0x805 stored reserved
  rw [faulted] at translated
  cases translated

/-! ## Physical addresses -/

/-- The address that a leaf gives. -/
def leafAddress (leaf : Leaf) (va : Word) : Computed where
  page := pageNumber leaf.pte
  displacement := va.toNat % extent leaf
  used := leaf.target va

/-- The addresses on the path of a translation: its reads, and the address of the leaf
    it finds. -/
def walkAddresses (mem : Memory) (satp va : Word) : List Computed :=
  walkReads mem satp va ++ ((walk mem satp va).map (leafAddress · va)).toList

/-- The 32-bit address keeps the low twenty bits of the page number. -/
theorem used_toNat (mem : Memory) (satp va : Word) (computed : Computed)
    (member : computed ∈ walkAddresses mem satp va) :
    computed.used.toNat = computed.page % 2 ^ 20 * 4096 + computed.displacement := by
  rcases List.mem_append.mp member with read | leaf
  · rcases second_read mem satp va computed read with same | ⟨pointer, -, -, -, same⟩
    · subst same
      change (firstSlot satp va).toNat = _
      rw [firstSlot_toNat, rootTable_toNat, firstIndex_toNat]
      simp only [rootEntry]
      omega
    · subst same
      change (secondSlot pointer va).toNat = _
      rw [secondSlot_toNat, ptePa_toNat, secondIndex_toNat]
      rfl
  · cases found : walk mem satp va with
    | none =>
      rw [found] at leaf
      cases leaf
    | some entry =>
      rw [found, Option.map_some, Option.toList_some, List.mem_singleton] at leaf
      subst leaf
      obtain ⟨-, -, -, superpage⟩ := walk_found mem satp va entry found
      exact target_toNat entry va superpage

/-- The 32-bit address is the address in full exactly when the page number fits. -/
theorem used_full_iff (mem : Memory) (satp va : Word) (computed : Computed)
    (member : computed ∈ walkAddresses mem satp va) :
    computed.full = computed.used.toNat ↔ computed.page < 2 ^ 20 := by
  rw [Computed.full, used_toNat mem satp va computed member]
  omega

/-- A translation that succeeds below machine level returns the address of its leaf, and
    every address on its path is exact if and only if every page number on it is below
    2^20. -/
theorem exact_iff (emu after : Emulator) (va pa : Word) (acc : Access)
    (below : emu.priv = privU ∨ emu.priv = privS) (mode : emu.csr.satp.getLsbD 31 = true)
    (translated : mmuTranslate emu va acc = (.ok pa, after)) :
    (∃ leaf, walk emu.mem emu.csr.satp va = some leaf ∧ (leafAddress leaf va).used = pa) ∧
      ((∀ computed, computed ∈ walkAddresses emu.mem emu.csr.satp va →
          computed.full = computed.used.toNat) ↔
        ∀ computed, computed ∈ walkAddresses emu.mem emu.csr.satp va →
          computed.page < 2 ^ 20) := by
  constructor
  · rcases mmuTranslate_ok emu after va pa acc translated with
      ⟨bare, -⟩ | ⟨leaf, -, found, -, target, -⟩
    · exact absurd bare (paged_below emu below mode)
    · exact ⟨leaf, found, target.symm⟩
  · constructor
    · intro same computed member
      exact (used_full_iff emu.mem emu.csr.satp va computed member).mp (same computed member)
    · intro low computed member
      exact (used_full_iff emu.mem emu.csr.satp va computed member).mpr (low computed member)

/-- A load through a superpage of number 2^20. -/
def highPage : Emulator := superpageState 0x4000001F 0 0

/-- The load reaches 0x700. -/
theorem highPage_translates : (mmuTranslate highPage 0x700 .load).1 = .ok 0x700 :=
  (translates_walk highPage 0x700 0x700 .load (paged_below highPage (Or.inl rfl) (by decide))).mpr
    ⟨{ addr := 0x1000, pte := 0x4000001F, large := true }, by decide +kernel, by decide +kernel,
      by decide⟩

/-- The exact condition for it. -/
theorem highPage_exact :
    (∃ leaf, walk highPage.mem highPage.csr.satp 0x700 = some leaf ∧
        (leafAddress leaf 0x700).used = 0x700) ∧
      ((∀ computed, computed ∈ walkAddresses highPage.mem highPage.csr.satp 0x700 →
          computed.full = computed.used.toNat) ↔
        ∀ computed, computed ∈ walkAddresses highPage.mem highPage.csr.satp 0x700 →
          computed.page < 2 ^ 20) :=
  exact_iff highPage (mmuTranslate highPage 0x700 .load).2 0x700 0x700 .load (Or.inl rfl)
    (by decide) (Prod.ext highPage_translates rfl)

/-- The physical address of the load is 2^32 + 0x700, and it reaches 0x700. -/
theorem highPage_aliased :
    ((walk highPage.mem highPage.csr.satp 0x700).map (fun leaf => (leafAddress leaf 0x700).full) =
          some (2 ^ 32 + 0x700) ∧
        (mmuTranslate highPage 0x700 .load).1 = .ok 0x700) ∧
      ¬ ∀ emu after va pa acc, (emu.priv = privU ∨ emu.priv = privS) →
        emu.csr.satp.getLsbD 31 = true → mmuTranslate emu va acc = (.ok pa, after) →
        ∀ computed, computed ∈ walkAddresses emu.mem emu.csr.satp va →
          computed.full = computed.used.toNat := by
  have full : (walk highPage.mem highPage.csr.satp 0x700).map
      (fun leaf => (leafAddress leaf 0x700).full) = some (2 ^ 32 + 0x700) := by
    decide +kernel
  refine ⟨⟨full, highPage_translates⟩, ?_⟩
  intro always
  cases found : walk highPage.mem highPage.csr.satp 0x700 with
  | none =>
    rw [found] at full
    cases full
  | some leaf =>
    have member : leafAddress leaf 0x700 ∈
        walkAddresses highPage.mem highPage.csr.satp 0x700 := by
      rw [walkAddresses, found]
      exact List.mem_append_right _ (List.mem_singleton_self _)
    have same := always highPage (mmuTranslate highPage 0x700 .load).2 0x700 0x700 .load
      (Or.inl rfl) (by decide) (Prod.ext highPage_translates rfl) _ member
    rw [found] at full
    have beyond : (leafAddress leaf 0x700).full = 2 ^ 32 + 0x700 := Option.some.inj full
    have bound := (leafAddress leaf 0x700).used.isLt
    omega

end RvEmu.WalkPath
