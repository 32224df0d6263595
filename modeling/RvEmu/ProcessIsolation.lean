import RvEmu.AddressSpaces
import RvEmu.Confinement
import RvEmu.PageSecrecy

/-!
# Isolation of user processes

What one user step may write and read is known from the tables of the state it starts in.
In a sealed address space these tables stay the same up to accessed and dirty bits, so the
bounds for one step hold for any number of them, in terms of the tables at the start.

Pages are meant with their 32-bit aliases throughout: a leaf whose page number needs more
than twenty bits reaches the page that its low twenty bits name, and no other.

Two address spaces are apart when no byte that one shows belongs to the tables of the
other or to a page that the other may write. A process that runs in the other then does
not show in the first, however long both run.
-/

namespace RvEmu.ProcessIsolation

open LittleEndian WordMarks PageWalk PageTables ExecOutcome StepAnatomy MemoryAgreement
open PageIntegrity PageSecrecy Confinement AddressSpaces

/-! ## One user step -/

/-- The registers that decide where a trap goes and how addresses translate. -/
structure SameControl (before after : Csr) : Prop where
  satp : after.satp = before.satp
  stvec : after.stvec = before.stvec
  mtvec : after.mtvec = before.mtvec
  mie : after.mie = before.mie
  medeleg : after.medeleg = before.medeleg
  mideleg : after.mideleg = before.mideleg

/-- Entering a handler records the trap and leaves these registers alone. -/
theorem trap_control (emu : Emulator) (mem : Memory) (cause tval epc : Word) (after : Emulator)
    (raised : trapRaise (ticked emu mem) cause tval epc = (true, after)) :
    SameControl emu.csr (counted after).csr := by
  obtain ⟨mip, csr⟩ := ticked_csr emu mem
  rcases trapRaise_cases _ after _ _ _ raised with ⟨-, -, rfl⟩ | ⟨-, -, rfl⟩
  · simp only [counted, enterSupervisor, csr]
    exact ⟨rfl, rfl, rfl, rfl, rfl, rfl⟩
  · simp only [counted, enterMachine, csr]
    exact ⟨rfl, rfl, rfl, rfl, rfl, rfl⟩

/-- No user step changes them, whether it completes, traps or fails. -/
theorem user_control (host : HostFloat) (emu : Emulator) (user : emu.priv = privU) :
    SameControl emu.csr (emuStep host emu).2.csr := by
  have shape := step_shape host emu
  generalize emuStep host emu = result at shape
  cases shape with
  | interrupted after taken =>
    obtain ⟨raised, -⟩ := taken_state emu after _ taken
    rw [← ticked_same] at raised
    exact trap_control emu emu.mem _ _ _ after raised
  | trapped mem cause tval after touched code raised =>
    exact trap_control emu mem _ _ _ after raised
  | failed mem touched =>
    obtain ⟨mip, csr⟩ := ticked_csr emu mem
    simp only [csr]
    exact ⟨rfl, rfl, rfl, rfl, rfl, rfl⟩
  | retired mem inst after nextPc effect came touched outcome =>
    have level : (ticked emu mem).priv = privU := by
      rw [ticked_priv]
      exact user
    obtain ⟨-, machine, supervisor⟩ :=
      retired_confined (ticked emu mem) after inst nextPc effect (Or.inl level) outcome
    have kept := supervisor level
    obtain ⟨mip, csr⟩ := ticked_csr emu mem
    rw [csr] at machine kept
    exact ⟨kept.satp, kept.stvec, machine.mtvec, machine.mie, machine.medeleg, machine.mideleg⟩

/-- A user step in a sealed address space changes bytes that user code may write and,
    by accessed and dirty bits turned on, words of the tables. -/
theorem user_memory (host : HostFloat) (emu : Emulator) (user : emu.priv = privU)
    (space : AddressSpace emu.mem emu.csr.satp) :
    TablesGained emu.csr.satp emu.mem (emuStep host emu).2.mem ∧
      ∀ index, (emuStep host emu).2.mem.data index ≠ emu.mem.data index →
        InWritableAlias emu index ∨ TableByte emu.mem emu.csr.satp index := by
  have places : OnlyIn InWritableAlias emu (emuStep host emu).2.mem := by
    intro index differs
    rcases step_writes host emu user space.paged with
      unwritten | ⟨va, leaf, -, found, -, writable, written⟩
    · exact Or.inr ((unwritten index differs).resolve_left id)
    · rcases written index differs with aliased | marked
      · exact Or.inl ⟨leaf, walk_leafOf emu.mem emu.csr.satp va leaf space.inside found, writable,
          aliased⟩
      · exact Or.inr marked
  constructor
  · intro addr aligned inTables
    by_cases same : ∀ index, Spans addr 4 index →
        (emuStep host emu).2.mem.data index = emu.mem.data index
    · rw [wordAt_congr _ _ addr same]
      exact gains_refl adMask _
    · obtain ⟨index, rest⟩ := not_forall.mp same
      obtain ⟨member, differs⟩ := Classical.not_imp.mp rest
      rcases places index differs with ⟨leaf, leafOf, writable, aliased⟩ | ⟨-, gained⟩
      · have inside := tableByte_spans emu.mem _ addr index aligned inTables member
        exact absurd inside (space.closed leaf index leafOf writable aliased)
      · rw [base_unique addr index aligned member] at gained
        exact gained
  · intro index differs
    rcases places index differs with writable | ⟨⟨-, access, -, leaf, found, stored⟩, -⟩
    · exact Or.inl writable
    · have leafOf := walk_leafOf emu.mem emu.csr.satp access.1 leaf space.inside found
      obtain ⟨-, inTables⟩ := leafOf_stored emu.mem emu.csr.satp leaf space.inside leafOf
      have page := base_toNat index
      rw [stored] at inTables
      exact Or.inr (tableByte_page emu.mem _ (base index) index inTables (by omega))

/-- What the store of a user step translates to lies in a page that user code may write. -/
theorem user_store (emu : Emulator) (user : emu.priv = privU)
    (space : AddressSpace emu.mem emu.csr.satp) (ready after : Emulator) (inst : DecodedInst)
    (va pa : Word) (came : issued emu = some (ready, inst))
    (asks : dataAccess ready inst = some (va, .store))
    (translated : mmuTranslate ready va .store = (.ok pa, after)) : InWritableAlias emu pa := by
  obtain ⟨-, -, -, -, mem, rfl, touched⟩ := issued_front emu ready inst came
  have wider := touched_fetch emu mem inst came touched
  have member := data_member emu mem inst (va, .store) came asks
  obtain ⟨later, -, -, resolves⟩ :=
    ticked_translate emu after mem _ va pa .store wider member translated
  rcases resolves with ⟨machine | bare, -⟩ | ⟨leaf, -, found, allowed, target⟩
  · rw [user] at machine
    cases machine
  · exact absurd bare space.paged
  · obtain ⟨-, -, -, superpage⟩ := walk_found emu.mem emu.csr.satp va leaf found
    refine ⟨leaf, walk_leafOf emu.mem emu.csr.satp va leaf space.inside found,
      store_allowed emu emu.mem emu.csr.satp va leaf user found allowed, ?_⟩
    rw [target]
    exact target_alias leaf va superpage

/-! ## Runs of user steps -/

/-- The first `n` steps of the run start at user level. -/
def UserRun (host : HostFloat) (start : Emulator) (n : Nat) : Prop :=
  ∀ k, k < n → (stateAfter host start k).priv = privU

/-- What a user run keeps of its start: the control registers, the tables up to accessed
    and dirty bits, and every byte outside them that user code may not write. -/
structure Kept (start now : Emulator) : Prop where
  control : SameControl start.csr now.csr
  tables : TablesGained start.csr.satp start.mem now.mem
  only : ∀ index, now.mem.data index ≠ start.mem.data index →
    InWritableAlias start index ∨ TableByte start.mem start.csr.satp index

theorem kept_refl (start : Emulator) : Kept start start where
  control := ⟨rfl, rfl, rfl, rfl, rfl, rfl⟩
  tables := gained_refl start.csr.satp start.mem
  only := fun _ differs => absurd rfl differs

/-- A kept state has the address space of the start. -/
theorem kept_space (start now : Emulator) (space : AddressSpace start.mem start.csr.satp)
    (kept : Kept start now) : AddressSpace now.mem now.csr.satp := by
  rw [kept.control.satp]
  exact gained_space start.csr.satp start.mem now.mem space kept.tables

/-- What user code may write in a kept state, it might write at the start. -/
theorem kept_writable (start now : Emulator) (space : AddressSpace start.mem start.csr.satp)
    (kept : Kept start now) (index : Word) (writable : InWritableAlias now index) :
    InWritableAlias start index := by
  obtain ⟨leaf, leafOf, allowed, aliased⟩ := writable
  rw [kept.control.satp] at leafOf
  obtain ⟨pte, old, same⟩ :=
    gained_leaf start.csr.satp start.mem now.mem space.inside kept.tables leaf leafOf
  exact ⟨{ leaf with pte := pte }, old, same.writable.mp allowed, same_alias leaf pte index same
    aliased⟩

/-- The next user step keeps what the steps before it kept. -/
theorem kept_step (host : HostFloat) (start now : Emulator)
    (space : AddressSpace start.mem start.csr.satp) (user : now.priv = privU)
    (kept : Kept start now) : Kept start (emuStep host now).2 := by
  have control := user_control host now user
  obtain ⟨tables, only⟩ := user_memory host now user (kept_space start now space kept)
  rw [kept.control.satp] at tables only
  constructor
  case control =>
    exact ⟨control.satp.trans kept.control.satp, control.stvec.trans kept.control.stvec,
      control.mtvec.trans kept.control.mtvec, control.mie.trans kept.control.mie,
      control.medeleg.trans kept.control.medeleg, control.mideleg.trans kept.control.mideleg⟩
  case tables => exact gained_trans _ start.mem now.mem _ space.inside kept.tables tables
  case only =>
    intro index differs
    by_cases here : (emuStep host now).2.mem.data index = now.mem.data index
    · rw [here] at differs
      exact kept.only index differs
    · rcases only index here with writable | inTables
      · exact Or.inl (kept_writable start now space kept index writable)
      · exact Or.inr
          ((gained_bytes _ start.mem now.mem space.inside kept.tables index).mp inTables)

/-- A user run of any length keeps it. -/
theorem user_run_kept (host : HostFloat) (start : Emulator) (n : Nat)
    (space : AddressSpace start.mem start.csr.satp) (user : UserRun host start n) :
    Kept start (stateAfter host start n) := by
  apply Runs.carried (emuStep host) (Kept start) start 0 n (Nat.zero_le n) (kept_refl start)
  intro k _ below kept
  exact kept_step host start _ space (user k below) kept

/-! ## Integrity over a run -/

/-- Every leaf for user code names a page with a 32-bit address. -/
def UserAddressable (emu : Emulator) : Prop :=
  ∀ leaf, LeafOf emu.mem emu.csr.satp leaf → leaf.pte &&& pteU ≠ 0 → Addressable leaf

/-- The byte was changed by accessed and dirty bits of the tables. -/
def TableMarked (start now : Emulator) (index : Word) : Prop :=
  TableByte start.mem start.csr.satp index ∧
    Gains adMask (wordAt start.mem.data (base index)) (wordAt now.mem.data (base index))

/-- What user code did to memory: it changed bytes in the 32-bit aliases of the pages it
    could write at the start, which are these pages where they have 32-bit addresses, and
    accessed and dirty bits of the tables, and every address translates as it did. -/
structure RunIntegrity (start now : Emulator) : Prop where
  bytes : ∀ index, now.mem.data index ≠ start.mem.data index →
    InWritableAlias start index ∨ TableMarked start now index
  pages : UserAddressable start → ∀ index, now.mem.data index ≠ start.mem.data index →
    InWritablePage start index ∨ TableMarked start now index
  satp : now.csr.satp = start.csr.satp
  translations : ∀ va acc,
    (mmuTranslate (withMem start now.mem) va acc).1 = (mmuTranslate start va acc).1

/-- In a sealed address space, user code that runs for any number of steps keeps to the
    aliases of the pages it could write at the start, and its address space stays the same. -/
theorem user_run_integrity (host : HostFloat) (start : Emulator) (n : Nat)
    (space : AddressSpace start.mem start.csr.satp) (user : UserRun host start n) :
    RunIntegrity start (stateAfter host start n) := by
  have kept := user_run_kept host start n space user
  have bytes : ∀ index, (stateAfter host start n).mem.data index ≠ start.mem.data index →
      InWritableAlias start index ∨ TableMarked start (stateAfter host start n) index := by
    intro index differs
    rcases kept.only index differs with writable | inTables
    · exact Or.inl writable
    · have word := tableByte_base start.mem start.csr.satp index inTables
      exact Or.inr ⟨inTables, kept.tables (base index) (base_aligned index) word⟩
  constructor
  case bytes => exact bytes
  case pages =>
    intro addressable index differs
    refine (bytes index differs).imp_left ?_
    rintro ⟨leaf, leafOf, writable, aliased⟩
    exact ⟨leaf, leafOf, writable,
      maps_of_alias leaf index (addressable leaf leafOf writable.user) aliased⟩
  case satp => exact kept.control.satp
  case translations => exact translate_gained start _ space.inside kept.tables

/-! ## Secrecy over a run -/

/-- The other machine differs from this one in memory alone, and not where the tables of
    the start or the aliases of the pages they show to user code are. -/
def Shadows (start now other : Emulator) : Prop :=
  ∃ mem, other = withMem now mem ∧ Agrees (ExposedAlias start) now.mem mem

/-- The pages that a kept state reads were exposed at the start. -/
theorem kept_exposed (start now : Emulator) (space : AddressSpace start.mem start.csr.satp)
    (user : now.priv = privU) (kept : Kept start now) (leaf : Leaf) (index : Word)
    (through : ReadThrough now leaf) (aliased : MapsAlias leaf index) :
    ExposedAlias start index := by
  have inside := (kept_space start now space kept).inside
  obtain ⟨leafOf, userPage⟩ := read_user now leaf user inside through
  rw [kept.control.satp] at leafOf
  obtain ⟨pte, old, same⟩ :=
    gained_leaf start.csr.satp start.mem now.mem space.inside kept.tables leaf leafOf
  rw [same.user] at userPage
  exact Or.inr ⟨{ leaf with pte := pte }, old, userPage, same_alias leaf pte index same aliased⟩

/-- The tables of a kept state were exposed at the start as well. -/
theorem kept_shielded (start now : Emulator) (space : AddressSpace start.mem start.csr.satp)
    (user : now.priv = privU) (kept : Kept start now) : Shielded now (ExposedAlias start) := by
  have still := kept_space start now space kept
  refine ⟨user, still.paged, still.inside, fun index inTables => Or.inl ?_⟩
  rw [kept.control.satp] at inTables
  exact (gained_bytes _ start.mem now.mem space.inside kept.tables index).mp inTables

/-- A user step of a kept state takes its shadow along. -/
theorem shadow_step (host : HostFloat) (start now other : Emulator)
    (space : AddressSpace start.mem start.csr.satp) (user : now.priv = privU)
    (kept : Kept start now) (shadows : Shadows start now other) :
    (emuStep host other).1 = (emuStep host now).1 ∧
      Shadows start (emuStep host now).2 (emuStep host other).2 := by
  obtain ⟨mem, rfl, agree⟩ := shadows
  have alike := step_hidden host now (ExposedAlias start) (kept_shielded start now space user kept)
    (fun leaf through index aliased =>
      kept_exposed start now space user kept leaf index through aliased) mem agree
  generalize emuStep host now = one at alike ⊢
  generalize emuStep host (withMem now mem) = another at alike ⊢
  cases alike with
  | intro event after memory agreeAfter => exact ⟨rfl, memory, rfl, agreeAfter⟩

/-- A shadow follows a user run, event for event. -/
theorem shadow_run (host : HostFloat) (start other : Emulator) (n : Nat)
    (space : AddressSpace start.mem start.csr.satp) (user : UserRun host start n)
    (shadows : Shadows start start other) :
    (∀ k, k < n → stepEvent host other k = stepEvent host start k) ∧
      Shadows start (stateAfter host start n) (stateAfter host other n) := by
  obtain ⟨events, -, states⟩ :=
    Runs.matched (emuStep host) (fun now other => Kept start now ∧ Shadows start now other)
      (fun now => now.priv = privU)
      (fun now other user both =>
        have next := shadow_step host start now other space user both.1 both.2
        ⟨next.1, kept_step host start now space user both.1, next.2⟩)
      start other ⟨kept_refl start, shadows⟩ n user
  exact ⟨events, states⟩

/-- In a sealed address space, memory outside the tables and the aliases of the pages they
    show to user code stays hidden however long user code runs: a machine that differs there
    alone goes through the same events, and differs there alone at the end. -/
theorem user_run_secret (host : HostFloat) (start : Emulator) (n : Nat)
    (space : AddressSpace start.mem start.csr.satp) (user : UserRun host start n) (mem : Memory)
    (agree : Agrees (ExposedAlias start) start.mem mem) :
    (∀ k, k < n → stepEvent host (withMem start mem) k = stepEvent host start k) ∧
      ∃ after, stateAfter host (withMem start mem) n = withMem (stateAfter host start n) after ∧
        Agrees (ExposedAlias start) (stateAfter host start n).mem after :=
  shadow_run host start (withMem start mem) n space user ⟨mem, rfl, agree⟩

/-! ## Two processes -/

/-- Nothing that the second address space shows belongs to the tables of the first or to the
    alias of a page that the first may write. -/
def Apart (first second : Emulator) : Prop :=
  ∀ index, ExposedAlias second index →
    ¬ InWritableAlias first index ∧ ¬ TableByte first.mem first.csr.satp index

/-- What the first process does to memory is a shadow to the second. -/
theorem apart_shadows (host : HostFloat) (first second : Emulator) (n : Nat)
    (shared : second.mem = first.mem) (space : AddressSpace first.mem first.csr.satp)
    (apart : Apart first second) (runsFirst : UserRun host first n) :
    Shadows second second (withMem second (stateAfter host first n).mem) := by
  have kept := user_run_kept host first n space runsFirst
  refine ⟨(stateAfter host first n).mem, rfl, ?_⟩
  intro index shown
  obtain ⟨unwritable, outside⟩ := apart index shown
  rw [shared]
  by_contra differs
  rcases kept.only index (fun same => differs same.symm) with writable | inTables
  · exact unwritable writable
  · exact outside inTables

/-- Two processes in one memory whose address spaces are sealed and apart: after the first
    has run for any time, the second runs, for any time, as if the first had not. -/
theorem processes_isolated (host : HostFloat) (first second : Emulator) (n m : Nat)
    (shared : second.mem = first.mem) (space : AddressSpace first.mem first.csr.satp)
    (other : AddressSpace second.mem second.csr.satp) (apart : Apart first second)
    (runsFirst : UserRun host first n) (runsSecond : UserRun host second m) :
    (∀ k, k < m → stepEvent host (withMem second (stateAfter host first n).mem) k =
        stepEvent host second k) ∧
      Shadows second (stateAfter host second m)
        (stateAfter host (withMem second (stateAfter host first n).mem) m) := by
  exact shadow_run host second _ m other runsSecond
    (apart_shadows host first second n shared space apart runsFirst)

/-! ## Two small address spaces -/

/-- Tables that map one page: the root has one entry, a pointer, and its table has one. -/
structure OnePage (mem : Memory) (satp pointer pte : Word) (place : Nat) : Prop where
  root : ∀ slot, slot < 1024 →
    entryAt mem (rootPage satp) slot = if slot = 0 then pointer else 0
  table : ∀ slot, slot < 1024 →
    entryAt mem (tablePage pointer) slot = if slot = place then pte else 0
  kind : PointerEntry pointer

theorem zero_leaf : ¬ LeafEntry 0 := fun entry => absurd entry.1 (by decide)

theorem zero_pointer : ¬ PointerEntry 0 := fun entry => absurd entry.1 (by decide)

section Page

variable (mem : Memory) (satp pointer pte : Word) (place : Nat)
  (page : OnePage mem satp pointer pte place)

include page

theorem onePage_pointer (slot : Nat) (bound : slot < 1024)
    (entry : PointerEntry (entryAt mem (rootPage satp) slot)) :
    entryAt mem (rootPage satp) slot = pointer := by
  rw [page.root slot bound] at entry ⊢
  split at entry
  · rename_i first
    rw [if_pos first]
  · exact absurd entry zero_pointer

theorem onePage_leaf (leaf : Leaf) (leafOf : LeafOf mem satp leaf) :
    leaf.pte = pte ∧ leaf.large = false := by
  cases leafOf with
  | large slot bound entry superpage =>
    rw [page.root slot bound] at entry
    split at entry
    · exact absurd page.kind.2 entry.2
    · exact absurd entry zero_leaf
  | page slot inner bound innerBound pointerEntry entry =>
    rw [onePage_pointer mem satp pointer pte place page slot bound pointerEntry,
      page.table inner innerBound] at entry ⊢
    split at entry
    · rename_i here
      exact ⟨if_pos here, rfl⟩
    · exact absurd entry zero_leaf

theorem onePage_bytes (index : Word) (inTables : TableByte mem satp index) :
    index.toNat / 4096 = rootPage satp / 4096 ∨ index.toNat / 4096 = pageNumber pointer := by
  cases inTables with
  | root above below =>
    simp only [rootPage] at above below ⊢
    omega
  | second slot bound pointerEntry above below =>
    rw [onePage_pointer mem satp pointer pte place page slot bound pointerEntry] at above below
    simp only [tablePage] at above below
    omega

theorem onePage_inside (root : rootPage satp + 4096 ≤ 0x100000)
    (table : tablePage pointer + 4096 ≤ 0x100000) : TablesInside mem satp := by
  constructor
  · rw [size_toNat]
    exact root
  · intro slot bound pointerEntry
    rw [size_toNat, onePage_pointer mem satp pointer pte place page slot bound pointerEntry]
    exact table

end Page

/-- The memory that holds these words at these word numbers, and zeros elsewhere. -/
def wordsMemory (words : List (Nat × Word)) : Memory where
  data := fun index => byteOf ((words.lookup (index.toNat / 4)).getD 0) (index.toNat % 4)
  size := memSize
  sized := rfl

theorem wordsMemory_entry (words : List (Nat × Word)) (page slot : Nat)
    (whole : page % 4096 = 0) (bound : page + 4 * slot + 4 ≤ 2 ^ 32) :
    entryAt (wordsMemory words) page slot = (words.lookup (page / 4 + slot)).getD 0 := by
  have stored : (BitVec.ofNat 32 (page + 4 * slot)).toNat = page + 4 * slot := by
    rw [BitVec.toNat_ofNat, Nat.mod_eq_of_lt (by omega)]
  have bytes : ∀ (index : Word) j, j < 4 → index.toNat = page + 4 * slot + j →
      (wordsMemory words).data index = byteOf ((words.lookup (page / 4 + slot)).getD 0) j := by
    intro index j small distance
    have word : (page + 4 * slot + j) / 4 = page / 4 + slot := by omega
    have rest : (page + 4 * slot + j) % 4 = j := by omega
    simp only [wordsMemory]
    rw [distance, word, rest]
  rw [← join_bytes ((words.lookup (page / 4 + slot)).getD 0), entryAt, wordAt,
    bytes _ 0 (by decide), bytes _ 1 (by decide), bytes _ 2 (by decide), bytes _ 3 (by decide)]
  · bv_omega
  · bv_omega
  · bv_omega
  · bv_omega

/-- An entry that no word is placed at is zero. -/
theorem wordsMemory_zero (words : List (Nat × Word)) (page slot : Nat)
    (whole : page % 4096 = 0) (bound : page + 4 * slot + 4 ≤ 2 ^ 32)
    (absent : ∀ entry ∈ words, entry.1 ≠ page / 4 + slot) :
    entryAt (wordsMemory words) page slot = 0 := by
  have missing : words.lookup (page / 4 + slot) = none := by
    rw [List.lookup_eq_none_iff]
    intro entry member
    have apart := absent entry member
    exact bne_iff_ne.mpr fun same => apart same.symm
  rw [wordsMemory_entry words page slot whole bound, missing]
  rfl

/-- Two address spaces. That of `satp` 0x80000005 has its root in page 5 and maps page 7 for
    reading, writing and execution; there stand `auipc x2, 0` and `sw x2, 0x700(x2)`. That of
    0x80000001 has its root in page 1 and maps page 4 for reading and execution; there stands
    `addi x1, x0, 5`. -/
def twoSpaces : List (Nat × Word) :=
  [(0x400, 0x801), (0x804, 0x101B), (0x1000, 0x00500093),
    (0x1400, 0x1801), (0x1807, 0x1C1F), (0x1C00, 0x00000117), (0x1C01, 0x70212023)]

/-- A user process at this address. -/
def process (satp pc : Word) : Emulator :=
  { emuInit (fun _ => 0) with
    mem := wordsMemory twoSpaces
    rf := { regfileInit with pc := pc }
    csr := { csrInit with satp := satp }
    priv := privU
    state := .running }

/-- The process that stores to its page. -/
def writer : Emulator := process 0x80000005 0x7000

/-- The process that does not. -/
def reader : Emulator := process 0x80000001 0x4000

/-- A table of the two with one word placed in it has one entry. -/
theorem twoSpaces_entry (page place : Nat) (entry : Word) (whole : page % 4096 = 0)
    (low : page < 0x100000)
    (only : ∀ other ∈ twoSpaces, other.1 / 1024 = page / 4096 → other.1 = page / 4 + place)
    (found : twoSpaces.lookup (page / 4 + place) = some entry) (slot : Nat) (bound : slot < 1024) :
    entryAt (wordsMemory twoSpaces) page slot = if slot = place then entry else 0 := by
  split
  · rename_i here
    rw [here, wordsMemory_entry _ _ _ whole (by omega), found]
    rfl
  · rename_i elsewhere
    apply wordsMemory_zero _ _ _ whole (by omega)
    intro other member same
    have here := only other member (by omega)
    omega

theorem writer_page : OnePage writer.mem 0x80000005 0x1801 0x1C1F 7 where
  root := twoSpaces_entry 0x5000 0 0x1801 (by decide) (by decide) (by decide) rfl
  table := twoSpaces_entry 0x6000 7 0x1C1F (by decide) (by decide) (by decide) rfl
  kind := ⟨by decide, by decide⟩

theorem reader_page : OnePage reader.mem 0x80000001 0x801 0x101B 4 where
  root := twoSpaces_entry 0x1000 0 0x801 (by decide) (by decide) (by decide) rfl
  table := twoSpaces_entry 0x2000 4 0x101B (by decide) (by decide) (by decide) rfl
  kind := ⟨by decide, by decide⟩

/-- The byte lies in page 7. -/
theorem writer_alias (leaf : Leaf) (index : Word)
    (leafOf : LeafOf writer.mem 0x80000005 leaf) (aliased : MapsAlias leaf index) :
    index.toNat / 4096 = 7 := by
  obtain ⟨pte, large⟩ := onePage_leaf writer.mem _ _ _ _ writer_page leaf leafOf
  have number : pageNumber 0x1C1F = 7 := by decide
  simp only [MapsAlias, extent, large, pte, number, Bool.false_eq_true, if_false] at aliased
  omega

theorem writer_tables (index : Word) (inTables : TableByte writer.mem 0x80000005 index) :
    index.toNat / 4096 = 5 ∨ index.toNat / 4096 = 6 := by
  have bytes := onePage_bytes writer.mem _ _ _ _ writer_page index inTables
  have root : rootPage 0x80000005 / 4096 = 5 := by decide
  have number : pageNumber 0x1801 = 6 := by decide
  rwa [root, number] at bytes

theorem writer_space : AddressSpace writer.mem writer.csr.satp where
  paged := by decide
  inside := onePage_inside writer.mem _ _ _ _ writer_page (by decide) (by decide)
  closed := by
    intro leaf index leafOf writable aliased inTables
    have page := writer_alias leaf index leafOf aliased
    have table := writer_tables index inTables
    omega

/-- The reader shows its tables and page 4. -/
theorem reader_exposed (index : Word) (shown : ExposedAlias reader index) :
    index.toNat / 4096 = 1 ∨ index.toNat / 4096 = 2 ∨ index.toNat / 4096 = 4 := by
  rcases shown with inTables | ⟨leaf, leafOf, -, aliased⟩
  · have bytes := onePage_bytes reader.mem _ _ _ _ reader_page index inTables
    have root : rootPage 0x80000001 / 4096 = 1 := by decide
    have number : pageNumber 0x801 = 2 := by decide
    rw [root, number] at bytes
    omega
  · obtain ⟨pte, large⟩ := onePage_leaf reader.mem _ _ _ _ reader_page leaf leafOf
    have number : pageNumber 0x101B = 4 := by decide
    simp only [MapsAlias, extent, large, pte, number, Bool.false_eq_true, if_false] at aliased
    omega

theorem reader_space : AddressSpace reader.mem reader.csr.satp where
  paged := by decide
  inside := onePage_inside reader.mem _ _ _ _ reader_page (by decide) (by decide)
  closed := by
    intro leaf index leafOf writable
    obtain ⟨pte, -⟩ := onePage_leaf reader.mem _ _ _ _ reader_page leaf leafOf
    have writes := writable.writable
    rw [pte] at writes
    exact absurd (by decide) writes

theorem spaces_apart : Apart writer reader := by
  intro index shown
  have pages := reader_exposed index shown
  constructor
  · rintro ⟨leaf, leafOf, -, aliased⟩
    have page := writer_alias leaf index leafOf aliased
    omega
  · intro inTables
    have table := writer_tables index inTables
    omega

theorem writer_runs : UserRun idleHost writer 2 := by
  intro k below
  obtain rfl | rfl : k = 0 ∨ k = 1 := by omega
  · rfl
  · decide +kernel

theorem reader_runs : UserRun idleHost reader 1 := by
  intro k below
  obtain rfl : k = 0 := by omega
  rfl

/-- The writer's two steps keep its address space. -/
theorem writer_integrity : RunIntegrity writer (stateAfter idleHost writer 2) :=
  user_run_integrity idleHost writer 2 writer_space writer_runs

/-- The reader's memory with another byte in page 7. -/
def otherPage : Memory := { reader.mem with data := Function.update reader.mem.data 0x7000 9 }

theorem otherPage_agrees : Agrees (ExposedAlias reader) reader.mem otherPage := by
  intro index shown
  have pages := reader_exposed index shown
  refine (Function.update_of_ne ?_ _ _).symm
  intro here
  have number : index.toNat = 0x7000 := by
    rw [here]
    rfl
  omega

/-- The reader's step does not show that byte. -/
theorem reader_secret :
    (∀ k, k < 1 → stepEvent idleHost (withMem reader otherPage) k = stepEvent idleHost reader k) ∧
      ∃ after, stateAfter idleHost (withMem reader otherPage) 1 =
          withMem (stateAfter idleHost reader 1) after ∧
        Agrees (ExposedAlias reader) (stateAfter idleHost reader 1).mem after :=
  user_run_secret idleHost reader 1 reader_space reader_runs otherPage otherPage_agrees

/-- The writer changes memory, and the reader runs as if it had not. -/
theorem writer_reader_isolated :
    (stateAfter idleHost writer 2).mem.data 0x7701 ≠ writer.mem.data 0x7701 ∧
      Shadows reader (stateAfter idleHost reader 1)
        (stateAfter idleHost (withMem reader (stateAfter idleHost writer 2).mem) 1) :=
  ⟨by decide +kernel,
    (processes_isolated idleHost writer reader 2 1 rfl writer_space reader_space spaces_apart
      writer_runs reader_runs).2⟩

end RvEmu.ProcessIsolation
