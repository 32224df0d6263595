import RvEmu.MemoryAgreement
import RvEmu.PageIntegrity

/-!
# Confidentiality of memory under paging

A user step reads memory through its walks, its fetches and its data reads. Walks
read the tables, and every other read stays in the page that a user leaf gives
it. Two machines whose memories agree on the tables and on those pages therefore
take the step to the same event and the same state, and their memories still
agree there.

The pages are the ones the leaves map as long as each leaf the step reads through
has a 32-bit page address. For any other leaf `PTE_PA` drops the high bits, and
the step reads low memory that no leaf need map.
-/

namespace RvEmu.PageSecrecy

open LittleEndian PageWalk PageTables ExecOutcome StepAnatomy MemoryAgreement PageIntegrity

/-- The byte belongs to the tables, or to a page that a leaf maps for user code. -/
def Exposed (emu : Emulator) (index : Word) : Prop :=
  TableByte emu.mem emu.csr.satp index ∨
    ∃ leaf, LeafOf emu.mem emu.csr.satp leaf ∧ leaf.pte &&& pteU ≠ 0 ∧ Maps leaf index

/-- The byte belongs to the tables, or to the 32-bit alias of such a page. -/
def ExposedAlias (emu : Emulator) (index : Word) : Prop :=
  TableByte emu.mem emu.csr.satp index ∨
    ∃ leaf, LeafOf emu.mem emu.csr.satp leaf ∧ leaf.pte &&& pteU ≠ 0 ∧ MapsAlias leaf index

/-- The step fetches or reads data through the leaf. -/
inductive ReadThrough (emu : Emulator) (leaf : Leaf) : Prop where
  | fetched (va : Word) (member : (va, Access.fetch) ∈ stepAccesses emu)
      (found : walk emu.mem emu.csr.satp va = some leaf)
      (allowed : pteAllows emu leaf.pte .fetch = true) : ReadThrough emu leaf
  | data (ready : Emulator) (inst : DecodedInst) (va : Word) (acc : Access)
      (came : issued emu = some (ready, inst)) (reads : ReadsData inst)
      (asks : dataAccess ready inst = some (va, acc))
      (found : walk emu.mem emu.csr.satp va = some leaf)
      (allowed : pteAllows emu leaf.pte acc = true) : ReadThrough emu leaf

/-- Every leaf the step reads through names a page with a 32-bit address. -/
def ReadsAddressable (emu : Emulator) : Prop := ∀ leaf, ReadThrough emu leaf → Addressable leaf

/-- Memory outside the place does not show: a machine that differs there alone takes
    the step to the same event, and to a state that differs there alone. -/
def Hidden (host : HostFloat) (emu : Emulator) (place : Word → Prop) : Prop :=
  ∀ mem, Agrees place emu.mem mem →
    Alike place (emuStep host emu) (emuStep host (withMem emu mem))

/-! ## Translations of the two machines -/

/-- A user state under paging, with its tables inside memory and in the place. -/
structure Shielded (emu : Emulator) (place : Word → Prop) : Prop where
  user : emu.priv = privU
  paged : emu.csr.satp &&& satpModeBit ≠ 0
  inside : TablesInside emu.mem emu.csr.satp
  tables : ∀ index, TableByte emu.mem emu.csr.satp index → place index

/-- A translation that both machines pass, and the leaf it goes through. -/
structure Passed (emu : Emulator) (place : Word → Prop) (accesses : List (Word × Access))
    (va : Word) (acc : Access) (pa : Word) (left right : Memory) : Prop where
  touched : Touched emu accesses left
  agree : Agrees place left right
  through : ∃ leaf, walk emu.mem emu.csr.satp va = some leaf ∧
    pteAllows emu leaf.pte acc = true ∧ pa = leaf.target va

/-- In touched memories that agree on the place, both machines fail a translation in
    the same way, or pass it to the same address. -/
theorem translate_both (emu : Emulator) (place : Word → Prop) (shielded : Shielded emu place)
    (accesses : List (Word × Access)) (left right : Memory) (va : Word) (acc : Access)
    (member : (va, acc) ∈ accesses) (touched : Touched emu accesses left)
    (agree : Agrees place left right) :
    (∃ cause, mmuTranslate (ticked emu left) va acc = (.error cause, ticked emu left) ∧
        mmuTranslate (ticked emu right) va acc = (.error cause, ticked emu right)) ∨
      ∃ pa leftAfter rightAfter,
        mmuTranslate (ticked emu left) va acc = (.ok pa, ticked emu leftAfter) ∧
        mmuTranslate (ticked emu right) va acc = (.ok pa, ticked emu rightAfter) ∧
        Passed emu place accesses va acc pa leftAfter rightAfter := by
  obtain ⟨mip, csr⟩ := ticked_csr emu left
  have satp : (ticked emu left).csr.satp = emu.csr.satp := by rw [csr]
  obtain ⟨inside, kept⟩ := tables_marked emu.mem left _ emu.csr.satp touched shielded.inside
  have tables : Agrees (TableByte left emu.csr.satp) left right := by
    intro index inTables
    exact agree index (shielded.tables index (kept index inTables))
  have same : walk right (ticked emu left).csr.satp va =
      walk (ticked emu left).mem (ticked emu left).csr.satp va := by
    rw [satp, ticked_mem]
    exact walk_agree left right emu.csr.satp va inside tables
  have alike := translate_alike place (ticked emu left) right va acc same agree
  have other : withMem (ticked emu left) right = ticked emu right := rfl
  rw [other] at alike
  generalize translatedRight : mmuTranslate (ticked emu right) va acc = resultRight at alike
  generalize translated : mmuTranslate (ticked emu left) va acc = result at alike
  cases alike with
  | intro outcome after mem agreeAfter =>
    cases outcome with
    | error cause =>
      obtain ⟨rfl, -⟩ := mmuTranslate_error _ after va cause acc translated
      obtain ⟨unchanged, -⟩ := mmuTranslate_error _ _ va cause acc translatedRight
      refine Or.inl ⟨cause, rfl, ?_⟩
      rw [unchanged]
    | ok pa =>
      obtain ⟨later, rfl, touchedLater, resolves⟩ :=
        ticked_translate emu after left accesses va pa acc touched member translated
      refine Or.inr ⟨pa, later, mem, rfl, rfl, touchedLater, agreeAfter, ?_⟩
      rcases resolves with ⟨machine | bare, -⟩ | ⟨leaf, -, found, allowed, target⟩
      · rw [shielded.user] at machine
        cases machine
      · exact absurd bare shielded.paged
      · exact ⟨leaf, found, allowed, target⟩

/-- The pages of a leaf that is read through are in the place, so the page of an
    address the leaf gives is. -/
theorem passed_covered (emu : Emulator) (place : Word → Prop) (va : Word) (leaf : Leaf)
    (found : walk emu.mem emu.csr.satp va = some leaf)
    (pages : ∀ index, MapsAlias leaf index → place index) :
    Covered place (leaf.target va) ∧ (leaf.target va).toNat % 4096 = va.toNat % 4096 := by
  obtain ⟨-, -, -, superpage⟩ := walk_found emu.mem emu.csr.satp va leaf found
  refine ⟨?_, target_offset leaf va superpage⟩
  intro index samePage
  have aliased := target_alias leaf va superpage
  exact pages index (alias_page leaf (leaf.target va) index aliased samePage)

/-! ## The fetch -/

/-- The four bytes of a word that starts at most 0xFFC into its page are in it. -/
theorem word_within (pa index : Word) (within : pa &&& 0xFFF ≤ 0xFFC)
    (member : Spans pa 4 index) : index.toNat / 4096 = pa.toNat / 4096 := by
  have masked : (pa &&& 0xFFF).toNat = pa.toNat % 2 ^ 12 := BitMasks.and_low pa 12 (by decide)
  have bound : (pa &&& 0xFFF).toNat ≤ 0xFFC := within
  have low : pa.toNat < 2 ^ 32 := pa.isLt
  have high : index.toNat < 2 ^ 32 := index.isLt
  rw [masked] at bound
  rw [Spans, BitVec.toNat_sub] at member
  omega

/-- The page that a passed fetch goes to is in the place, and both machines have the
    same halfword there. -/
theorem passed_half (emu : Emulator) (place : Word → Prop) (accesses : List (Word × Access))
    (va pa : Word) (left right : Memory) (even : va.toNat % 2 = 0)
    (pages : ∀ leaf, walk emu.mem emu.csr.satp va = some leaf →
      pteAllows emu leaf.pte .fetch = true → ∀ index, MapsAlias leaf index → place index)
    (passed : Passed emu place accesses va .fetch pa left right) :
    Covered place pa ∧ memoryRead16 right pa = memoryRead16 left pa := by
  obtain ⟨leaf, found, allowed, target⟩ := passed.through
  obtain ⟨covered, offset⟩ := passed_covered emu place va leaf found (pages leaf found allowed)
  rw [← target] at covered offset
  exact ⟨covered, read16_agree place left right pa passed.agree
    (covered_span place pa va .half covered offset even)⟩

/-- Both machines fetch the same, as long as the pages fetched from are in the
    place. -/
theorem fetch_alike (emu : Emulator) (place : Word → Prop) (shielded : Shielded emu place)
    (right : Memory) (even : emu.rf.pc &&& 1 = 0)
    (pages : ∀ va leaf, (va, Access.fetch) ∈ fetchAccesses (timerTick emu) →
      walk emu.mem emu.csr.satp va = some leaf → pteAllows emu leaf.pte .fetch = true →
      ∀ index, MapsAlias leaf index → place index)
    (agree : Agrees place emu.mem right) :
    Alike place (emuFetch (timerTick emu) emu.rf.pc)
      (emuFetch (withMem (timerTick emu) right) emu.rf.pc) := by
  have evenPc : emu.rf.pc.toNat % 2 = 0 := low_one_clear emu.rf.pc even
  have evenNext : (emu.rf.pc + 2).toNat % 2 = 0 := by
    have bound : emu.rf.pc.toNat < 2 ^ 32 := emu.rf.pc.isLt
    rw [BitVec.toNat_add]
    change (emu.rf.pc.toNat + 2) % 2 ^ 32 % 2 = 0
    omega
  have first : (emu.rf.pc, Access.fetch) ∈ fetchAccesses (timerTick emu) := by
    rw [← timerTick_rf emu]
    exact List.mem_cons_self
  have ready : timerTick emu = ticked emu emu.mem := (ticked_same emu).symm
  have other : withMem (timerTick emu) right = ticked emu right := rfl
  rw [other, ready]
  simp only [emuFetch]
  rcases translate_both emu place shielded _ emu.mem right emu.rf.pc .fetch first
    (touched_refl emu _) agree with
    ⟨cause, translated, same⟩ | ⟨pa, left1, right1, translated, same, passed⟩
  · rw [translated, same]
    exact .intro _ _ right agree
  · rw [translated, same]
    obtain ⟨covered, half⟩ := passed_half emu place _ _ pa left1 right1 evenPc
      (fun leaf => pages _ leaf first) passed
    have agree1 := passed.agree
    dsimp only [ticked_mem]
    rw [half]
    cases low : memoryRead16 left1 pa with
    | none => exact .intro _ (ticked emu left1) right1 agree1
    | some lo =>
      dsimp only
      by_cases narrow : lo &&& 3 ≠ 3
      · rw [if_pos narrow, if_pos narrow]
        cases expandCompressed lo with
        | none => exact .intro _ (ticked emu left1) right1 agree1
        | some raw => exact .intro _ (ticked emu left1) right1 agree1
      · rw [if_neg narrow, if_neg narrow]
        by_cases within : pa &&& 0xFFF ≤ 0xFFC
        · have word : memoryRead32 right1 pa = memoryRead32 left1 pa := by
            apply read32_agree place left1 right1 pa agree1
            intro index member
            exact covered index (word_within pa index within member)
          rw [if_pos within, if_pos within, word]
          cases memoryRead32 left1 pa with
          | none => exact .intro _ (ticked emu left1) right1 agree1
          | some raw => exact .intro _ (ticked emu left1) right1 agree1
        · rw [if_neg within, if_neg within]
          have second : (emu.rf.pc + 2, Access.fetch) ∈ fetchAccesses (timerTick emu) := by
            rw [ready]
            simp only [fetchAccesses]
            simp only [ticked_rf, ticked_mem, translated, low, not_not.mp narrow, within,
              not_false_eq_true, and_self, if_true, List.mem_cons, true_or, or_true]
          rcases translate_both emu place shielded _ left1 right1 (emu.rf.pc + 2) .fetch second
            passed.touched agree1 with
            ⟨cause, crossed, same2⟩ | ⟨pa2, left2, right2, crossed, same2, passed2⟩
          · rw [crossed, same2]
            exact .intro _ (ticked emu left1) right1 agree1
          · rw [crossed, same2]
            obtain ⟨-, half2⟩ := passed_half emu place _ _ pa2 left2 right2 evenNext
              (fun leaf => pages _ leaf second) passed2
            dsimp only [ticked_mem]
            rw [half2]
            cases memoryRead16 left2 pa2 with
            | none => exact .intro _ (ticked emu left2) right2 passed2.agree
            | some hi => exact .intro _ (ticked emu left2) right2 passed2.agree

/-! ## The step -/

/-- The front ends of the two machines end in the same way. -/
inductive FrontAlike (place : Word → Prop) : Front → Front → Prop where
  | interrupted (emu : Emulator) (mem : Memory) (agree : Agrees place emu.mem mem) :
      FrontAlike place (.interrupted emu) (.interrupted (withMem emu mem))
  | refused (emu : Emulator) (mem : Memory) (cause tval : Word)
      (agree : Agrees place emu.mem mem) :
      FrontAlike place (.refused emu cause tval) (.refused (withMem emu mem) cause tval)
  | issued (emu : Emulator) (mem : Memory) (inst : DecodedInst)
      (agree : Agrees place emu.mem mem) :
      FrontAlike place (.issued emu inst) (.issued (withMem emu mem) inst)

/-- What a step that is not interrupted fetches is among its accesses. -/
theorem fetch_member (emu : Emulator) (access : Word × Access)
    (passed : trapCheckInterrupt emu emu.rf.pc = (false, timerTick emu))
    (even : ¬ emu.rf.pc &&& 1 ≠ 0) (member : access ∈ fetchAccesses (timerTick emu)) :
    access ∈ stepAccesses emu := by
  simp only [stepAccesses]
  cases front : frontEnd emu with
  | interrupted after =>
    have taken := interrupted_front emu after front
    rw [passed] at taken
    cases taken
  | refused after cause tval =>
    dsimp only
    rw [if_neg even]
    exact member
  | issued after inst => exact List.mem_append_left _ member

theorem front_alike (emu : Emulator) (place : Word → Prop) (shielded : Shielded emu place)
    (pages : ∀ leaf, ReadThrough emu leaf → ∀ index, MapsAlias leaf index → place index)
    (right : Memory) (agree : Agrees place emu.mem right) :
    FrontAlike place (frontEnd emu) (frontEnd (withMem emu right)) := by
  simp only [frontEnd]
  rw [withMem_rf, trapCheckInterrupt_withMem]
  cases checked : trapCheckInterrupt emu emu.rf.pc with
  | mk taken after =>
    cases taken with
    | true =>
      obtain ⟨raised, -⟩ := taken_state emu after _ checked
      have kept := trapRaise_mem (timerTick emu) mcauseIrqTimer 0 emu.rf.pc
      rw [raised, timerTick_mem] at kept
      apply FrontAlike.interrupted
      rw [kept]
      exact agree
    | false =>
      have same := notTaken_state emu after _ checked
      subst same
      have still : Agrees place (timerTick emu).mem right := by
        rw [timerTick_mem]
        exact agree
      dsimp only
      by_cases odd : emu.rf.pc &&& 1 ≠ 0
      · rw [if_pos odd, if_pos odd]
        exact .refused _ right _ _ still
      · rw [if_neg odd, if_neg odd]
        have fetched := fetch_alike emu place shielded right (not_not.mp odd)
          (fun va leaf member found allowed =>
            pages leaf (.fetched va (fetch_member emu _ checked odd member) found allowed)) agree
        generalize emuFetch (timerTick emu) emu.rf.pc = one at fetched
        generalize emuFetch (withMem (timerTick emu) right) emu.rf.pc = other at fetched
        cases fetched with
        | intro result after mem agreeAfter =>
          cases result with
          | error fault => exact .refused after mem _ _ agreeAfter
          | ok word =>
            dsimp only
            cases decode word.1 with
            | none => exact .refused after mem _ _ agreeAfter
            | some inst => exact .issued after mem _ agreeAfter

/-- An issued instruction does the same on both machines. -/
theorem issued_alike (host : HostFloat) (emu : Emulator) (place : Word → Prop)
    (shielded : Shielded emu place)
    (pages : ∀ leaf, ReadThrough emu leaf → ∀ index, MapsAlias leaf index → place index)
    (left right : Memory) (inst : DecodedInst) (came : issued emu = some (ticked emu left, inst))
    (touched : Touched emu (fetchAccesses (timerTick emu)) left)
    (agree : Agrees place left right) :
    ExitAlike place (execSwitch host (ticked emu left) inst)
      (execSwitch host (ticked emu right) inst) := by
  cases asked : dataAccess (ticked emu left) inst with
  | none =>
    have level : (ticked emu left).priv ≠ privM := by
      rw [ticked_priv, shielded.user]
      decide
    exact noAccess_alike place (ticked emu left) right host inst agree asked level
  | some request =>
    obtain ⟨addr, acc⟩ := request
    have askedRight : dataAccess (ticked emu right) inst = some (addr, acc) := asked
    have wider := touched_fetch emu left inst came touched
    have member := data_member emu left inst (addr, acc) came asked
    rw [execSwitch_access host _ inst addr acc asked,
      execSwitch_access host _ inst addr acc askedRight]
    simp only [translateThen]
    rcases translate_both emu place shielded _ left right addr acc member wider agree with
      ⟨cause, translated, same⟩ | ⟨pa, leftAfter, rightAfter, translated, same, passed⟩
    · rw [translated, same]
      exact .except (ticked emu left) right cause addr agree
    · rw [translated, same]
      obtain ⟨leaf, found, allowed, target⟩ := passed.through
      obtain ⟨-, -, -, superpage⟩ := walk_found emu.mem emu.csr.satp addr leaf found
      have offset : pa.toNat % 4096 = addr.toNat % 4096 := by
        rw [target]
        exact target_offset leaf addr superpage
      apply accessOf_alike place (ticked emu leftAfter) rightAfter _ inst addr pa acc asked
        passed.agree ?_ offset
      intro reads
      rw [target]
      exact (passed_covered emu place addr leaf found
        (pages leaf (.data _ inst addr acc came reads asked found allowed))).1

/-- Memory outside a place does not show in a user step under paging, when the place
    contains the tables and the aliases of the pages the step reads. -/
theorem step_hidden (host : HostFloat) (emu : Emulator) (place : Word → Prop)
    (shielded : Shielded emu place)
    (pages : ∀ leaf, ReadThrough emu leaf → ∀ index, MapsAlias leaf index → place index) :
    Hidden host emu place := by
  intro right agree
  rw [emuStep_halves, emuStep_halves, withMem_rf]
  apply countCycle_alike
  have front := front_alike emu place shielded pages right agree
  generalize one : frontEnd emu = ended at front
  generalize frontEnd (withMem emu right) = other at front
  cases front with
  | interrupted after mem agreeAfter => exact .intro _ after mem agreeAfter
  | refused after mem cause tval agreeAfter =>
    exact raiseOrStop_alike place after mem agreeAfter cause tval _
  | issued after mem inst agreeAfter =>
    have came : issued emu = some (after, inst) := by
      rw [issued, one]
    obtain ⟨-, -, -, -, left, rfl, touched⟩ := issued_front emu after inst came
    apply execute_alike
    exact issued_alike host emu place shielded pages left mem inst came touched agreeAfter

/-! ## Confidentiality -/

/-- User code reads through leaves with the user bit. -/
theorem read_user (emu : Emulator) (leaf : Leaf) (user : emu.priv = privU)
    (inside : TablesInside emu.mem emu.csr.satp) (through : ReadThrough emu leaf) :
    LeafOf emu.mem emu.csr.satp leaf ∧ leaf.pte &&& pteU ≠ 0 := by
  cases through with
  | fetched va member found allowed =>
    exact ⟨walk_leafOf emu.mem emu.csr.satp va leaf inside found,
      allowed_user emu leaf.pte _ user allowed⟩
  | data ready inst va acc came reads asks found allowed =>
    exact ⟨walk_leafOf emu.mem emu.csr.satp va leaf inside found,
      allowed_user emu leaf.pte _ user allowed⟩

/-- From user level under paging, with the tables inside memory, a step shows no
    memory outside the tables and the aliases of user pages; and when each leaf it
    reads through has a 32-bit page address, none outside the tables and the user
    pages themselves. -/
theorem step_secret (host : HostFloat) (emu : Emulator) (user : emu.priv = privU)
    (paged : emu.csr.satp &&& satpModeBit ≠ 0) (inside : TablesInside emu.mem emu.csr.satp) :
    Hidden host emu (ExposedAlias emu) ∧
      (ReadsAddressable emu → Hidden host emu (Exposed emu)) := by
  constructor
  · apply step_hidden host emu (ExposedAlias emu)
    · exact ⟨user, paged, inside, fun index inTables => Or.inl inTables⟩
    · intro leaf through index aliased
      obtain ⟨leafOf, userPage⟩ := read_user emu leaf user inside through
      exact Or.inr ⟨leaf, leafOf, userPage, aliased⟩
  · intro addressable
    apply step_hidden host emu (Exposed emu)
    · exact ⟨user, paged, inside, fun index inTables => Or.inl inTables⟩
    · intro leaf through index aliased
      obtain ⟨leafOf, userPage⟩ := read_user emu leaf user inside through
      exact Or.inr ⟨leaf, leafOf, userPage,
        maps_of_alias leaf index (addressable leaf through) aliased⟩

/-- `lw x1, 0x700(x0)` with the low four megabytes mapped to themselves. -/
def plainLoad : Emulator := superpageState 0x1F 0x70002083 0

/-- The load shows the tables and the mapped page alone. -/
theorem plainLoad_secret : Hidden idleHost plainLoad (Exposed plainLoad) := by
  have inside : TablesInside plainLoad.mem plainLoad.csr.satp :=
    superpage_tables 0x1F 0x70002083 0 (by decide)
  apply (step_secret idleHost plainLoad rfl (by decide) inside).2
  intro leaf through
  have leafOf := (read_user plainLoad leaf rfl inside through).1
  have same : leaf.pte = 0x1F := superpage_leaf 0x1F 0x70002083 0 (by decide) leaf leafOf
  rw [Addressable, same]
  decide

/-- `lw x1, 0x700(x0)` with the page of number 2^20 mapped, and the word at 0x700. -/
def aliasedLoad (word : Word) : Emulator := superpageState 0x4000001F 0x70002083 word

/-- The load reads the word at 0x700, which lies in no mapped page and in no table. -/
theorem load_leaks :
    ¬ ∀ host emu, emu.priv = privU → emu.csr.satp &&& satpModeBit ≠ 0 →
      TablesInside emu.mem emu.csr.satp → Hidden host emu (Exposed emu) := by
  have inside : TablesInside (aliasedLoad 0).mem (aliasedLoad 0).csr.satp :=
    superpage_tables 0x4000001F 0x70002083 0 (by decide)
  have agree : Agrees (Exposed (aliasedLoad 0)) (aliasedLoad 0).mem (aliasedLoad 7).mem := by
    rintro index (inTables | ⟨leaf, leafOf, -, above, -⟩)
    · cases inTables with
      | root above below =>
        have root : rootPage 0x80000001 = 4096 := by decide
        change rootPage 0x80000001 ≤ index.toNat at above
        have high : ¬ index < 0x1000 := by
          rw [BitVec.not_lt, BitVec.le_def]
          change 4096 ≤ index.toNat
          omega
        change (if index < 0x1000 then _ else _) = (if index < 0x1000 then _ else _)
        rw [if_neg high, if_neg high]
      | second slot bound pointer =>
        exact absurd pointer (superpage_pointer 0x4000001F 0x70002083 0 (by decide) slot bound)
    · have beyond : 2 ^ 32 ≤ pageNumber 0x4000001F * 4096 := by decide
      have same : leaf.pte = 0x4000001F :=
        superpage_leaf 0x4000001F 0x70002083 0 (by decide) leaf leafOf
      have bound : index.toNat < 2 ^ 32 := index.isLt
      rw [same] at above
      omega
  have read : (emuStep idleHost (aliasedLoad 0)).2.rf.regs 1 = 0 := by decide +kernel
  have readOther :
      (emuStep idleHost (withMem (aliasedLoad 0) (aliasedLoad 7).mem)).2.rf.regs 1 = 7 := by
    decide +kernel
  intro always
  have alike := always idleHost (aliasedLoad 0) rfl (by decide) inside (aliasedLoad 7).mem agree
  generalize emuStep idleHost (aliasedLoad 0) = one at alike read
  generalize emuStep idleHost (withMem (aliasedLoad 0) (aliasedLoad 7).mem) = other
    at alike readOther
  cases alike with
  | intro event after mem =>
    have both : (7 : Word) = 0 := readOther.symm.trans read
    revert both
    decide

end RvEmu.PageSecrecy
