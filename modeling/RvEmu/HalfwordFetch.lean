import RvEmu.StepAnatomy

/-!
# Fetching by halfwords

An instruction is one halfword or two, and each halfword is fetched on its own:
its address is translated, then read. `emu_step` follows this for the first
halfword and, at the end of a page, for the second. Inside a page it reads both
at once instead, through the first translation.

The short way is sound. The second address lies in the page of the first, so its
translation finds the same leaf, already touched, and changes nothing. The long
way reports a second translation that fails as an access fault, and there alone
the two descriptions differ.
-/

namespace RvEmu.HalfwordFetch

open LittleEndian WordMarks PageWalk PageTables ExecOutcome StepAnatomy

/-! ## Halfwords on their own -/

/-- One halfword: an instruction page fault where the address does not translate, an
    access fault where the translated address cannot be read. -/
def fetchHalf (emu : Emulator) (va : Word) : Except Word Half × Emulator :=
  match mmuTranslate emu va .fetch with
  | (.error _, after) => (.error 12, after)
  | (.ok pa, after) =>
    match memoryRead16 after.mem pa with
    | none => (.error 1, after)
    | some half => (.ok half, after)

/-- What is decoded: one halfword or two. -/
inductive Parcel where
  | short (half : Half)
  | long (word : Word)

/-- The parcel at an address, by one halfword fetch or two. -/
def fetchParcel (emu : Emulator) (pc : Word) : Except Word Parcel × Emulator :=
  match fetchHalf emu pc with
  | (.error cause, after) => (.error cause, after)
  | (.ok low, after) =>
    if low &&& 3 ≠ 3 then (.ok (.short low), after)
    else
      match fetchHalf after (pc + 2) with
      | (.error cause, later) => (.error cause, later)
      | (.ok high, later) => (.ok (.long (low.setWidth 32 ||| high.setWidth 32 <<< 16)), later)

/-- Decoding a parcel issues its instruction, or refuses it as illegal. -/
def decodeParcel (emu : Emulator) : Parcel → Front
  | .short half =>
    match expandCompressed half with
    | none => .refused emu 2 (half.setWidth 32)
    | some raw =>
      match decode raw with
      | none => .refused emu 2 raw
      | some inst => .issued emu { inst with len := 2 }
  | .long word =>
    match decode word with
    | none => .refused emu 2 word
    | some inst => .issued emu inst

/-- The step has this front end, and goes on from it. -/
structure Fetches (emu : Emulator) (front : Front) : Prop where
  reached : frontEnd emu = front
  step : ∀ host, emuStep host emu = countCycle (backEnd host emu.rf.pc front)

/-- The step decodes the parcel at the pc, or raises the exception of the halfword
    that could not be fetched. -/
def FetchLaw (emu : Emulator) : Prop :=
  match fetchParcel (timerTick emu) emu.rf.pc with
  | (.error cause, after) => ∃ tval, Fetches emu (.refused after cause tval)
  | (.ok parcel, after) => Fetches emu (decodeParcel after parcel)

/-- Where the first halfword ends a page and is the beginning of a longer
    instruction, the next halfword is mapped. -/
def SecondMapped (emu : Emulator) : Prop :=
  ∀ pa middle low, mmuTranslate emu emu.rf.pc .fetch = (.ok pa, middle) →
    memoryRead16 middle.mem pa = some low → low &&& 3 = 3 → emu.rf.pc.toNat % 4096 = 4094 →
    ∃ second, Resolves emu (emu.rf.pc + 2) .fetch second

/-! ## The page of the first halfword -/

/-- Two bytes on, in the page, the address of the leaf is two bytes on. -/
theorem target_next (leaf : Leaf) (va : Word)
    (superpage : leaf.large = true → (leaf.pte >>> 10) &&& 0x3FF = 0)
    (within : va.toNat % 4096 + 2 < 4096) : leaf.target (va + 2) = leaf.target va + 2 := by
  have bound : va.toNat < 2 ^ 32 := va.isLt
  have here := target_toNat leaf va superpage
  have next := target_toNat leaf (va + 2) superpage
  have sum : (va + 2).toNat = va.toNat + 2 := by
    rw [BitVec.toNat_add]
    change (va.toNat + 2) % 2 ^ 32 = va.toNat + 2
    omega
  have grown : (leaf.target (va + 2)).toNat = (leaf.target va).toNat + 2 := by
    rw [next, here, sum]
    simp only [extent]
    split
    · omega
    · omega
  have fits : (leaf.target (va + 2)).toNat < 2 ^ 32 := (leaf.target (va + 2)).isLt
  apply BitVec.eq_of_toNat_eq
  have after : (leaf.target va + 2).toNat = ((leaf.target va).toNat + 2) % 2 ^ 32 :=
    BitVec.toNat_add (leaf.target va) 2
  rw [grown, after, Nat.mod_eq_of_lt (by omega)]

/-- After the first halfword of a page has been translated, so has the next one of
    the page. -/
theorem translate_next (emu middle : Emulator) (va pa : Word)
    (translated : mmuTranslate emu va .fetch = (.ok pa, middle))
    (within : va.toNat % 4096 + 2 < 4096) :
    mmuTranslate middle (va + 2) .fetch = (.ok (pa + 2), middle) := by
  have page : (va + 2) >>> 12 = va >>> 12 := by
    apply BitVec.eq_of_toNat_eq
    rw [BitVec.toNat_ushiftRight, BitVec.toNat_ushiftRight, Nat.shiftRight_eq_div_pow,
      Nat.shiftRight_eq_div_pow, BitVec.toNat_add]
    change (va.toNat + 2) % 2 ^ 32 / 2 ^ 12 = _
    have bound : va.toNat < 2 ^ 32 := va.isLt
    omega
  refine Prod.ext ?_ (translate_again emu middle va (va + 2) pa .fetch translated page)
  rcases mmuTranslate_ok emu middle va pa .fetch translated with
    ⟨bare, rfl, rfl⟩ | ⟨leaf, paged, found, allowed, rfl, updated⟩
  · rw [mmuTranslate_eq, if_pos bare]
  · obtain ⟨-, -, -, superpage⟩ := walk_found emu.mem emu.csr.satp va leaf found
    have marked := leaf_marked emu va leaf .fetch found
    rw [pteUpdateAd_eq] at updated
    have unseen := translate_marked emu (touchMemory emu.mem leaf .fetch) _ marked (va + 2) .fetch
    rw [updated]
    refine unseen.trans ?_
    rw [mmuTranslate_eq, if_neg paged, walk_page emu.mem emu.csr.satp va (va + 2) page, found]
    dsimp only
    rw [if_pos allowed, target_next leaf va superpage within]

/-- Inside a page the word read is the two halfwords, and the second one can be read
    when the first can. -/
theorem read_both (mem : Memory) (pa : Word) (low : Half)
    (read : memoryRead16 mem pa = some low) (within : pa.toNat % 4096 + 4 ≤ 4096) :
    ∃ high, memoryRead16 mem (pa + 2) = some high ∧
      memoryRead32 mem pa = some (low.setWidth 32 ||| high.setWidth 32 <<< 16) := by
  have bound : pa.toNat < 2 ^ 32 := pa.isLt
  have size := size_toNat mem
  have near : (pa + 2).toNat = pa.toNat + 2 := by
    rw [BitVec.toNat_add]
    change (pa.toNat + 2) % 2 ^ 32 = pa.toNat + 2
    omega
  simp only [memoryRead16] at read ⊢
  split at read
  · cases read
  · rename_i first
    cases read
    rw [gt_iff_lt, BitVec.lt_def, near, size] at first
    have second : ¬ pa + 2 + 2 > mem.size := by
      rw [gt_iff_lt, BitVec.lt_def, size]
      bv_omega
    have both : ¬ pa + 4 > mem.size := by
      rw [gt_iff_lt, BitVec.lt_def, size]
      bv_omega
    refine ⟨halfAt mem.data (pa + 2), if_neg second, ?_⟩
    rw [memoryRead32, if_neg both, wordAt_halves]

/-! ## The fetch of a step -/

/-- The front end's use of a fetch. -/
def frontOf : Except (Word × Word) (Word × Bool) × Emulator → Front
  | (.error (cause, tval), emu) => .refused emu cause tval
  | (.ok (raw, compressed), emu) =>
    match decode raw with
    | none => .refused emu excIllegalInst raw
    | some inst => .issued emu (withLength inst compressed)

/-- Without an interrupt, an even pc is fetched from. -/
theorem frontEnd_fetch (emu : Emulator)
    (quiet : (trapCheckInterrupt emu emu.rf.pc).1 = false) (even : emu.rf.pc &&& 1 = 0) :
    frontEnd emu = frontOf (emuFetch (timerTick emu) emu.rf.pc) := by
  have outcome := frontEnd_outcome emu
  generalize frontEnd emu = front at outcome ⊢
  cases outcome with
  | interrupted after taken =>
    rw [taken] at quiet
    cases quiet
  | odd passed misaligned => exact absurd even misaligned
  | unfetched passed _ cause tval after failed => rw [failed, frontOf]
  | unknown passed _ raw compressed after fetched undecoded =>
    simp only [fetched, frontOf, undecoded]
  | issued passed _ raw compressed after inst fetched decoded =>
    simp only [fetched, frontOf, decoded]

/-- The step goes on from its front end, whatever that is. -/
theorem fetches_of (emu : Emulator) (front : Front) (reached : frontEnd emu = front) :
    Fetches emu front := by
  constructor
  · exact reached
  · intro host
    rw [emuStep_halves, reached]

/-- Translation does not see the timer. -/
theorem translate_tick (emu : Emulator) (va : Word) (acc : Access) :
    mmuTranslate (timerTick emu) va acc =
      ((mmuTranslate emu va acc).1, timerTick (mmuTranslate emu va acc).2) := by
  have update (leaf : Leaf) : pteUpdateAd (timerTick emu) leaf.addr leaf.pte acc =
      timerTick (pteUpdateAd emu leaf.addr leaf.pte acc) := by
    rw [pteUpdateAd_eq, pteUpdateAd_eq, timerTick_mem]
    exact (timerTick_withMem emu _).symm
  have allows (pte : Word) : pteAllows (timerTick emu) pte acc = pteAllows emu pte acc := by
    rw [timerTick_eq]
    rfl
  have bareness : Bare (timerTick emu) ↔ Bare emu := by
    rw [timerTick_eq]
    rfl
  have satp : (timerTick emu).csr.satp = emu.csr.satp := by
    rw [timerTick_eq]
  rw [mmuTranslate_eq, mmuTranslate_eq, timerTick_mem, satp]
  by_cases bare : Bare emu
  · rw [if_pos bare, if_pos (bareness.mpr bare)]
  · rw [if_neg bare, if_neg (fun other => bare (bareness.mp other))]
    cases walk emu.mem emu.csr.satp va with
    | none => rfl
    | some leaf =>
      dsimp only
      rw [allows, update]
      split
      · rfl
      · rfl

/-- The front end is what the parcel, or its exception, asks for. -/
def Follows : Except Word Parcel × Emulator → Front → Prop
  | (.error cause, after), front => ∃ tval, front = .refused after cause tval
  | (.ok parcel, after), front => front = decodeParcel after parcel

theorem law_follows (emu : Emulator) :
    FetchLaw emu ↔ Follows (fetchParcel (timerTick emu) emu.rf.pc) (frontEnd emu) := by
  rw [FetchLaw]
  rcases fetchParcel (timerTick emu) emu.rf.pc with ⟨result, after⟩
  cases result with
  | error cause =>
    constructor
    · rintro ⟨tval, fetches⟩
      exact ⟨tval, fetches.reached⟩
    · rintro ⟨tval, reached⟩
      exact ⟨tval, fetches_of emu _ reached⟩
  | ok parcel =>
    constructor
    · exact fun fetches => fetches.reached
    · exact fun reached => fetches_of emu _ reached

/-- A compressed instruction is decoded with its length. -/
theorem short_front (emu : Emulator) (low : Half) :
    frontOf
        (match expandCompressed low with
        | none => (.error (excIllegalInst, low.setWidth 32), emu)
        | some raw => (.ok (raw, true), emu)) =
      decodeParcel emu (.short low) := by
  simp only [decodeParcel]
  cases expandCompressed low with
  | none => rfl
  | some raw =>
    simp only [frontOf]
    cases decode raw with
    | none => rfl
    | some inst => rfl

theorem long_front (emu : Emulator) (word : Word) :
    frontOf (.ok (word, false), emu) = decodeParcel emu (.long word) := by
  simp only [decodeParcel, frontOf]
  cases decode word with
  | none => rfl
  | some inst => rfl

/-- The fetch of a 32-bit instruction inside a page is the fetch of its halfwords. -/
theorem inside_page (emu middle : Emulator) (pc pa : Word) (low : Half)
    (translated : mmuTranslate emu pc .fetch = (.ok pa, middle))
    (read : memoryRead16 middle.mem pa = some low) (wide : low &&& 3 = 3)
    (offset : pa.toNat % 4096 = pc.toNat % 4096) (within : pc.toNat % 4096 + 4 ≤ 4096) :
    Follows (fetchParcel emu pc) (frontOf (emuFetch emu pc)) := by
  obtain ⟨high, second, both⟩ := read_both middle.mem pa low read (by omega)
  have next := translate_next emu middle pc pa translated (by omega)
  have masked : (pa &&& 0xFFF).toNat = pa.toNat % 2 ^ 12 := BitMasks.and_low pa 12 (by decide)
  have fast : pa &&& 0xFFF ≤ 0xFFC := by
    rw [BitVec.le_def, masked]
    change pa.toNat % 4096 ≤ 4092
    omega
  have long : ¬ low &&& 3 ≠ 3 := not_not.mpr wide
  have parcel : fetchParcel emu pc =
      (.ok (.long (low.setWidth 32 ||| high.setWidth 32 <<< 16)), middle) := by
    simp only [fetchParcel, fetchHalf, translated, read, if_neg long, next, second]
  have word : emuFetch emu pc =
      (.ok (low.setWidth 32 ||| high.setWidth 32 <<< 16, false), middle) := by
    simp only [emuFetch, translated, read, if_neg long, if_pos fast, both]
  rw [parcel, word]
  exact long_front middle _

/-- At the end of a page the two descriptions agree when the second halfword
    translates. -/
theorem page_end (emu middle later : Emulator) (pc pa second : Word) (low : Half)
    (translated : mmuTranslate emu pc .fetch = (.ok pa, middle))
    (read : memoryRead16 middle.mem pa = some low) (wide : low &&& 3 = 3)
    (crossing : ¬ pa &&& 0xFFF ≤ 0xFFC)
    (next : mmuTranslate middle (pc + 2) .fetch = (.ok second, later)) :
    Follows (fetchParcel emu pc) (frontOf (emuFetch emu pc)) := by
  have long : ¬ low &&& 3 ≠ 3 := not_not.mpr wide
  simp only [fetchParcel, fetchHalf, emuFetch, translated, read, if_neg long, if_neg crossing, next]
  cases memoryRead16 later.mem second with
  | none => exact ⟨pc, rfl⟩
  | some high => exact long_front later _

/-- A second halfword that does not translate is refused with another cause. -/
theorem page_end_refused (emu middle later : Emulator) (pc pa cause : Word) (low : Half)
    (translated : mmuTranslate emu pc .fetch = (.ok pa, middle))
    (read : memoryRead16 middle.mem pa = some low) (wide : low &&& 3 = 3)
    (crossing : ¬ pa &&& 0xFFF ≤ 0xFFC)
    (next : mmuTranslate middle (pc + 2) .fetch = (.error cause, later)) :
    ¬ Follows (fetchParcel emu pc) (frontOf (emuFetch emu pc)) := by
  have long : ¬ low &&& 3 ≠ 3 := not_not.mpr wide
  simp only [fetchParcel, fetchHalf, emuFetch, translated, read, if_neg long, if_neg crossing, next]
  rintro ⟨tval, same⟩
  have causes := (Front.refused.inj same).2.1
  revert causes
  decide

/-- At the end of a page the descriptions agree exactly when the next halfword is
    mapped, judged by the tables of before. -/
theorem crossing_iff (emu middle : Emulator) (pa : Word) (low : Half)
    (translated : mmuTranslate emu emu.rf.pc .fetch = (.ok pa, middle))
    (read : memoryRead16 middle.mem pa = some low) (wide : low &&& 3 = 3)
    (last : emu.rf.pc.toNat % 4096 = 4094) :
    Follows (fetchParcel (timerTick emu) emu.rf.pc) (frontOf (emuFetch (timerTick emu) emu.rf.pc)) ↔
      ∃ second, Resolves emu (emu.rf.pc + 2) .fetch second := by
  have start : Touched emu [(emu.rf.pc, .fetch), (emu.rf.pc + 2, .fetch)] emu.mem :=
    touched_refl emu _
  obtain ⟨mem, state, touched, resolved⟩ := translate_touched emu middle emu.mem _ _ pa .fetch
    start List.mem_cons_self translated
  have offset := resolves_offset emu emu.rf.pc pa .fetch resolved
  have ticked := translate_tick emu emu.rf.pc .fetch
  have second := translate_tick middle (emu.rf.pc + 2) .fetch
  have masked : (pa &&& 0xFFF).toNat = pa.toNat % 2 ^ 12 := BitMasks.and_low pa 12 (by decide)
  have crossing : ¬ pa &&& 0xFFF ≤ 0xFFC := by
    rw [BitVec.le_def, masked]
    change ¬ pa.toNat % 4096 ≤ 4092
    omega
  rw [translated] at ticked
  rw [← timerTick_mem middle] at read
  cases next : mmuTranslate middle (emu.rf.pc + 2) .fetch with
  | mk result later =>
    rw [next] at second
    cases result with
    | error cause =>
      constructor
      · intro follows
        exact absurd follows
          (page_end_refused _ _ _ _ pa cause low ticked read wide crossing second)
      · rintro ⟨target, resolves⟩
        have success := resolves_translates emu mem _ touched _ target .fetch resolves
        rw [← state, next] at success
        cases success
    | ok target =>
      constructor
      · intro _
        rw [state] at next
        obtain ⟨-, -, -, resolves⟩ := translate_touched emu later mem _ _ target .fetch touched
          (List.mem_cons_of_mem _ List.mem_cons_self) next
        exact ⟨target, resolves⟩
      · intro _
        exact page_end _ _ _ _ pa target low ticked read wide crossing second

/-- A fetch whose first halfword is missing, short, or not the last of its page
    follows the two-halfword description. -/
theorem fetch_regular (emu : Emulator) (even : emu.rf.pc &&& 1 = 0)
    (regular : ∀ pa middle low, mmuTranslate emu emu.rf.pc .fetch = (.ok pa, middle) →
      memoryRead16 middle.mem pa = some low → low &&& 3 = 3 → emu.rf.pc.toNat % 4096 ≠ 4094) :
    Follows (fetchParcel (timerTick emu) emu.rf.pc)
      (frontOf (emuFetch (timerTick emu) emu.rf.pc)) := by
  have ticked := translate_tick emu emu.rf.pc .fetch
  cases translated : mmuTranslate emu emu.rf.pc .fetch with
  | mk result middle =>
    rw [translated] at ticked
    cases result with
    | error cause =>
      obtain ⟨-, page⟩ := mmuTranslate_error _ _ _ cause _ ticked
      simp only [fetchParcel, fetchHalf, emuFetch, ticked]
      exact ⟨emu.rf.pc, by rw [page]; rfl⟩
    | ok pa =>
      obtain ⟨-, -, -, resolved⟩ := translate_touched emu middle emu.mem _ _ pa .fetch
        (touched_refl emu _) (List.mem_singleton_self _) translated
      have offset := resolves_offset emu emu.rf.pc pa .fetch resolved
      have memory : (timerTick middle).mem = middle.mem := timerTick_mem middle
      cases read : memoryRead16 middle.mem pa with
      | none =>
        simp only [fetchParcel, fetchHalf, emuFetch, ticked, memory, read]
        exact ⟨emu.rf.pc, rfl⟩
      | some low =>
        by_cases wide : low &&& 3 = 3
        · have inner := regular pa middle low translated read wide
          have halfwords := low_one_clear emu.rf.pc even
          rw [← memory] at read
          exact inside_page _ _ _ pa low ticked read wide offset (by omega)
        · simp only [fetchParcel, fetchHalf, emuFetch, ticked, memory, read]
          rw [if_pos wide, if_pos wide]
          exact short_front (timerTick middle) low

/-- Without an interrupt, an even pc is fetched by halfwords exactly where the second
    halfword of an instruction across two pages is mapped. -/
theorem fetch_law_iff (emu : Emulator) (quiet : (trapCheckInterrupt emu emu.rf.pc).1 = false)
    (even : emu.rf.pc &&& 1 = 0) : FetchLaw emu ↔ SecondMapped emu := by
  rw [law_follows, frontEnd_fetch emu quiet even]
  constructor
  · intro follows pa middle low translated read wide last
    exact (crossing_iff emu middle pa low translated read wide last).mp follows
  · intro mapped
    by_cases crosses : ∃ pa middle low, mmuTranslate emu emu.rf.pc .fetch = (.ok pa, middle) ∧
        memoryRead16 middle.mem pa = some low ∧ low &&& 3 = 3 ∧ emu.rf.pc.toNat % 4096 = 4094
    · obtain ⟨pa, middle, low, translated, read, wide, last⟩ := crosses
      exact (crossing_iff emu middle pa low translated read wide last).mpr
        (mapped pa middle low translated read wide last)
    · apply fetch_regular emu even
      intro pa middle low translated read wide last
      exact crosses ⟨pa, middle, low, translated, read, wide, last⟩

/-! ## An instruction across two pages -/

/-- A user state whose pc is the last halfword of a mapped page, where `addi x0, x0, 0`
    begins. The next page has the given entry, and both handlers are installed. -/
def pageEnd (entry : Word) : Emulator :=
  { emuInit (fun _ => 0) with
    mem :=
      { data := fun index =>
          if index < 0x2000 then (programImage 0x1000 [0x801]).data index
          else if index < 0x3000 then (programImage 0x200C [0xC1B, entry]).data index
          else (programImage 0x3FFC [0x00130000]).data index
        size := memSize
        sized := rfl }
    rf := { regfileInit with pc := 0x3FFE }
    csr := { csrInit with satp := 0x80000001, mtvec := 0x100 }
    priv := privU
    state := .running }

/-- With the next page mapped as well, the instruction is fetched. -/
theorem pageEnd_fetched : FetchLaw (pageEnd 0x101B) := by
  apply (fetch_law_iff (pageEnd 0x101B) (by decide) (by decide)).mpr
  intro pa middle low _ _ _ _
  have paged : ¬ Bare (pageEnd 0x101B) := by decide
  have found : walk (pageEnd 0x101B).mem 0x80000001 0x4000 =
      some { addr := 0x2010, pte := 0x101B, large := false } := by
    decide +kernel
  exact ⟨0x4000, Or.inr ⟨_, paged, found, by decide, by decide⟩⟩

/-- With the next page unmapped, the step raises an instruction access fault. -/
theorem pageEnd_accessFault :
    (emuStep idleHost (pageEnd 0)).1 = .trapped 1 0x3FFE ∧
      ¬ ∀ emu, (trapCheckInterrupt emu emu.rf.pc).1 = false → emu.rf.pc &&& 1 = 0 →
        FetchLaw emu := by
  constructor
  · decide +kernel
  · intro always
    have law := always (pageEnd 0) (by decide) (by decide)
    rw [law_follows, frontEnd_fetch (pageEnd 0) (by decide) (by decide)] at law
    have paged : ¬ Bare (pageEnd 0) := by decide
    have leaf : walk (pageEnd 0).mem 0x80000001 0x3FFE =
        some { addr := 0x200C, pte := 0xC1B, large := false } := by
      decide +kernel
    have first : (mmuTranslate (pageEnd 0) 0x3FFE .fetch).1 = .ok 0x3FFE :=
      resolves_translates (pageEnd 0) (pageEnd 0).mem _ (touched_refl (pageEnd 0) []) 0x3FFE 0x3FFE
        .fetch (Or.inr ⟨_, paged, leaf, by decide, by decide⟩)
    have read : memoryRead16 (mmuTranslate (pageEnd 0) 0x3FFE .fetch).2.mem 0x3FFE =
        some 0x0013 := by
      decide +kernel
    have unmapped : walk (pageEnd 0).mem 0x80000001 0x4000 = none := by decide +kernel
    obtain ⟨second, bare | resolved⟩ := (crossing_iff (pageEnd 0) _ 0x3FFE 0x0013
      (Prod.ext first rfl) read (by decide) (by decide)).mp law
    · exact paged bare.1
    · obtain ⟨leaf, -, found, -, -⟩ := resolved
      change walk (pageEnd 0).mem 0x80000001 0x4000 = some leaf at found
      rw [unmapped] at found
      cases found

end RvEmu.HalfwordFetch
