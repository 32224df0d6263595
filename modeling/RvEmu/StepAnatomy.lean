import RvEmu.ExecOutcome
import RvEmu.Step

/-!
# The anatomy of a step

A step has a front end, which takes an interrupt, refuses the fetch or decode
with an exception, or issues an instruction, and a back end, which executes what
was issued. Every step then has one of four shapes: an interrupt entered its
handler, an exception entered its handler, the machine stopped, or an
instruction completed in one of its outcomes.

Until an instruction completes, a step has changed the timer, its pending bit,
and accessed or dirty bits in the leaf entries its translations visited. This is
what makes traps precise, and every invariant of the machine is proved from it.
-/

namespace RvEmu.StepAnatomy

open LittleEndian WordMarks PageWalk PageTables ExecOutcome

/-! ## The timer -/

/-- The pending register after a tick. -/
def tickedMip (emu : Emulator) : Word :=
  if emu.mtimecmp ≠ 0 ∧ emu.mtime + 1 ≥ emu.mtimecmp then emu.csr.mip ||| mipMtip
  else emu.csr.mip &&& ~~~mipMtip

/-- The timer changes `mtime` and the pending register alone. -/
theorem timerTick_eq (emu : Emulator) :
    timerTick emu =
      { emu with mtime := emu.mtime + 1, csr := { emu.csr with mip := tickedMip emu } } := by
  simp only [timerTick, tickedMip]
  split
  · rfl
  · rfl

theorem timerTick_frame (emu : Emulator) :
    ∃ mip, timerTick emu =
      { emu with mtime := emu.mtime + 1, csr := { emu.csr with mip := mip } } :=
  ⟨tickedMip emu, timerTick_eq emu⟩

@[simp] theorem timerTick_mem (emu : Emulator) : (timerTick emu).mem = emu.mem := by
  rw [timerTick_eq]

@[simp] theorem timerTick_rf (emu : Emulator) : (timerTick emu).rf = emu.rf := by
  rw [timerTick_eq]

@[simp] theorem timerTick_priv (emu : Emulator) : (timerTick emu).priv = emu.priv := by
  rw [timerTick_eq]

/-- The timer does not see the memory. -/
theorem timerTick_withMem (emu : Emulator) (mem : Memory) :
    timerTick (withMem emu mem) = withMem (timerTick emu) mem := by
  rw [timerTick_eq, timerTick_eq]
  rfl

/-- The state before an instruction completes or traps: the timer has ticked and
    memory may have been touched. -/
def ticked (emu : Emulator) (mem : Memory) : Emulator := withMem (timerTick emu) mem

@[simp] theorem ticked_mem (emu : Emulator) (mem : Memory) : (ticked emu mem).mem = mem := rfl

@[simp] theorem ticked_rf (emu : Emulator) (mem : Memory) : (ticked emu mem).rf = emu.rf :=
  timerTick_rf emu

@[simp] theorem ticked_priv (emu : Emulator) (mem : Memory) : (ticked emu mem).priv = emu.priv :=
  timerTick_priv emu

/-- Of the CSRs, only the pending register has changed. -/
theorem ticked_csr (emu : Emulator) (mem : Memory) :
    ∃ mip, (ticked emu mem).csr = { emu.csr with mip := mip } := by
  obtain ⟨mip, frame⟩ := timerTick_frame emu
  exact ⟨mip, congrArg Emulator.csr frame⟩

@[simp] theorem ticked_mstatus (emu : Emulator) (mem : Memory) :
    (ticked emu mem).csr.mstatus = emu.csr.mstatus := by
  obtain ⟨mip, same⟩ := ticked_csr emu mem
  rw [same]

/-- With memory untouched this is the ticked machine. -/
theorem ticked_same (emu : Emulator) : ticked emu emu.mem = timerTick emu := by
  obtain ⟨mip, frame⟩ := timerTick_frame emu
  rw [ticked, frame]
  rfl

/-- When no interrupt is taken, the check has only advanced the timer. -/
theorem notTaken_state (emu after : Emulator) (epc : Word)
    (passed : trapCheckInterrupt emu epc = (false, after)) : after = timerTick emu := by
  simp only [trapCheckInterrupt] at passed
  split at passed
  · simp only [trapRaise] at passed
    split at passed
    · split at passed
      · cases passed
        rfl
      · cases passed
    · split at passed
      · cases passed
        rfl
      · cases passed
  · cases passed
    rfl

/-- An interrupt that is taken passed the gate and entered a handler. -/
theorem taken_state (emu after : Emulator) (epc : Word)
    (taken : trapCheckInterrupt emu epc = (true, after)) :
    trapRaise (timerTick emu) mcauseIrqTimer 0 epc = (true, after) ∧
      (timerTick emu).csr.mip &&& mipMtip ≠ 0 ∧ (timerTick emu).csr.mie &&& mieMtie ≠ 0 ∧
      ((timerTick emu).priv ≠ privM ∨ (timerTick emu).csr.mstatus &&& mstatusMie ≠ 0) := by
  simp only [trapCheckInterrupt] at taken
  split at taken
  · rename_i gate
    exact ⟨taken, gate⟩
  · cases taken

/-- A trap that is raised enters the supervisor or the machine handler, by
    delegation and by the installed vector. -/
theorem trapRaise_cases (emu after : Emulator) (cause tval epc : Word)
    (raised : trapRaise emu cause tval epc = (true, after)) :
    (delegated emu cause = true ∧ emu.csr.stvec ≠ 0 ∧
        after = enterSupervisor emu cause tval epc) ∨
      (delegated emu cause = false ∧ emu.csr.mtvec ≠ 0 ∧
        after = enterMachine emu cause tval epc) := by
  simp only [trapRaise] at raised
  split at raised
  · rename_i sent
    split at raised
    · cases raised
    · rename_i vector
      cases raised
      exact Or.inl ⟨sent, vector, rfl⟩
  · rename_i kept
    split at raised
    · cases raised
    · rename_i vector
      cases raised
      exact Or.inr ⟨by simpa using kept, vector, rfl⟩

/-- A trap that is refused changes nothing. -/
theorem trapRaise_refused (emu after : Emulator) (cause tval epc : Word)
    (refused : trapRaise emu cause tval epc = (false, after)) : after = emu := by
  simp only [trapRaise] at refused
  split at refused
  · split at refused
    · cases refused
      rfl
    · cases refused
  · split at refused
    · cases refused
      rfl
    · cases refused

/-! ## Front end and back end -/

/-- How the first half of a step ends. -/
inductive Front where
  | interrupted (emu : Emulator)
  | refused (emu : Emulator) (cause tval : Word)
  | issued (emu : Emulator) (inst : DecodedInst)

/-- The half of `emu_step` before `execute`. -/
def frontEnd (emu : Emulator) : Front :=
  let pc := emu.rf.pc
  match trapCheckInterrupt emu pc with
  | (true, emu) => .interrupted emu
  | (false, emu) =>
    if pc &&& 1 ≠ 0 then .refused emu excInstMisaligned pc
    else
      match emuFetch emu pc with
      | (.error (cause, tval), emu) => .refused emu cause tval
      | (.ok (raw, compressed), emu) =>
        match decode raw with
        | none => .refused emu excIllegalInst raw
        | some inst => .issued emu (withLength inst compressed)

/-- What the second half makes of it. -/
def backEnd (host : HostFloat) (pc : Word) : Front → Event × Emulator
  | .interrupted emu => (.interrupted, emu)
  | .refused emu cause tval => raiseOrStop emu cause tval pc
  | .issued emu inst => execute host emu inst

/-- A step is its two halves and the cycle counter. -/
theorem emuStep_halves (host : HostFloat) (emu : Emulator) :
    emuStep host emu = countCycle (backEnd host emu.rf.pc (frontEnd emu)) := by
  simp only [emuStep, frontEnd]
  rcases trapCheckInterrupt emu emu.rf.pc with ⟨taken, ticked⟩
  cases taken with
  | true => rfl
  | false =>
    dsimp only
    by_cases odd : emu.rf.pc &&& 1 ≠ 0
    · simp only [if_pos odd, backEnd]
    · simp only [if_neg odd]
      rcases emuFetch ticked emu.rf.pc with ⟨fetched, after⟩
      cases fetched with
      | error fault => rfl
      | ok word =>
        dsimp only
        cases decode word.1 with
        | none => rfl
        | some inst => rfl

/-- The instruction a step issues to `execute`, with the state at that point. -/
def issued (emu : Emulator) : Option (Emulator × DecodedInst) :=
  match frontEnd emu with
  | .issued emu inst => some (emu, inst)
  | _ => none

/-- The addresses the fetch translates: the pc, and the next halfword when a
    32-bit instruction starts in the last two bytes of a page. -/
def fetchAccesses (emu : Emulator) : List (Word × Access) :=
  let second :=
    match mmuTranslate emu emu.rf.pc .fetch with
    | (.error _, _) => []
    | (.ok fetchPa, after) =>
      match memoryRead16 after.mem fetchPa with
      | none => []
      | some lo =>
        if lo &&& 3 = 3 ∧ ¬ fetchPa &&& 0xFFF ≤ 0xFFC then [(emu.rf.pc + 2, Access.fetch)] else []
  (emu.rf.pc, .fetch) :: second

/-- The addresses a step translates, in order: those of the fetch, and the data
    access of the issued instruction. -/
def stepAccesses (emu : Emulator) : List (Word × Access) :=
  match frontEnd emu with
  | .interrupted _ => []
  | .refused _ _ _ => if emu.rf.pc &&& 1 ≠ 0 then [] else fetchAccesses (timerTick emu)
  | .issued after inst => fetchAccesses (timerTick emu) ++ (dataAccess after inst).toList

/-! ## Touched memory -/

/-- The addresses of the leaf entries that translations of these accesses reach. -/
def VisitedLeaf (emu : Emulator) (accesses : List (Word × Access)) (addr : Word) : Prop :=
  ¬ Bare emu ∧ ∃ access ∈ accesses, ∃ leaf,
    walk emu.mem emu.csr.satp access.1 = some leaf ∧ leaf.addr = addr

/-- Memory differs by accessed and dirty bits gained in visited leaf entries. -/
def Touched (emu : Emulator) (accesses : List (Word × Access)) (mem : Memory) : Prop :=
  Marked adMask (VisitedLeaf emu accesses) emu.mem.data mem.data

/-- The address a translation gives, read off the tables of the state. -/
def Resolves (emu : Emulator) (va : Word) (acc : Access) (pa : Word) : Prop :=
  (Bare emu ∧ pa = va) ∨
    ∃ leaf, ¬ Bare emu ∧ walk emu.mem emu.csr.satp va = some leaf ∧
      pteAllows emu leaf.pte acc = true ∧ pa = leaf.target va

theorem touched_refl (emu : Emulator) (accesses : List (Word × Access)) :
    Touched emu accesses emu.mem :=
  marked_refl adMask _ emu.mem.data

theorem touched_mono (emu : Emulator) (few many : List (Word × Access)) (mem : Memory)
    (subset : ∀ access, access ∈ few → access ∈ many) (touched : Touched emu few mem) :
    Touched emu many mem := by
  apply marked_mono adMask _ _ _ _ ?_ touched
  rintro addr ⟨paged, access, member, leaf, found, same⟩
  exact ⟨paged, access, subset access member, leaf, found, same⟩

/-- A translation in a touched memory touches its own leaf, and resolves as it
    would have in the memory before. -/
theorem translate_touched (emu after : Emulator) (mem : Memory)
    (accesses : List (Word × Access)) (va pa : Word) (acc : Access)
    (touched : Touched emu accesses mem) (member : (va, acc) ∈ accesses)
    (translated : mmuTranslate { emu with mem := mem } va acc = (.ok pa, after)) :
    ∃ mem', after = { emu with mem := mem' } ∧ Touched emu accesses mem' ∧
      Resolves emu va acc pa := by
  rcases mmuTranslate_ok _ after va pa acc translated with
    ⟨bare, same, unchanged⟩ | ⟨leaf, paged, found, allowed, target, updated⟩
  · exact ⟨mem, unchanged, touched, Or.inl ⟨bare, same⟩⟩
  · have walked := walk_marked emu.mem mem _ touched emu.csr.satp va
    dsimp only at found
    rw [found] at walked
    cases original : walk emu.mem emu.csr.satp va with
    | none =>
      rw [original] at walked
      cases walked
    | some first =>
      rw [original] at walked
      simp only [Option.map_some, Option.some.injEq] at walked
      subst walked
      obtain ⟨read, -, -, -⟩ := walk_found emu.mem emu.csr.satp va first original
      obtain ⟨-, stored⟩ := memoryRead32_some emu.mem _ _ read
      have aligned := walk_aligned emu.mem emu.csr.satp va first original
      have gained : Gains adMask first.pte (wordAt mem.data first.addr) := by
        rw [← stored]
        exact touched.gains first.addr aligned
      refine ⟨touchMemory mem (first.reread mem) acc, ?_, ?_, ?_⟩
      · rw [updated, pteUpdateAd_eq]
      · apply marked_trans adMask _ _ _ _ touched
        apply marked_mono adMask (· = first.addr)
        · rintro addr rfl
          exact ⟨paged, (va, acc), member, first, original, rfl⟩
        · exact touchMemory_marked mem (first.reread mem) acc aligned rfl
      · refine Or.inr ⟨first, paged, original, ?_, ?_⟩
        · rw [← pteAllows_gains emu first.pte _ acc gained]
          exact allowed
        · rw [target]
          exact target_gains first _ va gained

/-- What resolves before accessed and dirty updates translates after them. -/
theorem resolves_translates (emu : Emulator) (mem : Memory) (marked : Word → Prop)
    (changed : Marked adMask marked emu.mem.data mem.data) (va pa : Word) (acc : Access)
    (resolves : Resolves emu va acc pa) :
    (mmuTranslate { emu with mem := mem } va acc).1 = .ok pa := by
  have same := translate_marked emu mem marked changed va acc
  rw [withMem] at same
  rw [same, mmuTranslate_eq]
  rcases resolves with ⟨bare, rfl⟩ | ⟨leaf, paged, found, allowed, rfl⟩
  · rw [if_pos bare]
  · rw [if_neg paged, found]
    dsimp only
    rw [if_pos allowed]

/-- Translation keeps the offset in the page. -/
theorem resolves_offset (emu : Emulator) (va pa : Word) (acc : Access)
    (resolves : Resolves emu va acc pa) : pa.toNat % 4096 = va.toNat % 4096 := by
  rcases resolves with ⟨-, rfl⟩ | ⟨leaf, -, found, -, rfl⟩
  · rfl
  · obtain ⟨-, -, -, superpage⟩ := walk_found emu.mem emu.csr.satp va leaf found
    exact target_offset leaf va superpage

/-! ## The fetch -/

/-- The exception of a fetch, if it is one, has a small code. -/
def SmallCode (result : Except (Word × Word) (Word × Bool)) : Prop :=
  ∀ cause tval, result = .error (cause, tval) → cause < 16

theorem smallCode_error (cause tval : Word) (small : cause < 16) :
    SmallCode (.error (cause, tval)) := by
  rintro _ _ ⟨⟩
  exact small

theorem smallCode_ok (word : Word × Bool) : SmallCode (.ok word) := by
  rintro _ _ ⟨⟩

/-- A fetch ends in the state of its first translation or, for an instruction across
    the end of a page, of its second. -/
inductive FetchEnds (emu : Emulator) (pc : Word) :
    Except (Word × Word) (Word × Bool) × Emulator → Prop where
  | first (result : Except (Word × Word) (Word × Bool)) (found : Except Word Word)
      (after : Emulator) (translated : mmuTranslate emu pc .fetch = (found, after))
      (coded : SmallCode result) : FetchEnds emu pc (result, after)
  | second (result : Except (Word × Word) (Word × Bool)) (found : Except Word Word) (pa : Word)
      (low : Half) (middle after : Emulator)
      (translated : mmuTranslate emu pc .fetch = (.ok pa, middle))
      (read : memoryRead16 middle.mem pa = some low)
      (crossing : low &&& 3 = 3 ∧ ¬ pa &&& 0xFFF ≤ 0xFFC)
      (crossed : mmuTranslate middle (pc + 2) .fetch = (found, after))
      (coded : SmallCode result) : FetchEnds emu pc (result, after)

theorem emuFetch_ends (emu : Emulator) (pc : Word) : FetchEnds emu pc (emuFetch emu pc) := by
  have access : SmallCode (.error (excInstAccess, pc)) := smallCode_error _ _ (by decide)
  simp only [emuFetch]
  cases translated : mmuTranslate emu pc .fetch with
  | mk result middle =>
    cases result with
    | error cause =>
      obtain ⟨-, page⟩ := mmuTranslate_error emu middle _ cause _ translated
      have small : cause < 16 := by
        rw [page]
        decide
      exact .first _ _ middle translated (smallCode_error cause pc small)
    | ok pa =>
      dsimp only
      cases read : memoryRead16 middle.mem pa with
      | none => exact .first _ _ middle translated access
      | some low =>
        dsimp only
        by_cases narrow : low &&& 3 ≠ 3
        · rw [if_pos narrow]
          cases expandCompressed low with
          | none => exact .first _ _ middle translated (smallCode_error _ _ (by decide))
          | some raw => exact .first _ _ middle translated (smallCode_ok _)
        · rw [if_neg narrow]
          by_cases within : pa &&& 0xFFF ≤ 0xFFC
          · rw [if_pos within]
            cases memoryRead32 middle.mem pa with
            | none => exact .first _ _ middle translated access
            | some raw => exact .first _ _ middle translated (smallCode_ok _)
          · rw [if_neg within]
            have crossing := And.intro (not_not.mp narrow) within
            cases crossed : mmuTranslate middle (pc + 2) .fetch with
            | mk result after =>
              cases result with
              | error cause =>
                exact .second _ _ pa low middle after translated read crossing crossed access
              | ok next =>
                dsimp only
                cases memoryRead16 after.mem next with
                | none =>
                  exact .second _ _ pa low middle after translated read crossing crossed access
                | some high =>
                  exact .second _ _ pa low middle after translated read crossing crossed
                    (smallCode_ok _)

/-- A translation, also one that faults, touches at most its own leaf. -/
theorem translate_shape (emu after : Emulator) (mem : Memory)
    (accesses : List (Word × Access)) (va : Word) (acc : Access) (result : Except Word Word)
    (touched : Touched emu accesses mem) (member : (va, acc) ∈ accesses)
    (translated : mmuTranslate (withMem emu mem) va acc = (result, after)) :
    ∃ mem', after = withMem emu mem' ∧ Touched emu accesses mem' := by
  cases result with
  | error cause =>
    obtain ⟨same, -⟩ := mmuTranslate_error _ after _ cause _ translated
    exact ⟨mem, same, touched⟩
  | ok pa =>
    obtain ⟨mem', same, touched', -⟩ :=
      translate_touched emu after mem accesses va pa acc touched member translated
    exact ⟨mem', same, touched'⟩

/-- The fetch changes memory by touching the leaf entries of its translations,
    and its exceptions have small codes. -/
theorem emuFetch_shape (emu : Emulator) (pc : Word) (here : emu.rf.pc = pc) :
    ∃ mem, (emuFetch emu pc).2 = withMem emu mem ∧ Touched emu (fetchAccesses emu) mem ∧
      ∀ cause tval, (emuFetch emu pc).1 = .error (cause, tval) → cause < 16 := by
  subst here
  have start : Touched emu (fetchAccesses emu) emu.mem := touched_refl emu (fetchAccesses emu)
  have first : (emu.rf.pc, Access.fetch) ∈ fetchAccesses emu := List.mem_cons_self
  have ends := emuFetch_ends emu emu.rf.pc
  generalize emuFetch emu emu.rf.pc = fetched at ends ⊢
  cases ends with
  | first result found after translated coded =>
    obtain ⟨mem, same, touched⟩ :=
      translate_shape emu after emu.mem _ _ _ found start first translated
    exact ⟨mem, same, touched, coded⟩
  | second result found pa low middle after translated read crossing crossed coded =>
    obtain ⟨mem, same, touched⟩ :=
      translate_shape emu middle emu.mem _ _ _ _ start first translated
    have second : (emu.rf.pc + 2, Access.fetch) ∈ fetchAccesses emu := by
      simp only [fetchAccesses, translated, read, if_pos crossing]
      exact List.mem_cons_of_mem _ List.mem_cons_self
    rw [same] at crossed
    obtain ⟨later, same', touched'⟩ :=
      translate_shape emu after mem _ _ _ found touched second crossed
    exact ⟨later, same', touched', coded⟩

/-! ## The front end -/

/-- The timer does not affect what translations visit. -/
theorem touched_tick (emu : Emulator) (accesses : List (Word × Access)) (mem : Memory)
    (touched : Touched (timerTick emu) accesses mem) : Touched emu accesses mem := by
  obtain ⟨mip, ticked⟩ := timerTick_frame emu
  rw [ticked] at touched
  exact touched

/-- What the first half of a step can do: enter a handler, or tick the timer and then
    refuse an odd pc, a fetch that fails or an unknown word, or issue an instruction. -/
inductive FrontOutcome (emu : Emulator) : Front → Prop where
  | interrupted (after : Emulator) (taken : trapCheckInterrupt emu emu.rf.pc = (true, after)) :
      FrontOutcome emu (.interrupted after)
  | odd (passed : trapCheckInterrupt emu emu.rf.pc = (false, timerTick emu))
      (misaligned : emu.rf.pc &&& 1 ≠ 0) :
      FrontOutcome emu (.refused (timerTick emu) excInstMisaligned emu.rf.pc)
  | unfetched (passed : trapCheckInterrupt emu emu.rf.pc = (false, timerTick emu))
      (even : emu.rf.pc &&& 1 = 0) (cause tval : Word) (after : Emulator)
      (failed : emuFetch (timerTick emu) emu.rf.pc = (.error (cause, tval), after)) :
      FrontOutcome emu (.refused after cause tval)
  | unknown (passed : trapCheckInterrupt emu emu.rf.pc = (false, timerTick emu))
      (even : emu.rf.pc &&& 1 = 0) (raw : Word) (compressed : Bool) (after : Emulator)
      (fetched : emuFetch (timerTick emu) emu.rf.pc = (.ok (raw, compressed), after))
      (undecoded : decode raw = none) :
      FrontOutcome emu (.refused after excIllegalInst raw)
  | issued (passed : trapCheckInterrupt emu emu.rf.pc = (false, timerTick emu))
      (even : emu.rf.pc &&& 1 = 0) (raw : Word) (compressed : Bool) (after : Emulator)
      (inst : DecodedInst)
      (fetched : emuFetch (timerTick emu) emu.rf.pc = (.ok (raw, compressed), after))
      (decoded : decode raw = some inst) :
      FrontOutcome emu (.issued after (withLength inst compressed))

theorem frontEnd_outcome (emu : Emulator) : FrontOutcome emu (frontEnd emu) := by
  rw [frontEnd]
  rcases checked : trapCheckInterrupt emu emu.rf.pc with ⟨taken, after⟩
  cases taken with
  | true => exact .interrupted after checked
  | false =>
    have same := notTaken_state emu after _ checked
    subst same
    dsimp only
    by_cases misaligned : emu.rf.pc &&& 1 ≠ 0
    · rw [if_pos misaligned]
      exact .odd checked misaligned
    · have even : emu.rf.pc &&& 1 = 0 := not_not.mp misaligned
      rw [if_neg misaligned]
      rcases fetched : emuFetch (timerTick emu) emu.rf.pc with ⟨result, later⟩
      cases result with
      | error fault => exact .unfetched checked even fault.1 fault.2 later fetched
      | ok word =>
        obtain ⟨raw, compressed⟩ := word
        dsimp only
        cases decoded : decode raw with
        | none => exact .unknown checked even raw compressed later fetched decoded
        | some inst => exact .issued checked even raw compressed later inst fetched decoded

/-- An interrupted step entered a handler from the ticked state. -/
theorem interrupted_front (emu after : Emulator) (front : frontEnd emu = .interrupted after) :
    trapCheckInterrupt emu emu.rf.pc = (true, after) := by
  have outcome := frontEnd_outcome emu
  rw [front] at outcome
  cases outcome with
  | interrupted _ taken => exact taken

/-- A refused step has ticked the timer and touched what its fetch visited. -/
theorem refused_front (emu after : Emulator) (cause tval : Word)
    (front : frontEnd emu = .refused after cause tval) :
    cause < 16 ∧ ∃ mem, after = ticked emu mem ∧
      Touched emu (stepAccesses emu) mem := by
  have visits : stepAccesses emu =
      if emu.rf.pc &&& 1 ≠ 0 then [] else fetchAccesses (timerTick emu) := by
    rw [stepAccesses, front]
  have outcome := frontEnd_outcome emu
  obtain ⟨mem, state, touched, codes⟩ :=
    emuFetch_shape (timerTick emu) emu.rf.pc (by rw [timerTick_rf])
  rw [front] at outcome
  rw [visits]
  cases outcome with
  | odd passed misaligned =>
    refine ⟨by decide, (timerTick emu).mem, rfl, ?_⟩
    exact touched_tick emu _ _ (touched_refl (timerTick emu) _)
  | unfetched passed even cause tval after failed =>
    rw [failed] at state codes
    rw [if_neg (not_not.mpr even)]
    exact ⟨codes cause tval rfl, mem, state, touched_tick emu _ mem touched⟩
  | unknown passed even raw compressed after fetched undecoded =>
    rw [fetched] at state
    rw [if_neg (not_not.mpr even)]
    exact ⟨by decide, mem, state, touched_tick emu _ mem touched⟩

/-- An issued instruction was fetched and decoded in the ticked state. -/
theorem issued_front (emu after : Emulator) (inst : DecodedInst)
    (came : issued emu = some (after, inst)) :
    frontEnd emu = .issued after inst ∧
      trapCheckInterrupt emu emu.rf.pc = (false, timerTick emu) ∧ emu.rf.pc &&& 1 = 0 ∧
      (∃ raw compressed decoded, emuFetch (timerTick emu) emu.rf.pc =
          (.ok (raw, compressed), after) ∧ decode raw = some decoded ∧
          inst = withLength decoded compressed) ∧
      ∃ mem, after = ticked emu mem ∧
        Touched emu (fetchAccesses (timerTick emu)) mem := by
  have outcome := frontEnd_outcome emu
  obtain ⟨mem, state, touched, -⟩ :=
    emuFetch_shape (timerTick emu) emu.rf.pc (by rw [timerTick_rf])
  simp only [issued] at came
  cases front : frontEnd emu with
  | interrupted state =>
    rw [front] at came
    cases came
  | refused state cause tval =>
    rw [front] at came
    cases came
  | issued later decoded =>
    rw [front] at came outcome
    cases came
    cases outcome with
    | issued passed even raw compressed after plain fetched known =>
      rw [fetched] at state
      exact ⟨rfl, passed, even, ⟨raw, compressed, plain, fetched, known, rfl⟩, mem, state,
        touched_tick emu _ mem touched⟩

/-- The word and opcode of an issued instruction belong together. -/
theorem issued_opcode (emu after : Emulator) (inst : DecodedInst)
    (came : issued emu = some (after, inst)) : inst.opcode = opcodeOf inst.raw := by
  obtain ⟨-, -, -, ⟨raw, compressed, decoded, -, known, rfl⟩, -⟩ := issued_front emu after inst came
  obtain ⟨sameRaw, -, kind⟩ := decode_fields raw decoded known
  simp only [withLength]
  split
  · rw [kind, sameRaw]
  · rw [kind, sameRaw]

/-- A translation from a touched state leads to a touched state, and resolves as it
    would have before the step. -/
theorem ticked_translate (emu after : Emulator) (mem : Memory)
    (accesses : List (Word × Access)) (va pa : Word) (acc : Access)
    (touched : Touched emu accesses mem) (member : (va, acc) ∈ accesses)
    (translated : mmuTranslate (ticked emu mem) va acc = (.ok pa, after)) :
    ∃ later, after = ticked emu later ∧ Touched emu accesses later ∧ Resolves emu va acc pa := by
  obtain ⟨mip, frame⟩ := timerTick_frame emu
  simp only [ticked] at translated ⊢
  rw [frame] at translated ⊢
  obtain ⟨later, same, touchedLater, resolves⟩ := translate_touched
    { emu with mtime := emu.mtime + 1, csr := { emu.csr with mip := mip } } after mem accesses
    va pa acc touched member translated
  exact ⟨later, same, touchedLater, resolves⟩

/-- The accesses of a step that issues an instruction. -/
theorem issued_accesses (emu : Emulator) (mem : Memory) (inst : DecodedInst)
    (came : issued emu = some (ticked emu mem, inst)) :
    stepAccesses emu =
      fetchAccesses (timerTick emu) ++ (dataAccess (ticked emu mem) inst).toList := by
  rw [stepAccesses, (issued_front emu _ inst came).1]

/-- What the fetch touched, the step touched. -/
theorem touched_fetch (emu : Emulator) (mem : Memory) (inst : DecodedInst)
    (came : issued emu = some (ticked emu mem, inst))
    (touched : Touched emu (fetchAccesses (timerTick emu)) mem) :
    Touched emu (stepAccesses emu) mem := by
  apply touched_mono emu _ _ mem ?_ touched
  intro access member
  rw [issued_accesses emu mem inst came]
  exact List.mem_append_left _ member

/-- The data access of the issued instruction is one of the step's. -/
theorem data_member (emu : Emulator) (mem : Memory) (inst : DecodedInst) (access : Word × Access)
    (came : issued emu = some (ticked emu mem, inst))
    (asks : dataAccess (ticked emu mem) inst = some access) : access ∈ stepAccesses emu := by
  rw [issued_accesses emu mem inst came, asks]
  exact List.mem_append_right _ (List.mem_singleton_self _)

/-! ## The shapes of a step -/

/-- The cycle counter of a step that did not fail. -/
def counted (emu : Emulator) : Emulator :=
  { emu with csr := { emu.csr with mcycle := emu.csr.mcycle + 1 } }

/-- The four shapes of a step. -/
inductive StepShape (emu : Emulator) : Event × Emulator → Prop where
  | interrupted (after : Emulator) (taken : trapCheckInterrupt emu emu.rf.pc = (true, after)) :
      StepShape emu (.interrupted, counted after)
  | trapped (mem : Memory) (cause tval : Word) (after : Emulator)
      (touched : Touched emu (stepAccesses emu) mem) (code : cause < 16)
      (raised : trapRaise (ticked emu mem) cause tval emu.rf.pc = (true, after)) :
      StepShape emu (.trapped cause tval, counted after)
  | failed (mem : Memory) (touched : Touched emu (stepAccesses emu) mem) :
      StepShape emu (.failed, { ticked emu mem with state := .exception })
  | retired (mem : Memory) (inst : DecodedInst) (after : Emulator) (nextPc : Word)
      (effect : Effect) (came : issued emu = some (ticked emu mem, inst))
      (touched : Touched emu (fetchAccesses (timerTick emu)) mem)
      (outcome : Outcome (ticked emu mem) inst (.next after nextPc effect)) :
      StepShape emu
        (.retired effect, counted { after with rf := { after.rf with pc := nextPc } })

/-- Raising an exception is reported as this trap, or as a failure. -/
theorem raiseOrStop_event (emu : Emulator) (cause tval epc : Word) :
    (raiseOrStop emu cause tval epc).1 = .trapped cause tval ∨
      (raiseOrStop emu cause tval epc).1 = .failed := by
  simp only [raiseOrStop]
  rcases trapRaise emu cause tval epc with ⟨entered, after⟩
  cases entered with
  | true => exact Or.inl rfl
  | false => exact Or.inr rfl

/-- An exception enters a handler or stops the machine. -/
theorem raiseOrStop_shape (emu : Emulator) (mem : Memory) (cause tval : Word)
    (touched : Touched emu (stepAccesses emu) mem) (code : cause < 16) :
    StepShape emu (countCycle (raiseOrStop (ticked emu mem) cause tval emu.rf.pc)) := by
  simp only [raiseOrStop]
  rcases raised : trapRaise (ticked emu mem) cause tval emu.rf.pc with ⟨entered, after⟩
  cases entered with
  | true => exact .trapped mem cause tval after touched code raised
  | false =>
    rw [trapRaise_refused _ after cause tval _ raised]
    exact .failed mem touched

/-- Where an instruction does not complete, the machine is in a touched state. -/
theorem faulted_state (emu : Emulator) (mem : Memory) (inst : DecodedInst) (exit : Exec)
    (came : issued emu = some (ticked emu mem, inst))
    (touched : Touched emu (fetchAccesses (timerTick emu)) mem)
    (outcome : Outcome (ticked emu mem) inst exit) :
    (∃ after nextPc effect, exit = .next after nextPc effect) ∨
      ∃ later, Touched emu (stepAccesses emu) later ∧
        (exit = .unknown (ticked emu later) ∨
          (∃ cause addr, cause < 16 ∧ exit = .except (ticked emu later) cause addr) ∨
          (∃ cause, cause < 16 ∧ exit = .raised (ticked emu later) cause) ∨
          exit = .stopped (ticked emu later)) := by
  have wider := touched_fetch emu mem inst came touched
  cases outcome with
  | registers => exact Or.inl ⟨_, _, _, rfl⟩
  | floating => exact Or.inl ⟨_, _, _, rfl⟩
  | csrWritten => exact Or.inl ⟨_, _, _, rfl⟩
  | mret => exact Or.inl ⟨_, _, _, rfl⟩
  | sret => exact Or.inl ⟨_, _, _, rfl⟩
  | hostCalled => exact Or.inl ⟨_, _, _, rfl⟩
  | halted => exact Or.inl ⟨_, _, _, rfl⟩
  | unknown => exact Or.inr ⟨mem, wider, Or.inl rfl⟩
  | except cause addr code =>
    exact Or.inr ⟨mem, wider, Or.inr (Or.inl ⟨cause, addr, code, rfl⟩)⟩
  | raised cause code =>
    exact Or.inr ⟨mem, wider, Or.inr (Or.inr (Or.inl ⟨cause, code, rfl⟩))⟩
  | stopped => exact Or.inr ⟨mem, wider, Or.inr (Or.inr (Or.inr rfl))⟩
  | accessed addr acc pa after exit asks translated rest =>
    obtain ⟨later, rfl, touchedLater, -⟩ := ticked_translate emu after mem _ addr pa acc wider
      (data_member emu mem inst (addr, acc) came asks) translated
    cases rest with
    | loaded => exact Or.inl ⟨_, _, _, rfl⟩
    | reserved => exact Or.inl ⟨_, _, _, rfl⟩
    | timerSet => exact Or.inl ⟨_, _, _, rfl⟩
    | stored => exact Or.inl ⟨_, _, _, rfl⟩
    | conditional => exact Or.inl ⟨_, _, _, rfl⟩
    | lost => exact Or.inl ⟨_, _, _, rfl⟩
    | unknown => exact Or.inr ⟨later, touchedLater, Or.inl rfl⟩
    | fault cause code =>
      exact Or.inr ⟨later, touchedLater, Or.inr (Or.inl ⟨cause, addr, code, rfl⟩)⟩

/-- Every step has one of the four shapes. -/
theorem step_shape (host : HostFloat) (emu : Emulator) : StepShape emu (emuStep host emu) := by
  rw [emuStep_halves]
  cases front : frontEnd emu with
  | interrupted after => exact .interrupted after (interrupted_front emu after front)
  | refused after cause tval =>
    obtain ⟨code, mem, same, touched⟩ := refused_front emu after cause tval front
    subst same
    exact raiseOrStop_shape emu mem cause tval touched code
  | issued after inst =>
    have came : issued emu = some (after, inst) := by
      rw [issued, front]
    obtain ⟨-, -, -, -, mem, same, touched⟩ := issued_front emu after inst came
    subst same
    have samePc : (ticked emu mem).rf.pc = emu.rf.pc := by rw [ticked_rf]
    have illegal : excIllegalInst < 16 := by decide
    simp only [backEnd, execute, samePc]
    have outcome := execSwitch_outcome host (ticked emu mem) inst
    rcases faulted_state emu mem inst _ came touched outcome with
      ⟨after, nextPc, effect, exit⟩ | ⟨later, touchedLater, exit⟩
    · rw [exit] at outcome
      rw [exit]
      exact .retired mem inst after nextPc effect came touched outcome
    · rcases exit with exit | ⟨cause, addr, code, exit⟩ | ⟨cause, code, exit⟩ | exit
      · rw [exit]
        exact raiseOrStop_shape emu later _ _ touchedLater illegal
      · rw [exit]
        exact raiseOrStop_shape emu later _ _ touchedLater code
      · rw [exit]
        exact raiseOrStop_shape emu later _ _ touchedLater code
      · rw [exit]
        exact .failed later touchedLater

/-! ## Failures and traps -/

/-- A failed step leaves the ticked state with its run state at exception. -/
theorem failed_state (host : HostFloat) (emu : Emulator)
    (failed : (emuStep host emu).1 = .failed) :
    ∃ mem, Touched emu (stepAccesses emu) mem ∧
      (emuStep host emu).2 = { ticked emu mem with state := .exception } := by
  have shape := step_shape host emu
  generalize emuStep host emu = result at shape failed
  cases shape with
  | interrupted => cases failed
  | trapped => cases failed
  | failed mem touched => exact ⟨mem, touched, rfl⟩
  | retired => cases failed

/-- A failed step stops the machine with an exception. -/
theorem failed_exception (host : HostFloat) (emu : Emulator)
    (failed : (emuStep host emu).1 = .failed) : (emuStep host emu).2.state = .exception := by
  obtain ⟨mem, -, state⟩ := failed_state host emu failed
  rw [state]

/-- The event reports that a handler was entered. -/
def TakesTrap (event : Event) : Prop :=
  event = .interrupted ∨ ∃ cause tval, event = .trapped cause tval

/-- A step that takes a trap raised it in a touched state, for the pc of the
    step. -/
theorem trap_step (host : HostFloat) (emu : Emulator)
    (takes : TakesTrap (emuStep host emu).1) :
    ∃ mem cause tval after, Touched emu (stepAccesses emu) mem ∧
      trapRaise (ticked emu mem) cause tval emu.rf.pc = (true, after) ∧
      (emuStep host emu).2 = counted after := by
  have shape := step_shape host emu
  generalize emuStep host emu = result at shape takes
  cases shape with
  | interrupted after taken =>
    obtain ⟨raised, -⟩ := taken_state emu after _ taken
    rw [← ticked_same] at raised
    exact ⟨emu.mem, _, _, after, touched_refl emu _, raised, rfl⟩
  | trapped mem cause tval after touched code raised =>
    exact ⟨mem, cause, tval, after, touched, raised, rfl⟩
  | failed mem touched =>
    rcases takes with taken | ⟨cause, tval, taken⟩
    · cases taken
    · cases taken
  | retired mem inst after nextPc effect came touched outcome =>
    rcases takes with taken | ⟨cause, tval, taken⟩
    · cases taken
    · cases taken

/-! ## System instructions -/

/-- The environment call is told apart from the other system instructions. -/
theorem ecall_switch (host : HostFloat) (emu : Emulator) (inst : DecodedInst)
    (kind : inst.opcode = .system) (raw : inst.raw = rawEcall) :
    execSwitch host emu inst = execEcall emu inst := by
  have notMret : ¬ rawEcall = rawMret := by decide
  have notSret : ¬ rawEcall = rawSret := by decide
  have notFence : ¬ rawEcall &&& 0xFE007FFF = 0x12000073 := by decide
  simp only [execSwitch, kind, execSystem, raw, notMret, notSret, notFence, if_false, if_true]

/-- A step that issues an instruction executes it. -/
theorem issued_step (host : HostFloat) (emu after : Emulator) (inst : DecodedInst)
    (came : issued emu = some (after, inst)) :
    emuStep host emu = countCycle (execute host after inst) := by
  rw [emuStep_halves, (issued_front emu after inst came).1]
  rfl

/-- An `mret` issued in machine mode returns. -/
theorem mret_step (host : HostFloat) (emu after : Emulator) (inst : DecodedInst)
    (came : issued emu = some (after, inst)) (raw : inst.raw = rawMret)
    (level : after.priv = privM) :
    emuStep host emu =
      (.retired .quiet, counted { (trapMret after).2 with
        rf := { (trapMret after).2.rf with pc := (trapMret after).1 } }) := by
  have kind : inst.opcode = .system := by
    rw [issued_opcode emu after inst came, raw]
    decide
  rw [issued_step host emu after inst came]
  simp only [execute, execSwitch, kind, execSystem, raw, level, if_true, ne_eq, not_true_eq_false,
    if_false]
  rfl

/-- An `sret` issued in supervisor mode returns. -/
theorem sret_step (host : HostFloat) (emu after : Emulator) (inst : DecodedInst)
    (came : issued emu = some (after, inst)) (raw : inst.raw = rawSret)
    (level : after.priv = privS) :
    emuStep host emu =
      (.retired .quiet, counted { (trapSret after).2 with
        rf := { (trapSret after).2.rf with pc := (trapSret after).1 } }) := by
  have kind : inst.opcode = .system := by
    rw [issued_opcode emu after inst came, raw]
    decide
  have other : ¬ rawSret = rawMret := by decide
  have allowed : ¬ privS < privS := by decide
  rw [issued_step host emu after inst came]
  simp only [execute, execSwitch, kind, execSystem, raw, other, level, allowed, if_true, if_false]
  rfl

end RvEmu.StepAnatomy
