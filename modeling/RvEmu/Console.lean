import RvEmu.ProcessIsolation
import RvEmu.Stopping

/-!
# What the guest prints

Two paths lead to the console: a byte stored to the UART, and the host's `write` call. The
machine never reads back what it printed, so the characters of a step are a function of the
state before it. `write` prints the readable part of its buffer and returns its length. User
code prints through a page that holds the UART, or not at all, and what it prints shows no
more of memory than its other steps do.

The messages of the emulator itself are not the guest's.
-/

namespace RvEmu.Console

open PageWalk PageTables ExecOutcome StepAnatomy MemoryAgreement PageIntegrity PageSecrecy
open AddressSpaces ProcessIsolation Stopping

/-! ## The characters of a step -/

/-- What `memory_write8` prints. -/
def memoryWrite8Prints (addr : Word) (val : Byte) : List Byte :=
  if addr = csrMmioUart then [val] else []

/-- What a `STORE` prints. -/
def storePrints (emu : Emulator) (inst : DecodedInst) : List Byte :=
  let addr := regRead emu.rf inst.rs1 + inst.imm
  if storeMisaligned inst addr then []
  else
    match mmuTranslate emu addr .store with
    | (.error _, _) => []
    | (.ok pa, _) =>
      if inst.funct3 = 0 then memoryWrite8Prints pa ((regRead emu.rf inst.rs2).setWidth 8) else []

/-- The characters of the host's `write` call, with `remaining` to go at index `i`. -/
def writtenBytes (mem : Memory) (buf : Word) : Nat → Word → List Byte
  | 0, _ => []
  | remaining + 1, i =>
    match memoryRead8 mem (buf + i) with
    | none => []
    | some ch => ch :: writtenBytes mem buf remaining (i + 1)

/-- What the host system calls print for the guest. -/
def hostCallPrints (emu : Emulator) : List Byte :=
  let a1 := regRead emu.rf 11
  let a2 := regRead emu.rf 12
  let a7 := regRead emu.rf 17
  if a7 = 0 ∨ a7 = 93 then []
  else if a7 = 64 then
    let len := if a2 > 8192 then 8192 else a2
    writtenBytes emu.mem a1 len.toNat 0
  else []

/-- What an environment call prints. -/
def ecallPrints (emu : Emulator) : List Byte :=
  if emu.csr.mtvec ≠ 0 ∨ emu.csr.stvec ≠ 0 then []
  else if emu.priv ≠ privM then []
  else hostCallPrints emu

/-- What `execute` prints for the guest. -/
def executePrints (emu : Emulator) (inst : DecodedInst) : List Byte :=
  match inst.opcode with
  | .store => storePrints emu inst
  | .system => if inst.raw = rawEcall then ecallPrints emu else []
  | _ => []

/-- What `emu_step` prints for the guest. -/
def stepPrints (emu : Emulator) : List Byte :=
  match issued emu with
  | none => []
  | some (ready, inst) => executePrints ready inst

/-- What the first `n` steps print. -/
def runPrints (host : HostFloat) (start : Emulator) : Nat → List Byte
  | 0 => []
  | n + 1 => runPrints host start n ++ stepPrints (stateAfter host start n)

/-! ## The host's write call -/

/-- The bytes of a buffer that lie in memory. -/
def readable (mem : Memory) (buf : Word) (len : Nat) : Nat :=
  min len (mem.size.toNat - buf.toNat)

/-- The bytes at consecutive addresses. -/
def bytesAt (mem : Memory) (buf : Word) (count : Nat) : List Byte :=
  (List.range count).map (fun i => mem.data (buf + BitVec.ofNat 32 i))

/-- Counting on from the next address. -/
theorem add_one_ofNat (addr : Word) (count : Nat) :
    addr + 1 + BitVec.ofNat 32 count = addr + BitVec.ofNat 32 (count + 1) := by
  rw [BitVec.ofNat_add, BitVec.add_assoc]
  exact congrArg (addr + ·) (BitVec.add_comm _ _)

/-- Both halves of the loop stop at the end of memory. The induction is on the bytes to go. -/
theorem written_readable (mem : Memory) (buf : Word) (remaining : Nat) (i : Word) :
    writtenBytes mem buf remaining i = bytesAt mem (buf + i) (readable mem (buf + i) remaining) ∧
      writtenCount mem buf remaining i =
        i + BitVec.ofNat 32 (readable mem (buf + i) remaining) := by
  induction remaining generalizing i with
  | zero =>
    have none : readable mem (buf + i) 0 = 0 := Nat.zero_min _
    rw [none]
    exact ⟨rfl, (BitVec.add_zero i).symm⟩
  | succ remaining inductionHypothesis =>
    obtain ⟨bytes, count⟩ := inductionHypothesis (i + 1)
    have next : buf + (i + 1) = buf + i + 1 := (BitVec.add_assoc buf i 1).symm
    have size := size_toNat mem
    rw [writtenBytes, writtenCount, memoryRead8]
    by_cases outside : buf + i ≥ mem.size
    · have none : readable mem (buf + i) (remaining + 1) = 0 := by
        simp only [readable]
        bv_omega
      rw [if_pos outside, none]
      exact ⟨rfl, (BitVec.add_zero i).symm⟩
    · have more : readable mem (buf + i) (remaining + 1) =
          readable mem (buf + (i + 1)) remaining + 1 := by
        rw [next]
        simp only [readable]
        bv_omega
      rw [if_neg outside, more]
      dsimp only
      constructor
      · rw [bytes, bytesAt, bytesAt, List.range_succ_eq_map, List.map_cons, List.map_map, next]
        refine congrArg₂ List.cons ?_ ?_
        · exact congrArg mem.data (BitVec.add_zero _).symm
        · apply List.map_congr_left
          intro k _
          refine congrArg mem.data ?_
          exact add_one_ofNat (buf + i) k
      · rw [count]
        exact add_one_ofNat i _

/-- The buffer of the call: its length is clipped to 8192 bytes, and then to memory. -/
def buffer (emu : Emulator) : Nat :=
  readable emu.mem (regRead emu.rf 11) (min (regRead emu.rf 12).toNat 8192)

/-- What the `write` call is to do: it prints the readable bytes of its buffer, returns their
    number in `a0`, and changes nothing else but the clocks and the pc. -/
structure Writes (host : HostFloat) (emu : Emulator) (inst : DecodedInst) : Prop where
  prints : stepPrints emu = bytesAt emu.mem (regRead emu.rf 11) (buffer emu)
  event : (emuStep host emu).1 = .retired .quiet
  after : (emuStep host emu).2 =
    { emu with
      mtime := emu.mtime + 1
      rf := { regWrite emu.rf 10 (BitVec.ofNat 32 (buffer emu)) with pc := seqPc emu inst }
      csr := { emu.csr with mip := tickedMip emu, mcycle := emu.csr.mcycle + 1 } }

/-- Where addresses are physical a step touches no table. -/
theorem bare_untouched (emu : Emulator) (accesses : List (Word × Access)) (mem : Memory)
    (bare : Bare emu) (touched : Touched emu accesses mem) : mem = emu.mem := by
  have same : mem.data = emu.mem.data := by
    funext index
    by_contra differs
    exact (WordMarks.marked_byte adMask _ _ _ touched index differs).1 bare
  cases mem with
  | mk data size sized =>
    cases emuMem : emu.mem with
    | mk other also known =>
      rw [emuMem] at same
      simp only [Memory.mk.injEq]
      exact ⟨same, sized.trans known.symm⟩

/-- The `write` call of a machine without handlers does just this. -/
theorem host_write (host : HostFloat) (emu ready : Emulator) (inst : DecodedInst)
    (noHandler : emu.csr.mtvec = 0 ∧ emu.csr.stvec = 0) (level : emu.priv = privM)
    (number : regRead emu.rf 17 = 64) (came : issued emu = some (ready, inst))
    (raw : inst.raw = rawEcall) : Writes host emu inst := by
  have kind : inst.opcode = .system := by
    rw [issued_opcode emu ready inst came, raw]
    decide
  obtain ⟨-, -, -, -, mem, rfl, touched⟩ := issued_front emu ready inst came
  obtain rfl := bare_untouched emu _ mem (Or.inl level) touched
  rw [ticked_same] at came
  have tick := timerTick_eq emu
  have vectors : ¬ (emu.csr.mtvec ≠ 0 ∨ emu.csr.stvec ≠ 0) :=
    not_or.mpr ⟨not_not.mpr noHandler.1, not_not.mpr noHandler.2⟩
  have machine : ¬ emu.priv ≠ privM := not_not.mpr level
  have exits : ¬ ((64 : Word) = 0 ∨ (64 : Word) = 93) := by decide
  have clipped : (if regRead emu.rf 12 > 8192 then (8192 : Word) else regRead emu.rf 12).toNat =
      min (regRead emu.rf 12).toNat 8192 := by
    split
    · bv_omega
    · bv_omega
  obtain ⟨bytes, count⟩ := written_readable emu.mem (regRead emu.rf 11)
    (min (regRead emu.rf 12).toNat 8192) 0
  have start : regRead emu.rf 11 + 0 = regRead emu.rf 11 := BitVec.add_zero _
  rw [start] at bytes count
  have counted := count.trans (BitVec.zero_add _)
  have called : hostCall (timerTick emu) =
      { timerTick emu with rf := regWrite emu.rf 10 (BitVec.ofNat 32 (buffer emu)) } := by
    rw [tick]
    simp only [hostCall, number, if_neg exits, if_true, clipped, counted, buffer]
  have executed : emuStep host emu =
      countCycle (.retired .quiet, { hostCall (timerTick emu) with
        rf := { (hostCall (timerTick emu)).rf with pc := seqPc (timerTick emu) inst } }) := by
    rw [issued_step host emu _ inst came, execute, ecall_switch host _ inst kind raw, execEcall]
    simp only [tick, if_neg vectors, if_neg machine]
  rw [called, tick] at executed
  constructor
  case prints =>
    rw [stepPrints, came]
    simp only [executePrints, kind, raw, if_true, ecallPrints, tick, if_neg vectors,
      if_neg machine, hostCallPrints, number, if_neg exits, clipped]
    exact bytes
  case event =>
    rw [executed]
    rfl
  case after =>
    rw [executed]
    rfl

/-- `addi x17, x0, 64`, `lui x11, 1`, `addi x12, x0, 3` and an environment call: the program
    prints its first three bytes. -/
def echoProgram : Emulator :=
  loadImage (emuInit fun _ => 0)
    (programImage 0x1000 [0x04000893, 0x000015B7, 0x00300613, 0x00000073])

/-- Its environment call prints them. -/
theorem echoProgram_writes :
    stepPrints (stateAfter idleHost echoProgram 3) = [0x93, 0x08, 0x00] := by
  have found : (issued (stateAfter idleHost echoProgram 3)).map (fun came => came.2.raw) =
      some rawEcall := by
    decide +kernel
  obtain ⟨⟨ready, inst⟩, came, raw⟩ := Option.map_eq_some_iff.mp found
  rw [(host_write idleHost _ ready inst (by decide +kernel) (by decide +kernel)
    (by decide +kernel) came raw).prints]
  decide +kernel

/-! ## User code -/

/-- A store that prints went through to the UART. -/
theorem storePrints_some (emu : Emulator) (inst : DecodedInst) (kind : inst.opcode = .store)
    (prints : storePrints emu inst ≠ []) :
    ∃ va after, dataAccess emu inst = some (va, .store) ∧
      mmuTranslate emu va .store = (.ok csrMmioUart, after) := by
  simp only [storePrints] at prints
  by_cases misaligned : storeMisaligned inst (regRead emu.rf inst.rs1 + inst.imm) = true
  · rw [if_pos misaligned] at prints
    exact absurd rfl prints
  · rw [if_neg misaligned] at prints
    have asks : dataAccess emu inst = some (regRead emu.rf inst.rs1 + inst.imm, .store) := by
      simp only [dataAccess, kind]
      rw [if_neg misaligned]
    rcases translated : mmuTranslate emu (regRead emu.rf inst.rs1 + inst.imm) .store with
      ⟨result, after⟩
    rw [translated] at prints
    cases result with
    | error cause => exact absurd rfl prints
    | ok pa =>
      dsimp only at prints
      simp only [memoryWrite8Prints] at prints
      split at prints
      · split at prints
        · rename_i uart
          subst uart
          exact ⟨_, after, asks, translated⟩
        · exact absurd rfl prints
      · exact absurd rfl prints

/-- User code prints by storing to the UART through a page that it may write, or the alias
    of one. -/
theorem user_prints (emu : Emulator) (user : emu.priv = privU)
    (space : AddressSpace emu.mem emu.csr.satp) (prints : stepPrints emu ≠ []) :
    InWritableAlias emu csrMmioUart := by
  rw [stepPrints] at prints
  rcases came : issued emu with _ | ⟨ready, inst⟩
  · rw [came] at prints
    exact absurd rfl prints
  · rw [came] at prints
    simp only [executePrints] at prints
    cases kind : inst.opcode with
    | store =>
      rw [kind] at prints
      obtain ⟨va, after, asks, translated⟩ := storePrints_some ready inst kind prints
      exact user_store emu user space ready after inst va csrMmioUart came asks translated
    | system =>
      rw [kind] at prints
      obtain ⟨-, -, -, -, mem, rfl, -⟩ := issued_front emu ready inst came
      have level : (ticked emu mem).priv ≠ privM := by
        rw [ticked_priv, user]
        decide
      simp only [ecallPrints, if_pos level, ite_self] at prints
      exact absurd rfl prints
    | _ =>
      rw [kind] at prints
      exact absurd rfl prints

/-- In a sealed address space where no writable page, nor the 32-bit alias of one, holds the
    UART, user code prints nothing, however long it runs. -/
theorem user_run_silent (host : HostFloat) (start : Emulator) (n : Nat)
    (space : AddressSpace start.mem start.csr.satp) (user : UserRun host start n)
    (guarded : ¬ InWritableAlias start csrMmioUart) : runPrints host start n = [] := by
  induction n with
  | zero => rfl
  | succ n inductionHypothesis =>
    have earlier : UserRun host start n := fun k below => user k (by omega)
    have kept := user_run_kept host start n space earlier
    have silent : stepPrints (stateAfter host start n) = [] := by
      by_contra prints
      have writable := user_prints _ (user n (Nat.lt_succ_self n))
        (kept_space start _ space kept) prints
      exact guarded (kept_writable start _ space kept csrMmioUart writable)
    rw [runPrints, inductionHypothesis earlier, silent]
    rfl

/-- The writer's page is not the UART's. -/
theorem writer_silent : runPrints idleHost writer 2 = [] := by
  apply user_run_silent idleHost writer 2 writer_space writer_runs
  rintro ⟨leaf, leafOf, -, aliased⟩
  exact absurd (writer_alias leaf csrMmioUart leafOf aliased) (by decide)

/-! ## Two machines -/

/-- An instruction that user level issues prints the same in memories that agree on what the
    step reads. -/
theorem executePrints_alike (emu : Emulator) (place : Word → Prop)
    (shielded : Shielded emu place) (left right : Memory) (inst : DecodedInst)
    (came : issued emu = some (ticked emu left, inst))
    (touched : Touched emu (stepAccesses emu) left) (agree : Agrees place left right) :
    executePrints (ticked emu right) inst = executePrints (ticked emu left) inst := by
  simp only [executePrints]
  cases kind : inst.opcode with
  | store =>
    simp only [storePrints, ticked_rf]
    by_cases misaligned : storeMisaligned inst (regRead emu.rf inst.rs1 + inst.imm) = true
    · rw [if_pos misaligned, if_pos misaligned]
    · rw [if_neg misaligned, if_neg misaligned]
      have asks : dataAccess (ticked emu left) inst =
          some (regRead emu.rf inst.rs1 + inst.imm, .store) := by
        simp only [dataAccess, kind, ticked_rf]
        rw [if_neg misaligned]
      have member := data_member emu left inst _ came asks
      rcases translate_both emu place shielded _ left right _ .store member touched agree with
        ⟨cause, leftFault, rightFault⟩ | ⟨pa, leftAfter, rightAfter, leftPass, rightPass, -⟩
      · rw [leftFault, rightFault]
      · rw [leftPass, rightPass]
  | system =>
    have lower : ∀ mem, (ticked emu mem).priv ≠ privM := by
      intro mem
      rw [ticked_priv, shielded.user]
      decide
    simp only [ecallPrints, if_pos (lower left), if_pos (lower right), ite_self]
  | _ => rfl

/-- A user step under paging prints the same in memories that agree on what it reads. -/
theorem stepPrints_alike (emu : Emulator) (place : Word → Prop) (shielded : Shielded emu place)
    (pages : ∀ leaf, ReadThrough emu leaf → ∀ index, MapsAlias leaf index → place index)
    (right : Memory) (agree : Agrees place emu.mem right) :
    stepPrints (withMem emu right) = stepPrints emu := by
  have alike := front_alike emu place shielded pages right agree
  rw [stepPrints, stepPrints, issued, issued]
  cases front : frontEnd emu with
  | interrupted after =>
    rw [front] at alike
    generalize frontEnd (withMem emu right) = other at alike ⊢
    cases alike
    rfl
  | refused after cause tval =>
    rw [front] at alike
    generalize frontEnd (withMem emu right) = other at alike ⊢
    cases alike
    rfl
  | issued ready inst =>
    have came : issued emu = some (ready, inst) := by
      rw [issued, front]
    obtain ⟨-, -, -, -, mem, rfl, touched⟩ := issued_front emu ready inst came
    rw [front] at alike
    generalize frontEnd (withMem emu right) = other at alike ⊢
    cases alike with
    | issued _ later _ agreeAfter =>
      exact executePrints_alike emu place shielded mem later inst came
        (touched_fetch emu mem inst came touched) agreeAfter

/-- A shadow of a kept state prints the same in its next step. -/
theorem shadow_prints (start now other : Emulator) (space : AddressSpace start.mem start.csr.satp)
    (user : now.priv = privU) (kept : Kept start now) (shadows : Shadows start now other) :
    stepPrints other = stepPrints now := by
  obtain ⟨mem, rfl, agree⟩ := shadows
  exact stepPrints_alike now (ExposedAlias start) (kept_shielded start now space user kept)
    (fun leaf through index aliased =>
      kept_exposed start now space user kept leaf index through aliased) mem agree

/-- Two sealed processes that are apart: the second prints the same characters, whether or
    not the first has run before it. -/
theorem output_isolated (host : HostFloat) (first second : Emulator) (n m : Nat)
    (shared : second.mem = first.mem) (space : AddressSpace first.mem first.csr.satp)
    (other : AddressSpace second.mem second.csr.satp) (apart : Apart first second)
    (runsFirst : UserRun host first n) (runsSecond : UserRun host second m) :
    runPrints host (withMem second (stateAfter host first n).mem) m =
      runPrints host second m := by
  have shadows := apart_shadows host first second n shared space apart runsFirst
  induction m with
  | zero => rfl
  | succ m inductionHypothesis =>
    have earlier : UserRun host second m := fun k below => runsSecond k (by omega)
    obtain ⟨-, now⟩ := shadow_run host second _ m other earlier shadows
    have same := shadow_prints second _ _ other (runsSecond m (Nat.lt_succ_self m))
      (user_run_kept host second m other earlier) now
    rw [runPrints, runPrints, inductionHypothesis earlier, same]

/-- What the reader prints after the writer has run. -/
theorem reader_output :
    runPrints idleHost (withMem reader (stateAfter idleHost writer 2).mem) 1 =
      runPrints idleHost reader 1 :=
  output_isolated idleHost writer reader 2 1 rfl writer_space reader_space spaces_apart
    writer_runs reader_runs

end RvEmu.Console
