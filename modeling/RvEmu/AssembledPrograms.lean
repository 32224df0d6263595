import RvEmu.AssembledCode
import RvEmu.Unimplemented

/-!
# Assembled programs run as written

The code of a program is the image of its layout: what an item is encoded to stands at its
address, and a label is the address of the items behind it. While the code stays in memory
and is fetched from where it is, the machine does one instruction of the program after
another, and so from a state at an instruction it comes to the state that the program says.
-/

namespace RvEmu.AssembledPrograms

open LittleEndian hiding base
open Assembler InstructionSet PageWalk StepAnatomy AssemblyLanguage AssembledCode

/-! ## The number of words -/

/-- What is encoded, if anything, is one word. -/
def Single (encoded : Option (List Word)) : Prop :=
  ∀ words, encoded = some words → words.length = 1

theorem single_some (word : Word) : Single (some [word]) := by
  intro words encoded
  cases encoded
  rfl

theorem single_map {α : Type} (operand : Option α) (encode : α → Word) :
    Single (operand.map fun found => [encode found]) := by
  cases operand with
  | none => exact nofun
  | some found => exact single_some (encode found)

theorem single_bind {α : Type} (operand : Option α) (encode : α → Option (List Word))
    (single : ∀ found, Single (encode found)) : Single (operand.bind encode) := by
  cases operand with
  | none => exact nofun
  | some found => exact single found

theorem single_one (args : List Arg) (use : Arg → Option (List Word))
    (single : ∀ a, Single (use a)) : Single (one args use) := by
  unfold one
  split
  · exact single _
  · exact nofun

theorem single_two (args : List Arg) (use : Arg → Arg → Option (List Word))
    (single : ∀ a b, Single (use a b)) : Single (two args use) := by
  unfold two
  split
  · exact single _ _
  · exact nofun

theorem single_three (args : List Arg) (use : Arg → Arg → Arg → Option (List Word))
    (single : ∀ a b c, Single (use a b c)) : Single (three args use) := by
  unfold three
  split
  · exact single _ _ _
  · exact nofun

theorem single_withImm (imm rs1 : Arg) (f3 : Word) (rd : Arg) (op : Word) :
    Single (withImm imm rs1 f3 rd op) :=
  single_bind _ _ fun _ => single_bind _ _ single_some

theorem single_storing (imm rs2 rs1 : Arg) (f3 : Word) : Single (storing imm rs2 rs1 f3) :=
  single_bind _ _ fun _ => single_bind _ _ single_some

theorem single_branching (labels : Labels) (addr : Nat) (label rs2 rs1 : Arg) (f3 : Word) :
    Single (branching labels addr label rs2 rs1 f3) :=
  single_bind _ _ fun _ => single_bind _ _ single_some

theorem single_jumping (labels : Labels) (addr : Nat) (label rd : Arg) :
    Single (jumping labels addr label rd) :=
  single_bind _ _ fun _ => single_bind _ _ single_some

theorem single_computing (f7 : Word) (rs2 rs1 : Arg) (f3 : Word) (rd : Arg) :
    Single (computing f7 rs2 rs1 f3 rd) :=
  single_map _ id

theorem single_atomic (f5 : Word) (rs2 rs1 rd : Arg) : Single (atomic f5 rs2 rs1 rd) :=
  single_map _ id

/-- Every instruction but `li32` is one word. -/
theorem encode_single (labels : Labels) (addr : Nat) (mn : Mnemonic) (args : List Arg)
    (other : mn ≠ .li32) : Single (encode labels addr mn args) := by
  cases mn
  case li32 => exact absurd rfl other
  all_goals
    simp only [encode, single_some, single_map, single_one, single_two, single_three,
      single_withImm, single_storing, single_branching, single_jumping, single_computing,
      single_atomic, implies_true]

/-- A `li32` is two. -/
theorem encode_double (labels : Labels) (addr : Nat) (args : List Arg) (words : List Word)
    (encoded : encode labels addr .li32 args = some words) : words.length = 2 := by
  rw [encode] at encoded
  unfold two at encoded
  split at encoded
  · simp only [li32, Option.bind_eq_bind, Option.bind_eq_some_iff, Option.pure_def,
      Option.some.injEq] at encoded
    obtain ⟨_, _, _, _, _, _, rfl⟩ := encoded
    rfl
  · cases encoded

/-- The string of a mnemonic is its own. -/
theorem mnemonicOf_li32 (text : String) (mn : Mnemonic) (known : mnemonicOf text = some mn) :
    mn = .li32 ↔ text = "li32" := by
  rw [mnemonicOf, List.lookup_eq_some_iff] at known
  obtain ⟨before, after, table, -⟩ := known
  have member : (text, mn) ∈ before ++ (text, mn) :: after := by simp
  rw [← table] at member
  have all : ∀ entry ∈ mnemonics, entry.2 = .li32 ↔ entry.1 = "li32" := by decide
  exact all (text, mn) member

/-! ## The image -/

/-- The bytes of an item at an address. -/
def emit (labels : Labels) (place : Nat) : Item → List Byte
  | .label _ => []
  | .data raw => raw
  | .insn mn args =>
    (((mnemonicOf mn).bind fun mn => encode labels place mn args).getD []).flatMap le32

theorem flatMap_le32_length (words : List Word) :
    (words.flatMap le32).length = 4 * words.length := by
  induction words with
  | nil => rfl
  | cons word rest inductionHypothesis =>
    rw [List.flatMap_cons, List.length_append, inductionHypothesis, List.length_cons]
    change 4 + _ = _
    omega

/-- An encoded instruction has the words that the first pass counts. -/
theorem encode_words (labels : Labels) (place : Nat) (text : String) (mn : Mnemonic)
    (args : List Arg) (list : List Word) (known : mnemonicOf text = some mn)
    (encoded : encode labels place mn args = some list) :
    list.length = words (.insn text args) := by
  have same := mnemonicOf_li32 text mn known
  change list.length = if text = "li32" then 2 else 1
  by_cases double : text = "li32"
  · rw [if_pos double]
    have li32 : mn = .li32 := same.mpr double
    subst li32
    exact encode_double labels place args list encoded
  · rw [if_neg double]
    exact encode_single labels place mn args (mt same.mp double) list encoded

theorem insn_size (text : String) (args : List Arg) :
    size (.insn text args) = 4 * words (.insn text args) := rfl

/-- The second pass gives the image of the layout, in which every item fills its room. -/
theorem passTwo_image (labels : Labels) (items : List Item) (start : Nat) (code : List Byte)
    (passed : passTwo labels items start = some code) :
    code = Layout.image size (emit labels) items start ∧
      Layout.Fills size (emit labels) items start := by
  induction items generalizing start code with
  | nil =>
    cases passed
    exact ⟨rfl, fun place item placed => by cases placed⟩
  | cons item rest inductionHypothesis =>
    have fills : ∀ bytes, (emit labels start item).length = size item →
        passTwo labels rest (start + size item) = some bytes →
        emit labels start item ++ bytes = Layout.image size (emit labels) (item :: rest) start ∧
          Layout.Fills size (emit labels) (item :: rest) start := by
      intro bytes head tail
      obtain ⟨rfl, filled⟩ := inductionHypothesis _ _ tail
      refine ⟨rfl, ?_⟩
      intro place other placed
      rw [Layout.places, List.mem_cons] at placed
      rcases placed with here | later
      · cases here
        exact head
      · exact filled place other later
    cases item with
    | label name => exact fills code rfl passed
    | data raw =>
      simp only [passTwo, Option.bind_eq_bind, Option.bind_eq_some_iff, Option.pure_def,
        Option.some.injEq] at passed
      obtain ⟨bytes, tail, rfl⟩ := passed
      exact fills bytes rfl tail
    | insn text args =>
      simp only [passTwo, Option.bind_eq_bind, Option.bind_eq_some_iff, Option.pure_def,
        Option.some.injEq] at passed
      obtain ⟨mn, known, list, encoded, bytes, tail, rfl⟩ := passed
      have emitted : emit labels start (.insn text args) = list.flatMap le32 := by
        rw [emit, known, Option.bind_some, encoded, Option.getD_some]
      have count := encode_words labels start text mn args list known encoded
      have room : size (.insn text args) = 4 * list.length := by rw [insn_size, count]
      rw [← emitted]
      refine fills bytes ?_ ?_
      · rw [emitted, flatMap_le32_length, room]
      · rw [room]
        exact tail

/-- The first pass is the table of the labels. -/
theorem passOne_symbols (items : List Item) (start : Nat) (labels : Labels) :
    passOne items start labels =
      Layout.symbols size
        (fun item =>
          match item with
          | .label name => some name
          | _ => none)
        items start labels := by
  induction items generalizing start labels with
  | nil => rfl
  | cons item rest inductionHypothesis =>
    cases item with
    | label name => exact inductionHypothesis _ _
    | data raw => exact inductionHypothesis _ _
    | insn text args => exact inductionHypothesis _ _

/-- A label is the address of one of that name. -/
theorem label_placed (items : List Item) (start place : Nat) (name : String)
    (known : (passOne items start []).lookup name = some place) :
    (place, .label name) ∈ Layout.places size items start := by
  rw [passOne_symbols] at known
  rcases Layout.symbols_found size _ items start place [] name known with
    ⟨item, placed, named⟩ | nothing
  · cases item with
    | label other =>
      cases named
      exact placed
    | data raw => cases named
    | insn text args => cases named
  · cases nothing

/-! ## The words in memory -/

/-- The cells of a list of words. -/
theorem flatMap_le32_cell (words : List Word) (i j : Nat) (word : Word)
    (member : words[i]? = some word) (inside : j < 4) :
    (words.flatMap le32)[4 * i + j]? = some (byteOf word j) := by
  induction words generalizing i with
  | nil => cases member
  | cons first rest inductionHypothesis =>
    rw [List.flatMap_cons]
    cases i with
    | zero =>
      cases member
      rw [List.getElem?_append_left (by change 4 * 0 + j < 4; omega)]
      rcases (by omega : j = 0 ∨ j = 1 ∨ j = 2 ∨ j = 3) with rfl | rfl | rfl | rfl
      · rfl
      · rfl
      · rfl
      · rfl
    | succ i =>
      rw [List.getElem?_append_right (by change 4 ≤ 4 * (i + 1) + j; omega)]
      have shifted : 4 * (i + 1) + j - (le32 first).length = 4 * i + j := by
        change 4 * (i + 1) + j - 4 = 4 * i + j
        omega
      rw [shifted]
      exact inductionHypothesis i member

/-- An instruction stands in the code: its words do what it says, and are there. -/
structure Stands (code : List Byte) (pc : Word) (instr : Instr) (words : List Word) : Prop where
  encodes : Encodes pc.toNat instr words
  even : pc.toNat % 2 = 0
  above : base ≤ pc.toNat
  inside : pc.toNat + 4 * words.length ≤ base + code.length
  cells : ∀ i word j, words[i]? = some word → j < 4 →
    code[pc.toNat - base + (4 * i + j)]? = some (byteOf word j)

/-- The instruction at the pc stands in the code that the assembler gives. -/
theorem instruction_stands (items : List Item) (code : List Byte) (labels : Labels)
    (assembled : assemble items = some (code, labels)) (pc : Word) (instr : Instr)
    (found : instrAt items pc = some instr) : ∃ words, Stands code pc instr words := by
  obtain ⟨bytes, passed, same⟩ := Option.map_eq_some_iff.mp assembled
  obtain ⟨rfl, rfl⟩ := Prod.mk.inj same
  obtain ⟨rfl, fills⟩ := passTwo_image _ items base bytes passed
  obtain ⟨⟨place, item⟩, placed, there⟩ := List.exists_of_findSome?_eq_some found
  dsimp only at there
  by_cases here : place = pc.toNat
  · rw [if_pos here] at there
    cases item with
    | label name => cases there
    | data raw => cases there
    | insn text args =>
      simp only [itemInstr, Option.bind_eq_bind, Option.bind_eq_some_iff] at there
      obtain ⟨mn, known, guarded⟩ := there
      by_cases even : place % 2 = 0
      · rw [if_pos even] at guarded
        obtain ⟨list, encoded, encodes⟩ := meaning_encodes _ place mn args instr guarded
        have count := encode_words _ place text mn args list known encoded
        have room : size (.insn text args) = 4 * list.length := by rw [insn_size, count]
        have emitted : emit (passOne items base []) place (.insn text args) =
            list.flatMap le32 := by
          rw [emit, known, Option.bind_some, encoded, Option.getD_some]
        obtain ⟨above, below⟩ := Layout.places_inside size items base place _ placed
        have whole := Layout.image_length size _ items base fills
        subst here
        refine ⟨list, encodes, even, above, by omega, ?_⟩
        intro i word j member small
        have bound : i < list.length := (List.getElem?_eq_some_iff.mp member).1
        rw [Layout.image_cell size _ items base fills _ _ placed (4 * i + j) (by omega), emitted]
        exact flatMap_le32_cell list i j word member small
      · rw [if_neg even] at guarded
        cases guarded
  · rw [if_neg here] at there
    cases there

/-- Code in memory is read word by word. -/
theorem word_held (code : List Byte) (emu : Emulator) (intact : Intact code emu) (offset : Nat)
    (word : Word)
    (cells : ∀ j, j < 4 → code[offset + j]? = some (byteOf word j)) :
    wordAt emu.mem.data (BitVec.ofNat 32 (base + offset)) = word := by
  have cell : ∀ j, j < 4 →
      emu.mem.data (BitVec.ofNat 32 (base + offset) + BitVec.ofNat 32 j) = byteOf word j := by
    intro j small
    rw [← BitVec.ofNat_add, Nat.add_assoc]
    exact intact _ _ (cells j small)
  have first := cell 0 (by omega)
  have second := cell 1 (by omega)
  have third := cell 2 (by omega)
  have fourth := cell 3 (by omega)
  rw [BitVec.add_zero] at first
  rw [wordAt, first]
  change _ ||| ((emu.mem.data (BitVec.ofNat 32 (base + offset) + BitVec.ofNat 32 1)).setWidth 32
    <<< 8) ||| ((emu.mem.data (BitVec.ofNat 32 (base + offset) + BitVec.ofNat 32 2)).setWidth 32
    <<< 16) ||| ((emu.mem.data (BitVec.ofNat 32 (base + offset) + BitVec.ofNat 32 3)).setWidth 32
    <<< 24) = word
  rw [second, third, fourth]
  exact join_bytes word

/-! ## One word -/

/-- Memory holds a word at an address that is fetched from where it is. -/
structure Fetchable (emu : Emulator) (word : Word) : Prop where
  even : emu.rf.pc &&& 1 = 0
  inside : emu.rf.pc.toNat + 4 ≤ 0x100000
  held : wordAt emu.mem.data emu.rf.pc = word
  long : word &&& 3 = 3
  first : mmuTranslate emu emu.rf.pc .fetch = (.ok emu.rf.pc, emu)
  second : mmuTranslate emu (emu.rf.pc + 2) .fetch = (.ok (emu.rf.pc + 2), emu)

/-- The low halfword of a word that is no compressed instruction. -/
theorem low_half_long (word : Word) (low high : Half) (long : word &&& 3 = 3)
    (halves : word = low.setWidth 32 ||| high.setWidth 32 <<< 16) : low &&& 3 = 3 := by
  have bits : ∀ i, i < 2 → low.getLsbD i = true := by
    intro i below
    have same : word.getLsbD i = low.getLsbD i := by
      rw [halves, BitVec.getLsbD_or, BitVec.getLsbD_setWidth, BitVec.getLsbD_shiftLeft]
      have outside : i < 16 ∧ i < 32 := by omega
      simp [outside]
    have one := congrArg (fun bits => bits.getLsbD i) long
    have three : (3 : Word).getLsbD i = true :=
      (BitFields.getLsbD_lowOnes 2 i (by omega)).trans (decide_eq_true below)
    rw [BitVec.getLsbD_and, three, Bool.and_true, same] at one
    exact one
  have mask : low &&& BitFields.lowOnes 16 2 = BitFields.lowOnes 16 2 := by
    apply BitVec.eq_of_getLsbD_eq
    intro i inside
    rw [BitVec.getLsbD_and, BitFields.getLsbD_lowOnes 2 i inside]
    by_cases below : i < 2
    · rw [bits i below, Bool.true_and]
    · rw [decide_eq_false below, Bool.and_false]
  exact mask

theorem fetch_direct (emu : Emulator) (word : Word) (fetchable : Fetchable emu word) :
    emuFetch (timerTick emu) emu.rf.pc = (.ok (word, false), timerTick emu) := by
  obtain ⟨even, inside, held, long, first, second⟩ := fetchable
  have size := size_toNat emu.mem
  have readable : ¬ emu.rf.pc + 2 > emu.mem.size := by
    rw [gt_iff_lt, BitVec.lt_def, size]
    bv_omega
  have readableWord : ¬ emu.rf.pc + 4 > emu.mem.size := by
    rw [gt_iff_lt, BitVec.lt_def, size]
    bv_omega
  have readableNext : ¬ emu.rf.pc + 2 + 2 > emu.mem.size := by
    rw [gt_iff_lt, BitVec.lt_def, size]
    bv_omega
  have halves := wordAt_halves emu.mem.data emu.rf.pc
  rw [held] at halves
  have lowLong := low_half_long word _ _ long halves
  rw [emuFetch, HalfwordFetch.translate_tick, first]
  dsimp only
  rw [timerTick_mem, memoryRead16, if_neg readable]
  dsimp only
  rw [if_neg (not_not.mpr lowLong)]
  split
  · rw [memoryRead32, if_neg readableWord, held]
  · rw [HalfwordFetch.translate_tick, second]
    dsimp only
    rw [timerTick_mem, memoryRead16, if_neg readableNext]
    dsimp only
    rw [← halves]

/-- The step does what the word says. -/
theorem step_direct (host : HostFloat) (emu : Emulator) (word : Word)
    (fetchable : Fetchable emu word) (quiet : (trapCheckInterrupt emu emu.rf.pc).1 = false) :
    emuStep host emu = countCycle (runWord host (timerTick emu) word) := by
  have passed : trapCheckInterrupt emu emu.rf.pc = (false, timerTick emu) := by
    have state := notTaken_state emu (trapCheckInterrupt emu emu.rf.pc).2 emu.rf.pc
      (Prod.ext quiet rfl)
    exact Prod.ext quiet state
  simp only [emuStep, passed]
  rw [if_neg (not_not.mpr fetchable.even), fetch_direct emu word fetchable]
  dsimp only
  rw [runWord, timerTick_rf]
  cases decode word with
  | none => rfl
  | some inst => rfl

/-! ## Steps that only count -/

theorem passStep_counts (emu : Emulator) :
    passStep emu = (countCycle (.retired .quiet, timerTick emu)).2 := by
  have same : (timerTick emu).csr.mcycle = emu.csr.mcycle := by rw [timerTick_eq]
  rw [passStep, ← same]
  rfl

/-- Whether a trap is taken is a matter of the CSRs and the privilege level. -/
theorem raised_alike (emu other : Emulator) (csr : other.csr = emu.csr)
    (priv : other.priv = emu.priv) (cause tval epc another : Word) :
    (trapRaise other cause tval another).1 = (trapRaise emu cause tval epc).1 := by
  have sent : delegated other cause = delegated emu cause := by
    rw [delegated, delegated, csr, priv]
  simp only [trapRaise]
  rw [sent, csr]
  split
  · split
    · rfl
    · rfl
  · split
    · rfl
    · rfl

/-- Whether an interrupt comes is no matter of the registers. -/
theorem interrupt_written (emu : Emulator) (rd : Reg) (value nextPc epc another : Word) :
    (trapCheckInterrupt (written emu rd value nextPc) another).1 =
      (trapCheckInterrupt emu epc).1 := by
  have csr : (timerTick (written emu rd value nextPc)).csr = (timerTick emu).csr := by
    rw [timerTick_eq, timerTick_eq]
    rfl
  have priv : (timerTick (written emu rd value nextPc)).priv = (timerTick emu).priv := by
    rw [timerTick_eq, timerTick_eq]
    rfl
  unfold trapCheckInterrupt
  dsimp only
  rw [csr, priv]
  split
  · exact raised_alike (timerTick emu) _ csr priv mcauseIrqTimer 0 epc another
  · rfl

/-- Nor is an address translation of the registers, the timer or the counter. -/
theorem direct_written (emu : Emulator) (rd : Reg) (value nextPc va : Word) (acc : Access)
    (direct : mmuTranslate emu va acc = (.ok va, emu)) :
    mmuTranslate (written (passStep emu) rd value nextPc) va acc =
      (.ok va, written (passStep emu) rd value nextPc) := by
  rw [Unimplemented.translate_untouched] at direct ⊢
  rw [passStep, timerTick_eq]
  exact direct

/-! ## One instruction -/

/-- A word of the code is fetched when its address is translated to itself. -/
theorem cell_fetchable (code : List Byte) (emu : Emulator) (offset : Nat) (word : Word)
    (intact : Intact code emu) (there : emu.rf.pc = BitVec.ofNat 32 (base + offset))
    (even : (base + offset) % 2 = 0) (inside : base + offset + 4 ≤ 0x100000)
    (cells : ∀ j, j < 4 → code[offset + j]? = some (byteOf word j)) (long : word &&& 3 = 3)
    (first : mmuTranslate emu emu.rf.pc .fetch = (.ok emu.rf.pc, emu))
    (second : mmuTranslate emu (emu.rf.pc + 2) .fetch = (.ok (emu.rf.pc + 2), emu)) :
    Fetchable emu word := by
  have place : emu.rf.pc.toNat = base + offset := by
    rw [there, BitVec.toNat_ofNat, Nat.mod_eq_of_lt (by omega)]
  refine ⟨?_, by omega, ?_, long, first, second⟩
  · have low : (emu.rf.pc &&& 1).toNat = 0 := by
      rw [BitVec.toNat_and]
      change emu.rf.pc.toNat &&& 1 = 0
      rw [Nat.and_one_is_mod, place, even]
    exact BitVec.eq_of_toNat_eq low
  · rw [there]
    exact word_held code emu intact offset word cells

/-- Writing a register twice leaves what was written last. -/
theorem put_twice (regs : BitVec 5 → Word) (rd : Reg) (part value : Word) :
    put (put regs rd part) rd (put regs rd part rd + (value - part)) = put regs rd value := by
  funext r
  by_cases target : r = rd ∧ rd ≠ 0
  · obtain ⟨rfl, nonzero⟩ := target
    simp only [put, nonzero, ne_eq, not_false_eq_true, and_self, if_true]
    rw [BitVec.add_comm, BitVec.sub_add_cancel]
  · simp only [put, if_neg target]

/-- The machine between the two words of a constant. -/
theorem between_written (emu : Emulator) (rd : Reg) (part : Word) :
    (countCycle (.retired .quiet, written (timerTick emu) rd part (emu.rf.pc + 4))).2 =
      written (passStep emu) rd part (emu.rf.pc + 4) := by
  rw [passStep_counts]
  rfl

/-- The two words of a constant, one after the other, set the register to it. -/
theorem constant_after (host : HostFloat) (emu : Emulator) (rd : Reg) (part value : Word) :
    (countCycle (.retired .quiet,
        written (timerTick (written (passStep emu) rd part (emu.rf.pc + 4))) rd
          (put emu.rf.regs rd part rd + (value - part)) (emu.rf.pc + 4 + 4))).2 =
      (Instr.constant rd value).after host emu := by
  have twice := put_twice emu.rf.regs rd part value
  have place : emu.rf.pc + 4 + 4 = emu.rf.pc + 8 := by
    rw [BitVec.add_assoc]
    rfl
  have late : timerTick (written (passStep emu) rd part (emu.rf.pc + 4)) =
      written (timerTick (passStep emu)) rd part (emu.rf.pc + 4) := by
    rw [timerTick_eq, timerTick_eq]
    rfl
  rw [late, place]
  have regs : (timerTick (passStep emu)).rf = emu.rf := by
    rw [timerTick_rf, passStep, timerTick_rf]
  have joined : written (written (timerTick (passStep emu)) rd part (emu.rf.pc + 4)) rd
      (put emu.rf.regs rd part rd + (value - part)) (emu.rf.pc + 8) =
      written (timerTick (passStep emu)) rd value (emu.rf.pc + 8) := by
    simp only [written, regs]
    rw [twice]
  rw [joined, Instr.after, Instr.perform]
  change _ = (countCycle (.retired .quiet, written (timerTick (passStep emu)) rd value
    ((timerTick (passStep emu)).rf.pc + 8))).2
  rw [regs]

/-! ## States that are ready -/

/-- Where addresses are physical and the timer interrupt is masked, a machine is ready for
    every instruction when the code is in memory. -/
theorem ready_bare (code : List Byte) (emu : Emulator) (steps : Nat)
    (running : emu.state = .running) (intact : Intact code emu) (bare : Bare emu)
    (masked : emu.csr.mie &&& mieMtie = 0) : Ready code emu steps := by
  refine ⟨running, intact, ?_, ?_⟩
  · intro offset _
    exact (Unimplemented.translate_untouched emu _ _ .fetch).mpr (Or.inl ⟨bare, rfl⟩)
  · intro k _
    have mie : ∀ emu : Emulator, (passStep emu).csr.mie = emu.csr.mie := by
      intro emu
      rw [passStep, timerTick_eq]
    have same : (passStep^[k] emu).csr.mie = emu.csr.mie := by
      induction k with
      | zero => rfl
      | succ k inductionHypothesis =>
        rw [Function.iterate_succ_apply', mie]
        exact inductionHypothesis (by omega)
    have ticked : (timerTick (passStep^[k] emu)).csr.mie = emu.csr.mie := by
      rw [timerTick_eq]
      exact same
    unfold trapCheckInterrupt
    dsimp only
    rw [if_neg (fun taken => taken.2.1 (by rw [ticked, masked]))]

section Running

variable (host : HostFloat) (code : List Byte) (fits : base + code.length ≤ 0x100000)
include fits

/-- The machine does an instruction that stands in the code, and runs until it has. -/
theorem instruction_after (emu : Emulator) (instr : Instr) (words : List Word)
    (stands : Stands code emu.rf.pc instr words) (ready : Ready code emu instr.steps) :
    stateAfter host emu instr.steps = instr.after host emu ∧
      ∀ k, k < instr.steps → (stateAfter host emu k).state = .running := by
  obtain ⟨encodes, even, above, inside, cells⟩ := stands
  obtain ⟨running, intact, direct, quiet⟩ := ready
  have there : emu.rf.pc = BitVec.ofNat 32 (base + (emu.rf.pc.toNat - base)) := by
    rw [Nat.add_sub_cancel' above, BitVec.ofNat_toNat, BitVec.setWidth_eq]
  have atPc : 0 < instr.steps → mmuTranslate emu emu.rf.pc .fetch = (.ok emu.rf.pc, emu) := by
    intro positive
    have start := direct 0 (by omega)
    rwa [BitVec.add_zero] at start
  generalize pcIs : emu.rf.pc.toNat = place at encodes even above inside cells there
  cases encodes with
  | one _ word single long runs =>
    rw [single] at direct quiet atPc ⊢
    have fetchable := cell_fetchable code emu (place - base) word intact there (by omega)
      (by rw [List.length_singleton] at inside; omega)
      (fun j small => by simpa using cells 0 word j rfl small) long (atPc (by omega))
      (direct 2 (by omega))
    have step := step_direct host emu word fetchable (quiet 0 (by omega))
    have performed := runs host (timerTick emu) (by
      rw [timerTick_rf, ← pcIs, BitVec.ofNat_toNat, BitVec.setWidth_eq])
    refine ⟨?_, ?_⟩
    · change (emuStep host emu).2 = _
      rw [step, performed, Instr.after, single]
      rfl
    · intro k below
      obtain rfl : k = 0 := by omega
      exact running
  | two rd value upper lower part longUpper longLower first second =>
    change ∀ offset, offset < 8 → _ at direct
    change ∀ k, k < 2 → _ at quiet
    rw [List.length_cons, List.length_singleton] at inside
    have fetchable := cell_fetchable code emu (place - base) upper intact there (by omega)
      (by omega) (fun j small => by simpa using cells 0 upper j rfl small)
      longUpper (atPc Nat.two_pos) (direct 2 (by omega))
    have step := step_direct host emu upper fetchable (quiet 0 (by omega))
    rw [first, timerTick_rf] at step
    have between : (emuStep host emu).2 = written (passStep emu) rd part (emu.rf.pc + 4) := by
      rw [step]
      exact between_written emu rd part
    have nextPlace : emu.rf.pc + 4 = BitVec.ofNat 32 (base + (place - base + 4)) := by
      rw [there, ← Nat.add_assoc, BitVec.ofNat_add _ 4]
      rfl
    have next : Fetchable (written (passStep emu) rd part (emu.rf.pc + 4)) lower := by
      refine cell_fetchable code _ (place - base + 4) lower ?_ nextPlace (by omega) (by omega) ?_
        longLower ?_ ?_
      · intro k byte known
        have kept : (written (passStep emu) rd part (emu.rf.pc + 4)).mem = emu.mem :=
          timerTick_mem emu
        rw [kept]
        exact intact k byte known
      · intro j small
        rw [Nat.add_assoc]
        exact cells 1 lower j rfl small
      · exact direct_written emu rd part _ _ .fetch (direct 4 (by omega))
      · have late := direct_written emu rd part (emu.rf.pc + 4) _ .fetch (direct 6 (by omega))
        have six : emu.rf.pc + BitVec.ofNat 32 6 = emu.rf.pc + 4 + 2 := by
          rw [BitVec.add_assoc]
          rfl
        rw [six] at late
        exact late
    have calm : (trapCheckInterrupt (written (passStep emu) rd part (emu.rf.pc + 4))
        (emu.rf.pc + 4)).1 = false := by
      rw [interrupt_written (passStep emu) rd part (emu.rf.pc + 4) emu.rf.pc]
      exact quiet 1 (by omega)
    have later := step_direct host _ lower next calm
    rw [second] at later
    have rf : (written (passStep emu) rd part (emu.rf.pc + 4)).rf =
        { emu.rf with regs := put emu.rf.regs rd part, pc := emu.rf.pc + 4 } := by
      rw [written, passStep, timerTick_rf]
    refine ⟨?_, ?_⟩
    · change (emuStep host (emuStep host emu).2).2 = _
      rw [between, later, ← constant_after host emu rd part value, timerTick_rf, rf]
    · intro k below
      change k < 2 at below
      rcases (by omega : k = 0 ∨ k = 1) with rfl | rfl
      · exact running
      · change (emuStep host emu).2.state = .running
        rw [between]
        have kept : (timerTick emu).state = emu.state := by rw [timerTick_eq]
        exact kept.trans running

/-- What a program of the assembler says is what the machine does with its code, in as many
    steps, and it runs until it has. The induction is on the run of the program. -/
theorem assembled_runs (items : List Item) (labels : Labels)
    (assembled : assemble items = some (code, labels)) (start : Emulator) (k : Nat)
    (finish : Emulator) (runs : RunsTo host items code start k finish) :
    stateAfter host start k = finish ∧
      ∀ j, j < k → (stateAfter host start j).state = .running := by
  induction runs with
  | done emu => exact ⟨rfl, fun j below => absurd below (Nat.not_lt_zero j)⟩
  | instruction emu instr k finish found ready rest inductionHypothesis =>
    obtain ⟨words, stands⟩ := instruction_stands items code labels assembled emu.rf.pc instr found
    obtain ⟨did, ran⟩ := instruction_after host code fits emu instr words stands ready
    obtain ⟨came, going⟩ := inductionHypothesis
    have later : ∀ m, stateAfter host emu (instr.steps + m) =
        stateAfter host (instr.after host emu) m := by
      intro m
      rw [← did]
      exact Runs.stateAt_add (emuStep host) emu instr.steps m
    refine ⟨(later k).trans came, ?_⟩
    intro j below
    by_cases within : j < instr.steps
    · exact ran j within
    · obtain ⟨past, rfl⟩ : ∃ past, j = instr.steps + past := ⟨j - instr.steps, by omega⟩
      rw [later]
      exact going past (by omega)
  | interrupt emu handler k finish running taken rest inductionHypothesis =>
    have step : (emuStep host emu).2 = (countCycle (.interrupted, handler)).2 := by
      simp only [emuStep, taken]
    obtain ⟨came, going⟩ := inductionHypothesis
    refine ⟨?_, ?_⟩
    · rw [Nat.add_comm, stateAfter, ← Runs.stateAt_step, step]
      exact came
    · intro j below
      cases j with
      | zero => exact running
      | succ j =>
        rw [stateAfter, ← Runs.stateAt_step, step]
        exact going j (by omega)

end Running

end RvEmu.AssembledPrograms
