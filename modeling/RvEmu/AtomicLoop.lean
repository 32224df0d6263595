import RvEmu.AccessedDirty
import RvEmu.BaseInstructions
import RvEmu.GuestMemory
import RvEmu.WalkPath

/-!
# Atomic operations and their loops

A read-modify-write instruction does in one step what a loop body does in three: a
load-reserved, a computation in registers, and a store-conditional. The two paths
translate for different accesses. A page that may be stored to may be read, the
accessed bit that the load-reserved sets is set again by the store, and so both
paths leave the same tables. The word itself is apart from the entries that were
consulted, so both read it with the same contents.
-/

namespace RvEmu.AtomicLoop

open LittleEndian PageWalk PageTables AccessedDirty WalkPath GuestMemory ExecOutcome
open BaseInstructions (regWrite_put)
open CompressedMeaning (dropReservation_valid)
open InstructionSet (put)

/-! ## The operations -/

/-- The operations on a word in memory and a register. -/
inductive AmoOp where
  | add
  | swap
  | xor
  | or
  | and
  | min
  | max
  | minu
  | maxu
deriving DecidableEq

/-- The upper five bits of `funct7`. -/
def AmoOp.funct5 : AmoOp → BitVec 7
  | .add => 0b00000
  | .swap => 0b00001
  | .xor => 0b00100
  | .or => 0b01000
  | .and => 0b01100
  | .min => 0b10000
  | .max => 0b10100
  | .minu => 0b11000
  | .maxu => 0b11100

/-- What is stored, given the word and the register. -/
def AmoOp.value (op : AmoOp) (old operand : Word) : Word :=
  match op with
  | .add => BitVec.ofNat 32 (old.toNat + operand.toNat)
  | .swap => operand
  | .xor => old ^^^ operand
  | .or => old ||| operand
  | .and => old &&& operand
  | .min => if old.toInt ≤ operand.toInt then old else operand
  | .max => if old.toInt ≤ operand.toInt then operand else old
  | .minu => if old.toNat ≤ operand.toNat then old else operand
  | .maxu => if old.toNat ≤ operand.toNat then operand else old

/-- `AMO*.W`; the acquire and release bits are free. -/
structure IsAmo (inst : DecodedInst) (op : AmoOp) : Prop where
  opcode : inst.opcode = .amo
  funct3 : inst.funct3 = 2
  funct5 : inst.funct7 >>> 2 = op.funct5

/-- `LR.W`. -/
structure IsLoadReserved (inst : DecodedInst) : Prop where
  opcode : inst.opcode = .amo
  funct3 : inst.funct3 = 2
  funct5 : inst.funct7 >>> 2 = 0b00010

/-- `SC.W`. -/
structure IsStoreConditional (inst : DecodedInst) : Prop where
  opcode : inst.opcode = .amo
  funct3 : inst.funct3 = 2
  funct5 : inst.funct7 >>> 2 = 0b00011

/-- The switch on `funct5` computes the operation. Where the operands are equal, the
    source and the definition may name either. -/
theorem amoResult_value (op : AmoOp) (old operand : Word) :
    amoResult op.funct5 old operand = some (op.value old operand) := by
  cases op with
  | add =>
    change some (old + operand) = some (BitVec.ofNat 32 (old.toNat + operand.toNat))
    rw [BitVec.ofNat_add, BitVec.ofNat_toNat, BitVec.ofNat_toNat, BitVec.setWidth_eq,
      BitVec.setWidth_eq]
  | swap => rfl
  | xor => rfl
  | or => rfl
  | and => rfl
  | min =>
    change some (if old.slt operand then old else operand) =
      some (if old.toInt ≤ operand.toInt then old else operand)
    simp only [BitVec.slt_eq_decide, decide_eq_true_eq]
    split
    · rename_i below
      rw [if_pos (by omega)]
    · rename_i above
      split
      · rw [BitVec.eq_of_toInt_eq (show operand.toInt = old.toInt by omega)]
      · rfl
  | max =>
    change some (if operand.slt old then old else operand) =
      some (if old.toInt ≤ operand.toInt then operand else old)
    simp only [BitVec.slt_eq_decide, decide_eq_true_eq]
    split
    · rename_i below
      rw [if_neg (by omega)]
    · rename_i above
      rw [if_pos (by omega)]
  | minu =>
    change some (if old < operand then old else operand) =
      some (if old.toNat ≤ operand.toNat then old else operand)
    simp only [BitVec.lt_def]
    split
    · rename_i below
      rw [if_pos (by omega)]
    · rename_i above
      split
      · rw [BitVec.eq_of_toNat_eq (show operand.toNat = old.toNat by omega)]
      · rfl
  | maxu =>
    change some (if old > operand then old else operand) =
      some (if old.toNat ≤ operand.toNat then operand else old)
    simp only [gt_iff_lt, BitVec.lt_def]
    split
    · rename_i below
      rw [if_neg (by omega)]
    · rename_i above
      rw [if_pos (by omega)]

/-! ## The law -/

/-- A translation of the address consults the entry stored at the word. -/
def Consulted (emu : Emulator) (va word : Word) : Prop :=
  ¬ Bare emu ∧ ∃ read, read ∈ walkReads emu.mem emu.csr.satp va ∧ read.used = word

/-- The registers between the load-reserved and the store-conditional: they hold the
    address and the computed value, and still the word that was loaded. The outcome of the
    store-conditional goes to another register. -/
structure Prepared (reserved : Emulator) (rf : Regfile) (amo sc : DecodedInst)
    (addr value : Word) : Prop where
  base : regRead rf sc.rs1 = addr
  source : regRead rf sc.rs2 = value
  result : rf.regs amo.rd = reserved.rf.regs amo.rd
  scratch : sc.rd ≠ amo.rd ∨ amo.rd = 0

/-- One instruction and the loop body for it, from the same state. -/
def EqualsLoop (host : HostFloat) (emu : Emulator) (amo : DecodedInst) (op : AmoOp)
    (pa : Word) : Prop :=
  let addr := regRead emu.rf amo.rs1
  let old := wordAt emu.mem.data pa
  let value := op.value old (regRead emu.rf amo.rs2)
  ∃ atomic, execute host emu amo = (.retired (.stored pa .word), atomic) ∧
    atomic.rf.regs = put emu.rf.regs amo.rd old ∧ wordAt atomic.mem.data pa = value ∧
    ∀ lr, IsLoadReserved lr → lr.rd = amo.rd → regRead emu.rf lr.rs1 = addr →
      ∃ reserved, execute host emu lr = (.retired (.loadReserved pa), reserved) ∧
        reserved.rf.regs = put emu.rf.regs amo.rd old ∧
        ∀ sc rf, IsStoreConditional sc → Prepared reserved rf amo sc addr value →
          ∃ stored, execute host { reserved with rf := rf } sc =
              (.retired (.storeConditional pa true), stored) ∧
            stored.rf.regs = put rf.regs sc.rd 0 ∧
            stored.rf.regs amo.rd = atomic.rf.regs amo.rd ∧ stored.mem = atomic.mem

/-! ## Two translations -/

/-- A leaf that was found is among the entries that were consulted. -/
theorem leaf_read (mem : Memory) (satp va : Word) (leaf : Leaf)
    (found : walk mem satp va = some leaf) :
    ∃ read, read ∈ walkReads mem satp va ∧ read.used = leaf.addr := by
  cases walk_reaches mem satp va leaf found with
  | root pte read _ leafShape _ =>
    refine ⟨rootEntry satp va, ?_, rfl⟩
    simp only [walkReads, read]
    rw [if_pos (Or.inr leafShape)]
    exact List.mem_singleton.mpr rfl
  | table pointer pte read valid pointerShape _ _ _ =>
    refine ⟨tableEntry pointer va, ?_, rfl⟩
    simp only [walkReads, read]
    rw [if_neg (not_or.mpr ⟨valid, not_not.mpr pointerShape⟩)]
    exact List.mem_cons_of_mem _ List.mem_cons_self

/-- An entry that permits a store permits a load. -/
theorem pteAllows_load (emu : Emulator) (pte : Word)
    (allowed : pteAllows emu pte .store = true) : pteAllows emu pte .load = true := by
  have plain : ∀ left right : Access, (left = .fetch ↔ right = .fetch) →
      (emu.priv = privS ∧ pte &&& pteU ≠ 0 ∧ (left = .fetch ∨ emu.csr.mstatus &&& mstatusSum = 0) ↔
        emu.priv = privS ∧ pte &&& pteU ≠ 0 ∧
          (right = .fetch ∨ emu.csr.mstatus &&& mstatusSum = 0)) := by
    intro left right same
    rw [same]
  have guard := plain .store .load ⟨Access.noConfusion, Access.noConfusion⟩
  simp only [pteAllows] at allowed ⊢
  rw [if_congr guard rfl rfl] at allowed
  split at allowed
  · cases allowed
  · rename_i shape
    rw [if_neg shape]
    split at allowed
    · cases allowed
    · rename_i reserved
      rw [if_neg reserved]
      split at allowed
      · cases allowed
      · rename_i user
        rw [if_neg user]
        split at allowed
        · cases allowed
        · rename_i kernel
          rw [if_neg kernel]
          exact decide_eq_true (of_decide_eq_true allowed).1

/-- Memories that differ at most inside a word, and agree on the word, are the same. -/
theorem memory_ext (left right : Memory) (addr : Word)
    (word : wordAt left.data addr = wordAt right.data addr)
    (outside : ∀ index, ¬ Spans addr 4 index → left.data index = right.data index) :
    left = right := by
  have data : left.data = right.data := by
    funext index
    by_cases inside : Spans addr 4 index
    · exact bytes_of_word_eq left.data right.data addr index word inside
    · exact outside index inside
  have size : left.size = right.size := left.sized.trans right.sized.symm
  cases left
  cases right
  dsimp only at data size
  subst data size
  rfl

/-- Touching an entry for a load and then for a store is touching it for the store. -/
theorem touch_load_store (emu : Emulator) (va : Word) (leaf : Leaf)
    (found : walk emu.mem emu.csr.satp va = some leaf) :
    touchMemory (touchMemory emu.mem leaf .load)
        (leaf.reread (touchMemory emu.mem leaf .load)) .store =
      touchMemory emu.mem leaf .store := by
  have loaded := update_touched emu va leaf .load found
  have stored := update_touched emu va leaf .store found
  rw [pteUpdateAd_eq] at loaded stored
  have marked := leaf_marked emu va leaf .load found
  have again : walk (touchMemory emu.mem leaf .load) emu.csr.satp va =
      some (leaf.reread (touchMemory emu.mem leaf .load)) := by
    rw [walk_marked _ _ _ marked emu.csr.satp va, found]
    rfl
  have both := update_touched (withMem emu (touchMemory emu.mem leaf .load)) va _ .store again
  rw [pteUpdateAd_eq] at both
  apply memory_ext _ _ leaf.addr
  · have first : (leaf.reread (touchMemory emu.mem leaf .load)).pte = leaf.pte ||| pteA :=
      loaded.gained
    have second := both.gained
    rw [first] at second
    refine second.trans (Eq.trans ?_ stored.gained.symm)
    change leaf.pte ||| pteA ||| (pteA ||| pteD) = leaf.pte ||| (pteA ||| pteD)
    rw [BitVec.or_assoc, ← BitVec.or_assoc pteA pteA, BitVec.or_self]
  · intro index apart
    exact (both.elsewhere index apart).trans
      ((loaded.elsewhere index apart).trans (stored.elsewhere index apart).symm)

/-- A translation sees memory, the level and the CSRs, and changes memory. -/
theorem translate_seen (emu other : Emulator) (mem : other.mem = emu.mem)
    (csr : other.csr = emu.csr) (priv : other.priv = emu.priv) (va : Word) (acc : Access) :
    mmuTranslate other va acc =
      ((mmuTranslate emu va acc).1, withMem other (mmuTranslate emu va acc).2.mem) := by
  have level : Bare other ↔ Bare emu := by
    rw [Bare, Bare, csr, priv]
  have permitted : ∀ pte, pteAllows other pte acc = pteAllows emu pte acc := by
    intro pte
    simp only [pteAllows, csr, priv]
  have same : withMem other emu.mem = other := by
    rw [← mem]
    rfl
  rw [mmuTranslate_eq, mmuTranslate_eq, mem, csr]
  by_cases bare : Bare emu
  · rw [if_pos bare, if_pos (level.mpr bare)]
    exact Prod.ext rfl same.symm
  · rw [if_neg bare, if_neg (mt level.mp bare)]
    cases walk emu.mem emu.csr.satp va with
    | none => exact Prod.ext rfl same.symm
    | some leaf =>
      dsimp only
      rw [permitted, pteUpdateAd_eq, pteUpdateAd_eq, mem]
      split
      · rfl
      · exact Prod.ext rfl same.symm

/-- What the two paths have in common: the load-reserved reaches the same word, the
    store-conditional after it leaves the tables as the one store does, and no table update
    reaches the word. -/
structure SameWord (emu : Emulator) (va pa : Word) (loaded stored : Memory) : Prop where
  load : mmuTranslate emu va .load = (.ok pa, withMem emu loaded)
  store : mmuTranslate emu va .store = (.ok pa, withMem emu stored)
  both : mmuTranslate (withMem emu loaded) va .store = (.ok pa, withMem emu stored)
  loadedWord : wordAt loaded.data pa = wordAt emu.mem.data pa
  storedWord : wordAt stored.data pa = wordAt emu.mem.data pa

/-- The word is aligned, so no update of another aligned word reaches it. -/
theorem touched_apart (emu : Emulator) (leaf : Leaf) (acc : Access) (mem : Memory) (pa : Word)
    (touched : LeafTouched emu (withMem emu mem) leaf acc) (leafAligned : Aligned leaf.addr)
    (aligned : Aligned pa) (apart : leaf.addr ≠ pa) :
    wordAt mem.data pa = wordAt emu.mem.data pa := by
  apply wordAt_congr
  intro index member
  exact touched.elsewhere index
    (aligned_disjoint pa leaf.addr index aligned leafAligned apart.symm member)

theorem same_word (emu middle : Emulator) (va pa : Word) (natural : va.toNat % 4 = 0)
    (translated : mmuTranslate emu va .store = (.ok pa, middle))
    (apart : ¬ Consulted emu va pa) :
    ∃ loaded stored, SameWord emu va pa loaded stored := by
  rcases mmuTranslate_ok emu middle va pa .store translated with
    ⟨bare, same, unchanged⟩ | ⟨leaf, paged, found, allowed, target, updated⟩
  · subst same
    have passes : ∀ acc, mmuTranslate emu pa acc = (.ok pa, withMem emu emu.mem) := by
      intro acc
      rw [mmuTranslate_eq, if_pos bare]
      rfl
    exact ⟨emu.mem, emu.mem, passes .load, passes .store, passes .store, rfl, rfl⟩
  · obtain ⟨-, -, -, superpage⟩ := walk_found emu.mem emu.csr.satp va leaf found
    have aligned : Aligned pa := by
      have offset := target_offset leaf va superpage
      rw [← target] at offset
      rw [Aligned]
      omega
    have distinct : leaf.addr ≠ pa := by
      intro same
      obtain ⟨read, member, used⟩ := leaf_read emu.mem emu.csr.satp va leaf found
      exact apart ⟨paged, read, member, used.trans same⟩
    have leafAligned := walk_aligned emu.mem emu.csr.satp va leaf found
    have loadTouched := update_touched emu va leaf .load found
    have storeTouched := update_touched emu va leaf .store found
    rw [pteUpdateAd_eq] at loadTouched storeTouched
    have load : mmuTranslate emu va .load =
        (.ok pa, withMem emu (touchMemory emu.mem leaf .load)) := by
      rw [mmuTranslate_eq, if_neg paged, found]
      dsimp only
      rw [if_pos (pteAllows_load emu leaf.pte allowed), pteUpdateAd_eq, target]
      rfl
    have store : mmuTranslate emu va .store =
        (.ok pa, withMem emu (touchMemory emu.mem leaf .store)) := by
      rw [translated, updated, pteUpdateAd_eq]
      rfl
    have marked := leaf_marked emu va leaf .load found
    have both : mmuTranslate (withMem emu (touchMemory emu.mem leaf .load)) va .store =
        (.ok pa, withMem emu (touchMemory emu.mem leaf .store)) := by
      have result := translate_marked emu _ _ marked va .store
      rw [translated] at result
      refine Prod.ext result ?_
      rcases second : mmuTranslate (withMem emu (touchMemory emu.mem leaf .load)) va .store with
        ⟨outcome, after⟩
      rw [second] at result
      dsimp only at result
      subst result
      rcases mmuTranslate_ok _ after va pa .store second with
        ⟨bare, -, -⟩ | ⟨again, -, refound, -, -, reupdated⟩
      · exact absurd bare paged
      · have reread : again = leaf.reread (touchMemory emu.mem leaf .load) := by
          have walked : walk (touchMemory emu.mem leaf .load) emu.csr.satp va = some again :=
            refound
          rw [walk_marked _ _ _ marked emu.csr.satp va, found] at walked
          exact (Option.some.inj walked).symm
        rw [reupdated, pteUpdateAd_eq, reread]
        change withMem emu _ = withMem emu _
        rw [← touch_load_store emu va leaf found]
        rfl
    exact ⟨_, _, load, store, both,
      touched_apart emu leaf .load _ pa loadTouched leafAligned aligned distinct,
      touched_apart emu leaf .store _ pa storeTouched leafAligned aligned distinct⟩

/-! ## Execution -/

/-- A word in memory is read and written. -/
theorem inRam_word (mem : Memory) (pa : Word) (inside : InRam .word pa) :
    memoryRead32 mem pa = some (wordAt mem.data pa) ∧
      ∀ value, memoryWrite32 mem pa value =
        (true, { mem with data := putWord mem.data pa value }) :=
  ⟨if_neg (inRam_passes mem .word pa inside), fun _ => if_neg (inRam_passes mem .word pa inside)⟩

section Execution

variable (host : HostFloat) (emu : Emulator) (inst : DecodedInst) (addr pa : Word)
variable (kind : inst.opcode = .amo) (width : inst.funct3 = 2)
variable (base : regRead emu.rf inst.rs1 = addr) (natural : Natural .word addr)

include kind width base natural

/-- Past the checks, the operation is selected by `funct5`. -/
theorem amo_selects :
    execSwitch host emu inst =
      if inst.funct7 >>> 2 = 0x02 then translateThen emu addr .load (lrAccess inst addr)
      else if inst.funct7 >>> 2 = 0x03 then translateThen emu addr .store (scAccess inst addr)
      else translateThen emu addr .store (amoAccess inst addr) := by
  have aligned : ¬ addr &&& 3 ≠ 0 := fun odd => (low_two addr).mp odd natural
  have word : ¬ inst.funct3 ≠ 2 := not_not.mpr width
  simp only [execSwitch, kind]
  rw [execAmo, if_neg word, base]
  exact if_neg aligned

/-- A load-reserved of a word in memory. -/
theorem lr_executes (operation : inst.funct7 >>> 2 = 0b00010) (mem : Memory)
    (translated : mmuTranslate emu addr .load = (.ok pa, withMem emu mem))
    (inside : InRam .word pa) :
    execute host emu inst =
      (.retired (.loadReserved pa),
        { emu with
          mem := mem
          reservationValid := true
          reservationAddr := pa
          rf :=
            { emu.rf with
              regs := put emu.rf.regs inst.rd (wordAt mem.data pa)
              pc := seqPc emu inst } }) := by
  obtain ⟨read, -⟩ := inRam_word (withMem emu mem).mem pa inside
  have switched : execSwitch host emu inst = lrAccess inst addr (withMem emu mem) pa := by
    rw [amo_selects host emu inst addr kind width base natural, if_pos operation, translateThen,
      translated]
  simp only [execute, switched, lrAccess, read, writeBack, regWrite_put]
  rfl

/-- A store-conditional to the reserved word. -/
theorem sc_executes (operation : inst.funct7 >>> 2 = 0b00011) (mem : Memory)
    (translated : mmuTranslate emu addr .store = (.ok pa, withMem emu mem))
    (inside : InRam .word pa) (held : emu.reservationValid = true ∧ emu.reservationAddr = pa) :
    execute host emu inst =
      (.retired (.storeConditional pa true),
        { emu with
          mem := { mem with data := putWord mem.data pa (regRead emu.rf inst.rs2) }
          reservationValid := false
          rf := { emu.rf with regs := put emu.rf.regs inst.rd 0, pc := seqPc emu inst } }) := by
  obtain ⟨-, written⟩ := inRam_word (withMem emu mem).mem pa inside
  have other : ¬ inst.funct7 >>> 2 = 0x02 := by
    rw [operation]
    decide
  have switched : execSwitch host emu inst = scAccess inst addr (withMem emu mem) pa := by
    rw [amo_selects host emu inst addr kind width base natural, if_neg other, if_pos operation,
      translateThen, translated]
  have reserved : (withMem emu mem).reservationValid = true ∧
      (withMem emu mem).reservationAddr = pa := held
  simp only [execute, switched, scAccess, if_pos reserved, written, if_true, writeBack,
    regWrite_put]
  rfl

/-- A read-modify-write of a word in memory. -/
theorem amo_executes (op : AmoOp) (operation : inst.funct7 >>> 2 = op.funct5) (mem : Memory)
    (translated : mmuTranslate emu addr .store = (.ok pa, withMem emu mem))
    (inside : InRam .word pa) :
    ∃ valid, execute host emu inst =
      (.retired (.stored pa .word),
        { emu with
          mem :=
            { mem with
              data := putWord mem.data pa
                (op.value (wordAt mem.data pa) (regRead emu.rf inst.rs2)) }
          reservationValid := valid
          rf :=
            { emu.rf with
              regs := put emu.rf.regs inst.rd (wordAt mem.data pa)
              pc := seqPc emu inst } }) := by
  obtain ⟨read, written⟩ := inRam_word (withMem emu mem).mem pa inside
  have codes : ∀ op : AmoOp, op.funct5 ≠ 0x02 ∧ op.funct5 ≠ 0x03 := by
    intro op
    cases op <;> decide
  have switched : execSwitch host emu inst = amoAccess inst addr (withMem emu mem) pa := by
    rw [amo_selects host emu inst addr kind width base natural, operation, if_neg (codes op).1,
      if_neg (codes op).2, translateThen, translated]
  refine ⟨emu.reservationValid && !(emu.reservationAddr = pa), ?_⟩
  simp only [execute, switched, amoAccess, read, operation, amoResult_value, written,
    if_true, dropReservation_valid, regWrite_put]
  rfl

end Execution

/-! ## The two paths -/

/-- Every read-modify-write of a word in memory, apart from the entries that its
    translation consults, is its loop body. -/
theorem amo_equals_loop (host : HostFloat) (emu middle : Emulator) (amo : DecodedInst)
    (op : AmoOp) (pa : Word) (kind : IsAmo amo op)
    (natural : Natural .word (regRead emu.rf amo.rs1))
    (translated : mmuTranslate emu (regRead emu.rf amo.rs1) .store = (.ok pa, middle))
    (inside : InRam .word pa) (apart : ¬ Consulted emu (regRead emu.rf amo.rs1) pa) :
    EqualsLoop host emu amo op pa := by
  obtain ⟨loaded, stored, same⟩ := same_word emu middle _ pa natural translated apart
  obtain ⟨valid, atomic⟩ := amo_executes host emu amo _ pa kind.opcode kind.funct3 rfl natural op
    kind.funct5 stored same.store inside
  rw [same.storedWord] at atomic
  refine ⟨_, atomic, rfl, wordAt_putWord _ _ _, ?_⟩
  intro lr lrKind destination address
  have reserved := lr_executes host emu lr _ pa lrKind.opcode lrKind.funct3 address natural
    lrKind.funct5 loaded same.load inside
  rw [same.loadedWord, destination] at reserved
  refine ⟨_, reserved, rfl, ?_⟩
  intro sc rf scKind prepared
  -- The reservation and the registers are no business of the translation.
  have again := translate_seen (withMem emu loaded)
    { emu with
      mem := loaded
      reservationValid := true
      reservationAddr := pa
      rf := rf } rfl rfl rfl (regRead emu.rf amo.rs1) .store
  rw [same.both] at again
  have performed := sc_executes host _ sc _ pa scKind.opcode scKind.funct3 prepared.base natural
    scKind.funct5 stored again inside ⟨rfl, rfl⟩
  refine ⟨_, performed, rfl, ?_, ?_⟩
  · have kept : put rf.regs sc.rd 0 amo.rd = rf.regs amo.rd := by
      apply if_neg
      rintro ⟨destinations, written⟩
      rcases prepared.scratch with other | zero
      · exact other destinations.symm
      · exact written (destinations.symm.trans zero)
    exact kept.trans prepared.result
  · change { stored with data := putWord stored.data pa (regRead rf sc.rs2) } =
      ({ stored with
          data := putWord stored.data pa
            (op.value (wordAt emu.mem.data pa) (regRead emu.rf amo.rs2)) } : Memory)
    rw [prepared.source]

/-- User code at `amomax.w x1, x1, (x2)` with 5 in `x1`, where `x2` points to the number
    -16 in a page that has not been accessed. -/
def sharedCounter : Emulator :=
  let emu := PageIntegrity.superpageState 0x1F 0xA01120AF 0xFFFFFFF0
  { emu with rf := { emu.rf with regs := put emu.rf.regs 2 0x700 } }

/-- The maximum is stored, and the old number replaces the operand. -/
theorem sharedCounter_loop :
    ∃ amo, decode 0xA01120AF = some amo ∧ EqualsLoop idleHost sharedCounter amo .max 0x700 ∧
      wordAt (execute idleHost sharedCounter amo).2.mem.data 0x700 = 5 ∧
      (execute idleHost sharedCounter amo).2.rf.regs 1 = 0xFFFFFFF0 := by
  have reads : walkReads sharedCounter.mem sharedCounter.csr.satp 0x700 =
      [rootEntry sharedCounter.csr.satp 0x700] := by rfl
  have apart : ¬ Consulted sharedCounter 0x700 0x700 := by
    rintro ⟨-, read, member, used⟩
    rw [reads, List.mem_singleton] at member
    rw [member] at used
    exact absurd used (by decide)
  refine ⟨_, rfl, ?_, ?_, ?_⟩
  · exact amo_equals_loop idleHost sharedCounter _ _ .max 0x700 ⟨rfl, rfl, rfl⟩ rfl rfl
      (by unfold InRam; decide) apart
  · decide +kernel
  · decide +kernel

end RvEmu.AtomicLoop
