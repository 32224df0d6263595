import RvEmu.StepAnatomy

/-!
# Machines that differ in memory alone

Two machines with equal components apart from memory, whose memories agree on a
place, stay so through every part of a step that reads memory inside the place
alone. Writes need no such care: both machines write the same value at the same
address, wherever that is.

Traps and the instructions without a data access read no memory, so they do the
same on both machines. A translation does the same once the walk does, and a
data access once the page it reads is in the place.
-/

namespace RvEmu.MemoryAgreement

open LittleEndian PageWalk PageTables ExecOutcome StepAnatomy

@[simp] theorem withMem_mem (emu : Emulator) (mem : Memory) : (withMem emu mem).mem = mem := rfl

@[simp] theorem withMem_rf (emu : Emulator) (mem : Memory) : (withMem emu mem).rf = emu.rf := rfl

@[simp] theorem withMem_csr (emu : Emulator) (mem : Memory) : (withMem emu mem).csr = emu.csr := rfl

@[simp] theorem withMem_priv (emu : Emulator) (mem : Memory) :
    (withMem emu mem).priv = emu.priv := rfl

/-- The switch of `execute` ended in the same way, in states that differ in memory
    alone. -/
inductive ExitAlike (place : Word → Prop) : Exec → Exec → Prop where
  | next (emu : Emulator) (mem : Memory) (nextPc : Word) (effect : Effect)
      (agree : Agrees place emu.mem mem) :
      ExitAlike place (.next emu nextPc effect) (.next (withMem emu mem) nextPc effect)
  | unknown (emu : Emulator) (mem : Memory) (agree : Agrees place emu.mem mem) :
      ExitAlike place (.unknown emu) (.unknown (withMem emu mem))
  | except (emu : Emulator) (mem : Memory) (cause addr : Word)
      (agree : Agrees place emu.mem mem) :
      ExitAlike place (.except emu cause addr) (.except (withMem emu mem) cause addr)
  | raised (emu : Emulator) (mem : Memory) (cause : Word) (agree : Agrees place emu.mem mem) :
      ExitAlike place (.raised emu cause) (.raised (withMem emu mem) cause)
  | stopped (emu : Emulator) (mem : Memory) (agree : Agrees place emu.mem mem) :
      ExitAlike place (.stopped emu) (.stopped (withMem emu mem))

/-- The same result, with states that differ in memory alone. -/
inductive Alike {α : Type} (place : Word → Prop) : α × Emulator → α × Emulator → Prop where
  | intro (result : α) (emu : Emulator) (mem : Memory) (agree : Agrees place emu.mem mem) :
      Alike place (result, emu) (result, withMem emu mem)

/-! ## Parts that read no memory -/

section Agreeing

variable (place : Word → Prop) (emu : Emulator) (mem : Memory)

/-- The machine with the other memory, and the components it shares. -/
theorem twin_parts :
    ∃ other, other = withMem emu mem ∧ other.rf = emu.rf ∧ other.csr = emu.csr ∧
      other.priv = emu.priv :=
  ⟨withMem emu mem, rfl, rfl, rfl, rfl⟩

/-- Raising a trap reads no memory and keeps it. -/
theorem trapRaise_withMem (cause tval epc : Word) :
    trapRaise (withMem emu mem) cause tval epc =
      ((trapRaise emu cause tval epc).1, withMem (trapRaise emu cause tval epc).2 mem) := by
  have sent : delegated (withMem emu mem) cause = delegated emu cause := rfl
  simp only [trapRaise]
  rw [sent, withMem_csr]
  split
  · split
    · rfl
    · rfl
  · split
    · rfl
    · rfl

theorem trapRaise_mem (cause tval epc : Word) :
    (trapRaise emu cause tval epc).2.mem = emu.mem := by
  simp only [trapRaise]
  split
  · split
    · rfl
    · rfl
  · split
    · rfl
    · rfl

theorem trapCheckInterrupt_withMem (epc : Word) :
    trapCheckInterrupt (withMem emu mem) epc =
      ((trapCheckInterrupt emu epc).1, withMem (trapCheckInterrupt emu epc).2 mem) := by
  unfold trapCheckInterrupt
  rw [timerTick_withMem]
  dsimp only
  rw [withMem_csr, withMem_priv, trapRaise_withMem]
  split
  · rfl
  · rfl

/-- An exception enters a handler, or stops the machine, on both. -/
theorem raiseOrStop_alike (agree : Agrees place emu.mem mem) (cause tval epc : Word) :
    Alike place (raiseOrStop emu cause tval epc)
      (raiseOrStop (withMem emu mem) cause tval epc) := by
  have kept := trapRaise_mem emu cause tval epc
  simp only [raiseOrStop]
  rw [trapRaise_withMem]
  rcases raised : trapRaise emu cause tval epc with ⟨entered, after⟩
  rw [raised] at kept
  have still : Agrees place after.mem mem := by
    rw [kept]
    exact agree
  cases entered with
  | true => exact .intro _ after mem still
  | false => exact .intro _ { after with state := .exception } mem still

/-- After the switch, `execute` reads no memory. -/
theorem execute_alike (host : HostFloat) (inst : DecodedInst)
    (exits : ExitAlike place (execSwitch host emu inst) (execSwitch host (withMem emu mem) inst)) :
    Alike place (execute host emu inst) (execute host (withMem emu mem) inst) := by
  simp only [execute]
  rw [withMem_rf]
  generalize execSwitch host emu inst = one at exits
  generalize execSwitch host (withMem emu mem) inst = other at exits
  cases exits with
  | next after mem nextPc effect agree =>
    exact .intro _ { after with rf := { after.rf with pc := nextPc } } mem agree
  | unknown after mem agree => exact raiseOrStop_alike place after mem agree _ _ _
  | except after mem cause addr agree => exact raiseOrStop_alike place after mem agree _ _ _
  | raised after mem cause agree => exact raiseOrStop_alike place after mem agree _ _ _
  | stopped after mem agree => exact .intro _ { after with state := .exception } mem agree

/-- The cycle counter advances on both. -/
theorem countCycle_alike (one other : Event × Emulator) (alike : Alike place one other) :
    Alike place (countCycle one) (countCycle other) := by
  cases alike with
  | intro event after mem agree =>
    simp only [countCycle]
    split
    · exact .intro event after mem agree
    · exact .intro event
        { after with csr := { after.csr with mcycle := after.csr.mcycle + 1 } } mem agree

theorem execEcall_alike (inst : DecodedInst) (agree : Agrees place emu.mem mem)
    (level : emu.priv ≠ privM) :
    ExitAlike place (execEcall emu inst) (execEcall (withMem emu mem) inst) := by
  obtain ⟨other, twin, -, csr, priv⟩ := twin_parts emu mem
  simp only [execEcall]
  rw [← twin, csr, priv]
  split
  · rw [twin]
    exact .raised emu mem _ agree
  · rw [twin]
    exact .stopped emu mem agree

theorem execEbreak_alike (inst : DecodedInst) (agree : Agrees place emu.mem mem) :
    ExitAlike place (execEbreak emu inst) (execEbreak (withMem emu mem) inst) := by
  obtain ⟨other, twin, -, csr, -⟩ := twin_parts emu mem
  simp only [execEbreak]
  rw [← twin, csr]
  split
  · rw [twin]
    exact .raised emu mem _ agree
  · rw [twin]
    exact .next { emu with state := .halted, exitCode := 0 } mem _ _ agree

theorem execCsr_alike (inst : DecodedInst) (agree : Agrees place emu.mem mem) :
    ExitAlike place (execCsr emu inst) (execCsr (withMem emu mem) inst) := by
  obtain ⟨other, twin, rf, csr, priv⟩ := twin_parts emu mem
  simp only [execCsr]
  rw [← twin, rf, csr, priv]
  split
  · rw [twin]
    exact .except emu mem _ _ agree
  · split
    · rw [twin]
      exact .except emu mem _ _ agree
    · split
      · rw [twin]
        exact .except emu mem _ _ agree
      · split
        · rw [twin]
          exact .unknown emu mem agree
        · split
          · rw [twin]
            exact .next _ mem _ _ agree
          · rw [twin]
            exact .except _ mem _ _ agree

theorem execSystem_alike (inst : DecodedInst) (agree : Agrees place emu.mem mem)
    (level : emu.priv ≠ privM) :
    ExitAlike place (execSystem emu inst) (execSystem (withMem emu mem) inst) := by
  obtain ⟨other, twin, -, -, priv⟩ := twin_parts emu mem
  simp only [execSystem]
  rw [← twin, priv]
  split
  · rw [twin]
    exact .except emu mem _ _ agree
  · split
    · split
      · rw [twin]
        exact .except emu mem _ _ agree
      · rw [twin]
        exact .next (trapSret emu).2 mem (trapSret emu).1 _ agree
    · split
      · split
        · rw [twin]
          exact .except emu mem _ _ agree
        · rw [twin]
          exact .next emu mem _ _ agree
      · split
        · rw [twin]
          exact execEcall_alike place emu mem inst agree level
        · split
          · rw [twin]
            exact execEbreak_alike place emu mem inst agree
          · rw [twin]
            exact execCsr_alike place emu mem inst agree

theorem execFp_alike (host : HostFloat) (inst : DecodedInst) (agree : Agrees place emu.mem mem) :
    ExitAlike place (execFp host emu inst) (execFp host (withMem emu mem) inst) := by
  simp only [execFp]
  rw [withMem_rf, withMem_csr]
  split
  · exact .unknown emu mem agree
  · exact .next _ mem _ _ agree

theorem execBranch_alike (inst : DecodedInst) (agree : Agrees place emu.mem mem) :
    ExitAlike place (execBranch emu inst) (execBranch (withMem emu mem) inst) := by
  simp only [execBranch]
  rw [withMem_rf]
  split
  · exact .unknown emu mem agree
  · exact .next _ mem _ _ agree

/-- An instruction below machine mode that asks for no data access reads no
    memory. -/
theorem noAccess_alike (host : HostFloat) (inst : DecodedInst)
    (agree : Agrees place emu.mem mem) (none : dataAccess emu inst = none)
    (level : emu.priv ≠ privM) :
    ExitAlike place (execSwitch host emu inst) (execSwitch host (withMem emu mem) inst) := by
  by_cases memory : inst.opcode ∈ memoryOpcodes
  · rcases refused_exit host emu inst memory none with refused | ⟨cause, addr, -, refused⟩
    · rw [refused emu rfl, refused (withMem emu mem) rfl]
      exact .unknown emu mem agree
    · rw [refused emu rfl, refused (withMem emu mem) rfl]
      exact .except emu mem cause addr agree
  · simp only [execSwitch]
    cases kind : inst.opcode <;> simp only [kind] at memory ⊢
    case alu => exact .next _ mem _ _ agree
    case alui => exact .next _ mem _ _ agree
    case fp => exact execFp_alike place emu mem host inst agree
    case branch => exact execBranch_alike place emu mem inst agree
    case jal => exact .next _ mem _ _ agree
    case jalr => exact .next _ mem _ _ agree
    case lui => exact .next _ mem _ _ agree
    case auipc => exact .next _ mem _ _ agree
    case system => exact execSystem_alike place emu mem inst agree level
    case fence => exact .next _ mem _ _ agree
    case other => exact .unknown _ mem agree
    all_goals simp [memoryOpcodes] at memory

/-! ## Translations -/

theorem pteUpdateAd_alike (addr pte : Word) (acc : Access) (agree : Agrees place emu.mem mem) :
    ∃ after, pteUpdateAd (withMem emu mem) addr pte acc =
        withMem (pteUpdateAd emu addr pte acc) after ∧
      Agrees place (pteUpdateAd emu addr pte acc).mem after := by
  simp only [pteUpdateAd]
  split
  · obtain ⟨-, written⟩ := write32_agree place emu.mem mem addr (pteTouched pte acc) agree
    exact ⟨(memoryWrite32 mem addr (pteTouched pte acc)).2, rfl, written⟩
  · exact ⟨mem, rfl, agree⟩

/-- Where the walk finds the same leaf, a translation gives the same result and
    makes the same update. -/
theorem translate_alike (va : Word) (acc : Access)
    (same : walk mem emu.csr.satp va = walk emu.mem emu.csr.satp va)
    (agree : Agrees place emu.mem mem) :
    Alike place (mmuTranslate emu va acc) (mmuTranslate (withMem emu mem) va acc) := by
  have bareAlike : Bare (withMem emu mem) ↔ Bare emu := Iff.rfl
  rw [mmuTranslate_eq, mmuTranslate_eq, withMem_mem, withMem_csr, same]
  by_cases bare : Bare emu
  · rw [if_pos bare, if_pos (bareAlike.mpr bare)]
    exact .intro _ emu mem agree
  · rw [if_neg bare, if_neg (bareAlike.not.mpr bare)]
    cases walk emu.mem emu.csr.satp va with
    | none => exact .intro _ emu mem agree
    | some leaf =>
      have allowedAlike : pteAllows (withMem emu mem) leaf.pte acc = pteAllows emu leaf.pte acc :=
        rfl
      dsimp only
      rw [allowedAlike]
      split
      · obtain ⟨after, updated, written⟩ :=
          pteUpdateAd_alike place emu mem leaf.addr leaf.pte acc agree
        rw [updated]
        exact .intro _ _ after written
      · exact .intro _ emu mem agree

/-! ## Data accesses -/

/-- The page of the address is in the place. -/
def Covered (pa : Word) : Prop :=
  ∀ index : Word, index.toNat / 4096 = pa.toNat / 4096 → place index

/-- A naturally aligned access reads inside the page of its address. -/
theorem covered_span (pa addr : Word) (width : Width) (covered : Covered place pa)
    (offset : pa.toNat % 4096 = addr.toNat % 4096) (natural : addr.toNat % width.bytes = 0)
    (index : Word) (member : Spans pa width.bytes index) : place index := by
  have kept := width.natural_offset addr pa offset natural
  exact covered index (access_page pa index width.bytes width.bytes_cases kept member)

theorem loadValue_agree (left right : Memory) (inst : DecodedInst) (addr pa : Word)
    (agree : Agrees place left right) (covered : Covered place pa)
    (offset : pa.toNat % 4096 = addr.toNat % 4096)
    (aligned : ¬ loadMisaligned inst addr = true) :
    loadValue right inst.funct3 pa = loadValue left inst.funct3 pa := by
  have bytes := read8_agree place left right pa agree
    (covered_span place pa addr .byte covered offset (Nat.mod_one _))
  have halves : inst.funct3 = 1 ∨ inst.funct3 = 5 →
      memoryRead16 right pa = memoryRead16 left pa := by
    intro half
    have even : addr &&& 1 = 0 := by
      by_contra odd
      exact aligned (decide_eq_true (Or.inl ⟨half, odd⟩))
    exact read16_agree place left right pa agree
      (covered_span place pa addr .half covered offset (low_one_clear addr even))
  have words : inst.funct3 = 2 → memoryRead32 right pa = memoryRead32 left pa := by
    intro word
    have low : addr &&& 3 = 0 := by
      by_contra odd
      exact aligned (decide_eq_true (Or.inr ⟨word, odd⟩))
    exact read32_agree place left right pa agree
      (covered_span place pa addr .word covered offset (low_two_clear addr low))
  simp only [loadValue]
  split
  · rw [bytes]
  · rename_i half
    rw [halves (Or.inl half)]
  · rename_i word
    rw [words word]
  · rw [bytes]
  · rename_i half
    rw [halves (Or.inr half)]
  · rfl

theorem dropReservation_withMem (pa : Word) :
    dropReservation (withMem emu mem) pa = withMem (dropReservation emu pa) mem := by
  simp only [dropReservation]
  by_cases hit : emu.reservationValid ∧ emu.reservationAddr = pa
  · have hitOther : (withMem emu mem).reservationValid ∧
        (withMem emu mem).reservationAddr = pa := hit
    rw [if_pos hit, if_pos hitOther]
    rfl
  · have missOther : ¬ ((withMem emu mem).reservationValid ∧
        (withMem emu mem).reservationAddr = pa) := hit
    rw [if_neg hit, if_neg missOther]

/-- A performed store ends in states that agree as the written memories do. -/
theorem stored_alike (pa nextPc : Word) (effect : Effect) (agree : Agrees place emu.mem mem) :
    ExitAlike place (.next (dropReservation emu pa) nextPc effect)
      (.next (dropReservation (withMem emu mem) pa) nextPc effect) := by
  obtain ⟨valid, dropped⟩ := dropReservation_frame emu pa
  rw [dropReservation_withMem]
  apply ExitAlike.next
  rw [dropped]
  exact agree

theorem finishStore_alike (inst : DecodedInst) (addr pa : Word) (width : Width)
    (one other : Bool × Memory) (alike : WrittenAlike place one other) :
    ExitAlike place (finishStore emu inst addr pa width one)
      (finishStore (withMem emu mem) inst addr pa width other) := by
  obtain ⟨performed, agree⟩ := alike
  simp only [finishStore]
  rw [performed]
  split
  · exact stored_alike place { emu with mem := one.2 } other.2 pa _ _ agree
  · exact .except { emu with mem := one.2 } other.2 _ _ agree

theorem loadAccess_alike (inst : DecodedInst) (addr pa : Word) (agree : Agrees place emu.mem mem)
    (covered : Covered place pa) (offset : pa.toNat % 4096 = addr.toNat % 4096)
    (aligned : ¬ loadMisaligned inst addr = true) :
    ExitAlike place (loadAccess inst addr emu pa) (loadAccess inst addr (withMem emu mem) pa) := by
  have value := loadValue_agree place emu.mem mem inst addr pa agree covered offset aligned
  simp only [loadAccess]
  rw [withMem_mem, value]
  split
  · exact .next _ mem _ _ agree
  · split
    · exact .unknown emu mem agree
    · exact .except emu mem _ _ agree
    · exact .next _ mem _ _ agree

theorem loadFpAccess_alike (inst : DecodedInst) (addr pa : Word)
    (agree : Agrees place emu.mem mem) (covered : Covered place pa)
    (offset : pa.toNat % 4096 = addr.toNat % 4096) (low : addr &&& 3 = 0) :
    ExitAlike place (loadFpAccess inst addr emu pa)
      (loadFpAccess inst addr (withMem emu mem) pa) := by
  have value := read32_agree place emu.mem mem pa agree
    (covered_span place pa addr .word covered offset (low_two_clear addr low))
  simp only [loadFpAccess]
  rw [withMem_mem, value]
  split
  · exact .except emu mem _ _ agree
  · exact .next _ mem _ _ agree

theorem storeAccess_alike (inst : DecodedInst) (addr pa : Word)
    (agree : Agrees place emu.mem mem) :
    ExitAlike place (storeAccess inst addr emu pa)
      (storeAccess inst addr (withMem emu mem) pa) := by
  simp only [storeAccess]
  rw [withMem_rf, withMem_mem]
  split
  · exact .next { emu with mtimecmp := _ } mem _ _ agree
  · split
    · exact finishStore_alike place emu mem inst addr pa .byte _ _
        (write8_agree place emu.mem mem pa _ agree)
    · exact finishStore_alike place emu mem inst addr pa .half _ _
        (write16_agree place emu.mem mem pa _ agree)
    · exact finishStore_alike place emu mem inst addr pa .word _ _
        (write32_agree place emu.mem mem pa _ agree)
    · exact .unknown emu mem agree

theorem storeFpAccess_alike (inst : DecodedInst) (addr pa : Word)
    (agree : Agrees place emu.mem mem) :
    ExitAlike place (storeFpAccess inst addr emu pa)
      (storeFpAccess inst addr (withMem emu mem) pa) :=
  finishStore_alike place emu mem inst addr pa .word _ _
    (write32_agree place emu.mem mem pa _ agree)

theorem lrAccess_alike (inst : DecodedInst) (addr pa : Word) (agree : Agrees place emu.mem mem)
    (covered : Covered place pa) (offset : pa.toNat % 4096 = addr.toNat % 4096)
    (low : addr &&& 3 = 0) :
    ExitAlike place (lrAccess inst addr emu pa) (lrAccess inst addr (withMem emu mem) pa) := by
  have value := read32_agree place emu.mem mem pa agree
    (covered_span place pa addr .word covered offset (low_two_clear addr low))
  simp only [lrAccess]
  rw [withMem_mem, value]
  split
  · exact .except emu mem _ _ agree
  · exact .next _ mem _ _ agree

theorem scAccess_alike (inst : DecodedInst) (addr pa : Word) (agree : Agrees place emu.mem mem) :
    ExitAlike place (scAccess inst addr emu pa) (scAccess inst addr (withMem emu mem) pa) := by
  obtain ⟨performed, written⟩ :=
    write32_agree place emu.mem mem pa (regRead emu.rf inst.rs2) agree
  unfold scAccess
  by_cases held : emu.reservationValid ∧ emu.reservationAddr = pa
  · have heldOther : (withMem emu mem).reservationValid ∧
        (withMem emu mem).reservationAddr = pa := held
    rw [if_pos held, if_pos heldOther]
    dsimp only
    rw [withMem_mem, withMem_rf, performed]
    split
    · exact .next
        { emu with
          mem := (memoryWrite32 emu.mem pa (regRead emu.rf inst.rs2)).2
          reservationValid := false
          rf := regWrite emu.rf inst.rd 0 } _ _ _ written
    · exact .except
        { emu with mem := (memoryWrite32 emu.mem pa (regRead emu.rf inst.rs2)).2 } _ _ _ written
  · have missOther : ¬ ((withMem emu mem).reservationValid ∧
        (withMem emu mem).reservationAddr = pa) := held
    rw [if_neg held, if_neg missOther]
    exact .next { emu with reservationValid := false, rf := regWrite emu.rf inst.rd 1 } mem _ _
      agree

theorem amoAccess_alike (inst : DecodedInst) (addr pa : Word) (agree : Agrees place emu.mem mem)
    (covered : Covered place pa) (offset : pa.toNat % 4096 = addr.toNat % 4096)
    (low : addr &&& 3 = 0) :
    ExitAlike place (amoAccess inst addr emu pa) (amoAccess inst addr (withMem emu mem) pa) := by
  have value := read32_agree place emu.mem mem pa agree
    (covered_span place pa addr .word covered offset (low_two_clear addr low))
  unfold amoAccess
  rw [withMem_mem, withMem_rf, value]
  split
  · exact .except emu mem _ _ agree
  · split
    · exact .unknown emu mem agree
    · rename_i newval _
      obtain ⟨performed, written⟩ := write32_agree place emu.mem mem pa newval agree
      dsimp only
      rw [performed]
      split
      · exact stored_alike place
          { emu with mem := (memoryWrite32 emu.mem pa newval).2, rf := regWrite emu.rf inst.rd _ }
          _ pa _ _ written
      · exact .except { emu with mem := (memoryWrite32 emu.mem pa newval).2 } _ _ _ written

/-- The data access of the instruction reads memory, and does not only write. -/
def ReadsData (inst : DecodedInst) : Prop :=
  inst.opcode = .load ∨ inst.opcode = .loadFp ∨
    (inst.opcode = .amo ∧ inst.funct7 >>> 2 ≠ 0x03)

/-- Once translated, a data access does the same on both machines, as long as the
    page it reads is in the place. -/
theorem accessOf_alike (before : Emulator) (inst : DecodedInst) (addr pa : Word) (acc : Access)
    (asks : dataAccess before inst = some (addr, acc)) (agree : Agrees place emu.mem mem)
    (covered : ReadsData inst → Covered place pa)
    (offset : pa.toNat % 4096 = addr.toNat % 4096) :
    ExitAlike place (accessOf inst addr emu pa) (accessOf inst addr (withMem emu mem) pa) := by
  simp only [dataAccess] at asks
  simp only [accessOf]
  cases kind : inst.opcode <;> simp only [kind] at asks ⊢
  case load =>
    split at asks
    · cases asks
    · rename_i aligned
      cases asks
      exact loadAccess_alike place emu mem inst _ pa agree (covered (Or.inl kind)) offset aligned
  case loadFp =>
    split at asks
    · cases asks
    · rename_i aligned
      cases asks
      have low := not_not.mp (not_or.mp aligned).2
      exact loadFpAccess_alike place emu mem inst _ pa agree (covered (Or.inr (Or.inl kind)))
        offset low
  case store => exact storeAccess_alike place emu mem inst addr pa agree
  case storeFp => exact storeFpAccess_alike place emu mem inst addr pa agree
  case amo =>
    split at asks
    · cases asks
    · rename_i aligned
      have low := not_not.mp (not_or.mp aligned).2
      cases asks
      split
      · rename_i reserve
        have reads : ReadsData inst := by
          refine Or.inr (Or.inr ⟨kind, ?_⟩)
          rw [reserve]
          decide
        exact lrAccess_alike place emu mem inst _ pa agree (covered reads) offset low
      · split
        · exact scAccess_alike place emu mem inst _ pa agree
        · rename_i other
          have reads : ReadsData inst := Or.inr (Or.inr ⟨kind, other⟩)
          exact amoAccess_alike place emu mem inst _ pa agree (covered reads) offset low
  all_goals cases asks

end Agreeing

end RvEmu.MemoryAgreement
