import RvEmu.GuestMemory

/-!
# What a floating-point instruction writes

The operations choose between two register files by their fields, and their
flags come from the host, from comparisons, and from conversions. Whatever the
host does, a refused encoding changes nothing, an accepted one writes its one
destination and only adds exception flags, and arithmetic writes no NaN but the
canonical one. Moves between the register files and through memory keep every
pattern.
-/

namespace RvEmu.FloatFrame

open GuestMemory InstructionSet

/-! ## Destinations -/

/-- The register file of a destination. -/
inductive Destination where
  | float
  | integer
deriving DecidableEq

/-- Arithmetic, sign injection, min and max, conversion to a float and the move to one
    write `f[rd]`; comparisons, conversion to an integer, the move from a float and the
    classification write `x[rd]`. -/
def destinationOf (funct7 : BitVec 7) : Option Destination :=
  match funct7 with
  | 0x00#7 => some .float
  | 0x04#7 => some .float
  | 0x08#7 => some .float
  | 0x0C#7 => some .float
  | 0x2C#7 => some .float
  | 0x10#7 => some .float
  | 0x14#7 => some .float
  | 0x68#7 => some .float
  | 0x78#7 => some .float
  | 0x50#7 => some .integer
  | 0x60#7 => some .integer
  | 0x70#7 => some .integer
  | _ => none

/-- Addition, subtraction, multiplication, division and the square root. -/
def Arithmetic (funct7 : BitVec 7) : Prop :=
  funct7 = 0x00 ∨ funct7 = 0x04 ∨ funct7 = 0x08 ∨ funct7 = 0x0C ∨ funct7 = 0x2C

instance (funct7 : BitVec 7) : Decidable (Arithmetic funct7) :=
  inferInstanceAs (Decidable (_ ∨ _ ∨ _ ∨ _ ∨ _))

/-- One register at most differs: `f[rd]`, or `x[rd]` other than `x0`. -/
def OnlyDestination (before after : Regfile) (rd : Reg) : Destination → Prop
  | .float => ∃ value, after = { before with fregs := Function.update before.fregs rd value }
  | .integer => ∃ value, after = { before with regs := put before.regs rd value }

/-- The frame of an instruction that `fpu_execute` refuses or performs. -/
structure Frame (host : HostFloat) (emu : Emulator) (inst : DecodedInst) : Prop where
  refused : fpuExecute host emu.rf emu.csr inst = none → execFp host emu inst = .unknown emu
  performed : ∀ rf csr, fpuExecute host emu.rf emu.csr inst = some (rf, csr) →
    execFp host emu inst = .next { emu with rf, csr } (seqPc emu inst) .quiet ∧
      (∃ destination, destinationOf inst.funct7 = some destination ∧
        OnlyDestination emu.rf rf inst.rd destination) ∧
      (∃ gained, csr = { emu.csr with fflags := emu.csr.fflags ||| gained }) ∧
      csr.fflags < 32 ∧
      (Arithmetic inst.funct7 → bitsIsNan (rf.fregs inst.rd) = true →
        rf.fregs inst.rd = 0x7FC00000)

/-! ## The result of an operation -/

/-- What an operation hands to its destination. -/
inductive Produced (rf : Regfile) (csr : Csr) (inst : DecodedInst) : Regfile × Csr → Prop where
  | float (computed : Word × Csr) (file : destinationOf inst.funct7 = some .float)
      (raised : Raised csr computed.2)
      (canon : Arithmetic inst.funct7 → bitsIsNan computed.1 = true → computed.1 = fpCanonNan) :
      Produced rf csr inst (fregWrite rf inst.rd computed.1, computed.2)
  | integer (computed : Word × Csr) (file : destinationOf inst.funct7 = some .integer)
      (raised : Raised csr computed.2) :
      Produced rf csr inst (regWrite rf inst.rd computed.1, computed.2)

theorem canonical_nan (bits : Word) (nan : bitsIsNan (canonical bits) = true) :
    canonical bits = fpCanonNan := by
  rw [canonical] at nan ⊢
  by_cases source : bitsIsNan bits = true
  · exact if_pos source
  · rw [if_neg source] at nan
    exact absurd nan source

section Operations

variable (rf : Regfile) (csr : Csr) (inst : DecodedInst) (result : Regfile × Csr)

/-- An arithmetic result is canonical. -/
theorem arithmetic_produced (host : HostFloat) (rm : Word) (op : FpOp) (a b : Word)
    (file : destinationOf inst.funct7 = some .float)
    (done : toFreg rf inst.rd (fpArith host csr rm op a b) = some result) :
    Produced rf csr inst result := by
  cases done
  exact .float _ file (raised_host csr _) (fun _ nan => canonical_nan _ nan)

/-- Another result in a float register. -/
theorem float_produced (computed : Word × Csr) (raised : Raised csr computed.2)
    (file : destinationOf inst.funct7 = some .float) (other : ¬ Arithmetic inst.funct7)
    (done : toFreg rf inst.rd computed = some result) : Produced rf csr inst result := by
  cases done
  exact .float computed file raised (fun arithmetic => absurd arithmetic other)

theorem integer_produced (computed : Word × Csr) (raised : Raised csr computed.2)
    (file : destinationOf inst.funct7 = some .integer)
    (done : toReg rf inst.rd computed = some result) : Produced rf csr inst result := by
  cases done
  exact .integer computed file raised

/-- Every accepted encoding produces one value for one register. -/
theorem fpuExecute_produced (host : HostFloat)
    (done : fpuExecute host rf csr inst = some result) : Produced rf csr inst result := by
  simp only [fpuExecute] at done
  split at done
  all_goals rename_i operation
  · exact arithmetic_produced rf csr inst result host _ _ _ _ (by rw [operation]; rfl) done
  · exact arithmetic_produced rf csr inst result host _ _ _ _ (by rw [operation]; rfl) done
  · exact arithmetic_produced rf csr inst result host _ _ _ _ (by rw [operation]; rfl) done
  · exact arithmetic_produced rf csr inst result host _ _ _ _ (by rw [operation]; rfl) done
  · split at done
    · cases done
    · exact arithmetic_produced rf csr inst result host _ _ _ _ (by rw [operation]; rfl) done
  · have file : destinationOf inst.funct7 = some .float := by rw [operation]; rfl
    have other : ¬ Arithmetic inst.funct7 := by rw [operation]; decide
    split at done
    · exact float_produced rf csr inst result _ (raised_none csr) file other done
    · split at done
      · exact float_produced rf csr inst result _ (raised_none csr) file other done
      · split at done
        · exact float_produced rf csr inst result _ (raised_none csr) file other done
        · cases done
  · have file : destinationOf inst.funct7 = some .float := by rw [operation]; rfl
    have other : ¬ Arithmetic inst.funct7 := by rw [operation]; decide
    split at done
    · cases done
    · exact float_produced rf csr inst result _ (fpMinmax_raised csr _ _ _) file other done
  · have file : destinationOf inst.funct7 = some .integer := by rw [operation]; rfl
    split at done
    · cases done
    · exact integer_produced rf csr inst result _ (fpCompare_raised csr _ _ _) file done
  · have file : destinationOf inst.funct7 = some .integer := by rw [operation]; rfl
    split at done
    · cases done
    · exact integer_produced rf csr inst result _ (fpFloatToInt_raised host csr _ _ _) file done
  · have file : destinationOf inst.funct7 = some .float := by rw [operation]; rfl
    have other : ¬ Arithmetic inst.funct7 := by rw [operation]; decide
    split at done
    · cases done
    · exact float_produced rf csr inst result _ (raised_host csr _) file other done
  · have file : destinationOf inst.funct7 = some .integer := by rw [operation]; rfl
    split at done
    · cases done
    · split at done
      · exact integer_produced rf csr inst result _ (raised_none csr) file done
      · split at done
        · exact integer_produced rf csr inst result _ (raised_none csr) file done
        · cases done
  · have file : destinationOf inst.funct7 = some .float := by rw [operation]; rfl
    have other : ¬ Arithmetic inst.funct7 := by rw [operation]; decide
    split at done
    · cases done
    · exact float_produced rf csr inst result _ (raised_none csr) file other done
  · cases done

end Operations

/-- The frame of every instruction. -/
theorem frame_holds (host : HostFloat) (emu : Emulator) (inst : DecodedInst)
    (known : emu.csr.fflags < 32) : Frame host emu inst where
  refused := by
    intro none
    rw [execFp, none]
  performed := by
    intro rf csr done
    have executed : execFp host emu inst = .next { emu with rf, csr } (seqPc emu inst) .quiet := by
      rw [execFp, done]
    have flags : ∀ after, Raised emu.csr after →
        (∃ gained, after = { emu.csr with fflags := emu.csr.fflags ||| gained }) ∧
          after.fflags < 32 := by
      rintro after ⟨gained, five, rfl⟩
      exact ⟨⟨gained, rfl⟩,
        Nat.lt_succ_of_le (flags_or emu.csr.fflags gained (Nat.le_of_lt_succ known) five)⟩
    have produced := fpuExecute_produced emu.rf emu.csr inst (rf, csr) host done
    refine ⟨executed, ?_⟩
    generalize outcome : (rf, csr) = result at produced
    cases produced with
    | float computed file raised canon =>
      cases outcome
      have written : (fregWrite emu.rf inst.rd computed.1).fregs inst.rd = computed.1 := by
        rw [fregWrite]
        exact Function.update_self _ _ _
      refine ⟨⟨.float, file, computed.1, rfl⟩, (flags _ raised).1, (flags _ raised).2, ?_⟩
      rw [written]
      exact canon
    | integer computed file raised =>
      cases outcome
      refine ⟨⟨.integer, file, computed.1, BaseInstructions.regWrite_put _ _ _⟩,
        (flags _ raised).1, (flags _ raised).2, ?_⟩
      intro arithmetic
      have apart : ∀ funct7, Arithmetic funct7 → destinationOf funct7 ≠ some .integer := by
        decide
      exact absurd file (apart inst.funct7 arithmetic)

/-! ## Moves -/

/-- `FMV.X.W`. -/
structure IsMoveToInteger (inst : DecodedInst) : Prop where
  opcode : inst.opcode = .fp
  funct7 : inst.funct7 = 0x70
  funct3 : inst.funct3 = 0
  rs2 : inst.rs2 = 0

/-- `FMV.W.X`. -/
structure IsMoveToFloat (inst : DecodedInst) : Prop where
  opcode : inst.opcode = .fp
  funct7 : inst.funct7 = 0x78
  funct3 : inst.funct3 = 0
  rs2 : inst.rs2 = 0

/-- `FSW`. -/
structure IsFloatStore (inst : DecodedInst) : Prop where
  opcode : inst.opcode = .storeFp
  funct3 : inst.funct3 = 2

/-- `FLW`. -/
structure IsFloatLoad (inst : DecodedInst) : Prop where
  opcode : inst.opcode = .loadFp
  funct3 : inst.funct3 = 2

/-- Patterns survive the way through an integer register and through memory. -/
structure Moves (host : HostFloat) (emu : Emulator) : Prop where
  registers : ∀ first second, IsMoveToInteger first → IsMoveToFloat second → first.rd ≠ 0 →
    second.rs1 = first.rd →
    (execute host emu first).1 = .retired .quiet ∧
      (execute host (execute host emu first).2 second).1 = .retired .quiet ∧
      (execute host (execute host emu first).2 second).2.rf.fregs second.rd =
        emu.rf.fregs first.rs1
  memory : ∀ store load, IsFloatStore store → IsFloatLoad load → emu.priv = privM →
    effective emu load = effective emu store → Natural .word (effective emu store) →
    InRam .word (effective emu store) →
    (execute host emu store).1 = .retired (.stored (effective emu store) .word) ∧
      (execute host (execute host emu store).2 load).1 = .retired .quiet ∧
      (execute host (execute host emu store).2 load).2.rf.fregs load.rd =
        emu.rf.fregs store.rs2

section Execution

variable (host : HostFloat) (emu : Emulator) (inst : DecodedInst)

theorem move_to_integer (kind : IsMoveToInteger inst) :
    execute host emu inst =
      (.retired .quiet,
        { emu with rf := { emu.rf with
          regs := put emu.rf.regs inst.rd (emu.rf.fregs inst.rs1), pc := seqPc emu inst } }) := by
  have done : fpuExecute host emu.rf emu.csr inst =
      some (regWrite emu.rf inst.rd (emu.rf.fregs inst.rs1), emu.csr) := by
    have operation : inst.funct7 = 0x70#7 := kind.funct7
    simp only [fpuExecute, operation, kind.funct3, kind.rs2]
    rfl
  apply BaseInstructions.execute_written
  simp only [execSwitch, kind.opcode, execFp, done]
  rfl

theorem move_to_float (kind : IsMoveToFloat inst) :
    execute host emu inst =
      (.retired .quiet,
        { emu with rf := { emu.rf with
          fregs := Function.update emu.rf.fregs inst.rd (emu.rf.regs inst.rs1)
          pc := seqPc emu inst } }) := by
  have done : fpuExecute host emu.rf emu.csr inst =
      some (fregWrite emu.rf inst.rd (emu.rf.regs inst.rs1), emu.csr) := by
    have operation : inst.funct7 = 0x78#7 := kind.funct7
    simp only [fpuExecute, operation, kind.funct3, kind.rs2]
    rfl
  have switched : execSwitch host emu inst =
      .next { emu with rf := fregWrite emu.rf inst.rd (emu.rf.regs inst.rs1) } (seqPc emu inst)
        .quiet := by
    simp only [execSwitch, kind.opcode, execFp, done]
  simp only [execute, switched]
  rfl

/-- A float store in RAM. -/
theorem float_store (kind : IsFloatStore inst) (machine : emu.priv = privM)
    (natural : Natural .word (effective emu inst)) (inside : InRam .word (effective emu inst)) :
    execute host emu inst =
      (.retired (.stored (effective emu inst) .word),
        storedState emu inst .word (effective emu inst) (emu.rf.fregs inst.rs2)) := by
  have quiet := inRam_quiet .word _ inside
  have passed := inRam_passes emu.mem .word _ inside
  have aligned : ¬ effective emu inst &&& 3 ≠ 0 :=
    mt (ExecOutcome.low_two (effective emu inst)).mp (fun odd => odd natural)
  have written := (writeLow_eq emu.mem .word _ (emu.rf.fregs inst.rs2) quiet).1 passed
  have switched : execSwitch host emu inst = .next
      { storedState emu inst .word (effective emu inst) (emu.rf.fregs inst.rs2) with rf := emu.rf }
      (seqPc emu inst) (.stored (effective emu inst) .word) := by
    simp only [execSwitch, kind.opcode, execStoreFp]
    rw [if_neg (fun other => other kind.funct3)]
    change (if effective emu inst &&& 3 ≠ 0 then _
      else translateThen emu (effective emu inst) .store
        (storeFpAccess inst (effective emu inst))) = _
    rw [if_neg aligned, translateThen_machine emu _ _ _ machine]
    change finishStore emu inst _ _ .word
      (writeLow .word emu.mem (effective emu inst) (emu.rf.fregs inst.rs2)) = _
    rw [written, finishStore_stored]
  simp only [execute, switched]
  rfl

/-- A float load in RAM. -/
theorem float_load (kind : IsFloatLoad inst) (machine : emu.priv = privM)
    (natural : Natural .word (effective emu inst)) (inside : InRam .word (effective emu inst)) :
    execute host emu inst =
      (.retired .quiet,
        { emu with rf := { emu.rf with
          fregs := Function.update emu.rf.fregs inst.rd
            (LittleEndian.wordAt emu.mem.data (effective emu inst))
          pc := seqPc emu inst } }) := by
  have passed : ¬ effective emu inst + 4 > emu.mem.size := inRam_passes emu.mem .word _ inside
  have aligned : ¬ effective emu inst &&& 3 ≠ 0 :=
    mt (ExecOutcome.low_two (effective emu inst)).mp (fun odd => odd natural)
  have read : memoryRead32 emu.mem (effective emu inst) =
      some (LittleEndian.wordAt emu.mem.data (effective emu inst)) := by
    rw [memoryRead32, if_neg passed]
  have switched : execSwitch host emu inst = .next
      { emu with
        rf := fregWrite emu.rf inst.rd
          (LittleEndian.wordAt emu.mem.data (effective emu inst)) }
      (seqPc emu inst) .quiet := by
    simp only [execSwitch, kind.opcode, execLoadFp]
    rw [if_neg (fun other => other kind.funct3)]
    change (if effective emu inst &&& 3 ≠ 0 then _
      else translateThen emu (effective emu inst) .load
        (loadFpAccess inst (effective emu inst))) = _
    rw [if_neg aligned, translateThen_machine emu _ _ _ machine]
    simp only [loadFpAccess, read]
  simp only [execute, switched]
  rfl

/-- Moves keep every pattern. -/
theorem moves_hold : Moves host emu where
  registers := by
    intro first second toInteger toFloat named same
    rw [move_to_integer host emu first toInteger, move_to_float host _ second toFloat]
    refine ⟨rfl, rfl, ?_⟩
    have stored : put emu.rf.regs first.rd (emu.rf.fregs first.rs1) first.rd =
        emu.rf.fregs first.rs1 := if_pos ⟨rfl, named⟩
    dsimp only
    rw [Function.update_self, same, stored]
  memory := by
    intro store load storing loading machine same natural inside
    have address : effective (storedState emu store .word (effective emu store)
        (emu.rf.fregs store.rs2)) load = effective emu store := same
    have back : LittleEndian.wordAt (storedState emu store .word (effective emu store)
        (emu.rf.fregs store.rs2)).mem.data (effective emu store) = emu.rf.fregs store.rs2 := by
      change LittleEndian.wordAt (ByteOverlay.overlay emu.mem.data _ 4 _) _ = _
      rw [← ByteOverlay.putWord_overlay, LittleEndian.wordAt_putWord]
    have loaded := float_load host (storedState emu store .word (effective emu store)
      (emu.rf.fregs store.rs2)) load loading machine (by rw [address]; exact natural)
      (by rw [address]; exact inside)
    rw [float_store host emu store storing machine natural inside]
    dsimp only
    rw [loaded]
    refine ⟨rfl, rfl, ?_⟩
    dsimp only
    rw [Function.update_self, address, back]

end Execution

/-- The frame of every floating-point instruction, and the moves. -/
theorem float_frame (host : HostFloat) (emu : Emulator) (inst : DecodedInst)
    (known : emu.csr.fflags < 32) : Frame host emu inst ∧ Moves host emu :=
  ⟨frame_holds host emu inst known, moves_hold host emu⟩

/-- A host that answers every operation with a signaling NaN and every exception. -/
def hostileHost : HostFloat where
  arith := fun _ _ _ _ => (0xFF800001, ⟨true, true, true, true, true⟩)
  nearbyint := fun _ _ => (0xFF800001, ⟨true, true, true, true, true⟩)
  ofSigned := fun _ _ => (0xFF800001, ⟨true, true, true, true, true⟩)
  ofUnsigned := fun _ _ => (0xFF800001, ⟨true, true, true, true, true⟩)

/-- `fadd.s f1, f1, f2` writes the canonical NaN for it, and raises all flags. -/
theorem hostileHost_framed :
    ∃ inst, decode 0x0020F0D3 = some inst ∧ Frame hostileHost (emuInit (fun _ => 0)) inst ∧
      Moves hostileHost (emuInit (fun _ => 0)) ∧
      (execute hostileHost (emuInit (fun _ => 0)) inst).2.rf.fregs 1 = 0x7FC00000 ∧
      (execute hostileHost (emuInit (fun _ => 0)) inst).2.csr.fflags = 0x1F := by
  obtain ⟨frame, moves⟩ := float_frame hostileHost (emuInit (fun _ => 0))
    ((decode 0x0020F0D3).get rfl) (by decide)
  exact ⟨_, rfl, frame, moves, by decide, by decide⟩

end RvEmu.FloatFrame
