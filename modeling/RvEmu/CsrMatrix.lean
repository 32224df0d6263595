import RvEmu.Foundation.BitFields
import RvEmu.CsrAccess
import RvEmu.TrapReturn

/-!
# Every register against every other

A write to one of the control and status registers is seen through that register
by its own rule. Two groups of names are views of shared bits: the three names
of the floating-point state, and `mstatus` with `sstatus`. There a write through
one view changes exactly the shared bits of the other. Every other register
keeps its value. A number without a register is refused and changes nothing.
-/

namespace RvEmu.CsrMatrix

open CsrAccess

/-- The registers hold values of their fields. -/
structure Fields (csr : Csr) : Prop where
  fflags : csr.fflags < 32
  frm : csr.frm < 8
  mtvec : csr.mtvec.toNat % 4 = 0
  stvec : csr.stvec.toNat % 4 = 0
  mepc : csr.mepc.toNat % 4 = 0
  sepc : csr.sepc.toNat % 4 = 0
  medeleg : csr.medeleg.toNat < 2 ^ 16
  mideleg : csr.mideleg.toNat < 2 ^ 16
  satp : csr.satp = 0 ∨ csr.satp &&& satpModeBit ≠ 0

/-! ## The rules -/

/-- What a register reads after a write to itself, from its old value. -/
def ownRule (old val : Word) : CsrName → Word
  | .fflags => val &&& 0x1F
  | .frm => val &&& 0x7
  | .fcsr => val &&& 0xFF
  | .sstatus => val &&& sstatusMask
  | .mtvec => val &&& ~~~(0x3 : Word)
  | .stvec => val &&& ~~~(0x3 : Word)
  | .mepc => val &&& ~~~(0x3 : Word)
  | .sepc => val &&& ~~~(0x3 : Word)
  | .medeleg => val &&& 0xFFFF
  | .mideleg => val &&& 0xFFFF
  | .mip => old &&& val
  | .sip => old &&& val
  | .satp => if val &&& satpModeBit = 0 then 0 else val
  | _ => val

/-- What another register reads after a write, from its old value: the shared bits of
    the written value, and its own other bits. -/
def sharedRule (old val : Word) (written other : CsrName) : Word :=
  match written, other with
  | .fcsr, .fflags => val &&& 0x1F
  | .fcsr, .frm => (val >>> 5) &&& 0x7
  | .fflags, .fcsr => (old &&& ~~~(0x1F : Word)) ||| (val &&& (0x1F : Word))
  | .frm, .fcsr => (old &&& ~~~(0xE0 : Word)) ||| ((val &&& 0x7) <<< 5)
  | .mstatus, .sstatus => val &&& sstatusMask
  | .sstatus, .mstatus => (old &&& ~~~sstatusMask) ||| (val &&& sstatusMask)
  | _, _ => old

/-- The value of a register after a write to a register. -/
def expected (old val : Word) (written other : CsrName) : Word :=
  if other = written then ownRule old val written else sharedRule old val written other

/-- Reads and writes of all registers. -/
structure Matrix (csr : Csr) : Prop where
  written : ∀ (name : CsrName) (val : Word),
    (csrWrite csr name.number val).1 = true ∧
      ∀ other : CsrName, ∃ old, csrRead csr other.number = some old ∧
        csrRead (csrWrite csr name.number val).2 other.number =
          some (expected old val name other)
  unimplemented : ∀ addr : Word, (∀ name : CsrName, addr ≠ name.number) →
    csrRead csr addr = none ∧ ∀ val, csrWrite csr addr val = (false, csr)
  restored : ∀ addr val, csrRead csr addr = some val → csrWrite csr addr val = (true, csr)

/-! ## Masks -/

theorem and_twice (word mask : Word) : word &&& mask &&& mask = word &&& mask := by
  rw [BitVec.and_assoc, BitVec.and_self]

/-- The rounding mode in the place it has in `fcsr`. -/
theorem mode_placed (word : Word) : (word &&& 0x7) <<< 5 = (word <<< 5) &&& 0xE0 := by
  rw [BitVec.shiftLeft_and_distrib]
  rfl

theorem placed_mode (word : Word) : ((word >>> 5) &&& 0x7) <<< 5 = word &&& 0xE0 := by
  have clear : ∀ i, i < 5 → (0xE0 : Word).getLsbD i = false := by decide
  rw [mode_placed]
  apply BitVec.eq_of_getLsbD_eq
  intro i inside
  rw [BitVec.getLsbD_and, BitVec.getLsbD_and, BitVec.getLsbD_shiftLeft,
    BitVec.getLsbD_ushiftRight, decide_eq_true inside, Bool.true_and]
  by_cases low : i < 5
  · rw [clear i low, Bool.and_false, Bool.and_false]
  · rw [decide_eq_false low, Nat.add_sub_cancel' (by omega)]
    rfl

/-- Read back from that place. -/
theorem mode_read (word : Word) : ((word <<< 5) &&& 0xE0) >>> 5 &&& 0x7 = word &&& 0x7 := by
  apply BitVec.eq_of_getLsbD_eq
  intro i inside
  have mask : ∀ i, i < 32 → ((0xE0 : Word).getLsbD (5 + i) && (0x7 : Word).getLsbD i) =
      (0x7 : Word).getLsbD i := by decide
  rw [BitVec.getLsbD_and, BitVec.getLsbD_and, BitVec.getLsbD_ushiftRight, BitVec.getLsbD_and,
    BitVec.getLsbD_shiftLeft, Bool.and_assoc, mask i inside]
  by_cases small : 5 + i < 32
  · rw [decide_eq_true small, decide_eq_false (by omega : ¬ 5 + i < 5), Nat.add_sub_cancel_left]
    rfl
  · have high : ∀ i, i < 32 → ¬ 5 + i < 32 → (0x7 : Word).getLsbD i = false := by decide
    rw [high i inside small, Bool.and_false, Bool.and_false]

/-- The flags have no bits in the place of the rounding mode, nor the mode in theirs. -/
theorem flags_apart (word : Word) :
    (word &&& 0xE0) &&& 0x1F = 0 ∧ (word &&& 0x1F) &&& 0xE0 = 0 := by
  constructor
  · rw [BitVec.and_assoc]
    exact BitVec.and_zero
  · rw [BitVec.and_assoc]
    exact BitVec.and_zero

/-! ## Writes -/

/-- A register after a write to itself. -/
theorem own_value (csr : Csr) (val : Word) (name : CsrName) :
    csrValue (csrStored csr val name) name = ownRule (csrValue csr name) val name := by
  cases name with
  | fflags => exact and_twice val 0x1F
  | frm => exact and_twice val 0x7
  | fcsr =>
    change (((val >>> 5) &&& 0x7) &&& 0x7) <<< 5 ||| ((val &&& 0x1F) &&& 0x1F) = val &&& 0xFF
    rw [and_twice, and_twice, placed_mode, ← BitVec.and_or_distrib_left]
    rfl
  | sstatus =>
    change ((csr.mstatus &&& ~~~sstatusMask) ||| (val &&& sstatusMask)) &&& sstatusMask =
      val &&& sstatusMask
    exact BitMasks.merge_inside csr.mstatus _ _ (and_twice val sstatusMask)
  | satp =>
    change (if val &&& satpModeBit = 0 then (0 : Word)
      else val &&& (satpModeBit ||| (0x1FF#32 <<< 22) ||| satpPpnMask)) =
      if val &&& satpModeBit = 0 then 0 else val
    have all : satpModeBit ||| (0x1FF#32 <<< 22) ||| satpPpnMask = BitVec.allOnes 32 := by decide
    rw [all, BitVec.and_allOnes]
  | mcycle =>
    change ((csr.mcycle &&& 0xFFFFFFFF00000000#64) ||| val.setWidth 64).setWidth 32 = val
    have none : (0xFFFFFFFF00000000#64).setWidth 32 = 0#32 := by decide
    rw [BitVec.setWidth_or, BitVec.setWidth_and, none, BitVec.and_zero, BitVec.zero_or,
      BitFields.narrow_wide val (by decide)]
  | _ => rfl

/-- The floating-point state through its joint view, after a write to one part. -/
theorem flags_joint (csr : Csr) (val : Word) :
    csrValue (csrStored csr val .fflags) .fcsr =
      (csrValue csr .fcsr &&& ~~~(0x1F : Word)) ||| (val &&& (0x1F : Word)) := by
  change ((csr.frm &&& 0x7) <<< 5) ||| ((val &&& (0x1F : Word)) &&& (0x1F : Word)) =
    ((((csr.frm &&& 0x7) <<< 5) ||| (csr.fflags &&& (0x1F : Word))) &&& ~~~(0x1F : Word)) |||
      (val &&& (0x1F : Word))
  rw [and_twice, mode_placed, BitMasks.join_outside _ _ _ (flags_apart _).1 (and_twice _ _)]

theorem mode_joint (csr : Csr) (val : Word) :
    csrValue (csrStored csr val .frm) .fcsr =
      (csrValue csr .fcsr &&& ~~~(0xE0 : Word)) ||| ((val &&& 0x7) <<< 5) := by
  change (((val &&& 0x7) &&& 0x7) <<< 5) ||| (csr.fflags &&& (0x1F : Word)) =
    ((((csr.frm &&& 0x7) <<< 5) ||| (csr.fflags &&& (0x1F : Word))) &&& ~~~(0xE0 : Word)) |||
      ((val &&& 0x7) <<< 5)
  rw [and_twice, mode_placed csr.frm, BitVec.or_comm ((csr.frm <<< 5) &&& 0xE0),
    BitMasks.join_outside _ _ _ (flags_apart _).2 (and_twice _ _), BitVec.or_comm]

/-- A register after a write to another. -/
theorem other_value (csr : Csr) (val : Word) (name other : CsrName) (apart : other ≠ name) :
    csrValue (csrStored csr val name) other = sharedRule (csrValue csr other) val name other := by
  cases name with
  | fflags =>
    cases other with
    | fflags => exact absurd rfl apart
    | fcsr => exact flags_joint csr val
    | _ => rfl
  | frm =>
    cases other with
    | frm => exact absurd rfl apart
    | fcsr => exact mode_joint csr val
    | _ => rfl
  | fcsr =>
    cases other with
    | fcsr => exact absurd rfl apart
    | fflags => exact and_twice val 0x1F
    | frm => exact and_twice (val >>> 5) 0x7
    | _ => rfl
  | _ =>
    cases other with
    | _ => first
      | rfl
      | exact absurd rfl apart

/-! ## Writing back -/

/-- A value inside low ones is kept by masking with them. -/
theorem and_small (word : Word) (n : Nat) (inside : n ≤ 32) (small : word.toNat < 2 ^ n) :
    word &&& BitVec.ofNat 32 (2 ^ n - 1) = word := by
  apply BitVec.eq_of_toNat_eq
  rw [BitMasks.and_low word n inside, Nat.mod_eq_of_lt small]

/-- Writing back what was read changes nothing. -/
theorem stored_back (csr : Csr) (formed : Fields csr) (name : CsrName) :
    csrStored csr (csrValue csr name) name = csr := by
  have flags : csr.fflags &&& (0x1F : Word) = csr.fflags :=
    and_small csr.fflags 5 (by decide) formed.fflags
  have mode : csr.frm &&& (0x7 : Word) = csr.frm :=
    and_small csr.frm 3 (by decide) formed.frm
  cases name with
  | fflags =>
    change { csr with fflags := (csr.fflags &&& (0x1F : Word)) &&& (0x1F : Word) } = csr
    rw [flags, flags]
  | frm =>
    change { csr with frm := (csr.frm &&& (0x7 : Word)) &&& (0x7 : Word) } = csr
    rw [mode, mode]
  | fcsr =>
    have high : (((csr.frm &&& (0x7 : Word)) <<< 5) ||| (csr.fflags &&& (0x1F : Word))) >>> 5 &&&
        (0x7 : Word) = csr.frm := by
      have gone : (csr.fflags &&& (0x1F : Word)) >>> 5 = 0 := by
        rw [BitVec.ushiftRight_and_distrib]
        exact BitVec.and_zero
      have upper : ∀ word : Word, word ||| (0 : Word) = word := fun _ => BitVec.or_zero
      rw [BitVec.ushiftRight_or_distrib, gone, mode_placed, upper]
      exact (mode_read csr.frm).trans mode
    have low : (((csr.frm &&& (0x7 : Word)) <<< 5) ||| (csr.fflags &&& (0x1F : Word))) &&&
        (0x1F : Word) = csr.fflags := by
      have gone : (csr.frm <<< 5) &&& (0xE0 : Word) &&& (0x1F : Word) = 0 := (flags_apart _).1
      rw [BitVec.and_or_distrib_right, mode_placed, gone, and_twice, flags]
      exact BitVec.zero_or
    change { csr with
      frm := (((csr.frm &&& (0x7 : Word)) <<< 5) ||| (csr.fflags &&& (0x1F : Word))) >>> 5 &&&
        (0x7 : Word)
      fflags := (((csr.frm &&& (0x7 : Word)) <<< 5) ||| (csr.fflags &&& (0x1F : Word))) &&&
        (0x1F : Word) } = csr
    rw [high, low]
  | sstatus =>
    have whole : (csr.mstatus &&& ~~~sstatusMask) ||| ((csr.mstatus &&& sstatusMask) &&&
        sstatusMask) = csr.mstatus := by
      rw [and_twice, BitMasks.split_join]
    exact congrArg (fun status => { csr with mstatus := status }) whole
  | satp =>
    have whole : (if csr.satp &&& satpModeBit = 0 then (0 : Word)
        else csr.satp &&& (satpModeBit ||| (0x1FF#32 <<< 22) ||| satpPpnMask)) = csr.satp := by
      have all : satpModeBit ||| (0x1FF#32 <<< 22) ||| satpPpnMask = BitVec.allOnes 32 := by decide
      rw [all, BitVec.and_allOnes]
      rcases formed.satp with bare | paged
      · rw [bare]
        decide
      · exact if_neg paged
    exact congrArg (fun satp => { csr with satp := satp }) whole
  | stvec =>
    have whole := (TrapReturn.epc_kept_iff csr.stvec).mpr formed.stvec
    exact congrArg (fun vector => { csr with stvec := vector }) whole
  | sepc =>
    have whole := (TrapReturn.epc_kept_iff csr.sepc).mpr formed.sepc
    exact congrArg (fun pc => { csr with sepc := pc }) whole
  | mtvec =>
    have whole := (TrapReturn.epc_kept_iff csr.mtvec).mpr formed.mtvec
    exact congrArg (fun vector => { csr with mtvec := vector }) whole
  | mepc =>
    have whole := (TrapReturn.epc_kept_iff csr.mepc).mpr formed.mepc
    exact congrArg (fun pc => { csr with mepc := pc }) whole
  | medeleg =>
    have whole := and_small csr.medeleg 16 (by decide) formed.medeleg
    exact congrArg (fun set => { csr with medeleg := set }) whole
  | mideleg =>
    have whole := and_small csr.mideleg 16 (by decide) formed.mideleg
    exact congrArg (fun set => { csr with mideleg := set }) whole
  | sip => exact congrArg (fun pending => { csr with sip := pending }) BitVec.and_self
  | mip => exact congrArg (fun pending => { csr with mip := pending }) BitVec.and_self
  | mcycle =>
    have low : (csr.mcycle.setWidth 32).setWidth 64 = csr.mcycle &&& ~~~0xFFFFFFFF00000000#64 :=
      (BitFields.and_lowOnes csr.mcycle 32).symm
    have whole : (csr.mcycle &&& 0xFFFFFFFF00000000#64) ||| (csr.mcycle.setWidth 32).setWidth 64 =
        csr.mcycle := by
      rw [low, BitVec.or_comm, BitMasks.split_join]
    exact congrArg (fun cycles => { csr with mcycle := cycles }) whole
  | _ => rfl

/-! ## The matrix -/

/-- All registers against all registers, for every value. -/
theorem csr_matrix (csr : Csr) (formed : Fields csr) : Matrix csr where
  written := by
    intro name val
    have stored : csrWrite csr name.number val = (true, csrStored csr val name) := by
      rw [csrWrite, csrNamed_self]
    rw [stored]
    refine ⟨rfl, ?_⟩
    intro other
    have reads : ∀ any, csrRead any other.number = some (csrValue any other) := by
      intro any
      rw [csrRead, csrNamed_self]
      rfl
    refine ⟨csrValue csr other, reads csr, ?_⟩
    rw [reads, expected]
    by_cases same : other = name
    · rw [if_pos same, same, own_value]
    · rw [if_neg same, other_value csr val name other same]
  unimplemented := by
    intro addr none
    have unnamed : csrNamed addr = .none := by
      cases found : csrNamed addr with
      | none => rfl
      | some name => exact absurd (csrNamed_number addr name found).symm (none name)
    constructor
    · rw [csrRead, unnamed]
      rfl
    · intro val
      rw [csrWrite, unnamed]
  restored := by
    intro addr val read
    rw [csrRead] at read
    obtain ⟨name, found, same⟩ := Option.map_eq_some_iff.mp read
    rw [csrWrite, found, ← same]
    exact congrArg (Prod.mk true) (stored_back csr formed name)

/-- Registers in use: flags, a rounding mode, vectors, delegation and paging. -/
def usedCsr : Csr :=
  { csrInit with
    fflags := 0x11
    frm := 2
    mtvec := 0x80000100
    sepc := 0x00400004
    medeleg := 0xB109
    mideleg := 0x0222
    satp := 0x80000123
    mstatus := 0x000C19A2
    mcycle := 0x0000000500000007 }

theorem usedCsr_matrix : Fields usedCsr ∧ Matrix usedCsr := by
  have formed : Fields usedCsr :=
    ⟨by decide, by decide, by decide, by decide, by decide, by decide, by decide, by decide,
      Or.inr (by decide)⟩
  exact ⟨formed, csr_matrix usedCsr formed⟩

end RvEmu.CsrMatrix
