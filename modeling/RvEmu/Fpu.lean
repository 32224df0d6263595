import Mathlib.Algebra.Group.Int.Defs
import RvEmu.Machine

/-!
# Single-precision floating point

`fpu_execute` computes on raw bit patterns. Comparisons of two patterns are the
host's IEEE comparisons and are given here by the exact values the patterns
denote. Rounded operations are the host's: a `HostFloat` supplies the result
bits and the exceptions raised, for the rounding mode in force, and nothing is
assumed of it.

The unit of the exact values is `2 ^ -149`, the least positive subnormal; every
finite single-precision value is an integer number of these units.
-/

namespace RvEmu

/-- Bits of `fflags`. -/
def fpNx : Word := 0x01
def fpUf : Word := 0x02
def fpOf : Word := 0x04
def fpDz : Word := 0x08
def fpNv : Word := 0x10

def fpCanonNan : Word := 0x7FC00000

/-- The host's rounding modes. -/
inductive HostRounding where
  | toNearest
  | towardZero
  | downward
  | upward
deriving DecidableEq

/-- The exceptions `fetestexcept` reports. -/
structure HostExcept where
  inexact : Bool
  underflow : Bool
  overflow : Bool
  divByZero : Bool
  invalid : Bool
deriving DecidableEq

/-- The two-operand and one-operand operations of `fp_arith`. -/
inductive FpOp where
  | add
  | sub
  | mul
  | div
  | sqrt
deriving DecidableEq

/-- The host's rounded operations on bit patterns: arithmetic, rounding to an
integral value and conversion from the two integer types. -/
structure HostFloat where
  arith : FpOp → HostRounding → Word → Word → Word × HostExcept
  nearbyint : HostRounding → Word → Word × HostExcept
  ofSigned : HostRounding → Word → Word × HostExcept
  ofUnsigned : HostRounding → Word → Word × HostExcept

/-- A host that returns its operand and raises nothing, for programs that do no
    floating-point arithmetic. -/
def idleHost : HostFloat where
  arith := fun _ _ a _ => (a, ⟨false, false, false, false, false⟩)
  nearbyint := fun _ a => (a, ⟨false, false, false, false, false⟩)
  ofSigned := fun _ a => (a, ⟨false, false, false, false, false⟩)
  ofUnsigned := fun _ a => (a, ⟨false, false, false, false, false⟩)

def bitsIsNan (bits : Word) : Bool :=
  bits &&& 0x7F800000 = 0x7F800000 ∧ bits &&& 0x007FFFFF ≠ 0

def bitsIsSnan (bits : Word) : Bool :=
  bitsIsNan bits ∧ bits &&& 0x00400000 = 0

/-- `host_rounding`: mode 7 reads `frm`; the fifth mode and the reserved ones
fall back to the nearest even. -/
def hostRounding (rm frm : Word) : HostRounding :=
  let rm := if rm = 7 then frm else rm
  if rm = 0 then .toNearest
  else if rm = 1 then .towardZero
  else if rm = 2 then .downward
  else if rm = 3 then .upward
  else .toNearest

/-- The bits `fp_collect_flags` gathers. -/
def fpFlags (raised : HostExcept) : Word :=
  (if raised.inexact then fpNx else 0) ||| (if raised.underflow then fpUf else 0) |||
    (if raised.overflow then fpOf else 0) ||| (if raised.divByZero then fpDz else 0) |||
    (if raised.invalid then fpNv else 0)

/-- `emu->csr.fflags |= f`. -/
def raiseFlags (csr : Csr) (flags : Word) : Csr :=
  { csr with fflags := csr.fflags ||| flags }

/-- A result that is a NaN becomes the canonical one. -/
def canonical (bits : Word) : Word := if bitsIsNan bits then fpCanonNan else bits

/-- `fp_arith`. -/
def fpArith (host : HostFloat) (csr : Csr) (rm : Word) (op : FpOp) (a b : Word) : Word × Csr :=
  let (bits, raised) := host.arith op (hostRounding rm csr.frm) a b
  (canonical bits, raiseFlags csr (fpFlags raised))

/-- The magnitude of a finite pattern in units of `2 ^ -149`. -/
def f32Magnitude (bits : Word) : Nat :=
  let exponent := ((bits >>> 23) &&& 0xFF).toNat
  let fraction := (bits &&& 0x007FFFFF).toNat
  if exponent = 0 then fraction else (fraction + 2 ^ 23) * 2 ^ (exponent - 1)

/-- A pattern that is not a NaN as a signed number of units. The infinities lie
beyond every finite pattern, at the magnitude their exponent would give. -/
def f32Value (bits : Word) : Int :=
  if bits &&& 0x80000000 ≠ 0 then -(f32Magnitude bits : Int) else f32Magnitude bits

/-- The host's `a < b` on floats. -/
def f32Lt (a b : Word) : Bool :=
  !bitsIsNan a && !bitsIsNan b && decide (f32Value a < f32Value b)

/-- The host's `a <= b` on floats. -/
def f32Le (a b : Word) : Bool :=
  !bitsIsNan a && !bitsIsNan b && decide (f32Value a ≤ f32Value b)

/-- The host's `a == b` on floats. -/
def f32Eq (a b : Word) : Bool :=
  !bitsIsNan a && !bitsIsNan b && decide (f32Value a = f32Value b)

/-- `fp_minmax`. -/
def fpMinmax (csr : Csr) (a b : Word) (isMax : Bool) : Word × Csr :=
  if bitsIsNan a ∧ bitsIsNan b then (fpCanonNan, csr)
  else if bitsIsNan a then (b, if bitsIsSnan a then raiseFlags csr fpNv else csr)
  else if bitsIsNan b then (a, if bitsIsSnan b then raiseFlags csr fpNv else csr)
  else if f32Lt a b then (a, csr)
  else if f32Lt b a then (b, csr)
  else
    let sign := if isMax then a &&& b &&& 0x80000000 else (a ||| b) &&& 0x80000000
    (sign ||| (a &&& 0x7FFFFFFF), csr)

/-- `fp_compare`: 0 is less-or-equal, 1 is less, anything else is equality. -/
def fpCompare (csr : Csr) (funct3 : BitVec 3) (a b : Word) : Word × Csr :=
  if bitsIsNan a ∨ bitsIsNan b then
    if funct3 = 2 then
      (0, if bitsIsSnan a ∨ bitsIsSnan b then raiseFlags csr fpNv else csr)
    else (0, raiseFlags csr fpNv)
  else if funct3 = 0 then (if f32Le a b then 1 else 0, csr)
  else if funct3 = 1 then (if f32Lt a b then 1 else 0, csr)
  else (if f32Eq a b then 1 else 0, csr)

/-- The exact value of an integer in the units of `f32Value`. -/
def unitsOf (n : Int) : Int := n * 2 ^ 149

/-- The C conversion of a float to a 32-bit integer: the fraction is dropped. A
value outside the target range is undefined in C and wraps here. -/
def f32Truncate (bits : Word) : Word := BitVec.ofInt 32 ((f32Value bits).tdiv (2 ^ 149))

/-- The rounding half of `fp_float_to_int`, after the range checks. -/
def fpRoundToInt (host : HostFloat) (csr : Csr) (rm a : Word) : Word × Csr :=
  let (rounded, raised) := host.nearbyint (hostRounding rm csr.frm) a
  let csr := raiseFlags csr (fpFlags raised)
  let csr := if f32Eq rounded a then csr else raiseFlags csr fpNx
  (f32Truncate rounded, csr)

/-- `fp_float_to_int`: NaN and values out of range saturate and raise NV before
any rounding. -/
def fpFloatToInt (host : HostFloat) (csr : Csr) (rm a : Word) (isUnsigned : Bool) : Word × Csr :=
  if bitsIsNan a then
    (if isUnsigned then 0xFFFFFFFF else 0x7FFFFFFF, raiseFlags csr fpNv)
  else if isUnsigned then
    if ¬ f32Value a > 0 then
      if f32Value a < 0 then (0, raiseFlags csr fpNv) else (0, csr)
    else if f32Value a ≥ unitsOf 4294967296 then (0xFFFFFFFF, raiseFlags csr fpNv)
    else fpRoundToInt host csr rm a
  else if f32Value a ≥ unitsOf 2147483648 then (0x7FFFFFFF, raiseFlags csr fpNv)
  else if f32Value a < unitsOf (-2147483648) then (0x80000000, raiseFlags csr fpNv)
  else fpRoundToInt host csr rm a

/-- `fp_int_to_float`. -/
def fpIntToFloat (host : HostFloat) (csr : Csr) (rm value : Word) (isUnsigned : Bool) :
    Word × Csr :=
  let (bits, raised) :=
    if isUnsigned then host.ofUnsigned (hostRounding rm csr.frm) value
    else host.ofSigned (hostRounding rm csr.frm) value
  (canonical bits, raiseFlags csr (fpFlags raised))

/-- `fp_classify`: one of ten class bits. -/
def fpClassify (bits : Word) : Word :=
  let sign := bits >>> 31
  let exp := (bits >>> 23) &&& 0xFF
  let frac := bits &&& 0x007FFFFF
  if exp = 0xFF then
    if frac = 0 then if sign ≠ 0 then 1#32 <<< 0 else 1#32 <<< 7
    else if frac &&& 0x00400000 ≠ 0 then 1#32 <<< 9 else 1#32 <<< 8
  else if exp = 0 then
    if frac = 0 then if sign ≠ 0 then 1#32 <<< 3 else 1#32 <<< 4
    else if sign ≠ 0 then 1#32 <<< 2 else 1#32 <<< 5
  else if sign ≠ 0 then 1#32 <<< 1 else 1#32 <<< 6

/-- A computed pattern goes to `f[rd]`. -/
def toFreg (rf : Regfile) (rd : Reg) (computed : Word × Csr) : Option (Regfile × Csr) :=
  some (fregWrite rf rd computed.1, computed.2)

/-- A computed word goes to `x[rd]`. -/
def toReg (rf : Regfile) (rd : Reg) (computed : Word × Csr) : Option (Regfile × Csr) :=
  some (regWrite rf rd computed.1, computed.2)

/-- `fpu_execute`: the register file and CSRs are all it reads and writes;
`none` is an unsupported encoding. -/
def fpuExecute (host : HostFloat) (rf : Regfile) (csr : Csr) (inst : DecodedInst) :
    Option (Regfile × Csr) :=
  let f3 := inst.funct3
  let rm := f3.setWidth 32
  let rd := inst.rd
  let a := rf.fregs inst.rs1
  let b := rf.fregs inst.rs2
  match inst.funct7 with
  | 0x00#7 => toFreg rf rd (fpArith host csr rm .add a b)
  | 0x04#7 => toFreg rf rd (fpArith host csr rm .sub a b)
  | 0x08#7 => toFreg rf rd (fpArith host csr rm .mul a b)
  | 0x0C#7 => toFreg rf rd (fpArith host csr rm .div a b)
  | 0x2C#7 => if inst.rs2 ≠ 0 then none else toFreg rf rd (fpArith host csr rm .sqrt a 0)
  | 0x10#7 =>
    if f3 = 0 then toFreg rf rd ((a &&& 0x7FFFFFFF) ||| (b &&& 0x80000000), csr)
    else if f3 = 1 then toFreg rf rd ((a &&& 0x7FFFFFFF) ||| (~~~b &&& 0x80000000), csr)
    else if f3 = 2 then toFreg rf rd ((a &&& 0x7FFFFFFF) ||| ((a ^^^ b) &&& 0x80000000), csr)
    else none
  | 0x14#7 => if f3 > 1 then none else toFreg rf rd (fpMinmax csr a b (f3 = 1))
  | 0x50#7 => if f3 > 2 then none else toReg rf rd (fpCompare csr f3 a b)
  | 0x60#7 => if inst.rs2 > 1 then none else toReg rf rd (fpFloatToInt host csr rm a (inst.rs2 = 1))
  | 0x68#7 =>
    if inst.rs2 > 1 then none
    else toFreg rf rd (fpIntToFloat host csr rm (regRead rf inst.rs1) (inst.rs2 = 1))
  | 0x70#7 =>
    if inst.rs2 ≠ 0 then none
    else if f3 = 0 then toReg rf rd (a, csr)
    else if f3 = 1 then toReg rf rd (fpClassify a, csr)
    else none
  | 0x78#7 => if inst.rs2 ≠ 0 ∨ f3 ≠ 0 then none else toFreg rf rd (regRead rf inst.rs1, csr)
  | _ => none

/-! ## What a floating-point instruction changes -/

/-- Nothing but the exception flags differs. -/
def FlagsOnly (before after : Csr) : Prop := ∃ flags, after = { before with fflags := flags }

theorem flags_same (csr : Csr) : FlagsOnly csr csr := ⟨csr.fflags, rfl⟩

/-- Some of the five exceptions have been raised. -/
def Raised (before after : Csr) : Prop := ∃ flags, flags ≤ 0x1F ∧ after = raiseFlags before flags

theorem raised_only (before after : Csr) (raised : Raised before after) :
    FlagsOnly before after := by
  obtain ⟨flags, -, rfl⟩ := raised
  exact ⟨before.fflags ||| flags, rfl⟩

theorem raised_none (csr : Csr) : Raised csr csr := by
  refine ⟨0, by decide, ?_⟩
  have same : csr.fflags ||| 0 = csr.fflags := BitVec.or_zero
  rw [raiseFlags, same]

theorem raised_flags (csr : Csr) (flags : Word) (known : flags ≤ 0x1F) :
    Raised csr (raiseFlags csr flags) :=
  ⟨flags, known, rfl⟩

theorem raised_chosen (csr : Csr) (condition : Prop) [Decidable condition] (left right : Csr)
    (leftRaised : Raised csr left) (rightRaised : Raised csr right) :
    Raised csr (if condition then left else right) := by
  split
  · exact leftRaised
  · exact rightRaised

/-- Sets of flags are five bits wide. -/
theorem flags_or (early late : Word) (first : early ≤ 0x1F) (second : late ≤ 0x1F) :
    early ||| late ≤ 0x1F := by
  have earlySmall : early.toNat < 2 ^ 5 := Nat.lt_succ_of_le first
  have lateSmall : late.toNat < 2 ^ 5 := Nat.lt_succ_of_le second
  rw [BitVec.le_def, BitVec.toNat_or]
  exact Nat.le_of_lt_succ (Nat.or_lt_two_pow earlySmall lateSmall)

theorem raised_trans (first second third : Csr) (earlier : Raised first second)
    (later : Raised second third) : Raised first third := by
  obtain ⟨early, earlyKnown, rfl⟩ := earlier
  obtain ⟨late, lateKnown, rfl⟩ := later
  refine ⟨early ||| late, flags_or early late earlyKnown lateKnown, ?_⟩
  rw [raiseFlags, raiseFlags, raiseFlags, BitVec.or_assoc]

/-- The host reports the five exceptions. -/
theorem fpFlags_known (raised : HostExcept) : fpFlags raised ≤ 0x1F := by
  have every : ∀ inexact underflow overflow divByZero invalid,
      fpFlags ⟨inexact, underflow, overflow, divByZero, invalid⟩ ≤ 0x1F := by
    decide
  exact every raised.inexact raised.underflow raised.overflow raised.divByZero raised.invalid

theorem raised_host (csr : Csr) (raised : HostExcept) :
    Raised csr (raiseFlags csr (fpFlags raised)) :=
  raised_flags csr _ (fpFlags_known raised)

theorem raised_nv (csr : Csr) : Raised csr (raiseFlags csr fpNv) :=
  raised_flags csr fpNv (by decide)

theorem fpMinmax_raised (csr : Csr) (a b : Word) (isMax : Bool) :
    Raised csr (fpMinmax csr a b isMax).2 := by
  simp only [fpMinmax]
  split
  · exact raised_none csr
  · split
    · exact raised_chosen csr _ _ _ (raised_nv csr) (raised_none csr)
    · split
      · exact raised_chosen csr _ _ _ (raised_nv csr) (raised_none csr)
      · split
        · exact raised_none csr
        · split
          · exact raised_none csr
          · exact raised_none csr

theorem fpCompare_raised (csr : Csr) (funct3 : BitVec 3) (a b : Word) :
    Raised csr (fpCompare csr funct3 a b).2 := by
  simp only [fpCompare]
  split
  · split
    · exact raised_chosen csr _ _ _ (raised_nv csr) (raised_none csr)
    · exact raised_nv csr
  · split
    · exact raised_none csr
    · split
      · exact raised_none csr
      · exact raised_none csr

theorem fpRoundToInt_raised (host : HostFloat) (csr : Csr) (rm a : Word) :
    Raised csr (fpRoundToInt host csr rm a).2 := by
  simp only [fpRoundToInt]
  apply raised_chosen
  · exact raised_host csr _
  · exact raised_trans _ _ _ (raised_host csr _) (raised_flags _ fpNx (by decide))

theorem fpFloatToInt_raised (host : HostFloat) (csr : Csr) (rm a : Word) (isUnsigned : Bool) :
    Raised csr (fpFloatToInt host csr rm a isUnsigned).2 := by
  simp only [fpFloatToInt]
  split
  · exact raised_nv csr
  · split
    · split
      · split
        · exact raised_nv csr
        · exact raised_none csr
      · split
        · exact raised_nv csr
        · exact fpRoundToInt_raised host csr rm a
    · split
      · exact raised_nv csr
      · split
        · exact raised_nv csr
        · exact fpRoundToInt_raised host csr rm a

/-- A result goes to one register file and keeps the pc and `x0`. -/
theorem toFreg_frame (rf : Regfile) (csr : Csr) (rd : Reg) (computed : Word × Csr)
    (raised : Raised csr computed.2) (result : Regfile × Csr)
    (done : toFreg rf rd computed = some result) :
    result.1.pc = rf.pc ∧ result.1.regs 0 = rf.regs 0 ∧ Raised csr result.2 := by
  cases done
  exact ⟨rfl, rfl, raised⟩

theorem toReg_frame (rf : Regfile) (csr : Csr) (rd : Reg) (computed : Word × Csr)
    (raised : Raised csr computed.2) (result : Regfile × Csr)
    (done : toReg rf rd computed = some result) :
    result.1.pc = rf.pc ∧ result.1.regs 0 = rf.regs 0 ∧ Raised csr result.2 := by
  cases done
  exact ⟨regWrite_pc _ _ _, regWrite_zero _ _ _, raised⟩

/-- A floating-point instruction changes the registers and the exception flags. -/
theorem fpuExecute_frame (host : HostFloat) (rf : Regfile) (csr : Csr) (inst : DecodedInst)
    (result : Regfile × Csr) (done : fpuExecute host rf csr inst = some result) :
    result.1.pc = rf.pc ∧ result.1.regs 0 = rf.regs 0 ∧ Raised csr result.2 := by
  simp only [fpuExecute] at done
  split at done
  · exact toFreg_frame rf csr _ _ (raised_host csr _) result done
  · exact toFreg_frame rf csr _ _ (raised_host csr _) result done
  · exact toFreg_frame rf csr _ _ (raised_host csr _) result done
  · exact toFreg_frame rf csr _ _ (raised_host csr _) result done
  · split at done
    · cases done
    · exact toFreg_frame rf csr _ _ (raised_host csr _) result done
  · split at done
    · exact toFreg_frame rf csr _ _ (raised_none csr) result done
    · split at done
      · exact toFreg_frame rf csr _ _ (raised_none csr) result done
      · split at done
        · exact toFreg_frame rf csr _ _ (raised_none csr) result done
        · cases done
  · split at done
    · cases done
    · exact toFreg_frame rf csr _ _ (fpMinmax_raised csr _ _ _) result done
  · split at done
    · cases done
    · exact toReg_frame rf csr _ _ (fpCompare_raised csr _ _ _) result done
  · split at done
    · cases done
    · exact toReg_frame rf csr _ _ (fpFloatToInt_raised host csr _ _ _) result done
  · split at done
    · cases done
    · exact toFreg_frame rf csr _ _ (raised_host csr _) result done
  · split at done
    · cases done
    · split at done
      · exact toReg_frame rf csr _ _ (raised_none csr) result done
      · split at done
        · exact toReg_frame rf csr _ _ (raised_none csr) result done
        · cases done
  · split at done
    · cases done
    · exact toFreg_frame rf csr _ _ (raised_none csr) result done
  · cases done

end RvEmu
