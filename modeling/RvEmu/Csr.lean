import RvEmu.Memory

/-!
# Control and status registers

The register file `csr_t`, its constants, and the two functions that address it
by CSR number. `csr_read` and `csr_write` switch on the same list of numbers;
the list is stated once, and a number outside it makes both report failure.

Most registers are stored as written. The exceptions are in the write switch:
vectors and saved addresses lose their two low bits, delegation keeps sixteen
bits, the pending registers can only be cleared, and `sstatus` is a masked view
of `mstatus`.
-/

namespace RvEmu

/-- Bits of `satp`. -/
def satpModeBit : Word := 1#32 <<< 31
def satpPpnMask : Word := 0x003FFFFF#32

/-- The simplified CLINT: the low halves of the timer registers. -/
def clintMtimecmpLo : Word := 0x02004000#32
def clintMtimeLo : Word := 0x0200BFF8#32

/-- Bits of `mstatus`. -/
def mstatusSie : Word := 1#32 <<< 1
def mstatusMie : Word := 1#32 <<< 3
def mstatusSpie : Word := 1#32 <<< 5
def mstatusMpie : Word := 1#32 <<< 7
def mstatusSpp : Word := 1#32 <<< 8
def mstatusMppMask : Word := 3#32 <<< 11
def mstatusMppU : Word := 0#32 <<< 11
def mstatusSum : Word := 1#32 <<< 18

/-- `sstatus` is a restricted view of `mstatus`. -/
def sstatusMask : Word := mstatusSie ||| mstatusSpie ||| mstatusSpp ||| mstatusSum

/-- Privilege levels; encoding 2 names no level. -/
def privU : Word := 0
def privS : Word := 1
def privM : Word := 3

def mieMtie : Word := 1#32 <<< 7
def mipMtip : Word := 1#32 <<< 7

/-- The top bit of a cause tells interrupts from exceptions. -/
def mcauseIrqBit : Word := 0x80000000#32
def mcauseIrqTimer : Word := mcauseIrqBit ||| 7

/-- Exception codes. -/
def excInstMisaligned : Word := 0
def excInstAccess : Word := 1
def excIllegalInst : Word := 2
def excBreakpoint : Word := 3
def excLoadMisaligned : Word := 4
def excLoadAccess : Word := 5
def excStoreMisaligned : Word := 6
def excStoreAccess : Word := 7
def excEcallU : Word := 8
def excEcallS : Word := 9
def excEcallM : Word := 11
def excInstPageFault : Word := 12
def excLoadPageFault : Word := 13
def excStorePageFault : Word := 15

/-- `csr_t`. -/
structure Csr where
  mstatus : Word
  satp : Word
  fflags : Word
  frm : Word
  stvec : Word
  sepc : Word
  scause : Word
  stval : Word
  sscratch : Word
  sie : Word
  sip : Word
  medeleg : Word
  mideleg : Word
  mtvec : Word
  mepc : Word
  mcause : Word
  mtval : Word
  mscratch : Word
  mie : Word
  mip : Word
  mcycle : DWord
deriving DecidableEq

/-- `csr_init`: all registers zero. -/
def csrInit : Csr where
  mstatus := 0
  satp := 0
  fflags := 0
  frm := 0
  stvec := 0
  sepc := 0
  scause := 0
  stval := 0
  sscratch := 0
  sie := 0
  sip := 0
  medeleg := 0
  mideleg := 0
  mtvec := 0
  mepc := 0
  mcause := 0
  mtval := 0
  mscratch := 0
  mie := 0
  mip := 0
  mcycle := 0

/-- The CSRs that both switches know. -/
inductive CsrName where
  | fflags | frm | fcsr
  | sstatus | sie | stvec | sscratch | sepc | scause | stval | sip | satp
  | mstatus | medeleg | mideleg | mie | mtvec | mscratch | mepc | mcause | mtval | mip
  | mcycle
deriving DecidableEq

/-- The `CSR_*` number of each register. -/
def CsrName.number : CsrName → Word
  | .fflags => 0x001
  | .frm => 0x002
  | .fcsr => 0x003
  | .sstatus => 0x100
  | .sie => 0x104
  | .stvec => 0x105
  | .sscratch => 0x140
  | .sepc => 0x141
  | .scause => 0x142
  | .stval => 0x143
  | .sip => 0x144
  | .satp => 0x180
  | .mstatus => 0x300
  | .medeleg => 0x302
  | .mideleg => 0x303
  | .mie => 0x304
  | .mtvec => 0x305
  | .mscratch => 0x340
  | .mepc => 0x341
  | .mcause => 0x342
  | .mtval => 0x343
  | .mip => 0x344
  | .mcycle => 0xB00

/-- Every name, in the order of the read switch. -/
def CsrName.all : List CsrName :=
  [.fflags, .frm, .fcsr, .mstatus, .sstatus, .satp, .sie, .stvec, .sscratch, .sepc, .scause,
    .stval, .sip, .medeleg, .mideleg, .mie, .mtvec, .mscratch, .mepc, .mcause, .mtval, .mip,
    .mcycle]

/-- The case a `switch (addr)` selects; `none` is its `default`. -/
def csrNamed (addr : Word) : Option CsrName :=
  CsrName.all.find? (fun name => name.number = addr)

/-- The value each case of `csr_read` returns. -/
def csrValue (csr : Csr) : CsrName → Word
  | .fflags => csr.fflags &&& 0x1F
  | .frm => csr.frm &&& 0x7
  | .fcsr => ((csr.frm &&& 0x7) <<< 5) ||| (csr.fflags &&& 0x1F)
  | .mstatus => csr.mstatus
  | .sstatus => csr.mstatus &&& sstatusMask
  | .satp => csr.satp
  | .sie => csr.sie
  | .stvec => csr.stvec
  | .sscratch => csr.sscratch
  | .sepc => csr.sepc
  | .scause => csr.scause
  | .stval => csr.stval
  | .sip => csr.sip
  | .medeleg => csr.medeleg
  | .mideleg => csr.mideleg
  | .mie => csr.mie
  | .mtvec => csr.mtvec
  | .mscratch => csr.mscratch
  | .mepc => csr.mepc
  | .mcause => csr.mcause
  | .mtval => csr.mtval
  | .mip => csr.mip
  | .mcycle => csr.mcycle.setWidth 32

/-- `csr_read`; `none` is `*ok = false`. -/
def csrRead (csr : Csr) (addr : Word) : Option Word :=
  (csrNamed addr).map (csrValue csr)

/-- What each case of `csr_write` stores. -/
def csrStored (csr : Csr) (val : Word) : CsrName → Csr
  | .fflags => { csr with fflags := val &&& 0x1F }
  | .frm => { csr with frm := val &&& 0x7 }
  | .fcsr => { csr with frm := (val >>> 5) &&& 0x7, fflags := val &&& 0x1F }
  | .mstatus => { csr with mstatus := val }
  | .sstatus =>
    { csr with mstatus := (csr.mstatus &&& ~~~sstatusMask) ||| (val &&& sstatusMask) }
  | .sie => { csr with sie := val }
  | .stvec => { csr with stvec := val &&& ~~~(0x3 : Word) }
  | .sscratch => { csr with sscratch := val }
  | .sepc => { csr with sepc := val &&& ~~~(0x3 : Word) }
  | .scause => { csr with scause := val }
  | .stval => { csr with stval := val }
  | .sip => { csr with sip := csr.sip &&& val }
  | .medeleg => { csr with medeleg := val &&& 0xFFFF }
  | .mideleg => { csr with mideleg := val &&& 0xFFFF }
  | .satp =>
    { csr with
      satp := if val &&& satpModeBit = 0 then 0
        else val &&& (satpModeBit ||| (0x1FF#32 <<< 22) ||| satpPpnMask) }
  | .mie => { csr with mie := val }
  | .mtvec => { csr with mtvec := val &&& ~~~(0x3 : Word) }
  | .mscratch => { csr with mscratch := val }
  | .mepc => { csr with mepc := val &&& ~~~(0x3 : Word) }
  | .mcause => { csr with mcause := val }
  | .mtval => { csr with mtval := val }
  | .mip => { csr with mip := csr.mip &&& val }
  | .mcycle =>
    { csr with mcycle := (csr.mcycle &&& 0xFFFFFFFF00000000#64) ||| val.setWidth 64 }

/-- `csr_write`; the flag is `*ok`. -/
def csrWrite (csr : Csr) (addr val : Word) : Bool × Csr :=
  match csrNamed addr with
  | some name => (true, csrStored csr val name)
  | none => (false, csr)

/-- Bits [9:8] of the number are the least privilege; the unimplemented 2 counts
as machine mode. -/
def csrPrivOk (priv addr : Word) : Bool :=
  let need := (addr >>> 8) &&& 0x3
  let need := if need = 2 then 3 else need
  priv ≥ need

/-- Bits [11:10] equal to 11 mark a read-only register. -/
def csrWritable (addr : Word) : Bool :=
  (addr >>> 10) &&& 0x3 ≠ 0x3

/-- A name found for a number is the register of that number. -/
theorem csrNamed_number (addr : Word) (name : CsrName) (found : csrNamed addr = some name) :
    name.number = addr := by
  have matched := List.find?_some found
  simpa using matched

/-- User mode passes the privilege test only for the floating-point registers. -/
theorem user_csrs (name : CsrName) (allowed : csrPrivOk privU name.number = true) :
    name = .fflags ∨ name = .frm ∨ name = .fcsr := by
  revert allowed
  cases name <;> decide

/-- Supervisor mode passes it only for those and the supervisor registers. -/
theorem supervisor_csrs (name : CsrName) (allowed : csrPrivOk privS name.number = true) :
    name ∈ [.fflags, .frm, .fcsr, .sstatus, .sie, .stvec, .sscratch, .sepc, .scause, .stval,
      .sip, CsrName.satp] := by
  revert allowed
  cases name <;> decide

end RvEmu
