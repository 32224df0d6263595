import RvEmu.Machine

/-!
# Address translation

`mmu_translate` passes addresses through in machine mode and in bare mode, and
otherwise walks the two-level Sv32 tables in physical memory. A permitted
translation turns the accessed bit on in the leaf entry, and the dirty bit for a
store. Every refusal returns the page-fault code of the access.
-/

namespace RvEmu

/-- Bits of a page-table entry. -/
def pteV : Word := 1#32 <<< 0
def pteR : Word := 1#32 <<< 1
def pteW : Word := 1#32 <<< 2
def pteX : Word := 1#32 <<< 3
def pteU : Word := 1#32 <<< 4
def pteA : Word := 1#32 <<< 6
def pteD : Word := 1#32 <<< 7

/-- `PTE_PA`: the page address, computed in 32 bits. -/
def ptePa (pte : Word) : Word := (pte >>> 10) <<< 12

/-- `access_t`. -/
inductive Access where
  | fetch
  | load
  | store
deriving DecidableEq

/-- `mmu_read_pte`. -/
def mmuReadPte (emu : Emulator) (pteAddr : Word) : Option Word :=
  memoryRead32 emu.mem pteAddr

/-- `fault_cause`: the page-fault code of an access. -/
def faultCause : Access → Word
  | .fetch => excInstPageFault
  | .store => excStorePageFault
  | .load => excLoadPageFault

/-- `pte_allows`: whether a leaf entry permits the access. -/
def pteAllows (emu : Emulator) (pte : Word) (acc : Access) : Bool :=
  if pte &&& (pteR ||| pteX) = 0 then false
  else if pte &&& pteW ≠ 0 ∧ pte &&& pteR = 0 then false
  else if emu.priv = privU ∧ pte &&& pteU = 0 then false
  else if emu.priv = privS ∧ pte &&& pteU ≠ 0 ∧
      (acc = .fetch ∨ emu.csr.mstatus &&& mstatusSum = 0) then false
  else
    match acc with
    | .fetch => pte &&& pteX ≠ 0
    | .load => pte &&& pteR ≠ 0
    | .store => pte &&& pteR ≠ 0 ∧ pte &&& pteW ≠ 0

/-- The entry `pte_update_ad` stores back. -/
def pteTouched (pte : Word) (acc : Access) : Word :=
  let newPte := pte ||| pteA
  if acc = .store then newPte ||| pteD else newPte

/-- `pte_update_ad`: store the entry only when a bit is missing. -/
def pteUpdateAd (emu : Emulator) (pteAddr pte : Word) (acc : Access) : Emulator :=
  if pteTouched pte acc ≠ pte then
    { emu with mem := (memoryWrite32 emu.mem pteAddr (pteTouched pte acc)).2 }
  else emu

/-- `mmu_translate`: the physical address or the fault code, and the state. -/
def mmuTranslate (emu : Emulator) (va : Word) (acc : Access) : Except Word Word × Emulator :=
  let satp := emu.csr.satp
  if emu.priv = privM ∨ satp &&& satpModeBit = 0 then (.ok va, emu)
  else
    let vpn1 := (va >>> 22) &&& 0x3FF
    let vpn0 := (va >>> 12) &&& 0x3FF
    let table := (satp &&& satpPpnMask) <<< 12
    let pteAddr := table + vpn1 * 4
    match mmuReadPte emu pteAddr with
    | none => (.error (faultCause acc), emu)
    | some pte =>
      if pte &&& pteV = 0 then (.error (faultCause acc), emu)
      else if pte &&& (pteR ||| pteX) ≠ 0 then
        -- A leaf of the first level is a 4 MB page and must be aligned to one.
        if (pte >>> 10) &&& 0x3FF ≠ 0 then (.error (faultCause acc), emu)
        else if !pteAllows emu pte acc then (.error (faultCause acc), emu)
        else
          (.ok (ptePa (pte &&& ~~~(0x3FF : Word)) ||| (va &&& 0x3FFFFF)),
            pteUpdateAd emu pteAddr pte acc)
      else
        let table := ptePa pte
        let pteAddr := table + vpn0 * 4
        match mmuReadPte emu pteAddr with
        | none => (.error (faultCause acc), emu)
        | some pte =>
          if pte &&& pteV = 0 then (.error (faultCause acc), emu)
          else if pte &&& (pteR ||| pteX) = 0 then (.error (faultCause acc), emu)
          else if !pteAllows emu pte acc then (.error (faultCause acc), emu)
          else (.ok (ptePa pte ||| (va &&& 0xFFF)), pteUpdateAd emu pteAddr pte acc)

end RvEmu
