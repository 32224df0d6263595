import RvEmu.Decode

/-!
# Expansion of compressed instructions

A 16-bit instruction is not executed directly: `expand_compressed` rewrites it
as the equivalent 32-bit word, or rejects it. The cases follow the quadrant and
the top three bits, as the source does. Register fields are kept as words; the
encoders mask them.
-/

namespace RvEmu

/-- Field macros of the 16-bit formats. -/
def cF3 (c : Word) : Word := (c >>> 13) &&& 7
def cRd (c : Word) : Word := (c >>> 7) &&& 0x1F
def cRs2 (c : Word) : Word := (c >>> 2) &&& 0x1F
def cRs1p (c : Word) : Word := 8 + ((c >>> 7) &&& 7)
def cRdp (c : Word) : Word := 8 + ((c >>> 2) &&& 7)
def cRs2p (c : Word) : Word := 8 + ((c >>> 2) &&& 7)

def cImm6 (c : Word) : Word := (((c >>> 12) &&& 1) <<< 5) ||| ((c >>> 2) &&& 0x1F)

def cUimmAddi4spn (c : Word) : Word :=
  (((c >>> 11) &&& 3) <<< 4) ||| (((c >>> 7) &&& 0xF) <<< 6) ||| (((c >>> 6) &&& 1) <<< 2) |||
    (((c >>> 5) &&& 1) <<< 3)

def cUimmLw (c : Word) : Word :=
  (((c >>> 10) &&& 7) <<< 3) ||| (((c >>> 6) &&& 1) <<< 2) ||| (((c >>> 5) &&& 1) <<< 6)

def cUimmLwsp (c : Word) : Word :=
  (((c >>> 12) &&& 1) <<< 5) ||| (((c >>> 4) &&& 7) <<< 2) ||| (((c >>> 2) &&& 3) <<< 6)

def cUimmSwsp (c : Word) : Word :=
  (((c >>> 9) &&& 0xF) <<< 2) ||| (((c >>> 7) &&& 3) <<< 6)

def cImmB (c : Word) : Word :=
  (((c >>> 12) &&& 1) <<< 8) ||| (((c >>> 10) &&& 3) <<< 3) ||| (((c >>> 5) &&& 3) <<< 6) |||
    (((c >>> 3) &&& 3) <<< 1) ||| (((c >>> 2) &&& 1) <<< 5)

def cImmJ (c : Word) : Word :=
  (((c >>> 12) &&& 1) <<< 11) ||| (((c >>> 11) &&& 1) <<< 4) ||| (((c >>> 9) &&& 3) <<< 8) |||
    (((c >>> 8) &&& 1) <<< 10) ||| (((c >>> 7) &&& 1) <<< 6) ||| (((c >>> 6) &&& 1) <<< 7) |||
    (((c >>> 3) &&& 7) <<< 1) ||| (((c >>> 2) &&& 1) <<< 5)

def cImmAddi16sp (c : Word) : Word :=
  (((c >>> 12) &&& 1) <<< 9) ||| (((c >>> 6) &&& 1) <<< 4) ||| (((c >>> 5) &&& 1) <<< 6) |||
    (((c >>> 3) &&& 3) <<< 7) ||| (((c >>> 2) &&& 1) <<< 5)

/-- Quadrant 0: stack-pointer addition and register-based loads and stores. The
floating-point forms are not implemented. -/
def expandQuadrant0 (c : Word) : Option Word :=
  if cF3 c = 0 then
    if cUimmAddi4spn c = 0 then none
    else some (encI (cUimmAddi4spn c) 2 0 (cRdp c) 0x13)
  else if cF3 c = 2 then some (encI (cUimmLw c) (cRs1p c) 2 (cRdp c) 0x03)
  else if cF3 c = 6 then some (encS (cUimmLw c) (cRs2p c) (cRs1p c) 2 0x23)
  else none

/-- The arithmetic group of quadrant 1, selected by bits [11:10]. The RV64
shifts and word operations are rejected. -/
def expandArith (c : Word) : Option Word :=
  let f2 := (c >>> 10) &&& 3
  if f2 = 0 ∨ f2 = 1 then
    let imm := (((c >>> 12) &&& 1) <<< 5) ||| ((c >>> 2) &&& 0x1F)
    if imm ≥ 32 then none
    else some (encI (imm ||| (if f2 = 1 then 0x400 else 0)) (cRs1p c) 5 (cRs1p c) 0x13)
  else if f2 = 2 then some (encI (sext (cImm6 c) 5) (cRs1p c) 7 (cRs1p c) 0x13)
  else if (c >>> 12) &&& 1 ≠ 0 then none
  else if (c >>> 5) &&& 3 = 0 then some (encR 0x20 (cRs2p c) (cRs1p c) 0 (cRs1p c) 0x33)
  else if (c >>> 5) &&& 3 = 1 then some (encR 0x00 (cRs2p c) (cRs1p c) 4 (cRs1p c) 0x33)
  else if (c >>> 5) &&& 3 = 2 then some (encR 0x00 (cRs2p c) (cRs1p c) 6 (cRs1p c) 0x33)
  else some (encR 0x00 (cRs2p c) (cRs1p c) 7 (cRs1p c) 0x33)

/-- Quadrant 1: immediates, jumps, branches and the arithmetic group. -/
def expandQuadrant1 (c : Word) : Option Word :=
  let rd := cRd c
  if cF3 c = 0 then some (encI (sext (cImm6 c) 5) rd 0 rd 0x13)
  else if cF3 c = 1 then some (encJ (sext (cImmJ c) 11) 1 0x6F)
  else if cF3 c = 2 then some (encI (sext (cImm6 c) 5) 0 0 rd 0x13)
  else if cF3 c = 3 then
    if rd = 2 then
      if cImmAddi16sp c = 0 then none
      else some (encI (sext (cImmAddi16sp c) 9) 2 0 2 0x13)
    else if rd = 0 then none
    else if cImm6 c = 0 then none
    else some (encU (sext (cImm6 c) 5 <<< 12) rd 0x37)
  else if cF3 c = 4 then expandArith c
  else if cF3 c = 5 then some (encJ (sext (cImmJ c) 11) 0 0x6F)
  else if cF3 c = 6 then some (encB (sext (cImmB c) 8) 0 (cRs1p c) 0 0x63)
  else some (encB (sext (cImmB c) 8) 0 (cRs1p c) 1 0x63)

/-- Quadrant 2: shifts, stack loads and stores, register jumps and moves. -/
def expandQuadrant2 (c : Word) : Option Word :=
  let rd := cRd c
  let rs2 := cRs2 c
  if cF3 c = 0 then
    let imm := (((c >>> 12) &&& 1) <<< 5) ||| ((c >>> 2) &&& 0x1F)
    if imm ≥ 32 then none else some (encI imm rd 1 rd 0x13)
  else if cF3 c = 2 then
    if rd = 0 then none else some (encI (cUimmLwsp c) 2 2 rd 0x03)
  else if cF3 c = 4 then
    if (c >>> 12) &&& 1 = 0 then
      if rs2 = 0 then
        if rd = 0 then none else some (encI 0 rd 0 0 0x67)
      else some (encR 0 rs2 0 0 rd 0x33)
    else if rs2 = 0 then
      if rd = 0 then some 0x00100073 else some (encI 0 rd 0 1 0x67)
    else some (encR 0 rs2 rd 0 rd 0x33)
  else if cF3 c = 6 then some (encS (cUimmSwsp c) rs2 2 2 0x23)
  else none

/-- `expand_compressed`; `none` is a reserved or unsupported encoding. -/
def expandCompressed (half : Half) : Option Word :=
  let c := half.setWidth 32
  let q := c &&& 3
  if q = 0 then expandQuadrant0 c
  else if q = 1 then expandQuadrant1 c
  else if q = 2 then expandQuadrant2 c
  else none

end RvEmu
