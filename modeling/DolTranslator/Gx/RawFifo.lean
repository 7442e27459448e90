import DolTranslator.Gx.Pieces

/-!
# The raw FIFO parser

The gather pipe's writes of one, two or four bytes.  Whole commands are parsed out of a ring of
bytes; the vertices of a draw that is not all direct are parsed out of the same ring as they come.

* `VtxState`, `ApplyCpRegWrite`   the layout of a vertex, and the CP registers that set it;
* `Applied`   what the parser applies: registers, lists, draws, attributes;
* `RawFifo`, `HleFifoWrite`   the ring with its two modes; `commandLoop`, `vertexLoop`.
-/

namespace DolTranslator.Gx.Hle

open Function Streams

/-! ## vertex layout -/

structure VtxAttrFmt where
  cnt : Nat
  type : Nat
  frac : Nat

inductive GXAttrType where
  | none | direct | index8 | index16
  deriving DecidableEq

def GXAttrType.ofBits (n : Nat) : GXAttrType :=
  [GXAttrType.none, .direct, .index8, .index16].getD n .none

/-- attributes are numbered as GXAttr -/
structure VtxState where
  vtxDesc : Nat → GXAttrType
  vtxAttrFmt : Nat → Nat → VtxAttrFmt

def IsMatrixIndexAttr (attr : Nat) : Bool := attr ≤ 8

def NormalFracBits (type : Nat) : Nat := [7, 6, 15, 14].getD type 0

def NormalIndexCount (fmt : VtxAttrFmt) : Nat := if fmt.cnt = 2 then 3 else 1

/-- an attribute without a component layout counts as one component -/
def GetExpectedCompCount (attr : Nat) (fmt : VtxAttrFmt) : Nat :=
  if attr = 9 then if fmt.cnt = 0 then 2 else 3
  else if attr = 10 then if fmt.cnt = 1 ∨ fmt.cnt = 2 then 9 else 3
  else if attr = 11 ∨ attr = 12 then if fmt.cnt = 0 then 3 else 4
  else if 13 ≤ attr ∧ attr ≤ 20 then if fmt.cnt = 0 then 1 else 2
  else 1

def ColorByteSize (type cnt : Nat) : Nat :=
  [2, 3, 4, 2, 3, 4].getD type (if cnt = 0 then 3 else 4)

def GetCompSizeBytes (type : Nat) : Nat := [1, 1, 2, 2, 4].getD type 1

def DirectAttrByteSize (attr : Nat) (fmt : VtxAttrFmt) : Nat :=
  if IsMatrixIndexAttr attr then 1
  else if attr = 11 ∨ attr = 12 then ColorByteSize fmt.type fmt.cnt
  else GetExpectedCompCount attr fmt * GetCompSizeBytes fmt.type

namespace VtxState

def enabled (s : VtxState) : List Nat := (List.range 26).filter fun attr => s.vtxDesc attr ≠ .none

def NextEnabledAttr (s : VtxState) (first : Nat) : Option Nat :=
  s.enabled.find? fun attr => first ≤ attr

def VcdLo (s : VtxState) (value : BitVec 32) : VtxState :=
  { s with vtxDesc := fun attr =>
      if attr ≤ 8 then .ofBits (bits value 1 attr)
      else if attr ≤ 12 then .ofBits (bits value 2 (9 + 2 * (attr - 9)))
      else if attr = 25 then .none
      else s.vtxDesc attr }

def VcdHi (s : VtxState) (value : BitVec 32) : VtxState :=
  { s with vtxDesc := fun attr =>
      if 13 ≤ attr ∧ attr ≤ 20 then .ofBits (bits value 2 (2 * (attr - 13))) else s.vtxDesc attr }

def setFmt (s : VtxState) (fmt : Nat) (attrs : Nat → VtxAttrFmt) : VtxState :=
  { s with vtxAttrFmt := update s.vtxAttrFmt fmt attrs }

def VatA (s : VtxState) (fmt : Nat) (value : BitVec 32) : VtxState :=
  s.setFmt fmt fun attr =>
    if attr = 9 then ⟨bits value 1 0, bits value 3 1, bits value 5 4⟩
    else if attr = 10 then
      ⟨if bits value 1 31 = 1 then 2 else bits value 1 9, bits value 3 10,
        NormalFracBits (bits value 3 10)⟩
    else if attr = 11 then ⟨bits value 1 13, bits value 3 14, 0⟩
    else if attr = 12 then ⟨bits value 1 17, bits value 3 18, 0⟩
    else if attr = 13 then ⟨bits value 1 21, bits value 3 22, bits value 5 25⟩
    else s.vtxAttrFmt fmt attr

def VatB (s : VtxState) (fmt : Nat) (value : BitVec 32) : VtxState :=
  s.setFmt fmt fun attr =>
    if 14 ≤ attr ∧ attr ≤ 17 then
      let shift := (attr - 14) * 9
      ⟨bits value 1 shift, bits value 3 (shift + 1),
        -- the fraction of the last one is in the next register
        if attr = 17 then (s.vtxAttrFmt fmt attr).frac else bits value 5 (shift + 4)⟩
    else s.vtxAttrFmt fmt attr

def VatC (s : VtxState) (fmt : Nat) (value : BitVec 32) : VtxState :=
  s.setFmt fmt fun attr =>
    if attr = 17 then { s.vtxAttrFmt fmt attr with frac := bits value 5 0 }
    else if 18 ≤ attr ∧ attr ≤ 20 then
      let shift := 5 + (attr - 18) * 9
      ⟨bits value 1 shift, bits value 3 (shift + 1), bits value 5 (shift + 4)⟩
    else s.vtxAttrFmt fmt attr

/-- the registers of arrays change nothing that the parser reads -/
def ApplyCpRegWrite (s : VtxState) (reg : Nat) (value : BitVec 32) : VtxState :=
  if reg = 0x50 then s.VcdLo value
  else if reg = 0x60 then s.VcdHi value
  else if 0x70 ≤ reg ∧ reg ≤ 0x77 then s.VatA (reg - 0x70) value
  else if 0x80 ≤ reg ∧ reg ≤ 0x87 then s.VatB (reg - 0x80) value
  else if 0x90 ≤ reg ∧ reg ≤ 0x97 then s.VatC (reg - 0x90) value
  else s

/-- the bytes of a vertex, when it is all direct and not empty -/
def TryGetRawDirectFifoVertexSize (s : VtxState) (fmt : Nat) : Option Nat :=
  let sizes := s.enabled.map fun attr => DirectAttrByteSize attr (s.vtxAttrFmt fmt attr)
  if (∃ attr ∈ s.enabled, s.vtxDesc attr ≠ .direct) ∨ 0 ∈ sizes ∨ sizes.sum = 0 then none
  else some sizes.sum

end VtxState

/-! ## what is applied -/

inductive Applied where
  | bp (word : BitVec 32)
  | cp (reg : Nat) (value : BitVec 32)
  | xf (packet : List Byte)
  | indexedXf (cmd : Byte) (value : BitVec 32)
  | callList (address size : BitVec 32)
  /-- a direct draw, whole -/
  | rawDraw (prim fmt count : Nat) (body : List Byte)
  | begin_ (prim fmt count : Nat)
  /-- an attribute of a vertex: its values, of so many bytes each -/
  | attr (attr unit : Nat) (raws : List (BitVec 32))
  | end_
  deriving DecidableEq

structure GxState where
  vtx : VtxState
  /-- oldest first -/
  applied : List Applied

/-- what the rest of the GX does: a list may set the vertex layout, and a draw that is whole may be
refused -/
structure Platform where
  callList : List Applied → VtxState → BitVec 32 → BitVec 32 → VtxState
  submitRaw : List Applied → Nat → Nat → Nat → List Byte → Bool

namespace GxState

def apply (gx : GxState) (a : Applied) : GxState := { gx with applied := gx.applied ++ [a] }

def loadCp (gx : GxState) (reg : Nat) (value : BitVec 32) : GxState :=
  { gx.apply (.cp reg value) with vtx := gx.vtx.ApplyCpRegWrite reg value }

def callList (pf : Platform) (gx : GxState) (address size : BitVec 32) : GxState :=
  if address ≠ 0 ∧ size ≠ 0 then
    { gx.apply (.callList address size) with vtx := pf.callList gx.applied gx.vtx address size }
  else gx

end GxState

/-! ## commands -/

/-- a command byte without its vertex format -/
def opcode (cmd : Byte) : Nat := cmd.toNat / 8 * 8

def IsDrawOpcode (cmd : Byte) : Bool := 0x80 ≤ opcode cmd ∧ opcode cmd ≤ 0xB8

def OpcodeToGXPrimitive (cmd : Byte) : Nat := if opcode cmd = 0x88 then 0x80 else opcode cmd

def isLoad (cmd : Byte) : Bool :=
  cmd = 0x00 ∨ opcode cmd = 0x48 ∨ cmd = 0x61 ∨ opcode cmd = 0x08 ∨ opcode cmd = 0x10 ∨
    (0x20 ≤ opcode cmd ∧ opcode cmd ≤ 0x38) ∨ opcode cmd = 0x40

def loadXf (cmd : Byte) (gx : GxState) (data : List Byte) : GxState × Option (List Byte) :=
  if data.length < 4 then (gx, none)
  else
    let packetBytes := 4 + (be16 data + 1) * 4
    if data.length < packetBytes then (gx, none)
    else (gx.apply (.xf (cmd :: data.take packetBytes)), some (data.drop packetBytes))

/-- every command but draws, after its first byte; none when it is not all there -/
def load (pf : Platform) (cmd : Byte) (gx : GxState) (data : List Byte) :
    GxState × Option (List Byte) :=
  if cmd = 0x00 ∨ opcode cmd = 0x48 then (gx, some data)
  else if cmd = 0x61 then
    if data.length < 4 then (gx, none) else (gx.apply (.bp (be32 data)), some (data.drop 4))
  else if opcode cmd = 0x08 then
    if data.length < 5 then (gx, none)
    else (gx.loadCp (data.getD 0 0).toNat (be32 (data.drop 1)), some (data.drop 5))
  else if opcode cmd = 0x10 then loadXf cmd gx data
  else if 0x20 ≤ opcode cmd ∧ opcode cmd ≤ 0x38 then
    if data.length < 4 then (gx, none)
    else (gx.apply (.indexedXf cmd (be32 data)), some (data.drop 4))
  else
    if data.length < 8 then (gx, none)
    else (gx.callList pf (be32 data) (be32 (data.drop 4)), some (data.drop 8))

/-! ## the ring -/

structure RawFifo where
  gx : GxState
  /-- what the ring holds, from its read offset on -/
  bytes : List Byte
  inBegin : Bool
  auroraBeginCalled : Bool
  currentVtxFmt : Nat
  currentPrim : Nat
  vertsRemaining : Nat
  /-- none after the last -/
  currentAttr : Option Nat
  /-- the components of the current attribute so far -/
  rawCompBuffer : List (BitVec 32)

def kFifoBytes : Nat := 4096

def beWord (data : List Byte) : BitVec 32 :=
  data.foldl (fun value byte => value <<< 8 ||| byte.setWidth 32) 0

/-- values of so many bytes each -/
def beWords (unit : Nat) : Nat → List Byte → List (BitVec 32)
  | 0, _ => []
  | n + 1, data => beWord (data.take unit) :: beWords unit n (data.drop unit)

namespace RawFifo

/-- before the first write -/
def start (vtx : VtxState) : RawFifo where
  gx := ⟨vtx, []⟩
  bytes := []
  inBegin := false
  auroraBeginCalled := false
  currentVtxFmt := 0
  currentPrim := 0x90
  vertsRemaining := 0
  currentAttr := none
  rawCompBuffer := []

def pushBytes (s : RawFifo) (value : List Byte) : RawFifo :=
  if s.bytes.length + value.length > kFifoBytes then { s with bytes := value }
  else { s with bytes := s.bytes ++ value }

def ResetVertex (s : RawFifo) : RawFifo :=
  { s with currentAttr := s.gx.vtx.NextEnabledAttr 0, rawCompBuffer := [] }

/-- a draw whose vertices come one by one -/
def enterBegin (s : RawFifo) (prim fmt count : Nat) : RawFifo :=
  { s with
    currentVtxFmt := fmt
    currentPrim := prim
    vertsRemaining := count
    inBegin := true
    auroraBeginCalled := false }.ResetVertex

/-- a draw that is whole, unless it is refused -/
def TrySubmitRawDirectFifoDraw (pf : Platform) (s : RawFifo) (prim fmt count : Nat)
    (body : List Byte) : Option RawFifo :=
  if count ≠ 0 ∧ pf.submitRaw s.gx.applied prim fmt count body then
    some { s with
      gx := s.gx.apply (.rawDraw prim fmt count body)
      currentVtxFmt := fmt
      currentPrim := prim
      vertsRemaining := count
      inBegin := false
      auroraBeginCalled := false }.ResetVertex
  else none

/-- a draw at the front of the ring, after its first byte: to be waited for, done, or begun -/
def drawCommand (pf : Platform) (s : RawFifo) (cmd : Byte) (data : List Byte) : Option RawFifo :=
  if data.length < 2 then none
  else
    let count := be16 data
    let fmt := cmd.toNat % 8
    let prim := OpcodeToGXPrimitive cmd
    let body := data.drop 2
    let begun := { s with bytes := body }.enterBegin prim fmt count
    match s.gx.vtx.TryGetRawDirectFifoVertexSize fmt with
    | some size =>
      if body.length < count * size then none
      else
        match s.TrySubmitRawDirectFifoDraw pf prim fmt count (body.take (count * size)) with
        | some s => some { s with bytes := body.drop (count * size) }
        | none => some begun
    | none => some begun

/-- the loop over whole commands -/
def commandLoop (pf : Platform) : Nat → RawFifo → RawFifo
  | 0, s => s
  | fuel + 1, s =>
    if s.inBegin then s
    else
      match s.bytes with
      | [] => s
      | cmd :: data =>
        if isLoad cmd then
          match load pf cmd s.gx data with
          | (_, none) => s
          | (gx, some rest) => commandLoop pf fuel { s with gx := gx, bytes := rest }
        else if IsDrawOpcode cmd then
          match s.drawCommand pf cmd data with
          | none => s
          | some s => commandLoop pf fuel s
        -- an unknown byte is dropped, so that the parser can recover
        else commandLoop pf fuel { s with bytes := data }

/-- after an attribute: the next one, the next vertex, or the end of the draw -/
def finishVertexIfNeeded (s : RawFifo) (attr : Nat) : RawFifo :=
  let s := { s with currentAttr := s.gx.vtx.NextEnabledAttr (attr + 1), rawCompBuffer := [] }
  match s.currentAttr with
  | some _ => s
  | none =>
    let s := s.ResetVertex
    if s.vertsRemaining > 0 then
      let s := { s with vertsRemaining := s.vertsRemaining - 1 }
      if s.vertsRemaining = 0 then
        { s with inBegin := false, auroraBeginCalled := false, gx := s.gx.apply .end_ }
      else s
    else s

def takeAttr (s : RawFifo) (attr unit : Nat) (raws : List (BitVec 32)) (size : Nat) : RawFifo :=
  { s with
    gx := s.gx.apply (.attr attr unit raws)
    bytes := s.bytes.drop size }.finishVertexIfNeeded attr

/-- the loop over attributes and components -/
def vertexLoop : Nat → RawFifo → RawFifo
  | 0, s => s
  | fuel + 1, s =>
    if s.inBegin then
      match s.currentAttr with
      | none => { s with bytes := [] }
      | some attr =>
        let inputType := s.gx.vtx.vtxDesc attr
        let fmt := s.gx.vtx.vtxAttrFmt s.currentVtxFmt attr
        if IsMatrixIndexAttr attr then
          if s.bytes.length < 1 then s
          else vertexLoop fuel (s.takeAttr attr 1 (beWords 1 1 s.bytes) 1)
        else if inputType = .direct then
          if attr = 11 ∨ attr = 12 then
            let colorSize := ColorByteSize fmt.type fmt.cnt
            if s.bytes.length < colorSize then s
            else vertexLoop fuel (s.takeAttr attr 1 (beWords 1 colorSize s.bytes) colorSize)
          else
            let compSize := GetCompSizeBytes fmt.type
            if s.bytes.length < compSize then s
            else
              let comps := s.rawCompBuffer ++ [beWord (s.bytes.take compSize)]
              if comps.length ≥ GetExpectedCompCount attr fmt then
                vertexLoop fuel (s.takeAttr attr compSize comps compSize)
              else
                vertexLoop fuel { s with bytes := s.bytes.drop compSize, rawCompBuffer := comps }
        else if inputType = .index8 ∨ inputType = .index16 then
          let idxSize := if inputType = .index8 then 1 else 2
          let indexCount := if attr = 10 then NormalIndexCount fmt else 1
          if s.bytes.length < idxSize * indexCount then s
          else
            vertexLoop fuel (s.takeAttr attr idxSize (beWords idxSize indexCount s.bytes)
              (idxSize * indexCount))
        else
          let s := { s with currentAttr := s.gx.vtx.NextEnabledAttr (attr + 1), rawCompBuffer := [] }
          if s.currentAttr = none then s.ResetVertex else s
    else s

def callBegin (s : RawFifo) : RawFifo :=
  if s.auroraBeginCalled then s
  else
    { s with
      gx := s.gx.apply (.begin_ s.currentPrim s.currentVtxFmt s.vertsRemaining)
      auroraBeginCalled := true }

def HleFifoWrite (pf : Platform) (s : RawFifo) (value : List Byte) : RawFifo :=
  let s := s.pushBytes value
  let s := s.commandLoop pf (s.bytes.length + 1)
  if s.inBegin then
    let s := s.callBegin
    s.vertexLoop (s.bytes.length + 1)
  else s

end RawFifo

end DolTranslator.Gx.Hle
