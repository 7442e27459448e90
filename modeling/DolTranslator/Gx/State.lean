import Mathlib.Data.BitVec
import Mathlib.Logic.Function.Basic

/-!
# Words and single-precision numbers

* `bits`   a field of a register;
* `single`   the single-precision number nearest to a fraction, as its 32 bits: a number that the
  program computes is a small integer over 255, 32 or 16, or an integer;
* `partialFloat`, `signed11`, `sext11`   the number formats of the fog and colour registers.
-/

namespace DolTranslator.Gx

/-- a number of the program, as its bits: sign, exponent, mantissa -/
abbrev Single := BitVec 32

abbrev Byte := BitVec 8

def bits (v : BitVec 32) (size shift : Nat) : Nat := (v.toNat >>> shift) % 2 ^ size

/-- the nearest integer to `n / d`, the even one of two -/
def divNearestEven (n d : Nat) : Nat :=
  let q := n / d
  if 2 * (n % d) < d then q
  else if 2 * (n % d) > d then q + 1
  else q + q % 2

/-- the least `e` from `e₀` on with `n < 2 ^ (e + 1) * d`, for `n` and `d` scaled by `2 ^ 64` -/
def exponentFrom : Nat → Nat → Nat → Nat → Nat
  | 0, e, _, _ => e
  | fuel + 1, e, n, d => if n < 2 ^ (e + 1) * d then e else exponentFrom fuel (e + 1) n d

/-- `n / d` in single precision, for quotients that are zero or not below `2⁻⁶⁴` -/
def single (n : Int) (d : Nat) : Single :=
  if n = 0 then 0
  else
    let magnitude := n.natAbs * 2 ^ 64
    -- the quotient lies between 2 ^ (e - 64) and twice that
    let e := exponentFrom 128 0 magnitude d
    let mantissa := divNearestEven (magnitude * 2 ^ 23) (2 ^ e * d)
    let sign := if n < 0 then 2 ^ 31 else 0
    -- a mantissa rounded up to 2 ^ 24 carries into the exponent
    BitVec.ofNat 32 (sign + (e + 127 - 64) * 2 ^ 23 + (mantissa - 2 ^ 23))

example : single 255 255 = 0x3F800000#32 ∧ single 1 255 = 0x3B808081#32 ∧
    single (-64) 32 = 0xC0000000#32 := by decide

def signed11 (v : Nat) : Int := if v.testBit 10 then (v : Int) - 2048 else v

def sext11 (v : BitVec 32) : BitVec 32 := (v <<< 21).sshiftRight 21

def partialFloat (v : BitVec 32) : Single :=
  BitVec.ofNat 32 (bits v 1 19 * 2 ^ 31 + bits v 8 11 * 2 ^ 23 + bits v 11 0 * 2 ^ 12)

end DolTranslator.Gx

/-!
## GX's state and its setters

An enumeration with a fixed underlying type holds whatever number is cast into it, so fields of
such types are numbers, as are bytes and counts.  An array is a function of its index.

* `State`          what the registers and the setters have left behind;
* the setters      in the SDK's numbers, as the registers are applied through them;
* `State.defaults` GXInit.
-/

namespace DolTranslator.Gx

open Function

/-! ## configurations -/

structure Color8 where
  r : Nat
  g : Nat
  b : Nat
  a : Nat
  deriving DecidableEq

structure Light where
  pos : Nat → Single
  dir : Nat → Single
  color : Color8
  cosAtt : Nat → Single
  distAtt : Nat → Single

/-- a palette loaded into TMEM: where it came from in memory -/
structure TlutLoad where
  address : BitVec 32
  entries : Nat
  deriving DecidableEq

/-- one of the two combiners of a TEV stage -/
structure TevCombiner where
  a : Nat
  b : Nat
  c : Nat
  d : Nat
  op : Nat := 0
  bias : Nat := 0
  scale : Nat := 0
  clamp : Bool := true
  out : Nat := 0
  deriving DecidableEq

def kTexNull : Nat := 0xFF

structure TevStage where
  color : TevCombiner := ⟨15, 15, 15, 15, 0, 0, 0, true, 0⟩
  alpha : TevCombiner := ⟨7, 7, 7, 7, 0, 0, 0, true, 0⟩
  kcolorSel : Nat := 0
  kalphaSel : Nat := 0
  texCoord : Nat := kTexNull
  texMap : Nat := kTexNull
  channel : Nat := 0xFF
  rasSwap : Nat := 0
  texSwap : Nat := 0
  ind : Nat := 0
  deriving DecidableEq

structure IndStage where
  texCoord : Nat := 0
  texMap : Nat := 0
  scaleS : Nat := 0
  scaleT : Nat := 0
  deriving DecidableEq

structure TevSwap where
  r : Nat
  g : Nat
  b : Nat
  a : Nat
  deriving DecidableEq

structure TevConfig where
  stageCount : Nat := 1
  stages : Nat → TevStage := fun _ => {}
  swapTable : Nat → TevSwap := fun _ => ⟨0, 1, 2, 3⟩
  texCoordCount : Nat := 0
  alphaComp0 : Nat := 7
  alphaRef0 : Nat := 0
  alphaOp : Nat := 0
  alphaComp1 : Nat := 7
  alphaRef1 : Nat := 0
  fogType : Nat := 0
  dstAlpha : Bool := false
  indStageCount : Nat := 0
  indStages : Nat → IndStage := fun _ => {}

structure ColorChannel where
  material : Nat := 0
  ambient : Nat := 0
  lighting : Bool := false
  lightMask : Nat := 0
  diffuse : Nat := 0
  attenuation : Nat := 2
  deriving DecidableEq

def kIdentity : Nat := 0xFF

structure TexGen where
  type : Nat := 1
  source : Nat := 4
  matrix : Nat := kIdentity
  normalize : Bool := false
  postMatrix : Nat := kIdentity
  deriving DecidableEq

structure VertexConfig where
  hasNormal : Bool := false
  hasColor0 : Bool := false
  hasColor1 : Bool := false
  /-- a bit per texture coordinate that the vertices carry -/
  texCoords : Nat → Bool := fun _ => false
  indexedPosMtx : Bool := false
  channelCount : Nat := 0
  channels : Nat → ColorChannel := fun _ => {}
  texGenCount : Nat := 0
  texGens : Nat → TexGen := fun _ => {}
  dualTexture : Bool := false

structure PixelState where
  blendMode : Nat := 0
  srcFactor : Nat := 1
  dstFactor : Nat := 0
  logicOp : Nat := 3
  depthTest : Bool := true
  depthCompare : Nat := 3
  depthWrite : Bool := true
  cull : Nat := 2
  colorWrite : Bool := true
  alphaWrite : Bool := false
  efbAlpha : Bool := false
  deriving DecidableEq

/-! ## the state -/

def kDirtyShader : BitVec 32 := 1 <<< 0
def kDirtyPixel : BitVec 32 := 1 <<< 1
def kDirtyTevUniforms : BitVec 32 := 1 <<< 2
def kDirtyXfUniforms : BitVec 32 := 1 <<< 3
def kDirtyTextures : BitVec 32 := 1 <<< 4
def kDirtyAll : BitVec 32 := 0x1F

structure State where
  tev : TevConfig
  vertex : VertexConfig
  pixel : PixelState
  tevRegs : Nat → Nat → Single
  kColors : Nat → Nat → Single
  fogColor : Nat → Single
  fogA : Single
  fogC : Single
  fogBMagnitude : Nat
  fogBShift : Nat
  chanAmb : Nat → Color8
  chanMat : Nat → Color8
  lights : Nat → Light
  posRows : Nat → Nat → Single
  nrmRows : Nat → Nat → Single
  texRows : Nat → Nat → Single
  postRows : Nat → Nat → Single
  proj : Nat → Nat → Single
  currentPosRow : Nat
  vtxDesc : Nat → Nat
  bpRegs : Nat → BitVec 32
  bpMask : BitVec 32
  peControlWrites : BitVec 32
  texInvalidations : BitVec 32
  /-- a register never loaded holds the setters' defaults -/
  bpWritten : Nat → Bool
  xfRaw : Nat → BitVec 32
  xfWritten : Nat → Bool
  viewport : Nat → Single
  projParams : Nat → Single
  projOrtho : Bool
  tluts : Nat → TlutLoad
  generation : BitVec 64
  dirty : BitVec 32

def modifyAt {α : Type} (f : Nat → α) (i : Nat) (g : α → α) : Nat → α := update f i (g (f i))

namespace State

def touch (s : State) (dirty : BitVec 32) : State :=
  { s with generation := s.generation + 1, dirty := s.dirty ||| dirty }

/-! ## TEV -/

def modifyStage (s : State) (stage : Nat) (f : TevStage → TevStage) : State :=
  { s with tev := { s.tev with stages := modifyAt s.tev.stages stage f } }

def setNumTevStages (s : State) (count : Nat) : State :=
  let s := s.touch kDirtyAll
  { s with tev := { s.tev with
    stageCount := if count < 1 then 1 else if count > 16 then 16 else count } }

def channelOf (id : Nat) : Nat :=
  if id = 0 ∨ id = 2 ∨ id = 4 then 0
  else if id = 1 ∨ id = 3 ∨ id = 5 then 1
  else if id = 0xFF then 0xFF
  else 6

def setTevOrder (s : State) (stage coord map channel : Nat) : State :=
  let s := s.touch kDirtyAll
  if stage ≥ 16 then s
  else s.modifyStage stage fun k => { k with
    texCoord := coord
    texMap := if map.testBit 8 ∨ map % 256 ≥ 8 then kTexNull else map % 256
    channel := channelOf channel }

def setTevColorIn (s : State) (stage a b c d : Nat) : State :=
  let s := s.touch kDirtyAll
  if stage < 16 then
    s.modifyStage stage fun k => { k with color := { k.color with a := a, b := b, c := c, d := d } }
  else s

def setTevAlphaIn (s : State) (stage a b c d : Nat) : State :=
  let s := s.touch kDirtyAll
  if stage < 16 then
    s.modifyStage stage fun k => { k with alpha := { k.alpha with a := a, b := b, c := c, d := d } }
  else s

def setOp (k : TevCombiner) (op bias scale : Nat) (clamp : Bool) (outReg : Nat) : TevCombiner :=
  { k with op := op, bias := bias, scale := scale, clamp := clamp, out := outReg % 4 }

def setTevColorOp (s : State) (stage op bias scale : Nat) (clamp : Bool) (outReg : Nat) : State :=
  let s := s.touch kDirtyAll
  if stage < 16 then
    s.modifyStage stage fun k => { k with color := setOp k.color op bias scale clamp outReg }
  else s

def setTevAlphaOp (s : State) (stage op bias scale : Nat) (clamp : Bool) (outReg : Nat) : State :=
  let s := s.touch kDirtyAll
  if stage < 16 then
    s.modifyStage stage fun k => { k with alpha := setOp k.alpha op bias scale clamp outReg }
  else s

/-- SetTevOp with the preset Replace, the one that the defaults use: the texture alone -/
def setTevOpReplace (s : State) (stage : Nat) : State :=
  let s := s.touch kDirtyAll
  let s := s.setTevColorIn stage 15 15 15 8
  let s := s.setTevAlphaIn stage 7 7 7 4
  (s.setTevColorOp stage 0 0 0 true 0).setTevAlphaOp stage 0 0 0 true 0

def setAlphaCompare (s : State) (comp0 ref0 op comp1 ref1 : Nat) : State :=
  let s := s.touch kDirtyAll
  { s with tev := { s.tev with
    alphaComp0 := comp0 % 8, alphaRef0 := ref0, alphaOp := op % 4
    alphaComp1 := comp1 % 8, alphaRef1 := ref1 } }

/-! ## channels, texture coordinates, the current matrix -/

def setNumChans (s : State) (count : Nat) : State :=
  let s := s.touch kDirtyAll
  { s with vertex := { s.vertex with channelCount := if count > 2 then 2 else count } }

def setChanCtrl (s : State) (channel : Nat) (enable : Bool) (ambSrc matSrc lightMask diffFn attnFn : Nat) :
    State :=
  let s := s.touch kDirtyAll
  let cc : ColorChannel :=
    { lighting := enable
      ambient := ambSrc % 2
      material := matSrc % 2
      lightMask := lightMask % 256
      diffuse := if diffFn > 2 then 0 else diffFn
      attenuation := if attnFn > 2 then 2 else attnFn }
  -- the colour channel of a pair, and its alpha channel
  if channel = 4 ∨ channel = 5 then
    { s with vertex := { s.vertex with
      channels := update (update s.vertex.channels (channel - 4) cc) (channel - 2) cc } }
  else if channel < 4 then
    { s with vertex := { s.vertex with channels := update s.vertex.channels channel cc } }
  else s

def chanColor (channel : Nat) (color c : Color8) : Color8 :=
  let c := if channel = 0 ∨ channel = 1 ∨ channel ≥ 4
    then { c with r := color.r, g := color.g, b := color.b } else c
  if channel ≥ 2 then { c with a := color.a } else c

def setChanAmbColor (s : State) (channel : Nat) (color : Color8) : State :=
  let s := s.touch kDirtyAll
  { s with chanAmb := modifyAt s.chanAmb (channel % 2) (chanColor channel color) }

def setChanMatColor (s : State) (channel : Nat) (color : Color8) : State :=
  let s := s.touch kDirtyAll
  { s with chanMat := modifyAt s.chanMat (channel % 2) (chanColor channel color) }

def setNumTexGens (s : State) (count : Nat) : State :=
  let s := s.touch kDirtyAll
  { s with vertex := { s.vertex with texGenCount := if count > 8 then 8 else count } }

def modifyTexGen (s : State) (i : Nat) (f : TexGen → TexGen) : State :=
  { s with vertex := { s.vertex with texGens := modifyAt s.vertex.texGens i f } }

def setTexCoordGen2 (s : State) (dst type src mtx : Nat) (normalize : Bool) (postMtx : Nat) : State :=
  let s := s.touch kDirtyAll
  if dst ≥ 8 then s
  else s.modifyTexGen dst fun _ =>
    { type := type
      source := src
      matrix := if 30 ≤ mtx ∧ mtx < 60 then (mtx - 30) / 3 else kIdentity
      normalize := normalize
      postMatrix := if 64 ≤ postMtx ∧ postMtx < 124 then (postMtx - 64) / 3 else kIdentity }

def setCurrentMtx (s : State) (id : Nat) : State :=
  let s := s.touch kDirtyAll
  if id + 3 ≤ 30 then { s with currentPosRow := id } else s

/-! ## the pixel engine -/

def setBlendMode (s : State) (type src dst logicOp : Nat) : State :=
  let s := s.touch kDirtyAll
  { s with pixel := { s.pixel with
    blendMode := type % 4, srcFactor := src % 8, dstFactor := dst % 8, logicOp := logicOp % 16 } }

def setZMode (s : State) (enable : Bool) (func : Nat) (updateZ : Bool) : State :=
  let s := s.touch kDirtyAll
  { s with pixel := { s.pixel with
    depthTest := enable, depthCompare := func % 8, depthWrite := updateZ } }

def setCullMode (s : State) (mode : Nat) : State :=
  let s := s.touch kDirtyAll
  { s with pixel := { s.pixel with cull := mode % 4 } }

def setColorUpdate (s : State) (enable : Bool) : State :=
  let s := s.touch kDirtyAll
  { s with pixel := { s.pixel with colorWrite := enable } }

def setAlphaUpdate (s : State) (enable : Bool) : State :=
  let s := s.touch kDirtyAll
  { s with pixel := { s.pixel with alphaWrite := enable } }

def clearVtxDesc (s : State) : State :=
  { s.touch kDirtyShader with vtxDesc := fun _ => 0 }

def setVtxDesc (s : State) (attr type : Nat) : State :=
  let s := s.touch kDirtyShader
  -- normal, binormal, tangent: the normal is what lights
  let attr := if attr = 25 then 10 else attr
  if attr < 21 then { s with vtxDesc := update s.vtxDesc attr type } else s

def setDualTexture (s : State) (enable : Bool) : State :=
  let s := s.touch kDirtyAll
  { s with vertex := { s.vertex with dualTexture := enable } }

/-- a state of zeros, with the members' initialisers -/
def blank : State where
  tev := {}
  vertex := {}
  pixel := {}
  tevRegs _ _ := 0
  kColors _ _ := 0
  fogColor _ := 0
  fogA := 0
  fogC := 0
  fogBMagnitude := 0
  fogBShift := 0
  chanAmb _ := ⟨0, 0, 0, 0⟩
  chanMat _ := ⟨0, 0, 0, 0⟩
  lights _ :=
    { pos := fun _ => 0
      dir := fun _ => 0
      color := ⟨0, 0, 0, 0⟩
      cosAtt := update (fun _ => 0) 0 0x3F800000
      distAtt := update (fun _ => 0) 0 0x3F800000 }
  posRows _ _ := 0
  nrmRows _ _ := 0
  texRows _ _ := 0
  postRows _ _ := 0
  proj _ _ := 0
  currentPosRow := 0
  vtxDesc _ := 0
  bpRegs _ := 0
  bpMask := 0x00FFFFFF
  peControlWrites := 0
  texInvalidations := 0
  bpWritten _ := false
  xfRaw _ := 0
  xfWritten _ := false
  viewport _ := 0
  projParams _ := 0
  projOrtho := false
  tluts _ := ⟨0, 0⟩
  generation := 0
  dirty := kDirtyAll

def identityRows (n : Nat) (r c : Nat) : Single := if r = c ∧ r < n then 0x3F800000 else 0

/-- one stage, textured from coordinate 0, one coordinate, no channels -/
def defaults : State :=
  let s := (List.range 16).foldl (fun (s : State) i =>
    (s.setTevOrder i (if i < 8 then i else 0xFF) (if i < 8 then i else 0xFF) 4).setTevOpReplace i) blank
  let s := s.setNumTevStages 1
  let s := { s with tev := { s.tev with
    swapTable := fun t => match t with
      | 0 => ⟨0, 1, 2, 3⟩
      | 1 => ⟨0, 0, 0, 3⟩
      | 2 => ⟨1, 1, 1, 3⟩
      | _ => ⟨2, 2, 2, 3⟩ } }
  let s := (List.range 8).foldl (fun (s : State) i => s.setTexCoordGen2 i 1 (4 + i) 60 false 125) s
  let s := (s.setNumTexGens 1).setNumChans 0
  let s := (List.range 4).foldl (fun (s : State) c => s.setChanCtrl c false 0 1 0 0 2) s
  { s with
    posRows := identityRows 3
    nrmRows := identityRows 3
    proj := identityRows 4
    pixel := { alphaWrite := true } }

end State

end DolTranslator.Gx
