import DolTranslator.Gx.Registers

/-!
# What a draw takes from the state

* `State.Tev`, `State.Vertex`, `State.pixel`   the shaders' and the pixel engine's configurations;
* `State.TevUniforms`, `State.XfUniforms`   the two uniform blocks, as their words in memory order;
* `State.Texture`, `State.Tlut`   texture maps and palettes.
-/

namespace DolTranslator.Gx

open Function

/-- a texture map as the BP texture registers bind it -/
structure TexMap where
  address : BitVec 32
  width : Nat
  height : Nat
  format : Nat
  mips : Nat
  wrapS : Nat
  wrapT : Nat
  magLinear : Bool
  minFilter : Nat
  lodBias : Single
  minLod : Single
  maxLod : Single
  tlutFormat : Nat
  tlutTmem : Nat
  deriving DecidableEq

def signed8 (v : Nat) : Int := if v ≥ 128 then (v : Int) - 256 else v

def rowWords (rows : Nat → Nat → Single) (count : Nat) : List (BitVec 32) :=
  (List.range count).flatMap fun r => [rows r 0, rows r 1, rows r 2, rows r 3]

def colorWords (c : Color8) : List (BitVec 32) :=
  [single c.r 255, single c.g 255, single c.b 255, single c.a 255]

def lightWords (l : Light) : List (BitVec 32) :=
  [l.pos 0, l.pos 1, l.pos 2, 0, l.dir 0, l.dir 1, l.dir 2, 0] ++ colorWords l.color ++
    [l.cosAtt 0, l.cosAtt 1, l.cosAtt 2, 0, l.distAtt 0, l.distAtt 1, l.distAtt 2, 0]

/-- an indirect matrix from its three registers: two rows of coefficients, each with the shift -/
def indirectMatrixWords (a b c : BitVec 32) : List (BitVec 32) :=
  let scale := bits a 2 22 ||| bits b 2 22 <<< 2 ||| bits c 2 22 <<< 4
  let shift := BitVec.ofInt 32 (17 - scale)
  [sext11 a, sext11 b, sext11 c, shift,
    sext11 (a >>> 11), sext11 (b >>> 11), sext11 (c >>> 11), shift]

namespace State

/-- texture map 0 to 7: maps 0 to 3 at 0x80, 4 to 7 at 0xA0 -/
def Texture (s : State) (map : Fin 8) : TexMap :=
  let base := if map.val < 4 then 0x80 + map.val else 0xA0 + (map.val - 4)
  let mode0 := s.bpRegs base
  let mode1 := s.bpRegs (base + 4)
  let image0 := s.bpRegs (base + 8)
  let image3 := s.bpRegs (base + 0x14)
  let tlut := s.bpRegs (base + 0x18)
  let minFilter := bits mode0 3 5
  let maxLod := bits mode1 8 8
  { address := (image3 &&& 0x00FFFFFF) <<< 5
    width := bits image0 10 0 + 1
    height := bits image0 10 10 + 1
    format := bits image0 4 20
    wrapS := bits mode0 2 0
    wrapT := bits mode0 2 2
    magLinear := decide (bits mode0 1 4 ≠ 0)
    minFilter := minFilter
    lodBias := single (signed8 (bits mode0 8 9)) 32
    minLod := single (bits mode1 8 0) 16
    maxLod := single maxLod 16
    -- hardware min filters 0 and 4 are the unmipped ones
    mips := if minFilter ≠ 0 ∧ minFilter ≠ 4 then maxLod / 16 + 1 else 1
    tlutTmem := bits tlut 10 0 <<< 9
    tlutFormat := bits tlut 2 10 }

def Tlut (s : State) (tmem : BitVec 32) : TlutLoad := s.tluts (bits tmem 10 9)

/-- the indirect stages come straight from their BP registers -/
def Tev (s : State) : TevConfig :=
  { s.tev with
    texCoordCount := s.vertex.texGenCount
    indStageCount := bits (s.bpRegs 0x00) 3 16
    indStages := fun i =>
      if i < 4 then
        let ss := s.bpRegs (if i < 2 then 0x25 else 0x26)
        { texMap := bits (s.bpRegs 0x27) 3 (6 * i)
          texCoord := bits (s.bpRegs 0x27) 3 (6 * i + 3)
          scaleS := bits ss 4 (i % 2 * 8)
          scaleT := bits ss 4 (i % 2 * 8 + 4) }
      else s.tev.indStages i
    stages := fun n =>
      if n < 16 then { s.tev.stages n with ind := bits (s.bpRegs (0x10 + n)) 21 0 }
      else s.tev.stages n }

def Vertex (s : State) : VertexConfig :=
  { s.vertex with
    hasNormal := decide (s.vtxDesc 10 ≠ 0)
    hasColor0 := decide (s.vtxDesc 11 ≠ 0)
    hasColor1 := decide (s.vtxDesc 12 ≠ 0)
    indexedPosMtx := decide (s.vtxDesc 0 ≠ 0)
    texCoords := fun t => decide (t < 8 ∧ s.vtxDesc (13 + t) ≠ 0) }

/-- 64 words -/
def TevUniforms (s : State) : List (BitVec 32) :=
  rowWords s.tevRegs 4 ++ rowWords s.kColors 4 ++
    [s.fogColor 0, s.fogColor 1, s.fogColor 2, s.fogColor 3] ++
    [s.fogA, s.fogC, single s.fogBMagnitude 1, single s.fogBShift 1] ++
    (List.range 3).flatMap fun m =>
      indirectMatrixWords (s.bpRegs (0x06 + 3 * m)) (s.bpRegs (0x07 + 3 * m)) (s.bpRegs (0x08 + 3 * m))

/-- 796 words -/
def XfUniforms (s : State) : List (BitVec 32) :=
  rowWords s.posRows 30 ++ rowWords s.nrmRows 30 ++ rowWords s.texRows 30 ++
    rowWords s.postRows 60 ++ rowWords s.proj 4 ++
    (List.range 2).flatMap (fun c => colorWords (s.chanAmb c)) ++
    (List.range 2).flatMap (fun c => colorWords (s.chanMat c)) ++
    (List.range 8).flatMap (fun i => lightWords (s.lights i)) ++
    [BitVec.ofNat 32 s.currentPosRow, 0, 0, 0]

end State

end DolTranslator.Gx
