import DolTranslator.Simd.Lanes

/-!
# The kernels of the mix

The inner loops of the mix, each one sample at a time and eight samples at a time.

* `add_epi32`, … `shuffle_epi8`   the vector instructions, lane by lane;
* `vectorLoop`   eight samples at a time, with an index of 32 bits;
* `MixAddRamp…`   a voice added to a bus, through a ramp of 16 bits;
* `ScaleRamp…`   a block scaled in place through such a ramp;
* `MixAccumRamp32…` a bus added to another one, with a gain for each sample;
* `StoreBigEndian32…`, `LoadBigEndian32…`   the buffers of the guest.

Arrays are functions of an index; sums wrap.
-/

namespace DolTranslator.AxMixKernels

open Function Simd

/-! ## vector instructions -/

abbrev M256 := BitVec 256

abbrev M128 := BitVec 128

def set1_epi32 (x : BitVec 32) : M256 := pack 256 (fun _ => x) 8

/-- the numbers from 0 to 7 -/
def lanes_epi32 : M256 := pack 256 (fun i => BitVec.ofNat 32 i) 8

def add_epi32 (a b : M256) : M256 := pack 256 (fun i => lane 32 a i + lane 32 b i) 8

def mullo_epi32 (a b : M256) : M256 := pack 256 (fun i => lane 32 a i * lane 32 b i) 8

def srai_epi32 (a : M256) (n : Nat) : M256 := pack 256 (fun i => (lane 32 a i).sshiftRight n) 8

def maxS {w : Nat} (x y : BitVec w) : BitVec w := if x.slt y then y else x

def minS {w : Nat} (x y : BitVec w) : BitVec w := if y.slt x then y else x

def max_epi32 (a b : M256) : M256 := pack 256 (fun i => maxS (lane 32 a i) (lane 32 b i)) 8

def min_epi32 (a b : M256) : M256 := pack 256 (fun i => minS (lane 32 a i) (lane 32 b i)) 8

def cvtepi16_epi32 (a : M128) : M256 := pack 256 (fun i => (lane 16 a i).signExtend 32) 8

def cvtepu16_epi32 (a : M128) : M256 := pack 256 (fun i => (lane 16 a i).setWidth 32) 8

/-- signed saturation from 32 bits to 16 -/
def saturate (x : BitVec 32) : BitVec 16 :=
  if x.slt (-0x8000) then -0x8000 else if (0x7fff : BitVec 32).slt x then 0x7fff else x.setWidth 16

def packs_epi32 (a b : M128) : M128 :=
  pack 128 (fun i => saturate (if i < 4 then lane 32 a i else lane 32 b (i - 4))) 8

def mul_epi32 (a b : M256) : M256 :=
  pack 256 (fun i => (lane 32 a (2 * i)).signExtend 64 * (lane 32 b (2 * i)).signExtend 64) 4

def srli_epi64 (a : M256) (n : Nat) : M256 := pack 256 (fun i => lane 64 a i >>> n) 4

def slli_epi64 (a : M256) (n : Nat) : M256 := pack 256 (fun i => lane 64 a i <<< n) 4

def blend_epi32 (a b : M256) (mask : Nat) : M256 :=
  pack 256 (fun i => if mask.testBit i then lane 32 b i else lane 32 a i) 8

def shuffle_epi8 (a b : M256) : M256 :=
  pack 256 (fun i =>
    if (lane 8 b i).msb then 0 else lane 8 a (16 * (i / 16) + (lane 8 b i).toNat % 16)) 32

/-! ## loops -/

/-- `for (; i + 8 <= count; i += 8)`; the index wraps as `uint32_t` does -/
def vectorLoop {σ : Type} (count : BitVec 32) (body : Nat → σ → σ) :
    Nat → BitVec 32 → σ → Option (BitVec 32 × σ)
  | 0, _, _ => none
  | fuel + 1, i, s =>
    if i + 8 ≤ count then vectorLoop count body fuel (i + 8) (body i.toNat s) else some (i, s)

/-- `for (; i < count; ++i)` -/
def scalarLoop {σ : Type} (count : BitVec 32) (step : Nat → σ → σ) (i : BitVec 32) (s : σ) : σ :=
  repeated step (count.toNat - i.toNat) i.toNat s

/-- `>> 15`, of the product of a sample and a volume -/
def scaled (sample volume : BitVec 16) : BitVec 32 :=
  (sample.signExtend 32 * volume.setWidth 32).sshiftRight 15

def ClampToS16 (value : BitVec 32) : BitVec 16 :=
  if value.slt (-0x8000) then -0x8000
  else if (0x7fff : BitVec 32).slt value then 0x7fff
  else value.setWidth 16

/-! ## adding a voice to a bus -/

structure Mixed where
  out : Nat → BitVec 32
  volume : BitVec 16
  last : BitVec 16

def mixAddStep (input : Nat → BitVec 16) (delta : BitVec 16) (i : Nat) (s : Mixed) : Mixed :=
  let sample := ClampToS16 (scaled (input i) s.volume)
  ⟨update s.out i (s.out i + sample.signExtend 32), s.volume + delta, sample⟩

def MixAddRampScalar (out : Nat → BitVec 32) (input : Nat → BitVec 16) (count : BitVec 32)
    (volume delta dpop : BitVec 16) : Mixed :=
  scalarLoop count (mixAddStep input delta) 0 ⟨out, volume, dpop⟩

/-- `volume + k * delta` in lane `k` -/
def firstRamp (volume delta : BitVec 16) : M256 :=
  add_epi32 (set1_epi32 (volume.setWidth 32))
    (mullo_epi32 lanes_epi32 (set1_epi32 (delta.setWidth 32)))

def blockStep (delta : BitVec 16) : M256 := set1_epi32 (delta.setWidth 32 * 8)

/-- eight samples times eight volumes, `>> 15` -/
def scaledBlock (samples : Nat → BitVec 16) (i : Nat) (ramp : M256) : M256 :=
  srai_epi32 (mullo_epi32 (cvtepi16_epi32 (load 128 samples i 8)) (ramp &&& set1_epi32 0xFFFF)) 15

structure MixVectors where
  out : Nat → BitVec 32
  ramp : M256
  lastBlock : M256

def mixAddBlock (input : Nat → BitVec 16) (delta : BitVec 16) (i : Nat) (s : MixVectors) :
    MixVectors :=
  let scaled := min_epi32 (max_epi32 (scaledBlock input i s.ramp) (set1_epi32 (-0x8000)))
    (set1_epi32 0x7FFF)
  ⟨store s.out i (add_epi32 (load 256 s.out i 8) scaled) 8, add_epi32 s.ramp (blockStep delta),
    scaled⟩

def MixAddRampAvx2 (fuel : Nat) (out : Nat → BitVec 32) (input : Nat → BitVec 16)
    (count : BitVec 32) (volume delta dpop : BitVec 16) : Option Mixed :=
  if 8 ≤ count then
    (vectorLoop count (mixAddBlock input delta) fuel 0 ⟨out, firstRamp volume delta, 0⟩).map
      fun (i, s) =>
        if i ≠ 0 then
          scalarLoop count (mixAddStep input delta) i
            ⟨s.out, (lane 32 s.ramp 0).setWidth 16, (lane 32 s.lastBlock 7).setWidth 16⟩
        else scalarLoop count (mixAddStep input delta) i ⟨s.out, volume, dpop⟩
  else some (scalarLoop count (mixAddStep input delta) 0 ⟨out, volume, dpop⟩)

/-! ## scaling a block -/

structure Scaled where
  samples : Nat → BitVec 16
  volume : BitVec 16

def scaleStep (delta : BitVec 16) (i : Nat) (s : Scaled) : Scaled :=
  ⟨update s.samples i (ClampToS16 (scaled (s.samples i) s.volume)), s.volume + delta⟩

def ScaleRampScalar (samples : Nat → BitVec 16) (count : BitVec 32) (volume delta : BitVec 16) :
    Scaled :=
  scalarLoop count (scaleStep delta) 0 ⟨samples, volume⟩

structure ScaleVectors where
  samples : Nat → BitVec 16
  ramp : M256

def scaleBlock (delta : BitVec 16) (i : Nat) (s : ScaleVectors) : ScaleVectors :=
  let scaled := scaledBlock s.samples i s.ramp
  ⟨store s.samples i (packs_epi32 (lane 128 scaled 0) (lane 128 scaled 1)) 8,
    add_epi32 s.ramp (blockStep delta)⟩

def ScaleRampAvx2 (fuel : Nat) (samples : Nat → BitVec 16) (count : BitVec 32)
    (volume delta : BitVec 16) : Option Scaled :=
  if 8 ≤ count then
    (vectorLoop count (scaleBlock delta) fuel 0 ⟨samples, firstRamp volume delta⟩).map
      fun (i, s) =>
        if i ≠ 0 then
          scalarLoop count (scaleStep delta) i ⟨s.samples, (lane 32 s.ramp 0).setWidth 16⟩
        else scalarLoop count (scaleStep delta) i ⟨s.samples, volume⟩
  else some (scalarLoop count (scaleStep delta) 0 ⟨samples, volume⟩)

/-! ## adding a bus to a bus -/

def accumStep (src : Nat → BitVec 32) (ramp : Nat → BitVec 16) (i : Nat) (dst : Nat → BitVec 32) :
    Nat → BitVec 32 :=
  update dst i (dst i +
    (((src i).signExtend 64 * (ramp i).setWidth 64).sshiftRight 15).setWidth 32)

def MixAccumRamp32Scalar (dst src : Nat → BitVec 32) (ramp : Nat → BitVec 16)
    (count : BitVec 32) : Nat → BitVec 32 :=
  scalarLoop count (accumStep src ramp) 0 dst

/-- the products of the even lanes and of the odd lanes, each in 64 bits -/
def accumBlock (src : Nat → BitVec 32) (ramp : Nat → BitVec 16) (i : Nat) (dst : Nat → BitVec 32) :
    Nat → BitVec 32 :=
  let source : M256 := load 256 src i 8
  let gain := cvtepu16_epi32 (load 128 ramp i 8)
  let even := srli_epi64 (mul_epi32 source gain) 15
  let odd := srli_epi64 (mul_epi32 (srli_epi64 source 32) (srli_epi64 gain 32)) 15
  let result := blend_epi32 even (slli_epi64 odd 32) 0xAA
  store dst i (add_epi32 (load 256 dst i 8) result) 8

def MixAccumRamp32Avx2 (fuel : Nat) (dst src : Nat → BitVec 32) (ramp : Nat → BitVec 16)
    (count : BitVec 32) : Option (Nat → BitVec 32) :=
  (vectorLoop count (accumBlock src ramp) fuel 0 dst).map fun (i, dst) =>
    scalarLoop count (accumStep src ramp) i dst

/-! ## the buffers of the guest -/

def Write32 (dst : Nat → BitVec 8) (at_ : Nat) (value : BitVec 32) (p : Nat) : BitVec 8 :=
  if at_ ≤ p ∧ p < at_ + 4 then lane 8 value (3 - (p - at_)) else dst p

def Read32 (src : Nat → BitVec 8) (at_ : Nat) : BitVec 32 := pack 32 (fun b => src (at_ + 3 - b)) 4

def StoreBigEndian32Scalar (dst : Nat → BitVec 8) (src : Nat → BitVec 32) (count : Nat) :
    Nat → BitVec 8 :=
  repeated (fun i dst => Write32 dst (4 * i) (src i)) count 0 dst

def LoadBigEndian32Scalar (dst : Nat → BitVec 32) (src : Nat → BitVec 8) (count : Nat) :
    Nat → BitVec 32 :=
  repeated (fun i dst => update dst i (Read32 src (4 * i))) count 0 dst

def ByteSwapMask32 : M256 :=
  pack 256 (fun i => BitVec.ofNat 8 (4 * (i % 16 / 4) + (3 - i % 4))) 32

def shifted {α : Type} (offset : Nat) (f : (Nat → α) → Nat → α) (a : Nat → α) (p : Nat) : α :=
  if p < offset then a p else f (fun q => a (offset + q)) (p - offset)

/-- as many whole blocks as the count has; the index is a `size_t`, which no array makes wrap -/
def StoreBigEndian32Avx2 (dst : Nat → BitVec 8) (src : Nat → BitVec 32) (count : Nat) :
    Nat → BitVec 8 :=
  let i := 8 * (count / 8)
  let dst := repeated (fun block dst =>
    store dst (32 * block) (shuffle_epi8 (load 256 src (8 * block) 8) ByteSwapMask32) 32)
      (count / 8) 0 dst
  shifted (4 * i) (fun dst => StoreBigEndian32Scalar dst (fun j => src (i + j)) (count - i)) dst

def LoadBigEndian32Avx2 (dst : Nat → BitVec 32) (src : Nat → BitVec 8) (count : Nat) :
    Nat → BitVec 32 :=
  let i := 8 * (count / 8)
  let dst := repeated (fun block dst =>
    store dst (8 * block) (shuffle_epi8 (load 256 src (32 * block) 32) ByteSwapMask32) 8)
      (count / 8) 0 dst
  shifted i (fun dst => LoadBigEndian32Scalar dst (fun p => src (4 * i + p)) (count - i)) dst

end DolTranslator.AxMixKernels
