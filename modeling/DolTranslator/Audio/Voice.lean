import Mathlib
import DolTranslator.Audio.CommandList
import DolTranslator.Streams.Passes

/-!
# Voices

What the mix does with a parameter block: samples are read by the accelerator, resampled, scaled,
filtered, and added to the buses.

* `AXPBWii`   the fields that the mix reads and writes;
* `Accelerator`   built from the block at each call, and written back to it at each sample;
* `ResampleAudio`   four samples in a ring; by the table, between two of them, or one to one;
* `ProcessVoice`   a number of samples; `ProcessSlices`, a millisecond three times.

The memory that samples are read from is a parameter.
-/

namespace DolTranslator.Ax

open Streams

/-! ## parameter blocks -/

structure VolumeData where
  volume : UInt16
  volume_delta : UInt16

structure PBVolumeEnvelope where
  cur_volume : Int16
  cur_volume_delta : Int16

structure PBAudioAddr where
  looping : UInt16
  sample_format : UInt16
  loop_addr_hi : UInt16
  loop_addr_lo : UInt16
  end_addr_hi : UInt16
  end_addr_lo : UInt16
  cur_addr_hi : UInt16
  cur_addr_lo : UInt16

structure PBADPCMInfo where
  coefs : Nat → Int16
  gain : UInt16
  pred_scale : UInt16
  yn1 : Int16
  yn2 : Int16

structure PBADPCMLoopInfo where
  pred_scale : UInt16
  yn1 : UInt16
  yn2 : UInt16

structure PBSampleRateConverter where
  ratio_hi : UInt16
  ratio_lo : UInt16
  cur_addr_frac : UInt16
  last_samples : Fin 4 → Int16

structure PBSampleRateConverterWM where
  cur_addr_frac : UInt16
  last_samples : Fin 4 → Int16

structure PBLowPassFilter where
  on : UInt16
  yn1 : Int16
  a0 : UInt16
  b0 : Int16

structure PBBiquadFilter where
  on : UInt16
  xn1 : Int16
  xn2 : Int16
  yn1 : Int16
  yn2 : Int16
  b0 : Int16
  b1 : Int16
  b2 : Int16
  a1 : Int16
  a2 : Int16

/-- the union of the two filters: its words are those of the longer one -/
def PBBiquadFilter.lpf (iir : PBBiquadFilter) : PBLowPassFilter :=
  ⟨iir.on, iir.xn1, iir.xn2.toUInt16, iir.yn1⟩

def PBBiquadFilter.setLpf (iir : PBBiquadFilter) (lpf : PBLowPassFilter) : PBBiquadFilter :=
  { iir with on := lpf.on, xn1 := lpf.yn1, xn2 := lpf.a0.toInt16, yn1 := lpf.b0 }

inductive AxBus where
  | MainL | MainR | MainS | AuxAL | AuxAR | AuxAS | AuxBL | AuxBR | AuxBS | AuxCL | AuxCR | AuxCS
  | Wm0Main | Wm0Aux | Wm1Main | Wm1Aux | Wm2Main | Wm2Aux | Wm3Main | Wm3Aux
  deriving DecidableEq

/-- the fields that the accelerator knows -/
structure PBSource where
  running : UInt16
  is_stream : UInt16
  audio_addr : PBAudioAddr
  adpcm : PBADPCMInfo
  adpcm_loop_info : PBADPCMLoopInfo

structure AXPBWii extends PBSource where
  src_type : UInt16
  coef_select : UInt16
  /-- `mixer` and `remote_mixer`, by the bus they are for -/
  mixer : AxBus → VolumeData
  /-- `dpop` and `remote_dpop` -/
  dpop : AxBus → Int16
  vol_env : PBVolumeEnvelope
  src : PBSampleRateConverter
  lpf : PBLowPassFilter
  biquad : PBBiquadFilter
  remote : UInt16
  remote_mixer_control : UInt16
  remote_src : PBSampleRateConverterWM
  remote_iir : PBBiquadFilter

/-! ## the accelerator -/

def ClampS16 (sample : Int) : Int16 := .ofInt (max (-0x8000) (min sample 0x7fff))

def ClampAdpcmS16 (sample : Int) : Int16 := .ofInt (max (-0x7fff) (min sample 0x7fff))

/-- a sum of `int` values -/
def int32 (value : Int) : Int := value.bmod (2 ^ 32)

structure Accelerator where
  m_start : UInt32
  m_end : UInt32
  m_current : UInt32
  m_format : UInt16
  m_gain : Int16
  m_yn1 : Int16
  m_yn2 : Int16
  m_pred_scale : UInt16
  m_reads_stopped : Bool

def Accelerator.Setup (pb : PBSource) : Accelerator where
  m_start := Hilo pb.audio_addr.loop_addr_hi pb.audio_addr.loop_addr_lo &&& 0x3fffffff
  m_end := Hilo pb.audio_addr.end_addr_hi pb.audio_addr.end_addr_lo &&& 0x3fffffff
  m_current := Hilo pb.audio_addr.cur_addr_hi pb.audio_addr.cur_addr_lo &&& 0xbfffffff
  m_format := pb.audio_addr.sample_format
  m_gain := pb.adpcm.gain.toInt16
  m_yn1 := pb.adpcm.yn1
  m_yn2 := pb.adpcm.yn2
  m_pred_scale := pb.adpcm.pred_scale &&& 0x7f
  m_reads_stopped := false

variable (ReadAram8 : UInt32 → UInt8)

def Accelerator.CurrentRawSample (accel : Accelerator) : UInt16 :=
  if accel.m_format &&& 3 = 0 then
    let byte := ReadAram8 (accel.m_current >>> 1)
    if accel.m_current &&& 1 ≠ 0 then (byte &&& 0xf).toUInt16 else (byte >>> 4).toUInt16
  else if accel.m_format &&& 3 = 1 then (ReadAram8 accel.m_current).toUInt16
  else if accel.m_format &&& 3 = 2 then
    ((ReadAram8 (accel.m_current * 2)).toUInt16 <<< 8) |||
      (ReadAram8 (accel.m_current * 2 + 1)).toUInt16
  else 0

def Accelerator.coefs (accel : Accelerator) (pb : PBSource) : Int × Int :=
  let coef_idx := ((accel.m_pred_scale >>> 4) &&& 7).toNat
  ((pb.adpcm.coefs (coef_idx * 2)).toInt, (pb.adpcm.coefs (coef_idx * 2 + 1)).toInt)

/-- the address goes on: at the end to the start, past the header at the end of a frame, which is
read -/
def Accelerator.advanceAdpcm (accel : Accelerator) : Accelerator × UInt32 :=
  let accel := { accel with m_current := accel.m_current + 1 }
  if accel.m_end &&& 0xf = 0 ∧ accel.m_current = accel.m_end then
    ({ accel with m_current := accel.m_start + 1 }, 2)
  else if accel.m_end &&& 0xf = 1 ∧ accel.m_current = accel.m_end - 1 then
    ({ accel with m_current := accel.m_start }, 2)
  else if accel.m_current &&& 15 = 0 then
    ({ accel with
      m_pred_scale := (ReadAram8 ((accel.m_current &&& ~~~15) >>> 1)).toUInt16 &&& 0x7f
      m_current := accel.m_current + 2 }, 4)
  else (accel, 2)

/-- the next value, and how far behind the end the address may be -/
def Accelerator.decode (accel : Accelerator) (pb : PBSource) : Int16 × Accelerator × UInt32 :=
  let raw := accel.CurrentRawSample ReadAram8
  let decode := (accel.m_format >>> 2) &&& 3
  let (coef1, coef2) := accel.coefs pb
  if decode = 0 then
    let raw := raw &&& 0xf
    let nibble : Int := if raw ≥ 8 then (raw.toNat : Int) - 16 else raw.toNat
    let scale : Int := 2 ^ (accel.m_pred_scale &&& 0xf).toNat
    let decoded := int32 (scale * nibble +
      (int32 (0x400 + coef1 * accel.m_yn1.toInt + coef2 * accel.m_yn2.toInt) >>> 11))
    let value := ClampAdpcmS16 decoded
    let (accel, step) :=
      ({ accel with m_yn2 := accel.m_yn1, m_yn1 := value } : Accelerator).advanceAdpcm ReadAram8
    (value, accel, step)
  else
    let pcm := raw.toInt16
    let gain_scale := (accel.m_format >>> 4) &&& 3
    let gain_shift := if gain_scale = 1 then 0 else if gain_scale = 2 then 16 else 11
    let value := Int16.ofInt (((accel.m_gain.toInt * pcm.toInt) >>> gain_shift) +
      ((coef1 * accel.m_yn1.toInt) >>> gain_shift) + ((coef2 * accel.m_yn2.toInt) >>> gain_shift))
    (value, { accel with
      m_yn2 := accel.m_yn1
      m_yn1 := value
      m_current := if decode ≠ 1 then accel.m_current + 1 else accel.m_current }, 2)

/-- at the end: back to the start, with the state of the loop, or the voice ends -/
def Accelerator.atEnd (accel : Accelerator) (pb : PBSource) : Accelerator × PBSource :=
  let accel := { accel with m_current := accel.m_start, m_reads_stopped := true }
  if pb.audio_addr.looping ≠ 0 then
    let accel := { accel with m_pred_scale := pb.adpcm_loop_info.pred_scale &&& 0x7f }
    if pb.is_stream ≠ 1 then
      ({ accel with
        m_yn1 := pb.adpcm_loop_info.yn1.toInt16
        m_yn2 := pb.adpcm_loop_info.yn2.toInt16
        m_reads_stopped := false }, pb)
    else ({ accel with m_reads_stopped := false }, pb)
  else (accel, { pb with running := 0 })

/-- the address keeps its 30 bits and its flag, and the block gets the state -/
def Accelerator.writeBack (accel : Accelerator) (pb : PBSource) : Accelerator × PBSource :=
  let accel := { accel with m_current := accel.m_current &&& 0xbfffffff }
  (accel, { pb with
    audio_addr := { pb.audio_addr with
      cur_addr_hi := (accel.m_current >>> 16).toUInt16
      cur_addr_lo := accel.m_current.toUInt16 }
    adpcm := { pb.adpcm with
      yn1 := accel.m_yn1
      yn2 := accel.m_yn2
      pred_scale := accel.m_pred_scale } })

/-- `m_pb` is the second of the two -/
def Accelerator.ReadSample (s : Accelerator × PBSource) : Int16 × Accelerator × PBSource :=
  if s.1.m_reads_stopped then (0, s)
  else
    let (value, accel, step) := s.1.decode ReadAram8 s.2
    if accel.m_current = accel.m_end + step - 1 then
      let (accel, pb) := accel.atEnd s.2
      (value, accel.writeBack pb)
    else (value, accel.writeBack s.2)

/-! ## resampling -/

variable {σ : Type}

/-- the last samples, where the next one goes, how many were read, and where the output is -/
structure Ring where
  temp : Fin 4 → Int16
  idx : Nat
  readSamples : Nat
  pos : UInt32

def Ring.at (ring : Ring) (idx : Nat) : Int16 := ring.temp (.ofNat 4 idx)

def Ring.push (ring : Ring) (value : Int16) : Ring :=
  ⟨Function.update ring.temp (.ofNat 4 ring.idx) value, ring.idx + 1, ring.readSamples + 1,
    ring.pos - 0x10000⟩

/-- samples are read until the position is in front of the next one -/
def fetch (readSample : Nat → σ → Int16 × σ) : Nat → Ring → σ → Ring × σ
  | 0, ring, s => (ring, s)
  | fuel + 1, ring, s =>
    if ring.pos ≥ 0x10000 then
      let (value, s) := readSample ring.readSamples s
      fetch readSample fuel (ring.push value) s
    else (ring, s)

/-- by the table: four samples, each with its factor -/
def polyphase (coeffs : Nat → Int16) (ring : Ring) : Int16 × Ring :=
  let fracIndex := (((ring.pos &&& 0xffff) >>> 9) <<< 2).toNat
  let c (k : Nat) := (coeffs (fracIndex + k)).toInt
  let t (k : Nat) := (ring.at (ring.idx + k)).toInt
  (ClampS16 ((t 0 * c 0 + t 1 * c 1 + t 2 * c 2 + t 3 * c 3) >>> 15), { ring with idx := ring.idx + 4 })

/-- between the two oldest samples -/
def linear (ring : Ring) : Int16 × Ring :=
  let frac := ring.pos.toUInt16
  if frac = 0 then (ring.at ring.idx, { ring with idx := ring.idx + 1 + 3 })
  else
    let s0 := (ring.at ring.idx).toInt
    let s1 := (ring.at (ring.idx + 1)).toInt
    (.ofInt ((s0 * ((-frac).toNat : Int) + s1 * (frac.toNat : Int)) >>> 16),
      { ring with idx := ring.idx + 2 + 2 })

/-- a position is at most so many samples behind -/
def kMaxFetches : Nat := 0x10000

/-- one output: the position goes on, the samples up to it are read, and some of them are used -/
def resampleStep (readSample : Nat → σ → Int16 × σ) (ratio : UInt32) (tap : Ring → Int16 × Ring) :
    Ring × σ → Int16 × Ring × σ
  | (ring, s) =>
    let (ring, s) := fetch readSample kMaxFetches { ring with pos := ring.pos + ratio } s
    let (out, ring) := tap ring
    (out, ring, s)

/-- what a resampling leaves: the outputs, the last samples, the position, and the reader -/
structure Resampled (σ : Type) where
  out : List Int16
  lastSamples : Fin 4 → Int16
  pos : UInt32
  reader : σ

def resampleLoop (readSample : Nat → σ → Int16 × σ) (count : Nat) (lastSamples : Fin 4 → Int16)
    (pos ratio : UInt32) (tap : Ring → Int16 × Ring) (s : σ) : Resampled σ :=
  let (out, ring, s) := produce (resampleStep readSample ratio tap) count (⟨lastSamples, 4, 0, pos⟩, s)
  ⟨out, fun i => ring.at (ring.idx - 4 + i), ring.pos &&& 0xffff, s⟩

def nearestStep (readSample : Nat → σ → Int16 × σ) : Nat × σ → Int16 × Nat × σ
  | (i, s) =>
    let (value, s) := readSample i s
    (value, i + 1, s)

def ResampleAudio (readSample : Nat → σ → Int16 × σ) (count : Nat) (lastSamples : Fin 4 → Int16)
    (pos ratio : UInt32) (srcType : UInt16) (coeffs : Option (Nat → Int16)) (s : σ) : Resampled σ :=
  match coeffs, srcType with
  | some coeffs, 0 => resampleLoop readSample count lastSamples pos ratio (polyphase coeffs) s
  | _, _ =>
    if srcType ≠ 0 ∧ srcType ≠ 1 then
      let (out, _, s) := produce (nearestStep readSample) count (0, s)
      let last (i : Fin 4) := out.getD (count - 4 + i) 0
      ⟨out, if count ≥ 4 then last else lastSamples, pos, s⟩
    else resampleLoop readSample count lastSamples pos ratio linear s

def kResamplingCoefficientCount : Nat := 0x800

def VoiceCoefficients (base : Option (Nat → Int16)) (coefSelect : UInt16) : Option (Nat → Int16) :=
  base.bind fun base =>
    let offset := coefSelect.toNat * 0x200
    if offset + 0x200 > kResamplingCoefficientCount then none else some fun i => base (offset + i)

/-! ## filters -/

def ClampToS16 (value : Int) : Int16 :=
  if value < -0x8000 then .ofInt (-0x8000) else if value > 0x7fff then .ofInt 0x7fff else .ofInt value

def scaled (sample : Int16) (volume : UInt16) : Int16 :=
  ClampToS16 ((sample.toInt * (volume.toNat : Int)) >>> 15)

def ScaleRamp (samples : List Int16) (volume delta : UInt16) : List Int16 × UInt16 :=
  pass (fun volume sample => (scaled sample volume, volume + delta)) volume samples

def LowPassFilter (samples : List Int16) (filter : PBLowPassFilter) : List Int16 × PBLowPassFilter :=
  pass (fun filter sample =>
    let value := ClampS16 (int32 ((filter.a0.toNat : Int) * sample.toInt +
      filter.b0.toInt * filter.yn1.toInt) >>> 15)
    (value, { filter with yn1 := value })) filter samples

def BiquadFilter (samples : List Int16) (filter : PBBiquadFilter) : List Int16 × PBBiquadFilter :=
  pass (fun filter xn0 =>
    let value := (filter.b0.toInt * xn0.toInt + filter.b1.toInt * filter.xn1.toInt +
      filter.b2.toInt * filter.xn2.toInt + filter.a1.toInt * filter.yn1.toInt +
      filter.a2.toInt * filter.yn2.toInt) * 4
    let value := value + if value / 0x10000 % 2 = 1 then 0x8000 else 0x7fff
    let yn0 := ClampS16 (value >>> 16)
    (yn0, { filter with xn2 := filter.xn1, yn2 := filter.yn1, xn1 := xn0, yn1 := yn0 }))
    filter samples

/-! ## buses -/

/-- a bus, and what the block has for it -/
structure Lane where
  out : Nat → Int32
  vd : VolumeData
  dpop : Int16

/-- the samples are added from a place on -/
def MixAddRamp (delta : UInt16) : List Int16 → Nat → Lane → Lane
  | [], _, lane => lane
  | sample :: input, i, lane =>
    let value := scaled sample lane.vd.volume
    MixAddRamp delta input (i + 1)
      ⟨Function.update lane.out i (lane.out i + Int32.ofInt value.toInt),
        { lane.vd with volume := lane.vd.volume + delta }, value⟩

def MixAdd (input : List Int16) (out : Nat) (ramp : Bool) (lane : Lane) : Lane :=
  MixAddRamp (if ramp then lane.vd.volume_delta else 0) input out lane

abbrev Buses := AxBus → Nat → Int32

abbrev AXBuffers := AxBus → Nat

/-- what is added to, and the block that the volumes are of -/
def mixBus (input : List Int16) (buffers : AXBuffers) (ramp : Bool) (bus : AxBus) :
    AXPBWii × Buses → AXPBWii × Buses
  | (pb, buses) =>
    let lane := MixAdd input (buffers bus) ramp ⟨buses bus, pb.mixer bus, pb.dpop bus⟩
    ({ pb with
      mixer := Function.update pb.mixer bus lane.vd
      dpop := Function.update pb.dpop bus lane.dpop }, Function.update buses bus lane.out)

/-- the buses of a voice, each with the bits of the mixer control that are for it -/
def mixBits : AxBus → UInt32 × UInt32
  | .MainL => (0x000001, 0x000002)
  | .MainR => (0x000004, 0x000008)
  | .MainS => (0x000010, 0x000020)
  | .AuxAL => (0x000040, 0x000080)
  | .AuxAR => (0x000100, 0x000200)
  | .AuxAS => (0x000400, 0x000800)
  | .AuxBL => (0x001000, 0x002000)
  | .AuxBR => (0x004000, 0x008000)
  | .AuxBS => (0x010000, 0x020000)
  | .AuxCL => (0x040000, 0x080000)
  | .AuxCR => (0x100000, 0x200000)
  | .AuxCS => (0x400000, 0x800000)
  | _ => (0, 0)

def regularBuses : List AxBus :=
  [.MainL, .MainR, .MainS, .AuxAL, .AuxAR, .AuxAS, .AuxBL, .AuxBR, .AuxBS, .AuxCL, .AuxCR, .AuxCS]

def wiimoteBuses : List AxBus :=
  [.Wm0Main, .Wm0Aux, .Wm1Main, .Wm1Aux, .Wm2Main, .Wm2Aux, .Wm3Main, .Wm3Aux]

def mixVoice (input : List Int16) (buffers : AXBuffers) (control : UInt32)
    (state : AXPBWii × Buses) : AXPBWii × Buses :=
  regularBuses.foldl (fun state bus =>
    if control &&& (mixBits bus).1 = 0 then state
    else mixBus input buffers (control &&& (mixBits bus).2 ≠ 0) bus state) state

def mixRemote (input : List Int16) (buffers : AXBuffers) (state : AXPBWii × Buses) :
    AXPBWii × Buses :=
  wiimoteBuses.zipIdx.foldl (fun state (bus, channel) =>
    let mode := (state.1.remote_mixer_control >>> .ofNat (channel * 2)) &&& 3
    if mode = 0 then state else mixBus input buffers (mode &&& 2 ≠ 0) bus state) state

/-- the part of a voice that goes to the remote -/
def processRemote (samples : List Int16) (buffers : AXBuffers) (count : Nat)
    (coeffs : Option (Nat → Int16)) (newFilter : Bool) (pb : AXPBWii) (buses : Buses) :
    AXPBWii × Buses :=
  let (samples, iir) :=
    if newFilter ∧ pb.remote_iir.on ≠ 0 then
      if pb.remote_iir.on = 2 then BiquadFilter samples pb.remote_iir
      else
        let (samples, lpf) := LowPassFilter samples pb.remote_iir.lpf
        (samples, pb.remote_iir.setLpf lpf)
    else (samples, pb.remote_iir)
  let wmCount := if count = kAxSamplesPerFrame then 18 else 6
  let wm := ResampleAudio (fun index (_ : Unit) => (samples.getD (min index (count - 1)) 0, ()))
    wmCount pb.remote_src.last_samples pb.remote_src.cur_addr_frac.toUInt32 0x00055555 0 coeffs ()
  mixRemote wm.out buffers
    ({ pb with remote_iir := iir, remote_src := ⟨wm.pos.toUInt16, wm.lastSamples⟩ }, buses)

/-- the filters of a voice -/
def filterVoice (newFilter : Bool) (samples : List Int16) (pb : AXPBWii) : List Int16 × AXPBWii :=
  let (samples, cur_volume) := ScaleRamp samples pb.vol_env.cur_volume.toUInt16
    pb.vol_env.cur_volume_delta.toUInt16
  let pb : AXPBWii := { pb with vol_env := { pb.vol_env with cur_volume := cur_volume.toInt16 } }
  let (samples, pb) :=
    if pb.lpf.on ≠ 0 then
      let (samples, lpf) := LowPassFilter samples pb.lpf
      (samples, { pb with lpf })
    else (samples, pb)
  if newFilter ∧ pb.biquad.on ≠ 0 then
    let (samples, biquad) := BiquadFilter samples pb.biquad
    (samples, { pb with biquad })
  else (samples, pb)

/-- `Resample`: the accelerator is set up, and read from -/
def Resample (count : Nat) (coeffs : Option (Nat → Int16)) (pb : AXPBWii) : List Int16 × AXPBWii :=
  let result := ResampleAudio (fun _ => Accelerator.ReadSample ReadAram8) count pb.src.last_samples
    pb.src.cur_addr_frac.toUInt32 (Hilo pb.src.ratio_hi pb.src.ratio_lo) pb.src_type
    (VoiceCoefficients coeffs pb.coef_select) (.Setup pb.toPBSource, pb.toPBSource)
  (result.out, { pb with
    toPBSource := result.reader.2
    src := { pb.src with
      cur_addr_frac := result.pos.toUInt16
      last_samples := result.lastSamples } })

def ProcessVoice (buffers : AXBuffers) (count : Nat) (control : UInt32)
    (coeffs : Option (Nat → Int16)) (newFilter : Bool) : AXPBWii × Buses → AXPBWii × Buses
  | (pb, buses) =>
    if pb.running ≠ 1 then (pb, buses)
    else
      let (samples, pb) := Resample ReadAram8 count coeffs pb
      let (samples, pb) := filterVoice newFilter samples pb
      let (pb, buses) := mixVoice samples buffers control (pb, buses)
      if pb.remote ≠ 0 then processRemote samples buffers count coeffs newFilter pb buses
      else (pb, buses)

def AdvanceBuffers (buffers : AXBuffers) (regular wiimote : Nat) : AXBuffers := fun bus =>
  buffers bus + if bus ∈ wiimoteBuses then wiimote else regular

def ProcessSlices (buffers : AXBuffers) (control : UInt32) (coeffs : Option (Nat → Int16))
    (newFilter : Bool) (state : AXPBWii × Buses) : AXPBWii × Buses :=
  ((List.range 3).foldl (fun (state, buffers) _ =>
    (ProcessVoice ReadAram8 buffers 32 control coeffs newFilter state, AdvanceBuffers buffers 32 6))
    (state, buffers)).1

end DolTranslator.Ax
