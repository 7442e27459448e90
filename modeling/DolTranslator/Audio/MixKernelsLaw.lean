import Mathlib
import DolTranslator.Audio.MixKernels

/-!
# Eight samples at a time are eight samples

* `lane_add_epi32`, …     the lanes of each instruction;
* `lane_scaledBlock`   the ramp is not wrapped, but its low 16 bits are those of the wrapped one;
* `vectorLoop_inv`, `vectorLoop_diverges`   the loop over whole blocks ends just when the index
  does not wrap;
* `avx2_eq_scalar`   **the kernels agree**.
-/

namespace DolTranslator.AxMixKernels

open Function Simd

/-! ## lanes of the instructions -/

section
variable {i : Nat} (hi : i < 8) (a b : M256)
include hi

theorem lane_set1_epi32 (x : BitVec 32) : lane 32 (set1_epi32 x) i = x :=
  lane_pack (fun _ => x) hi (by decide)

theorem lane_lanes_epi32 : lane 32 lanes_epi32 i = BitVec.ofNat 32 i :=
  lane_pack (fun i => BitVec.ofNat 32 i) hi (by decide)

theorem lane_add_epi32 : lane 32 (add_epi32 a b) i = lane 32 a i + lane 32 b i :=
  lane_pack (fun i => lane 32 a i + lane 32 b i) hi (by decide)

theorem lane_mullo_epi32 : lane 32 (mullo_epi32 a b) i = lane 32 a i * lane 32 b i :=
  lane_pack (fun i => lane 32 a i * lane 32 b i) hi (by decide)

theorem lane_srai_epi32 (n : Nat) : lane 32 (srai_epi32 a n) i = (lane 32 a i).sshiftRight n :=
  lane_pack (fun i => (lane 32 a i).sshiftRight n) hi (by decide)

theorem lane_max_epi32 : lane 32 (max_epi32 a b) i = maxS (lane 32 a i) (lane 32 b i) :=
  lane_pack (fun i => maxS (lane 32 a i) (lane 32 b i)) hi (by decide)

theorem lane_min_epi32 : lane 32 (min_epi32 a b) i = minS (lane 32 a i) (lane 32 b i) :=
  lane_pack (fun i => minS (lane 32 a i) (lane 32 b i)) hi (by decide)

theorem lane_cvtepi16_epi32 (c : M128) : lane 32 (cvtepi16_epi32 c) i = (lane 16 c i).signExtend 32 :=
  lane_pack (fun i => (lane 16 c i).signExtend 32) hi (by decide)

theorem lane_cvtepu16_epi32 (c : M128) : lane 32 (cvtepu16_epi32 c) i = (lane 16 c i).setWidth 32 :=
  lane_pack (fun i => (lane 16 c i).setWidth 32) hi (by decide)

theorem lane_blend_epi32 (mask : Nat) : lane 32 (blend_epi32 a b mask) i =
    if mask.testBit i then lane 32 b i else lane 32 a i :=
  lane_pack (fun i => if mask.testBit i then lane 32 b i else lane 32 a i) hi (by decide)

omit hi in
theorem lane_and_si256 : lane 32 (a &&& b) i = lane 32 a i &&& lane 32 b i := by
  apply BitVec.eq_of_getLsbD_eq
  intro p hp
  rw [BitVec.getLsbD_and, getLsbD_lane, getLsbD_lane, getLsbD_lane, BitVec.getLsbD_and]
  simp [hp]

theorem lane_packs_epi32 :
    lane 16 (packs_epi32 (lane 128 a 0) (lane 128 a 1)) i = saturate (lane 32 a i) := by
  refine (lane_pack _ hi (by decide)).trans ?_
  by_cases hlow : i < 4
  · rw [if_pos hlow]
    have hlane : lane 32 (lane (32 * 4) a 0) i = lane 32 a (4 * 0 + i) := lane_lane a 0 hlow
    rw [Nat.mul_zero, Nat.zero_add] at hlane
    exact congrArg saturate hlane
  · rw [if_neg hlow]
    have hlane : lane 32 (lane (32 * 4) a 1) (i - 4) = lane 32 a (4 * 1 + (i - 4)) :=
      lane_lane a 1 (by omega)
    rw [show 4 * 1 + (i - 4) = i by omega] at hlane
    exact congrArg saturate hlane

end

/-! ## one sample -/

theorem saturate_eq (x : BitVec 32) : saturate x = ClampToS16 x := rfl

theorem setWidth_and_wrapMask (x : BitVec 32) :
    x &&& 0xFFFF = (x.setWidth 16).setWidth 32 := by
  apply BitVec.eq_of_getLsbD_eq
  intro p hp
  have hmask : (0xFFFF : BitVec 32).getLsbD p = decide (p < 16) := by
    revert p
    decide
  rw [BitVec.getLsbD_and, BitVec.getLsbD_setWidth, BitVec.getLsbD_setWidth, hmask]
  by_cases h16 : p < 16
  · simp [h16, hp]
  · simp [h16]

/-- the ramp in the lanes of a vector is that of the scalar loop, once it is wrapped -/
def RampAt (ramp : M256) (volume delta : BitVec 16) : Prop :=
  ∀ k, k < 8 → (lane 32 ramp k).setWidth 16 = volume + BitVec.ofNat 16 k * delta

theorem setWidth_mul_ofNat (k : Nat) (delta : BitVec 16) :
    (BitVec.ofNat 32 k * delta.setWidth 32).setWidth 16 = BitVec.ofNat 16 k * delta := by
  rw [BitVec.setWidth_mul _ _ (by decide)]
  congr 1
  · apply BitVec.eq_of_toNat_eq
    simp
  · apply BitVec.eq_of_toNat_eq
    simp

theorem rampAt_first (volume delta : BitVec 16) : RampAt (firstRamp volume delta) volume delta := by
  intro k hk
  unfold firstRamp
  rw [lane_add_epi32 hk, lane_set1_epi32 hk, lane_mullo_epi32 hk, lane_lanes_epi32 hk,
    lane_set1_epi32 hk, BitVec.setWidth_add _ _ (by decide), setWidth_mul_ofNat]
  congr 1
  apply BitVec.eq_of_toNat_eq
  simp

variable {delta volume : BitVec 16} {ramp : M256}

theorem RampAt.next (h : RampAt ramp volume delta) :
    RampAt (add_epi32 ramp (blockStep delta)) (volume + BitVec.ofNat 16 8 * delta) delta := by
  intro k hk
  have height : (delta.setWidth 32 * 8).setWidth 16 = BitVec.ofNat 16 8 * delta := by
    rw [← setWidth_mul_ofNat, BitVec.mul_comm]
    rfl
  unfold blockStep
  rw [lane_add_epi32 hk, lane_set1_epi32 hk, BitVec.setWidth_add _ _ (by decide), h k hk, height,
    BitVec.add_assoc, BitVec.add_comm (BitVec.ofNat 16 k * delta), ← BitVec.add_assoc]

variable {k : Nat}

/-- **A lane is one sample of the scalar loop.** -/
theorem lane_scaledBlock (h : RampAt ramp volume delta)
    (samples : Nat → BitVec 16) (i : Nat) (hk : k < 8) :
    lane 32 (scaledBlock samples i ramp) k =
      scaled (samples (i + k)) (volume + BitVec.ofNat 16 k * delta) := by
  unfold scaledBlock scaled
  rw [lane_srai_epi32 hk, lane_mullo_epi32 hk, lane_cvtepi16_epi32 hk,
    lane_load samples i hk (by decide), lane_and_si256, lane_set1_epi32 hk,
    setWidth_and_wrapMask, h k hk]

theorem minS_maxS (x : BitVec 32) :
    minS (maxS x (-0x8000)) 0x7FFF = (ClampToS16 x).signExtend 32 := by
  have hlow : (-0x8000 : BitVec 32).toInt = -0x8000 := by decide
  have hhigh : (0x7fff : BitVec 32).toInt = 0x7fff := by decide
  unfold minS maxS ClampToS16
  by_cases h1 : x.slt (-0x8000)
  · rw [if_pos h1, if_pos h1]
    decide
  · rw [if_neg h1, if_neg h1]
    by_cases h2 : (0x7fff : BitVec 32).slt x
    · rw [if_pos h2, if_pos h2]
      decide
    · rw [if_neg h2, if_neg h2]
      rw [BitVec.slt_iff_toInt_lt, hlow] at h1
      rw [BitVec.slt_iff_toInt_lt, hhigh] at h2
      have hx : x.toNat < 2 ^ 32 := x.isLt
      have hint := BitVec.toInt_eq_toNat_cond x
      apply BitVec.eq_of_toInt_eq
      rw [BitVec.toInt_signExtend_of_le (by decide), BitVec.toInt_setWidth, Int.bmod_def]
      split at hint <;> split <;> omega

/-! ## one block -/

theorem ofNat_succ_mul (volume delta : BitVec 16) (k : Nat) :
    volume + BitVec.ofNat 16 k * delta + delta = volume + BitVec.ofNat 16 (k + 1) * delta := by
  rw [BitVec.ofNat_add, BitVec.add_mul, BitVec.add_assoc]
  congr 2
  exact (BitVec.one_mul delta).symm

def clampedBlock (input : Nat → BitVec 16) (i : Nat) (ramp : M256) : M256 :=
  min_epi32 (max_epi32 (scaledBlock input i ramp) (set1_epi32 (-0x8000))) (set1_epi32 0x7FFF)

theorem lane_clampedBlock (h : RampAt ramp volume delta)
    (input : Nat → BitVec 16) (i : Nat) (hk : k < 8) :
    lane 32 (clampedBlock input i ramp) k =
      (ClampToS16 (scaled (input (i + k)) (volume + BitVec.ofNat 16 k * delta))).signExtend 32 := by
  unfold clampedBlock
  rw [lane_min_epi32 hk, lane_max_epi32 hk, lane_set1_epi32 hk, lane_set1_epi32 hk,
    lane_scaledBlock h input i hk, minS_maxS]

theorem setWidth_signExtend (x : BitVec 16) : (x.signExtend 32).setWidth 16 = x := by
  apply BitVec.eq_of_getLsbD_eq
  intro b hb
  rw [BitVec.getLsbD_setWidth, BitVec.getLsbD_signExtend]
  have hin : b < 32 := by omega
  simp [hb, hin]

theorem mixAdd_block (h : RampAt ramp volume delta)
    (out : Nat → BitVec 32) (input : Nat → BitVec 16) (i : Nat) (last : BitVec 16)
    (hk : k ≤ 8) :
    repeated (mixAddStep input delta) k i ⟨out, volume, last⟩ =
      ⟨store out i (add_epi32 (load 256 out i 8) (clampedBlock input i ramp)) k,
        volume + BitVec.ofNat 16 k * delta,
        if k = 0 then last else (lane 32 (clampedBlock input i ramp) (k - 1)).setWidth 16⟩ := by
  induction k with
  | zero =>
    rw [store_zero, BitVec.zero_mul, BitVec.add_zero]
    rfl
  | succ k ih =>
    have hlt : k < 8 := hk
    have hlane := lane_clampedBlock h input i hlt
    rw [repeated_succ, ih (Nat.le_of_lt hlt)]
    unfold mixAddStep
    dsimp only
    rw [ofNat_succ_mul, store_of_ge _ _ _ (Nat.le_refl _), if_neg (Nat.succ_ne_zero k),
      Nat.add_sub_cancel, store_succ, lane_add_epi32 hlt, lane_load out i hlt (by decide), hlane,
      setWidth_signExtend]

theorem scale_block (h : RampAt ramp volume delta)
    (samples : Nat → BitVec 16) (i : Nat) (hk : k ≤ 8) :
    repeated (scaleStep delta) k i ⟨samples, volume⟩ =
      ⟨store samples i (packs_epi32 (lane 128 (scaledBlock samples i ramp) 0)
          (lane 128 (scaledBlock samples i ramp) 1)) k, volume + BitVec.ofNat 16 k * delta⟩ := by
  induction k with
  | zero =>
    rw [store_zero, BitVec.zero_mul, BitVec.add_zero]
    rfl
  | succ k ih =>
    have hlt : k < 8 := hk
    rw [repeated_succ, ih (Nat.le_of_lt hlt)]
    unfold scaleStep
    dsimp only
    rw [ofNat_succ_mul, store_of_ge _ _ _ (Nat.le_refl _), store_succ, lane_packs_epi32 hlt,
      lane_scaledBlock h samples i hlt, saturate_eq]

theorem setWidth_shift (p : BitVec 64) :
    (p >>> 15).setWidth 32 = (p.sshiftRight 15).setWidth 32 := by
  apply BitVec.eq_of_getLsbD_eq
  intro b hb
  have hin : 15 + b < 64 := by omega
  have hin' : b < 64 := by omega
  rw [BitVec.getLsbD_setWidth, BitVec.getLsbD_setWidth, BitVec.getLsbD_sshiftRight, BitVec.getLsbD_ushiftRight]
  simp [hin, Nat.not_le.mpr hin']

def accumulated (x : BitVec 32) (gain : BitVec 16) : BitVec 32 :=
  ((x.signExtend 64 * gain.setWidth 64).sshiftRight 15).setWidth 32

theorem product_lane (x : BitVec 32) (gain : BitVec 16) :
    ((x.signExtend 64 * (gain.setWidth 32).signExtend 64) >>> 15).setWidth 32 =
      accumulated x gain := by
  have hgain : (gain.setWidth 32).signExtend 64 = gain.setWidth 64 := by
    have hmsb : (gain.setWidth 32).msb = false := by
      rw [BitVec.msb_setWidth]
      simp
    rw [BitVec.signExtend_eq_setWidth_of_msb_false hmsb]
    apply BitVec.eq_of_toNat_eq
    rw [BitVec.toNat_setWidth, BitVec.toNat_setWidth, BitVec.toNat_setWidth]
    have hlt := gain.isLt
    omega
  rw [setWidth_shift, hgain]
  rfl

/-! ## halves of a product -/

theorem lane_zero (v : BitVec 64) : lane 32 v 0 = v.setWidth 32 := by
  apply BitVec.eq_of_getLsbD_eq
  intro b hb
  rw [getLsbD_lane, BitVec.getLsbD_setWidth]
  simp

theorem lane_one (v : BitVec 64) : lane 32 v 1 = (v >>> 32).setWidth 32 := by
  apply BitVec.eq_of_getLsbD_eq
  intro b hb
  rw [getLsbD_lane, BitVec.getLsbD_setWidth, BitVec.getLsbD_ushiftRight]

theorem lane_one_shiftLeft (v : BitVec 64) : lane 32 (v <<< 32) 1 = v.setWidth 32 := by
  apply BitVec.eq_of_getLsbD_eq
  intro b hb
  rw [getLsbD_lane, BitVec.getLsbD_setWidth, BitVec.getLsbD_shiftLeft]
  have hin : 32 + b < 64 := by omega
  have hpast : ¬ 32 + b < 32 := by omega
  simp [hin, hpast]

section
variable {j : Nat} (hj : j < 4) (a b : M256)
include hj

theorem lane_mul_epi32 : lane 64 (mul_epi32 a b) j =
    (lane 32 a (2 * j)).signExtend 64 * (lane 32 b (2 * j)).signExtend 64 :=
  lane_pack (fun i => (lane 32 a (2 * i)).signExtend 64 * (lane 32 b (2 * i)).signExtend 64) hj
    (by decide)

theorem lane_srli_epi64 (n : Nat) : lane 64 (srli_epi64 a n) j = lane 64 a j >>> n :=
  lane_pack (fun i => lane 64 a i >>> n) hj (by decide)

theorem lane_slli_epi64 (n : Nat) : lane 64 (slli_epi64 a n) j = lane 64 a j <<< n :=
  lane_pack (fun i => lane 64 a i <<< n) hj (by decide)

omit hj in
theorem lane_half (i : Nat) (hi : i < 2) : lane 32 (lane 64 a j) i = lane 32 a (2 * j + i) :=
  lane_lane (w := 32) a j hi

theorem lane_moved : lane 32 (srli_epi64 a 32) (2 * j) = lane 32 a (2 * j + 1) := by
  have hdown : lane 32 (lane 64 (srli_epi64 a 32) j) 0 = lane 32 (srli_epi64 a 32) (2 * j) :=
    lane_half _ 0 (by decide)
  rw [← hdown, lane_srli_epi64 hj, lane_zero, ← lane_one, lane_half a 1 (by decide)]

theorem lane_shiftedProduct : lane 64 (srli_epi64 (mul_epi32 a b) 15) j =
    ((lane 32 a (2 * j)).signExtend 64 * (lane 32 b (2 * j)).signExtend 64) >>> 15 := by
  rw [lane_srli_epi64 hj, lane_mul_epi32 hj]

end

def accumResult (source gain : M256) : M256 :=
  blend_epi32 (srli_epi64 (mul_epi32 source gain) 15)
    (slli_epi64 (srli_epi64 (mul_epi32 (srli_epi64 source 32) (srli_epi64 gain 32)) 15) 32) 0xAA

theorem lane_accumResult {source gain : M256} {src : Nat → BitVec 32} {ramp : Nat → BitVec 16}
    {i : Nat} (hsource : ∀ k, k < 8 → lane 32 source k = src (i + k))
    (hgain : ∀ k, k < 8 → lane 32 gain k = (ramp (i + k)).setWidth 32) (hk : k < 8) :
    lane 32 (accumResult source gain) k = accumulated (src (i + k)) (ramp (i + k)) := by
  unfold accumResult
  rw [lane_blend_epi32 hk]
  obtain ⟨j, rfl | rfl⟩ : ∃ j, k = 2 * j ∨ k = 2 * j + 1 := ⟨k / 2, by omega⟩
  · have hj : j < 4 := by omega
    have heven : ∀ j, j < 4 → Nat.testBit 0xAA (2 * j) = false := by decide
    rw [heven j hj, if_neg Bool.false_ne_true]
    have hhalf := lane_half (j := j) (srli_epi64 (mul_epi32 source gain) 15) 0 (by decide)
    rw [Nat.add_zero] at hhalf
    rw [← hhalf, lane_zero, lane_shiftedProduct hj, hsource _ hk, hgain _ hk]
    exact product_lane _ _
  · have hj : j < 4 := by omega
    have hodd : ∀ j, j < 4 → Nat.testBit 0xAA (2 * j + 1) = true := by decide
    rw [hodd j hj, if_pos rfl]
    rw [← lane_half _ 1 (by decide), lane_slli_epi64 hj, lane_one_shiftLeft,
      lane_shiftedProduct hj, lane_moved hj, lane_moved hj, hsource _ hk, hgain _ hk]
    exact product_lane _ _

theorem accum_block (dst src : Nat → BitVec 32) (ramp : Nat → BitVec 16) (i : Nat)
    (hk : k ≤ 8) :
    repeated (accumStep src ramp) k i dst = store dst i (add_epi32 (load 256 dst i 8)
      (accumResult (load 256 src i 8) (cvtepu16_epi32 (load 128 ramp i 8)))) k := by
  have hsource : ∀ k, k < 8 → lane 32 (load 256 src i 8 : M256) k = src (i + k) :=
    fun k hk => lane_load src i hk (by decide)
  have hgain : ∀ k, k < 8 →
      lane 32 (cvtepu16_epi32 (load 128 ramp i 8)) k = (ramp (i + k)).setWidth 32 := by
    intro k hk
    rw [lane_cvtepu16_epi32 hk]
    exact congrArg _ (lane_load ramp i hk (by decide))
  induction k with
  | zero => exact (store_zero _ _ _).symm
  | succ k ih =>
    have hlt : k < 8 := hk
    rw [repeated_succ, ih (Nat.le_of_lt hlt)]
    unfold accumStep
    rw [store_of_ge _ _ _ (Nat.le_refl _), store_succ, lane_add_epi32 hlt,
      lane_load dst i hlt (by decide), lane_accumResult hsource hgain hlt]
    rfl

section
variable {σ : Type} {count : BitVec 32} {body : Nat → σ → σ}

theorem vectorLoop_inv (hcount : count.toNat < 2 ^ 32 - 8) {P : Nat → σ → Prop}
    (hbody : ∀ i s, P i s → P (i + 8) (body i s)) {i : BitVec 32} {s : σ}
    (hi : i.toNat ≤ count.toNat) (hP : P i.toNat s) :
    ∃ fuel i' s', vectorLoop count body fuel i s = some (i', s') ∧ i'.toNat ≤ count.toNat ∧
      P i'.toNat s' := by
  have hsum : (i + 8).toNat = i.toNat + 8 := by
    rw [BitVec.toNat_add]
    have height : (8 : BitVec 32).toNat = 8 := rfl
    omega
  by_cases hmore : i.toNat + 8 ≤ count.toNat
  · have hnext := hbody _ _ hP
    rw [← hsum] at hnext hmore
    obtain ⟨fuel, i', s', hloop, hle, hP'⟩ := vectorLoop_inv hcount hbody hmore hnext
    refine ⟨fuel + 1, i', s', ?_, hle, hP'⟩
    show (if i + 8 ≤ count then _ else _) = _
    rw [if_pos (BitVec.le_def.mpr hmore)]
    exact hloop
  · refine ⟨1, i, s, ?_, hi, hP⟩
    show (if i + 8 ≤ count then _ else _) = _
    rw [if_neg (fun hle => hmore (hsum ▸ BitVec.le_def.mp hle))]
termination_by count.toNat - i.toNat
decreasing_by omega

theorem vectorLoop_diverges (hcount : 2 ^ 32 - 8 ≤ count.toNat) (fuel : Nat) {i : BitVec 32} {s : σ}
    (hi : i.toNat % 8 = 0) : vectorLoop count body fuel i s = none := by
  induction fuel generalizing i s with
  | zero => rfl
  | succ fuel ih =>
    have hlt := i.isLt
    have hsum : (i + 8).toNat = (i.toNat + 8) % 2 ^ 32 := by
      rw [BitVec.toNat_add]
      rfl
    show (if i + 8 ≤ count then _ else _) = _
    rw [if_pos (BitVec.le_def.mpr (by omega))]
    apply ih
    omega

end

/-! ## the ramp kernels -/

variable {count : BitVec 32}

theorem scalarLoop_repeated {σ : Type} {i : BitVec 32} (step : Nat → σ → σ) (s : σ)
    (hi : i.toNat ≤ count.toNat) :
    scalarLoop count step i (repeated step i.toNat 0 s) = scalarLoop count step 0 s := by
  have hsum := repeated_add step i.toNat (count.toNat - i.toNat) 0 s
  rw [Nat.zero_add, Nat.add_sub_cancel' hi] at hsum
  exact hsum.symm

theorem RampAt.zero (h : RampAt ramp volume delta) :
    (lane 32 ramp 0).setWidth 16 = volume := by
  rw [h 0 (by decide), BitVec.zero_mul, BitVec.add_zero]

theorem MixAddRampAvx2_eq (hcount : count.toNat < 2 ^ 32 - 8)
    (out : Nat → BitVec 32) (input : Nat → BitVec 16) (volume delta dpop : BitVec 16) :
    ∃ fuel, MixAddRampAvx2 fuel out input count volume delta dpop =
      some (MixAddRampScalar out input count volume delta dpop) := by
  let run := fun i => repeated (mixAddStep input delta) i 0 ⟨out, volume, dpop⟩
  -- what a vector holds before block `i` is what the scalar loop holds there
  let P : Nat → MixVectors → Prop := fun i s => s.out = (run i).out ∧
    RampAt s.ramp (run i).volume delta ∧
    (i ≠ 0 → (lane 32 s.lastBlock 7).setWidth 16 = (run i).last)
  have hbody : ∀ i s, P i s → P (i + 8) (mixAddBlock input delta i s) := by
    rintro i s ⟨hout, hramp, -⟩
    have hblock := mixAdd_block hramp (run i).out input i (run i).last (Nat.le_refl 8)
    have hrun : run (i + 8) = repeated (mixAddStep input delta) 8 i (run i) := by
      show repeated _ (i + 8) 0 _ = _
      rw [repeated_add, Nat.zero_add]
    refine ⟨?_, ?_, fun _ => ?_⟩
    · rw [hrun, hblock, ← hout]
      rfl
    · rw [hrun, hblock]
      exact hramp.next
    · rw [hrun, hblock]
      rfl
  by_cases height : 8 ≤ count
  · obtain ⟨fuel, i, s, hloop, hi, hout, hramp, hlast⟩ :=
      vectorLoop_inv hcount (P := P) hbody (i := 0) (s := ⟨out, firstRamp volume delta, 0⟩)
        (Nat.zero_le _) ⟨rfl, rampAt_first volume delta, fun h => absurd rfl h⟩
    refine ⟨fuel, ?_⟩
    unfold MixAddRampAvx2
    rw [if_pos height, hloop]
    apply congrArg some
    dsimp only
    by_cases hzero : i = 0
    · subst hzero
      rw [if_neg (fun h => h rfl), hout]
      rfl
    · have hne : i.toNat ≠ 0 := fun h => hzero (BitVec.eq_of_toNat_eq h)
      rw [if_pos hzero, hout, hramp.zero, hlast hne]
      exact scalarLoop_repeated _ _ hi
  · refine ⟨0, ?_⟩
    unfold MixAddRampAvx2
    rw [if_neg height]
    rfl

theorem ScaleRampAvx2_eq (hcount : count.toNat < 2 ^ 32 - 8)
    (samples : Nat → BitVec 16) (volume delta : BitVec 16) :
    ∃ fuel, ScaleRampAvx2 fuel samples count volume delta =
      some (ScaleRampScalar samples count volume delta) := by
  let run := fun i => repeated (scaleStep delta) i 0 ⟨samples, volume⟩
  let P : Nat → ScaleVectors → Prop := fun i s => s.samples = (run i).samples ∧
    RampAt s.ramp (run i).volume delta
  have hbody : ∀ i s, P i s → P (i + 8) (scaleBlock delta i s) := by
    rintro i s ⟨hsamples, hramp⟩
    have hblock := scale_block hramp (run i).samples i (Nat.le_refl 8)
    have hrun : run (i + 8) = repeated (scaleStep delta) 8 i (run i) := by
      show repeated _ (i + 8) 0 _ = _
      rw [repeated_add, Nat.zero_add]
    refine ⟨?_, ?_⟩
    · rw [hrun, hblock, ← hsamples]
      rfl
    · rw [hrun, hblock]
      exact hramp.next
  by_cases height : 8 ≤ count
  · obtain ⟨fuel, i, s, hloop, hi, hsamples, hramp⟩ :=
      vectorLoop_inv hcount (P := P) hbody (i := 0) (s := ⟨samples, firstRamp volume delta⟩)
        (Nat.zero_le _) ⟨rfl, rampAt_first volume delta⟩
    refine ⟨fuel, ?_⟩
    unfold ScaleRampAvx2
    rw [if_pos height, hloop]
    apply congrArg some
    dsimp only
    by_cases hzero : i = 0
    · subst hzero
      rw [if_neg (fun h => h rfl), hsamples]
      rfl
    · rw [if_pos hzero, hsamples, hramp.zero]
      exact scalarLoop_repeated _ _ hi
  · refine ⟨0, ?_⟩
    unfold ScaleRampAvx2
    rw [if_neg height]
    rfl

theorem MixAccumRamp32Avx2_eq (hcount : count.toNat < 2 ^ 32 - 8)
    (dst src : Nat → BitVec 32) (ramp : Nat → BitVec 16) :
    ∃ fuel, MixAccumRamp32Avx2 fuel dst src ramp count =
      some (MixAccumRamp32Scalar dst src ramp count) := by
  let P : Nat → (Nat → BitVec 32) → Prop := fun i d => d = repeated (accumStep src ramp) i 0 dst
  have hbody : ∀ i d, P i d → P (i + 8) (accumBlock src ramp i d) := by
    rintro i d rfl
    show _ = repeated _ (i + 8) 0 dst
    rw [repeated_add, Nat.zero_add, accum_block _ src ramp i (Nat.le_refl 8)]
    rfl
  obtain ⟨fuel, i, d, hloop, hi, rfl⟩ :=
    vectorLoop_inv hcount (P := P) hbody (i := 0) (s := dst) (Nat.zero_le _) rfl
  refine ⟨fuel, ?_⟩
  unfold MixAccumRamp32Avx2
  rw [hloop]
  exact congrArg some (scalarLoop_repeated _ _ hi)

/-! ## the buffers of the guest -/

theorem StoreBigEndian32Scalar_apply (dst : Nat → BitVec 8) (src : Nat → BitVec 32) (count p : Nat) :
    StoreBigEndian32Scalar dst src count p =
      if p < 4 * count then lane 8 (src (p / 4)) (3 - p % 4) else dst p := by
  apply repeated_blocks (f := fun p => lane 8 (src (p / 4)) (3 - p % 4))
  · intro i a p hle hlt
    have hdiv : p / 4 = i := by omega
    have hmod : p - 4 * i = p % 4 := by omega
    unfold Write32
    rw [if_pos ⟨hle, hlt⟩, hdiv, hmod]
  · intro i a p hout
    exact if_neg hout

theorem LoadBigEndian32Scalar_apply (dst : Nat → BitVec 32) (src : Nat → BitVec 8) (count j : Nat) :
    LoadBigEndian32Scalar dst src count j = if j < count then Read32 src (4 * j) else dst j := by
  have hblocks := repeated_blocks (m := 1) (f := fun j => Read32 src (4 * j))
    (g := fun i dst => update dst i (Read32 src (4 * i)))
    (fun i a j hle hlt => by
      obtain rfl : j = i := by omega
      exact update_self _ _ _)
    (fun i a j hout => update_of_ne (by omega) _ _) count dst j
  rwa [Nat.one_mul] at hblocks

theorem lane_byteSwap (v : M256) {p : Nat} (hp : p < 32) :
    lane 8 (shuffle_epi8 v ByteSwapMask32) p = lane 8 v (4 * (p / 4) + (3 - p % 4)) := by
  have hmask : lane 8 ByteSwapMask32 p = BitVec.ofNat 8 (4 * (p % 16 / 4) + (3 - p % 4)) :=
    lane_pack (fun i => BitVec.ofNat 8 (4 * (i % 16 / 4) + (3 - i % 4))) hp (by decide)
  unfold shuffle_epi8
  rw [lane_pack _ hp (by decide), hmask]
  have hsmall : 4 * (p % 16 / 4) + (3 - p % 4) < 16 := by omega
  have hval : (BitVec.ofNat 8 (4 * (p % 16 / 4) + (3 - p % 4))).toNat =
      4 * (p % 16 / 4) + (3 - p % 4) := by
    rw [BitVec.toNat_ofNat]
    omega
  have hmsb : (BitVec.ofNat 8 (4 * (p % 16 / 4) + (3 - p % 4))).msb = false := by
    rw [BitVec.msb_eq_decide, hval]
    simp
    omega
  rw [hmsb, if_neg Bool.false_ne_true, hval, Nat.mod_eq_of_lt hsmall]
  congr 1
  omega

theorem storedBlock (src : Nat → BitVec 32) (i : Nat) {p : Nat} (hp : p < 32) :
    lane 8 (shuffle_epi8 (load 256 src i 8) ByteSwapMask32) p =
      lane 8 (src (i + p / 4)) (3 - p % 4) := by
  have hword : p / 4 < 8 := by omega
  rw [lane_byteSwap _ hp, ← lane_load (n := 256) src i hword (by decide)]
  exact (lane_lane (w := 8) (m := 4) (load 256 src i 8 : M256) (p / 4) (by omega)).symm

theorem lane_Read32 (src : Nat → BitVec 8) (at_ : Nat) {b : Nat} (hb : b < 4) :
    lane 8 (Read32 src at_) b = src (at_ + 3 - b) :=
  lane_pack (fun b => src (at_ + 3 - b)) hb (by decide)

theorem loadedBlock (src : Nat → BitVec 8) (i : Nat) (hk : k < 8) :
    lane 32 (shuffle_epi8 (load 256 src i 32) ByteSwapMask32) k = Read32 src (i + 4 * k) := by
  apply eq_of_lanes (w := 8) (k := 4) rfl
  intro b hb
  have hbyte : lane 8 (lane 32 (shuffle_epi8 (load 256 src i 32) ByteSwapMask32) k) b =
      lane 8 (shuffle_epi8 (load 256 src i 32) ByteSwapMask32) (4 * k + b) :=
    lane_lane (w := 8) (m := 4) _ k hb
  have hplace : 4 * ((4 * k + b) / 4) + (3 - (4 * k + b) % 4) < 32 := by omega
  rw [hbyte, lane_byteSwap _ (by omega), lane_load src i hplace (by decide), lane_Read32 _ _ hb]
  congr 1
  omega

theorem StoreBigEndian32Avx2_eq (dst : Nat → BitVec 8) (src : Nat → BitVec 32) (count : Nat) :
    StoreBigEndian32Avx2 dst src count = StoreBigEndian32Scalar dst src count := by
  have hblocks := repeated_blocks (m := 32) (f := fun p => lane 8 (src (p / 4)) (3 - p % 4))
    (g := fun block dst =>
      store dst (32 * block) (shuffle_epi8 (load 256 src (8 * block) 8) ByteSwapMask32) 32)
    (fun n a p hle hlt => by
      have hword : 8 * n + (p - 32 * n) / 4 = p / 4 := by omega
      have hbyte : (p - 32 * n) % 4 = p % 4 := by omega
      refine (if_pos ⟨hle, hlt⟩).trans ?_
      rw [storedBlock src _ (by omega), hword, hbyte])
    (fun n a p hout => if_neg hout)
  funext p
  unfold StoreBigEndian32Avx2 shifted
  dsimp only
  rw [StoreBigEndian32Scalar_apply, StoreBigEndian32Scalar_apply]
  by_cases hp : p < 4 * (8 * (count / 8))
  · rw [if_pos hp, hblocks, if_pos (by omega), if_pos (by omega)]
  · rw [if_neg hp]
    by_cases htail : p < 4 * count
    · have hword : 8 * (count / 8) + (p - 4 * (8 * (count / 8))) / 4 = p / 4 := by omega
      have hbyte : (p - 4 * (8 * (count / 8))) % 4 = p % 4 := by omega
      rw [if_pos (by omega), if_pos htail, hword, hbyte]
    · have hplace : 4 * (8 * (count / 8)) + (p - 4 * (8 * (count / 8))) = p := by omega
      rw [if_neg (by omega), if_neg htail, hplace, hblocks, if_neg (by omega)]

theorem LoadBigEndian32Avx2_eq (dst : Nat → BitVec 32) (src : Nat → BitVec 8) (count : Nat) :
    LoadBigEndian32Avx2 dst src count = LoadBigEndian32Scalar dst src count := by
  have hblocks := repeated_blocks (m := 8) (f := fun j => Read32 src (4 * j))
    (g := fun block dst =>
      store dst (8 * block) (shuffle_epi8 (load 256 src (32 * block) 32) ByteSwapMask32) 8)
    (fun n a j hle hlt => by
      have hplace : 32 * n + 4 * (j - 8 * n) = 4 * j := by omega
      refine (if_pos ⟨hle, hlt⟩).trans ?_
      rw [loadedBlock src _ (by omega), hplace])
    (fun n a j hout => if_neg hout)
  funext j
  unfold LoadBigEndian32Avx2 shifted
  dsimp only
  rw [LoadBigEndian32Scalar_apply, LoadBigEndian32Scalar_apply]
  by_cases hj : j < 8 * (count / 8)
  · rw [if_pos hj, hblocks, if_pos hj, if_pos (by omega)]
  · rw [if_neg hj]
    by_cases htail : j < count
    · have hread : Read32 (fun p => src (4 * (8 * (count / 8)) + p))
          (4 * (j - 8 * (count / 8))) = Read32 src (4 * j) := by
        apply eq_of_lanes (w := 8) (k := 4) rfl
        intro b hb
        rw [lane_Read32 _ _ hb, lane_Read32 _ _ hb]
        congr 1
        omega
      rw [if_pos (by omega), if_pos htail, hread]
    · have hplace : 8 * (count / 8) + (j - 8 * (count / 8)) = j := by omega
      rw [if_neg (by omega), if_neg htail, hplace, hblocks, if_neg hj]

/-- **The vector kernels are the scalar ones**, for every number of samples that the index of a
vector loop can pass. -/
theorem avx2_eq_scalar (count : BitVec 32) (hcount : count.toNat < 2 ^ 32 - 8)
    (out dst src : Nat → BitVec 32) (input samples ramp : Nat → BitVec 16)
    (volume delta dpop : BitVec 16) (bytes : Nat → BitVec 8) (words : Nat) :
    (∃ fuel, MixAddRampAvx2 fuel out input count volume delta dpop =
      some (MixAddRampScalar out input count volume delta dpop)) ∧
    (∃ fuel, ScaleRampAvx2 fuel samples count volume delta =
      some (ScaleRampScalar samples count volume delta)) ∧
    (∃ fuel, MixAccumRamp32Avx2 fuel dst src ramp count =
      some (MixAccumRamp32Scalar dst src ramp count)) ∧
    StoreBigEndian32Avx2 bytes src words = StoreBigEndian32Scalar bytes src words ∧
    LoadBigEndian32Avx2 dst bytes words = LoadBigEndian32Scalar dst bytes words :=
  ⟨MixAddRampAvx2_eq hcount out input volume delta dpop,
    ScaleRampAvx2_eq hcount samples volume delta, MixAccumRamp32Avx2_eq hcount dst src ramp,
    StoreBigEndian32Avx2_eq bytes src words, LoadBigEndian32Avx2_eq dst bytes words⟩

/-- a block and three samples more, the ramp wrapping on the way -/
theorem avx2_eq_scalar_eleven :
    (∃ fuel, MixAddRampAvx2 fuel (fun _ => 0x7FFFFFFF) (fun _ => 0x8000) 11 0xFFF0 0x7 0x1 =
      some (MixAddRampScalar (fun _ => 0x7FFFFFFF) (fun _ => 0x8000) 11 0xFFF0 0x7 0x1)) ∧
    (∃ fuel, ScaleRampAvx2 fuel (fun _ => 0x7FFF) 11 0xFFF0 0x7 =
      some (ScaleRampScalar (fun _ => 0x7FFF) 11 0xFFF0 0x7)) ∧
    (∃ fuel, MixAccumRamp32Avx2 fuel (fun _ => 1) (fun _ => 0x80000000) (fun _ => 0xFFFF) 11 =
      some (MixAccumRamp32Scalar (fun _ => 1) (fun _ => 0x80000000) (fun _ => 0xFFFF) 11)) ∧
    StoreBigEndian32Avx2 (fun _ => 0) (fun _ => 0x80000000) 9 =
      StoreBigEndian32Scalar (fun _ => 0) (fun _ => 0x80000000) 9 ∧
    LoadBigEndian32Avx2 (fun _ => 1) (fun _ => 0) 9 =
      LoadBigEndian32Scalar (fun _ => 1) (fun _ => 0) 9 :=
  avx2_eq_scalar 11 (by decide) (fun _ => 0x7FFFFFFF) (fun _ => 1) (fun _ => 0x80000000)
    (fun _ => 0x8000) (fun _ => 0x7FFF) (fun _ => 0xFFFF) 0xFFF0 0x7 0x1 (fun _ => 0) 9

/-- with eight samples less than 2^32, the index comes to 0 again -/
theorem avx2_diverges : ¬ ∃ fuel, MixAddRampAvx2 fuel (fun _ => 0) (fun _ => 0) 0xFFFFFFF8 0 0 0 =
    some (MixAddRampScalar (fun _ => 0) (fun _ => 0) 0xFFFFFFF8 0 0 0) := by
  rintro ⟨fuel, hreturns⟩
  unfold MixAddRampAvx2 at hreturns
  rw [if_pos (by decide), vectorLoop_diverges (by decide) fuel (by decide)] at hreturns
  cases hreturns

end DolTranslator.AxMixKernels
