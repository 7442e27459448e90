import DolTranslator.Audio.Voice

/-!
# A voice in slices

Everything that a voice carries from sample to sample is in its parameter block, in the same form
after any number of samples.

* `Carried`   an accelerator that is built from the block is the one that wrote it, as
  long as the voice runs;
* `Ring.Same`   two rings that hold the same samples; `resampleAudio_add`;
* `splits_filtered`   the filters over two parts of the samples;
* `processVoice_eq`   what a voice without a remote does, field by field;
* `slices_eq_whole`   a frame in three milliseconds.
-/

namespace DolTranslator.Ax

open Streams

variable {R : UInt32 → UInt8} {σ : Type} {accel : Accelerator} {pb : PBSource}

/-! ## the accelerator -/

theorem Hilo_halves (x : UInt32) : Hilo (x >>> 16).toUInt16 x.toUInt16 = x := by
  apply UInt32.toBitVec_inj.mp
  show (((x.toBitVec >>> 16).setWidth 16).setWidth 32 <<< 16) |||
    ((x.toBitVec.setWidth 16).setWidth 32) = _
  ext i hi
  rw [BitVec.getElem_or, BitVec.getElem_shiftLeft, BitVec.getElem_setWidth]
  by_cases h : i < 16
  · simp [h, BitVec.getLsbD_eq_getElem hi]
  · have hshift : 16 + (i - 16) = i := by omega
    simp [h, hshift, BitVec.getLsbD_eq_getElem hi]
    omega

/-- what the accelerator keeps of the block that it was built from -/
structure Holds (accel : Accelerator) (pb : PBSource) : Prop where
  start : accel.m_start = (Accelerator.Setup pb).m_start
  stop : accel.m_end = (Accelerator.Setup pb).m_end
  format : accel.m_format = pb.audio_addr.sample_format
  gain : accel.m_gain = pb.adpcm.gain.toInt16
  scale : accel.m_pred_scale &&& 0x7f = accel.m_pred_scale

theorem masked_scale (x : UInt16) : x &&& 0x7f &&& 0x7f = x &&& 0x7f := by
  rw [UInt16.and_assoc, UInt16.and_self]

theorem holds_Setup (pb : PBSource) : Holds (.Setup pb) pb :=
  ⟨rfl, rfl, rfl, rfl, masked_scale _⟩

theorem Holds.advanceAdpcm (h : Holds accel pb) : Holds (accel.advanceAdpcm R).1 pb ∧
    (accel.advanceAdpcm R).1.m_reads_stopped = accel.m_reads_stopped := by
  obtain ⟨hstart, hstop, hformat, hgain, hscale⟩ := h
  unfold Accelerator.advanceAdpcm
  simp only
  split
  · exact ⟨⟨hstart, hstop, hformat, hgain, hscale⟩, rfl⟩
  · split
    · exact ⟨⟨hstart, hstop, hformat, hgain, hscale⟩, rfl⟩
    · split
      · exact ⟨⟨hstart, hstop, hformat, hgain, masked_scale _⟩, rfl⟩
      · exact ⟨⟨hstart, hstop, hformat, hgain, hscale⟩, rfl⟩

theorem Holds.decode (h : Holds accel pb) : Holds (accel.decode R pb).2.1 pb ∧
    (accel.decode R pb).2.1.m_reads_stopped = accel.m_reads_stopped := by
  obtain ⟨hstart, hstop, hformat, hgain, hscale⟩ := h
  unfold Accelerator.decode
  simp only
  split
  · exact Holds.advanceAdpcm ⟨hstart, hstop, hformat, hgain, hscale⟩
  · exact ⟨⟨hstart, hstop, hformat, hgain, hscale⟩, rfl⟩

theorem Holds.atEnd (h : Holds accel pb) (hrunning : (accel.atEnd pb).2.running = 1) :
    Holds (accel.atEnd pb).1 pb ∧ (accel.atEnd pb).1.m_reads_stopped = false ∧
      (accel.atEnd pb).2 = pb := by
  obtain ⟨hstart, hstop, hformat, hgain, hscale⟩ := h
  unfold Accelerator.atEnd at *
  simp only at *
  split at hrunning
  · next hlooping =>
    rw [if_pos hlooping]
    split
    · exact ⟨⟨hstart, hstop, hformat, hgain, masked_scale _⟩, rfl, rfl⟩
    · exact ⟨⟨hstart, hstop, hformat, hgain, masked_scale _⟩, rfl, rfl⟩
  · cases hrunning

theorem Holds.writeBack (h : Holds accel pb) (hreads : accel.m_reads_stopped = false) :
    (accel.writeBack pb).1 = .Setup (accel.writeBack pb).2 := by
  obtain ⟨hstart, hstop, hformat, hgain, hscale⟩ := h
  obtain ⟨start, stop, current, format, gain, yn1, yn2, scale, stopped⟩ := accel
  simp only at hstart hstop hformat hgain hscale hreads
  subst hstart hstop hformat hgain hreads
  unfold Accelerator.writeBack Accelerator.Setup
  simp only [Accelerator.mk.injEq, true_and, and_true]
  refine ⟨?_, hscale.symm⟩
  rw [Hilo_halves, UInt32.and_assoc, UInt32.and_self]

/-- a voice that runs has the accelerator that its block is set up to -/
def Carried (s : Accelerator × PBSource) : Prop := s.2.running = 1 → s.1 = .Setup s.2

theorem ReadSample_running {s : Accelerator × PBSource}
    (h : (Accelerator.ReadSample R s).2.2.running = 1) : s.2.running = 1 := by
  unfold Accelerator.ReadSample at h
  split at h
  · exact h
  · simp only at h
    split at h
    · unfold Accelerator.atEnd at h
      simp only at h
      split at h
      · split at h <;> exact h
      · cases h
    · exact h

theorem ReadSample_reads {s : Accelerator × PBSource} (h : s.1.m_reads_stopped = false) :
    Accelerator.ReadSample R s =
      let accel := (s.1.decode R s.2).2.1
      ((s.1.decode R s.2).1,
        if accel.m_current = accel.m_end + (s.1.decode R s.2).2.2 - 1 then
          (accel.atEnd s.2).1.writeBack (accel.atEnd s.2).2
        else accel.writeBack s.2) := by
  unfold Accelerator.ReadSample
  rw [h, if_neg Bool.false_ne_true]
  simp only
  split <;> rfl

theorem carried_ReadSample {s : Accelerator × PBSource} (h : Carried s) :
    Carried (Accelerator.ReadSample R s).2 := by
  intro hrunning
  obtain ⟨accel, pb⟩ := s
  have hsetup : accel = .Setup pb := h (ReadSample_running hrunning)
  subst hsetup
  obtain ⟨hdecode, hstopped⟩ := (holds_Setup pb).decode (R := R)
  rw [ReadSample_reads rfl] at hrunning ⊢
  simp only at hrunning ⊢
  split at hrunning
  · next hend =>
    rw [if_pos hend]
    obtain ⟨hend, hgoes, hsame⟩ := hdecode.atEnd hrunning
    rw [hsame]
    exact hend.writeBack hgoes
  · next hend =>
    rw [if_neg hend]
    exact hdecode.writeBack hstopped

/-! ## rings -/

/-- they hold the same samples, from the oldest on, and are at the same place -/
structure Ring.Same (ring ring' : Ring) : Prop where
  pos : ring.pos = ring'.pos
  samples : ∀ i, ring.at (ring.idx + i) = ring'.at (ring'.idx + i)

/-- a ring between two outputs -/
structure Ring.Settled (ring : Ring) : Prop where
  idx : 4 ≤ ring.idx
  pos : ring.pos < 0x10000

theorem at_push (ring : Ring) (value : Int16) (i : Nat) :
    (ring.push value).at ((ring.push value).idx + i) =
      if i % 4 = 3 then value else ring.at (ring.idx + (1 + i)) := by
  have hplace : (ring.push value).idx + i = ring.idx + (1 + i) := Nat.add_assoc ..
  rw [hplace]
  show Function.update ring.temp (.ofNat 4 ring.idx) value (.ofNat 4 (ring.idx + (1 + i))) = _
  by_cases hi : i % 4 = 3
  · rw [if_pos hi, show Fin.ofNat 4 (ring.idx + (1 + i)) = Fin.ofNat 4 ring.idx from
      Fin.ext (by show (ring.idx + (1 + i)) % 4 = ring.idx % 4; omega), Function.update_self]
  · rw [if_neg hi, Function.update_of_ne]
    · rfl
    · intro heq
      have hmod : (ring.idx + (1 + i)) % 4 = ring.idx % 4 := congrArg Fin.val heq
      omega

variable {ring ring' : Ring}

theorem Ring.Same.push (h : ring.Same ring') (value : Int16) :
    (ring.push value).Same (ring'.push value) := by
  refine ⟨congrArg (· - 0x10000) h.pos, fun i => ?_⟩
  rw [at_push, at_push, h.samples]

theorem fetch_same (read : σ → Int16 × σ) (fuel : Nat) (h : ring.Same ring')
    (s : σ) : (fetch (fun _ => read) fuel ring s).1.Same (fetch (fun _ => read) fuel ring' s).1 ∧
      (fetch (fun _ => read) fuel ring s).2 = (fetch (fun _ => read) fuel ring' s).2 := by
  induction fuel generalizing ring ring' s with
  | zero => exact ⟨h, rfl⟩
  | succ fuel ih =>
    unfold fetch
    by_cases hpos : ring.pos ≥ 0x10000
    · rw [if_pos hpos, if_pos (h.pos ▸ hpos)]
      exact ih (h.push (read s).1) (read s).2
    · rw [if_neg hpos, if_neg (h.pos ▸ hpos)]
      exact ⟨h, rfl⟩

theorem fetch_settled (readSample : Nat → σ → Int16 × σ) {fuel : Nat}
    (hidx : 4 ≤ ring.idx) (hfuel : ring.pos.toNat < 0x10000 * (fuel + 1)) (s : σ) :
    (fetch readSample fuel ring s).1.Settled := by
  induction fuel generalizing ring s with
  | zero => exact ⟨hidx, hfuel⟩
  | succ fuel ih =>
    unfold fetch
    split
    · next hpos =>
      have hsub : (ring.pos - 0x10000).toNat = ring.pos.toNat - 0x10000 :=
        UInt32.toNat_sub_of_le _ _ hpos
      apply ih (Nat.le_succ_of_le hidx)
      show (ring.pos - 0x10000).toNat < _
      omega
    · next hpos => exact ⟨hidx, UInt32.not_le.mp hpos⟩

/-- what becomes of a ring for an output: the samples and the place stay -/
structure Taps (tap : Ring → Int16 × Ring) : Prop where
  same : ∀ ring ring', ring.Same ring' →
    (tap ring).1 = (tap ring').1 ∧ (tap ring).2.Same (tap ring').2
  settled : ∀ ring, ring.Settled → (tap ring).2.Settled

theorem Ring.Same.turned (h : ring.Same ring') :
    ({ ring with idx := ring.idx + 4 } : Ring).Same { ring' with idx := ring'.idx + 4 } := by
  refine ⟨h.pos, fun i => ?_⟩
  show ring.at (ring.idx + 4 + i) = ring'.at (ring'.idx + 4 + i)
  rw [Nat.add_assoc, Nat.add_assoc, h.samples]

theorem taps_polyphase (coeffs : Nat → Int16) : Taps (polyphase coeffs) := by
  constructor
  · intro ring ring' h
    refine ⟨?_, h.turned⟩
    unfold polyphase
    simp only [h.samples, h.pos]
  · intro ring h
    exact ⟨Nat.le_add_right_of_le h.idx, h.pos⟩

theorem taps_linear : Taps linear := by
  constructor
  · intro ring ring' h
    have hfirst : ring.at ring.idx = ring'.at ring'.idx := h.samples 0
    unfold linear
    by_cases hfrac : ring.pos.toUInt16 = 0
    · rw [if_pos hfrac, if_pos (h.pos ▸ hfrac)]
      exact ⟨hfirst, h.turned⟩
    · rw [if_neg hfrac, if_neg (h.pos ▸ hfrac)]
      refine ⟨?_, h.turned⟩
      simp only [hfirst, h.samples, h.pos]
  · intro ring h
    unfold linear
    simp only
    have hidx := h.idx
    split
    · exact ⟨show 4 ≤ ring.idx + 1 + 3 by omega, h.pos⟩
    · exact ⟨show 4 ≤ ring.idx + 2 + 2 by omega, h.pos⟩

theorem resampleStep_same (read : σ → Int16 × σ) (ratio : UInt32) {tap : Ring → Int16 × Ring}
    (htap : Taps tap) (h : ring.Same ring') (s : σ) :
    (resampleStep (fun _ => read) ratio tap (ring, s)).1 =
        (resampleStep (fun _ => read) ratio tap (ring', s)).1 ∧
      (resampleStep (fun _ => read) ratio tap (ring, s)).2.1.Same
        (resampleStep (fun _ => read) ratio tap (ring', s)).2.1 ∧
      (resampleStep (fun _ => read) ratio tap (ring, s)).2.2 =
        (resampleStep (fun _ => read) ratio tap (ring', s)).2.2 := by
  have hmoved : ({ ring with pos := ring.pos + ratio } : Ring).Same
      { ring' with pos := ring'.pos + ratio } := ⟨congrArg (· + ratio) h.pos, h.samples⟩
  obtain ⟨hring, hs⟩ := fetch_same read kMaxFetches hmoved s
  obtain ⟨hout, hnext⟩ := htap.same _ _ hring
  exact ⟨hout, hnext, hs⟩

theorem resampleStep_settled (readSample : Nat → σ → Int16 × σ) (ratio : UInt32)
    {tap : Ring → Int16 × Ring} (htap : Taps tap) {s : Ring × σ} (h : 4 ≤ s.1.idx) :
    (resampleStep readSample ratio tap s).2.1.Settled := by
  obtain ⟨ring, s⟩ := s
  have hlt := UInt32.toNat_lt (ring.pos + ratio)
  have hfuel : (ring.pos + ratio).toNat < 0x10000 * (kMaxFetches + 1) := by
    show _ < 0x10000 * (0x10000 + 1)
    omega
  let moved : Ring := { ring with pos := ring.pos + ratio }
  have hidx : 4 ≤ moved.idx := h
  exact htap.settled _ (fetch_settled readSample hidx hfuel s)

/-! ## resampling -/

def Resampled.join (first second : Resampled σ) : Resampled σ :=
  { second with out := first.out ++ second.out }

theorem frac_of_lt {pos : UInt32} (h : pos < 0x10000) :
    (pos &&& 0xffff).toUInt16.toUInt32 = pos := by
  apply UInt32.toNat_inj.mp
  have hlt : pos.toNat < 65536 := h
  have hmask : pos.toNat &&& 65535 = pos.toNat % 65536 := Nat.and_two_pow_sub_one_eq_mod pos.toNat 16
  rw [UInt16.toNat_toUInt32, UInt32.toNat_toUInt16, UInt32.toNat_and]
  show (pos.toNat &&& 65535) % 65536 = pos.toNat
  omega

theorem Ring.Settled.renewed (h : ring.Settled) : ring.Same
    ⟨fun i => ring.at (ring.idx - 4 + i), 4, 0, (ring.pos &&& 0xffff).toUInt16.toUInt32⟩ := by
  refine ⟨(frac_of_lt h.pos).symm, fun i => ?_⟩
  have hidx := h.idx
  apply congrArg ring.temp
  apply Fin.ext
  show (ring.idx + i) % 4 = (ring.idx - 4 + (4 + i) % 4) % 4
  omega

theorem at_behind (h : 4 ≤ ring.idx) (i : Nat) :
    ring.at (ring.idx - 4 + i) = ring.at (ring.idx + i) := by
  apply congrArg ring.temp
  apply Fin.ext
  show (ring.idx - 4 + i) % 4 = (ring.idx + i) % 4
  omega

def finish (run : List Int16 × Ring × σ) : Resampled σ :=
  ⟨run.1, fun i => run.2.1.at (run.2.1.idx - 4 + i), run.2.1.pos &&& 0xffff, run.2.2⟩

def renew (lastSamples : Fin 4 → Int16) (frac : UInt16) : Ring := ⟨lastSamples, 4, 0, frac.toUInt32⟩

theorem settled_renew (lastSamples : Fin 4 → Int16) (frac : UInt16) :
    (renew lastSamples frac).Settled := ⟨Nat.le_refl 4, UInt16.toNat_lt frac⟩

variable (read : σ → Int16 × σ) (ratio : UInt32) {tap : Ring → Int16 × Ring}

theorem produce_settled (htap : Taps tap) (n : Nat) {s : Ring × σ} (h : s.1.Settled) :
    (produce (resampleStep (fun _ => read) ratio tap) n s).2.1.Settled :=
  produce_inv (fun s : Ring × σ => s.1.Settled)
    (fun _ hs => resampleStep_settled _ ratio htap hs.idx) n h

theorem finish_same (htap : Taps tap) (n : Nat) (h : ring.Settled)
    (h' : ring'.Settled) (hsame : ring.Same ring') (s : σ) :
    finish (produce (resampleStep (fun _ => read) ratio tap) n (ring, s)) =
      finish (produce (resampleStep (fun _ => read) ratio tap) n (ring', s)) := by
  have hstep : ∀ s t : Ring × σ, s.1.Same t.1 ∧ s.2 = t.2 →
      (resampleStep (fun _ => read) ratio tap s).1 = (resampleStep (fun _ => read) ratio tap t).1 ∧
        (resampleStep (fun _ => read) ratio tap s).2.1.Same
          (resampleStep (fun _ => read) ratio tap t).2.1 ∧
        (resampleStep (fun _ => read) ratio tap s).2.2 =
          (resampleStep (fun _ => read) ratio tap t).2.2 := by
    rintro ⟨ring, s⟩ ⟨ring', t⟩ ⟨hring, rfl⟩
    exact resampleStep_same read ratio htap hring s
  have hbefore : (ring, s).1.Same (ring', s).1 ∧ (ring, s).2 = (ring', s).2 := ⟨hsame, rfl⟩
  obtain ⟨hout, hrings, hreader⟩ := produce_sim _ hstep n hbefore
  have hsettled := produce_settled read ratio htap n (s := (ring, s)) h
  have hsettled' := produce_settled read ratio htap n (s := (ring', s)) h'
  unfold finish
  rw [hout, hrings.pos, hreader]
  congr 1
  funext i
  rw [at_behind hsettled.idx, at_behind hsettled'.idx, hrings.samples]

theorem resampleLoop_add (n k : Nat) (lastSamples : Fin 4 → Int16) (frac : UInt16)
    (htap : Taps tap) (s : σ) :
    resampleLoop (fun _ => read) (n + k) lastSamples frac.toUInt32 ratio tap s =
      let first := resampleLoop (fun _ => read) n lastSamples frac.toUInt32 ratio tap s
      first.join (resampleLoop (fun _ => read) k first.lastSamples first.pos.toUInt16.toUInt32 ratio
        tap first.reader) := by
  obtain ⟨out, ⟨ring, s₁⟩, hfirst⟩ : ∃ out s₁, produce (resampleStep (fun _ => read) ratio tap) n
      (renew lastSamples frac, s) = (out, s₁) := ⟨_, _, rfl⟩
  have hsettled := produce_settled read ratio htap n (s := (renew lastSamples frac, s))
    (settled_renew _ _)
  rw [hfirst] at hsettled
  have hsecond := finish_same read ratio htap k hsettled (settled_renew _ _) hsettled.renewed s₁
  show finish (produce _ (n + k) (renew lastSamples frac, s)) =
    (finish (produce _ n (renew lastSamples frac, s))).join (finish (produce _ k
      (renew (finish (produce _ n (renew lastSamples frac, s))).lastSamples
        (finish (produce _ n (renew lastSamples frac, s))).pos.toUInt16,
        (finish (produce _ n (renew lastSamples frac, s))).reader)))
  rw [produce_add, hfirst]
  exact congrArg (Resampled.join ⟨out, fun _ => 0, 0, s₁⟩) hsecond

theorem nearest_add (n k : Nat) (i : Nat) (s : σ) :
    (produce (nearestStep fun _ => read) (n + k) (i, s)).1 =
        (produce (nearestStep fun _ => read) n (i, s)).1 ++ (produce (nearestStep fun _ => read) k
          (0, (produce (nearestStep fun _ => read) n (i, s)).2.2)).1 ∧
      (produce (nearestStep fun _ => read) (n + k) (i, s)).2.2 = (produce (nearestStep fun _ => read) k
        (0, (produce (nearestStep fun _ => read) n (i, s)).2.2)).2.2 := by
  have hstep : ∀ s t : Nat × σ, s.2 = t.2 → (nearestStep (fun _ => read) s).1 =
      (nearestStep (fun _ => read) t).1 ∧ (nearestStep (fun _ => read) s).2.2 =
        (nearestStep (fun _ => read) t).2.2 := by
    rintro ⟨i, s⟩ ⟨i', t⟩ hs
    have hs : s = t := hs
    subst hs
    exact ⟨rfl, rfl⟩
  rw [produce_add]
  obtain ⟨hout, hreader⟩ := produce_sim (fun s t : Nat × σ => s.2 = t.2) hstep k
    (show (produce (nearestStep fun _ => read) n (i, s)).2.2 =
      (0, (produce (nearestStep fun _ => read) n (i, s)).2.2).2 from rfl)
  exact ⟨congrArg (_ ++ ·) hout, hreader⟩

variable {k : Nat}

/-- **a resampling in two parts**: the last samples are those of the second one, which has to be long
enough for them -/
theorem resampleAudio_add (n : Nat) (hk : 4 ≤ k) (lastSamples : Fin 4 → Int16)
    (frac : UInt16) (srcType : UInt16) (coeffs : Option (Nat → Int16)) (s : σ) :
    ResampleAudio (fun _ => read) (n + k) lastSamples frac.toUInt32 ratio srcType coeffs s =
      let first := ResampleAudio (fun _ => read) n lastSamples frac.toUInt32 ratio srcType coeffs s
      first.join (ResampleAudio (fun _ => read) k first.lastSamples first.pos.toUInt16.toUInt32 ratio
        srcType coeffs first.reader) := by
  unfold ResampleAudio
  split
  · exact resampleLoop_add read ratio n k lastSamples frac (taps_polyphase _) s
  · by_cases hnearest : srcType ≠ 0 ∧ srcType ≠ 1
    · simp only [if_pos hnearest]
      obtain ⟨hout, hreader⟩ := nearest_add read n k 0 s
      have hlength := length_produce (nearestStep fun _ => read) n (0, s)
      rw [if_pos (show n + k ≥ 4 by omega), if_pos (show k ≥ 4 from hk), hout, hreader]
      unfold Resampled.join
      congr 1
      · funext i
        rw [List.getD_append_right _ _ _ _ (by omega)]
        congr 1
        omega
      · exact congrArg UInt16.toUInt32 (UInt16.toUInt16_toUInt32 frac).symm
    · simp only [if_neg hnearest]
      exact resampleLoop_add read ratio n k lastSamples frac taps_linear s

theorem resampleAudio_inv {readSample : Nat → σ → Int16 × σ} (Inv : σ → Prop)
    (hread : ∀ i s, Inv s → Inv (readSample i s).2) (count : Nat) (lastSamples : Fin 4 → Int16)
    (pos ratio : UInt32) (srcType : UInt16) (coeffs : Option (Nat → Int16)) {s : σ} (h : Inv s) :
    Inv (ResampleAudio readSample count lastSamples pos ratio srcType coeffs s).reader := by
  have hfetch (fuel : Nat) (ring : Ring) (s : σ) (hs : Inv s) :
      Inv (fetch readSample fuel ring s).2 := by
    induction fuel generalizing ring s with
    | zero => exact hs
    | succ fuel ih =>
      unfold fetch
      split
      · exact ih _ _ (hread _ s hs)
      · exact hs
  have hloop (tap : Ring → Int16 × Ring) :
      Inv (resampleLoop readSample count lastSamples pos ratio tap s).reader :=
    produce_inv (fun s : Ring × σ => Inv s.2) (fun s hs => hfetch kMaxFetches { s.1 with pos := s.1.pos + ratio } s.2 hs) count h
  unfold ResampleAudio
  split
  · exact hloop _
  · split
    · exact produce_inv (fun s : Nat × σ => Inv s.2) (fun s hs => hread s.1 s.2 hs) count h
    · exact hloop _

theorem length_resampleAudio (readSample : Nat → σ → Int16 × σ) (count : Nat)
    (lastSamples : Fin 4 → Int16) (pos ratio : UInt32) (srcType : UInt16)
    (coeffs : Option (Nat → Int16)) (s : σ) :
    (ResampleAudio readSample count lastSamples pos ratio srcType coeffs s).out.length = count := by
  unfold ResampleAudio
  split
  · exact length_produce _ _ _
  · split
    · exact length_produce _ _ _
    · exact length_produce _ _ _

/-! ## the samples of a voice -/

def resampled (R : UInt32 → UInt8) (coeffs : Option (Nat → Int16)) (pb : AXPBWii) (count : Nat)
    (src : PBSampleRateConverter) (source : Accelerator × PBSource) :
    Resampled (Accelerator × PBSource) :=
  ResampleAudio (fun _ => Accelerator.ReadSample R) count src.last_samples src.cur_addr_frac.toUInt32
    (Hilo src.ratio_hi src.ratio_lo) pb.src_type (VoiceCoefficients coeffs pb.coef_select) source

def Resampled.src (result : Resampled σ) (src : PBSampleRateConverter) : PBSampleRateConverter :=
  { src with cur_addr_frac := result.pos.toUInt16, last_samples := result.lastSamples }

variable {coeffs : Option (Nat → Int16)} {block : AXPBWii}

variable {count : Nat}

theorem resampled_running {src : PBSampleRateConverter}
    {source : Accelerator × PBSource}
    (h : (resampled R coeffs block count src source).reader.2.running = 1) :
    source.2.running = 1 := by
  by_contra hnot
  exact resampleAudio_inv (fun s : Accelerator × PBSource => s.2.running ≠ 1)
    (fun _ _ hs hread => hs (ReadSample_running hread)) _ _ _ _ _ _ hnot h

theorem resampled_add {n : Nat} (hk : 4 ≤ k) {src : PBSampleRateConverter}
    {source : Accelerator × PBSource} :
    resampled R coeffs block (n + k) src source =
      let first := resampled R coeffs block n src source
      first.join (resampled R coeffs block k (first.src src) first.reader) :=
  resampleAudio_add _ _ n hk _ _ _ _ _

theorem resampled_setup {src : PBSampleRateConverter} {source : PBSource}
    (h : (resampled R coeffs block count src (.Setup source, source)).reader.2.running = 1) :
    (resampled R coeffs block count src (.Setup source, source)).reader =
      (.Setup (resampled R coeffs block count src (.Setup source, source)).reader.2,
        (resampled R coeffs block count src (.Setup source, source)).reader.2) := by
  have hstart : Carried (.Setup source, source) := fun _ => rfl
  have hcarried : Carried (resampled R coeffs block count src (.Setup source, source)).reader :=
    resampleAudio_inv Carried (fun _ _ hs => carried_ReadSample hs) _ _ _ _ _ _ hstart
  exact Prod.ext (hcarried h) rfl

/-! ## filters -/

/-- the envelope and the two filters -/
def filtered (newFilter : Bool) (samples : List Int16)
    (f : (PBVolumeEnvelope × PBLowPassFilter) × PBBiquadFilter) :
    List Int16 × (PBVolumeEnvelope × PBLowPassFilter) × PBBiquadFilter :=
  let ramped := ScaleRamp samples f.1.1.cur_volume.toUInt16 f.1.1.cur_volume_delta.toUInt16
  let passed := if f.1.2.on ≠ 0 then LowPassFilter ramped.1 f.1.2 else (ramped.1, f.1.2)
  let last := if newFilter ∧ f.2.on ≠ 0 then BiquadFilter passed.1 f.2 else (passed.1, f.2)
  (last.1, ({ f.1.1 with cur_volume := ramped.2.toInt16 }, passed.2), last.2)

theorem filterVoice_eq (newFilter : Bool) (samples : List Int16) (pb : AXPBWii) :
    filterVoice newFilter samples pb =
      let f := filtered newFilter samples ((pb.vol_env, pb.lpf), pb.biquad)
      (f.1, { pb with vol_env := f.2.1.1, lpf := f.2.1.2, biquad := f.2.2 }) := by
  unfold filterVoice filtered
  simp only
  split <;> split <;> rfl

theorem splits_envelope : Splits fun samples (f : PBVolumeEnvelope) =>
    ((ScaleRamp samples f.cur_volume.toUInt16 f.cur_volume_delta.toUInt16).1,
      ({ f with cur_volume := (ScaleRamp samples f.cur_volume.toUInt16
        f.cur_volume_delta.toUInt16).2.toInt16 } : PBVolumeEnvelope)) := by
  intro xs ys f
  simp only [ScaleRamp, pass_append]
  rfl

theorem LowPassFilter_on (samples : List Int16) (filter : PBLowPassFilter) :
    (LowPassFilter samples filter).2.on = filter.on := by
  unfold LowPassFilter
  induction samples generalizing filter with
  | nil => rfl
  | cons sample samples ih => exact ih _

theorem BiquadFilter_on (samples : List Int16) (filter : PBBiquadFilter) :
    (BiquadFilter samples filter).2.on = filter.on := by
  unfold BiquadFilter
  induction samples generalizing filter with
  | nil => rfl
  | cons sample samples ih => exact ih _

theorem splits_lowPass : Splits fun samples (f : PBLowPassFilter) =>
    if f.on ≠ 0 then LowPassFilter samples f else (samples, f) :=
  (splits_pass _).ite fun samples f => by rw [← LowPassFilter_on samples f]; rfl

theorem splits_biquad (newFilter : Bool) : Splits fun samples (f : PBBiquadFilter) =>
    if newFilter ∧ f.on ≠ 0 then BiquadFilter samples f else (samples, f) :=
  (splits_pass _).ite fun samples f => by rw [← BiquadFilter_on samples f]; rfl

theorem splits_filtered (newFilter : Bool) : Splits (filtered newFilter) :=
  (splits_envelope.comp splits_lowPass).comp (splits_biquad newFilter)

theorem length_filtered (newFilter : Bool) (samples : List Int16)
    (f : (PBVolumeEnvelope × PBLowPassFilter) × PBBiquadFilter) :
    (filtered newFilter samples f).1.length = samples.length := by
  unfold filtered
  simp only
  split <;> split <;> simp [BiquadFilter, LowPassFilter, ScaleRamp, length_pass]

/-! ## buses -/

theorem mixAddRamp_append (delta : UInt16) (xs ys : List Int16) (i : Nat) (lane : Lane) :
    MixAddRamp delta (xs ++ ys) i lane =
      MixAddRamp delta ys (i + xs.length) (MixAddRamp delta xs i lane) := by
  induction xs generalizing i lane with
  | nil => rfl
  | cons x xs ih =>
    rw [List.cons_append, List.length_cons, Nat.add_comm xs.length 1, ← Nat.add_assoc]
    exact ih _ _

theorem mixAddRamp_delta (delta : UInt16) (xs : List Int16) (i : Nat) (lane : Lane) :
    (MixAddRamp delta xs i lane).vd.volume_delta = lane.vd.volume_delta := by
  induction xs generalizing i lane with
  | nil => rfl
  | cons x xs ih => exact ih _ _

theorem mixAdd_append (xs ys : List Int16) (out : Nat) (ramp : Bool) (lane : Lane) :
    MixAdd (xs ++ ys) out ramp lane = MixAdd ys (out + xs.length) ramp (MixAdd xs out ramp lane) := by
  unfold MixAdd
  rw [mixAddRamp_append, mixAddRamp_delta]

def lanes (state : AXPBWii × Buses) : AxBus → Lane := fun bus =>
  ⟨state.2 bus, state.1.mixer bus, state.1.dpop bus⟩

def setLanes (state : AXPBWii × Buses) (l : AxBus → Lane) : AXPBWii × Buses :=
  ({ state.1 with mixer := fun bus => (l bus).vd, dpop := fun bus => (l bus).dpop },
    fun bus => (l bus).out)

theorem setLanes_update (state : AXPBWii × Buses) (bus : AxBus) (lane : Lane) :
    setLanes state (Function.update (lanes state) bus lane) =
      ({ state.1 with
        mixer := Function.update state.1.mixer bus lane.vd
        dpop := Function.update state.1.dpop bus lane.dpop },
        Function.update state.2 bus lane.out) := by
  have hvd : (fun b => (Function.update (lanes state) bus lane b).vd) =
      Function.update state.1.mixer bus lane.vd := by
    funext b
    exact Function.apply_update (fun _ (l : Lane) => l.vd) (lanes state) bus lane b
  have hdpop : (fun b => (Function.update (lanes state) bus lane b).dpop) =
      Function.update state.1.dpop bus lane.dpop := by
    funext b
    exact Function.apply_update (fun _ (l : Lane) => l.dpop) (lanes state) bus lane b
  have hout : (fun b => (Function.update (lanes state) bus lane b).out) =
      Function.update state.2 bus lane.out := by
    funext b
    exact Function.apply_update (fun _ (l : Lane) => l.out) (lanes state) bus lane b
  unfold setLanes
  rw [hvd, hdpop, hout]

variable {control : UInt32}

def mixedLane (control : UInt32) (input : List Int16) (out : Nat) (bus : AxBus) (lane : Lane) : Lane :=
  if control &&& (mixBits bus).1 = 0 then lane
  else MixAdd input out (control &&& (mixBits bus).2 ≠ 0) lane

theorem mixVoice_eq (input : List Int16) (buffers : AXBuffers) (state : AXPBWii × Buses) :
    mixVoice input buffers control state = setLanes state fun bus =>
      if bus ∈ regularBuses then mixedLane control input (buffers bus) bus (lanes state bus)
      else lanes state bus := by
  have hfold (keys : List AxBus) (state : AXPBWii × Buses) :
      keys.foldl (fun state bus => if control &&& (mixBits bus).1 = 0 then state
        else mixBus input buffers (control &&& (mixBits bus).2 ≠ 0) bus state) state =
      setLanes state (keys.foldl (fun l bus =>
        Function.update l bus (mixedLane control input (buffers bus) bus (l bus))) (lanes state)) := by
    induction keys generalizing state with
    | nil => rfl
    | cons bus keys ih =>
      rw [List.foldl_cons, List.foldl_cons, ih]
      have hstep : (if control &&& (mixBits bus).1 = 0 then state
          else mixBus input buffers (control &&& (mixBits bus).2 ≠ 0) bus state) =
          setLanes state (Function.update (lanes state) bus
            (mixedLane control input (buffers bus) bus (lanes state bus))) := by
        unfold mixedLane
        split
        · rw [Function.update_eq_self]
          rfl
        · rw [setLanes_update]
          rfl
      rw [hstep]
      rfl
  unfold mixVoice
  rw [hfold, foldl_update (fun bus => mixedLane control input (buffers bus) bus) (by decide)]

/-! ## a voice -/

/-- what a voice leaves in its block, but for what it mixes with -/
def voiceBlock (pb : AXPBWii) (result : Resampled (Accelerator × PBSource))
    (f : (PBVolumeEnvelope × PBLowPassFilter) × PBBiquadFilter) : AXPBWii :=
  { pb with
    toPBSource := result.reader.2
    src := result.src pb.src
    vol_env := f.1.1
    lpf := f.1.2
    biquad := f.2 }

theorem Resample_eq (count : Nat) (pb : AXPBWii) : Resample R count coeffs pb =
    let result := resampled R coeffs pb count pb.src (.Setup pb.toPBSource, pb.toPBSource)
    (result.out, { pb with toPBSource := result.reader.2, src := result.src pb.src }) := rfl

def voiceAfter (control : UInt32) (newFilter : Bool) (buffers : AXBuffers) (state : AXPBWii × Buses)
    (result : Resampled (Accelerator × PBSource)) : AXPBWii × Buses :=
  let f := filtered newFilter result.out ((state.1.vol_env, state.1.lpf), state.1.biquad)
  setLanes (voiceBlock state.1 result f.2, state.2) fun bus =>
    if bus ∈ regularBuses then mixedLane control f.1 (buffers bus) bus (lanes state bus)
    else lanes state bus

variable {buffers buffers' : AXBuffers} {newFilter : Bool} {state : AXPBWii × Buses}

/-- **what a voice without a remote does** -/
theorem processVoice_eq (hremote : state.1.remote = 0)
    (hrunning : state.1.running = 1) :
    ProcessVoice R buffers count control coeffs newFilter state =
      voiceAfter control newFilter buffers state (resampled R coeffs state.1 count state.1.src
        (.Setup state.1.toPBSource, state.1.toPBSource)) := by
  obtain ⟨pb, buses⟩ := state
  have hrunning : pb.running = 1 := hrunning
  unfold ProcessVoice
  simp only [ne_eq, hrunning, not_true_eq_false, if_false, Resample_eq, filterVoice_eq, mixVoice_eq]
  split
  · next h => exact absurd hremote h
  · rfl

theorem voiceAfter_eq {result : Resampled (Accelerator × PBSource)}
    {f : List Int16 × (PBVolumeEnvelope × PBLowPassFilter) × PBBiquadFilter}
    (hf : filtered newFilter result.out ((state.1.vol_env, state.1.lpf), state.1.biquad) = f) :
    voiceAfter control newFilter buffers state result =
      setLanes (voiceBlock state.1 result f.2, state.2) fun bus =>
        if bus ∈ regularBuses then mixedLane control f.1 (buffers bus) bus (lanes state bus)
        else lanes state bus := by
  unfold voiceAfter
  rw [hf]

theorem mixedLane_append (xs ys : List Int16) (out : Nat) (bus : AxBus) (lane : Lane) :
    mixedLane control (xs ++ ys) out bus lane =
      mixedLane control ys (out + xs.length) bus (mixedLane control xs out bus lane) := by
  unfold mixedLane
  split
  · rfl
  · exact mixAdd_append xs ys out _ lane

theorem voiceAfter_join (r₁ r₂ : Resampled (Accelerator × PBSource))
    (hbuffers : ∀ bus ∈ regularBuses, buffers' bus = buffers bus + r₁.out.length) :
    voiceAfter control newFilter buffers' (voiceAfter control newFilter buffers state r₁) r₂ =
      voiceAfter control newFilter buffers state (r₁.join r₂) := by
  obtain ⟨f₁, hf₁⟩ : ∃ f₁, filtered newFilter r₁.out
      ((state.1.vol_env, state.1.lpf), state.1.biquad) = f₁ := ⟨_, rfl⟩
  obtain ⟨f₂, hf₂⟩ : ∃ f₂, filtered newFilter r₂.out f₁.2 = f₂ := ⟨_, rfl⟩
  have hlength : f₁.1.length = r₁.out.length := by
    rw [← hf₁]
    exact length_filtered _ _ _
  have hjoin : filtered newFilter (r₁.join r₂).out
      ((state.1.vol_env, state.1.lpf), state.1.biquad) = (f₁.1 ++ f₂.1, f₂.2) := by
    show filtered newFilter (r₁.out ++ r₂.out) _ = _
    rw [splits_filtered newFilter r₁.out, hf₁, hf₂]
  have hlanes : (fun bus => if bus ∈ regularBuses then
      mixedLane control (f₁.1 ++ f₂.1) (buffers bus) bus (lanes state bus) else lanes state bus) =
      fun bus => if bus ∈ regularBuses then mixedLane control f₂.1 (buffers' bus) bus
        (if bus ∈ regularBuses then mixedLane control f₁.1 (buffers bus) bus (lanes state bus)
          else lanes state bus)
        else (if bus ∈ regularBuses then mixedLane control f₁.1 (buffers bus) bus (lanes state bus)
          else lanes state bus) := by
    funext bus
    by_cases hbus : bus ∈ regularBuses
    · simp only [if_pos hbus]
      rw [mixedLane_append, hlength, hbuffers bus hbus]
    · simp only [if_neg hbus]
  rw [voiceAfter_eq hf₁, voiceAfter_eq hjoin]
  refine (voiceAfter_eq (f := f₂) hf₂).trans ?_
  rw [hlanes]
  rfl

/-! ## slices -/

theorem processVoice_stopped (h : state.1.running ≠ 1) :
    ProcessVoice R buffers count control coeffs newFilter state = state := if_pos h

theorem processVoice_remote (hremote : state.1.remote = 0) :
    (ProcessVoice R buffers count control coeffs newFilter state).1.remote = 0 := by
  by_cases hrunning : state.1.running = 1
  · rw [processVoice_eq hremote hrunning]
    exact hremote
  · rw [processVoice_stopped hrunning]
    exact hremote

theorem processVoice_running
    (h : (ProcessVoice R buffers count control coeffs newFilter state).1.running = 1) :
    state.1.running = 1 := by
  by_contra hnot
  rw [processVoice_stopped hnot] at h
  exact hnot h

theorem processVoice_running_add {n : Nat} (hk : 4 ≤ k) (hremote : state.1.remote = 0)
    (h : (ProcessVoice R buffers (n + k) control coeffs newFilter state).1.running = 1) :
    (ProcessVoice R buffers n control coeffs newFilter state).1.running = 1 := by
  have hrunning := processVoice_running h
  rw [processVoice_eq hremote hrunning] at h ⊢
  rw [resampled_add hk] at h
  exact resampled_running h

theorem processVoice_add {n : Nat} (hk : 4 ≤ k) (hremote : state.1.remote = 0)
    (hbuffers : ∀ bus ∈ regularBuses, buffers' bus = buffers bus + n)
    (h : (ProcessVoice R buffers n control coeffs newFilter state).1.running = 1) :
    ProcessVoice R buffers' k control coeffs newFilter
        (ProcessVoice R buffers n control coeffs newFilter state) =
      ProcessVoice R buffers (n + k) control coeffs newFilter state := by
  have hrunning := processVoice_running h
  rw [processVoice_eq (processVoice_remote hremote) h]
  rw [processVoice_eq hremote hrunning] at h ⊢
  rw [processVoice_eq hremote hrunning, resampled_add hk]
  obtain ⟨r₁, hr₁⟩ : ∃ r₁, resampled R coeffs state.1 n state.1.src
      (.Setup state.1.toPBSource, state.1.toPBSource) = r₁ := ⟨_, rfl⟩
  have hsetup : r₁.reader = (.Setup r₁.reader.2, r₁.reader.2) := by
    rw [← hr₁]
    exact resampled_setup h
  have hlength : r₁.out.length = n := by
    rw [← hr₁]
    exact length_resampleAudio _ _ _ _ _ _ _ _
  rw [hr₁]
  refine Eq.trans ?_ (voiceAfter_join r₁ _ (fun bus hbus => hlength ▸ hbuffers bus hbus))
  show voiceAfter _ _ _ _ (resampled R coeffs state.1 k (r₁.src state.1.src)
    (.Setup r₁.reader.2, r₁.reader.2)) = _
  rw [← hsetup]

theorem advance_regular {regular wiimote : Nat} :
    ∀ bus ∈ regularBuses, AdvanceBuffers buffers regular wiimote bus = buffers bus + regular := by
  intro bus hbus
  have hnot : bus ∉ wiimoteBuses := by
    revert bus
    decide
  unfold AdvanceBuffers
  rw [if_neg hnot]

theorem processVoice_thrice (n : Nat) (hn : 4 ≤ n) (wiimote : Nat) (hremote : state.1.remote = 0)
    (whole slices : AXPBWii × Buses)
    (hwhole : whole = ProcessVoice R buffers (n + n + n) control coeffs newFilter state)
    (hslices : slices = ProcessVoice R
      (AdvanceBuffers (AdvanceBuffers buffers n wiimote) n wiimote) n control coeffs newFilter
      (ProcessVoice R (AdvanceBuffers buffers n wiimote) n control coeffs newFilter
        (ProcessVoice R buffers n control coeffs newFilter state)))
    (hrunning : whole.1.running = 1 ∨ slices.1.running = 1) : slices = whole := by
  subst hwhole hslices
  have htwo : (ProcessVoice R buffers (n + n) control coeffs newFilter state).1.running = 1 ∨
      (ProcessVoice R (AdvanceBuffers buffers n wiimote) n control coeffs newFilter
        (ProcessVoice R buffers n control coeffs newFilter state)).1.running = 1 := by
    rcases hrunning with hwhole | hslices
    · exact .inl (processVoice_running_add hn hremote hwhole)
    · exact .inr (processVoice_running hslices)
  have hone : (ProcessVoice R buffers n control coeffs newFilter state).1.running = 1 := by
    rcases htwo with hwhole | hslices
    · exact processVoice_running_add hn hremote hwhole
    · exact processVoice_running hslices
  rw [processVoice_add hn hremote advance_regular hone] at htwo ⊢
  apply processVoice_add hn hremote _ (htwo.elim id id)
  intro bus hbus
  rw [advance_regular bus hbus, advance_regular bus hbus, Nat.add_assoc]

/-- **a voice that is still running at the end of a frame is mixed in three slices as it is mixed
whole**: the same block, and the same samples on every bus -/
theorem slices_eq_whole (ReadAram8 : UInt32 → UInt8) (buffers : AXBuffers) (control : UInt32)
    (coeffs : Option (Nat → Int16)) (newFilter : Bool) (state : AXPBWii × Buses)
    (hremote : state.1.remote = 0)
    (hrunning : (ProcessVoice ReadAram8 buffers kAxSamplesPerFrame control coeffs newFilter
        state).1.running = 1 ∨
      (ProcessSlices ReadAram8 buffers control coeffs newFilter state).1.running = 1) :
    ProcessSlices ReadAram8 buffers control coeffs newFilter state =
      ProcessVoice ReadAram8 buffers kAxSamplesPerFrame control coeffs newFilter state :=
  processVoice_thrice 32 (by decide) 6 hremote _ _ rfl rfl hrunning

/-- a voice of one-byte samples, at three of them for two outputs, on the left and with a ramp on the
right -/
def AXPBWii.playing : AXPBWii where
  running := 1
  is_stream := 0
  audio_addr := ⟨1, 0x19, 0, 0x10, 0, 0x40, 0, 0x20⟩
  adpcm := ⟨fun _ => 0, 0x800, 0, 0, 0⟩
  adpcm_loop_info := ⟨0, 0, 0⟩
  src_type := 1
  coef_select := 0
  mixer := fun _ => ⟨0x8000, 3⟩
  dpop := fun _ => 0
  vol_env := ⟨0x7000, 1⟩
  src := ⟨1, 0x8000, 0, fun _ => 0⟩
  lpf := ⟨1, 0, 0x4000, 0x2000⟩
  biquad := ⟨0, 0, 0, 0, 0, 0, 0, 0, 0, 0⟩
  remote := 0
  remote_mixer_control := 0
  remote_src := ⟨0, fun _ => 0⟩
  remote_iir := ⟨0, 0, 0, 0, 0, 0, 0, 0, 0, 0⟩

/-- it goes back to the start of its loop within the frame -/
theorem slices_eq_whole_playing : AXPBWii.playing.remote = 0 ∧
    ProcessSlices (·.toUInt8) (fun _ => 0) 0xd none false (.playing, fun _ _ => 0) =
      ProcessVoice (·.toUInt8) (fun _ => 0) kAxSamplesPerFrame 0xd none false
        (.playing, fun _ _ => 0) :=
  ⟨rfl, slices_eq_whole _ _ _ _ _ (.playing, fun _ _ => 0) rfl (.inl (by decide +kernel))⟩

end DolTranslator.Ax
