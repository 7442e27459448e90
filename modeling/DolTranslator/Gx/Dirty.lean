import DolTranslator.Gx.Invariants

/-!
# The dirty flags miss no change

* `Keeps d s s'`   outside what the flags `d` cover, `s'` has the fields of `s`;
* `decodeBP_keeps`, `loadXFRegister_keeps`   a register changes only what its flags cover;
* `Marked s s'`   the law: a flag that is clear afterwards vouches for its part of the state, and
  flags stay set;
* `marked_applyBP`, `marked_applyXF`   it holds of every load;
* `Run_marked`   and of every stream.
-/

namespace DolTranslator.Gx

open Function State

variable {s s' s'' : State} {d d' : BitVec 32}

/-! ## flags -/

/-- flag `i` is clear -/
def Clear (d : BitVec 32) (i : Nat) : Prop := d.getLsbD i = false

instance (d : BitVec 32) (i : Nat) : Decidable (Clear d i) :=
  inferInstanceAs (Decidable (d.getLsbD i = false))

theorem clear_or {i : Nat} : Clear (d ||| d') i ↔ Clear d i ∧ Clear d' i := by
  unfold Clear
  rw [BitVec.getLsbD_or, Bool.or_eq_false_iff]

theorem clear_iff {i : Nat} (hi : i < 32) : d &&& (1#32 <<< i) = 0 ↔ Clear d i := by
  unfold Clear
  constructor
  · intro h
    have hbit : (d &&& (1#32 <<< i)).getLsbD i = (0 : BitVec 32).getLsbD i := by rw [h]
    simpa [hi] using hbit
  · intro h
    apply BitVec.eq_of_getLsbD_eq
    intro j hj
    by_cases hij : j = i
    · subst hij
      simp [h]
    · by_cases hlt : j < i
      · simp [hlt]
      · have hne : j - i ≠ 0 := by omega
        simp [hne]

/-- the flags set in `d` are set in `d'` -/
def Within (d d' : BitVec 32) : Prop := ∀ i, Clear d' i → Clear d i

theorem within_or_left : Within d (d ||| d') := fun _ h => (clear_or.mp h).1

theorem within_or_right : Within d' (d ||| d') := fun _ h => (clear_or.mp h).2

/-! ## what a flag covers -/

/-- what the shaders are made from, but for the registers that are read as they are -/
def shaderPart (s : State) : TevConfig × VertexConfig × (Nat → Nat) := (s.tev, s.vertex, s.vtxDesc)

def tevPart (s : State) : (Nat → Nat → Single) × (Nat → Nat → Single) × (Nat → Single) ×
    Single × Single × Nat × Nat :=
  (s.tevRegs, s.kColors, s.fogColor, s.fogA, s.fogC, s.fogBMagnitude, s.fogBShift)

def xfPart (s : State) : (Nat → Nat → Single) × (Nat → Nat → Single) × (Nat → Nat → Single) ×
    (Nat → Nat → Single) × (Nat → Nat → Single) × (Nat → Color8) × (Nat → Color8) ×
    (Nat → Light) × Nat :=
  (s.posRows, s.nrmRows, s.texRows, s.postRows, s.proj, s.chanAmb, s.chanMat, s.lights,
    s.currentPosRow)

def rawPart (s : State) : (Nat → BitVec 32) × BitVec 32 × (Nat → Bool) × (Nat → BitVec 32) ×
    (Nat → Bool) :=
  (s.bpRegs, s.bpMask, s.bpWritten, s.xfRaw, s.xfWritten)

structure Covers (d : BitVec 32) (s s' : State) : Prop where
  shader : Clear d 0 → shaderPart s' = shaderPart s
  pixel : Clear d 1 → s'.pixel = s.pixel
  tevUniforms : Clear d 2 → tevPart s' = tevPart s
  xfUniforms : Clear d 3 → xfPart s' = xfPart s
  textures : Clear d 4 → s'.tluts = s.tluts

/-- a decoding step: it changes nothing else, and no register -/
structure Keeps (d : BitVec 32) (s s' : State) : Prop extends Covers d s s' where
  raw : rawPart s' = rawPart s

namespace Covers

theorem refl (d : BitVec 32) (s : State) : Covers d s s :=
  ⟨fun _ => rfl, fun _ => rfl, fun _ => rfl, fun _ => rfl, fun _ => rfl⟩

theorem mono (h : Covers d s s') (hd : Within d d') : Covers d' s s' :=
  ⟨fun hc => h.shader (hd _ hc), fun hc => h.pixel (hd _ hc), fun hc => h.tevUniforms (hd _ hc),
    fun hc => h.xfUniforms (hd _ hc), fun hc => h.textures (hd _ hc)⟩

theorem trans (h : Covers d s s') (h' : Covers d s' s'') : Covers d s s'' where
  shader hc := (h'.shader hc).trans (h.shader hc)
  pixel hc := (h'.pixel hc).trans (h.pixel hc)
  tevUniforms hc := (h'.tevUniforms hc).trans (h.tevUniforms hc)
  xfUniforms hc := (h'.xfUniforms hc).trans (h.xfUniforms hc)
  textures hc := (h'.textures hc).trans (h.textures hc)

end Covers

namespace Keeps

theorem refl (d : BitVec 32) (s : State) : Keeps d s s := ⟨.refl d s, rfl⟩

theorem mono (h : Keeps d s s') (hd : Within d d') : Keeps d' s s' := ⟨h.toCovers.mono hd, h.raw⟩

theorem trans (h : Keeps d s s') (h' : Keeps d s' s'') : Keeps d s s'' :=
  ⟨h.toCovers.trans h'.toCovers, h'.raw.trans h.raw⟩

/-! An edit under one flag leaves the other parts alone. -/

section
variable (hraw : rawPart s' = rawPart s) (hshader : shaderPart s' = shaderPart s) (hpixel : s'.pixel = s.pixel)
  (htev : tevPart s' = tevPart s) (hxf : xfPart s' = xfPart s) (htluts : s'.tluts = s.tluts)

include hraw hpixel htev hxf htluts in
theorem of_shader : Keeps kDirtyShader s s' :=
  ⟨⟨fun hc => Bool.noConfusion hc, fun _ => hpixel, fun _ => htev, fun _ => hxf, fun _ => htluts⟩, hraw⟩

include hraw hshader htev hxf htluts in
theorem of_pixel : Keeps kDirtyPixel s s' :=
  ⟨⟨fun _ => hshader, fun hc => Bool.noConfusion hc, fun _ => htev, fun _ => hxf, fun _ => htluts⟩, hraw⟩

include hraw hshader hpixel hxf htluts in
theorem of_tevUniforms : Keeps kDirtyTevUniforms s s' :=
  ⟨⟨fun _ => hshader, fun _ => hpixel, fun hc => Bool.noConfusion hc, fun _ => hxf, fun _ => htluts⟩, hraw⟩

include hraw hshader hpixel htev htluts in
theorem of_xfUniforms : Keeps kDirtyXfUniforms s s' :=
  ⟨⟨fun _ => hshader, fun _ => hpixel, fun _ => htev, fun hc => Bool.noConfusion hc, fun _ => htluts⟩, hraw⟩

include hraw hshader hpixel htev hxf in
theorem of_textures : Keeps kDirtyTextures s s' :=
  ⟨⟨fun _ => hshader, fun _ => hpixel, fun _ => htev, fun _ => hxf, fun hc => Bool.noConfusion hc⟩, hraw⟩

end

theorem of_none (hraw : rawPart s' = rawPart s) (hshader : shaderPart s' = shaderPart s) (hpixel : s'.pixel = s.pixel)
    (htev : tevPart s' = tevPart s) (hxf : xfPart s' = xfPart s) (htluts : s'.tluts = s.tluts) :
    Keeps d s s' :=
  ⟨⟨fun _ => hshader, fun _ => hpixel, fun _ => htev, fun _ => hxf, fun _ => htluts⟩, hraw⟩

end Keeps

/-! ## fields and setters -/

section
variable (s : State) (x : Single) (n : Nat) (f : Nat → Nat → Single) (row : Nat → Single)
  (tev : TevConfig) (pixel : PixelState) (writes : BitVec 32) (tluts : Nat → TlutLoad) (ortho : Bool)

theorem tluts_keeps : Keeps kDirtyTextures s { s with tluts := tluts } := .of_textures rfl rfl rfl rfl rfl

theorem tev_keeps : Keeps kDirtyShader s { s with tev := tev } := .of_shader rfl rfl rfl rfl rfl

theorem kColors_keeps : Keeps kDirtyTevUniforms s { s with kColors := f } :=
  .of_tevUniforms rfl rfl rfl rfl rfl

theorem tevRegs_keeps : Keeps kDirtyTevUniforms s { s with tevRegs := f } :=
  .of_tevUniforms rfl rfl rfl rfl rfl

theorem fogA_keeps : Keeps kDirtyTevUniforms s { s with fogA := x } :=
  .of_tevUniforms rfl rfl rfl rfl rfl

theorem fogC_keeps : Keeps kDirtyTevUniforms s { s with fogC := x } :=
  .of_tevUniforms rfl rfl rfl rfl rfl

theorem fogBMagnitude_keeps : Keeps kDirtyTevUniforms s { s with fogBMagnitude := n } :=
  .of_tevUniforms rfl rfl rfl rfl rfl

theorem fogBShift_keeps : Keeps kDirtyTevUniforms s { s with fogBShift := n } :=
  .of_tevUniforms rfl rfl rfl rfl rfl

theorem fogColor_keeps : Keeps kDirtyTevUniforms s { s with fogColor := row } :=
  .of_tevUniforms rfl rfl rfl rfl rfl

theorem fogC_tev_keeps :
    Keeps (kDirtyShader ||| kDirtyTevUniforms) s { s with fogC := x, tev := tev } :=
  ((fogC_keeps s x).mono within_or_right).trans
    ((tev_keeps { s with fogC := x } tev).mono within_or_left)

theorem fogColor_tev_keeps :
    Keeps (kDirtyShader ||| kDirtyTevUniforms) s { s with fogColor := row, tev := tev } :=
  ((fogColor_keeps s row).mono within_or_right).trans
    ((tev_keeps { s with fogColor := row } tev).mono within_or_left)

theorem peControl_keeps : Keeps kDirtyPixel s { s with pixel := pixel, peControlWrites := writes } :=
  .of_pixel rfl rfl rfl rfl rfl

theorem texInvalidations_keeps (d : BitVec 32) : Keeps d s { s with texInvalidations := writes } :=
  .of_none rfl rfl rfl rfl rfl rfl

theorem viewport_keeps (d : BitVec 32) : Keeps d s { s with viewport := row } :=
  .of_none rfl rfl rfl rfl rfl rfl

theorem projParams_keeps : Keeps kDirtyXfUniforms s (rebuildProjection { s with projParams := row }) :=
  .of_xfUniforms rfl rfl rfl rfl rfl

theorem projOrtho_keeps : Keeps kDirtyXfUniforms s (rebuildProjection { s with projOrtho := ortho }) :=
  .of_xfUniforms rfl rfl rfl rfl rfl

end

theorem modifyStage_keeps (s : State) (stage : Nat) (f : TevStage → TevStage) :
    Keeps kDirtyShader s (s.modifyStage stage f) := .of_shader rfl rfl rfl rfl rfl

theorem modifyTexGen_keeps (s : State) (i : Nat) (f : TexGen → TexGen) :
    Keeps kDirtyShader s (s.modifyTexGen i f) := .of_shader rfl rfl rfl rfl rfl

theorem setTevOrder_keeps (s : State) (stage coord map channel : Nat) :
    Keeps kDirtyShader s (s.setTevOrder stage coord map channel) := by
  unfold setTevOrder
  dsimp only
  split <;> exact .of_shader rfl rfl rfl rfl rfl

theorem setChanCtrl_keeps (s : State) (channel : Nat) (enable : Bool)
    (ambSrc matSrc lightMask diffFn attnFn : Nat) :
    Keeps kDirtyShader s (s.setChanCtrl channel enable ambSrc matSrc lightMask diffFn attnFn) := by
  unfold setChanCtrl
  dsimp only
  split
  · exact .of_shader rfl rfl rfl rfl rfl
  · split <;> exact .of_shader rfl rfl rfl rfl rfl

theorem setCurrentMtx_keeps (s : State) (id : Nat) :
    Keeps kDirtyXfUniforms s (s.setCurrentMtx id) := by
  unfold setCurrentMtx
  dsimp only
  split <;> exact .of_xfUniforms rfl rfl rfl rfl rfl

theorem setChanAmbColor_keeps (s : State) (channel : Nat) (color : Color8) :
    Keeps kDirtyXfUniforms s (s.setChanAmbColor channel color) := .of_xfUniforms rfl rfl rfl rfl rfl

theorem setChanMatColor_keeps (s : State) (channel : Nat) (color : Color8) :
    Keeps kDirtyXfUniforms s (s.setChanMatColor channel color) := .of_xfUniforms rfl rfl rfl rfl rfl

theorem setDualTexture_keeps (s : State) (enable : Bool) :
    Keeps kDirtyShader s (s.setDualTexture enable) := .of_shader rfl rfl rfl rfl rfl

theorem setZMode_keeps (s : State) (enable : Bool) (func : Nat) (updateZ : Bool) :
    Keeps kDirtyPixel s (s.setZMode enable func updateZ) := .of_pixel rfl rfl rfl rfl rfl

theorem setAlphaCompare_keeps (s : State) (comp0 ref0 op comp1 ref1 : Nat) :
    Keeps kDirtyShader s (s.setAlphaCompare comp0 ref0 op comp1 ref1) := .of_shader rfl rfl rfl rfl rfl

theorem setBlendMode_keeps (s : State) (type src dst logicOp : Nat) :
    Keeps kDirtyPixel s (s.setBlendMode type src dst logicOp) := .of_pixel rfl rfl rfl rfl rfl

theorem setColorUpdate_keeps (s : State) (enable : Bool) :
    Keeps kDirtyPixel s (s.setColorUpdate enable) := .of_pixel rfl rfl rfl rfl rfl

theorem setAlphaUpdate_keeps (s : State) (enable : Bool) :
    Keeps kDirtyPixel s (s.setAlphaUpdate enable) := .of_pixel rfl rfl rfl rfl rfl

theorem setNumTexGens_keeps (s : State) (count : Nat) :
    Keeps kDirtyShader s (s.setNumTexGens count) := .of_shader rfl rfl rfl rfl rfl

theorem setNumChans_keeps (s : State) (count : Nat) :
    Keeps kDirtyShader s (s.setNumChans count) := .of_shader rfl rfl rfl rfl rfl

theorem setNumTevStages_keeps (s : State) (count : Nat) :
    Keeps kDirtyShader s (s.setNumTevStages count) := .of_shader rfl rfl rfl rfl rfl

theorem setCullMode_keeps (s : State) (mode : Nat) :
    Keeps kDirtyPixel s (s.setCullMode mode) := .of_pixel rfl rfl rfl rfl rfl

theorem bpDirty_shader {reg : Nat} (h : (0xC0 ≤ reg ∧ reg ≤ 0xDF) ∨ (0x28 ≤ reg ∧ reg ≤ 0x2F) ∨
    (0xF6 ≤ reg ∧ reg ≤ 0xFD)) : bpDirty reg = kDirtyShader := by
  unfold bpDirty
  rcases h with h | h | h
  all_goals
    repeat rw [if_neg (by omega)]
    rw [if_pos (by omega)]

theorem bpDirty_tevRegister {reg : Nat} (h : 0xE0 ≤ reg ∧ reg ≤ 0xE7) :
    bpDirty reg = kDirtyTevUniforms := by
  unfold bpDirty
  repeat rw [if_neg (by omega)]
  rw [if_pos (by omega)]

theorem decodeBP_keeps (s : State) (reg : Nat) (v : BitVec 32) :
    Keeps (bpDirty reg) s (s.decodeBP reg v) := by
  unfold decodeBP
  by_cases h : 0xC0 ≤ reg ∧ reg ≤ 0xDF
  · rw [if_pos h, bpDirty_shader (.inl h)]
    exact modifyStage_keeps s _ _
  rw [if_neg h]
  by_cases h : 0x28 ≤ reg ∧ reg ≤ 0x2F
  · rw [if_pos h, bpDirty_shader (.inr (.inl h))]
    exact (setTevOrder_keeps s _ _ _ _).trans (setTevOrder_keeps _ _ _ _ _)
  rw [if_neg h]
  by_cases h : 0xF6 ≤ reg ∧ reg ≤ 0xFD
  · rw [if_pos h, bpDirty_shader (.inr (.inr h))]
    exact ((tev_keeps s _).trans (modifyStage_keeps _ _ _)).trans (modifyStage_keeps _ _ _)
  rw [if_neg h]
  by_cases h : 0xE0 ≤ reg ∧ reg ≤ 0xE7
  · rw [if_pos h, bpDirty_tevRegister h]
    unfold loadTevRegister
    dsimp only
    split
    · exact kColors_keeps s _
    · exact tevRegs_keeps s _
  rw [if_neg h]
  by_cases h : reg = 0x65
  · rw [if_pos h, h, show bpDirty 0x65 = kDirtyTextures by decide]
    exact tluts_keeps s _
  rw [if_neg h]
  by_cases h : reg = 0x00
  · rw [if_pos h]
    -- GENMODE: the counts, and the culling
    rw [h, show bpDirty 0x00 = kDirtyShader ||| kDirtyPixel by decide]
    have hcounts := ((setNumTexGens_keeps s (bits v 4 0)).trans
      (setNumChans_keeps _ (bits v 3 4))).trans (setNumTevStages_keeps _ (bits v 4 10 + 1))
    exact (hcounts.mono within_or_left).trans ((setCullMode_keeps _ _).mono within_or_right)
  rw [if_neg h]
  by_cases h : reg = 0x40
  · rw [if_pos h, h, show bpDirty 0x40 = kDirtyPixel by decide]
    exact setZMode_keeps s _ _ _
  rw [if_neg h]
  by_cases h : reg = 0x66
  · rw [if_pos h]
    exact texInvalidations_keeps s _ _
  rw [if_neg h]
  by_cases h : reg = 0x43
  · rw [if_pos h, h, show bpDirty 0x43 = kDirtyPixel by decide]
    exact peControl_keeps s _ _
  rw [if_neg h]
  by_cases h : reg = 0x41
  · rw [if_pos h, h, show bpDirty 0x41 = kDirtyPixel by decide]
    exact ((setBlendMode_keeps s _ _ _ _).trans (setColorUpdate_keeps _ _)).trans
      (setAlphaUpdate_keeps _ _)
  rw [if_neg h]
  by_cases h : reg = 0xEE
  · rw [if_pos h, h, show bpDirty 0xEE = kDirtyShader ||| kDirtyTevUniforms by decide]
    exact (fogA_keeps s _).mono within_or_right
  rw [if_neg h]
  by_cases h : reg = 0xEF
  · rw [if_pos h, h, show bpDirty 0xEF = kDirtyShader ||| kDirtyTevUniforms by decide]
    exact (fogBMagnitude_keeps s _).mono within_or_right
  rw [if_neg h]
  by_cases h : reg = 0xF0
  · rw [if_pos h, h, show bpDirty 0xF0 = kDirtyShader ||| kDirtyTevUniforms by decide]
    exact (fogBShift_keeps s _).mono within_or_right
  rw [if_neg h]
  by_cases h : reg = 0xF1
  · rw [if_pos h, h, show bpDirty 0xF1 = kDirtyShader ||| kDirtyTevUniforms by decide]
    exact fogC_tev_keeps s _ _
  rw [if_neg h]
  by_cases h : reg = 0xF2
  · rw [if_pos h, h, show bpDirty 0xF2 = kDirtyShader ||| kDirtyTevUniforms by decide]
    exact (fogColor_keeps s _).mono within_or_right
  rw [if_neg h]
  by_cases h : reg = 0x42
  · rw [if_pos h]
    -- destination alpha: a uniform, and a choice of the shader
    rw [h, show bpDirty 0x42 = kDirtyPixel ||| (kDirtyShader ||| kDirtyTevUniforms) by decide]
    exact (fogColor_tev_keeps s _ _).mono within_or_right
  rw [if_neg h]
  by_cases h : reg = 0xF3
  · rw [if_pos h, h, show bpDirty 0xF3 = kDirtyShader by decide]
    exact setAlphaCompare_keeps s _ _ _ _ _
  rw [if_neg h]
  exact .refl _ s

/-! ## XF -/

theorem loadTexMtxSlots_keeps (first : Nat) (slot : Nat → Nat) (s : State) (d : BitVec 32) :
    Keeps (loadTexMtxSlots first slot s d).2 s (loadTexMtxSlots first slot s d).1 ∧
      Within d (loadTexMtxSlots first slot s d).2 := by
  unfold loadTexMtxSlots
  generalize List.range 4 = ts
  induction ts generalizing s d with
  | nil => exact ⟨.refl d s, fun _ h => h⟩
  | cons t ts ih =>
    simp only [List.foldl_cons]
    by_cases hmoved : (s.vertex.texGens (first + t)).matrix ≠ slot t
    · rw [if_pos hmoved]
      obtain ⟨hkeeps, hwithin⟩ := ih (s.modifyTexGen (first + t) fun tg => { tg with matrix := slot t })
        (d ||| kDirtyShader)
      have hshader : Within kDirtyShader (d ||| kDirtyShader) := within_or_right
      have hmodify := (modifyTexGen_keeps s (first + t) fun tg =>
        { tg with matrix := slot t }).mono hshader
      exact ⟨(hmodify.mono hwithin).trans hkeeps, fun i hi => within_or_left i (hwithin i hi)⟩
    · rw [if_neg hmoved]
      exact ih s d

theorem xfRegisterDirty_shader {reg : Nat} (h : (0x0E ≤ reg ∧ reg ≤ 0x11) ∨
    (0x40 ≤ reg ∧ reg < 0x48) ∨ (0x50 ≤ reg ∧ reg < 0x58)) : xfRegisterDirty reg = kDirtyShader := by
  unfold xfRegisterDirty
  rcases h with h | h | h
  all_goals
    repeat rw [if_neg (by omega)]
    rw [if_pos (by omega)]

theorem xfRegisterDirty_color {reg : Nat} (h : 0x0A ≤ reg ∧ reg ≤ 0x0D) :
    xfRegisterDirty reg = kDirtyXfUniforms := by
  unfold xfRegisterDirty
  repeat rw [if_neg (by omega)]
  rw [if_pos (by omega)]

theorem xfRegisterDirty_projection {reg : Nat} (h : 0x20 ≤ reg ∧ reg ≤ 0x26) :
    xfRegisterDirty reg = kDirtyXfUniforms := by
  unfold xfRegisterDirty
  repeat rw [if_neg (by omega)]
  rw [if_pos (by omega)]

theorem decodeXF_keeps (s : State) (reg : Nat) (v : BitVec 32) :
    Keeps (xfRegisterDirty reg) s (s.decodeXF reg v) := by
  unfold decodeXF
  by_cases h : 0x1A ≤ reg ∧ reg ≤ 0x1F
  · rw [if_pos h]
    exact viewport_keeps s _ _
  rw [if_neg h]
  by_cases h : 0x20 ≤ reg ∧ reg ≤ 0x25
  · rw [if_pos h, xfRegisterDirty_projection (by omega)]
    exact projParams_keeps s _
  rw [if_neg h]
  by_cases h : reg = 0x26
  · rw [if_pos h, xfRegisterDirty_projection (by omega)]
    exact projOrtho_keeps s _
  rw [if_neg h]
  by_cases h : 0x40 ≤ reg ∧ reg < 0x48
  · rw [if_pos h, xfRegisterDirty_shader (.inr (.inl h))]
    exact modifyTexGen_keeps s _ _
  rw [if_neg h]
  by_cases h : 0x50 ≤ reg ∧ reg < 0x58
  · rw [if_pos h, xfRegisterDirty_shader (.inr (.inr h))]
    exact modifyTexGen_keeps s _ _
  rw [if_neg h]
  exact .refl _ s

theorem loadXFRegister_keeps (s : State) (reg : Nat) (v : BitVec 32) :
    Keeps (loadXFRegister s reg v).2 s (loadXFRegister s reg v).1 ∧
      Within (xfRegisterDirty reg) (loadXFRegister s reg v).2 := by
  unfold loadXFRegister
  dsimp only
  by_cases h : reg = 0x09
  · rw [if_pos h, h, show xfRegisterDirty 0x09 = kDirtyShader by decide]
    exact ⟨setNumChans_keeps s _, fun _ h => h⟩
  rw [if_neg h]
  by_cases h : reg = 0x0A ∨ reg = 0x0B
  · rw [if_pos h, xfRegisterDirty_color (by omega)]
    exact ⟨setChanAmbColor_keeps s _ _, fun _ h => h⟩
  rw [if_neg h]
  by_cases h : reg = 0x0C ∨ reg = 0x0D
  · rw [if_pos h, xfRegisterDirty_color (by omega)]
    exact ⟨setChanMatColor_keeps s _ _, fun _ h => h⟩
  rw [if_neg h]
  by_cases h : 0x0E ≤ reg ∧ reg ≤ 0x11
  · rw [if_pos h, xfRegisterDirty_shader (.inl h)]
    exact ⟨setChanCtrl_keeps s _ _ _ _ _ _ _, fun _ h => h⟩
  rw [if_neg h]
  by_cases h : reg = 0x12
  · rw [if_pos h, h, show xfRegisterDirty 0x12 = kDirtyShader by decide]
    exact ⟨setDualTexture_keeps s _, fun _ h => h⟩
  rw [if_neg h]
  by_cases h : reg = 0x18
  · rw [if_pos h]
    -- the row of positions, then the texture matrices
    rw [h, show xfRegisterDirty 0x18 = kDirtyXfUniforms by decide]
    obtain ⟨hkeeps, hwithin⟩ := loadTexMtxSlots_keeps 0
      (fun t => texMtxSlotFromRow (bits v 6 (6 + t * 6))) (s.setCurrentMtx (bits v 6 0))
      kDirtyXfUniforms
    exact ⟨((setCurrentMtx_keeps s _).mono hwithin).trans hkeeps, hwithin⟩
  rw [if_neg h]
  by_cases h : reg = 0x19
  · rw [if_pos h]
    exact loadTexMtxSlots_keeps 4 _ s _
  rw [if_neg h]
  by_cases h : reg = 0x3F
  · rw [if_pos h, h, show xfRegisterDirty 0x3F = kDirtyShader by decide]
    exact ⟨setNumTexGens_keeps s _, fun _ h => h⟩
  rw [if_neg h]
  exact ⟨decodeXF_keeps s reg v, fun _ h => h⟩

/-! ## the law -/

/-- **What the flags promise** of a load from `s` to `s'`. -/
structure Marked (s s' : State) : Prop where
  kept : s.dirty &&& s'.dirty = s.dirty
  shader : s'.dirty &&& kDirtyShader = 0 → s'.Tev = s.Tev ∧ s'.Vertex = s.Vertex
  pixel : s'.dirty &&& kDirtyPixel = 0 → s'.pixel = s.pixel
  tevUniforms : s'.dirty &&& kDirtyTevUniforms = 0 → s'.TevUniforms = s.TevUniforms
  xfUniforms : s'.dirty &&& kDirtyXfUniforms = 0 → s'.XfUniforms = s.XfUniforms
  textures : s'.dirty &&& kDirtyTextures = 0 →
    (∀ map, s'.Texture map = s.Texture map) ∧ ∀ tmem, s'.Tlut tmem = s.Tlut tmem

/-- the registers that a draw reads as they are, by the flag that covers them -/
structure RegsKept (d : BitVec 32) (s s' : State) : Prop where
  shader : Clear d 0 → ∀ reg, reg = 0 ∨ 0x10 ≤ reg ∧ reg ≤ 0x1F ∨ 0x25 ≤ reg ∧ reg ≤ 0x27 →
    s'.bpRegs reg = s.bpRegs reg
  tevUniforms : Clear d 2 → ∀ reg, 0x06 ≤ reg ∧ reg ≤ 0x0E → s'.bpRegs reg = s.bpRegs reg
  textures : Clear d 4 → ∀ reg, 0x80 ≤ reg ∧ reg ≤ 0xBB → s'.bpRegs reg = s.bpRegs reg

theorem tev_congr (hpart : shaderPart s' = shaderPart s) (hregs : ∀ reg, reg = 0 ∨
    0x10 ≤ reg ∧ reg ≤ 0x1F ∨ 0x25 ≤ reg ∧ reg ≤ 0x27 → s'.bpRegs reg = s.bpRegs reg) :
    s'.Tev = s.Tev := by
  have htev : s'.tev = s.tev := congrArg Prod.fst hpart
  have hvertex : s'.vertex = s.vertex := congrArg (fun x => x.2.1) hpart
  have hstages : (fun n => if n < 16 then
      { s.tev.stages n with ind := bits (s'.bpRegs (0x10 + n)) 21 0 } else s.tev.stages n) =
      fun n => if n < 16 then
        { s.tev.stages n with ind := bits (s.bpRegs (0x10 + n)) 21 0 } else s.tev.stages n := by
    funext n
    by_cases hn : n < 16
    · rw [if_pos hn, if_pos hn, hregs (0x10 + n) (by omega)]
    · rw [if_neg hn, if_neg hn]
  have hscales : ∀ i : Nat, s'.bpRegs (if i < 2 then 0x25 else 0x26) =
      s.bpRegs (if i < 2 then 0x25 else 0x26) := fun i => hregs _ (by split <;> omega)
  unfold State.Tev
  simp only [htev, hvertex, hregs 0 (by omega), hregs 0x27 (by omega), hscales]
  rw [hstages]

theorem vertex_congr (hpart : shaderPart s' = shaderPart s) : s'.Vertex = s.Vertex := by
  have hvertex : s'.vertex = s.vertex := congrArg (fun x => x.2.1) hpart
  have hdesc : s'.vtxDesc = s.vtxDesc := congrArg (fun x => x.2.2) hpart
  unfold State.Vertex
  rw [hvertex, hdesc]

theorem tevUniforms_congr (hpart : tevPart s' = tevPart s)
    (hregs : ∀ reg, 0x06 ≤ reg ∧ reg ≤ 0x0E → s'.bpRegs reg = s.bpRegs reg) :
    s'.TevUniforms = s.TevUniforms := by
  obtain ⟨h1, h2, h3, h4, h5, h6, h7⟩ : s'.tevRegs = s.tevRegs ∧ s'.kColors = s.kColors ∧
      s'.fogColor = s.fogColor ∧ s'.fogA = s.fogA ∧ s'.fogC = s.fogC ∧
      s'.fogBMagnitude = s.fogBMagnitude ∧ s'.fogBShift = s.fogBShift := by
    simpa [tevPart] using hpart
  have hmatrices : ((List.range 3).flatMap fun m => indirectMatrixWords (s'.bpRegs (0x06 + 3 * m))
      (s'.bpRegs (0x07 + 3 * m)) (s'.bpRegs (0x08 + 3 * m))) =
      (List.range 3).flatMap fun m => indirectMatrixWords (s.bpRegs (0x06 + 3 * m))
        (s.bpRegs (0x07 + 3 * m)) (s.bpRegs (0x08 + 3 * m)) := by
    refine List.flatMap_congr fun m hm => ?_
    have hm : m < 3 := List.mem_range.mp hm
    rw [hregs (0x06 + 3 * m) (by omega), hregs (0x07 + 3 * m) (by omega),
      hregs (0x08 + 3 * m) (by omega)]
  unfold State.TevUniforms
  rw [h1, h2, h3, h4, h5, h6, h7, hmatrices]

theorem xfUniforms_congr (hpart : xfPart s' = xfPart s) : s'.XfUniforms = s.XfUniforms := by
  obtain ⟨h1, h2, h3, h4, h5, h6, h7, h8, h9⟩ : s'.posRows = s.posRows ∧ s'.nrmRows = s.nrmRows ∧
      s'.texRows = s.texRows ∧ s'.postRows = s.postRows ∧ s'.proj = s.proj ∧
      s'.chanAmb = s.chanAmb ∧ s'.chanMat = s.chanMat ∧ s'.lights = s.lights ∧
      s'.currentPosRow = s.currentPosRow := by
    simpa [xfPart] using hpart
  unfold State.XfUniforms
  rw [h1, h2, h3, h4, h5, h6, h7, h8, h9]

theorem texture_congr (hregs : ∀ reg, 0x80 ≤ reg ∧ reg ≤ 0xBB → s'.bpRegs reg = s.bpRegs reg)
    (map : Fin 8) : s'.Texture map = s.Texture map := by
  have hbase : ∀ k, k ≤ 0x18 →
      s'.bpRegs ((if map.val < 4 then 0x80 + map.val else 0xA0 + (map.val - 4)) + k) =
        s.bpRegs ((if map.val < 4 then 0x80 + map.val else 0xA0 + (map.val - 4)) + k) := by
    intro k hk
    have hmap := map.isLt
    apply hregs
    split <;> omega
  unfold State.Texture
  dsimp only
  rw [hbase 4 (by omega), hbase 8 (by omega), hbase 0x14 (by omega), hbase 0x18 (by omega)]
  have h0 := hbase 0 (by omega)
  rw [Nat.add_zero] at h0
  rw [h0]

namespace Marked

theorem of_keeps (hkept : Within s.dirty s'.dirty) (hkeeps : Covers s'.dirty s s')
    (hregs : RegsKept s'.dirty s s') : Marked s s' where
  kept := by
    apply BitVec.eq_of_getLsbD_eq
    intro i _
    rw [BitVec.getLsbD_and]
    cases hbit : s'.dirty.getLsbD i with
    | true => rw [Bool.and_true]
    | false =>
      have hclear : s.dirty.getLsbD i = false := hkept i hbit
      rw [hclear, Bool.and_false]
  shader h := by
    have hc := (clear_iff (by decide)).mp h
    exact ⟨tev_congr (hkeeps.shader hc) (hregs.shader hc), vertex_congr (hkeeps.shader hc)⟩
  pixel h := hkeeps.pixel ((clear_iff (by decide)).mp h)
  tevUniforms h := by
    have hc := (clear_iff (by decide)).mp h
    exact tevUniforms_congr (hkeeps.tevUniforms hc) (hregs.tevUniforms hc)
  xfUniforms h := xfUniforms_congr (hkeeps.xfUniforms ((clear_iff (by decide)).mp h))
  textures h := by
    have hc := (clear_iff (by decide)).mp h
    refine ⟨texture_congr (hregs.textures hc), fun tmem => ?_⟩
    unfold State.Tlut
    rw [hkeeps.textures hc]

end Marked

/-! ## loads -/

theorem Keeps.bpRegs (h : Keeps d s s') : s'.bpRegs = s.bpRegs := congrArg Prod.fst h.raw

theorem bpDirty_regs {reg : Nat} :
    (reg = 0 ∨ 0x10 ≤ reg ∧ reg ≤ 0x1F ∨ 0x25 ≤ reg ∧ reg ≤ 0x27 → ¬Clear (bpDirty reg) 0) ∧
    (0x06 ≤ reg ∧ reg ≤ 0x0E → ¬Clear (bpDirty reg) 2) ∧
    (0x80 ≤ reg ∧ reg ≤ 0xBB → ¬Clear (bpDirty reg) 4) := by
  refine ⟨fun h => ?_, fun h => ?_, fun h => ?_⟩
  · rcases h with h | h | h
    · rw [h]
      decide
    all_goals
      unfold bpDirty
      repeat rw [if_neg (by omega)]
      rw [if_pos (by omega)]
      decide
  all_goals
    unfold bpDirty
    repeat rw [if_neg (by omega)]
    rw [if_pos (by omega)]
    decide

/-- **One BP word.** -/
theorem marked_applyBP (s : State) (value : BitVec 32) : Marked s (s.applyBP value) := by
  by_cases hmask : bits value 8 24 = 0xFE
  · rw [applyBP_mask hmask]
    exact .of_keeps within_or_left
      ⟨fun _ => rfl, fun _ => rfl, fun _ => rfl, fun _ => rfl, fun _ => rfl⟩
      ⟨fun _ _ _ => rfl, fun _ _ _ => rfl, fun _ _ _ => rfl⟩
  · generalize hreg : bits value 8 24 = reg at hmask
    rw [applyBP_register hreg hmask]
    generalize s.merged reg value = v
    have hstore : Covers (bpDirty reg) s (s.storeBP reg v) :=
      ⟨fun _ => rfl, fun _ => rfl, fun _ => rfl, fun _ => rfl, fun _ => rfl⟩
    have hdecode := decodeBP_keeps (s.storeBP reg v) reg v
    have hregs := hdecode.bpRegs
    generalize (s.storeBP reg v).decodeBP reg v = s₂ at hdecode hregs
    have hfields : Covers (bpDirty reg) s { s₂ with dirty := s.dirty ||| bpDirty reg } :=
      (hstore.trans hdecode.toCovers).trans
        ⟨fun _ => rfl, fun _ => rfl, fun _ => rfl, fun _ => rfl, fun _ => rfl⟩
    have hother : ∀ r, r ≠ reg → s₂.bpRegs r = s.bpRegs r := fun r hr => by
      rw [hregs]
      exact update_of_ne hr v s.bpRegs
    refine .of_keeps within_or_left (hfields.mono within_or_right)
      ⟨fun hc r hr => hother r ?_, fun hc r hr => hother r ?_, fun hc r hr => hother r ?_⟩
    · rintro rfl
      exact bpDirty_regs.1 hr (clear_or.mp hc).2
    · rintro rfl
      exact bpDirty_regs.2.1 hr (clear_or.mp hc).2
    · rintro rfl
      exact bpDirty_regs.2.2 hr (clear_or.mp hc).2

theorem regsKept_of_eq (h : s'.bpRegs = s.bpRegs) : RegsKept d s s' :=
  ⟨fun _ _ _ => congrFun h _, fun _ _ _ => congrFun h _, fun _ _ _ => congrFun h _⟩

theorem Covers.dirty (s : State) (x : BitVec 32) : Covers d s { s with dirty := x } :=
  ⟨fun _ => rfl, fun _ => rfl, fun _ => rfl, fun _ => rfl, fun _ => rfl⟩

/-- a load that keeps the flags, the registers, and what the flags do not cover -/
structure Safe (s s' : State) : Prop where
  kept : Within s.dirty s'.dirty
  covers : Covers s'.dirty s s'
  regs : s'.bpRegs = s.bpRegs

namespace Safe

theorem refl (s : State) : Safe s s := ⟨fun _ h => h, .refl _ s, rfl⟩

theorem trans (h : Safe s s') (h' : Safe s' s'') : Safe s s'' :=
  ⟨fun i hi => h.kept i (h'.kept i hi), (h.covers.mono h'.kept).trans h'.covers,
    h'.regs.trans h.regs⟩

theorem marked (h : Safe s s') : Marked s s' := .of_keeps h.kept h.covers (regsKept_of_eq h.regs)

end Safe

theorem safe_applyXFRegister (s : State) (reg : Nat) (v : BitVec 32) :
    Safe s (s.applyXFRegister reg v) := by
  obtain ⟨hkeeps, -⟩ := loadXFRegister_keeps { s with generation := s.generation + 1 } reg v
  unfold applyXFRegister
  dsimp only
  generalize loadXFRegister { s with generation := s.generation + 1 } reg v = r at hkeeps
  have hfields : Covers r.2 s { r.1 with dirty := s.dirty ||| r.2 } := by
    have hbump : Covers r.2 s { s with generation := s.generation + 1 } :=
      ⟨fun _ => rfl, fun _ => rfl, fun _ => rfl, fun _ => rfl, fun _ => rfl⟩
    exact (hbump.trans hkeeps.toCovers).trans (.dirty r.1 _)
  exact ⟨within_or_left, hfields.mono within_or_right, hkeeps.bpRegs⟩

theorem safe_memory (hset : ¬Clear s.dirty 3) (hdirty : s'.dirty = s.dirty)
    (hshader : shaderPart s' = shaderPart s) (hpixel : s'.pixel = s.pixel)
    (htev : tevPart s' = tevPart s) (htluts : s'.tluts = s.tluts) (hregs : s'.bpRegs = s.bpRegs) :
    Safe s s' :=
  ⟨fun _ hi => hdirty ▸ hi, ⟨fun _ => hshader, fun _ => hpixel, fun _ => htev,
    fun hc => absurd (hdirty ▸ hc) hset, fun _ => htluts⟩, hregs⟩

theorem safe_applyXFWord (s : State) (a : Nat) (w : BitVec 32) (hset : a < 0x1000 → ¬Clear s.dirty 3) :
    Safe s (s.applyXFWord a w) := by
  unfold applyXFWord
  split
  · next ha =>
    split
    · exact safe_memory (hset (by omega)) rfl rfl rfl rfl rfl rfl
    · split
      · exact safe_memory (hset (by omega)) rfl rfl rfl rfl rfl rfl
      · exact .refl s
  · split
    · split
      · exact safe_memory (hset (by omega)) rfl rfl rfl rfl rfl rfl
      · exact .refl s
    · split
      · split
        · exact safe_memory (hset (by omega)) rfl rfl rfl rfl rfl rfl
        · exact .refl s
      · split
        · exact safe_memory (hset (by omega)) rfl rfl rfl rfl rfl rfl
        · split
          · exact safe_applyXFRegister s _ w
          · exact .refl s

theorem applyXFWord_top (s : State) (w : BitVec 32) : ¬Clear (s.applyXFWord 0xFFFFFFFF w).dirty 3 := by
  have hword : s.applyXFWord 0xFFFFFFFF w = s.applyXFRegister (0xFFFFFFFF - 0x1000) w := by
    unfold applyXFWord
    repeat rw [if_neg (by omega)]
    rw [if_pos (by omega)]
  rw [hword]
  intro hc
  obtain ⟨-, hwithin⟩ :=
    loadXFRegister_keeps { s with generation := s.generation + 1 } (0xFFFFFFFF - 0x1000) w
  have hall : xfRegisterDirty (0xFFFFFFFF - 0x1000) = kDirtyAll := by
    unfold xfRegisterDirty
    repeat rw [if_neg (by omega)]
  have hclear := hwithin 3 (clear_or.mp hc).2
  rw [hall] at hclear
  exact absurd hclear (by decide)

/-- words in a row: memory comes after a mark, also when the addresses wrap around -/
theorem safe_applyXFWords (s : State) (address : BitVec 32) (words : List (BitVec 32))
    (hset : address.toNat < 0x1000 → ¬Clear s.dirty 3) : Safe s (s.applyXFWords address words) := by
  induction words generalizing s address with
  | nil => exact .refl s
  | cons w words ih =>
    have hword := safe_applyXFWord s address.toNat w hset
    refine hword.trans (ih _ _ fun hnext => ?_)
    by_cases htop : address.toNat = 0xFFFFFFFF
    · rw [htop]
      exact applyXFWord_top s w
    · have hlow : address.toNat < 0x1000 := by
        rw [BitVec.toNat_add] at hnext
        have hlt := address.isLt
        simp at hnext
        omega
      exact fun hc => hset hlow (hword.kept 3 hc)

theorem storeXF_eq (s : State) (address : BitVec 32) (words : List (BitVec 32)) :
    ∃ raw written, s.storeXF address words = { s with xfRaw := raw, xfWritten := written } := by
  induction words generalizing s address with
  | nil => exact ⟨_, _, rfl⟩
  | cons w words ih =>
    unfold storeXF
    split
    · obtain ⟨raw, written, h⟩ := ih { s with
        xfRaw := update s.xfRaw address.toNat w
        xfWritten := update s.xfWritten address.toNat true } (address + 1)
      exact ⟨raw, written, h⟩
    · exact ⟨_, _, rfl⟩

/-- **A block of XF words.** -/
theorem marked_applyXF (s : State) (address : BitVec 32) (words : List (BitVec 32)) :
    Marked s (s.applyXF address words) := by
  unfold applyXF
  obtain ⟨raw, written, h⟩ := storeXF_eq { s with generation := s.generation + 1 } address words
  rw [h]
  dsimp only
  have hmark : ∀ x, Within s.dirty x → Safe s ({ s with
      generation := s.generation + 1, xfRaw := raw, xfWritten := written, dirty := x } : State) :=
    fun x hx => ⟨hx, ⟨fun _ => rfl, fun _ => rfl, fun _ => rfl, fun _ => rfl, fun _ => rfl⟩, rfl⟩
  split
  · refine ((hmark _ within_or_left).trans (safe_applyXFWords _ address words fun _ hc => ?_)).marked
    exact absurd (clear_or.mp hc).2 (by decide)
  · next hhigh =>
    exact ((hmark _ fun _ h => h).trans
      (safe_applyXFWords _ address words fun hlow => absurd hlow hhigh)).marked

/-- **Dirty flags never miss a change**, whatever the state and the load. -/
theorem dirty_flags_complete (s : State) :
    (∀ value, Marked s (s.applyBP value)) ∧
      ∀ address words, Marked s (s.applyXF address words) :=
  ⟨marked_applyBP s, marked_applyXF s⟩

/-! ## streams -/

namespace Marked

theorem refl (s : State) : Marked s s := (Safe.refl s).marked

theorem trans (h : Marked s s') (h' : Marked s' s'') : Marked s s'' := by
  have hclear (k : BitVec 32) (hk : s''.dirty &&& k = 0) : s'.dirty &&& k = 0 := by
    rw [← h'.kept, BitVec.and_assoc, hk]
    exact BitVec.and_zero
  refine ⟨by rw [← h.kept, BitVec.and_assoc, h'.kept], fun hk => ?_, fun hk => ?_, fun hk => ?_,
    fun hk => ?_, fun hk => ?_⟩
  · obtain ⟨htev, hvertex⟩ := h.shader (hclear _ hk)
    exact ⟨(h'.shader hk).1.trans htev, (h'.shader hk).2.trans hvertex⟩
  · exact (h'.pixel hk).trans (h.pixel (hclear _ hk))
  · exact (h'.tevUniforms hk).trans (h.tevUniforms (hclear _ hk))
  · exact (h'.xfUniforms hk).trans (h.xfUniforms (hclear _ hk))
  · obtain ⟨htexture, htlut⟩ := h.textures (hclear _ hk)
    exact ⟨fun map => ((h'.textures hk).1 map).trans (htexture map),
      fun tmem => ((h'.textures hk).2 tmem).trans (htlut tmem)⟩

end Marked

theorem safe_touch_shader (h : s'.dirty = s.dirty ||| kDirtyShader) (hpixel : s'.pixel = s.pixel)
    (htev : tevPart s' = tevPart s) (hxf : xfPart s' = xfPart s) (htluts : s'.tluts = s.tluts)
    (hregs : s'.bpRegs = s.bpRegs) : Safe s s' :=
  ⟨h ▸ within_or_left, ⟨fun hc => absurd (clear_or.mp (h ▸ hc)).2 (by decide), fun _ => hpixel,
    fun _ => htev, fun _ => hxf, fun _ => htluts⟩, hregs⟩

theorem safe_clearVtxDesc (s : State) : Safe s s.clearVtxDesc :=
  safe_touch_shader rfl rfl rfl rfl rfl rfl

theorem safe_setVtxDesc (s : State) (attr type : Nat) : Safe s (s.setVtxDesc attr type) := by
  unfold State.setVtxDesc
  exact if_rec (P := Safe s) (safe_touch_shader rfl rfl rfl rfl rfl rfl)
    (safe_touch_shader rfl rfl rfl rfl rfl rfl)

namespace Processor

theorem marked_invariant (s : State) : Invariant fun p => Marked s p.state :=
  .of_state (fun s' h => h.trans (safe_clearVtxDesc s').marked)
    (fun s' attr type h => h.trans (safe_setVtxDesc s' attr type).marked)
    (fun s' value h => h.trans (marked_applyBP s' value))
    fun s' address words _ _ _ h => h.trans (marked_applyXF s' address words)

/-- **The flags miss no change over a whole stream**, through all the lists that it calls. -/
theorem Run_marked (memory : Memory) (depth : Nat) (p : Processor) (data : List Byte) :
    Marked p.state (Run memory depth p data).1.state :=
  (marked_invariant p.state).Run memory (.refl _) depth data

end Processor

end DolTranslator.Gx
