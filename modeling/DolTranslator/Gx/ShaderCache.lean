import DolTranslator.Gx.ShaderKeys

/-!
# The keys of the shader cache over every run of loads

* `State.Ranged`   every field within the width that a key gives it;
* `RegisterLoad`, `Processor.loadRegister`   a load of the CP, of BP, or of XF;
* `loadRegister_ranged`, `Run_ranged`   what one load keeps, what a stream keeps;
* `cacheKeys_sound`   equal keys mean equal shaders.
-/

namespace DolTranslator.Gx

open Function

structure State.Ranged (s : State) : Prop where
  tev : s.tev.Ranged
  vertex : s.vertex.Ranged

theorem bits_lt_of_le {v : BitVec 32} {size shift n : Nat} (h : 2 ^ size ≤ n) : bits v size shift < n :=
  Nat.lt_of_lt_of_le (Nat.mod_lt _ (Nat.two_pow_pos size)) h

theorem forall_update {α : Type} {P : α → Prop} {f : Nat → α} {a : α} (hf : ∀ i, P (f i)) (ha : P a)
    (n : Nat) : ∀ i, P (update f n a i) := by
  intro i
  rcases eq_or_ne i n with rfl | hne
  · rwa [update_self]
  · rw [update_of_ne hne]
    exact hf i

namespace State

theorem channelOf_lt (id : Nat) : channelOf id < 256 := by
  unfold channelOf
  split
  · decide
  · split
    · decide
    · split <;> decide

variable {s : State} (h : s.Ranged)
include h

/-! ## the setters -/

theorem Ranged.modifyStage {f : TevStage → TevStage} {n : Nat} (hf : (f (s.tev.stages n)).Ranged) :
    (s.modifyStage n f).Ranged :=
  ⟨{ h.tev with stages := forall_update h.tev.stages hf n }, h.vertex⟩

theorem Ranged.modifyTexGen {f : TexGen → TexGen} {n : Nat} (hf : (f (s.vertex.texGens n)).Ranged) :
    (s.modifyTexGen n f).Ranged :=
  ⟨h.tev, { h.vertex with texGens := forall_update h.vertex.texGens hf n }⟩

theorem Ranged.setNumTevStages (count : Nat) : (s.setNumTevStages count).Ranged := by
  refine ⟨{ h.tev with stageCount := ?_ }, h.vertex⟩
  show (if count < 1 then 1 else if count > 16 then 16 else count) ≤ 16
  split
  · decide
  · split <;> omega

theorem Ranged.setTevOrder {coord : Nat} (hcoord : coord < 256) (stage map channel : Nat) :
    (s.setTevOrder stage coord map channel).Ranged := by
  have htouch : (s.touch kDirtyAll).Ranged := ⟨h.tev, h.vertex⟩
  unfold State.setTevOrder
  dsimp only
  split
  · exact htouch
  · apply htouch.modifyStage
    exact { h.tev.stages stage with
      texCoord := hcoord
      texMap := by
        show (if map.testBit 8 ∨ map % 256 ≥ 8 then kTexNull else map % 256) < 256
        split
        · decide
        · exact Nat.mod_lt _ (by decide)
      channel := channelOf_lt channel }

theorem Ranged.setNumChans (count : Nat) : (s.setNumChans count).Ranged := by
  refine ⟨h.tev, { h.vertex with channelCount := ?_ }⟩
  show (if count > 2 then 2 else count) ≤ 2
  split <;> omega

theorem Ranged.setNumTexGens (count : Nat) : (s.setNumTexGens count).Ranged := by
  refine ⟨h.tev, { h.vertex with texGenCount := ?_ }⟩
  show (if count > 8 then 8 else count) ≤ 8
  split <;> omega

theorem Ranged.setChanCtrl (channel : Nat) (enable : Bool) (ambSrc matSrc lightMask diffFn attnFn : Nat) :
    (s.setChanCtrl channel enable ambSrc matSrc lightMask diffFn attnFn).Ranged := by
  have hchannel : ColorChannel.Ranged
      { lighting := enable
        ambient := ambSrc % 2
        material := matSrc % 2
        lightMask := lightMask % 256
        diffuse := if diffFn > 2 then 0 else diffFn
        attenuation := if attnFn > 2 then 2 else attnFn } := by
    refine ⟨Nat.mod_lt _ (by decide), Nat.mod_lt _ (by decide), Nat.mod_lt _ (by decide), ?_, ?_⟩
    · show (if diffFn > 2 then 0 else diffFn) < 4
      split <;> omega
    · show (if attnFn > 2 then 2 else attnFn) < 4
      split <;> omega
  unfold State.setChanCtrl
  dsimp only
  split
  · exact ⟨h.tev, { h.vertex with
      channels := forall_update (forall_update h.vertex.channels hchannel _) hchannel _ }⟩
  · split
    · exact ⟨h.tev, { h.vertex with channels := forall_update h.vertex.channels hchannel _ }⟩
    · exact ⟨h.tev, h.vertex⟩

theorem Ranged.setAlphaCompare {ref0 ref1 : Nat} (href0 : ref0 < 256) (href1 : ref1 < 256)
    (comp0 op comp1 : Nat) : (s.setAlphaCompare comp0 ref0 op comp1 ref1).Ranged :=
  ⟨{ h.tev with
      alphaComp0 := Nat.lt_of_lt_of_le (Nat.mod_lt _ (by decide)) (by decide)
      alphaRef0 := href0
      alphaOp := Nat.lt_of_lt_of_le (Nat.mod_lt _ (by decide)) (by decide)
      alphaComp1 := Nat.lt_of_lt_of_le (Nat.mod_lt _ (by decide)) (by decide)
      alphaRef1 := href1 }, h.vertex⟩

theorem Ranged.setTexCoordGen2 {type src : Nat} (htype : type < 256) (hsrc : src < 256) (dst mtx : Nat)
    (normalize : Bool) (postMtx : Nat) :
    (s.setTexCoordGen2 dst type src mtx normalize postMtx).Ranged := by
  have htouch : (s.touch kDirtyAll).Ranged := ⟨h.tev, h.vertex⟩
  unfold State.setTexCoordGen2
  dsimp only
  split
  · exact htouch
  · apply htouch.modifyTexGen
    refine ⟨htype, hsrc, ?_, ?_⟩
    · show (if 30 ≤ mtx ∧ mtx < 60 then (mtx - 30) / 3 else kIdentity) < 256
      split
      · omega
      · decide
    · show (if 64 ≤ postMtx ∧ postMtx < 124 then (postMtx - 64) / 3 else kIdentity) < 256
      split
      · omega
      · decide

/-! ## BP -/

omit h in
theorem tevCombiner_ranged {k : TevCombiner} (hk : k.Ranged) (v : BitVec 32) :
    (tevCombiner k v).Ranged := by
  have hop : bits v 1 18 < 256 := bits_lt_of_le (by decide)
  have hcompare : 8 + (bits v 1 18 ||| bits v 2 20 <<< 1) < 256 := by
    have hlow : bits v 1 18 < 2 ^ 1 := bits_lt_of_le le_rfl
    have hhigh : bits v 2 20 < 2 ^ 2 := bits_lt_of_le le_rfl
    have := Streams.or_shiftLeft_lt hlow hhigh
    omega
  unfold tevCombiner
  dsimp only
  split
  · exact { hk with
      op := hcompare
      bias := Nat.zero_lt_succ _
      scale := Nat.zero_lt_succ _
      out := bits_lt_of_le (by decide) }
  · exact { hk with
      op := hop
      bias := bits_lt_of_le (by decide)
      scale := bits_lt_of_le (by decide)
      out := bits_lt_of_le (by decide) }

omit h in
theorem arguments_ranged {k : TevCombiner} (hk : k.Ranged) {a b c d : Nat} (ha : a < 2 ^ 4)
    (hb : b < 2 ^ 4) (hc : c < 2 ^ 4) (hd : d < 2 ^ 4) :
    TevCombiner.Ranged { k with a := a, b := b, c := c, d := d } :=
  { hk with
    a := Nat.lt_of_lt_of_le ha (by decide)
    b := Nat.lt_of_lt_of_le hb (by decide)
    c := Nat.lt_of_lt_of_le hc (by decide)
    d := Nat.lt_of_lt_of_le hd (by decide) }

theorem Ranged.loadTevEnv (reg : Nat) (v : BitVec 32) : (s.loadTevEnv reg v).Ranged := by
  apply h.modifyStage
  have hstage := h.tev.stages ((reg - 0xC0) / 2)
  dsimp only
  split
  · have halpha := arguments_ranged hstage.alpha (a := bits v 3 13) (b := bits v 3 10)
      (c := bits v 3 7) (d := bits v 3 4) (bits_lt_of_le (by decide)) (bits_lt_of_le (by decide))
      (bits_lt_of_le (by decide)) (bits_lt_of_le (by decide))
    exact { hstage with
      rasSwap := bits_lt_of_le (by decide)
      texSwap := bits_lt_of_le (by decide)
      alpha := tevCombiner_ranged halpha v }
  · have hcolor := arguments_ranged hstage.color (a := bits v 4 12) (b := bits v 4 8)
      (c := bits v 4 4) (d := bits v 4 0) (bits_lt_of_le le_rfl) (bits_lt_of_le le_rfl)
      (bits_lt_of_le le_rfl) (bits_lt_of_le le_rfl)
    exact { hstage with color := tevCombiner_ranged hcolor v }

theorem Ranged.loadTevOrders (reg : Nat) (v : BitVec 32) : (s.loadTevOrders reg v).Ranged :=
  (h.setTevOrder (bits_lt_of_le (by decide)) _ _ _).setTevOrder (bits_lt_of_le (by decide)) _ _ _

theorem Ranged.setKonst {color alpha : Nat} (hcolor : color < 256) (halpha : alpha < 256) (n : Nat) :
    (s.modifyStage n fun k => { k with kcolorSel := color, kalphaSel := alpha }).Ranged :=
  h.modifyStage { h.tev.stages n with kcolorSel := hcolor, kalphaSel := halpha }

omit h in
theorem halfSwap_ranged {w : TevSwap} (hw : w.Ranged) (odd : Prop) [Decidable odd] (v : BitVec 32) :
    (if odd then { w with b := bits v 2 0, a := bits v 2 2 }
      else { w with r := bits v 2 0, g := bits v 2 2 }).Ranged := by
  split
  · exact { hw with b := bits_lt_of_le (by decide), a := bits_lt_of_le (by decide) }
  · exact { hw with r := bits_lt_of_le (by decide), g := bits_lt_of_le (by decide) }

theorem Ranged.loadKonstSelections (reg : Nat) (v : BitVec 32) :
    (s.loadKonstSelections reg v).Ranged := by
  have hswapped : State.Ranged { s with tev := { s.tev with
      swapTable := modifyAt s.tev.swapTable ((reg - 0xF6) / 2) fun w =>
        if (reg - 0xF6) % 2 = 1 then { w with b := bits v 2 0, a := bits v 2 2 }
        else { w with r := bits v 2 0, g := bits v 2 2 } } } :=
    ⟨{ h.tev with
        swapTable := forall_update h.tev.swapTable (halfSwap_ranged (h.tev.swapTable _) _ v) _ },
      h.vertex⟩
  exact (hswapped.setKonst (bits_lt_of_le (by decide)) (bits_lt_of_le (by decide)) _).setKonst
    (bits_lt_of_le (by decide)) (bits_lt_of_le (by decide)) _

theorem Ranged.loadTevRegister (reg : Nat) (v : BitVec 32) : (s.loadTevRegister reg v).Ranged := by
  unfold State.loadTevRegister
  dsimp only
  split <;> exact ⟨h.tev, h.vertex⟩

omit h in
theorem Ranged.of_eq {s' : State} (h : s.Ranged) (htev : s'.tev = s.tev)
    (hvertex : s'.vertex = s.vertex) : s'.Ranged :=
  ⟨htev ▸ h.tev, hvertex ▸ h.vertex⟩

/-- the counts, fog, destination alpha and the alpha test; the rest are kept elsewhere -/
theorem Ranged.decodeBP (reg : Nat) (v : BitVec 32) : (s.decodeBP reg v).Ranged := by
  have hcounts := ((h.setNumTexGens (bits v 4 0)).setNumChans (bits v 3 4)).setNumTevStages
    (bits v 4 10 + 1)
  have hfog : bits v 3 21 ||| bits v 1 20 <<< 3 < 256 :=
    Nat.lt_of_lt_of_le (Streams.or_shiftLeft_lt (n := 3) (m := 1) (bits_lt_of_le le_rfl)
      (bits_lt_of_le le_rfl)) (by decide)
  unfold State.decodeBP
  refine if_rec (P := State.Ranged) (h.loadTevEnv reg v) ?_
  refine if_rec (P := State.Ranged) (h.loadTevOrders reg v) ?_
  refine if_rec (P := State.Ranged) (h.loadKonstSelections reg v) ?_
  refine if_rec (P := State.Ranged) (h.loadTevRegister reg v) ?_
  refine if_rec (P := State.Ranged) (h.of_eq rfl rfl) ?_
  refine if_rec (P := State.Ranged) (hcounts.of_eq rfl rfl) ?_
  iterate 7 refine if_rec (P := State.Ranged) (h.of_eq rfl rfl) ?_
  refine if_rec (P := State.Ranged) ⟨{ h.tev with fogType := hfog }, h.vertex⟩ ?_
  refine if_rec (P := State.Ranged) (h.of_eq rfl rfl) ?_
  refine if_rec (P := State.Ranged) ⟨{ h.tev with }, h.vertex⟩ ?_
  refine if_rec (P := State.Ranged) ?_ h
  exact h.setAlphaCompare (bits_lt_of_le (by decide)) (bits_lt_of_le (by decide)) _ _ _

theorem Ranged.applyBP (value : BitVec 32) : (s.applyBP value).Ranged := by
  by_cases hreg : bits value 8 24 = 0xFE
  · rw [applyBP_mask hreg]
    exact ⟨h.tev, h.vertex⟩
  · have hstored : (s.storeBP (bits value 8 24) (s.merged (bits value 8 24) value)).Ranged :=
      ⟨h.tev, h.vertex⟩
    rw [applyBP_register rfl hreg]
    have hdecoded := hstored.decodeBP (bits value 8 24) (s.merged (bits value 8 24) value)
    exact ⟨hdecoded.tev, hdecoded.vertex⟩

/-! ## XF -/

theorem Ranged.loadTexMtxSlots (first : Nat) {slot : Nat → Nat} (hslot : ∀ t, slot t < 256)
    (dirty : BitVec 32) : (State.loadTexMtxSlots first slot s dirty).1.Ranged := by
  unfold State.loadTexMtxSlots
  apply List.foldlRecOn (motive := fun r : State × BitVec 32 => r.1.Ranged)
  · exact h
  · rintro ⟨s, dirty⟩ hs t -
    dsimp only at hs ⊢
    split
    · exact hs.modifyTexGen { hs.vertex.texGens _ with matrix := hslot t }
    · exact hs

omit h in
theorem texGenSourceFromRow_lt (row : Nat) : texGenSourceFromRow row < 256 := by
  unfold texGenSourceFromRow
  rw [List.getD_eq_getElem?_getD]
  by_cases hrow : row < 13
  · revert row
    decide
  · rw [List.getElem?_eq_none (by simpa using hrow)]
    decide

omit h in
theorem texMtxSlotFromRow_lt (row : Nat) : texMtxSlotFromRow row < 256 := by
  unfold texMtxSlotFromRow
  split
  · omega
  · decide

theorem Ranged.decodeXF (reg : Nat) (v : BitVec 32) : (s.decodeXF reg v).Ranged := by
  have hbit (size shift : Nat) : bits v size shift < 2 ^ size := Nat.mod_lt _ (Nat.two_pow_pos size)
  unfold State.decodeXF
  refine if_rec (P := State.Ranged) (h.of_eq rfl rfl) ?_
  refine if_rec (P := State.Ranged) (h.of_eq rfl rfl) ?_
  refine if_rec (P := State.Ranged) (h.of_eq rfl rfl) ?_
  refine if_rec (P := State.Ranged) ?_ (if_rec (P := State.Ranged) ?_ h)
  · have htype : (if bits v 3 4 = 0 then (if bits v 1 1 ≠ 0 then 0 else 1)
        else if bits v 3 4 = 1 then 2 + bits v 3 15 else 10) < 256 := by
      have := hbit 3 15
      split
      · split <;> decide
      · split <;> omega
    exact h.modifyTexGen { h.vertex.texGens _ with
      type := htype
      source := texGenSourceFromRow_lt _ }
  · have hpost : (if bits v 6 0 = 61 then kIdentity else bits v 6 0 / 3) < 256 := by
      have := hbit 6 0
      split
      · decide
      · omega
    exact h.modifyTexGen { h.vertex.texGens _ with postMatrix := hpost }

theorem Ranged.loadXFRegister (reg : Nat) (v : BitVec 32) : (s.loadXFRegister reg v).1.Ranged := by
  have hmatrix : (s.setCurrentMtx (bits v 6 0)).Ranged := by
    unfold State.setCurrentMtx
    exact if_rec (P := State.Ranged) (h.of_eq rfl rfl) (h.of_eq rfl rfl)
  unfold State.loadXFRegister
  refine if_rec (P := fun r : State × BitVec 32 => r.1.Ranged) (h.setNumChans _) ?_
  refine if_rec (P := fun r : State × BitVec 32 => r.1.Ranged) (h.of_eq rfl rfl) ?_
  refine if_rec (P := fun r : State × BitVec 32 => r.1.Ranged) (h.of_eq rfl rfl) ?_
  refine if_rec (P := fun r : State × BitVec 32 => r.1.Ranged) (h.setChanCtrl _ _ _ _ _ _ _) ?_
  refine if_rec (P := fun r : State × BitVec 32 => r.1.Ranged) ⟨h.tev, { h.vertex with }⟩ ?_
  refine if_rec (P := fun r : State × BitVec 32 => r.1.Ranged)
    (hmatrix.loadTexMtxSlots 0 (fun _ => texMtxSlotFromRow_lt _) _) ?_
  refine if_rec (P := fun r : State × BitVec 32 => r.1.Ranged)
    (h.loadTexMtxSlots 4 (fun _ => texMtxSlotFromRow_lt _) _) ?_
  exact if_rec (P := fun r : State × BitVec 32 => r.1.Ranged) (h.setNumTexGens _) (h.decodeXF _ _)

theorem Ranged.applyXFRegister (reg : Nat) (v : BitVec 32) : (s.applyXFRegister reg v).Ranged := by
  have hcounted : State.Ranged { s with generation := s.generation + 1 } := h.of_eq rfl rfl
  have hloaded := hcounted.loadXFRegister reg v
  exact ⟨hloaded.tev, hloaded.vertex⟩

theorem Ranged.applyXFWord (a : Nat) (w : BitVec 32) : (s.applyXFWord a w).Ranged := by
  -- one row of a memory
  have hrow {c : Prop} [Decidable c] {s' : State} (h' : s'.Ranged) : (if c then s' else s).Ranged :=
    if_rec (P := State.Ranged) h' h
  unfold State.applyXFWord
  apply if_rec (P := State.Ranged)
  · apply if_rec (P := State.Ranged)
    · exact h.of_eq rfl rfl
    · exact hrow (h.of_eq rfl rfl)
  apply if_rec (P := State.Ranged)
  · exact hrow (h.of_eq rfl rfl)
  apply if_rec (P := State.Ranged)
  · exact hrow (h.of_eq rfl rfl)
  apply if_rec (P := State.Ranged)
  · exact h.of_eq rfl rfl
  · exact hrow (h.applyXFRegister _ w)

omit h in
theorem Ranged.applyXFWords (words : List (BitVec 32)) : ∀ {s : State}, s.Ranged →
    ∀ address, (s.applyXFWords address words).Ranged := by
  induction words with
  | nil => exact fun h _ => h
  | cons w words ih => exact fun h address => ih (h.applyXFWord _ w) _

omit h in
theorem Ranged.storeXF (words : List (BitVec 32)) : ∀ {s : State}, s.Ranged →
    ∀ address, (s.storeXF address words).Ranged := by
  induction words with
  | nil => exact fun h _ => h
  | cons w words ih =>
    intro s h address
    have hstored : State.Ranged { s with
        xfRaw := update s.xfRaw address.toNat w
        xfWritten := update s.xfWritten address.toNat true } := h.of_eq rfl rfl
    unfold State.storeXF
    exact if_rec (P := State.Ranged) (ih hstored _) h

theorem Ranged.applyXF (address : BitVec 32) (words : List (BitVec 32)) :
    (s.applyXF address words).Ranged := by
  have hstored := Ranged.storeXF words (s := { s with generation := s.generation + 1 })
    (h.of_eq rfl rfl) address
  unfold State.applyXF
  apply Ranged.applyXFWords
  exact if_rec (P := State.Ranged) (hstored.of_eq rfl rfl) hstored

/-! ## GXInit -/

theorem Ranged.setTevOpReplace (stage : Nat) : (s.setTevOpReplace stage).Ranged := by
  have hop {k : TevCombiner} (hk : k.Ranged) : (setOp k 0 0 0 true 0).Ranged :=
    { hk with
      op := Nat.zero_lt_succ _
      bias := Nat.zero_lt_succ _
      scale := Nat.zero_lt_succ _
      out := Nat.zero_lt_succ _ }
  have hcolorIn {s : State} (h : s.Ranged) : (s.setTevColorIn stage 15 15 15 8).Ranged := by
    have htouch : (s.touch kDirtyAll).Ranged := h.of_eq rfl rfl
    exact if_rec (P := State.Ranged) (htouch.modifyStage { h.tev.stages stage with
      color := arguments_ranged (h.tev.stages stage).color (by decide) (by decide) (by decide)
        (by decide) }) htouch
  have halphaIn {s : State} (h : s.Ranged) : (s.setTevAlphaIn stage 7 7 7 4).Ranged := by
    have htouch : (s.touch kDirtyAll).Ranged := h.of_eq rfl rfl
    exact if_rec (P := State.Ranged) (htouch.modifyStage { h.tev.stages stage with
      alpha := arguments_ranged (h.tev.stages stage).alpha (by decide) (by decide) (by decide)
        (by decide) }) htouch
  have hcolorOp {s : State} (h : s.Ranged) : (s.setTevColorOp stage 0 0 0 true 0).Ranged := by
    have htouch : (s.touch kDirtyAll).Ranged := h.of_eq rfl rfl
    exact if_rec (P := State.Ranged) (htouch.modifyStage { h.tev.stages stage with
      color := hop (h.tev.stages stage).color }) htouch
  have halphaOp {s : State} (h : s.Ranged) : (s.setTevAlphaOp stage 0 0 0 true 0).Ranged := by
    have htouch : (s.touch kDirtyAll).Ranged := h.of_eq rfl rfl
    exact if_rec (P := State.Ranged) (htouch.modifyStage { h.tev.stages stage with
      alpha := hop (h.tev.stages stage).alpha }) htouch
  exact halphaOp (hcolorOp (halphaIn (hcolorIn (h.of_eq rfl rfl))))

theorem Ranged.withSwapTable {swapTable : Nat → TevSwap} (hswap : ∀ t, (swapTable t).Ranged) :
    State.Ranged { s with tev := { s.tev with swapTable := swapTable } } :=
  ⟨{ h.tev with swapTable := hswap }, h.vertex⟩

omit h in
theorem blank_ranged : blank.Ranged := by
  have hk : TevCombiner.Ranged ⟨15, 15, 15, 15, 0, 0, 0, true, 0⟩ := by constructor <;> decide
  have hk' : TevCombiner.Ranged ⟨7, 7, 7, 7, 0, 0, 0, true, 0⟩ := by constructor <;> decide
  have hstage : TevStage.Ranged {} := by constructor <;> first | assumption | decide
  have hswap : TevSwap.Ranged ⟨0, 1, 2, 3⟩ := by constructor <;> decide
  have hind : IndStage.Ranged {} := by constructor <;> decide
  have hchannel : ColorChannel.Ranged {} := by constructor <;> decide
  have hgen : TexGen.Ranged {} := by constructor <;> decide
  constructor
  · constructor <;> first | decide | exact fun _ => ‹_›
  · constructor <;> first | decide | exact fun _ => ‹_›

omit h in
theorem defaults_ranged : defaults.Ranged := by
  have hstages := List.foldlRecOn (motive := State.Ranged) (List.range 16)
    (fun (s : State) i =>
      (s.setTevOrder i (if i < 8 then i else 0xFF) (if i < 8 then i else 0xFF) 4).setTevOpReplace i)
    blank_ranged fun s hs i _ =>
      (hs.setTevOrder (by split <;> omega) i _ _).setTevOpReplace i
  have hone := hstages.setNumTevStages 1
  have hgens (swapTable : Nat → TevSwap) (hswap : ∀ t, (swapTable t).Ranged) := List.foldlRecOn (motive := State.Ranged) (List.range 8)
    (fun (s : State) i => s.setTexCoordGen2 i 1 (4 + i) 60 false 125)
    (hone.withSwapTable hswap) fun s hs i hi =>
      hs.setTexCoordGen2 (by decide) (by have := List.mem_range.mp hi; omega) _ _ _ _
  have hchannels swapTable hswap := List.foldlRecOn (motive := State.Ranged) (List.range 4)
    (fun (s : State) c => s.setChanCtrl c false 0 1 0 0 2)
    (((hgens swapTable hswap).setNumTexGens 1).setNumChans 0) fun s hs c _ => hs.setChanCtrl _ _ _ _ _ _ _
  have hranged := hchannels defaults.tev.swapTable fun t => by
    rcases t with _ | _ | _ | t
    · constructor <;> decide
    · constructor <;> decide
    · constructor <;> decide
    · exact ⟨show 2 < 4 by decide, show 2 < 4 by decide, show 2 < 4 by decide, show 3 < 4 by decide⟩
  exact ⟨hranged.tev, hranged.vertex⟩

theorem Ranged.Tev : s.Tev.Ranged := by
  have hgens := h.vertex.texGenCount
  refine { h.tev with
    texCoordCount := Nat.lt_of_le_of_lt hgens (by decide)
    indStageCount := bits_lt_of_le (by decide)
    indStages := fun i => ?_
    stages := fun n => ?_ }
  · apply if_rec (P := fun k : TevStage => k.Ranged)
    · exact { h.tev.stages n with ind := bits_lt_of_le le_rfl }
    · exact h.tev.stages n
  · apply if_rec (P := fun k : IndStage => k.Ranged)
    · exact ⟨bits_lt_of_le (by decide), bits_lt_of_le (by decide), bits_lt_of_le (by decide),
        bits_lt_of_le (by decide)⟩
    · exact h.tev.indStages i

theorem Ranged.Vertex : s.Vertex.Ranged := { h.vertex with }

end State

/-! ## runs of loads -/

/-- a load, as the stream's commands make it -/
inductive RegisterLoad where
  | cp (reg : Nat) (value : BitVec 32)
  | bp (value : BitVec 32)
  | xf (cause : Nat) (address : BitVec 32) (words : List (BitVec 32))

namespace Processor

def loadRegister (p : Processor) : RegisterLoad → Processor
  | .cp reg value => p.LoadCP reg value
  | .bp value => p.loadBP value
  | .xf cause address words => p.loadXF cause address words

def loaded (loads : List RegisterLoad) : State :=
  (loads.foldl loadRegister (start State.defaults)).state

theorem ranged_invariant : Invariant fun p => p.state.Ranged := by
  refine .of_state (fun _ h => h.of_eq rfl rfl) (fun s attr type h => ?_)
    (fun _ value h => h.applyBP value) fun _ address words _ _ _ h => h.applyXF address words
  unfold State.setVtxDesc
  exact if_rec (P := State.Ranged) (h.of_eq rfl rfl) (h.of_eq rfl rfl)

theorem loadXF_ranged {p : Processor} (h : p.state.Ranged) (cause : Nat) (address : BitVec 32)
    (words : List (BitVec 32)) : (p.loadXF cause address words).state.Ranged :=
  if_rec (P := fun p : Processor => p.state.Ranged) h (h.applyXF address words)

theorem loadRegister_ranged {p : Processor} (h : p.state.Ranged) (l : RegisterLoad) : (p.loadRegister l).state.Ranged := by
  cases l with
  | cp reg value => exact ranged_invariant.cp _ reg value h
  | bp value => exact ranged_invariant.bp _ value h
  | xf cause address words => exact loadXF_ranged h cause address words

theorem loaded_ranged (loads : List RegisterLoad) : (loaded loads).Ranged :=
  List.foldlRecOn (motive := fun p : Processor => p.state.Ranged) loads loadRegister
    State.defaults_ranged fun _ h l _ => loadRegister_ranged h l

theorem Run_ranged (memory : Memory) (depth : Nat) (data : List Byte) :
    (Run memory depth (start State.defaults) data).1.state.Ranged :=
  ranged_invariant.Run memory State.defaults_ranged depth data

end Processor

theorem State.Ranged.keys_sound {s s' : State} (h : s.Ranged) (h' : s'.Ranged) :
    (TevConfigKey s.Tev = TevConfigKey s'.Tev → TevFragmentGlsl s.Tev = TevFragmentGlsl s'.Tev) ∧
      (VertexConfigKey s.Vertex = VertexConfigKey s'.Vertex →
        XfVertexGlsl s.Vertex = XfVertexGlsl s'.Vertex) :=
  ⟨fun hkey => TevFragmentGlsl_congr (TevConfigKey_agree h.Tev h'.Tev hkey),
    fun hkey => XfVertexGlsl_congr (VertexConfigKey_agree h.Vertex h'.Vertex hkey)⟩

/-- **equal keys mean equal shaders, after any two runs of loads** -/
theorem cacheKeys_sound (loads loads' : List RegisterLoad) :
    (TevConfigKey (Processor.loaded loads).Tev = TevConfigKey (Processor.loaded loads').Tev →
      TevFragmentGlsl (Processor.loaded loads).Tev = TevFragmentGlsl (Processor.loaded loads').Tev) ∧
    (VertexConfigKey (Processor.loaded loads).Vertex = VertexConfigKey (Processor.loaded loads').Vertex →
      XfVertexGlsl (Processor.loaded loads).Vertex = XfVertexGlsl (Processor.loaded loads').Vertex) :=
  (Processor.loaded_ranged loads).keys_sound (Processor.loaded_ranged loads')

/-- the last stages' konst selections, an unused coordinate's source: other configurations, the same
keys and shaders -/
theorem cacheKeys_sound_unused :
    ((Processor.loaded [.bp 0xFDFFFFFE]).Tev.stages 15 ≠ (Processor.loaded []).Tev.stages 15 ∧
      TevFragmentGlsl (Processor.loaded [.bp 0xFDFFFFFE]).Tev =
        TevFragmentGlsl (Processor.loaded []).Tev) ∧
    (Processor.loaded [.xf 0 0x1047 [0x80]]).Vertex.texGens 7 ≠ (Processor.loaded []).Vertex.texGens 7 ∧
      XfVertexGlsl (Processor.loaded [.xf 0 0x1047 [0x80]]).Vertex =
        XfVertexGlsl (Processor.loaded []).Vertex :=
  ⟨⟨by decide +kernel, (cacheKeys_sound [.bp 0xFDFFFFFE] []).1 (by decide +kernel)⟩,
    by decide +kernel, (cacheKeys_sound [.xf 0 0x1047 [0x80]] []).2 (by decide +kernel)⟩

end DolTranslator.Gx
