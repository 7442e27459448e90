import DolTranslator.Gx.VertexShader
import DolTranslator.Gx.Invariants
import DolTranslator.Streams.Records

/-!
# A shader's key says what the shader depends on

* `TevConfig.Ranged`, `VertexConfig.Ranged`   the widths that the key packs the fields into;
* `TevConfig.Agree`, `VertexConfig.Agree`   the same in all that the generator reads;
* `TevConfigKey_agree`, `VertexConfigKey_agree`   equal keys of ranged configurations;
* `TevFragmentGlsl_congr`, `XfVertexGlsl_congr`   the generators read nothing else;
* `State.Ranged`   what every load keeps.
-/

namespace DolTranslator.Gx

open Function Streams

/-! ## the widths of the fields -/

structure TevCombiner.Ranged (k : TevCombiner) : Prop where
  a : k.a < 256
  b : k.b < 256
  c : k.c < 256
  d : k.d < 256
  op : k.op < 256
  bias : k.bias < 4
  scale : k.scale < 4
  out : k.out < 4

structure TevStage.Ranged (s : TevStage) : Prop where
  color : s.color.Ranged
  alpha : s.alpha.Ranged
  kcolorSel : s.kcolorSel < 256
  kalphaSel : s.kalphaSel < 256
  texCoord : s.texCoord < 256
  texMap : s.texMap < 256
  channel : s.channel < 256
  rasSwap : s.rasSwap < 4
  texSwap : s.texSwap < 4
  ind : s.ind < 2 ^ 21

structure TevSwap.Ranged (s : TevSwap) : Prop where
  r : s.r < 4
  g : s.g < 4
  b : s.b < 4
  a : s.a < 4

structure IndStage.Ranged (s : IndStage) : Prop where
  texCoord : s.texCoord < 16
  texMap : s.texMap < 16
  scaleS : s.scaleS < 16
  scaleT : s.scaleT < 16

structure TevConfig.Ranged (c : TevConfig) : Prop where
  stageCount : c.stageCount ≤ 16
  stages : ∀ i, (c.stages i).Ranged
  swapTable : ∀ i, (c.swapTable i).Ranged
  texCoordCount : c.texCoordCount < 256
  alphaComp0 : c.alphaComp0 < 256
  alphaRef0 : c.alphaRef0 < 256
  alphaOp : c.alphaOp < 256
  alphaComp1 : c.alphaComp1 < 256
  alphaRef1 : c.alphaRef1 < 256
  fogType : c.fogType < 256
  indStageCount : c.indStageCount < 256
  indStages : ∀ i, (c.indStages i).Ranged

structure ColorChannel.Ranged (ch : ColorChannel) : Prop where
  material : ch.material < 2
  ambient : ch.ambient < 2
  lightMask : ch.lightMask < 256
  diffuse : ch.diffuse < 4
  attenuation : ch.attenuation < 4

structure TexGen.Ranged (t : TexGen) : Prop where
  type : t.type < 256
  source : t.source < 256
  matrix : t.matrix < 256
  postMatrix : t.postMatrix < 256

structure VertexConfig.Ranged (c : VertexConfig) : Prop where
  channelCount : c.channelCount ≤ 2
  texGenCount : c.texGenCount ≤ 8
  channels : ∀ i, (c.channels i).Ranged
  texGens : ∀ i, (c.texGens i).Ranged

structure TevConfig.Agree (c c' : TevConfig) : Prop where
  stageCount : c.stageCount = c'.stageCount
  texCoordCount : c.texCoordCount = c'.texCoordCount
  alphaComp0 : c.alphaComp0 = c'.alphaComp0
  alphaRef0 : c.alphaRef0 = c'.alphaRef0
  alphaOp : c.alphaOp = c'.alphaOp
  alphaComp1 : c.alphaComp1 = c'.alphaComp1
  alphaRef1 : c.alphaRef1 = c'.alphaRef1
  fogType : c.fogType = c'.fogType
  dstAlpha : c.dstAlpha = c'.dstAlpha
  indStageCount : c.indStageCount = c'.indStageCount
  swapTable : ∀ i < 4, c.swapTable i = c'.swapTable i
  stages : ∀ i < c.stageCount, c.stages i = c'.stages i
  indStages : ∀ i < min c.indStageCount 4, c.indStages i = c'.indStages i

structure VertexConfig.Agree (c c' : VertexConfig) : Prop where
  hasNormal : c.hasNormal = c'.hasNormal
  hasColor0 : c.hasColor0 = c'.hasColor0
  hasColor1 : c.hasColor1 = c'.hasColor1
  indexedPosMtx : c.indexedPosMtx = c'.indexedPosMtx
  dualTexture : c.dualTexture = c'.dualTexture
  channelCount : c.channelCount = c'.channelCount
  texGenCount : c.texGenCount = c'.texGenCount
  texCoords : ∀ t < 8, c.texCoords t = c'.texCoords t
  channels : ∀ i < 4, c.channels i = c'.channels i
  texGens : ∀ i < c.texGenCount, c.texGens i = c'.texGens i

/-! ## from the key to the fields -/

theorem put_inj {v v' : Nat} (hv : v < 256) (hv' : v' < 256) (h : put v = put v') : v = v' := by
  have hnat := congrArg BitVec.toNat h
  rw [put, put, BitVec.toNat_ofNat, BitVec.toNat_ofNat] at hnat
  rwa [Nat.mod_eq_of_lt hv, Nat.mod_eq_of_lt hv'] at hnat

theorem put_toNat_inj {v v' : Bool} (h : put v.toNat = put v'.toNat) : v = v' := by
  revert h
  cases v <;> cases v' <;> decide

theorem put_pair_inj {a a' b b' m n : Nat} (hwidth : n + m ≤ 8) (ha : a < 2 ^ n) (ha' : a' < 2 ^ n)
    (hb : b < 2 ^ m) (hb' : b' < 2 ^ m) (h : put (a ||| b <<< n) = put (a' ||| b' <<< n)) :
    a = a' ∧ b = b' := by
  have hbyte : 2 ^ (n + m) ≤ 256 := Nat.pow_le_pow_right (by decide) hwidth
  apply or_shiftLeft_inj ha ha'
  exact put_inj (Nat.lt_of_lt_of_le (or_shiftLeft_lt ha hb) hbyte)
    (Nat.lt_of_lt_of_le (or_shiftLeft_lt ha' hb') hbyte) h

theorem toNat_lt_two_pow (v : Bool) : v.toNat < 2 ^ 1 := Bool.toNat_lt v

theorem toNat_bool_inj {v v' : Bool} (h : v.toNat = v'.toNat) : v = v' :=
  put_toNat_inj (congrArg put h)

theorem swapKey_inj {s s' : TevSwap} (hs : s.Ranged) (hs' : s'.Ranged) (h : swapKey s = swapKey s') :
    s = s' := by
  have hbyte := (List.cons.inj h).1
  obtain ⟨hrgb, ha⟩ := put_pair_inj (n := 6) (m := 2) (by decide)
    (or_shiftLeft_lt (n := 4) (m := 2) (or_shiftLeft_lt (n := 2) (m := 2) hs.r hs.g) hs.b)
    (or_shiftLeft_lt (n := 4) (m := 2) (or_shiftLeft_lt (n := 2) (m := 2) hs'.r hs'.g) hs'.b)
    hs.a hs'.a hbyte
  obtain ⟨hrg, hb⟩ := or_shiftLeft_inj (or_shiftLeft_lt (n := 2) (m := 2) hs.r hs.g)
    (or_shiftLeft_lt (n := 2) (m := 2) hs'.r hs'.g) hrgb
  obtain ⟨hr, hg⟩ := or_shiftLeft_inj (n := 2) hs.r hs'.r hrg
  cases s
  cases s'
  simp only [TevSwap.mk.injEq]
  exact ⟨hr, hg, hb, ha⟩

theorem combinerKey_inj {k k' : TevCombiner} (hk : k.Ranged) (hk' : k'.Ranged)
    (h : combinerKey k = combinerKey k') : k = k' := by
  simp only [combinerKey, List.cons.injEq, and_true] at h
  obtain ⟨ha, hb, hc, hd, hop, hpacked⟩ := h
  have hlow := or_shiftLeft_lt (n := 2) (m := 2) hk.bias hk.scale
  have hlow' := or_shiftLeft_lt (n := 2) (m := 2) hk'.bias hk'.scale
  obtain ⟨hrest, hout⟩ := put_pair_inj (n := 5) (m := 2) (by decide)
    (or_shiftLeft_lt (n := 4) (m := 1) hlow (toNat_lt_two_pow k.clamp))
    (or_shiftLeft_lt (n := 4) (m := 1) hlow' (toNat_lt_two_pow k'.clamp)) hk.out hk'.out hpacked
  obtain ⟨hlows, hclamp⟩ := or_shiftLeft_inj (n := 4) hlow hlow' hrest
  obtain ⟨hbias, hscale⟩ := or_shiftLeft_inj (n := 2) hk.bias hk'.bias hlows
  cases k
  cases k'
  simp only [TevCombiner.mk.injEq]
  exact ⟨put_inj hk.a hk'.a ha, put_inj hk.b hk'.b hb, put_inj hk.c hk'.c hc, put_inj hk.d hk'.d hd,
    put_inj hk.op hk'.op hop, hbias, hscale, toNat_bool_inj hclamp, hout⟩

theorem indBytes_inj {v v' : Nat} (hv : v < 2 ^ 21) (hv' : v' < 2 ^ 21)
    (h0 : put (v &&& 0xFF) = put (v' &&& 0xFF)) (h1 : put (v >>> 8 &&& 0xFF) = put (v' >>> 8 &&& 0xFF))
    (h2 : put (v >>> 16 &&& 0x1F) = put (v' >>> 16 &&& 0x1F)) : v = v' := by
  have hmask8 (x : Nat) : x &&& 0xFF = x % 2 ^ 8 := Nat.and_two_pow_sub_one_eq_mod x 8
  have hmask5 (x : Nat) : x &&& 0x1F = x % 2 ^ 5 := Nat.and_two_pow_sub_one_eq_mod x 5
  rw [hmask8, hmask8] at h0 h1
  rw [hmask5, hmask5] at h2
  have h0 := put_inj (Nat.mod_lt _ (by decide)) (Nat.mod_lt _ (by decide)) h0
  have h1 := put_inj (Nat.mod_lt _ (by decide)) (Nat.mod_lt _ (by decide)) h1
  have h2 := put_inj (by omega) (by omega) h2
  rw [Nat.shiftRight_eq_div_pow, Nat.shiftRight_eq_div_pow] at h1 h2
  omega

theorem stageKey_inj {s s' : TevStage} (hs : s.Ranged) (hs' : s'.Ranged)
    (h : stageKey s = stageKey s') : s = s' := by
  rw [stageKey, stageKey, List.append_assoc, List.append_assoc] at h
  obtain ⟨hcolor, h⟩ := List.append_inj h rfl
  obtain ⟨halpha, h⟩ := List.append_inj h rfl
  simp only [List.cons.injEq, and_true] at h
  obtain ⟨hkcolor, hkalpha, hcoord, hmap, hchannel, hswaps, hind0, hind1, hind2⟩ := h
  obtain ⟨hras, htex⟩ := put_pair_inj (n := 2) (m := 2) (by decide) hs.rasSwap hs'.rasSwap hs.texSwap
    hs'.texSwap hswaps
  cases s
  cases s'
  simp only [TevStage.mk.injEq]
  exact ⟨combinerKey_inj hs.color hs'.color hcolor, combinerKey_inj hs.alpha hs'.alpha halpha,
    put_inj hs.kcolorSel hs'.kcolorSel hkcolor, put_inj hs.kalphaSel hs'.kalphaSel hkalpha,
    put_inj hs.texCoord hs'.texCoord hcoord, put_inj hs.texMap hs'.texMap hmap,
    put_inj hs.channel hs'.channel hchannel, hras, htex, indBytes_inj hs.ind hs'.ind hind0 hind1 hind2⟩

theorem indStageKey_inj {s s' : IndStage} (hs : s.Ranged) (hs' : s'.Ranged)
    (h : indStageKey s = indStageKey s') : s = s' := by
  simp only [indStageKey, List.cons.injEq, and_true] at h
  obtain ⟨hcoord, hmap⟩ := put_pair_inj (n := 4) (m := 4) (by decide) hs.texCoord hs'.texCoord
    hs.texMap hs'.texMap h.1
  obtain ⟨hscaleS, hscaleT⟩ := put_pair_inj (n := 4) (m := 4) (by decide) hs.scaleS hs'.scaleS
    hs.scaleT hs'.scaleT h.2
  cases s
  cases s'
  simp only [IndStage.mk.injEq]
  exact ⟨hcoord, hmap, hscaleS, hscaleT⟩

theorem records_append_inj {record record' : Nat → List Byte} {rest rest' : List Byte} {k n : Nat}
    (hlength : ∀ i, (record i).length = k) (hlength' : ∀ i, (record' i).length = k)
    (h : (List.range n).flatMap record ++ rest = (List.range n).flatMap record' ++ rest') :
    (∀ i < n, record i = record' i) ∧ rest = rest' := by
  obtain ⟨hrecords, hrest⟩ := List.append_inj h
    ((length_records hlength n).trans (length_records hlength' n).symm)
  exact ⟨records_inj (fun i _ => (hlength i).trans (hlength' i).symm) hrecords, hrest⟩

/-- **equal keys of ranged configurations** -/
theorem TevConfigKey_agree {c c' : TevConfig} (hc : c.Ranged) (hc' : c'.Ranged)
    (h : TevConfigKey c = TevConfigKey c') : c.Agree c' := by
  simp only [TevConfigKey, List.append_assoc] at h
  obtain ⟨hfields, h⟩ := List.append_inj h rfl
  simp only [List.cons.injEq, and_true] at hfields
  obtain ⟨hstages, hcoords, hcomp0, href0, hop, hcomp1, href1, hfog, hdst⟩ := hfields
  have hcount := hc.stageCount
  have hcount' := hc'.stageCount
  have hstages := put_inj (by omega) (by omega) hstages
  obtain ⟨hswaps, h⟩ := records_append_inj (k := 1) (fun _ => rfl) (fun _ => rfl) h
  rw [Nat.min_eq_left hcount, Nat.min_eq_left hcount', ← hstages] at h
  obtain ⟨hkeys, h⟩ := records_append_inj (k := 21) (fun _ => rfl) (fun _ => rfl) h
  obtain ⟨hindCount, h⟩ := List.append_inj h rfl
  have hindCount := put_inj hc.indStageCount hc'.indStageCount (List.cons.inj hindCount).1
  rw [← hindCount, ← List.append_nil (List.flatMap _ _),
    ← List.append_nil (List.flatMap (fun i => indStageKey (c'.indStages i)) _)] at h
  obtain ⟨hind, -⟩ := records_append_inj (k := 2) (fun _ => rfl) (fun _ => rfl) h
  exact {
    stageCount := hstages
    texCoordCount := put_inj hc.texCoordCount hc'.texCoordCount hcoords
    alphaComp0 := put_inj hc.alphaComp0 hc'.alphaComp0 hcomp0
    alphaRef0 := put_inj hc.alphaRef0 hc'.alphaRef0 href0
    alphaOp := put_inj hc.alphaOp hc'.alphaOp hop
    alphaComp1 := put_inj hc.alphaComp1 hc'.alphaComp1 hcomp1
    alphaRef1 := put_inj hc.alphaRef1 hc'.alphaRef1 href1
    fogType := put_inj hc.fogType hc'.fogType hfog
    dstAlpha := put_toNat_inj hdst
    indStageCount := hindCount
    swapTable := fun i hi => swapKey_inj (hc.swapTable i) (hc'.swapTable i) (hswaps i hi)
    stages := fun i hi => stageKey_inj (hc.stages i) (hc'.stages i) (hkeys i hi)
    indStages := fun i hi => indStageKey_inj (hc.indStages i) (hc'.indStages i) (hind i hi) }

theorem channelKey_inj {ch ch' : ColorChannel} (hch : ch.Ranged) (hch' : ch'.Ranged)
    (h : channelKey ch = channelKey ch') : ch = ch' := by
  simp only [channelKey, List.cons.injEq, and_true] at h
  have hlow := or_shiftLeft_lt (n := 1) (m := 1) hch.material hch.ambient
  have hlow' := or_shiftLeft_lt (n := 1) (m := 1) hch'.material hch'.ambient
  have hlit := or_shiftLeft_lt (n := 2) (m := 1) hlow (toNat_lt_two_pow ch.lighting)
  have hlit' := or_shiftLeft_lt (n := 2) (m := 1) hlow' (toNat_lt_two_pow ch'.lighting)
  obtain ⟨hrest, hattenuation⟩ := put_pair_inj (n := 5) (m := 2) (by decide)
    (or_shiftLeft_lt (n := 3) (m := 2) hlit hch.diffuse)
    (or_shiftLeft_lt (n := 3) (m := 2) hlit' hch'.diffuse) hch.attenuation hch'.attenuation h.1
  obtain ⟨hrest, hdiffuse⟩ := or_shiftLeft_inj (n := 3) hlit hlit' hrest
  obtain ⟨hrest, hlighting⟩ := or_shiftLeft_inj (n := 2) hlow hlow' hrest
  obtain ⟨hmaterial, hambient⟩ := or_shiftLeft_inj (n := 1) hch.material hch'.material hrest
  cases ch
  cases ch'
  simp only [ColorChannel.mk.injEq]
  exact ⟨hmaterial, hambient, toNat_bool_inj hlighting,
    put_inj hch.lightMask hch'.lightMask h.2, hdiffuse, hattenuation⟩

theorem texGenKey_inj {t t' : TexGen} (ht : t.Ranged) (ht' : t'.Ranged)
    (h : texGenKey t = texGenKey t') : t = t' := by
  simp only [texGenKey, List.cons.injEq, and_true] at h
  obtain ⟨htype, hsource, hmatrix, hnormalize, hpost⟩ := h
  cases t
  cases t'
  simp only [TexGen.mk.injEq]
  exact ⟨put_inj ht.type ht'.type htype, put_inj ht.source ht'.source hsource,
    put_inj ht.matrix ht'.matrix hmatrix, put_toNat_inj hnormalize,
    put_inj ht.postMatrix ht'.postMatrix hpost⟩

theorem texCoordBits_testBit (texCoords : Nat → Bool) (n t : Nat) :
    ((List.range n).foldl (fun v t => v ||| (texCoords t).toNat <<< t) 0).testBit t =
      (decide (t < n) && texCoords t) := by
  induction n with
  | zero => simp
  | succ n ih =>
    rw [List.range_succ, List.foldl_append, List.foldl_cons, List.foldl_nil, Nat.testBit_or, ih,
      Nat.testBit_shiftLeft]
    rcases Nat.lt_trichotomy t n with h | rfl | h
    · simp [h, Nat.lt_succ_of_lt h, Nat.not_le.mpr h]
    · cases texCoords t <;> simp
    · have hbit : (texCoords n).toNat.testBit (t - n) = false :=
        Nat.testBit_lt_two_pow (Nat.lt_of_lt_of_le (toNat_lt_two_pow _)
          (Nat.pow_le_pow_right (by decide) (by omega)))
      simp [hbit, Nat.not_lt.mpr h.le, Nat.not_lt.mpr (Nat.succ_le_of_lt h)]

theorem texCoordBits_lt (texCoords : Nat → Bool) : texCoordBits texCoords < 256 := by
  apply Nat.lt_pow_two_of_testBit (n := 8)
  intro t ht
  rw [texCoordBits, texCoordBits_testBit, decide_eq_false (Nat.not_lt.mpr ht), Bool.false_and]

theorem texCoordBits_inj {texCoords texCoords' : Nat → Bool}
    (h : texCoordBits texCoords = texCoordBits texCoords') : ∀ t < 8, texCoords t = texCoords' t := by
  intro t ht
  have hbit := congrArg (fun v => v.testBit t) h
  simpa only [texCoordBits, texCoordBits_testBit, ht, decide_true, Bool.true_and] using hbit

theorem flags_inj {a b c d e a' b' c' d' e' : Bool}
    (h : put (a.toNat ||| b.toNat <<< 1 ||| c.toNat <<< 2 ||| d.toNat <<< 3 ||| e.toNat <<< 4) =
      put (a'.toNat ||| b'.toNat <<< 1 ||| c'.toNat <<< 2 ||| d'.toNat <<< 3 ||| e'.toNat <<< 4)) :
    a = a' ∧ b = b' ∧ c = c' ∧ d = d' ∧ e = e' := by
  revert h
  cases a <;> cases b <;> cases c <;> cases d <;> cases e <;>
    revert a' b' c' d' e' <;> decide

/-- **equal keys of ranged configurations** -/
theorem VertexConfigKey_agree {c c' : VertexConfig} (hc : c.Ranged) (hc' : c'.Ranged)
    (h : VertexConfigKey c = VertexConfigKey c') : c.Agree c' := by
  have hchannelCount := hc.channelCount
  have hchannelCount' := hc'.channelCount
  have htexGenCount := hc.texGenCount
  have htexGenCount' := hc'.texGenCount
  simp only [VertexConfigKey, List.append_assoc] at h
  obtain ⟨hfields, h⟩ := List.append_inj h rfl
  simp only [List.cons.injEq, and_true] at hfields
  obtain ⟨hflags, hcoords, hcount, hgens⟩ := hfields
  obtain ⟨hnormal, hcolor0, hcolor1, hindexed, hdual⟩ := flags_inj hflags
  have hgens := put_inj (by omega) (by omega) hgens
  obtain ⟨hchannels, h⟩ := records_append_inj (k := 2) (fun _ => rfl) (fun _ => rfl) h
  rw [Nat.min_eq_left htexGenCount, Nat.min_eq_left htexGenCount', ← hgens,
    ← List.append_nil (List.flatMap _ _),
    ← List.append_nil (List.flatMap (fun i => texGenKey (c'.texGens i)) _)] at h
  obtain ⟨hkeys, -⟩ := records_append_inj (k := 5) (fun _ => rfl) (fun _ => rfl) h
  exact {
    hasNormal := hnormal
    hasColor0 := hcolor0
    hasColor1 := hcolor1
    indexedPosMtx := hindexed
    dualTexture := hdual
    channelCount := put_inj (by omega) (by omega) hcount
    texGenCount := hgens
    texCoords := texCoordBits_inj (put_inj (texCoordBits_lt _) (texCoordBits_lt _) hcoords)
    channels := fun i hi => channelKey_inj (hc.channels i) (hc'.channels i) (hchannels i hi)
    texGens := fun i hi => texGenKey_inj (hc.texGens i) (hc'.texGens i) (hkeys i hi) }

/-! ## the generators read no more -/

theorem mapM_congr {m : Type → Type} [Monad m] [LawfulMonad m] {α β : Type} {f g : α → m β} {l : List α}
    (h : ∀ a ∈ l, f a = g a) : l.mapM f = l.mapM g := by
  induction l with
  | nil => rfl
  | cons a l ih =>
    rw [List.mapM_cons, List.mapM_cons, h a List.mem_cons_self,
      ih fun b hb => h b (List.mem_cons_of_mem a hb)]

theorem any_range_congr {p q : Nat → Bool} {n : Nat} (h : ∀ i < n, p i = q i) :
    (List.range n).any p = (List.range n).any q := by
  induction n with
  | zero => rfl
  | succ n ih =>
    rw [List.range_succ, List.any_append, List.any_append, List.any_cons, List.any_cons,
      ih fun i hi => h i (Nat.lt_succ_of_lt hi), h n (Nat.lt_succ_self n)]
    rfl

theorem map_range_congr {α : Type} {f g : Nat → α} {n : Nat} (h : ∀ i < n, f i = g i) :
    (List.range n).map f = (List.range n).map g :=
  List.map_congr_left fun i hi => h i (List.mem_range.mp hi)

namespace TevGlsl

variable {c c' : TevConfig} (h : c.Agree c')
include h

theorem HasTexture_congr (stage : TevStage) : HasTexture c stage = HasTexture c' stage := by
  unfold HasTexture
  rw [h.texCoordCount]

theorem NoTexture_congr : NoTexture c = NoTexture c' := by
  unfold NoTexture
  rw [h.texCoordCount]

theorem HasIndStage_congr {i : Nat} (hi : i < 4) : HasIndStage c i = HasIndStage c' i := by
  unfold HasIndStage
  rw [← h.indStageCount, ← h.texCoordCount]
  by_cases hlt : i < c.indStageCount
  · rw [h.indStages i (by omega)]
  · simp only [hlt, false_and]

theorem Indirect_congr (stage : TevStage) (i : Nat) : Indirect c stage i = Indirect c' stage i := by
  have hbt : stage.ind >>> 0 % 2 ^ 2 < 4 := Nat.mod_lt _ (by decide)
  unfold Indirect
  dsimp only
  rw [HasIndStage_congr h hbt]

theorem ColorArg_congr (arg i : Nat) (stage : TevStage) :
    ColorArg c arg i stage = ColorArg c' arg i stage := by
  unfold ColorArg
  rw [h.swapTable _ (Nat.mod_lt _ (by decide)), h.swapTable _ (Nat.mod_lt _ (by decide)),
    HasTexture_congr h, NoTexture_congr h]

theorem AlphaArg_congr (arg i : Nat) (stage : TevStage) :
    AlphaArg c arg i stage = AlphaArg c' arg i stage := by
  unfold AlphaArg
  rw [h.swapTable _ (Nat.mod_lt _ (by decide)), h.swapTable _ (Nat.mod_lt _ (by decide)),
    HasTexture_congr h, NoTexture_congr h]

theorem samplerUsed_congr (m : Nat) : samplerUsed c m = samplerUsed c' m := by
  have hstages : ∀ i < c.stageCount,
      (HasTexture c (c.stages i) && (c.stages i).texMap == m) =
        (HasTexture c' (c'.stages i) && (c'.stages i).texMap == m) := by
    intro i hi
    rw [HasTexture_congr h, h.stages i hi]
  have hind : ∀ i < min c.indStageCount 4,
      (HasIndStage c i && (c.indStages i).texMap % 8 == m) =
        (HasIndStage c' i && (c'.indStages i).texMap % 8 == m) := by
    intro i hi
    rw [HasIndStage_congr h (by omega), h.indStages i hi]
  unfold samplerUsed
  rw [any_range_congr hstages, any_range_congr hind, h.stageCount, h.indStageCount]

theorem declarations_congr : declarations c = declarations c' := by
  unfold declarations
  simp only [h.texCoordCount, samplerUsed_congr h]

theorem indirectSample_congr {i : Nat} (hi : i < min c.indStageCount 4) :
    indirectSample c i = indirectSample c' i := by
  unfold indirectSample
  rw [HasIndStage_congr h (by omega), h.indStages i hi]

theorem stageSample_congr {i : Nat} (hi : i < c.stageCount) : stageSample c i = stageSample c' i := by
  unfold stageSample
  simp only [h.stages i hi, HasTexture_congr h, Indirect_congr h]

theorem stageCode_congr {i : Nat} (hi : i < c.stageCount) : stageCode c i = stageCode c' i := by
  unfold stageCode
  simp only [h.stages i hi, stageSample_congr h hi, ColorArg_congr h, AlphaArg_congr h]

theorem alphaTest_congr : alphaTest c = alphaTest c' := by
  unfold alphaTest
  rw [h.alphaComp0, h.alphaComp1, h.alphaOp, h.alphaRef0, h.alphaRef1]

theorem fog_congr : fog c = fog c' := by
  unfold fog
  rw [h.fogType]

theorem shader_congr : shader c = shader c' := by
  have hstages := mapM_congr fun i hi => stageCode_congr h (List.mem_range.mp hi)
  unfold shader
  rw [hstages, declarations_congr h, map_range_congr fun i hi => indirectSample_congr h hi,
    alphaTest_congr h, fog_congr h, h.stageCount, h.indStageCount, h.dstAlpha]

end TevGlsl

theorem TevFragmentGlsl_congr {c c' : TevConfig} (h : c.Agree c') :
    TevFragmentGlsl c = TevFragmentGlsl c' := by
  unfold TevFragmentGlsl TevGlsl.Run
  rw [TevGlsl.shader_congr h, h.stageCount, h.texCoordCount]

namespace XfGlsl

variable {c c' : VertexConfig} (h : c.Agree c')
include h

theorem VertexColor_congr (channel : Nat) : VertexColor c channel = VertexColor c' channel := by
  unfold VertexColor
  rw [h.hasColor0, h.hasColor1]

theorem Channel_congr {index : Nat} (hindex : index < 2) (alpha : Bool) :
    Channel c index alpha = Channel c' index alpha := by
  have hchannel := h.channels (index + if alpha then 2 else 0) (by cases alpha <;> simp <;> omega)
  unfold Channel
  simp only [hchannel, VertexColor_congr h, h.hasNormal]

theorem channelCode_congr {index : Nat} (hindex : index < 2) :
    channelCode c index = channelCode c' index := by
  unfold channelCode
  rw [Channel_congr h hindex, Channel_congr h hindex]

theorem texGenInput_congr (source : Nat) : texGenInput c source = texGenInput c' source := by
  unfold texGenInput
  by_cases hsource : 4 ≤ source ∧ source ≤ 11
  · rw [h.texCoords _ (by omega), if_pos hsource, if_pos hsource]
  · rw [if_neg hsource, if_neg hsource, h.hasNormal, VertexColor_congr h]

theorem texGenPost_congr (tg : TexGen) (n : String) : texGenPost c tg n = texGenPost c' tg n := by
  unfold texGenPost
  rw [h.dualTexture]

theorem TexGenCode_congr {i : Nat} (hi : i < c.texGenCount) : TexGenCode c i = TexGenCode c' i := by
  unfold TexGenCode
  simp only [h.texGens i hi, texGenInput_congr h, texGenPost_congr h, h.dualTexture]

theorem declarations_congr : declarations c = declarations c' := by
  unfold declarations
  rw [h.hasNormal, h.hasColor0, h.hasColor1, h.indexedPosMtx, h.texGenCount,
    map_range_congr fun t ht => by rw [h.texCoords t ht]]

theorem position_congr : position c = position c' := by
  unfold position
  rw [h.indexedPosMtx, h.hasNormal]

theorem channelsOff_congr : channelsOff c = channelsOff c' := by
  unfold channelsOff
  rw [h.channelCount, h.hasColor0, h.hasColor1]

theorem shader_congr (hcount : c.channelCount ≤ 2) : shader c = shader c' := by
  have hchannels : (List.range c.channelCount).mapM (channelCode c) =
      (List.range c.channelCount).mapM (channelCode c') :=
    mapM_congr fun i hi => channelCode_congr h (by have := List.mem_range.mp hi; omega)
  have hgens : ((List.range c.texGenCount).mapM fun t => do
        return (← (TexGenCode c t).run).getD "" : StateM Bool (List String)) =
      (List.range c.texGenCount).mapM fun t => do return (← (TexGenCode c' t).run).getD "" :=
    mapM_congr fun i hi => by rw [TexGenCode_congr h (List.mem_range.mp hi)]
  unfold shader
  rw [hchannels, hgens, declarations_congr h, position_congr h, channelsOff_congr h, h.channelCount,
    h.texGenCount]

end XfGlsl

theorem XfVertexGlsl_congr {c c' : VertexConfig} (h : c.Agree c') :
    XfVertexGlsl c = XfVertexGlsl c' := by
  unfold XfVertexGlsl XfGlsl.Run
  by_cases hcount : c.channelCount ≤ 2
  · rw [XfGlsl.shader_congr h hcount, h.channelCount, h.texGenCount]
  · rw [if_pos (.inl (by omega)), if_pos (.inl (by rw [← h.channelCount]; omega))]

end DolTranslator.Gx
