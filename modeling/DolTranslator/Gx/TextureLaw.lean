import DolTranslator.Gx.Textures
import DolTranslator.Streams.Records

/-!
# Texels where the formats have them

* `levelSize`, `texelsBefore`, `bytesBefore`   the mip levels, by sums over those in front of them;
* `TileSpec`   what a tile is to write: `tiledSpec`, `rgba8Spec`, `cmprSpec`;
* `level_mem`, `mips_mem`   from the tiles to a level, and to all of them;
* `TextureDataSize_eq`   the size is what the walks take;
* `decodeTexture_spec`   every texel is what its format has at its place, and the input is the size
  that was asked for.
-/

namespace DolTranslator.Gx

open Streams

variable {C V : Type}

/-! ## mip levels -/

/-- a width or a height, halved `m` times -/
def levelSize (n m : Nat) : Nat := max (n / 2 ^ m) 1

/-- the texels of the levels in front of the `m`-th -/
def texelsBefore (w h m : Nat) : Nat := ∑ j ∈ Finset.range m, levelSize w j * levelSize h j

def tilesWide (t : Tiling) (w : Nat) : Nat := (w + t.blockWidth - 1) / t.blockWidth

def tilesHigh (t : Tiling) (h : Nat) : Nat := (h + t.blockHeight - 1) / t.blockHeight

/-- the bytes of a level: its tiles, whole -/
def levelBytes (t : Tiling) (w h : Nat) : Nat := tilesHigh t h * (tilesWide t w * t.blockBytes)

/-- the bytes of the levels in front of the `m`-th -/
def bytesBefore (t : Tiling) (w h m : Nat) : Nat :=
  ∑ j ∈ Finset.range m, levelBytes t (levelSize w j) (levelSize h j)

theorem levelSize_zero {n : Nat} (hn : 1 ≤ n) : levelSize n 0 = n := by
  unfold levelSize
  rw [Nat.pow_zero, Nat.div_one]
  omega

theorem levelSize_pos (n m : Nat) : 1 ≤ levelSize n m := Nat.le_max_right _ _

theorem levelSize_half (n m : Nat) : levelSize (max (n / 2) 1) m = levelSize n (m + 1) := by
  have hpow : 2 ^ (m + 1) = 2 * 2 ^ m := Nat.pow_succ'
  unfold levelSize
  rw [hpow, ← Nat.div_div_eq_div_mul]
  by_cases hn : 1 ≤ n / 2
  · rw [Nat.max_eq_left hn]
  · have hzero : n / 2 = 0 := by omega
    rw [hzero, Nat.zero_div]
    have hone : max 0 1 / 2 ^ m ≤ 1 := Nat.div_le_self _ _
    omega

theorem levelSize_le {n m : Nat} (hn : 1 ≤ n) : levelSize n m ≤ n :=
  Nat.max_le.mpr ⟨Nat.div_le_self _ _, hn⟩

theorem texelsBefore_succ (w h m : Nat) (hw : 1 ≤ w) (hh : 1 ≤ h) :
    texelsBefore w h (m + 1) = w * h + texelsBefore (max (w / 2) 1) (max (h / 2) 1) m := by
  unfold texelsBefore
  rw [Finset.sum_range_succ', levelSize_zero hw, levelSize_zero hh, Nat.add_comm]
  simp only [levelSize_half]

theorem bytesBefore_succ (t : Tiling) (w h m : Nat) (hw : 1 ≤ w) (hh : 1 ≤ h) :
    bytesBefore t w h (m + 1) =
      levelBytes t w h + bytesBefore t (max (w / 2) 1) (max (h / 2) 1) m := by
  unfold bytesBefore
  rw [Finset.sum_range_succ', levelSize_zero hw, levelSize_zero hh, Nat.add_comm]
  simp only [levelSize_half]

/-! ## from tiles to levels -/

def tileAt (t : Tiling) (w x y : Nat) : Nat := y / t.blockHeight * tilesWide t w + x / t.blockWidth

/-- what a tile writes: the texels of it that are in the level, each one from the place of the tile and
where it is in it -/
structure TileSpec (t : Tiling)
    (tile : Nat → Nat → Nat → Nat → Nat → Pen (Nat × C) V → Pen (Nat × C) V)
    (texel : Nat → Nat → Nat → C → V) where
  writes : Nat → Nat → Nat → Nat → Nat → Nat → List ((Nat × C) × V)
  draws : ∀ w h level baseX baseY, baseX < w → baseY < h →
    Draws t.blockBytes t.blockBytes (writes w h level baseX baseY) (tile w h level baseX baseY)
  mem : ∀ w h level baseX baseY p k c v, ((k, c), v) ∈ writes w h level baseX baseY p ↔
    ∃ j < t.blockHeight, ∃ i < t.blockWidth, baseX + i < w ∧ baseY + j < h ∧
      k = level + (baseY + j) * w + (baseX + i) ∧ v = texel p i j c

variable {t : Tiling} {tile : Nat → Nat → Nat → Nat → Nat → Pen (Nat × C) V → Pen (Nat × C) V}
  {texel : Nat → Nat → Nat → C → V}

def levelWrites (spec : TileSpec t tile texel) (w h level p : Nat) : List ((Nat × C) × V) :=
  (List.range (tilesHigh t h)).flatMap fun ty => (List.range (tilesWide t w)).flatMap fun tx =>
    spec.writes w h level (tx * t.blockWidth) (ty * t.blockHeight)
      (p + ty * (tilesWide t w * t.blockBytes) + tx * t.blockBytes)

/-- tiles have texels -/
structure Tiling.Proper (t : Tiling) : Prop where
  width : 0 < t.blockWidth
  height : 0 < t.blockHeight

theorem base_lt {w b tx : Nat} (hb : 0 < b) (h : tx < (w + b - 1) / b) : tx * b < w := by
  have hmul : (tx + 1) * b ≤ w + b - 1 := (Nat.le_div_iff_mul_le hb).mp h
  rw [Nat.add_mul, Nat.one_mul] at hmul
  omega

theorem draws_level (ht : t.Proper) (spec : TileSpec t tile texel) (w h level : Nat) :
    Draws (levelBytes t w h) (levelBytes t w h) (levelWrites spec w h level)
      (tileLoop w h t.blockWidth t.blockHeight (tile w h level)) := by
  have hwithin {k n i : Nat} (hi : i < k) : i * n + n ≤ k * n := by
    have hle : (i + 1) * n ≤ k * n := Nat.mul_le_mul_right n hi
    rwa [Nat.add_mul, Nat.one_mul] at hle
  have hrow : ∀ ty < tilesHigh t h, Draws (tilesWide t w * t.blockBytes)
      (tilesWide t w * t.blockBytes)
      (fun p => (List.range (tilesWide t w)).flatMap fun tx => spec.writes w h level
        (tx * t.blockWidth) (ty * t.blockHeight) (p + tx * t.blockBytes))
      (fun pen => (List.range (tilesWide t w)).foldl (fun pen tx =>
        tile w h level (tx * t.blockWidth) (ty * t.blockHeight) pen) pen) := fun ty hty =>
    draws_range (tilesWide t w)
      (fun tx htx => spec.draws w h level _ _ (base_lt ht.width htx) (base_lt ht.height hty))
      fun tx htx => hwithin htx
  exact draws_range (tilesHigh t h) hrow fun ty hty => hwithin hty

/-- **a level**: every texel, from its tile -/
theorem level_mem (ht : t.Proper) (spec : TileSpec t tile texel) {w h level p k : Nat} {c : C} {v : V} :
    ((k, c), v) ∈ levelWrites spec w h level p ↔ ∃ y < h, ∃ x < w, k = level + y * w + x ∧
      v = texel (p + tileAt t w x y * t.blockBytes) (x % t.blockWidth) (y % t.blockHeight) c := by
  have hplace (ty tx : Nat) : p + ty * (tilesWide t w * t.blockBytes) + tx * t.blockBytes =
      p + (ty * tilesWide t w + tx) * t.blockBytes := by
    rw [Nat.add_mul, Nat.mul_assoc, Nat.add_assoc]
  have htiles : ((k, c), v) ∈ levelWrites spec w h level p ↔
      ∃ ty < tilesHigh t h, ∃ j < t.blockHeight, ty * t.blockHeight + j < h ∧
        ∃ tx < tilesWide t w, ∃ i < t.blockWidth, tx * t.blockWidth + i < w ∧
          k = level + (ty * t.blockHeight + j) * w + (tx * t.blockWidth + i) ∧
          v = texel (p + (ty * tilesWide t w + tx) * t.blockBytes) i j c := by
    unfold levelWrites
    simp only [List.mem_flatMap, List.mem_range, spec.mem, hplace]
    constructor
    · rintro ⟨ty, hty, tx, htx, j, hj, i, hi, hx, hy, hk, hv⟩
      exact ⟨ty, hty, j, hj, hy, tx, htx, i, hi, hx, hk, hv⟩
    · rintro ⟨ty, hty, j, hj, hy, tx, htx, i, hi, hx, hk, hv⟩
      exact ⟨ty, hty, tx, htx, j, hj, i, hi, hx, hy, hk, hv⟩
  have hcolumns (ty j : Nat) := exists_blocks (w := w) ht.width (p := fun tx i =>
    k = level + (ty * t.blockHeight + j) * w + (tx * t.blockWidth + i) ∧
      v = texel (p + (ty * tilesWide t w + tx) * t.blockBytes) i j c)
  have hrows := exists_blocks (w := h) ht.height (p := fun ty j => ∃ x < w,
    k = level + (ty * t.blockHeight + j) * w + (x / t.blockWidth * t.blockWidth + x % t.blockWidth) ∧
      v = texel (p + (ty * tilesWide t w + x / t.blockWidth) * t.blockBytes) (x % t.blockWidth) j c)
  rw [htiles]
  refine Iff.trans ?_ (hrows.trans ?_)
  · apply exists_congr
    intro ty
    apply and_congr_right
    intro _
    apply exists_congr
    intro j
    apply and_congr_right
    intro _
    exact and_congr_right fun _ => hcolumns ty j
  · simp only [Nat.div_add_mod']
    rfl

def mipWrites (spec : TileSpec t tile texel) : Nat → Nat → Nat → Nat → Nat → List ((Nat × C) × V)
  | 0, _, _, _, _ => []
  | mips + 1, w, h, base, p => levelWrites spec w h base p ++
    mipWrites spec mips (max (w / 2) 1) (max (h / 2) 1) (base + w * h) (p + levelBytes t w h)

theorem draws_mips (ht : t.Proper) (spec : TileSpec t tile texel) (mips : Nat) {w h : Nat} (hw : 1 ≤ w)
    (hh : 1 ≤ h) (base : Nat) :
    Draws (bytesBefore t w h mips) (bytesBefore t w h mips) (mipWrites spec mips w h base)
      (mipLoop (fun w h level => tileLoop w h t.blockWidth t.blockHeight (tile w h level)) mips w h
        base) := by
  induction mips generalizing w h base with
  | zero => exact draws_id
  | succ mips ih =>
    rw [bytesBefore_succ t w h mips hw hh]
    exact draws_comp (draws_level ht spec w h base)
      (ih (Nat.le_max_right _ _) (Nat.le_max_right _ _) (base + w * h)) (Nat.le_add_right _ _)
      (Nat.le_refl _)

theorem mips_mem (ht : t.Proper) (spec : TileSpec t tile texel) {mips w h : Nat} (hw : 1 ≤ w)
    (hh : 1 ≤ h) (base p : Nat) {k : Nat} {c : C} {v : V} :
    ((k, c), v) ∈ mipWrites spec mips w h base p ↔ ∃ m < mips, ∃ y < levelSize h m,
      ∃ x < levelSize w m, k = base + texelsBefore w h m + y * levelSize w m + x ∧
        v = texel (p + bytesBefore t w h m + tileAt t (levelSize w m) x y * t.blockBytes)
          (x % t.blockWidth) (y % t.blockHeight) c := by
  induction mips generalizing w h base p with
  | zero => exact ⟨fun h => (List.not_mem_nil h).elim, fun ⟨m, hm, _⟩ => absurd hm (Nat.not_lt_zero m)⟩
  | succ mips ih =>
    have hnext := ih (Nat.le_max_right (w / 2) 1) (Nat.le_max_right (h / 2) 1) (base + w * h)
      (p + levelBytes t w h)
    show _ ∈ levelWrites spec w h base p ++ _ ↔ _
    rw [List.mem_append, level_mem ht spec, hnext]
    constructor
    · rintro (hfirst | ⟨m, hm, hrest⟩)
      · refine ⟨0, Nat.succ_pos _, ?_⟩
        rw [levelSize_zero hw, levelSize_zero hh]
        exact hfirst
      · refine ⟨m + 1, Nat.succ_lt_succ hm, ?_⟩
        rw [texelsBefore_succ w h m hw hh, bytesBefore_succ t w h m hw hh, ← levelSize_half w,
          ← levelSize_half h, ← Nat.add_assoc, ← Nat.add_assoc]
        exact hrest
    · rintro ⟨m, hm, hrest⟩
      cases m with
      | zero =>
        rw [levelSize_zero hw, levelSize_zero hh] at hrest
        exact .inl hrest
      | succ m =>
        rw [texelsBefore_succ w h m hw hh, bytesBefore_succ t w h m hw hh, ← levelSize_half w,
          ← levelSize_half h, ← Nat.add_assoc, ← Nat.add_assoc] at hrest
        exact .inr ⟨m, Nat.lt_of_succ_lt_succ hm, hrest⟩

/-! ## one place for each texel -/

theorem texelsBefore_mono (w h : Nat) {m m' : Nat} (hm : m ≤ m') :
    texelsBefore w h m ≤ texelsBefore w h m' :=
  Finset.sum_le_sum_of_subset (Finset.range_mono hm)

theorem texel_lt {w h m x y : Nat} (hx : x < levelSize w m) (hy : y < levelSize h m) :
    texelsBefore w h m + y * levelSize w m + x < texelsBefore w h (m + 1) := by
  have hrow : (y + 1) * levelSize w m ≤ levelSize h m * levelSize w m := Nat.mul_le_mul_right _ hy
  rw [Nat.add_mul, Nat.one_mul] at hrow
  show _ < ∑ j ∈ Finset.range (m + 1), levelSize w j * levelSize h j
  rw [Finset.sum_range_succ, Nat.mul_comm (levelSize w m)]
  show _ < texelsBefore w h m + _
  omega

theorem texel_unique {w h m m' x x' y y' : Nat} (hx : x < levelSize w m) (hy : y < levelSize h m)
    (hx' : x' < levelSize w m') (hy' : y' < levelSize h m')
    (heq : texelsBefore w h m + y * levelSize w m + x =
      texelsBefore w h m' + y' * levelSize w m' + x') : m = m' ∧ x = x' ∧ y = y' := by
  have hlt := texel_lt hx hy
  have hlt' := texel_lt hx' hy'
  have hm : m = m' := by
    rcases Nat.lt_trichotomy m m' with hless | hsame | hmore
    · have hmono : texelsBefore w h (m + 1) ≤ texelsBefore w h m' := texelsBefore_mono w h hless
      omega
    · exact hsame
    · have hmono : texelsBefore w h (m' + 1) ≤ texelsBefore w h m := texelsBefore_mono w h hmore
      omega
  subst hm
  have hplace : y * levelSize w m + x = y' * levelSize w m + x' := by omega
  have hquot := congrArg (· / levelSize w m) hplace
  have hrest := congrArg (· % levelSize w m) hplace
  simp only [Nat.mul_comm _ (levelSize w m), Nat.mul_add_div (levelSize_pos w m), Nat.mul_add_mod,
    Nat.div_eq_of_lt hx, Nat.div_eq_of_lt hx', Nat.mod_eq_of_lt hx, Nat.mod_eq_of_lt hx'] at hquot hrest
  exact ⟨rfl, hrest, hquot⟩

/-- **the cell of a texel** has what its format has at its place -/
theorem cell_eq [DecidableEq C] (ht : t.Proper) (spec : TileSpec t tile texel) {mips w h : Nat}
    (hw : 1 ≤ w) (hh : 1 ≤ h) {m x y : Nat} (hm : m < mips) (hx : x < levelSize w m)
    (hy : y < levelSize h m) (c : C) (before : Nat × C → V) :
    applyWrites (mipWrites spec mips w h 0 0) before
      (texelsBefore w h m + y * levelSize w m + x, c) =
        texel (bytesBefore t w h m + tileAt t (levelSize w m) x y * t.blockBytes)
          (x % t.blockWidth) (y % t.blockHeight) c := by
  apply applyWrites_of_unique
  · refine List.mem_map.mpr ⟨((_, c), _), (mips_mem ht spec hw hh 0 0).mpr ⟨m, hm, y, hy, x, hx, ?_, rfl⟩,
      rfl⟩
    rw [Nat.zero_add]
  · rintro ⟨⟨k, c'⟩, v⟩ hmem hkey
    obtain ⟨m', -, y', hy', x', hx', hk, hv⟩ := (mips_mem ht spec hw hh 0 0).mp hmem
    obtain ⟨hk', rfl⟩ := Prod.mk.inj hkey
    rw [Nat.zero_add] at hk
    obtain ⟨rfl, rfl, rfl⟩ := texel_unique hx' hy' hx hy (hk.symm.trans hk')
    rw [Nat.zero_add] at hv
    exact hv

/-! ## sizes -/

theorem levelBytes_pos (ht : t.Proper) (hbytes : 0 < t.blockBytes) {w h : Nat} (hw : 1 ≤ w)
    (hh : 1 ≤ h) : 0 < levelBytes t w h := by
  have hwide : 0 < tilesWide t w := Nat.div_pos (by omega) ht.width
  have hhigh : 0 < tilesHigh t h := Nat.div_pos (by omega) ht.height
  exact Nat.mul_pos hhigh (Nat.mul_pos hwide hbytes)

theorem sizeLoop_eq (t : Tiling) (hbytes : 0 < t.blockBytes) (mips : Nat) {w h : Nat} (hw : 1 ≤ w)
    (hh : 1 ≤ h) (total : Nat) (hfits : total + bytesBefore t w h mips ≤ kSizeMax) :
    sizeLoop t mips w h total = total + bytesBefore t w h mips := by
  induction mips generalizing w h total with
  | zero => rfl
  | succ mips ih =>
    have hlevel : tilesWide t w * tilesHigh t h * t.blockBytes = levelBytes t w h := by
      unfold levelBytes
      rw [Nat.mul_comm (tilesWide t w), Nat.mul_assoc]
    rw [bytesBefore_succ t w h mips hw hh] at hfits ⊢
    have hroom : tilesWide t w * tilesHigh t h ≤ (kSizeMax - total) / t.blockBytes := by
      rw [Nat.le_div_iff_mul_le hbytes, hlevel]
      omega
    have hnext := ih (Nat.le_max_right (w / 2) 1) (Nat.le_max_right (h / 2) 1)
      (total + levelBytes t w h) (by omega)
    show (if tilesWide t w * tilesHigh t h > (kSizeMax - total) / t.blockBytes then 0
      else sizeLoop t mips _ _ (total + tilesWide t w * tilesHigh t h * t.blockBytes)) = _
    rw [if_neg (Nat.not_lt.mpr hroom), hlevel, hnext, Nat.add_assoc]

theorem mippedLoop_eq (i : Nat) {w h : Nat} (hw : 1 ≤ w) (hh : 1 ≤ h) (total : Nat) :
    mippedLoop i w h (total + w * h) = total + texelsBefore w h (i + 1) := by
  induction i generalizing w h total with
  | zero =>
    rw [texelsBefore_succ w h 0 hw hh]
    rfl
  | succ i ih =>
    rw [texelsBefore_succ w h (i + 1) hw hh, ← Nat.add_assoc]
    exact ih (Nat.le_max_right _ _) (Nat.le_max_right _ _) (total + w * h)

theorem MippedTexels_eq {w h mips : Nat} (hw : 1 ≤ w) (hh : 1 ≤ h) (hmips : 1 ≤ mips) :
    MippedTexels w h mips = texelsBefore w h mips := by
  have hloop := mippedLoop_eq (mips - 1) hw hh 0
  rwa [Nat.zero_add, Nat.zero_add, Nat.sub_add_cancel hmips] at hloop

/-- tiles of at most 64 bytes, and sides of at most 1024 texels: no size overflows -/
theorem bytesBefore_le (ht : t.Proper) (hbytes : t.blockBytes ≤ 64) {w h mips : Nat} (hw : 1 ≤ w)
    (hh : 1 ≤ h) (hw' : w ≤ 1024) (hh' : h ≤ 1024) (hmips : mips < 2 ^ 32) :
    bytesBefore t w h mips ≤ kSizeMax := by
  have hside {n b : Nat} (hb : 0 < b) (hn : n ≤ 1024) : (n + b - 1) / b ≤ 1024 := by
    apply Nat.lt_succ_iff.mp
    rw [Nat.div_lt_iff_lt_mul hb]
    have hmul : 1024 * 1 ≤ 1024 * b := Nat.mul_le_mul_left 1024 hb
    rw [Nat.succ_mul]
    omega
  have hlevel (j : Nat) : levelBytes t (levelSize w j) (levelSize h j) ≤ 2 ^ 26 := by
    have hwide := hside ht.width ((levelSize_le hw (m := j)).trans hw')
    have hhigh := hside ht.height ((levelSize_le hh (m := j)).trans hh')
    calc levelBytes t (levelSize w j) (levelSize h j)
        ≤ 1024 * (1024 * 64) := Nat.mul_le_mul hhigh (Nat.mul_le_mul hwide hbytes)
      _ = 2 ^ 26 := by decide
  have hsum : bytesBefore t w h mips ≤ mips * 2 ^ 26 := by
    have hle := Finset.sum_le_card_nsmul (Finset.range mips) _ _ fun j _ => hlevel j
    rw [Finset.card_range] at hle
    exact hle
  unfold kSizeMax
  omega

/-! ## tiles of rows -/

def TexelDecoder.tiling {Target : Type} (D : TexelDecoder Target) : Tiling :=
  ⟨D.BlockWidth, D.BlockHeight, D.BlockHeight * D.rowBytes⟩

variable {Target : Type}

/-- a texel in a tile: in its row, where its format has it -/
def tiledTexel (D : TexelDecoder Target) (data : Nat → UInt8) (p i j : Nat) (_ : Unit) : Target :=
  D.Texel (fun k => data (p + j * D.rowBytes + k)) i

def tiledWrites (D : TexelDecoder Target) (data : Nat → UInt8) (w h level baseX baseY p : Nat) :
    List ((Nat × Unit) × Target) :=
  (List.range (min (h - baseY) D.BlockHeight)).flatMap fun y =>
    (List.range (min (w - baseX) D.BlockWidth)).flatMap fun x =>
      [((level + (baseY + y) * w + baseX + x, ()), tiledTexel D data p x y ())]

theorem draws_tiledTile (D : TexelDecoder Target) (data : Nat → UInt8) (w h level baseX baseY : Nat) :
    Draws (D.BlockHeight * D.rowBytes) (D.BlockHeight * D.rowBytes)
      (tiledWrites D data w h level baseX baseY) (tiledTile D data w h level baseX baseY) := by
  have hrow (y : Nat) : Draws D.rowBytes D.rowBytes
      (fun p => (List.range (min (w - baseX) D.BlockWidth)).flatMap fun x =>
        [((level + (baseY + y) * w + baseX + x, ()), D.Texel (fun k => data (p + k)) x)])
      (fun pen => ((List.range (min (w - baseX) D.BlockWidth)).foldl (fun pen x =>
        (pen.read (D.touched x)).write (level + (baseY + y) * w + baseX + x, ())
          (D.Texel (fun k => data (pen.pos + k)) x)) pen).skip D.rowBytes) := by
    have htexels := draws_within (min (w - baseX) D.BlockWidth) fun x hx =>
      draws_read_write ((level + (baseY + y) * w + baseX + x, ()) : Nat × Unit)
        (fun p => D.Texel (fun k => data (p + k)) x) (D.touched_lt x (by omega))
    have hskip := htexels.skip D.rowBytes
    rwa [Nat.zero_add] at hskip
  have hrows : min (h - baseY) D.BlockHeight ≤ D.BlockHeight := Nat.min_le_right _ _
  have htile := (draws_range (min (h - baseY) D.BlockHeight) (fun y _ => hrow y) fun y hy => by
    have hle : (y + 1) * D.rowBytes ≤ D.BlockHeight * D.rowBytes :=
      Nat.mul_le_mul_right _ (by omega)
    rwa [Nat.add_mul, Nat.one_mul] at hle).skip
      (D.rowBytes * (D.BlockHeight - min (h - baseY) D.BlockHeight))
  have hbytes : min (h - baseY) D.BlockHeight * D.rowBytes + D.rowBytes *
      (D.BlockHeight - min (h - baseY) D.BlockHeight) = D.BlockHeight * D.rowBytes := by
    rw [Nat.mul_comm D.rowBytes, ← Nat.add_mul, Nat.add_sub_cancel' hrows]
  rw [hbytes] at htile
  exact htile

def tiledSpec (D : TexelDecoder Target) (data : Nat → UInt8) :
    TileSpec D.tiling (tiledTile D data) (tiledTexel D data) where
  writes := tiledWrites D data
  draws w h level baseX baseY _ _ := draws_tiledTile D data w h level baseX baseY
  mem w h level baseX baseY p k c v := by
    unfold tiledWrites
    simp only [List.mem_flatMap, List.mem_range, List.mem_singleton, Prod.mk.injEq]
    constructor
    · rintro ⟨j, hj, i, hi, ⟨hk, -⟩, hv⟩
      have hj' : j < D.BlockHeight := by omega
      have hi' : i < D.BlockWidth := by omega
      exact ⟨j, hj', i, hi', by omega, by omega, by omega, hv⟩
    · rintro ⟨j, hj, i, hi, hx, hy, hk, hv⟩
      have hj : j < D.BlockHeight := hj
      have hi : i < D.BlockWidth := hi
      exact ⟨j, by omega, i, by omega, ⟨by omega, trivial⟩, hv⟩

/-! ## tiles of two halves -/

def rgba8Tiling : Tiling := ⟨4, 4, 64⟩

/-- a byte of a texel: pairs of alpha and red, and 32 bytes behind them of green and blue -/
def rgba8Byte (data : Nat → UInt8) (p i j : Nat) : Channel → UInt8
  | .a => data (p + j * 8 + i * 2)
  | .r => data (p + j * 8 + (i * 2 + 1))
  | .g => data (p + 32 + j * 8 + i * 2)
  | .b => data (p + 32 + j * 8 + (i * 2 + 1))

def rgba8Writes (data : Nat → UInt8) (w h level baseX baseY p : Nat) :
    List ((Nat × Channel) × UInt8) :=
  (List.range 2).flatMap fun half => (List.range 4).flatMap fun y => (List.range 4).flatMap fun x =>
    if baseX + x ≥ w ∨ baseY + y ≥ h then []
    else [((level + (baseY + y) * w + baseX + x, if half = 0 then .a else .g),
        data (p + half * (4 * 8) + y * 8 + x * 2)),
      ((level + (baseY + y) * w + baseX + x, if half = 0 then .r else .b),
        data (p + half * (4 * 8) + y * 8 + (x * 2 + 1)))]

theorem draws_rgba8Tile (data : Nat → UInt8) (w h level baseX baseY : Nat) :
    Draws 64 64 (rgba8Writes data w h level baseX baseY)
      (rgba8Tile data w h level baseX baseY) := by
  have htexel (half y x : Nat) (hx : x < 4) : Draws 0 8 (fun p =>
      if baseX + x ≥ w ∨ baseY + y ≥ h then []
      else [((level + (baseY + y) * w + baseX + x, if half = 0 then Channel.a else .g),
          data (p + x * 2)),
        ((level + (baseY + y) * w + baseX + x, if half = 0 then .r else .b),
          data (p + (x * 2 + 1)))])
      (fun pen => if baseX + x ≥ w ∨ baseY + y ≥ h then pen
      else
        let t := level + (baseY + y) * w + baseX + x
        let pen := (pen.read [x * 2]).write (t, if half = 0 then .a else .g) (data (pen.pos + x * 2))
        (pen.read [x * 2 + 1]).write (t, if half = 0 then .r else .b)
          (data (pen.pos + (x * 2 + 1)))) := by
    by_cases hout : baseX + x ≥ w ∨ baseY + y ≥ h
    · simp only [if_pos hout]
      exact draws_id.mono (Nat.zero_le 8)
    · simp only [if_neg hout]
      exact draws_comp (draws_read_write _ (fun p => data (p + x * 2)) (b := 8) (by simp; omega))
        (draws_read_write _ (fun p => data (p + (x * 2 + 1))) (b := 8) (by simp; omega))
        (Nat.le_refl 8) (Nat.le_refl 8)
  have hhalf (half : Nat) := draws_range 4 (fun y _ =>
    (draws_within 4 (htexel half y)).skip 8) (m := 32) fun y hy => by omega
  exact draws_range 2 (fun half _ => hhalf half) fun half hhalf => by omega

def rgba8Spec (data : Nat → UInt8) : TileSpec rgba8Tiling (rgba8Tile data) (rgba8Byte data) where
  writes := rgba8Writes data
  draws w h level baseX baseY _ _ := draws_rgba8Tile data w h level baseX baseY
  mem w h level baseX baseY p k c v := by
    have htexel {half y x : Nat} : ((k, c), v) ∈ (if baseX + x ≥ w ∨ baseY + y ≥ h then []
        else [((level + (baseY + y) * w + baseX + x, if half = 0 then Channel.a else .g),
            data (p + half * (4 * 8) + y * 8 + x * 2)),
          ((level + (baseY + y) * w + baseX + x, if half = 0 then .r else .b),
            data (p + half * (4 * 8) + y * 8 + (x * 2 + 1)))]) ↔
        (baseX + x < w ∧ baseY + y < h ∧ k = level + (baseY + y) * w + (baseX + x)) ∧
          (c = (if half = 0 then .a else .g) ∧ v = data (p + half * (4 * 8) + y * 8 + x * 2) ∨
            c = (if half = 0 then .r else .b) ∧
              v = data (p + half * (4 * 8) + y * 8 + (x * 2 + 1))) := by
      rw [← Nat.add_assoc _ baseX x]
      by_cases hout : baseX + x ≥ w ∨ baseY + y ≥ h
      · rw [if_pos hout]
        exact ⟨fun h => (List.not_mem_nil h).elim, fun h => by omega⟩
      · rw [if_neg hout]
        simp only [List.mem_cons, List.not_mem_nil, or_false, Prod.mk.injEq]
        constructor
        · rintro (⟨⟨hk, hc⟩, hv⟩ | ⟨⟨hk, hc⟩, hv⟩)
          · exact ⟨⟨by omega, by omega, hk⟩, .inl ⟨hc, hv⟩⟩
          · exact ⟨⟨by omega, by omega, hk⟩, .inr ⟨hc, hv⟩⟩
        · rintro ⟨⟨-, -, hk⟩, ⟨hc, hv⟩ | ⟨hc, hv⟩⟩
          · exact .inl ⟨⟨hk, hc⟩, hv⟩
          · exact .inr ⟨⟨hk, hc⟩, hv⟩
    unfold rgba8Writes
    simp only [List.mem_flatMap, List.mem_range, htexel]
    constructor
    · rintro ⟨half, hhalf, j, hj, i, hi, ⟨hx, hy, hk⟩, hbyte⟩
      refine ⟨j, hj, i, hi, hx, hy, hk, ?_⟩
      rcases (by omega : half = 0 ∨ half = 1) with rfl | rfl
      · rcases hbyte with ⟨rfl, hv⟩ | ⟨rfl, hv⟩ <;> exact hv
      · rcases hbyte with ⟨rfl, hv⟩ | ⟨rfl, hv⟩ <;> exact hv
    · rintro ⟨j, hj, i, hi, hx, hy, hk, hv⟩
      cases c with
      | a => exact ⟨0, by decide, j, hj, i, hi, ⟨hx, hy, hk⟩, .inl ⟨rfl, hv⟩⟩
      | r => exact ⟨0, by decide, j, hj, i, hi, ⟨hx, hy, hk⟩, .inr ⟨rfl, hv⟩⟩
      | g => exact ⟨1, by decide, j, hj, i, hi, ⟨hx, hy, hk⟩, .inl ⟨rfl, hv⟩⟩
      | b => exact ⟨1, by decide, j, hj, i, hi, ⟨hx, hy, hk⟩, .inr ⟨rfl, hv⟩⟩

/-! ## tiles of blocks -/

def cmprTiling : Tiling := ⟨8, 8, 32⟩

/-- the bits of a row that are for a texel: the highest ones for the first -/
def twoBits (bits : UInt8) (x : Nat) : UInt8 := (bits >>> UInt8.ofNat (6 - 2 * x)) &&& 3

theorem twoBits_shift (bits : UInt8) : ∀ x < 3, twoBits (bits <<< 2) x = twoBits bits (x + 1) := by
  have h : ∀ b : BitVec 8, ∀ x < 3,
      twoBits (UInt8.ofBitVec b <<< 2) x = twoBits (UInt8.ofBitVec b) (x + 1) := by decide +kernel
  exact h bits.toBitVec

def blockTexel (data : Nat → UInt8) (block i j : Nat) : RGBA8 :=
  (dxtColors (Be16 data block) (Be16 data (block + 2))).getD
    (twoBits (data (block + 4 + j)) i).toNat default

def cmprTexel (data : Nat → UInt8) (p i j : Nat) (_ : Unit) : RGBA8 :=
  blockTexel data (p + j / 4 * 16 + i / 4 * 8) (i % 4) (j % 4)

def rowWrites (colors : List RGBA8) (w h level left top : Nat) (bits : UInt8) :
    List ((Nat × Unit) × RGBA8) :=
  (List.range 4).flatMap fun x => if left + x < w ∧ top < h then
    [((level + top * w + left + x, ()), colors.getD (twoBits bits x).toNat default)]
    else []

theorem draws_dxtRow (colors : List RGBA8) (w h level left top : Nat) (bits : UInt8) :
    Draws 0 0 (fun _ => rowWrites colors w h level left top bits)
      (dxtRow colors w h level left top bits (List.range 4)) := by
  let step (pen : Pen (Nat × Unit) RGBA8) (x : Nat) : Pen (Nat × Unit) RGBA8 :=
    if left + x < w ∧ top < h then
      pen.write (level + top * w + left + x, ()) (colors.getD (twoBits bits x).toNat default)
    else pen
  have hsteps : dxtRow colors w h level left top bits (List.range 4) =
      fun pen => (List.range 4).foldl step pen := by
    funext pen
    have h1 : twoBits (bits <<< 2) 0 = twoBits bits 1 := twoBits_shift bits 0 (by decide)
    have h2 : twoBits (bits <<< 2 <<< 2) 0 = twoBits bits 2 :=
      (twoBits_shift _ 0 (by decide)).trans (twoBits_shift bits 1 (by decide))
    have h3 : twoBits (bits <<< 2 <<< 2 <<< 2) 0 = twoBits bits 3 :=
      ((twoBits_shift _ 0 (by decide)).trans (twoBits_shift _ 1 (by decide))).trans
        (twoBits_shift bits 2 (by decide))
    show dxtRow colors w h level left top bits [0, 1, 2, 3] pen = step (step (step (step pen 0) 1) 2) 3
    simp only [step, ← h1, ← h2, ← h3]
    rfl
  rw [hsteps]
  apply draws_within 4
  intro x _
  by_cases hin : left + x < w ∧ top < h
  · simp only [if_pos hin]
    exact draws_write _ _
  · simp only [if_neg hin]
    exact draws_id

def blockWrites (data : Nat → UInt8) (w h level left top p : Nat) : List ((Nat × Unit) × RGBA8) :=
  (List.range 4).flatMap fun y =>
    rowWrites (dxtColors (Be16 data p) (Be16 data (p + 2))) w h level left (top + y)
      (data (p + 4 + y))

theorem draws_dxtBlock (data : Nat → UInt8) (w h level left top : Nat) :
    Draws 8 8 (blockWrites data w h level left top) (dxtBlock data w h level left top) := by
  have hrow (colors : List RGBA8) (y : Nat) (hy : y < 4) : Draws 0 4
      (fun p => rowWrites colors w h level left (top + y) (data (p + y)))
      (fun pen => dxtRow colors w h level left (top + y) (data (pen.pos + y)) (List.range 4)
        (pen.read [y])) :=
    draws_at fun p => draws_comp (draws_read (b := 4) (by simpa using hy))
      (draws_dxtRow colors w h level left (top + y) (data (p + y))) (Nat.le_refl 4) (Nat.zero_le 4)
  have hhead : Draws 4 4 (fun _ => ([] : List ((Nat × Unit) × RGBA8)))
      (fun pen => (pen.read [0, 1, 2, 3]).skip 4) :=
    (draws_read (b := 4) (by simp)).skip 4
  exact draws_at fun p => draws_comp hhead
    ((draws_within 4 (hrow (dxtColors (Be16 data p) (Be16 data (p + 2))))).skip 4) (by decide)
    (Nat.le_refl 8)

def cmprWrites (data : Nat → UInt8) (w h level xx yy p : Nat) : List ((Nat × Unit) × RGBA8) :=
  (List.range 2).flatMap fun yb => (List.range 2).flatMap fun xb =>
    blockWrites data w h level (xx + xb * 4) (yy + yb * 4) (p + yb * (2 * 8) + xb * 8)

theorem draws_cmprTile (data : Nat → UInt8) (w h level xx yy : Nat) :
    Draws 32 32 (cmprWrites data w h level xx yy) (cmprTile data w h level xx yy) := by
  have hrow (yb : Nat) := draws_range 2 (fun xb _ =>
    draws_dxtBlock data w h level (xx + xb * 4) (yy + yb * 4)) (m := 16) fun xb hxb => by omega
  exact draws_range 2 (fun yb _ => hrow yb) fun yb hyb => by omega

def cmprSpec (data : Nat → UInt8) : TileSpec cmprTiling (cmprTile data) (cmprTexel data) where
  writes := cmprWrites data
  draws w h level baseX baseY _ _ := draws_cmprTile data w h level baseX baseY
  mem w h level baseX baseY p k c v := by
    have htexel {left top block x y : Nat} : ((k, c), v) ∈ (if left + x < w ∧ top + y < h then
        [((level + (top + y) * w + left + x, ()), blockTexel data block x y)] else []) ↔
        left + x < w ∧ top + y < h ∧ k = level + (top + y) * w + (left + x) ∧
          v = blockTexel data block x y := by
      rw [← Nat.add_assoc _ left x]
      by_cases hin : left + x < w ∧ top + y < h
      · rw [if_pos hin, List.mem_singleton, Prod.mk.injEq, Prod.mk.injEq]
        exact ⟨fun ⟨⟨hk, _⟩, hv⟩ => ⟨hin.1, hin.2, hk, hv⟩, fun ⟨_, _, hk, hv⟩ => ⟨⟨hk, rfl⟩, hv⟩⟩
      · rw [if_neg hin]
        exact ⟨fun h => (List.not_mem_nil h).elim, fun h => absurd ⟨h.1, h.2.1⟩ hin⟩
    have hblocks : ((k, c), v) ∈ cmprWrites data w h level baseX baseY p ↔
        ∃ yb < 2, ∃ y < 4, ∃ xb < 2, ∃ x < 4, baseX + xb * 4 + x < w ∧ baseY + yb * 4 + y < h ∧
          k = level + (baseY + yb * 4 + y) * w + (baseX + xb * 4 + x) ∧
          v = blockTexel data (p + yb * 16 + xb * 8) x y := by
      show ((k, c), v) ∈ ((List.range 2).flatMap fun yb => (List.range 2).flatMap fun xb =>
        (List.range 4).flatMap fun y => (List.range 4).flatMap fun x =>
          if baseX + xb * 4 + x < w ∧ baseY + yb * 4 + y < h then
            [((level + (baseY + yb * 4 + y) * w + (baseX + xb * 4) + x, ()),
              blockTexel data (p + yb * 16 + xb * 8) x y)] else []) ↔ _
      simp only [List.mem_flatMap, List.mem_range, htexel]
      constructor
      · rintro ⟨yb, hyb, xb, hxb, y, hy, x, hx, hrest⟩
        exact ⟨yb, hyb, y, hy, xb, hxb, x, hx, hrest⟩
      · rintro ⟨yb, hyb, y, hy, xb, hxb, x, hx, hrest⟩
        exact ⟨yb, hyb, xb, hxb, y, hy, x, hx, hrest⟩
    rw [hblocks]
    have hcolumns (yb y : Nat) := exists_range_range (a := 2) (b := 4) (p := fun xb x =>
      baseX + xb * 4 + x < w ∧ baseY + yb * 4 + y < h ∧
        k = level + (baseY + yb * 4 + y) * w + (baseX + xb * 4 + x) ∧
        v = blockTexel data (p + yb * 16 + xb * 8) x y)
    have hrows := exists_range_range (a := 2) (b := 4) (p := fun yb y => ∃ i < 2 * 4,
      baseX + i / 4 * 4 + i % 4 < w ∧ baseY + yb * 4 + y < h ∧
        k = level + (baseY + yb * 4 + y) * w + (baseX + i / 4 * 4 + i % 4) ∧
        v = blockTexel data (p + yb * 16 + i / 4 * 8) (i % 4) y)
    refine Iff.trans ?_ (hrows.trans ?_)
    · apply exists_congr
      intro yb
      apply and_congr_right
      intro _
      apply exists_congr
      intro y
      exact and_congr_right fun _ => hcolumns yb y
    · unfold cmprTexel
      simp only [Nat.add_assoc, Nat.div_add_mod']
      rfl

/-! ## textures -/

/-- what a format has for a texel, in the tile at a place and where it is in it -/
def texelSpec (format : TexFormat) (data : Nat → UInt8) (p i j : Nat) : RGBA8 :=
  match format with
  | .I4 => tiledTexel DecodeI4 data p i j ()
  | .I8 | .Z8 => tiledTexel DecodeI8 data p i j ()
  | .IA4 => tiledTexel DecodeIA4 data p i j ()
  | .IA8 | .Z16 => tiledTexel DecodeIA8 data p i j ()
  | .RGB565 => tiledTexel DecodeRGB565 data p i j ()
  | .RGB5A3 => tiledTexel DecodeRGB5A3 data p i j ()
  | .RGBA8 | .Z24X8 =>
    ⟨rgba8Byte data p i j .r, rgba8Byte data p i j .g, rgba8Byte data p i j .b, rgba8Byte data p i j .a⟩
  | .CMPR => cmprTexel data p i j ()
  | .C4 | .C8 | .C14X2 | .other _ => default

/-- the texels that a decoder is to give for a texture, and how far it is to read -/
structure Decodes (t : Tiling) (texel : Nat → Nat → Nat → Target) (w h mips : Nat)
    (decoded : Decoded Target) : Prop where
  length : decoded.out.length = texelsBefore w h mips
  texels : ∀ m < mips, ∀ y < levelSize h m, ∀ x < levelSize w m,
    decoded.out[texelsBefore w h m + y * levelSize w m + x]? = some
      (texel (bytesBefore t w h m + tileAt t (levelSize w m) x y * t.blockBytes)
        (x % t.blockWidth) (y % t.blockHeight))
  pos : decoded.pos = bytesBefore t w h mips
  reads : ∀ r ∈ decoded.reads, r < bytesBefore t w h mips

variable {w h mips : Nat}

theorem texel_lt_all {m x y : Nat} (hm : m < mips) (hx : x < levelSize w m) (hy : y < levelSize h m) :
    texelsBefore w h m + y * levelSize w m + x < texelsBefore w h mips :=
  Nat.lt_of_lt_of_le (texel_lt hx hy) (texelsBefore_mono w h hm)

theorem walk_eq (mips : Nat) (ht : t.Proper) (spec : TileSpec t tile texel) (hw : 1 ≤ w) (hh : 1 ≤ h) :
    ∃ reads, mipLoop (fun w h level => tileLoop w h t.blockWidth t.blockHeight (tile w h level)) mips w
        h 0 (.start _ _) = ⟨bytesBefore t w h mips, mipWrites spec mips w h 0 0, reads⟩ ∧
      ∀ r ∈ reads, r < bytesBefore t w h mips := by
  obtain ⟨reads, hrun, hreads⟩ := draws_mips ht spec mips hw hh 0 (.start _ _)
  refine ⟨reads, hrun.trans ?_, fun r hr => ?_⟩
  · show (⟨0 + _, [] ++ _, [] ++ _⟩ : Pen (Nat × C) V) = _
    rw [Nat.zero_add]
    rfl
  · have hin : 0 ≤ r ∧ r < 0 + bytesBefore t w h mips := hreads r hr
    omega

theorem decodes_ofPen [Inhabited Target]
    {tile : Nat → Nat → Nat → Nat → Nat → Pen (Nat × Unit) Target → Pen (Nat × Unit) Target}
    {texel : Nat → Nat → Nat → Unit → Target} (ht : t.Proper) (spec : TileSpec t tile texel)
    (hw : 1 ≤ w) (hh : 1 ≤ h) (hmips : 1 ≤ mips) {pen : Pen (Nat × Unit) Target}
    (hpen : pen = mipLoop (fun w h level => tileLoop w h t.blockWidth t.blockHeight (tile w h level))
      mips w h 0 (.start _ _)) :
    Decodes t (fun p i j => texel p i j ()) w h mips (.ofPen (MippedTexels w h mips) pen) := by
  obtain ⟨reads, hrun, hreads⟩ := walk_eq mips ht spec hw hh
  rw [hrun] at hpen
  subst hpen
  have htexels := MippedTexels_eq hw hh hmips
  refine ⟨?_, ?_, rfl, hreads⟩
  · show ((List.range _).map _).length = _
    rw [List.length_map, List.length_range, htexels]
  · intro m hm y hy x hx
    show ((List.range _).map _)[_]? = _
    rw [List.getElem?_map, List.getElem?_range (htexels ▸ texel_lt_all hm hx hy)]
    exact congrArg some (cell_eq ht spec hw hh hm hx hy () _)

theorem decodes_ofChannels
    {tile : Nat → Nat → Nat → Nat → Nat → Pen (Nat × Channel) UInt8 → Pen (Nat × Channel) UInt8}
    {texel : Nat → Nat → Nat → Channel → UInt8} (ht : t.Proper) (spec : TileSpec t tile texel)
    (hw : 1 ≤ w) (hh : 1 ≤ h) (hmips : 1 ≤ mips) {pen : Pen (Nat × Channel) UInt8}
    (hpen : pen = mipLoop (fun w h level => tileLoop w h t.blockWidth t.blockHeight (tile w h level))
      mips w h 0 (.start _ _)) :
    Decodes t (fun p i j => ⟨texel p i j .r, texel p i j .g, texel p i j .b, texel p i j .a⟩) w h mips
      (.ofChannels (MippedTexels w h mips) pen) := by
  obtain ⟨reads, hrun, hreads⟩ := walk_eq mips ht spec hw hh
  rw [hrun] at hpen
  subst hpen
  have htexels := MippedTexels_eq hw hh hmips
  refine ⟨?_, ?_, rfl, hreads⟩
  · show ((List.range _).map _).length = _
    rw [List.length_map, List.length_range, htexels]
  · intro m hm y hy x hx
    show ((List.range _).map _)[_]? = _
    rw [List.getElem?_map, List.getElem?_range (htexels ▸ texel_lt_all hm hx hy)]
    have hcell := fun c => cell_eq ht spec hw hh hm hx hy c fun _ => 0
    show some (RGBA8.mk _ _ _ _) = some (RGBA8.mk _ _ _ _)
    congr 2
    · exact hcell .r
    · exact hcell .g
    · exact hcell .b
    · exact hcell .a

def RGBA8.bytes (t : RGBA8) : List UInt8 := [t.r, t.g, t.b, t.a]

theorem TextureDataSize_eq {format : TexFormat} (hformat : TilingOf format = some t) (hw : 1 ≤ w)
    (hh : 1 ≤ h) (hw' : w ≤ 1024) (hh' : h ≤ 1024) (hmips : 1 ≤ mips) (hmips' : mips < 2 ^ 32) :
    t.Proper ∧ TextureDataSize format w h mips = bytesBefore t w h mips ∧
      0 < bytesBefore t w h mips := by
  have hproper : t.Proper ∧ 0 < t.blockBytes ∧ t.blockBytes ≤ 64 := by
    cases format <;> cases hformat <;> exact ⟨⟨by decide, by decide⟩, by decide, by decide⟩
  obtain ⟨ht, hpos, hle⟩ := hproper
  have hfits := bytesBefore_le ht hle hw hh hw' hh' hmips'
  refine ⟨ht, ?_, ?_⟩
  · unfold TextureDataSize
    rw [hformat]
    show (if w = 0 ∨ h = 0 ∨ mips = 0 then 0 else sizeLoop t mips w h 0) = _
    rw [if_neg (by omega), sizeLoop_eq t hpos mips hw hh 0 (by omega), Nat.zero_add]
  · obtain ⟨m, rfl⟩ : ∃ m, mips = m + 1 := ⟨mips - 1, by omega⟩
    rw [bytesBefore_succ t w h m hw hh]
    exact Nat.add_pos_left (levelBytes_pos ht hpos hw hh) _

theorem exists_decoded {format : TexFormat} (hformat : TilingOf format = some t)
    (hpalette : IsPaletted format = false) (ht : t.Proper) {width height mips : UInt32}
    (data : Nat → UInt8) {size : Nat} (hw : 1 ≤ width.toNat) (hh : 1 ≤ height.toNat)
    (hmips : 1 ≤ mips.toNat)
    (hneeded : ¬(TextureDataSize format width.toNat height.toNat mips.toNat = 0 ∨
      size < TextureDataSize format width.toNat height.toNat mips.toNat ∨ IsPaletted format)) :
    ∃ decoded, DecodeTexture format width height mips data size = Bytes decoded ∧
      Decodes t (texelSpec format data) width.toNat height.toNat mips.toNat decoded := by
  unfold DecodeTexture
  simp only [if_neg hneeded]
  cases format <;> cases hformat
  case I4 => exact ⟨_, rfl, decodes_ofPen ht (tiledSpec DecodeI4 data) hw hh hmips rfl⟩
  case I8 => exact ⟨_, rfl, decodes_ofPen ht (tiledSpec DecodeI8 data) hw hh hmips rfl⟩
  case Z8 => exact ⟨_, rfl, decodes_ofPen ht (tiledSpec DecodeI8 data) hw hh hmips rfl⟩
  case IA4 => exact ⟨_, rfl, decodes_ofPen ht (tiledSpec DecodeIA4 data) hw hh hmips rfl⟩
  case IA8 => exact ⟨_, rfl, decodes_ofPen ht (tiledSpec DecodeIA8 data) hw hh hmips rfl⟩
  case Z16 => exact ⟨_, rfl, decodes_ofPen ht (tiledSpec DecodeIA8 data) hw hh hmips rfl⟩
  case RGB565 => exact ⟨_, rfl, decodes_ofPen ht (tiledSpec DecodeRGB565 data) hw hh hmips rfl⟩
  case RGB5A3 => exact ⟨_, rfl, decodes_ofPen ht (tiledSpec DecodeRGB5A3 data) hw hh hmips rfl⟩
  case RGBA8 => exact ⟨_, rfl, decodes_ofChannels ht (rgba8Spec data) hw hh hmips rfl⟩
  case Z24X8 => exact ⟨_, rfl, decodes_ofChannels ht (rgba8Spec data) hw hh hmips rfl⟩
  case CMPR => exact ⟨_, rfl, decodes_ofPen ht (cmprSpec data) hw hh hmips rfl⟩
  all_goals cases hpalette

/-- **texture decoding is the formula of each texel**: every texel of every level is what its format
has in the tile and at the place of the texel, cut tiles included; and the input pointer passes over
exactly the bytes that the size function counts, which are the only ones that are read -/
theorem decodeTexture_spec (format : TexFormat) (width height mips : UInt32) (data : Nat → UInt8)
    (size : Nat) (hknown : IsKnown format = true) (hpalette : IsPaletted format = false)
    (hw : 1 ≤ width.toNat ∧ width.toNat ≤ 1024) (hh : 1 ≤ height.toNat ∧ height.toNat ≤ 1024)
    (hmips : 1 ≤ mips.toNat)
    (hsize : TextureDataSize format width.toNat height.toNat mips.toNat ≤ size) :
    ∃ t, TilingOf format = some t ∧
      (DecodeTexture format width height mips data size).out.length =
        texelsBefore width.toNat height.toNat mips.toNat * 4 ∧
      (∀ m < mips.toNat, ∀ y < levelSize height.toNat m, ∀ x < levelSize width.toNat m,
        slice (DecodeTexture format width height mips data size).out
          ((texelsBefore width.toNat height.toNat m + y * levelSize width.toNat m + x) * 4) 4 =
        (texelSpec format data (bytesBefore t width.toNat height.toNat m +
          tileAt t (levelSize width.toNat m) x y * t.blockBytes) (x % t.blockWidth)
          (y % t.blockHeight)).bytes) ∧
      (DecodeTexture format width height mips data size).pos =
        TextureDataSize format width.toNat height.toNat mips.toNat ∧
      ∀ r ∈ (DecodeTexture format width height mips data size).reads,
        r < TextureDataSize format width.toNat height.toNat mips.toNat := by
  obtain ⟨t, hformat⟩ := Option.isSome_iff_exists.mp hknown
  obtain ⟨ht, hcount, hpos⟩ := TextureDataSize_eq hformat hw.1 hh.1 hw.2 hh.2 hmips
    (UInt32.toNat_lt mips)
  have hneeded : ¬(TextureDataSize format width.toNat height.toNat mips.toNat = 0 ∨
      size < TextureDataSize format width.toNat height.toNat mips.toNat ∨ IsPaletted format) := by
    rw [hpalette]
    rintro (hzero | hshort | hfalse)
    · omega
    · omega
    · exact Bool.false_ne_true hfalse
  obtain ⟨decoded, hrun, hlength, htexels, hend, hreads⟩ :=
    exists_decoded hformat hpalette ht data hw.1 hh.1 hmips hneeded
  rw [hrun, hcount]
  refine ⟨t, hformat, ?_, fun m hm y hy x hx => ?_, hend, hreads⟩
  · show (decoded.out.flatMap RGBA8.bytes).length = _
    rw [List.length_flatMap]
    show (decoded.out.map fun _ => 4).sum = _
    rw [List.map_const', List.sum_replicate_nat, hlength]
  · obtain ⟨hlt, hvalue⟩ := List.getElem?_eq_some_iff.mp (htexels m hm y hy x hx)
    show slice (decoded.out.flatMap RGBA8.bytes) _ 4 = _
    have hbytes : ∀ t ∈ decoded.out, t.bytes.length = 4 := fun _ _ => rfl
    rw [slice_flatMap hbytes hlt, hvalue]

/-- two levels of blocks, cut on both sides -/
theorem decodeTexture_spec_cmpr : ∃ t, TilingOf .CMPR = some t ∧
    (DecodeTexture .CMPR 9 3 2 (UInt8.ofNat) 96).out.length = texelsBefore 9 3 2 * 4 ∧
    (∀ m < 2, ∀ y < levelSize 3 m, ∀ x < levelSize 9 m,
      slice (DecodeTexture .CMPR 9 3 2 (UInt8.ofNat) 96).out
        ((texelsBefore 9 3 m + y * levelSize 9 m + x) * 4) 4 =
      (texelSpec .CMPR (UInt8.ofNat) (bytesBefore t 9 3 m +
        tileAt t (levelSize 9 m) x y * t.blockBytes) (x % t.blockWidth) (y % t.blockHeight)).bytes) ∧
    (DecodeTexture .CMPR 9 3 2 (UInt8.ofNat) 96).pos = TextureDataSize .CMPR 9 3 2 ∧
    ∀ r ∈ (DecodeTexture .CMPR 9 3 2 (UInt8.ofNat) 96).reads, r < TextureDataSize .CMPR 9 3 2 :=
  decodeTexture_spec .CMPR 9 3 2 UInt8.ofNat 96 rfl rfl (by decide) (by decide) (by decide)
    (by decide)

/-- of a tile that is cut, the bytes of the texels outside the level are passed over, not read -/
theorem cutTile_unread : TextureDataSize .I8 1 1 1 = 32 ∧
    (DecodeTexture .I8 1 1 1 (UInt8.ofNat) 32).reads = [0] ∧
    (DecodeTexture .I8 1 1 1 (UInt8.ofNat) 32).pos = 32 ∧
    ¬∀ r < TextureDataSize .I8 1 1 1, r ∈ (DecodeTexture .I8 1 1 1 (UInt8.ofNat) 32).reads := by
  refine ⟨by decide, by decide, by decide, fun h => ?_⟩
  exact absurd (h 1 (by decide)) (by decide)

end DolTranslator.Gx
