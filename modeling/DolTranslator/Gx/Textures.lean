import Mathlib
import DolTranslator.Streams.Pen
import DolTranslator.Streams.Writes

/-!
# Textures

A texture is stored in tiles, and its mip levels one behind the other. The decoders go over the tiles
with a running input pointer; what they read and write is recorded.

* `TilingOf`, `TextureDataSize`   the tiles of a format, and the bytes of a texture;
* `TexelDecoder`   a format of one unit for each texel: `DecodeI4` and the others;
* `DecodeTiled`, `DecodeRGBA8`, `DecodeCMPR`   the three walks;
* `DecodeTexture`   by format.

The NEON rows read the same bytes and write the same texels.
-/

namespace DolTranslator.Gx

open Streams

inductive TexFormat where
  | I4 | I8 | IA4 | IA8 | RGB565 | RGB5A3 | RGBA8 | C4 | C8 | C14X2 | CMPR | Z8 | Z16 | Z24X8
  /-- any other number -/
  | other (number : UInt32)
  deriving DecidableEq

structure RGBA8 where
  r : UInt8
  g : UInt8
  b : UInt8
  a : UInt8
  deriving DecidableEq, Inhabited

/-! ## colours -/

/-- so many bits, repeated to fill eight -/
def ExpandTo8 (Bits : UInt8) (n : UInt8) : UInt8 :=
  if Bits = 3 then (n <<< (8 - 3)) ||| (n <<< (8 - 6)) ||| (n >>> (9 - 8))
  else (n <<< (8 - Bits)) ||| (n >>> (Bits * 2 - 8))

def S3TCBlend (a b : UInt8) : UInt8 :=
  ((((a.toUInt32 <<< 1) + a.toUInt32) + ((b.toUInt32 <<< 2) + b.toUInt32)) >>> 3).toUInt8

def HalfBlend (a b : UInt8) : UInt8 := ((a.toUInt32 + b.toUInt32) >>> 1).toUInt8

def Be16 (source : Nat → UInt8) (place : Nat) : UInt16 :=
  ((source place).toUInt16 <<< 8) ||| (source (place + 1)).toUInt16

/-! ## sizes -/

structure Tiling where
  blockWidth : Nat
  blockHeight : Nat
  blockBytes : Nat

def TilingOf : TexFormat → Option Tiling
  | .I4 | .C4 | .CMPR => some ⟨8, 8, 32⟩
  | .I8 | .IA4 | .C8 | .Z8 => some ⟨8, 4, 32⟩
  | .IA8 | .RGB565 | .RGB5A3 | .C14X2 | .Z16 => some ⟨4, 4, 32⟩
  | .RGBA8 | .Z24X8 => some ⟨4, 4, 64⟩
  | .other _ => none

def IsKnown (format : TexFormat) : Bool := (TilingOf format).isSome

def IsPaletted (format : TexFormat) : Bool := format = .C4 || format = .C8 || format = .C14X2

/-- `std::numeric_limits<std::size_t>::max()` -/
def kSizeMax : Nat := 2 ^ 64 - 1

def mippedLoop : Nat → Nat → Nat → Nat → Nat
  | 0, _, _, total => total
  | i + 1, w, h, total =>
    let w := max (w / 2) 1
    let h := max (h / 2) 1
    mippedLoop i w h (total + w * h)

def MippedTexels (w h mips : Nat) : Nat := mippedLoop (mips - 1) w h (w * h)

def sizeLoop (tiling : Tiling) : Nat → Nat → Nat → Nat → Nat
  | 0, _, _, total => total
  | mips + 1, width, height, total =>
    let wide := (width + tiling.blockWidth - 1) / tiling.blockWidth
    let high := (height + tiling.blockHeight - 1) / tiling.blockHeight
    if wide * high > (kSizeMax - total) / tiling.blockBytes then 0
    else sizeLoop tiling mips (max (width / 2) 1) (max (height / 2) 1)
      (total + wide * high * tiling.blockBytes)

def TextureDataSize (format : TexFormat) (width height mips : Nat) : Nat :=
  match TilingOf format with
  | none => 0
  | some tiling =>
    if width = 0 ∨ height = 0 ∨ mips = 0 then 0 else sizeLoop tiling mips width height 0

/-! ## texels -/

/-- a tile row of `BlockWidth` texels takes `BlockWidth / Frac` source units -/
structure TexelDecoder (Target : Type) where
  Frac : Nat
  BlockWidth : Nat
  BlockHeight : Nat
  SourceBytes : Nat
  /-- a texel of a row, from the bytes of the row -/
  Texel : (Nat → UInt8) → Nat → Target
  /-- the bytes of the row that it reads -/
  touched : Nat → List Nat
  only_touched : ∀ row row' x, (∀ k ∈ touched x, row k = row' k) → Texel row x = Texel row' x
  touched_lt : ∀ x < BlockWidth, ∀ k ∈ touched x, k < BlockWidth / Frac * SourceBytes

def TexelDecoder.rowBytes {Target : Type} (D : TexelDecoder Target) : Nat :=
  D.BlockWidth / D.Frac * D.SourceBytes

def nibble (byte : UInt8) (x : Nat) : UInt8 := (byte >>> if x % 2 = 1 then 0 else 4) &&& 0xf

def DecodeI4 : TexelDecoder RGBA8 where
  Frac := 2
  BlockWidth := 8
  BlockHeight := 8
  SourceBytes := 1
  Texel row x :=
    let i := ExpandTo8 4 (nibble (row (x / 2)) x)
    ⟨i, i, i, i⟩
  touched x := [x / 2]
  only_touched row row' x h := by simp [h]
  touched_lt x hx k hk := by simp at hk; omega

def DecodeI8 : TexelDecoder RGBA8 where
  Frac := 1
  BlockWidth := 8
  BlockHeight := 4
  SourceBytes := 1
  Texel row x := ⟨row x, row x, row x, row x⟩
  touched x := [x]
  only_touched row row' x h := by simp [h]
  touched_lt x hx k hk := by simp at hk; omega

def DecodeIA4 : TexelDecoder RGBA8 where
  Frac := 1
  BlockWidth := 8
  BlockHeight := 4
  SourceBytes := 1
  Texel row x :=
    let i := ExpandTo8 4 (row x &&& 0xf)
    ⟨i, i, i, ExpandTo8 4 (row x >>> 4)⟩
  touched x := [x]
  only_touched row row' x h := by simp [h]
  touched_lt x hx k hk := by simp at hk; omega

/-- alpha first, then intensity -/
def DecodeIA8 : TexelDecoder RGBA8 where
  Frac := 1
  BlockWidth := 4
  BlockHeight := 4
  SourceBytes := 2
  Texel row x :=
    let i := row (x * 2 + 1)
    ⟨i, i, i, row (x * 2)⟩
  touched x := [x * 2 + 1, x * 2]
  only_touched row row' x h := by simp [h]
  touched_lt x hx k hk := by simp at hk; omega

def rgb565 (v : UInt16) : RGBA8 :=
  ⟨ExpandTo8 5 ((v >>> 11) &&& 0x1f).toUInt8, ExpandTo8 6 ((v >>> 5) &&& 0x3f).toUInt8,
    ExpandTo8 5 (v &&& 0x1f).toUInt8, 0xff⟩

def DecodeRGB565 : TexelDecoder RGBA8 where
  Frac := 1
  BlockWidth := 4
  BlockHeight := 4
  SourceBytes := 2
  Texel row x := rgb565 (Be16 row (x * 2))
  touched x := [x * 2, x * 2 + 1]
  only_touched row row' x h := by simp [Be16, h]
  touched_lt x hx k hk := by simp at hk; omega

/-- top bit set: RGB555, opaque; clear: ARGB3444 -/
def DecodeRGB5A3 : TexelDecoder RGBA8 where
  Frac := 1
  BlockWidth := 4
  BlockHeight := 4
  SourceBytes := 2
  Texel row x :=
    let v := Be16 row (x * 2)
    if v &&& 0x8000 ≠ 0 then
      ⟨ExpandTo8 5 ((v >>> 10) &&& 0x1f).toUInt8, ExpandTo8 5 ((v >>> 5) &&& 0x1f).toUInt8,
        ExpandTo8 5 (v &&& 0x1f).toUInt8, 0xff⟩
    else
      ⟨ExpandTo8 4 ((v >>> 8) &&& 0xf).toUInt8, ExpandTo8 4 ((v >>> 4) &&& 0xf).toUInt8,
        ExpandTo8 4 (v &&& 0xf).toUInt8, ExpandTo8 3 ((v >>> 12) &&& 0x7).toUInt8⟩
  touched x := [x * 2, x * 2 + 1]
  only_touched row row' x h := by simp [Be16, h]
  touched_lt x hx k hk := by simp at hk; omega

/-! ## walks -/

variable {K V Target : Type}

/-- the levels: their sizes, and where their texels start -/
def mipLoop (level : Nat → Nat → Nat → Pen K V → Pen K V) : Nat → Nat → Nat → Nat → Pen K V → Pen K V
  | 0, _, _, _, pen => pen
  | mips + 1, w, h, base, pen =>
    mipLoop level mips (max (w / 2) 1) (max (h / 2) 1) (base + w * h) (level w h base pen)

def tileLoop (w h blockWidth blockHeight : Nat) (tile : Nat → Nat → Pen K V → Pen K V)
    (pen : Pen K V) : Pen K V :=
  let tilesWide := (w + blockWidth - 1) / blockWidth
  let tilesHigh := (h + blockHeight - 1) / blockHeight
  (List.range tilesHigh).foldl (fun pen ty =>
    (List.range tilesWide).foldl (fun pen tx => tile (tx * blockWidth) (ty * blockHeight) pen) pen) pen

def tiledTile (D : TexelDecoder Target) (data : Nat → UInt8) (w h level baseX baseY : Nat)
    (pen : Pen (Nat × Unit) Target) : Pen (Nat × Unit) Target :=
  let rows := min (h - baseY) D.BlockHeight
  let n := min (w - baseX) D.BlockWidth
  let pen := (List.range rows).foldl (fun pen y =>
    ((List.range n).foldl (fun pen x =>
      (pen.read (D.touched x)).write (level + (baseY + y) * w + baseX + x, ())
        (D.Texel (fun k => data (pen.pos + k)) x)) pen).skip D.rowBytes) pen
  -- a tile cut off at the bottom still takes its whole 32 bytes
  pen.skip (D.rowBytes * (D.BlockHeight - rows))

def DecodeTiled (D : TexelDecoder Target) (data : Nat → UInt8) (width height mips : Nat) :
    Pen (Nat × Unit) Target :=
  mipLoop (fun w h level => tileLoop w h D.BlockWidth D.BlockHeight (tiledTile D data w h level))
    mips width height 0 (.start _ _)

inductive Channel where
  | r | g | b | a
  deriving DecidableEq

/-- 32 bytes of AR pairs, then 32 of GB pairs -/
def rgba8Tile (data : Nat → UInt8) (w h level baseX baseY : Nat)
    (pen : Pen (Nat × Channel) UInt8) : Pen (Nat × Channel) UInt8 :=
  (List.range 2).foldl (fun pen half => (List.range 4).foldl (fun pen y =>
    ((List.range 4).foldl (fun pen x =>
      if baseX + x ≥ w ∨ baseY + y ≥ h then pen
      else
        let t := level + (baseY + y) * w + baseX + x
        let pen := (pen.read [x * 2]).write (t, if half = 0 then .a else .g) (data (pen.pos + x * 2))
        (pen.read [x * 2 + 1]).write (t, if half = 0 then .r else .b)
          (data (pen.pos + (x * 2 + 1)))) pen).skip 8) pen) pen

def DecodeRGBA8 (data : Nat → UInt8) (width height mips : Nat) : Pen (Nat × Channel) UInt8 :=
  mipLoop (fun w h level => tileLoop w h 4 4 (rgba8Tile data w h level)) mips width height 0
    (.start _ _)

/-- the colours of a block; the fourth one of three is their midpoint with alpha 0 -/
def dxtColors (c1 c2 : UInt16) : List RGBA8 :=
  let color0 := rgb565 c1
  let color1 := rgb565 c2
  if c1 > c2 then
    [color0, color1,
      ⟨S3TCBlend color1.r color0.r, S3TCBlend color1.g color0.g, S3TCBlend color1.b color0.b, 0xff⟩,
      ⟨S3TCBlend color0.r color1.r, S3TCBlend color0.g color1.g, S3TCBlend color0.b color1.b, 0xff⟩]
  else
    let color2 : RGBA8 :=
      ⟨HalfBlend color0.r color1.r, HalfBlend color0.g color1.g, HalfBlend color0.b color1.b, 0xff⟩
    [color0, color1, color2, { color2 with a := 0 }]

/-- a row of a block: the highest two bits are for the next texel -/
def dxtRow (colors : List RGBA8) (w h level left top : Nat) :
    UInt8 → List Nat → Pen (Nat × Unit) RGBA8 → Pen (Nat × Unit) RGBA8
  | _, [], pen => pen
  | bits, x :: xs, pen =>
    let pen := if left + x < w ∧ top < h then
        pen.write (level + top * w + left + x, ()) (colors.getD ((bits >>> 6) &&& 3).toNat default)
      else pen
    dxtRow colors w h level left top (bits <<< 2) xs pen

def dxtBlock (data : Nat → UInt8) (w h level left top : Nat) (pen : Pen (Nat × Unit) RGBA8) :
    Pen (Nat × Unit) RGBA8 :=
  let c1 := Be16 data pen.pos
  let c2 := Be16 data (pen.pos + 2)
  let pen := (pen.read [0, 1, 2, 3]).skip 4
  let pen := (List.range 4).foldl (fun pen y =>
    dxtRow (dxtColors c1 c2) w h level left (top + y) (data (pen.pos + y)) (List.range 4)
      (pen.read [y])) pen
  pen.skip 4

/-- four blocks: top left, top right, bottom left, bottom right -/
def cmprTile (data : Nat → UInt8) (w h level xx yy : Nat) (pen : Pen (Nat × Unit) RGBA8) :
    Pen (Nat × Unit) RGBA8 :=
  (List.range 2).foldl (fun pen yb => (List.range 2).foldl (fun pen xb =>
    dxtBlock data w h level (xx + xb * 4) (yy + yb * 4) pen) pen) pen

def DecodeCMPR (data : Nat → UInt8) (width height mips : Nat) : Pen (Nat × Unit) RGBA8 :=
  mipLoop (fun w h level => tileLoop w h 8 8 (cmprTile data w h level)) mips width height 0
    (.start _ _)

/-! ## by format -/

/-- what a decoder gives, where its input pointer is in the end, and what it has read -/
structure Decoded (Target : Type) where
  out : List Target
  pos : Nat
  reads : List Nat

def Decoded.none : Decoded Target := ⟨[], 0, []⟩

def Decoded.ofPen [Inhabited Target] (texels : Nat) (pen : Pen (Nat × Unit) Target) :
    Decoded Target :=
  ⟨(List.range texels).map fun i => applyWrites pen.writes (fun _ => default) (i, ()), pen.pos,
    pen.reads⟩

def Decoded.ofChannels (texels : Nat) (pen : Pen (Nat × Channel) UInt8) : Decoded RGBA8 :=
  let channel (i : Nat) (c : Channel) := applyWrites pen.writes (fun _ => 0) (i, c)
  ⟨(List.range texels).map fun i => ⟨channel i .r, channel i .g, channel i .b, channel i .a⟩, pen.pos,
    pen.reads⟩

def Bytes (decoded : Decoded RGBA8) : Decoded UInt8 :=
  ⟨decoded.out.flatMap fun t => [t.r, t.g, t.b, t.a], decoded.pos, decoded.reads⟩

def DecodeTexture (format : TexFormat) (width height mips : UInt32) (data : Nat → UInt8)
    (size : Nat) : Decoded UInt8 :=
  let w := width.toNat
  let h := height.toNat
  let m := mips.toNat
  let needed := TextureDataSize format w h m
  let texels := MippedTexels w h m
  if needed = 0 ∨ size < needed ∨ IsPaletted format then .none
  else match format with
    | .I4 => Bytes (.ofPen texels (DecodeTiled DecodeI4 data w h m))
    | .I8 | .Z8 => Bytes (.ofPen texels (DecodeTiled DecodeI8 data w h m))
    | .IA4 => Bytes (.ofPen texels (DecodeTiled DecodeIA4 data w h m))
    | .IA8 | .Z16 => Bytes (.ofPen texels (DecodeTiled DecodeIA8 data w h m))
    | .RGB565 => Bytes (.ofPen texels (DecodeTiled DecodeRGB565 data w h m))
    | .RGB5A3 => Bytes (.ofPen texels (DecodeTiled DecodeRGB5A3 data w h m))
    | .RGBA8 | .Z24X8 => Bytes (.ofChannels texels (DecodeRGBA8 data w h m))
    | .CMPR => Bytes (.ofPen texels (DecodeCMPR data w h m))
    | _ => .none

end DolTranslator.Gx
