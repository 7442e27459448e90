import Mathlib
import DolTranslator.Streams.Checked
import DolTranslator.Streams.Writes

/-!
# Frames of a movie

The decoder of one frame: its headers, its tables, and its blocks. What it reads of the buffer, of
its tables, and by how much it shifts, is checked.

* `Byte`, `Word`  what is left of the buffer, and zeros after its end;
* `ReadHuffmanTables`, `ReadQuantTables`, `ReadFrameHeader`, `ReadScanHeader`, `ParseHeaders`;
* `Reader`   bits, high ones first, out of whole bytes; `DecodeHuffman`, `DecodeBlock`;
* `Decode`   the blocks in the order of the scan, and where each is stored.
-/

namespace DolTranslator.Thp

open Streams

def kThpOk : Nat := 0
def kThpBadSyntax : Nat := 3
def kThpBadPrecision : Nat := 10
def kThpUnsupportedMarker : Nat := 11
def kThpBadComponents : Nat := 12
def kThpMissingHuffman : Nat := 15
def kThpBadSampling : Nat := 19

def kNaturalOrder : List Nat :=
  [0, 1, 8, 16, 9, 2, 3, 10, 17, 24, 32, 25, 18, 11, 4, 5, 12, 19, 26, 33, 40, 48, 41, 34, 27, 20,
    13, 6, 7, 14, 21, 28, 35, 42, 49, 56, 57, 50, 43, 36, 29, 22, 15, 23, 30, 37, 44, 51, 58, 59, 52,
    45, 38, 31, 39, 46, 53, 60, 61, 54, 47, 55, 62, 63]

/-- codes of so many bits are looked up at once -/
def kLookupBits : Nat := 9

structure HuffmanTable where
  valid : Bool
  /-- by the next nine bits: the length of the code there, and its value; zero for a longer one -/
  lookup : Nat → Nat
  /-- the largest code of each length, -1 if there is none -/
  maxCode : Nat → Int
  valPtr : Nat → Nat
  minCode : Nat → Nat
  vals : Nat → UInt8

structure Component where
  quant : Nat
  dcTable : Nat
  acTable : Nat
  predDC : Int

/-- what is left of the buffer, and the bits that were taken of it already -/
structure Reader where
  p : List UInt8
  bitBuffer : Nat
  bitCount : Nat

structure Decoder extends Reader where
  width : UInt16
  height : UInt16
  restartInterval : UInt16
  comp : Nat → Component
  /-- as they are in the file -/
  quant : Nat → Nat → UInt8
  huff : Nat → HuffmanTable

def HuffmanTable.none : HuffmanTable := ⟨false, fun _ => 0, fun _ => 0, fun _ => 0, fun _ => 0, fun _ => 0⟩

def Decoder.start (data : List UInt8) : Decoder where
  p := data
  bitBuffer := 0
  bitCount := 0
  width := 0
  height := 0
  restartInterval := 0
  comp := fun _ => ⟨0, 0, 0, 0⟩
  quant := fun _ _ => 0
  huff := fun _ => HuffmanTable.none

def Byte : List UInt8 → UInt8 × List UInt8
  | [] => (0, [])
  | b :: p => (b, p)

def Word (p : List UInt8) : UInt16 × List UInt8 :=
  ((Byte p).1.toUInt16 <<< 8 ||| (Byte (Byte p).2).1.toUInt16, (Byte (Byte p).2).2)

/-- so many bytes, one after the other -/
def takeBytes : Nat → List UInt8 → List UInt8 × List UInt8
  | 0, p => ([], p)
  | n + 1, p => ((Byte p).1 :: (takeBytes n (Byte p).2).1, (takeBytes n (Byte p).2).2)

/-! ## tables -/

/-- from a length on: the next code, and the place of its value -/
def assignCodes (counts : Nat → Nat) : Nat → Nat → Nat → Nat → HuffmanTable → HuffmanTable
  | 0, _, _, _, table => table
  | n + 1, len, code, index, table =>
    assignCodes counts n (len + 1) (2 * (code + counts len)) (index + counts len)
      { table with
        valPtr := Function.update table.valPtr len index
        minCode := Function.update table.minCode len code
        maxCode := Function.update table.maxCode len
          (if counts len ≠ 0 then (code + counts len : Int) - 1 else -1) }

def codesOfLength (table : HuffmanTable) (len : Nat) : List Nat :=
  (List.range (table.maxCode len + 1 - table.minCode len).toNat).map (table.minCode len + ·)

def fillCode (table : HuffmanTable) (len c : Nat) : List (Nat × Nat) :=
  let index := table.valPtr len + c - table.minCode len
  if index ≥ 256 then []
  else
    (List.range (2 ^ (kLookupBits - len))).map fun fill =>
      (c * 2 ^ (kLookupBits - len) + fill, len * 256 + (table.vals index).toNat)

def lookupWrites (table : HuffmanTable) : List (Nat × Nat) :=
  (List.range kLookupBits).flatMap fun i =>
    (codesOfLength table (i + 1)).flatMap (fillCode table (i + 1))

def fillLookup (table : HuffmanTable) : Checked HuffmanTable :=
  if ∀ write ∈ lookupWrites table, write.1 < 2 ^ kLookupBits then
    .ok { table with lookup := applyWrites (lookupWrites table) fun _ => 0, valid := true }
  else .error .outside

/-- one table of a segment: where it goes, how many codes there are of each length, and the values -/
structure Definition where
  spec : UInt8
  lengths : List UInt8
  symbols : List UInt8
  deriving DecidableEq

namespace Definition

def slot (d : Definition) : Nat := d.spec.toNat % 4 * 2 + d.spec.toNat / 16 % 2

def counts (d : Definition) (len : Nat) : Nat := (d.lengths.getD (len - 1) 0).toNat

def total (d : Definition) : Nat := min ((d.lengths.map UInt8.toNat).sum) 256

end Definition

def readDefinition (p : List UInt8) : Definition × List UInt8 :=
  let (spec, p) := Byte p
  let (lengths, p) := takeBytes 16 p
  let (symbols, p) := takeBytes (min ((lengths.map UInt8.toNat).sum) 256) p
  (⟨spec, lengths, symbols⟩, p)

def defineTable (table : HuffmanTable) (d : Definition) : Checked HuffmanTable := do
  within 256 0 d.total
  let table := { table with
    vals := fun i => if i < d.total then d.symbols.getD i 0 else table.vals i }
  let table := assignCodes d.counts 16 1 0 0 table
  fillLookup { table with maxCode := Function.update table.maxCode 17 0x7FFFFFFF }

def huffmanLoop : Nat → Int → List UInt8 → (Nat → HuffmanTable) →
    Checked (List UInt8 × (Nat → HuffmanTable))
  | 0, _, _, _ => .error .unfinished
  | fuel + 1, length, p, huff =>
    if length > 0 ∧ p ≠ [] then do
      let (d, p) := readDefinition p
      let table ← defineTable (huff d.slot) d
      huffmanLoop fuel (length - (17 + d.total)) p (Function.update huff d.slot table)
    else .ok (p, huff)

def ReadHuffmanTables (d : Decoder) : Checked Decoder := do
  let (length, p) := Word d.p
  let (p, huff) ← huffmanLoop (p.length + 1) (length.toNat - 2) p d.huff
  .ok { d with p := p, huff := huff }

def readNatural : List Nat → List UInt8 → (Nat → UInt8) → Checked (List UInt8 × (Nat → UInt8))
  | [], p, natural => .ok (p, natural)
  | i :: is, p, natural => do
    within kNaturalOrder.length i 1
    within 64 (kNaturalOrder.getD i 0) 1
    readNatural is (Byte p).2 (Function.update natural (kNaturalOrder.getD i 0) (Byte p).1)

def quantLoop : Nat → Int → List UInt8 → (Nat → Nat → UInt8) →
    Checked (List UInt8 × (Nat → Nat → UInt8))
  | 0, _, _, _ => .error .unfinished
  | fuel + 1, length, p, quant =>
    if length > 0 ∧ p ≠ [] then do
      let (id, p) := Byte p
      let (p, natural) ← readNatural (List.range 64) p fun _ => 0
      quantLoop fuel (length - 65) p (Function.update quant (id.toNat % 4) natural)
    else .ok (p, quant)

def ReadQuantTables (d : Decoder) : Checked Decoder := do
  let (length, p) := Word d.p
  let (p, quant) ← quantLoop (p.length + 1) (length.toNat - 2) p d.quant
  .ok { d with p := p, quant := quant }

/-! ## headers -/

def readComponents : List Nat → Decoder → Nat × Decoder
  | [], d => (kThpOk, d)
  | i :: is, d =>
    let (sampling, p) := Byte (Byte d.p).2
    if i = 0 ∧ sampling ≠ 0x22 ∨ i > 0 ∧ sampling ≠ 0x11 then (kThpBadSampling, { d with p := p })
    else
      let (quant, p) := Byte p
      readComponents is { d with
        p := p
        comp := Function.update d.comp i { d.comp i with quant := quant.toNat % 4 } }

def ReadFrameHeader (d : Decoder) : Nat × Decoder :=
  let (precision, p) := Byte (Word d.p).2
  if precision ≠ 8 then (kThpBadPrecision, { d with p := p })
  else
    let (height, p) := Word p
    let (width, p) := Word p
    let (components, p) := Byte p
    let d := { d with p := p, height := height, width := width }
    if components ≠ 3 then (kThpBadComponents, d) else readComponents [0, 1, 2] d

def readSelectors : List Nat → Decoder → Nat × Decoder
  | [], d => (kThpOk, { d with p := (takeBytes 3 d.p).2 })
  | i :: is, d =>
    let (tables, p) := Byte (Byte d.p).2
    let dcTable := tables.toNat / 16 % 4
    let acTable := tables.toNat % 4
    let comp := { d.comp i with dcTable := dcTable, acTable := acTable }
    if !(d.huff (dcTable * 2)).valid || !(d.huff (acTable * 2 + 1)).valid then
      (kThpMissingHuffman, { d with p := p, comp := Function.update d.comp i comp })
    else
      readSelectors is
        { d with p := p, comp := Function.update d.comp i { comp with predDC := 0 } }

def ReadScanHeader (d : Decoder) : Nat × Decoder :=
  let (components, p) := Byte (Word d.p).2
  if components ≠ 3 then (kThpBadComponents, { d with p := p })
  else readSelectors [0, 1, 2] { d with p := p }

def skipped (marker : UInt8) : Bool := decide (marker ≥ 0xE0 ∧ marker ≤ 0xEF) || decide (marker = 0xFE)

/-- what a marker starts: the status to return, if any, and the state after it -/
def readMarker (marker : UInt8) (d : Decoder) : Checked (Option Nat × Decoder) :=
  if marker = 0xC4 then do
    let d ← ReadHuffmanTables d
    .ok (none, d)
  else if marker = 0xC0 then
    let (status, d) := ReadFrameHeader d
    .ok (if status ≠ kThpOk then some status else none, d)
  else if marker = 0xDB then do
    let d ← ReadQuantTables d
    .ok (none, d)
  else if marker = 0xDD then
    let (interval, p) := Word (Word d.p).2
    .ok (none, { d with p := p, restartInterval := interval })
  else if marker = 0xD8 then .ok (none, d)
  else if marker = 0xDA then
    let (status, d) := ReadScanHeader d
    .ok (some status, d)
  else if skipped marker then do
    -- the size is read without a look at what is left
    within d.p.length 0 2
    .ok (none, { d with p := d.p.drop (Word d.p).1.toNat })
  else .ok (some kThpUnsupportedMarker, d)

def parseLoop : Nat → Decoder → Checked (Nat × Decoder)
  | 0, _ => .error .unfinished
  | fuel + 1, d =>
    match d.p with
    | [] => .ok (kThpBadSyntax, d)
    | first :: p =>
      if first ≠ 0xFF then .ok (kThpBadSyntax, { d with p := p })
      else do
        let (marker, p) := Byte (p.dropWhile (· = 0xFF))
        match ← readMarker marker { d with p := p } with
        | (some status, d) => .ok (status, d)
        | (none, d) => parseLoop fuel d

def ParseHeaders (data : List UInt8) : Checked (Nat × Decoder) :=
  parseLoop (data.length + 1) (Decoder.start data)

/-! ## bits -/

namespace Reader

def feed (r : Reader) : Reader where
  p := (Byte r.p).2
  bitBuffer := (r.bitBuffer * 256 + (Byte r.p).1.toNat) % 2 ^ 64
  bitCount := r.bitCount + 8

def fillLoop : Nat → Nat → Reader → Reader
  | 0, _, r => r
  | fuel + 1, bits, r => if r.bitCount < bits then fillLoop fuel bits r.feed else r

/-- a byte at a time, until there are so many bits -/
def Fill (bits : Nat) (r : Reader) : Reader := fillLoop bits bits r

def Peek (bits : Nat) (r : Reader) : Checked Nat := do
  within 32 bits 1
  within 32 (r.bitCount - bits) 1
  .ok (r.bitBuffer / 2 ^ (r.bitCount - bits) % 2 ^ bits)

def dropped (r : Reader) (bits : Nat) : Reader := { r with bitCount := r.bitCount - bits }

def drop (r : Reader) (bits : Nat) : Checked Reader := do
  within r.bitCount 0 bits
  .ok (r.dropped bits)

def Bits (n : Nat) (r : Reader) : Checked (Nat × Reader) :=
  if n = 0 then .ok (0, r)
  else do
    let r := r.Fill n
    let value ← r.Peek n
    let r ← r.drop n
    .ok (value, r)

def AlignToByte (r : Reader) : Reader := r.dropped (r.bitCount % 8)

end Reader

def Extend (value bits : Nat) : Checked Int := do
  within 32 (bits - 1) 1
  within 32 bits 1
  .ok (if value < 2 ^ (bits - 1) then (value : Int) - 2 ^ bits + 1 else value)

/-- the first length, of so many, whose largest code is not less than the bits there -/
def walkLengths (table : HuffmanTable) (window : Nat) : Nat → Nat → Option Nat
  | 0, _ => none
  | n + 1, len =>
    if (window / 2 ^ (16 - len) : Nat) ≤ table.maxCode len then some len
    else walkLengths table window n (len + 1)

def valueAt (table : HuffmanTable) (window len : Nat) : Checked Nat :=
  let index : Int := table.valPtr len + (window / 2 ^ (16 - len) : Nat) - table.minCode len
  if 0 ≤ index ∧ index < 256 then do
    within 256 index.toNat 1
    .ok (table.vals index.toNat).toNat
  else .ok 0

def DecodeHuffman (table : HuffmanTable) (r : Reader) : Checked (Nat × Reader) := do
  let r := r.Fill kLookupBits
  let bits ← r.Peek kLookupBits
  within (2 ^ kLookupBits) bits 1
  let entry := table.lookup bits
  if entry ≠ 0 then do
    let r ← r.drop (entry / 256)
    .ok (entry % 256, r)
  else do
    let r := r.Fill 16
    let window ← r.Peek 16
    match walkLengths table window 7 (kLookupBits + 1) with
    | none => do
      let r ← r.drop 16
      .ok (0, r)
    | some len => do
      let r ← r.drop len
      let value ← valueAt table window len
      .ok (value, r)

/-! ## blocks -/

/-- the coefficients from a place on; whether there was one -/
def acLoop (table : HuffmanTable) : Nat → Nat → (Nat → Int) → Bool → Reader →
    Checked (Bool × (Nat → Int) × Reader)
  | 0, _, _, _, _ => .error .unfinished
  | fuel + 1, k, out, anyAc, r =>
    if k ≥ 64 then .ok (anyAc, out, r)
    else do
      let (rs, r) ← DecodeHuffman table r
      let run := rs / 16
      let size := rs % 16
      if size = 0 then
        if run ≠ 15 then .ok (anyAc, out, r) else acLoop table fuel (k + 16) out anyAc r
      else if k + run > 63 then .ok (anyAc, out, r)
      else do
        within kNaturalOrder.length (k + run) 1
        within 64 (kNaturalOrder.getD (k + run) 0) 1
        let (value, r) ← r.Bits size
        let coefficient ← Extend value size
        acLoop table fuel (k + run + 1)
          (Function.update out (kNaturalOrder.getD (k + run) 0) coefficient) true r

/-- a difference of so many bits -/
def decodeDifference (dcBits : Nat) (r : Reader) : Checked (Int × Reader) :=
  if dcBits ≠ 0 then do
    let (value, r) ← r.Bits dcBits
    let diff ← Extend value dcBits
    .ok (diff, r)
  else .ok (0, r)

/-- a block of a component: whether it has more than its first coefficient, and all of them -/
def DecodeBlock (d : Decoder) (c : Nat) : Checked (Bool × (Nat → Int) × Decoder) := do
  let comp := d.comp c
  let (dcBits, r) ← DecodeHuffman (d.huff (comp.dcTable * 2)) d.toReader
  let (diff, r) ← decodeDifference dcBits r
  let comp := { comp with predDC := comp.predDC + diff }
  let (anyAc, out, r) ← acLoop (d.huff (comp.acTable * 2 + 1)) 64 1
    (Function.update (fun _ => 0) 0 comp.predDC) false r
  .ok (anyAc, out, { d with toReader := r, comp := Function.update d.comp c comp })

/-- a block that was decoded: its component, whether it is not flat, and where it goes -/
structure Block where
  component : Nat
  anyAc : Bool
  x : Nat
  y : Nat
  deriving DecidableEq

def mcuBlocks (x y : Nat) : List (Nat × Nat × Nat) :=
  [(0, x, y), (0, x + 8, y), (0, x, y + 8), (0, x + 8, y + 8), (1, x / 2, y / 2), (2, x / 2, y / 2)]

def mcusPerRow (width : UInt16) : Nat := (width.toNat + 15) / 16

def mcuRows (height : UInt16) : Nat := (height.toNat + 15) / 16

def mcuPlaces (width height : UInt16) : List (Nat × Nat) :=
  (List.range (mcuRows height)).flatMap fun mcuY =>
    (List.range (mcusPerRow width)).map fun mcuX => (mcuX * 16, mcuY * 16)

def decodeBlocks : List (Nat × Nat × Nat) → Decoder → Checked (List Block × Decoder)
  | [], d => .ok ([], d)
  | (c, x, y) :: rest, d => do
    let (anyAc, _, d) ← DecodeBlock d c
    let (blocks, d) ← decodeBlocks rest d
    .ok (⟨c, anyAc, x, y⟩ :: blocks, d)

/-- at a restart the bits are on a byte again, and the predictions start over -/
def restart (d : Decoder) : Decoder where
  toReader := d.toReader.AlignToByte
  width := d.width
  height := d.height
  restartInterval := d.restartInterval
  comp := fun c => { d.comp c with predDC := 0 }
  quant := d.quant
  huff := d.huff

def decodeMcus : List (Nat × Nat) → Nat → Decoder → Checked (List Block × Decoder)
  | [], _, d => .ok ([], d)
  | (x, y) :: rest, untilRestart, d => do
    let (blocks, d) ← decodeBlocks (mcuBlocks x y) d
    let (untilRestart, d) :=
      if d.restartInterval ≠ 0 then
        if untilRestart - 1 = 0 then (d.restartInterval.toNat, restart d) else (untilRestart - 1, d)
      else (untilRestart, d)
    let (blocks', d) ← decodeMcus rest untilRestart d
    .ok (blocks ++ blocks', d)

def Decode (d : Decoder) : Checked (List Block × Decoder) :=
  decodeMcus (mcuPlaces d.width d.height) d.restartInterval.toNat d

/-! ## where a block is stored -/

end DolTranslator.Thp
