import DolTranslator.Gx.Views
import DolTranslator.Streams.Loop

/-!
# The command stream

The bytes of the FIFO and of display lists, run against a state.  Guest memory is read through an
accessor that may not have the bytes.  Scratch buffers are left out.

* `Processor`   the CP registers, the state, the cache of vertex formats, and a trace of the
  callbacks: the draws, and the hook before a change, each with the state it saw;
* `LoadCP`, `LoadIndexed`, `RunDraw`   the commands with a body of their own;
* `command`   one command; `Run`   a stream, up to the first command that is not there whole.
-/

namespace DolTranslator.Gx

open Function Streams

/-- guest memory: `size` bytes at an address, or none -/
abbrev Memory := BitVec 32 → BitVec 32 → Option (Nat → Byte)

/-! ## vertex formats -/

def VaPos : Nat := 9
def VaCount : Nat := 21

structure AttrFormat where
  count : Nat
  type : Nat
  frac : Nat
  deriving DecidableEq

structure VertexFormat where
  present : Nat → Bool
  format : Nat → AttrFormat

def CompSize (type : Nat) : Nat := [1, 1, 2, 2, 4].getD type 0

def ColorSize (type : Nat) : Nat := [2, 3, 4, 2, 3, 4].getD type 0

def Components (attr count : Nat) : Nat :=
  if attr = 9 then (if count ≠ 0 then 3 else 2)
  else if attr = 10 then (if count ≠ 0 then 9 else 3)
  else if count ≠ 0 then 2 else 1

/-- the bytes of an attribute in a record, 0 when its format is invalid -/
def PackedAttrSize (attr : Nat) (f : AttrFormat) : Nat :=
  if attr ≤ 8 then 1
  else if attr = 11 ∨ attr = 12 then ColorSize f.type
  else Components attr f.count * CompSize f.type

/-! ## the processor -/

structure Draw where
  primitive : Nat
  table : Nat
  count : Nat
  format : VertexFormat
  records : List Byte

inductive Event where
  | change (cause : Nat) (state : State)
  | draw (draw : Draw) (state : State)

structure Processor where
  state : State
  vcdLo : BitVec 32
  vcdHi : BitVec 32
  vcdSet : Bool
  vatA : Nat → BitVec 32
  vatB : Nat → BitVec 32
  vatC : Nat → BitVec 32
  arrayBase : Nat → BitVec 32
  arrayStride : Nat → BitVec 32
  /-- the format of a table, until the descriptor or a table changes -/
  formats : Nat → VertexFormat
  formatValid : Nat → Bool
  changeCause : Nat
  /-- newest first -/
  trace : List Event

/-- a processor over a state, before any command -/
def Processor.start (s : State) : Processor where
  state := s
  vcdLo := 0
  vcdHi := 0
  vcdSet := false
  vatA _ := 0
  vatB _ := 0
  vatC _ := 0
  arrayBase _ := 0
  arrayStride _ := 0
  formats _ := { present := fun _ => false, format := fun _ => ⟨1, 0, 0⟩ }
  formatValid _ := false
  changeCause := 0
  trace := []

def be16 (data : List Byte) : Nat := (data.getD 0 0).toNat * 256 + (data.getD 1 0).toNat

def be32 (data : List Byte) : BitVec 32 :=
  BitVec.ofNat 32 ((data.getD 0 0).toNat * 2 ^ 24 + (data.getD 1 0).toNat * 2 ^ 16 +
    (data.getD 2 0).toNat * 2 ^ 8 + (data.getD 3 0).toNat)

def be32s (data : List Byte) (count : Nat) : List (BitVec 32) :=
  (List.range count).map fun i => be32 (data.drop (4 * i))

def bytesOf (window : Nat → Byte) (offset size : Nat) : List Byte :=
  (List.range size).map fun k => window (offset + k)

def kMaxDepth : Nat := 4

namespace Processor

/-- GX_NONE, DIRECT, INDEX8 or INDEX16 -/
def AttrType (p : Processor) (attr : Nat) : Nat :=
  if attr = 0 then bits p.vcdLo 1 0
  else if attr ≤ 8 then bits p.vcdLo 1 attr
  else if attr ≤ 12 then bits p.vcdLo 2 (9 + (attr - VaPos) * 2)
  else bits p.vcdHi 2 ((attr - 13) * 2)

def Format (p : Processor) (table attr : Nat) : AttrFormat :=
  let a := p.vatA (table % 8)
  let b := p.vatB (table % 8)
  let c := p.vatC (table % 8)
  if attr = 9 then ⟨bits a 1 0, bits a 3 1, bits a 5 4⟩
  else if attr = 10 then ⟨bits a 1 9, bits a 3 10, 0⟩
  else if attr = 11 then ⟨bits a 1 13, bits a 3 14, 0⟩
  else if attr = 12 then ⟨bits a 1 17, bits a 3 18, 0⟩
  else if attr = 13 then ⟨bits a 1 21, bits a 3 22, bits a 5 25⟩
  else if attr = 14 then ⟨bits b 1 0, bits b 3 1, bits b 5 4⟩
  else if attr = 15 then ⟨bits b 1 9, bits b 3 10, bits b 5 13⟩
  else if attr = 16 then ⟨bits b 1 18, bits b 3 19, bits b 5 22⟩
  else if attr = 17 then ⟨bits b 1 27, bits b 3 28, bits c 5 0⟩
  else if attr = 18 then ⟨bits c 1 5, bits c 3 6, bits c 5 9⟩
  else if attr = 19 then ⟨bits c 1 14, bits c 3 15, bits c 5 18⟩
  else if attr = 20 then ⟨bits c 1 23, bits c 3 24, bits c 5 27⟩
  else ⟨1, 0, 0⟩

def computeFormat (p : Processor) (table : Nat) : VertexFormat :=
  { present := fun attr => decide (attr < VaCount ∧ p.AttrType attr ≠ 0)
    format := fun attr => if attr < VaCount then p.Format table attr else ⟨1, 0, 0⟩ }

/-- the format, and the processor with the format in its cache -/
def DirectFormat (p : Processor) (table : Nat) : Processor × VertexFormat :=
  if p.formatValid (table % 8) then (p, p.formats (table % 8))
  else
    let format := p.computeFormat (table % 8)
    ({ p with
        formats := update p.formats (table % 8) format
        formatValid := update p.formatValid (table % 8) true }, format)

/-! ## loads -/

def BeforeChange (p : Processor) (cause : Nat) : Processor :=
  { p with changeCause := cause, trace := .change cause p.state :: p.trace }

def setDescriptor (p : Processor) : Processor :=
  { p with
    state := (List.range VaCount).foldl (fun (s : State) attr => s.setVtxDesc attr (p.AttrType attr))
      p.state.clearVtxDesc }

def LoadCP (p : Processor) (reg : Nat) (value : BitVec 32) : Processor :=
  -- the same descriptor again changes nothing a draw reads
  if (reg = 0x50 ∧ value = p.vcdLo ∧ p.vcdSet) ∨ (reg = 0x60 ∧ value = p.vcdHi ∧ p.vcdSet) then p
  else if reg = 0x50 then
    (({ p with vcdLo := value, formatValid := fun _ => false, vcdSet := true }).BeforeChange
      (3 <<< 16 ||| reg)).setDescriptor
  else if reg = 0x60 then
    (({ p with vcdHi := value, formatValid := fun _ => false, vcdSet := true }).BeforeChange
      (3 <<< 16 ||| reg)).setDescriptor
  else if 0x70 ≤ reg ∧ reg < 0x78 then
    { p with vatA := update p.vatA (reg - 0x70) value, formatValid := fun _ => false }
  else if 0x80 ≤ reg ∧ reg < 0x88 then
    { p with vatB := update p.vatB (reg - 0x80) value, formatValid := fun _ => false }
  else if 0x90 ≤ reg ∧ reg < 0x98 then
    { p with vatC := update p.vatC (reg - 0x90) value, formatValid := fun _ => false }
  else if 0xA0 ≤ reg ∧ reg < 0xB0 then
    { p with arrayBase := update p.arrayBase (reg - 0xA0) (value &&& 0x3FFFFFFF) }
  else if 0xB0 ≤ reg ∧ reg < 0xC0 then
    { p with arrayStride := update p.arrayStride (reg - 0xB0) (value &&& 0xFF) }
  else p

/-- a BP word, unless it changes nothing -/
def loadBP (p : Processor) (value : BitVec 32) : Processor :=
  if p.state.bpUnchanged value then p
  else
    let p := p.BeforeChange (1 <<< 16 ||| bits value 8 24)
    { p with state := p.state.applyBP value }

/-- XF words, unless they change nothing -/
def loadXF (p : Processor) (cause : Nat) (address : BitVec 32) (words : List (BitVec 32)) : Processor :=
  if p.state.xfUnchanged address words then p
  else
    let p := p.BeforeChange cause
    { p with state := p.state.applyXF address words }

/-- XF words from an array: matrices, normal matrices, texture matrices or lights -/
def LoadIndexed (p : Processor) (memory : Memory) (cmd : Nat) (value : BitVec 32) : Processor :=
  let array := 12 + (cmd - 0x20) / 8
  let index := bits value 16 16
  let count := bits value 4 12 + 1
  let address := BitVec.ofNat 32 (bits value 12 0)
  match memory (p.arrayBase array + BitVec.ofNat 32 index * p.arrayStride array)
      (BitVec.ofNat 32 (count * 4)) with
  | none => p
  | some src => p.loadXF (4 <<< 16 ||| array) address (be32s (bytesOf src 0 (count * 4)) count)

/-! ## draws -/

/-- an attribute of a draw: its type, its direct size, its offset in a stream record -/
structure Attr where
  attr : Nat
  type : Nat
  size : Nat
  offset : Nat

structure Layout where
  attrs : List Attr := []
  streamSize : Nat := 0
  directSize : Nat := 0
  indexed : Bool := false

/-- the attributes in record order; none when a format is invalid -/
def layoutFrom (p : Processor) (format : VertexFormat) : List Nat → Layout → Option Layout
  | [], l => some l
  | attr :: rest, l =>
    let type := p.AttrType attr
    if type = 0 then layoutFrom p format rest l
    else
      let size := PackedAttrSize attr (format.format attr)
      if size = 0 then none
      else layoutFrom p format rest
        { attrs := l.attrs ++ [⟨attr, type, size, l.streamSize⟩]
          streamSize := l.streamSize + if type = 1 then size else if type = 2 then 1 else 2
          directSize := l.directSize + size
          indexed := l.indexed || decide (type ≠ 1) }

def indexAt (a : Attr) (record : List Byte) : Nat :=
  if a.type = 2 then (record.getD a.offset 0).toNat else be16 (record.drop a.offset)

/-- an indexed array as one window up to the highest index that the draw reads -/
def arrayWindow (memory : Memory) (p : Processor) (a : Attr) (records : List (List Byte)) :
    Option (Nat → Byte) :=
  if a.type = 1 then none
  else
    let highest := records.foldl (fun h record => max h (indexAt a record)) 0
    memory (p.arrayBase (a.attr - VaPos))
      (BitVec.ofNat 32 highest * p.arrayStride (a.attr - VaPos) + BitVec.ofNat 32 a.size)

/-- one attribute of one vertex; an array that is not all there falls back to a lookup -/
def attrBytes (memory : Memory) (p : Processor) (a : Attr) (window : Option (Nat → Byte))
    (record : List Byte) : List Byte :=
  if a.type = 1 then (record.drop a.offset).take a.size
  else
    let offset := BitVec.ofNat 32 (indexAt a record) * p.arrayStride (a.attr - VaPos)
    match window with
    | some w => bytesOf w offset.toNat a.size
    | none =>
      match memory (p.arrayBase (a.attr - VaPos) + offset) (BitVec.ofNat 32 a.size) with
      | some src => bytesOf src 0 a.size
      | none => List.replicate a.size 0

def expand (memory : Memory) (p : Processor) (l : Layout) (count : Nat) (body : List Byte) :
    List Byte :=
  let records := (List.range count).map fun v => (body.drop (v * l.streamSize)).take l.streamSize
  let attrs := l.attrs.map fun a => (a, arrayWindow memory p a records)
  records.flatMap fun record => attrs.flatMap fun (a, window) => attrBytes memory p a window record

/-- the draw after its count is known, from the bytes of its records on -/
def drawRecords (memory : Memory) (p : Processor) (cmd count : Nat) (format : VertexFormat)
    (data : List Byte) : Option (Processor × List Byte) :=
  (p.layoutFrom format (List.range VaCount) {}).bind fun l =>
    if l.directSize = 0 ∧ count ≠ 0 then none
    else if data.length < l.streamSize * count then none
    else
      let body := data.take (l.streamSize * count)
      let draw : Draw :=
        { primitive := cmd / 8 * 8
          table := cmd % 8
          count := count
          format := format
          records := if l.indexed then expand memory p l count body else body }
      some ({ p with trace := .draw draw p.state :: p.trace }, data.drop (l.streamSize * count))

/-- the bytes after the draw, or none when it cannot run -/
def RunDraw (memory : Memory) (cmd : Nat) (p : Processor) (data : List Byte) :
    Processor × Option (List Byte) :=
  if data.length < 2 then (p, none)
  else
    let r := p.DirectFormat (cmd % 8)
    match drawRecords memory r.1 cmd (be16 data) r.2 (data.drop 2) with
    | none => (r.1, none)
    | some (p, rest) => (p, some rest)

/-! ## the stream -/

def callList (p : Processor) (memory : Memory) (call : Processor → List Byte → Processor)
    (address bytes : BitVec 32) : Processor :=
  match memory address bytes with
  | none => p
  | some list => call p (bytesOf list 0 bytes.toNat)

/-- XF words from the stream, after their header -/
def loadXFWords (p : Processor) (header : BitVec 32) (data : List Byte) :
    Processor × Option (List Byte) :=
  let count := bits header 16 16 + 1
  if data.length < count * 4 then (p, none)
  else
    (p.loadXF (2 <<< 16 ||| bits header 16 0) (header &&& 0xFFFF) (be32s data count),
      some (data.drop (count * 4)))

/-- a command after its first byte: the bytes after it, or none when it is unknown or runs past the
end -/
def commandBody (memory : Memory) (call : Processor → List Byte → Processor) (cmd : Nat)
    (p : Processor) (data : List Byte) : Processor × Option (List Byte) :=
  if 0x80 ≤ cmd ∧ cmd ≤ 0xBF then RunDraw memory cmd p data
  else if cmd = 0x00 ∨ cmd = 0x48 then (p, some data)
  else if cmd = 0x08 then
    if data.length < 5 then (p, none)
    else (p.LoadCP (data.getD 0 0).toNat (be32 (data.drop 1)), some (data.drop 5))
  else if cmd = 0x10 then
    if data.length < 4 then (p, none)
    else p.loadXFWords (be32 data) (data.drop 4)
  else if cmd = 0x20 ∨ cmd = 0x28 ∨ cmd = 0x30 ∨ cmd = 0x38 then
    if data.length < 4 then (p, none)
    else (p.LoadIndexed memory cmd (be32 data), some (data.drop 4))
  else if cmd = 0x40 then
    if data.length < 8 then (p, none)
    else (p.callList memory call (be32 data &&& 0x3FFFFFFF) (be32 (data.drop 4)), some (data.drop 8))
  else if cmd = 0x61 then
    if data.length < 4 then (p, none)
    else (p.loadBP (be32 data), some (data.drop 4))
  else (p, none)

def command (memory : Memory) (call : Processor → List Byte → Processor) (p : Processor) :
    List Byte → Processor × Option (List Byte)
  | [] => (p, none)
  | byte :: data => commandBody memory call byte.toNat p data

/-- with so many levels of display lists left to call; a command takes at least one byte -/
def runLevels (memory : Memory) : Nat → Processor → List Byte → Processor × List Byte
  | 0, p, data => loop (command memory fun p _ => p) data.length p data
  | levels + 1, p, data =>
    loop (command memory fun p list => (runLevels memory levels p list).1) data.length p data

def Run (memory : Memory) (depth : Nat) (p : Processor) (data : List Byte) : Processor × Nat :=
  let r := runLevels memory (kMaxDepth - depth) p data
  (r.1, data.length - r.2.length)

end Processor

end DolTranslator.Gx
