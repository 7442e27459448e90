import DolTranslator.Disc.Source
import DolTranslator.Streams.Patch

/-!
# SYSCONF, the settings of the console

An offset for each item, and at the offset the item: type and length of its name in a byte, the
name, the value.  An array has its length before it; any other value is as wide as its type says.

* `Parse`, `Build`   the file;
* `Find`, `Number`, `Boolean`   what a name has;
* `SetNumber`, `SetBoolean`   the first item of a name, or a new one.
-/

namespace DolTranslator.Nand

open Disc Streams

/-! ## items -/

inductive SysconfType where
  /-- the number of no type, which a file can have -/
  | unknown
  | bigArray | smallArray | byte | short | long | longLong | bool
  deriving DecidableEq

def SysconfType.number : SysconfType → Nat
  | .unknown => 0
  | .bigArray => 1
  | .smallArray => 2
  | .byte => 3
  | .short => 4
  | .long => 5
  | .longLong => 6
  | .bool => 7

/-- from the high bits of a byte -/
def SysconfType.ofNumber : Nat → SysconfType
  | 1 => .bigArray
  | 2 => .smallArray
  | 3 => .byte
  | 4 => .short
  | 5 => .long
  | 6 => .longLong
  | 7 => .bool
  | _ => .unknown

def FixedWidth : SysconfType → Nat
  | .byte | .bool => 1
  | .short => 2
  | .long => 4
  | .longLong => 8
  | _ => 0

structure SysconfItem where
  name : List UInt8
  type : SysconfType
  data : List UInt8
  deriving DecidableEq

def NumberBytes (value width : Nat) : List UInt8 :=
  (List.range width).map fun i => UInt8.ofNat (value >>> ((width - 1 - i) * 8))

def SysconfItem.number (item : SysconfItem) : Nat :=
  item.data.foldl (fun value byte => (value * 256 + byte.toNat) % 2 ^ 64) 0

structure Sysconf where
  items : List SysconfItem
  deriving DecidableEq

def kOffsetTable : Nat := 0x0006
def kFooterOffset : Nat := 0x3FFC

def kPayloadLimit : Nat := 0x3FAE

def kSysconfSize : Nat := 0x4000

def chars (s : String) : List UInt8 := s.toList.map fun c => UInt8.ofNat c.toNat

/-- "SCv0" -/
def sysconfMagic : List UInt8 := [0x53, 0x43, 0x76, 0x30]

/-- "SCed" -/
def sysconfFooter : List UInt8 := [0x53, 0x43, 0x65, 0x64]

namespace Sysconf

def byteItem (name : String) (value : UInt8) : SysconfItem := ⟨chars name, .byte, [value]⟩

def booleanItem (name : String) (value : Bool) : SysconfItem :=
  ⟨chars name, .bool, [UInt8.ofNat value.toNat]⟩

def Defaults : Sysconf where
  items :=
    [⟨chars "BT.SENS", .long, NumberBytes 3 4⟩,
      byteItem "BT.BAR" 1,
      byteItem "BT.SPKV" 0x58,
      booleanItem "BT.MOT" true,
      byteItem "IPL.AR" 1,
      byteItem "IPL.LNG" 1,
      booleanItem "IPL.E60" true,
      booleanItem "IPL.PGS" false,
      byteItem "IPL.SND" 1,
      byteItem "IPL.SSV" 0,
      booleanItem "IPL.EULA" true,
      booleanItem "IPL.UPT" true,
      ⟨chars "IPL.CB", .long, NumberBytes 0 4⟩,
      ⟨chars "IPL.SADR", .bigArray, List.replicate 0x1007 0⟩]

/-! ## parsing -/

/-- what an entry of the offset table leads to -/
inductive Entry where
  | stop
  | skip
  | item (item : SysconfItem)

def parseData (file name : List UInt8) (type : SysconfType) (offset length : Nat) : Entry :=
  if offset + length > file.length then .stop
  else .item ⟨name, type, slice file offset length⟩

def parseValue (file name : List UInt8) (type : SysconfType) (offset : Nat) : Entry :=
  match type with
  | .bigArray =>
    if offset + 2 > file.length then .stop
    else parseData file name type (offset + 2) (read16 file offset + 1)
  | .smallArray => parseData file name type (offset + 1) (byteAt file offset + 1)
  | type => parseData file name type offset (FixedWidth type)

def parseEntry (file : List UInt8) (index : Nat) : Entry :=
  let entry := kOffsetTable + index * 2
  if entry + 1 ≥ file.length then .stop
  else
    let offset := read16 file entry
    if offset = 0 ∨ offset ≥ file.length then .skip
    else
      let header := byteAt file offset
      let nameLength := header % 32 + 1
      if offset + 1 + nameLength > file.length then .stop
      else
        parseValue file (slice file (offset + 1) nameLength) (.ofNumber (header / 32))
          (offset + 1 + nameLength)

def parseLoop (file : List UInt8) : Nat → Nat → List SysconfItem
  | 0, _ => []
  | n + 1, index =>
    match parseEntry file index with
    | .stop => []
    | .skip => parseLoop file n (index + 1)
    | .item item => item :: parseLoop file n (index + 1)

def Parse (file : List UInt8) : Option Sysconf :=
  if file.length < kFooterOffset + 4 ∨ file.take 4 ≠ sysconfMagic then none
  else some ⟨parseLoop file (read16 file 0x0004) 0⟩

def Find (c : Sysconf) (name : List UInt8) : Option SysconfItem :=
  c.items.find? (·.name = name)

def Number (c : Sysconf) (name : List UInt8) : Option Nat :=
  match c.Find name with
  | none => none
  | some item => if FixedWidth item.type = 0 then none else some item.number

def Boolean (c : Sysconf) (name : List UInt8) (fallback : Bool) : Bool :=
  match c.Number name with
  | none => fallback
  | some value => decide (value ≠ 0)

/-- the first item of a name, or a fresh one at the end; false when it is not set -/
def setFirst (name : List UInt8) (fresh : SysconfItem) (set : SysconfItem → Option SysconfItem) :
    List SysconfItem → List SysconfItem × Bool
  | [] => ([fresh], true)
  | item :: items =>
    if item.name ≠ name then
      (item :: (setFirst name fresh set items).1, (setFirst name fresh set items).2)
    else
      match set item with
      | none => (item :: items, false)
      | some item => (item :: items, true)

def SetNumber (c : Sysconf) (name : List UInt8) (value : Nat) : Sysconf × Bool :=
  let set := setFirst name ⟨name, .long, NumberBytes value 4⟩
    (fun item =>
      if FixedWidth item.type = 0 then none
      else some { item with data := NumberBytes value (FixedWidth item.type) }) c.items
  (⟨set.1⟩, set.2)

def SetBoolean (c : Sysconf) (name : List UInt8) (value : Bool) : Sysconf × Bool :=
  let set := setFirst name ⟨name, .bool, [UInt8.ofNat value.toNat]⟩
    (fun item =>
      if item.type ≠ .bool ∧ FixedWidth item.type = 0 then none
      else some { item with data := [UInt8.ofNat value.toNat] }) c.items
  (⟨set.1⟩, set.2)

/-! ## building -/

def extra (item : SysconfItem) : Nat :=
  match item.type with
  | .bigArray => 2
  | .smallArray => 1
  | _ => 0

def itemSize (item : SysconfItem) : Nat := 1 + item.name.length + extra item + item.data.length

/-- type and length of the name; lengths are stored less one -/
def headerByte (item : SysconfItem) : UInt8 :=
  UInt8.ofNat (item.type.number * 32 + (item.name.length + 31) % 32)

def lengthBytes (item : SysconfItem) : List UInt8 :=
  match item.type with
  | .bigArray => word16 (item.data.length + 0xFFFF)
  | .smallArray => [UInt8.ofNat (item.data.length + 0xFF)]
  | _ => []

def buildItem (file : List UInt8) (cursor : Nat) (item : SysconfItem) : List UInt8 :=
  let file := patch file cursor [headerByte item]
  let file := patch file (cursor + 1) item.name
  let file := patch file (cursor + 1 + item.name.length) (lengthBytes item)
  patch file (cursor + 1 + item.name.length + extra item) item.data

def buildLoop : List SysconfItem → Nat → Nat → List UInt8 → List UInt8
  | [], _, _, file => file
  | item :: items, index, cursor, file =>
    if cursor + itemSize item > kPayloadLimit then file
    else
      buildLoop items (index + 1) (cursor + itemSize item)
        (buildItem (patch file (kOffsetTable + index * 2) (word16 cursor)) cursor item)

/-- the table ends with a zero, so it has one more slot -/
def tableEnd (c : Sysconf) : Nat := kOffsetTable + (c.items.length + 1) * 2

def Build (c : Sysconf) : List UInt8 :=
  let file := patch (List.replicate kSysconfSize 0) 0 sysconfMagic
  let file := patch file 0x0004 (word16 c.items.length)
  patch (buildLoop c.items 0 c.tableEnd file) kFooterOffset sysconfFooter

end Sysconf

end DolTranslator.Nand
