import DolTranslator.Nand.Sysconf

/-!
# Titles, packed and unpacked

* `TmdPath`, `ContentFilePath` and the others   where a console keeps the files of a title;
* `Ticket.Parse`, `Tmd.Parse`   the two signed blobs of a title;
* `Wad.Parse`   a title in one file: the blobs, and where each content is.
-/

namespace DolTranslator.Nand

open Disc Streams

abbrev Bytes := List UInt8

/-- absolute, with `/` between the names -/
abbrev Path := List UInt8

/-! ## names -/

def hexDigit (d : Nat) : UInt8 := if d < 10 then UInt8.ofNat (0x30 + d) else UInt8.ofNat (0x57 + d)

/-- `%08x` of a 32-bit value -/
def Hex8 (value : Nat) : List UInt8 :=
  (List.range 8).map fun i => hexDigit (value / 16 ^ (7 - i) % 16)

/-- `isxdigit` -/
def isHex (c : UInt8) : Bool :=
  decide (0x30 ≤ c ∧ c ≤ 0x39) || decide (0x41 ≤ c ∧ c ≤ 0x46) || decide (0x61 ≤ c ∧ c ≤ 0x66)

def HighHex (id : Nat) : List UInt8 := Hex8 (id / 2 ^ 32 % 2 ^ 32)

def LowHex (id : Nat) : List UInt8 := Hex8 (id % 2 ^ 32)

def TitlePath (id : Nat) : Path := chars "/title/" ++ HighHex id ++ chars "/" ++ LowHex id

def ContentPath (id : Nat) : Path := TitlePath id ++ chars "/content"

def TmdPath (id : Nat) : Path := ContentPath id ++ chars "/title.tmd"

def ContentFilePath (id content_id : Nat) : Path :=
  ContentPath id ++ chars "/" ++ Hex8 content_id ++ chars ".app"

def TicketPath (id : Nat) : Path :=
  chars "/ticket/" ++ HighHex id ++ chars "/" ++ LowHex id ++ chars ".tik"

/-! ## signed blobs -/

/-- by the number of its type; the signature and its padding -/
def SignatureSize (type : Nat) : Option Nat :=
  match type with
  | 0x00010000 => some (0x200 + 0x3C)
  | 0x00010001 => some (0x100 + 0x3C)
  | 0x00010002 => some (0x3C + 0x40)
  | _ => none

structure Ticket where
  issuer : List UInt8
  title_key : Bytes
  title_id : Nat
  common_key_index : Nat
  raw : Bytes
  deriving DecidableEq

def Ticket.kBodySize : Nat := 0x164

/-- up to a zero, in a field of 0x40 -/
def ReadIssuer (data : Bytes) (p : Nat) : List UInt8 := (slice data p 0x40).takeWhile (· ≠ 0)

def Ticket.Parse (data : Bytes) : Option Ticket :=
  if data.length < 4 then none
  else
    match SignatureSize (read32 data 0) with
    | none => none
    | some signature =>
      if data.length < signature + kBodySize then none
      else
        some {
          issuer := ReadIssuer data (signature + 0x00)
          title_key := slice data (signature + 0x7F) 16
          title_id := read64 data (signature + 0x9C)
          common_key_index := byteAt data (signature + 0xB1)
          raw := data.take (signature + kBodySize) }

/-- one file of a title, as the TMD lists it -/
structure ContentRecord where
  id : Nat
  index : Nat
  type : Nat
  size : Nat
  sha1 : Bytes
  deriving DecidableEq

def ContentRecord.Shared (content : ContentRecord) : Bool :=
  decide (content.type &&& 0x8000 ≠ 0) || decide (content.type = 0x4001)

def ContentRecord.EncryptedSize (content : ContentRecord) : Nat :=
  (content.size + 15) % 2 ^ 64 / 16 * 16

structure Tmd where
  title_id : Nat
  contents : List ContentRecord
  raw : Bytes
  deriving DecidableEq

namespace Tmd

def kTmdContents : Nat := 0xA4
def kContentRecordSize : Nat := 0x24

def readRecord (data : Bytes) (record : Nat) : ContentRecord where
  id := read32 data record
  index := read16 data (record + 0x04)
  type := read16 data (record + 0x06)
  size := read64 data (record + 0x08)
  sha1 := slice data (record + 0x10) 20

def Parse (data : Bytes) : Option Tmd :=
  if data.length < 4 then none
  else
    match SignatureSize (read32 data 0) with
    | none => none
    | some signature =>
      if data.length < signature + kTmdContents then none
      else
        let count := read16 data (signature + 0x9E)
        let needed := signature + kTmdContents + count * kContentRecordSize
        if data.length < needed then none
        else
          some {
            title_id := read64 data (signature + 0x4C)
            contents := (List.range count).map fun i =>
              readRecord data (signature + kTmdContents + i * kContentRecordSize)
            raw := data.take needed }

end Tmd

/-! ## a title in a file -/

structure WadSection where
  offset : Nat
  size : Nat
  deriving DecidableEq

structure Wad where
  ticket : Ticket
  tmd : Tmd
  /-- in the order of the TMD -/
  contents : List WadSection
  deriving DecidableEq

namespace Wad

def kHeaderSize : Nat := 0x20

/-- to 64 bytes, in a word of the host -/
def Align (value : Nat) : Nat := (value + 63) % 2 ^ 64 / 64 * 64

def contains (text part : List UInt8) : Bool := text.tails.any fun tail => part.isPrefixOf tail

/-- the ticket signer ends in "-XS" and a number -/
def LooksLikeTicket (file : Bytes) (offset size : Nat) : Bool :=
  if offset + size > file.length then false
  else
    match Ticket.Parse (slice file offset size) with
    | none => false
    | some ticket => contains ticket.issuer (chars "-XS")

/-- the contents back to back, each on a boundary of 64; what is after them -/
def takeContents (file : Bytes) : List ContentRecord → Nat → Option (List WadSection × Nat)
  | [], offset => some ([], offset)
  | content :: contents, offset =>
    if (offset + content.EncryptedSize) % 2 ^ 64 > file.length then none
    else
      match takeContents file contents (Align (offset + content.EncryptedSize)) with
      | none => none
      | some (sections, offset') => some (⟨offset, content.EncryptedSize⟩ :: sections, offset')

/-- the sections of the ticket and the TMD, and what is after both: their order is settled by
looking -/
def blobs (file : Bytes) (offset ticket_size tmd_size : Nat) : WadSection × WadSection × Nat :=
  let tmd_after_ticket := Align (offset + ticket_size)
  let ticket_after_tmd := Align (offset + tmd_size)
  if !LooksLikeTicket file offset ticket_size && LooksLikeTicket file ticket_after_tmd ticket_size
  then
    (⟨ticket_after_tmd, ticket_size⟩, ⟨offset, tmd_size⟩, Align (ticket_after_tmd + ticket_size))
  else
    (⟨offset, ticket_size⟩, ⟨tmd_after_ticket, tmd_size⟩, Align (tmd_after_ticket + tmd_size))

def Parse (file : Bytes) : Option Wad :=
  if file.length < kHeaderSize ∨ read32 file 0 ≠ kHeaderSize then none
  else if read16 file 0x04 ≠ 0x4973 ∧ read16 file 0x04 ≠ 0x6962 then none
  else
    let certs_size := read32 file 0x08
    let crl_size := read32 file 0x0C
    let ticket_size := read32 file 0x10
    let tmd_size := read32 file 0x14
    let data_size := read32 file 0x18
    let certs := Align kHeaderSize
    let crl := Align (certs + certs_size)
    let (ticket_section, tmd_section, offset) :=
      blobs file (Align (crl + crl_size)) ticket_size tmd_size
    if offset > file.length ∨ ticket_section.offset + ticket_section.size > file.length ∨
        tmd_section.offset + tmd_section.size > file.length then none
    else
      match Ticket.Parse (slice file ticket_section.offset ticket_section.size),
        Tmd.Parse (slice file tmd_section.offset tmd_section.size) with
      | some ticket, some tmd =>
        match takeContents file tmd.contents offset with
        | none => none
        | some (contents, offset') =>
          if data_size ≠ 0 ∧ (offset' + (2 ^ 64 - offset)) % 2 ^ 64 > Align data_size then none
          else some ⟨ticket, tmd, contents⟩
      | _, _ => none

def Content (wad : Wad) (index : Nat) : Option WadSection :=
  ((wad.tmd.contents.zip wad.contents).find? (·.1.index = index)).map (·.2)

end Wad

def TitleKeyIv (title_id : Nat) : Bytes := word64 title_id ++ List.replicate 8 0

def ContentIv (content_index : Nat) : Bytes := word16 content_index ++ List.replicate 14 0

end DolTranslator.Nand

/-!
## A NAND, and the titles in it

A NAND is a map of paths to files.  Any write may fail, and then it changes nothing.

* `SharedMap`     /shared1/content.map, the names of the shared contents by their hashes;
* `ResolveContents`, `TitleInstalled`   what is reported of a title;
* `InstallTitle`  ticket, TMD, contents and then the map, up to the first write that fails;
* `RemoveTitle`   a title's own files.
-/

namespace DolTranslator.Nand

open Disc Streams

abbrev Files := Path → Option Bytes

def Files.set (files : Files) (path : Path) (bytes : Option Bytes) : Files :=
  fun p => if p = path then bytes else files p

/-- a NAND during a call, with how many of its operations that change files there were; `outcome`
says of each whether it succeeds -/
structure Store where
  files : Files
  count : Nat

namespace Store

def Read (s : Store) (path : Path) : Option Bytes := s.files path

def Write (outcome : Nat → Bool) (s : Store) (path : Path) (bytes : Bytes) : Store × Bool :=
  if outcome s.count then (⟨s.files.set path (some bytes), s.count + 1⟩, true)
  else (⟨s.files, s.count + 1⟩, false)

def Remove (outcome : Nat → Bool) (s : Store) (path : Path) : Store :=
  if outcome s.count then ⟨s.files.set path none, s.count + 1⟩ else ⟨s.files, s.count + 1⟩

end Store

/-- AES-128-CBC, and the keys of the caller; a block comes out as long as it went in -/
structure Cipher where
  cbc_decrypt : Option (Bytes → Bytes → Bytes → Bytes)
  common_key : Option (Nat → Option Bytes)
  length_decrypt : ∀ decrypt ∈ cbc_decrypt, ∀ key iv bytes,
    (decrypt key iv bytes).length = bytes.length

/-! ## the shared map -/

def kSharedPath : Path := chars "/shared1"

/-- eight characters of name, then a SHA-1 -/
def kSharedEntrySize : Nat := 28

def IsName (at8 : Bytes) : Bool := at8.all isHex

structure SharedMap where
  bytes : Bytes
  deriving DecidableEq

namespace SharedMap

def count (shared : SharedMap) : Nat := shared.bytes.length / kSharedEntrySize

def name (shared : SharedMap) (index : Nat) : List UInt8 :=
  slice shared.bytes (index * kSharedEntrySize) 8

def sha1 (shared : SharedMap) (index : Nat) : Bytes :=
  slice shared.bytes (index * kSharedEntrySize + 8) 20

/-- a map with the hashes first is turned round -/
def Normalize (shared : SharedMap) : SharedMap :=
  let whole : SharedMap := ⟨shared.bytes.take (shared.count * kSharedEntrySize)⟩
  let reversed := decide (whole.count ≠ 0) && (List.range whole.count).all fun index =>
    !IsName (slice whole.bytes (index * kSharedEntrySize) 8) &&
      IsName (slice whole.bytes (index * kSharedEntrySize + 20) 8)
  if reversed then
    ⟨(List.range whole.count).flatMap fun index =>
      slice whole.bytes (index * kSharedEntrySize + 20) 8 ++
        slice whole.bytes (index * kSharedEntrySize) 20⟩
  else whole

def find (shared : SharedMap) (sha1 : Bytes) : Option (List UInt8) :=
  ((List.range shared.count).find? fun index => decide (shared.sha1 index = sha1)).map shared.name

def nextName (shared : SharedMap) : List UInt8 := Hex8 (shared.count % 2 ^ 32)

def add (shared : SharedMap) (sha1 : Bytes) : SharedMap :=
  ⟨shared.bytes ++ shared.nextName ++ sha1⟩

end SharedMap

def mapPath : Path := kSharedPath ++ chars "/content.map"

def sharedPath (name : List UInt8) : Path := kSharedPath ++ chars "/" ++ name ++ chars ".app"

def LoadSharedMap (files : Files) : SharedMap :=
  SharedMap.Normalize ⟨(files mapPath).getD []⟩

/-! ## what is reported -/

def installedTmd (files : Files) (id : Nat) : Option Tmd :=
  match files (TmdPath id) with
  | none => none
  | some bytes => Tmd.Parse bytes

structure ContentLocation where
  id : Nat
  index : Nat
  shared : Bool
  /-- empty when a shared content is not in the map -/
  path : Path
  present : Bool
  deriving DecidableEq

def contentPath (shared : SharedMap) (id : Nat) (content : ContentRecord) : Path :=
  if content.Shared then
    match shared.find content.sha1 with
    | some name => sharedPath name
    | none => []
  else ContentFilePath id content.id

def locate (files : Files) (shared : SharedMap) (id : Nat) (content : ContentRecord) :
    ContentLocation where
  id := content.id
  index := content.index
  shared := content.Shared
  path := contentPath shared id content
  present := decide (contentPath shared id content ≠ []) &&
    (files (contentPath shared id content)).isSome

def ResolveContents (files : Files) (id : Nat) : List ContentLocation :=
  match installedTmd files id with
  | none => []
  | some tmd => tmd.contents.map (locate files (LoadSharedMap files) id)

def TitleInstalled (files : Files) (id : Nat) : Bool := (installedTmd files id).isSome

/-! ## installing -/

inductive InstallResult where
  | Installed | NotAWad | NoKey | WriteFailed
  deriving DecidableEq

/-- the key of a title: the ticket's, unwrapped with a common key -/
def titleKey (decrypt : Bytes → Bytes → Bytes → Bytes) (common : Bytes) (ticket : Ticket) : Bytes :=
  decrypt common (TitleKeyIv ticket.title_id) ticket.title_key

def contentBytes (decrypt : Bytes → Bytes → Bytes → Bytes) (title_key file : Bytes)
    (extent : WadSection) (content : ContentRecord) : Bytes :=
  resize (decrypt title_key (ContentIv content.index)
    (slice file extent.offset content.EncryptedSize)) content.size

/-- a wad that can be opened: with what its contents are decrypted -/
structure Opened where
  file : Bytes
  wad : Wad
  decrypt : Bytes → Bytes → Bytes → Bytes
  title_key : Bytes

def Opened.bytes (o : Opened) (extent : WadSection) (content : ContentRecord) : Bytes :=
  contentBytes o.decrypt o.title_key o.file extent content

/-- what is checked before anything is written -/
def openWad (file : Bytes) (cipher : Cipher) : Except InstallResult Opened :=
  match Wad.Parse file with
  | none => .error .NotAWad
  | some wad =>
    match cipher.cbc_decrypt, cipher.common_key with
    | some decrypt, some common_key =>
      match common_key wad.ticket.common_key_index with
      | none => .error .NoKey
      | some common => .ok ⟨file, wad, decrypt, titleKey decrypt common wad.ticket⟩
    | _, _ => .error .NoKey

/-- the loop over the contents; none for a write that fails -/
def installContents (outcome : Nat → Bool) (o : Opened) (id : Nat) :
    List ContentRecord → SharedMap → Store → Store × Option SharedMap
  | [], shared, s => (s, some shared)
  | content :: contents, shared, s =>
    match o.wad.Content content.index with
    | none => (s, none)
    | some extent =>
      if content.Shared then
        match shared.find content.sha1 with
        | some _ => installContents outcome o id contents shared s
        | none =>
          let written := s.Write outcome (sharedPath shared.nextName) (o.bytes extent content)
          if written.2 then
            installContents outcome o id contents (shared.add content.sha1) written.1
          else (written.1, none)
      else
        let written := s.Write outcome (ContentFilePath id content.id) (o.bytes extent content)
        if written.2 then installContents outcome o id contents shared written.1
        else (written.1, none)

/-- the writes of a wad that can be opened -/
def installOpened (outcome : Nat → Bool) (o : Opened) (s : Store) : Store × InstallResult :=
  let id := o.wad.tmd.title_id
  let ticket := s.Write outcome (TicketPath id) o.wad.ticket.raw
  if !ticket.2 then (ticket.1, .WriteFailed)
  else
    let tmd := ticket.1.Write outcome (TmdPath id) o.wad.tmd.raw
    if !tmd.2 then (tmd.1, .WriteFailed)
    else
      match installContents outcome o id o.wad.tmd.contents (LoadSharedMap tmd.1.files) tmd.1 with
      | (s, none) => (s, .WriteFailed)
      | (s, some shared) =>
        if shared.bytes ≠ [] then
          let map := s.Write outcome mapPath shared.bytes
          if map.2 then (map.1, .Installed) else (map.1, .WriteFailed)
        else (s, .Installed)

def InstallTitle (outcome : Nat → Bool) (files : Files) (file : Bytes) (cipher : Cipher) :
    Files × InstallResult :=
  match openWad file cipher with
  | .error result => (files, result)
  | .ok o =>
    let installed := installOpened outcome o ⟨files, 0⟩
    (installed.1.files, installed.2)

def removeContents (outcome : Nat → Bool) (id : Nat) : List ContentRecord → Store → Store
  | [], s => s
  | content :: contents, s =>
    removeContents outcome id contents
      (if content.Shared then s else s.Remove outcome (ContentFilePath id content.id))

def RemoveTitle (outcome : Nat → Bool) (files : Files) (id : Nat) : Files × Bool :=
  match installedTmd files id with
  | none => (files, false)
  | some tmd =>
    let s := removeContents outcome id tmd.contents ⟨files, 0⟩
    let s := s.Remove outcome (TmdPath id)
    let s := s.Remove outcome (TicketPath id)
    (s.files, true)

end DolTranslator.Nand
