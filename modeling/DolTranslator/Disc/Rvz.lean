import DolTranslator.Disc.Source

/-!
# RVZ and WIA files

A disc is described as regions, a region names a run of groups, and a group holds one chunk of it.
The last group expanded is kept.

* `Rvz.openFile`   the header and the tables;
* `Rvz.readGroup`   one group, from the file to the bytes of its chunk;
* `Rvz.readThrough`   a range of the disc, group after group.

Reading the file and decompressing may fail now and then: `Attempt` says how one attempt at a group
goes.
-/

namespace DolTranslator.Disc

open Streams

structure Group where
  /-- in the file -/
  offset : Nat
  /-- compressed bytes, 0 for a run of zeros -/
  size : Nat
  compressed : Bool
  packedSize : Nat

structure Region where
  offset : Nat
  size : Nat
  firstGroup : Nat
  groups : Nat
  /-- bytes of this region in one group -/
  chunk : Nat
  /-- hash-exception lists in front of a chunk -/
  lists : Nat
  chunk_pos : 0 < chunk
  deriving DecidableEq

structure Rvz where
  file : Source
  decompressor : Decompressor
  compression : Compression
  groups : List Group
  regions : List Region

/-! ## groups -/

def kExceptionEntry : Nat := 2 + 20

def kListSlack : Nat := 0x12000

def Region.room (region : Region) : Nat := region.chunk + region.lists * kListSlack

/-- the loop of `SkipExceptionLists` with `left` lists to go -/
def skipLists (data : List UInt8) (aligned : Bool) : Nat → Nat → Nat
  | 0, pos => pos
  | left + 1, pos =>
    if data.length < pos + 2 then pos
    else
      let count := byteAt data pos * 256 + byteAt data (pos + 1)
      let length := 2 + count * kExceptionEntry
      let length := if aligned ∧ left = 0 then (pos + length + 3) / 4 * 4 - pos else length
      skipLists data aligned left (pos + length)

/-- `SkipExceptionLists` -/
def skipExceptionLists (data : List UInt8) (lists : Nat) (aligned : Bool) : Nat :=
  skipLists data aligned lists 0

/-- the runs of a packed group, from what is left of its stream -/
def unpackRuns : Nat → List UInt8 → List UInt8
  | 0, _ => []
  | fuel + 1, stream =>
    if stream.length < 4 then []
    else
      let field := read32 stream 0
      let length := field % 2 ^ 31
      let stream := stream.drop 4
      if field / 2 ^ 31 % 2 = 1 then
        -- the seed the filler would be regrown from
        List.replicate length 0 ++ unpackRuns fuel (stream.drop 68)
      else stream.take length ++ unpackRuns fuel (stream.drop length)

/-- what the bytes that were stored, or came out of the decompressor, stand for -/
def Group.contents (group : Group) (lists : Nat) (listsCompressed : Bool) (out : List UInt8) :
    List UInt8 :=
  let out :=
    if lists ≠ 0 ∧ listsCompressed then out.drop (skipExceptionLists out lists false) else out
  if group.packedSize ≠ 0 then
    let stream := out.take group.packedSize
    unpackRuns stream.length stream
  else out

/-- how an attempt at a group goes: whether the file can be read, and what the decompressor leaves
in its buffer when it gives up -/
structure Attempt where
  fileReads : Bool
  spoiled : Option (List UInt8)

def Attempt.clean : Attempt := ⟨true, none⟩

def Attempt.readFile (attempt : Attempt) (file : Source) (offset size : Nat) :
    Option (List UInt8) :=
  if attempt.fileReads then file.read offset size else none

def Attempt.inflate (attempt : Attempt) (inflate : Compression → List UInt8 → Nat → Inflated)
    (method : Compression) (raw : List UInt8) (size : Nat) : Inflated :=
  match attempt.spoiled with
  | some bytes => ⟨bytes, 0⟩
  | none => inflate method raw size

/-- `ReadGroup` up to the bytes of the group: it gives up before it touches `out`, or with `out`
written, or goes on -/
inductive Expansion where
  | refused
  | spoiled (out : List UInt8)
  | expanded (out : List UInt8)

namespace Rvz

/-- hash exceptions travel inside the compressed stream when there is one, and in front of it when
there is not -/
def listsCompressed (img : Rvz) (group : Group) : Bool :=
  group.compressed && img.compression != .purge

/-- the bytes of a group in the file, without the lists in front of them -/
def strip (img : Rvz) (group : Group) (region : Region) (raw : List UInt8) : List UInt8 :=
  if region.lists ≠ 0 ∧ !img.listsCompressed group then
    raw.drop (skipExceptionLists raw region.lists true)
  else raw

def expand (img : Rvz) (attempt : Attempt) (index : Nat) (region : Region) : Expansion :=
  match img.groups[index]? with
  | none => .refused
  | some group =>
    -- a group with no bytes is a run of zeros
    if group.size = 0 then .expanded (List.replicate region.chunk 0)
    else
      match attempt.readFile img.file group.offset group.size with
      | none => .refused
      | some raw =>
        let raw := img.strip group region raw
        if !group.compressed then
          .expanded (group.contents region.lists (img.listsCompressed group) raw)
        else
          match img.decompressor with
          | none => .refused
          | some inflate =>
            let inflated := attempt.inflate inflate img.compression raw region.room
            let out := resize inflated.bytes region.room
            if inflated.written = 0 then .spoiled out
            else .expanded (group.contents region.lists (img.listsCompressed group)
              (resize out inflated.written))

/-- `Rvz::ReadGroup`; `out` is written before it is known whether the decompressor succeeds -/
def readGroup (img : Rvz) (attempt : Attempt) (index : Nat) (region : Region)
    (out : List UInt8) : List UInt8 × Bool :=
  match img.expand attempt index region with
  | .refused => (out, false)
  | .spoiled out => (out, false)
  | .expanded out => (out, true)

end Rvz

/-! ## reading -/

/-- `mGroupBytes` and `mGroupIndex` -/
structure Cache where
  groupBytes : List UInt8
  groupIndex : Nat

def noGroup : Nat := 0xFFFFFFFF

/-- the cache of an `Rvz` that was just opened -/
def Cache.empty : Cache := ⟨[], noGroup⟩

namespace Region

def stop (r : Region) : Nat := (r.offset + r.size) % 2 ^ 64

def covers (r : Region) (offset : Nat) : Bool := decide (r.offset ≤ offset ∧ offset < r.stop)

def groupAt (r : Region) (offset : Nat) : Nat :=
  (r.firstGroup + (offset - r.offset) / r.chunk) % 2 ^ 32

def within (r : Region) (offset : Nat) : Nat := (offset - r.offset) % r.chunk

def stopGroup (r : Region) : Nat := (r.firstGroup + r.groups) % 2 ^ 32

end Region

namespace Rvz

def regionAt (img : Rvz) (offset : Nat) : Option Region :=
  img.regions.find? fun r => r.covers offset

/-- the group into the cache, unless it is there -/
def fetch (img : Rvz) (attempts : Nat → Attempt) (group : Nat) (region : Region)
    (s : Cache × Nat) : (Cache × Nat) × Bool :=
  if s.1.groupIndex = group then (s, true)
  else
    let out := img.readGroup (attempts s.2) group region s.1.groupBytes
    if out.2 then ((⟨out.1, group⟩, s.2 + 1), true)
    else ((⟨out.1, s.1.groupIndex⟩, s.2 + 1), false)

/-- the bytes the cache has for a piece of `take` bytes: what there is, or zeros when there is
none -/
def serve (bytes : List UInt8) (pos take : Nat) : List UInt8 :=
  if (bytes.drop pos).isEmpty then List.replicate take 0 else (bytes.drop pos).take take

/-- the body of the loop of `Rvz::Read`; the attempts at groups are counted -/
def readPiece (img : Rvz) (attempts : Nat → Attempt) (s : Cache × Nat) (offset size : Nat) :
    (Cache × Nat) × Option (List UInt8) :=
  match img.regionAt offset with
  -- outside everything the file describes
  | none => (s, some (List.replicate size 0))
  | some region =>
    if region.stopGroup ≤ region.groupAt offset then (s, none)
    else
      let fetched := img.fetch attempts (region.groupAt offset) region s
      if !fetched.2 then (fetched.1, none)
      else
        let take := min size (min (region.stop - offset) (region.chunk - region.within offset))
        if take = 0 then (fetched.1, none)
        else (fetched.1, some (serve fetched.1.1.groupBytes (region.within offset) take))

/-- a call of `ReadThrough`, with how its attempts at groups go -/
structure Call where
  offset : Nat
  size : Nat
  attempts : Nat → Attempt

/-- `Rvz::ReadThrough` -/
def readThrough (img : Rvz) (cache : Cache) (call : Call) : Cache × Option (List UInt8) :=
  let out := readAll (img.readPiece call.attempts) (cache, 0) call.offset call.size
  (out.1.1, out.2)

/-! ## opening -/

def kFileHeaderSize : Nat := 0x48
def kDiscSize : Nat := 0xDC
def kPartitionEntrySize : Nat := 48
def kRawDataEntrySize : Nat := 24
def kClusterSize : Nat := 0x8000
def kClusterStored : Nat := 0x7C00
def kGroupData : Nat := 64 * kClusterStored

/-- the `plain` of `ReadTables`: a table of `expanded` bytes -/
def plain (file : Source) (decompressor : Decompressor) (compression : Compression)
    (offset stored expanded : Nat) : Option (List UInt8) :=
  if stored = 0 then none
  else
    match file.read offset stored with
    | none => none
    | some raw =>
      if compression = .none then if raw.length < expanded then none else some raw
      else
        match decompressor with
        | none => none
        | some inflate =>
          let inflated := inflate compression raw expanded
          if inflated.written < expanded then none else some (resize inflated.bytes expanded)

/-- entry `index` of the group table -/
def readGroupEntry (rvz : Bool) (table : List UInt8) (index : Nat) : Group :=
  let pos := index * if rvz then 12 else 8
  let size := read32 table (pos + 4)
  if rvz then
    ⟨read32 table pos * 4, size % 2 ^ 31, size / 2 ^ 31 % 2 = 1, read32 table (pos + 8)⟩
  else ⟨read32 table pos * 4, size, true, 0⟩

/-- entry `index` of the raw-data table; a region that starts inside a sector begins at the sector
boundary below it -/
def readRawEntry (chunk : Nat) (h : 0 < chunk) (table : List UInt8) (index : Nat) : Region :=
  let pos := index * kRawDataEntrySize
  let offset := read64 table pos
  let skipped := offset % kClusterSize
  { offset := offset - skipped
    size := (read64 table (pos + 8) + skipped) % 2 ^ 64
    firstGroup := read32 table (pos + 16)
    groups := read32 table (pos + 20)
    chunk := chunk
    lists := 0
    chunk_pos := h }

/-- a segment of the partition whose entry is at `pos` -/
def readSegment (chunk : Nat) (h : 0 < chunk) (table : List UInt8) (pos segment : Nat) :
    Region :=
  let first := read32 table (pos + 16)
  let data := pos + 16 + segment * 16
  { offset :=
      (first * kClusterSize + (read32 table data + 2 ^ 64 - first) * kClusterStored) % 2 ^ 64
    size := read32 table (data + 4) * kClusterStored
    firstGroup := read32 table (data + 8)
    groups := read32 table (data + 12)
    chunk := chunk
    lists := max 1 (chunk / kGroupData)
    chunk_pos := h }

/-- a power of two that is a cluster at least -/
def chunkSizeOk (chunkSize : Nat) : Prop :=
  chunkSize ≠ 0 ∧ chunkSize &&& (chunkSize - 1) = 0 ∧ kClusterSize ≤ chunkSize

instance (chunkSize : Nat) : Decidable (chunkSizeOk chunkSize) :=
  inferInstanceAs (Decidable (_ ∧ _ ∧ _))

theorem chunkSizeOk.pos {chunkSize : Nat} (h : chunkSizeOk chunkSize) : 0 < chunkSize :=
  Nat.pos_of_ne_zero h.1

theorem chunkSizeOk.partition_pos {chunkSize : Nat} (h : chunkSizeOk chunkSize) :
    0 < chunkSize / kClusterSize * kClusterStored :=
  Nat.mul_pos (Nat.div_pos h.2.2 (by decide)) (by decide)

/-- the regions of the partitions: each has a management segment and a data segment -/
def readPartitions (file : Source) (chunkSize : Nat) (h : chunkSizeOk chunkSize)
    (disc : List UInt8) : Option (List Region) :=
  let partitions := read32 disc 0x90
  let entry := read32 disc 0x94
  if partitions ≠ 0 ∧ kPartitionEntrySize ≤ entry then
    match file.read (read64 disc 0x98) (partitions * entry % 2 ^ 32) with
    | none => none
    | some table =>
      some ((List.range partitions).flatMap fun index =>
        (List.range 2).flatMap fun segment =>
          let region := readSegment (chunkSize / kClusterSize * kClusterStored) h.partition_pos
            table (index * entry % 2 ^ 32) segment
          if region.size ≠ 0 then [region] else [])
  else some []

/-- `Rvz::ReadTables` -/
def readTables (file : Source) (decompressor : Decompressor) (rvz : Bool) (disc : List UInt8) :
    Option Rvz :=
  let compression := Compression.ofNumber (read32 disc 0x04)
  let chunkSize := read32 disc 0x0C
  let plain := plain file decompressor compression
  if h : chunkSizeOk chunkSize then do
    let groups := read32 disc 0xC4
    let table ← plain (read64 disc 0xC8) (read32 disc 0xD0) (groups * if rvz then 12 else 8)
    let entries := read32 disc 0xB4
    let rawTable ←
      if entries = 0 then some []
      else plain (read64 disc 0xB8) (read32 disc 0xC0) (entries * kRawDataEntrySize)
    let partitions ← readPartitions file chunkSize h disc
    return {
      file := file
      decompressor := decompressor
      compression := compression
      groups := (List.range groups).map (readGroupEntry rvz table)
      regions := (List.range entries).map (readRawEntry chunkSize h.pos rawTable) ++ partitions }
  else none

/-- `Rvz::Open` -/
def openFile (file : Source) (decompressor : Decompressor) : Option Rvz := do
  let header ← file.read 0 kFileHeaderSize
  let wia := header.take 4 = [0x57, 0x49, 0x41, 0x01]
  let rvz := header.take 4 = [0x52, 0x56, 0x5A, 0x01]
  if ¬ wia ∧ ¬ rvz then none
  else
    let described := read32 header 0x0C
    if described < kDiscSize then none
    else
      let disc ← file.read kFileHeaderSize described
      readTables file decompressor rvz disc

end Rvz

end DolTranslator.Disc
