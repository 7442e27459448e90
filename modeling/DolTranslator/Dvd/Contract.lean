import DolTranslator.Disc.Source
import DolTranslator.Dvd.Paths
import DolTranslator.Trees.TrieForest

/-!
# The file table that is published at run time

* `filesByPath`   the last registration of each path;
* `buildTree`   a tree of them, under the components of their paths in lower case;
* `EmitTree`   the tree in pre-order, and where each subtree ends;
* `BuildImage`   the entries, their indexes by path, and the table as it is in guest memory.
-/

namespace DolTranslator.Dvd

open Disc Trees

structure RegisteredFile where
  hostPath : Bytes
  dvdPath : Bytes
  size : UInt32
  discOffsetWords : UInt32
  deriving DecidableEq

structure IndexedEntry where
  hostPath : Bytes
  dvdPath : Bytes
  size : UInt32
  discOffsetWords : UInt32
  parentIndex : Nat
  subtreeEnd : Nat
  isDirectory : Bool
  deriving DecidableEq

/-- a `std::map` with paths as keys -/
abbrev PathMap (β : Type) := Std.TreeMap Bytes β compare

structure Image where
  entries : List IndexedEntry
  pathToEntry : PathMap Nat
  bytes : Bytes

/-- the exceptions of `BuildImage` -/
inductive BuildError where
  | rootAsFile
  | fileAndDirectory (path : Bytes)
  | emptyNode (path : Bytes)
  | tooManyEntries
  | namesTooLong
  deriving DecidableEq

/-! ## the tree -/

abbrev Children := Trie Bytes Bytes RegisteredFile

/-- the last registration of each path; none for the root -/
def filesByPath : List RegisteredFile → PathMap RegisteredFile → Option (PathMap RegisteredFile)
  | [], files => some files
  | file :: registrations, files =>
    let dvdPath := CanonicalizePath file.dvdPath
    if dvdPath = [kSlash] then none
    else
      filesByPath registrations
        (files.insert (NormalizeLookupPath dvdPath) { file with dvdPath := dvdPath })

def addFile (root : Children) (file : RegisteredFile) : Children :=
  root.insert Lowercase file (Components file.dvdPath)

def buildTree (files : PathMap RegisteredFile) : Children :=
  files.toList.foldl (fun root file => addFile root file.2) .nil

/-! ## entries -/

/-- the image while the tree is emitted -/
structure Emission where
  entries : List IndexedEntry
  names : List Bytes
  pathToEntry : PathMap Nat

def Emission.push (s : Emission) (entry : IndexedEntry) (name : Bytes) : Emission where
  entries := s.entries ++ [entry]
  names := s.names ++ [name]
  pathToEntry := s.pathToEntry.insertIfNew (NormalizeLookupPath entry.dvdPath) s.entries.length

def Emission.setEnd (s : Emission) (index : Nat) : Emission :=
  { s with entries := s.entries.modify index fun e => { e with subtreeEnd := s.entries.length } }

def EmitTree (directoryIndex : Nat) (directoryPath : Bytes) :
    Children → Emission → Except BuildError Emission
  | .nil, s => .ok s
  | .cons _ name file children rest, s =>
    let path := childPath directoryPath name
    let index := s.entries.length
    if !children.isNil then
      if file.isSome then .error (.fileAndDirectory path)
      else
        match EmitTree index path children (s.push ⟨[], path, 0, 0, directoryIndex, 0, true⟩ name) with
        | .error e => .error e
        | .ok s' => EmitTree directoryIndex directoryPath rest (s'.setEnd index)
    else
      match file with
      | none => .error (.emptyNode path)
      | some file =>
        EmitTree directoryIndex directoryPath rest
          (s.push ⟨file.hostPath, path, file.size, file.discOffsetWords, directoryIndex, index + 1,
            false⟩ name)

def emitRoot : Emission where
  entries := [⟨[], [kSlash], 0, 0, 0, 0, true⟩]
  names := [[]]
  pathToEntry := Std.TreeMap.empty.insertIfNew [kSlash] 0

/-! ## bytes -/

/-- the offset of each name in the string table, and the table; none past the 24 bits of an offset -/
def addNames : List Bytes → Bytes → Option (List Nat × Bytes)
  | [], stringTable => some ([], stringTable)
  | name :: names, stringTable =>
    if 0x00FFFFFF < stringTable.length then none
    else
      match addNames names (stringTable ++ name ++ [0]) with
      | none => none
      | some (offsets, table) => some (stringTable.length :: offsets, table)

def encodeEntry (entry : IndexedEntry) (nameOffset : Nat) : Bytes :=
  word32 ((if entry.isDirectory then 0x01000000 else 0) ||| nameOffset) ++
    word32 (if entry.isDirectory then entry.parentIndex else entry.discOffsetWords.toNat) ++
    word32 (if entry.isDirectory then entry.subtreeEnd else entry.size.toNat)

def encodeEntries (entries : List IndexedEntry) (nameOffsets : List Nat) : Bytes :=
  (entries.zip nameOffsets).flatMap fun e => encodeEntry e.1 e.2

def kMaxEntries : Nat := 0xFFFFFFFF / 12

def BuildImage (registrations : List RegisteredFile) : Except BuildError Image :=
  match filesByPath registrations ∅ with
  | none => .error .rootAsFile
  | some files =>
    match EmitTree 0 [kSlash] (buildTree files) emitRoot with
    | .error e => .error e
    | .ok s =>
      let s := s.setEnd 0
      if kMaxEntries < s.entries.length then .error .tooManyEntries
      else
        match addNames (s.names.drop 1) [0] with
        | none => .error .namesTooLong
        | some (offsets, stringTable) =>
          .ok ⟨s.entries, s.pathToEntry, encodeEntries s.entries (0 :: offsets) ++ stringTable⟩

end DolTranslator.Dvd

/-!
## The files that are registered at run time, and reads of them

* `RegisterFileEntry`   a file under its path; the last registration of a path counts;
* `keepOffsets`   the offsets of the files that the extracted table has;
* `assignOffsets`   offsets behind everything for the others;
* `publishEntries`   the table of both, and `fileExtents` its files on the disc;
* `ResolveFileRead`   a read by the offset of a file.
-/

namespace DolTranslator.Dvd

structure DVDFileEntry where
  hostPath : Bytes
  dvdPath : Bytes
  size : UInt32
  discOffsetWords : UInt32
  isDirectory : Bool
  deriving DecidableEq

/-- a file of the extracted table, at a byte offset below 2^32 -/
structure FstFileEntry where
  start : UInt32
  size : UInt32
  dvdPath : Bytes
  deriving DecidableEq

/-- the end, in 32 bits -/
def FstFileEntry.stop (f : FstFileEntry) : UInt32 := f.start + f.size

/-- a file of the host for a path of the disc -/
structure Registration where
  dvdPath : Bytes
  hostPath : Bytes
  size : UInt32
  deriving DecidableEq

/-- the global state of the files -/
structure FileIndex where
  fileEntries : List DVDFileEntry
  pathToEntry : PathMap Nat

def RegisterFileEntry (s : FileIndex) (r : Registration) : FileIndex where
  fileEntries := s.fileEntries ++ [⟨r.hostPath, CanonicalizePath r.dvdPath, r.size, 0, false⟩]
  pathToEntry := s.pathToEntry.insert (NormalizeLookupPath (CanonicalizePath r.dvdPath))
    s.fileEntries.length

def registerAll (registrations : List Registration) : FileIndex :=
  registrations.foldl RegisterFileEntry ⟨[], ∅⟩

/-! ## offsets -/

def keepOffset (pathToEntry : PathMap Nat) (entries : List DVDFileEntry) (f : FstFileEntry) :
    List DVDFileEntry :=
  match pathToEntry[NormalizeLookupPath f.dvdPath]? with
  | none => entries
  | some index => entries.modify index fun e => { e with discOffsetWords := f.start / 4 }

def keepOffsets (fstFiles : List FstFileEntry) (s : FileIndex) : List DVDFileEntry :=
  fstFiles.foldl (keepOffset s.pathToEntry) s.fileEntries

def nextFreeBytes (fstFiles : List FstFileEntry) (entries : List DVDFileEntry) : Nat :=
  entries.foldl (fun next e =>
      if e.discOffsetWords ≠ 0 then max next (e.discOffsetWords.toNat * 4 + e.size.toNat) else next)
    (fstFiles.foldl (fun next f => max next f.stop.toNat) 0)

/-- to 32 bytes -/
def align32 (n : Nat) : Nat := (n + 31) / 32 * 32

/-- an offset for each file that has none; none when there are no more -/
def assignOffsets : Nat → List DVDFileEntry → Option (List DVDFileEntry)
  | _, [] => some []
  | next, e :: entries =>
    if e.isDirectory ∨ e.discOffsetWords ≠ 0 then (assignOffsets next entries).map (e :: ·)
    else if 0xFFFFFFFF < align32 next / 4 then none
    else
      (assignOffsets (align32 next + max e.size.toNat 4) entries).map
        ({ e with discOffsetWords := UInt32.ofNat (align32 next / 4) } :: ·)

/-! ## what is published -/

structure PublishedExtent where
  startBytes : Nat
  endBytes : Nat
  entryIndex : Nat
  deriving DecidableEq

def DVDFileEntry.registered (e : DVDFileEntry) : RegisteredFile :=
  ⟨e.hostPath, e.dvdPath, e.size, e.discOffsetWords⟩

def IndexedEntry.entry (e : IndexedEntry) : DVDFileEntry :=
  ⟨e.hostPath, e.dvdPath, e.size, e.discOffsetWords, e.isDirectory⟩

/-- `BuildAndPublishRuntimeFst`, up to the extents: the entries; none for a failure.  So many bytes
are reserved for the table. -/
def publishEntries (fstFiles : List FstFileEntry) (registrations : List Registration)
    (reserved : Nat) : Option (List DVDFileEntry) :=
  let s := registerAll registrations
  let kept := keepOffsets fstFiles s
  match assignOffsets (nextFreeBytes fstFiles kept) kept with
  | none => none
  | some entries =>
    match BuildImage (entries.map DVDFileEntry.registered) with
    | .error _ => none
    | .ok image =>
      if reserved < image.bytes.length then none else some (image.entries.map IndexedEntry.entry)

/-- the extent of an entry; an empty file has one byte -/
def extentOf (e : DVDFileEntry) (index : Nat) : Option PublishedExtent :=
  if e.isDirectory ∨ e.discOffsetWords = 0 then none
  else
    some ⟨e.discOffsetWords.toNat * 4, e.discOffsetWords.toNat * 4 + max e.size.toNat 1, index⟩

/-- the extents in the order of the entries; they are sorted then -/
def fileExtents (entries : List DVDFileEntry) : List PublishedExtent :=
  entries.zipIdx.filterMap fun e => extentOf e.1 e.2

/-- what a sort by the start leaves: equal starts in any order -/
structure SortedExtents (entries : List DVDFileEntry) (extents : List PublishedExtent) : Prop where
  perm : extents.Perm (fileExtents entries)
  sorted : extents.Pairwise fun x y => x.startBytes ≤ y.startBytes

/-! ## reads -/

def FindPublishedExtentForByteOffset (extents : List PublishedExtent) (offset : Nat) :
    Option PublishedExtent :=
  match (extents.takeWhile fun x => decide (x.startBytes ≤ offset)).getLast? with
  | none => none
  | some x => if x.startBytes ≤ offset ∧ offset < x.endBytes then some x else none

structure DvdJob where
  block : Nat
  buffer : Nat
  path : Bytes
  offset : Nat
  length : Nat
  reportOffset : Int
  deriving DecidableEq

/-- why a read is fatal -/
inductive ReadFailure where
  | invalidFileInfo | unresolvedHandle | negative | outsideFile | destination
  deriving DecidableEq

/-- a read, by the word at the file info's start address; `Contains` is that of guest memory -/
def ResolveFileRead (Contains : Nat → Nat → Bool) (entries : List DVDFileEntry)
    (extents : List PublishedExtent) (startWords : Option UInt32) (fileInfoPtr bufferPtr : Nat)
    (length offset : Int) : Except ReadFailure DvdJob :=
  match startWords with
  | none => .error .invalidFileInfo
  | some startWords =>
    let startBytes := startWords.toNat * 4
    match FindPublishedExtentForByteOffset extents startBytes with
    | none => .error .unresolvedHandle
    | some extent =>
      match entries[extent.entryIndex]? with
      | none => .error .unresolvedHandle
      | some entry =>
        if offset < 0 ∨ length < 0 then .error .negative
        else
          let requestedOffset := startBytes - extent.startBytes + offset.toNat
          if entry.size.toNat ≤ requestedOffset then .error .outsideFile
          else
            let uLength := min length.toNat (entry.size.toNat - requestedOffset)
            if uLength ≠ 0 ∧ !Contains bufferPtr uLength then .error .destination
            else
              .ok ⟨fileInfoPtr, bufferPtr, entry.hostPath, requestedOffset, uLength, offset⟩

end DolTranslator.Dvd
