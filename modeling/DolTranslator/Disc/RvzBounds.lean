import DolTranslator.Disc.Rvz
import DolTranslator.Streams.Checked

/-!
# The accesses of opening an RVZ file

The headers and the tables, with each access to the file and to a table checked.

* `openChecked`   `Rvz::Open` over a buffer;
* `OpenBounded`   what the fields of the headers have to be like;
* `openChecked_safe_iff`   no access is outside just when they are.
-/

namespace DolTranslator.Disc

open Streams

/-- `ReadMemory`; the end of the range is a sum of 64 bits -/
def readMemoryChecked (data : List UInt8) (offset size : Nat) : Checked (List UInt8) := do
  require (¬data.length < (offset + size) % 2 ^ 64)
  within data.length offset size
  return slice data offset size

def word32At (bytes : List UInt8) (i : Nat) : Checked Nat := do
  within bytes.length i 4
  return read32 bytes i

def word64At (bytes : List UInt8) (i : Nat) : Checked Nat := do
  within bytes.length i 8
  return read64 bytes i

namespace Rvz

variable (file : List UInt8) (decompressor : Decompressor)

/-! ## the readers -/

/-- the `plain` of `ReadTables` -/
def plainChecked (compression : Compression) (offset stored expanded : Nat) :
    Checked (List UInt8) := do
  require (stored ≠ 0)
  let raw ← readMemoryChecked file offset stored
  if compression = .none then
    require (expanded ≤ raw.length)
    return raw
  else
    match decompressor with
    | none => .error .refused
    | some inflate =>
      let inflated := inflate compression raw expanded
      require (expanded ≤ inflated.written)
      return resize inflated.bytes expanded

def groupEntrySize (rvz : Bool) : Nat := if rvz then 12 else 8

def groupsChecked (rvz : Bool) (groups : Nat) (table : List UInt8) : Checked (List Group) :=
  (List.range groups).mapM fun index => do
    within table.length (index * groupEntrySize rvz) (groupEntrySize rvz)
    return readGroupEntry rvz table index

def rawEntriesChecked (chunk : Nat) (h : 0 < chunk) (entries : Nat) (table : List UInt8) :
    Checked (List Region) :=
  (List.range entries).mapM fun index => do
    within table.length (index * kRawDataEntrySize) kRawDataEntrySize
    return readRawEntry chunk h table index

def rawTableChecked (compression : Compression) (entries offset stored : Nat) :
    Checked (List UInt8) :=
  if entries = 0 then .ok []
  else plainChecked file decompressor compression offset stored (entries * kRawDataEntrySize)

def segments (chunkSize : Nat) (h : chunkSizeOk chunkSize) (table : List UInt8) (pos : Nat) :
    List Region :=
  (List.range 2).flatMap fun segment =>
    let region := readSegment (chunkSize / kClusterSize * kClusterStored) h.partition_pos table pos
      segment
    if region.size ≠ 0 then [region] else []

/-- the product of the two words is a word -/
def readPartitionsChecked (chunkSize : Nat) (h : chunkSizeOk chunkSize) (disc : List UInt8) :
    Checked (List Region) := do
  let partitions ← word32At disc 0x90
  let entry ← word32At disc 0x94
  if partitions ≠ 0 ∧ kPartitionEntrySize ≤ entry then
    let offset ← word64At disc 0x98
    let table ← readMemoryChecked file offset (partitions * entry % 2 ^ 32)
    let regions ← (List.range partitions).mapM fun index => do
      within table.length (index * entry % 2 ^ 32 + 16) 32
      return segments chunkSize h table (index * entry % 2 ^ 32)
    return regions.flatten
  else return []

/-- `Rvz::ReadTables` -/
def readTablesChecked (rvz : Bool) (disc : List UInt8) : Checked Rvz := do
  let compression := Compression.ofNumber (← word32At disc 0x04)
  let chunkSize ← word32At disc 0x0C
  within disc.length 0x10 0x80
  if h : chunkSizeOk chunkSize then
    let groups ← word32At disc 0xC4
    let groupOffset ← word64At disc 0xC8
    let groupSize ← word32At disc 0xD0
    within disc.length 0xD4 1
    let table ← plainChecked file decompressor compression groupOffset groupSize
      (groups * groupEntrySize rvz)
    let groups ← groupsChecked rvz groups table
    let entries ← word32At disc 0xB4
    let rawOffset ← word64At disc 0xB8
    let rawSize ← word32At disc 0xC0
    let rawTable ← rawTableChecked file decompressor compression entries rawOffset rawSize
    let regions ← rawEntriesChecked chunkSize h.pos entries rawTable
    let partitions ← readPartitionsChecked file chunkSize h disc
    return {
      file := .fromMemory file
      decompressor := decompressor
      compression := compression
      groups := groups
      regions := regions ++ partitions }
  else .error .refused

/-- `Rvz::Open` of a source over a buffer -/
def openChecked : Checked Rvz := do
  let header ← readMemoryChecked file 0 kFileHeaderSize
  let wia := header.take 4 = [0x57, 0x49, 0x41, 0x01]
  let rvz := header.take 4 = [0x52, 0x56, 0x5A, 0x01]
  require (wia ∨ rvz)
  let described ← word32At header 0x0C
  require (kDiscSize ≤ described)
  let disc ← readMemoryChecked file kFileHeaderSize described
  readTablesChecked file decompressor rvz disc

/-! ## the fields -/

/-- the end of a range wraps around to a place in the file -/
def Wraps (offset size : Nat) : Prop :=
  0 < size ∧ 2 ^ 64 ≤ offset + size ∧ offset + size - 2 ^ 64 ≤ file.length

/-- a table of so many bytes is in the file -/
def TableThere (offset stored expanded : Nat) : Prop :=
  stored ≠ 0 ∧ offset + stored ≤ file.length ∧ expanded ≤ stored

/-- the table does not wrap, and neither does the place of an entry -/
def PartitionsBounded (disc : List UInt8) : Prop :=
  read32 disc 0x90 ≠ 0 → kPartitionEntrySize ≤ read32 disc 0x94 →
    ¬Wraps file (read64 disc 0x98) (read32 disc 0x90 * read32 disc 0x94 % 2 ^ 32) ∧
      (read64 disc 0x98 + read32 disc 0x90 * read32 disc 0x94 % 2 ^ 32 ≤ file.length →
        ∀ index < read32 disc 0x90,
          index * read32 disc 0x94 % 2 ^ 32 + 48 ≤ read32 disc 0x90 * read32 disc 0x94 % 2 ^ 32)

/-- no table that is read wraps; each is read when the one before it is there -/
def TablesBounded (rvz : Bool) (disc : List UInt8) : Prop :=
  ¬Wraps file (read64 disc 0xC8) (read32 disc 0xD0) ∧
    (TableThere file (read64 disc 0xC8) (read32 disc 0xD0)
        (read32 disc 0xC4 * groupEntrySize rvz) →
      (read32 disc 0xB4 ≠ 0 → ¬Wraps file (read64 disc 0xB8) (read32 disc 0xC0)) ∧
      ((read32 disc 0xB4 = 0 ∨ TableThere file (read64 disc 0xB8) (read32 disc 0xC0)
          (read32 disc 0xB4 * kRawDataEntrySize)) → PartitionsBounded file disc))

def discHeader : List UInt8 :=
  slice file kFileHeaderSize (read32 (slice file 0 kFileHeaderSize) 0x0C)

def isRvz : Bool := decide ((slice file 0 kFileHeaderSize).take 4 = [0x52, 0x56, 0x5A, 0x01])

/-- the headers are those of such a file, and are there -/
structure Described : Prop where
  header : kFileHeaderSize ≤ file.length
  magic : (slice file 0 kFileHeaderSize).take 4 = [0x57, 0x49, 0x41, 0x01] ∨ isRvz file = true
  long : kDiscSize ≤ read32 (slice file 0 kFileHeaderSize) 0x0C
  disc : kFileHeaderSize + read32 (slice file 0 kFileHeaderSize) 0x0C ≤ file.length
  chunk : chunkSizeOk (read32 (discHeader file) 0x0C)

def OpenBounded : Prop := Described file → TablesBounded file (isRvz file) (discHeader file)

/-! ## reads -/

variable {file decompressor} {offset size : Nat}

theorem word32At_of_le {bytes : List UInt8} {i : Nat} (h : i + 4 ≤ bytes.length) :
    word32At bytes i = .ok (read32 bytes i) := by
  unfold word32At
  rw [within_of_le h]
  rfl

theorem word64At_of_le {bytes : List UInt8} {i : Nat} (h : i + 8 ≤ bytes.length) :
    word64At bytes i = .ok (read64 bytes i) := by
  unfold word64At
  rw [within_of_le h]
  rfl

theorem readMemoryChecked_of_le (hfile : file.length < 2 ^ 64) (h : offset + size ≤ file.length) :
    readMemoryChecked file offset size = .ok (slice file offset size) := by
  unfold readMemoryChecked
  rw [require_pos (by rw [Nat.mod_eq_of_lt (by omega)]; omega), ok_bind, within_of_le h]
  rfl

theorem readMemoryChecked_of_wraps (hfile : file.length < 2 ^ 64) (hoffset : offset < 2 ^ 64)
    (hsize : size < 2 ^ 32) (h : Wraps file offset size) :
    readMemoryChecked file offset size = .error .outside := by
  obtain ⟨hpos, hle, hend⟩ := h
  unfold readMemoryChecked
  rw [require_pos (by omega), ok_bind, within_of_lt hpos (by omega)]
  rfl

theorem readMemoryChecked_of_lt (hoffset : offset < 2 ^ 64) (hsize : size < 2 ^ 32)
    (h : ¬Wraps file offset size) (hlt : file.length < offset + size) :
    readMemoryChecked file offset size = .error .refused := by
  unfold Wraps at h
  unfold readMemoryChecked
  rw [require_neg (by omega)]
  rfl

theorem readMemoryChecked_safe_iff (hfile : file.length < 2 ^ 64) (hoffset : offset < 2 ^ 64)
    (hsize : size < 2 ^ 32) :
    Safe (readMemoryChecked file offset size) ↔ ¬Wraps file offset size := by
  by_cases hwraps : Wraps file offset size
  · rw [readMemoryChecked_of_wraps hfile hoffset hsize hwraps]
    exact ⟨fun h => absurd h not_safe_outside, fun h => absurd hwraps h⟩
  · refine ⟨fun _ => hwraps, fun _ => ?_⟩
    rcases Nat.lt_or_ge file.length (offset + size) with hlt | hle
    · rw [readMemoryChecked_of_lt hoffset hsize hwraps hlt]
      exact safe_refused
    · rw [readMemoryChecked_of_le hfile hle]
      exact safe_ok _

theorem readMemoryChecked_ok_iff (hfile : file.length < 2 ^ 64) (hoffset : offset < 2 ^ 64)
    (hsize : size < 2 ^ 32) {bytes : List UInt8} :
    readMemoryChecked file offset size = .ok bytes ↔
      offset + size ≤ file.length ∧ slice file offset size = bytes := by
  rcases Nat.lt_or_ge file.length (offset + size) with hlt | hle
  · refine ⟨fun h => ?_, fun h => by omega⟩
    by_cases hwraps : Wraps file offset size
    · rw [readMemoryChecked_of_wraps hfile hoffset hsize hwraps] at h
      cases h
    · rw [readMemoryChecked_of_lt hoffset hsize hwraps hlt] at h
      cases h
  · rw [readMemoryChecked_of_le hfile hle]
    exact ⟨fun h => ⟨hle, Except.ok.inj h⟩, fun h => congrArg Except.ok h.2⟩

theorem plainChecked_safe_iff (hfile : file.length < 2 ^ 64) (hoffset : offset < 2 ^ 64)
    (hsize : size < 2 ^ 32) (expanded : Nat) :
    Safe (plainChecked file decompressor .none offset size expanded) ↔
      ¬Wraps file offset size := by
  unfold plainChecked
  rw [safe_require_bind, safe_bind_iff, readMemoryChecked_safe_iff hfile hoffset hsize]
  refine ⟨fun h hwraps => ?_, fun h _ => ⟨h, fun raw _ => ?_⟩⟩
  · have hstored : size ≠ 0 := by have := hwraps.1; omega
    exact (h hstored).1 hwraps
  · rw [if_pos rfl, safe_require_bind]
    exact fun _ => safe_ok raw

theorem plainChecked_ok_iff (hfile : file.length < 2 ^ 64) (hoffset : offset < 2 ^ 64)
    (hsize : size < 2 ^ 32) {expanded : Nat} {table : List UInt8} :
    plainChecked file decompressor .none offset size expanded = .ok table ↔
      TableThere file offset size expanded ∧ slice file offset size = table := by
  unfold plainChecked TableThere
  by_cases hstored : size ≠ 0
  · rw [require_pos hstored, ok_bind]
    by_cases hle : offset + size ≤ file.length
    · have hlength : (slice file offset size).length = size := length_slice hle
      rw [readMemoryChecked_of_le hfile hle, ok_bind, if_pos rfl, hlength]
      by_cases hexpanded : expanded ≤ size
      · rw [require_pos hexpanded, ok_bind]
        exact ⟨fun h => ⟨⟨hstored, hle, hexpanded⟩, Except.ok.inj h⟩,
          fun h => congrArg Except.ok h.2⟩
      · rw [require_neg hexpanded, error_bind]
        exact ⟨fun h => (by cases h), fun h => absurd h.1.2.2 hexpanded⟩
    · refine ⟨fun h => ?_, fun h => absurd h.1.2.1 hle⟩
      cases hraw : readMemoryChecked file offset size with
      | error stop =>
        rw [hraw, error_bind] at h
        cases h
      | ok raw => exact absurd ((readMemoryChecked_ok_iff hfile hoffset hsize).mp hraw).1 hle
  · rw [require_neg hstored, error_bind]
    exact ⟨fun h => (by cases h), fun h => absurd h.1.1 hstored⟩

/-! ## tables -/

theorem within_bind {β : Type} (length offset size : Nat) (value : β) :
    (within length offset size >>= fun _ => .ok value) =
      if size = 0 ∨ offset + size ≤ length then .ok value else .error .outside := by
  unfold within
  split <;> rfl

theorem entriesChecked_eq {β : Type} (length size entries : Nat) (value : Nat → β) :
    ((List.range entries).mapM fun index => do
        within length (index * size) size
        return value index) =
      if ∀ index < entries, size = 0 ∨ index * size + size ≤ length then
        .ok ((List.range entries).map value)
      else .error .outside := by
  show (List.range entries).mapM (fun index =>
    within length (index * size) size >>= fun _ => .ok (value index)) = _
  simp only [within_bind]
  rw [mapM_checked]
  simp only [List.mem_range]

theorem entriesChecked_of_le {β : Type} {length size entries : Nat} (value : Nat → β)
    (h : entries * size ≤ length) :
    ((List.range entries).mapM fun index => do
        within length (index * size) size
        return value index) = .ok ((List.range entries).map value) := by
  rw [entriesChecked_eq, if_pos]
  intro index hindex
  have hmul := Nat.mul_le_mul_right size (show index + 1 ≤ entries from hindex)
  rw [Nat.succ_mul] at hmul
  exact .inr (hmul.trans h)

theorem groupsChecked_eq {rvz : Bool} {groups : Nat} {table : List UInt8}
    (h : groups * groupEntrySize rvz ≤ table.length) :
    groupsChecked rvz groups table =
      .ok ((List.range groups).map (readGroupEntry rvz table)) := entriesChecked_of_le _ h

theorem rawEntriesChecked_eq {chunk : Nat} (hchunk : 0 < chunk) {entries : Nat}
    {table : List UInt8} (h : entries * kRawDataEntrySize ≤ table.length) :
    rawEntriesChecked chunk hchunk entries table =
      .ok ((List.range entries).map (readRawEntry chunk hchunk table)) := entriesChecked_of_le _ h

theorem partitionsChecked_eq {chunkSize : Nat} (hchunk : chunkSizeOk chunkSize)
    (partitions entry : Nat) (table : List UInt8) :
    ((List.range partitions).mapM fun index => do
        within table.length (index * entry % 2 ^ 32 + 16) 32
        return segments chunkSize hchunk table (index * entry % 2 ^ 32)) =
      if ∀ index < partitions, index * entry % 2 ^ 32 + 48 ≤ table.length then
        .ok ((List.range partitions).map fun index =>
          segments chunkSize hchunk table (index * entry % 2 ^ 32))
      else .error .outside := by
  show (List.range partitions).mapM (fun index =>
    within table.length (index * entry % 2 ^ 32 + 16) 32 >>= fun _ =>
      .ok (segments chunkSize hchunk table (index * entry % 2 ^ 32))) = _
  simp only [within_bind]
  rw [mapM_checked]
  congr 1
  refine propext (forall_congr' fun index => ?_)
  rw [List.mem_range]
  refine imp_congr_right fun _ => ?_
  omega

theorem readPartitionsChecked_safe_iff (hfile : file.length < 2 ^ 64) {chunkSize : Nat}
    (hchunk : chunkSizeOk chunkSize) {disc : List UInt8} (hdisc : kDiscSize ≤ disc.length) :
    Safe (readPartitionsChecked file chunkSize hchunk disc) ↔ PartitionsBounded file disc := by
  have hdisc : 0xDC ≤ disc.length := hdisc
  have hproduct : read32 disc 0x90 * read32 disc 0x94 % 2 ^ 32 < 2 ^ 32 := Nat.mod_lt _ (by decide)
  unfold readPartitionsChecked PartitionsBounded
  rw [word32At_of_le (by omega), ok_bind, word32At_of_le (by omega), ok_bind]
  by_cases hused : read32 disc 0x90 ≠ 0 ∧ kPartitionEntrySize ≤ read32 disc 0x94
  · rw [if_pos hused, word64At_of_le (by omega), ok_bind, safe_bind_iff,
      readMemoryChecked_safe_iff hfile (read64_lt _ _) hproduct]
    refine ⟨fun h _ _ => ⟨h.1, fun hle => ?_⟩, fun h => ⟨(h hused.1 hused.2).1, ?_⟩⟩
    · have hsafe := h.2 _ (readMemoryChecked_of_le hfile hle)
      rw [partitionsChecked_eq, length_slice hle] at hsafe
      by_contra hout
      rw [if_neg hout, error_bind] at hsafe
      exact not_safe_outside hsafe
    · intro table htable
      obtain ⟨hle, rfl⟩ := (readMemoryChecked_ok_iff hfile (read64_lt _ _) hproduct).mp htable
      rw [partitionsChecked_eq, length_slice hle, if_pos ((h hused.1 hused.2).2 hle), ok_bind]
      exact safe_ok _
  · rw [if_neg hused]
    exact ⟨fun _ hp he => absurd ⟨hp, he⟩ hused, fun _ => safe_ok []⟩

theorem rawTableChecked_safe_iff (hfile : file.length < 2 ^ 64) (hoffset : offset < 2 ^ 64)
    (hsize : size < 2 ^ 32) (entries : Nat) :
    Safe (rawTableChecked file decompressor .none entries offset size) ↔
      (entries ≠ 0 → ¬Wraps file offset size) := by
  unfold rawTableChecked
  by_cases hentries : entries = 0
  · rw [if_pos hentries]
    exact ⟨fun _ h => absurd hentries h, fun _ => safe_ok []⟩
  · rw [if_neg hentries, plainChecked_safe_iff hfile hoffset hsize]
    exact ⟨fun h _ => h, fun h => h hentries⟩

theorem rawTableChecked_ok (hfile : file.length < 2 ^ 64) (hoffset : offset < 2 ^ 64)
    (hsize : size < 2 ^ 32) {entries : Nat} {table : List UInt8}
    (h : rawTableChecked file decompressor .none entries offset size = .ok table) :
    (entries = 0 ∨ TableThere file offset size (entries * kRawDataEntrySize)) ∧
      entries * kRawDataEntrySize ≤ table.length := by
  unfold rawTableChecked at h
  by_cases hentries : entries = 0
  · refine ⟨.inl hentries, ?_⟩
    rw [hentries, Nat.zero_mul]
    exact Nat.zero_le _
  · rw [if_neg hentries] at h
    obtain ⟨hthere, rfl⟩ := (plainChecked_ok_iff hfile hoffset hsize).mp h
    refine ⟨.inr hthere, ?_⟩
    rw [length_slice hthere.2.1]
    exact hthere.2.2

variable (decompressor) in
theorem rawTableChecked_of_there (hfile : file.length < 2 ^ 64) (hoffset : offset < 2 ^ 64)
    (hsize : size < 2 ^ 32) {entries : Nat}
    (h : entries = 0 ∨ TableThere file offset size (entries * kRawDataEntrySize)) :
    ∃ table, rawTableChecked file decompressor .none entries offset size = .ok table := by
  unfold rawTableChecked
  by_cases hentries : entries = 0
  · exact ⟨[], if_pos hentries⟩
  · refine ⟨slice file offset size, ?_⟩
    rw [if_neg hentries]
    exact (plainChecked_ok_iff hfile hoffset hsize).mpr ⟨h.resolve_left hentries, rfl⟩

/-! ## opening -/

variable {rvz : Bool} {disc : List UInt8}

theorem readTablesChecked_eq (hdisc : kDiscSize ≤ disc.length)
    (hnone : Compression.ofNumber (read32 disc 0x04) = .none)
    (hchunk : chunkSizeOk (read32 disc 0x0C)) :
    readTablesChecked file decompressor rvz disc =
      (plainChecked file decompressor .none (read64 disc 0xC8) (read32 disc 0xD0)
        (read32 disc 0xC4 * groupEntrySize rvz) >>= fun table =>
      groupsChecked rvz (read32 disc 0xC4) table >>= fun groups =>
      rawTableChecked file decompressor .none (read32 disc 0xB4) (read64 disc 0xB8)
        (read32 disc 0xC0) >>= fun rawTable =>
      rawEntriesChecked (read32 disc 0x0C) hchunk.pos (read32 disc 0xB4) rawTable >>= fun regions =>
      readPartitionsChecked file (read32 disc 0x0C) hchunk disc >>= fun partitions =>
      .ok {
        file := .fromMemory file
        decompressor := decompressor
        compression := .none
        groups := groups
        regions := regions ++ partitions }) := by
  have hdisc : 0xDC ≤ disc.length := hdisc
  unfold readTablesChecked
  rw [word32At_of_le (by omega), ok_bind, word32At_of_le (by omega), ok_bind,
    within_of_le (by omega), ok_bind, dif_pos hchunk, word32At_of_le (by omega), ok_bind,
    word64At_of_le (by omega), ok_bind, word32At_of_le (by omega), ok_bind,
    within_of_le (by omega), ok_bind, word32At_of_le (by omega), word64At_of_le (by omega),
    word32At_of_le (by omega), hnone]
  refine bind_congr fun table => bind_congr fun groups => ?_
  rw [ok_bind, ok_bind, ok_bind]
  rfl

theorem readTablesChecked_of_chunk (hdisc : kDiscSize ≤ disc.length)
    (hchunk : ¬chunkSizeOk (read32 disc 0x0C)) :
    readTablesChecked file decompressor rvz disc = .error .refused := by
  have hdisc : 0xDC ≤ disc.length := hdisc
  unfold readTablesChecked
  rw [word32At_of_le (by omega), ok_bind, word32At_of_le (by omega), ok_bind,
    within_of_le (by omega), ok_bind, dif_neg hchunk]

theorem readTablesChecked_safe_iff (hfile : file.length < 2 ^ 64)
    (hdisc : kDiscSize ≤ disc.length)
    (hnone : Compression.ofNumber (read32 disc 0x04) = .none)
    (hchunk : chunkSizeOk (read32 disc 0x0C)) :
    Safe (readTablesChecked file decompressor rvz disc) ↔ TablesBounded file rvz disc := by
  have hsize : read32 disc 0xD0 < 2 ^ 32 := read32_lt _ _
  have hoffset : read64 disc 0xC8 < 2 ^ 64 := read64_lt _ _
  have hrawSize : read32 disc 0xC0 < 2 ^ 32 := read32_lt _ _
  have hrawOffset : read64 disc 0xB8 < 2 ^ 64 := read64_lt _ _
  unfold TablesBounded
  rw [readTablesChecked_eq hdisc hnone hchunk, safe_bind_iff,
    plainChecked_safe_iff hfile hoffset hsize]
  refine and_congr_right fun _ => ⟨fun h hthere => ?_, fun h table htable => ?_⟩
  · have hsafe := h _ ((plainChecked_ok_iff hfile hoffset hsize).mpr ⟨hthere, rfl⟩)
    rw [groupsChecked_eq (by rw [length_slice hthere.2.1]; exact hthere.2.2), ok_bind,
      safe_bind_iff, rawTableChecked_safe_iff hfile hrawOffset hrawSize] at hsafe
    refine ⟨hsafe.1, fun hraw => ?_⟩
    obtain ⟨rawTable, hrawTable⟩ :=
      rawTableChecked_of_there decompressor hfile hrawOffset hrawSize hraw
    have hsafe := hsafe.2 rawTable hrawTable
    rw [rawEntriesChecked_eq hchunk.pos (rawTableChecked_ok hfile hrawOffset hrawSize hrawTable).2,
      ok_bind, safe_bind_iff] at hsafe
    exact (readPartitionsChecked_safe_iff hfile hchunk hdisc).mp hsafe.1
  · obtain ⟨hthere, rfl⟩ := (plainChecked_ok_iff hfile hoffset hsize).mp htable
    rw [groupsChecked_eq (by rw [length_slice hthere.2.1]; exact hthere.2.2), ok_bind,
      safe_bind_iff, rawTableChecked_safe_iff hfile hrawOffset hrawSize]
    refine ⟨(h hthere).1, fun rawTable hrawTable => ?_⟩
    obtain ⟨hraw, hlength⟩ := rawTableChecked_ok hfile hrawOffset hrawSize hrawTable
    rw [rawEntriesChecked_eq hchunk.pos hlength, ok_bind, safe_bind_iff,
      readPartitionsChecked_safe_iff hfile hchunk hdisc]
    exact ⟨(h hthere).2 hraw, fun partitions _ => safe_ok _⟩

/-- **no access is outside the file or a table just when no range that is read wraps around and the
places of the partition entries do not either** -/
theorem openChecked_safe_iff (file : List UInt8) (decompressor : Decompressor)
    (hfile : file.length < 2 ^ 64)
    (hnone : Compression.ofNumber (read32 (discHeader file) 0x04) = .none) :
    Safe (openChecked file decompressor) ↔ OpenBounded file := by
  unfold OpenBounded openChecked
  by_cases hheader : kFileHeaderSize ≤ file.length
  · have hheaderLength : (slice file 0 kFileHeaderSize).length = kFileHeaderSize :=
      length_slice (by omega)
    rw [readMemoryChecked_of_le hfile (by omega), ok_bind]
    show Safe (require _ >>= fun _ => word32At _ _ >>= fun described => _) ↔ _
    rw [safe_require_bind, word32At_of_le (by rw [hheaderLength]; decide), ok_bind,
      safe_require_bind]
    by_cases hdisc : kFileHeaderSize + read32 (slice file 0 kFileHeaderSize) 0x0C ≤ file.length
    · rw [readMemoryChecked_of_le hfile hdisc, ok_bind]
      by_cases hchunk : chunkSizeOk (read32 (discHeader file) 0x0C)
      · refine ⟨fun h hd => ?_, fun h hmagic hlong => ?_⟩
        · have hlength : kDiscSize ≤ (discHeader file).length :=
            hd.long.trans (length_slice hdisc).ge
          have hmagic := hd.magic.imp_right fun h => of_decide_eq_true h
          exact (readTablesChecked_safe_iff hfile hlength hnone hchunk).mp (h hmagic hd.long)
        · have hlength : kDiscSize ≤ (discHeader file).length :=
            le_of_le_of_eq hlong (length_slice hdisc).symm
          refine (readTablesChecked_safe_iff hfile hlength hnone hchunk).mpr (h ?_)
          exact ⟨hheader, hmagic.imp_right fun h => decide_eq_true h, hlong, hdisc, hchunk⟩
      · refine ⟨fun _ hd => absurd hd.chunk hchunk, fun _ _ hlong => ?_⟩
        have hlength : kDiscSize ≤ (discHeader file).length :=
          le_of_le_of_eq hlong (length_slice hdisc).symm
        show Safe (readTablesChecked file decompressor _ (discHeader file))
        rw [readTablesChecked_of_chunk hlength hchunk]
        exact safe_refused
    · refine ⟨fun _ hd => absurd hd.disc hdisc, fun _ _ hlong => ?_⟩
      have hsize := read32_lt (slice file 0 kFileHeaderSize) 0x0C
      have hsmall : kFileHeaderSize = 0x48 := rfl
      rw [readMemoryChecked_of_lt (by decide) hsize (fun h => by have := h.2.1; omega) (by omega)]
      exact safe_refused
  · refine ⟨fun _ hd => absurd hd.header hheader, fun _ => ?_⟩
    rw [readMemoryChecked_of_lt (by decide) (by decide) (fun h => ?_) (by omega)]
    · exact safe_refused
    · have hwraps := h.2.1
      revert hwraps
      decide

/-- a file of one header, with these words of the second header: a compression of 0, a chunk of a
cluster, and a group table of one byte at `groupOffset` -/
def tableFile (partitions entry : Nat) (groupOffset : List UInt8) : List UInt8 :=
  [0x52, 0x56, 0x5A, 0x01] ++ List.replicate 8 0 ++ word32 0xDC ++ List.replicate 56 0 ++
    List.replicate 12 0 ++ word32 0x8000 ++ List.replicate 0x80 0 ++
    word32 partitions ++ word32 entry ++ List.replicate 48 0 ++ groupOffset ++
    word32 1 ++ List.replicate 8 0

/-- a partition of 48 bytes from the start of the file -/
theorem openChecked_safe_iff_small :
    Safe (openChecked (tableFile 1 48 (List.replicate 8 0)) none) ∧
      OpenBounded (tableFile 1 48 (List.replicate 8 0)) := by
  have hsafe : Safe (openChecked (tableFile 1 48 (List.replicate 8 0)) none) := by decide +kernel
  exact ⟨hsafe, (openChecked_safe_iff _ none (by decide +kernel) (by decide +kernel)).mp hsafe⟩

/-- 256 partitions with entries of 2^24 bytes have a table of no bytes, and a group table of one
byte at 2^64 - 1 passes the check of the source -/
theorem openChecked_outside :
    ¬Safe (openChecked (tableFile 0x100 0x1000000 (List.replicate 8 0)) none) ∧
      ¬Safe (openChecked (tableFile 0 0 (List.replicate 8 0xFF)) none) :=
  ⟨by decide +kernel, by decide +kernel⟩

end Rvz

end DolTranslator.Disc
