import DolTranslator.Disc.Source
import DolTranslator.Transition.Events

/-!
# GCZ files

A disc is cut into blocks of one size; a table says where each begins and whether it was deflated.
The last block read is kept.

* `Gcz.openFile`, `Gcz.readThrough`   the reader;
* `Writer`   a file written by the format's rules;
* `reads_back_iff`   when such a file reads back whole.
-/

namespace DolTranslator.Disc

open Streams Transition

/-! ## the reader -/

structure Gcz where
  file : Source
  decompressor : Decompressor
  blockSize : Nat
  /-- where each block is, with a flag in the top bit -/
  blocks : List Nat
  dataAt : Nat

def kMagic : Nat := 0xB10BC001

/-- `mBlockBytes` and `mBlockIndex` -/
structure BlockCache where
  blockBytes : List UInt8
  blockIndex : Nat

def BlockCache.empty : BlockCache := ⟨[], 0xFFFFFFFFFFFFFFFF⟩

namespace Gcz

/-- `Gcz::Open` -/
def openFile (file : Source) (decompressor : Decompressor) : Option Gcz := do
  let header ← file.read 0 0x20
  if read32LE header 0 ≠ kMagic then none
  else
    let blockSize := read32LE header 0x18
    let blocks := read32LE header 0x1C
    if blockSize = 0 ∨ blocks = 0 ∨ 8 * 1024 * 1024 < blocks then none
    else
      let table ← file.read 0x20 (blocks * 8)
      return {
        file := file
        decompressor := decompressor
        blockSize := blockSize
        blocks := (List.range blocks).map fun index => read64LE table (index * 8)
        dataAt := 0x20 + blocks * 8 + blocks * 4 }

/-- was the block stored as it is? -/
def isPlain (entry : Nat) : Prop := entry / 2 ^ 63 % 2 = 1

instance (entry : Nat) : Decidable (isPlain entry) := inferInstanceAs (Decidable (_ = _))

/-- where the block after `index` begins; there is no more table to consult for the last -/
def next (img : Gcz) (index pos : Nat) : Nat :=
  match img.blocks[index + 1]? with
  | some entry => img.dataAt + entry % 2 ^ 63
  | none => pos + img.blockSize

/-- the part of `ReadBlock` that reads the file -/
def expandBlock (img : Gcz) (index entry : Nat) : Option (List UInt8) :=
  let pos := img.dataAt + entry % 2 ^ 63
  let next := img.next index pos
  if next ≤ pos then none
  else
    match img.file.read pos (min (next - pos) (img.blockSize + 0x1000)) with
    | none => none
    | some raw =>
      if isPlain entry then some (resize raw img.blockSize)
      else
        match img.decompressor with
        | none => none
        | some inflate =>
          let inflated := inflate .zlib raw img.blockSize
          if inflated.written = 0 then none else some (resize inflated.bytes img.blockSize)

/-- `Gcz::ReadBlock` -/
def readBlock (img : Gcz) (cache : BlockCache) (index : Nat) : BlockCache × Option (List UInt8) :=
  match img.blocks[index]? with
  | none => (cache, none)
  | some entry =>
    if cache.blockIndex = index ∧ cache.blockBytes.length = img.blockSize then
      (cache, some cache.blockBytes)
    else
      match img.expandBlock index entry with
      | none => (cache, none)
      | some out => (⟨out, index⟩, some out)

/-- the body of the loop of `ReadThrough` -/
def readPiece (img : Gcz) (cache : BlockCache) (offset size : Nat) :
    BlockCache × Option (List UInt8) :=
  let within := offset % img.blockSize
  let take := min size (img.blockSize - within)
  match img.readBlock cache (offset / img.blockSize) with
  | (cache, none) => (cache, none)
  | (cache, some block) =>
    if block.length ≤ within then (cache, none)
    else
      let available := min take (block.length - within)
      (cache, some (slice block within available ++ List.replicate (take - available) 0))

/-- `Gcz::ReadThrough` -/
def readThrough (img : Gcz) (cache : BlockCache) (offset size : Nat) :
    BlockCache × Option (List UInt8) :=
  readAll img.readPiece cache offset size

/-- the caches there can be after any reads -/
def Reached (img : Gcz) : BlockCache → Prop :=
  Driven (· = .empty) (fun _ _ => True)
    fun cache (range : Nat × Nat) cache' => (img.readThrough cache range.1 range.2).1 = cache'

end Gcz

/-! ## the writer -/

/-- a deflater, and the inflater that takes back what it made; a deflated stream has a header, so it
is not empty -/
structure Codec where
  deflate : List UInt8 → List UInt8
  inflate : Compression → List UInt8 → Nat → Inflated
  inflate_deflate : ∀ bytes room, bytes.length ≤ room →
    inflate .zlib (deflate bytes) room = ⟨bytes, bytes.length⟩
  deflate_ne_nil : ∀ bytes, deflate bytes ≠ []

/-- the bytes of a block before they are stored; the last one may be filled up with zeros -/
def discBlock (disc : List UInt8) (blockSize : Nat) (padded : Bool) (i : Nat) : List UInt8 :=
  if padded then resize (slice disc (i * blockSize) blockSize) blockSize
  else slice disc (i * blockSize) blockSize

/-- a disc and how it is to be written: a block is deflated only where that makes it smaller -/
structure Writer (codec : Codec) where
  disc : List UInt8
  console : Nat
  blockSize : Nat
  padded : Bool
  deflated : Nat → Bool
  checksum : List UInt8 → Nat
  blockSize_pos : 0 < blockSize
  blockSize_lt : blockSize < 2 ^ 32
  blocks_lt : (disc.length + blockSize - 1) / blockSize < 2 ^ 32
  smaller : ∀ i, deflated i = true →
    (codec.deflate (discBlock disc blockSize padded i)).length <
      (discBlock disc blockSize padded i).length

namespace Writer

variable {codec : Codec} (w : Writer codec)

def blocks : Nat := (w.disc.length + w.blockSize - 1) / w.blockSize

def block (i : Nat) : List UInt8 := discBlock w.disc w.blockSize w.padded i

def stored (i : Nat) : List UInt8 :=
  if w.deflated i then codec.deflate (w.block i) else w.block i

def entry (i : Nat) : Nat := start w.stored i + if w.deflated i then 0 else 2 ^ 63

def header : List UInt8 :=
  word32LE kMagic ++ word32LE w.console ++ word64LE (start w.stored w.blocks) ++
    word64LE w.disc.length ++ word32LE w.blockSize ++ word32LE w.blocks

def table : List UInt8 := records (fun i => word64LE (w.entry i)) w.blocks

def checksums : List UInt8 := records (fun i => word32LE (w.checksum (w.stored i))) w.blocks

def file : List UInt8 := w.header ++ w.table ++ w.checksums ++ records w.stored w.blocks

/-- every range inside the disc reads back, after any other reads -/
def ReadsBack : Prop :=
  ∃ img, Gcz.openFile (.fromMemory w.file) (some codec.inflate) = some img ∧
    ∀ cache, img.Reached cache → ∀ offset n, offset + n ≤ w.disc.length →
      (img.readThrough cache offset n).2 = some (slice w.disc offset n)

/-! ## the file of a writer -/

variable {i : Nat}

theorem lt_blocks_iff : i < w.blocks ↔ i * w.blockSize < w.disc.length := by
  have hpos := w.blockSize_pos
  unfold blocks
  rw [← Nat.succ_le_iff, Nat.le_div_iff_mul_le hpos, Nat.succ_mul]
  omega

theorem length_block_le (i : Nat) : (w.block i).length ≤ w.blockSize := by
  unfold block discBlock
  split
  · exact (length_resize _ _).le
  · unfold slice
    rw [List.length_take]
    exact Nat.min_le_left _ _

theorem length_block_pos (hi : i < w.blocks) : 0 < (w.block i).length := by
  have hlt := w.lt_blocks_iff.mp hi
  have hpos := w.blockSize_pos
  unfold block discBlock
  split
  · rw [length_resize]
    exact hpos
  · unfold slice
    rw [List.length_take, List.length_drop]
    omega

theorem length_stored_le (i : Nat) : (w.stored i).length ≤ w.blockSize := by
  have hblock := w.length_block_le i
  unfold stored
  split
  · next h =>
    have hsmaller := w.smaller i h
    have : (codec.deflate (w.block i)).length < (w.block i).length := hsmaller
    omega
  · exact hblock

theorem length_stored_pos (hi : i < w.blocks) : 0 < (w.stored i).length := by
  unfold stored
  split
  · exact List.length_pos_of_ne_nil (codec.deflate_ne_nil _)
  · exact w.length_block_pos hi

theorem start_stored_le (i : Nat) : start w.stored i ≤ i * w.blockSize := by
  induction i with
  | zero => exact Nat.zero_le _
  | succ i ih =>
    have hle := w.length_stored_le i
    rw [start_succ, Nat.succ_mul]
    omega

theorem start_stored_lt (hi : i ≤ 8 * 1024 * 1024) : start w.stored i < 2 ^ 63 := by
  have hle := w.start_stored_le i
  have hsize := w.blockSize_lt
  have hmul : i * w.blockSize ≤ 8 * 1024 * 1024 * 2 ^ 32 := Nat.mul_le_mul hi hsize.le
  omega

theorem entry_start (hi : i ≤ 8 * 1024 * 1024) :
    w.entry i % 2 ^ 63 = start w.stored i := by
  have hlt := w.start_stored_lt hi
  unfold entry
  split <;> omega

theorem isPlain_entry (hi : i ≤ 8 * 1024 * 1024) :
    Gcz.isPlain (w.entry i) ↔ w.deflated i = false := by
  have hlt := w.start_stored_lt hi
  unfold Gcz.isPlain entry
  cases w.deflated i
  · simp only [Bool.false_eq_true, if_false, iff_true]
    omega
  · simp only [if_true, Bool.true_eq_false, iff_false]
    omega

theorem entry_lt (hi : i ≤ 8 * 1024 * 1024) : w.entry i < 2 ^ 64 := by
  have hlt := w.start_stored_lt hi
  unfold entry
  split <;> omega

@[simp] theorem length_header : w.header.length = 0x20 := rfl

theorem length_table : w.table.length = w.blocks * 8 :=
  length_records (k := 8) (fun i => show (word64LE (w.entry i)).length = 8 from rfl) w.blocks

theorem length_checksums : w.checksums.length = w.blocks * 4 :=
  length_records (k := 4)
    (fun i => show (word32LE (w.checksum (w.stored i))).length = 4 from rfl) w.blocks

def dataAt : Nat := 0x20 + w.blocks * 8 + w.blocks * 4

theorem length_file : w.file.length = w.dataAt + start w.stored w.blocks := by
  unfold file dataAt start
  rw [List.length_append, List.length_append, List.length_append, length_header, length_table,
    length_checksums]

theorem slice_header : slice w.file 0 0x20 = w.header := by
  unfold file
  rw [List.append_assoc, List.append_assoc]
  exact slice_prefix w.header _

theorem slice_table : slice w.file 0x20 (w.blocks * 8) = w.table := by
  unfold file
  rw [List.append_assoc]
  have h := slice_middle w.header w.table (w.checksums ++ records w.stored w.blocks)
  rwa [length_header, length_table] at h

theorem slice_stored {n : Nat} (hi : i < w.blocks) (hn : n = (w.stored i).length) :
    slice w.file (w.dataAt + start w.stored i) n = w.stored i := by
  subst hn
  have hat : w.dataAt = (w.header ++ w.table ++ w.checksums).length := by
    rw [List.length_append, List.length_append, length_header, length_table, length_checksums]
    rfl
  unfold file
  rw [hat, slice_append_right, slice_records _ hi]

def image : Gcz where
  file := .fromMemory w.file
  decompressor := some codec.inflate
  blockSize := w.blockSize
  blocks := (List.range w.blocks).map w.entry
  dataAt := w.dataAt

theorem read_header : (Source.fromMemory w.file).read 0 0x20 = some w.header := by
  have hlen := w.length_file
  unfold dataAt at hlen
  show readMemory w.file 0 0x20 = _
  rw [readMemory_of_le (by omega), slice_header]

theorem read_table : (Source.fromMemory w.file).read 0x20 (w.blocks * 8) = some w.table := by
  have hlen := w.length_file
  unfold dataAt at hlen
  show readMemory w.file 0x20 (w.blocks * 8) = _
  rw [readMemory_of_le (by omega), slice_table]

theorem read_entry (hi : i < w.blocks) (hmax : w.blocks ≤ 8 * 1024 * 1024) :
    read64LE w.table (i * 8) = w.entry i := by
  have hslice := slice_records (fun i => word64LE (w.entry i)) hi
  rw [start_const (k := 8) (fun _ => rfl)] at hslice
  exact read64LE_word64LE (w.entry_lt (by omega)) hslice

theorem read_header_words : read32LE w.header 0 = kMagic ∧ read32LE w.header 0x18 = w.blockSize ∧
    read32LE w.header 0x1C = w.blocks :=
  ⟨read32LE_word32LE (by decide) rfl, read32LE_word32LE w.blockSize_lt rfl,
    read32LE_word32LE w.blocks_lt rfl⟩

theorem openFile_none (h : w.blocks = 0 ∨ 8 * 1024 * 1024 < w.blocks) :
    Gcz.openFile (.fromMemory w.file) (some codec.inflate) = none := by
  obtain ⟨hmagic, -, hcount⟩ := w.read_header_words
  unfold Gcz.openFile
  rw [read_header, Option.bind_eq_bind, Option.bind_some, if_neg (not_not_intro hmagic)]
  dsimp only
  rw [hcount, if_pos (.inr h)]

theorem openFile_some (h0 : 0 < w.blocks) (hmax : w.blocks ≤ 8 * 1024 * 1024) :
    Gcz.openFile (.fromMemory w.file) (some codec.inflate) = some w.image := by
  obtain ⟨hmagic, hsize, hcount⟩ := w.read_header_words
  have hpos := w.blockSize_pos
  have hok : ¬ (w.blockSize = 0 ∨ w.blocks = 0 ∨ 8 * 1024 * 1024 < w.blocks) := by omega
  unfold Gcz.openFile
  rw [read_header, Option.bind_eq_bind, Option.bind_some, if_neg (not_not_intro hmagic)]
  dsimp only
  rw [hcount, hsize, if_neg hok, read_table, Option.bind_some, Option.pure_def]
  unfold image dataAt
  rw [Option.some.injEq, Gcz.mk.injEq]
  refine ⟨rfl, rfl, rfl, ?_, rfl⟩
  exact List.map_congr_left fun i hi => w.read_entry (List.mem_range.mp hi) hmax

/-! ## reading it -/

theorem blocks_image (hi : i < w.blocks) : w.image.blocks[i]? = some (w.entry i) := by
  show ((List.range w.blocks).map w.entry)[i]? = _
  rw [List.getElem?_map, List.getElem?_range hi]
  rfl

theorem blocks_image_none (hi : w.blocks ≤ i) : w.image.blocks[i]? = none := by
  show ((List.range w.blocks).map w.entry)[i]? = _
  rw [List.getElem?_eq_none]
  rw [List.length_map, List.length_range]
  exact hi

def wanted (i : Nat) : List UInt8 := resize (slice w.disc (i * w.blockSize) w.blockSize) w.blockSize

theorem resize_block (i : Nat) : resize (w.block i) w.blockSize = w.wanted i := by
  unfold block discBlock wanted
  split
  · exact resize_of_length (length_resize _ _)
  · rfl

/-- is the whole of every block asked for in the file? -/
def LastWhole : Prop := (w.stored (w.blocks - 1)).length = w.blockSize

theorem expandBlock_stored (hmax : w.blocks ≤ 8 * 1024 * 1024) (hi : i < w.blocks)
    (hwhole : i + 1 = w.blocks → w.LastWhole) :
    w.image.expandBlock i (w.entry i) = some (w.wanted i) := by
  have hpos := w.length_stored_pos hi
  have hle := w.length_stored_le i
  have hstart := w.entry_start (i := i) (by omega)
  have hnext : w.image.next i (w.dataAt + start w.stored i) =
      w.dataAt + start w.stored i + (w.stored i).length := by
    unfold Gcz.next
    rcases Nat.lt_or_ge (i + 1) w.blocks with hlt | hge
    · rw [w.blocks_image hlt]
      show w.dataAt + w.entry (i + 1) % 2 ^ 63 = _
      rw [w.entry_start (by omega), start_succ, Nat.add_assoc]
    · rw [w.blocks_image_none hge]
      have hlast : w.LastWhole := hwhole (by omega)
      unfold LastWhole at hlast
      rw [show w.blocks - 1 = i by omega] at hlast
      rw [hlast]
      rfl
  have hfile : start w.stored i + (w.stored i).length ≤ start w.stored w.blocks := by
    rw [← start_succ]
    exact start_le hi
  have hread : w.image.file.read (w.dataAt + start w.stored i) (w.stored i).length =
      some (w.stored i) := by
    have hlen := w.length_file
    show readMemory w.file _ _ = _
    rw [readMemory_of_le (by omega), w.slice_stored hi rfl]
  unfold Gcz.expandBlock
  dsimp only
  rw [show w.image.dataAt = w.dataAt from rfl, hstart, hnext, if_neg (by omega),
    show w.image.blockSize = w.blockSize from rfl, Nat.add_sub_cancel_left,
    Nat.min_eq_left (by omega), hread]
  by_cases hd : w.deflated i
  · have hplain : ¬ Gcz.isPlain (w.entry i) := by
      rw [w.isPlain_entry (by omega), hd]
      decide
    have hstored : w.stored i = codec.deflate (w.block i) := if_pos hd
    have hinflate := codec.inflate_deflate (w.block i) w.blockSize (w.length_block_le i)
    simp only [if_neg hplain, show w.image.decompressor = some codec.inflate from rfl, hstored,
      hinflate, if_neg (Nat.pos_iff_ne_zero.mp (w.length_block_pos hi)), resize_block]
  · have hplain : Gcz.isPlain (w.entry i) := by
      rw [w.isPlain_entry (by omega)]
      exact Bool.eq_false_iff.mpr hd
    have hstored : w.stored i = w.block i := if_neg hd
    simp only [if_pos hplain, hstored, resize_block]

theorem expandBlock_last (h0 : 0 < w.blocks) (hmax : w.blocks ≤ 8 * 1024 * 1024)
    (hshort : ¬ w.LastWhole) :
    w.image.expandBlock (w.blocks - 1) (w.entry (w.blocks - 1)) = none := by
  have hle := w.length_stored_le (w.blocks - 1)
  have hstart := w.entry_start (i := w.blocks - 1) (by omega)
  have hpos := w.blockSize_pos
  unfold LastWhole at hshort
  have hread : w.image.file.read (w.dataAt + start w.stored (w.blocks - 1)) w.blockSize = none := by
    have hlen := w.length_file
    have hsucc := start_succ w.stored (w.blocks - 1)
    rw [Nat.sub_add_cancel h0] at hsucc
    show readMemory w.file _ _ = _
    rw [readMemory_of_lt (by omega)]
  unfold Gcz.expandBlock Gcz.next
  rw [show w.image.dataAt = w.dataAt from rfl, hstart, w.blocks_image_none (by omega)]
  show (if w.dataAt + start w.stored (w.blocks - 1) + w.blockSize ≤ _ then none else _) = none
  rw [if_neg (by omega), show w.image.blockSize = w.blockSize from rfl, Nat.add_sub_cancel_left,
    Nat.min_eq_left (by omega), hread]

/-- the cache has the block it names -/
def Holds (cache : BlockCache) : Prop :=
  ∀ i < w.blocks, cache.blockIndex = i → cache.blockBytes = w.wanted i

theorem holds_empty (hmax : w.blocks ≤ 8 * 1024 * 1024) : w.Holds .empty := by
  intro i hi h
  have hempty : (0xFFFFFFFFFFFFFFFF : Nat) = i := h
  omega

theorem length_wanted (i : Nat) : (w.wanted i).length = w.blockSize := length_resize _ _

variable {cache : BlockCache}

/-- a block that can be read: from the cache or from the file -/
theorem readBlock_some (hcache : w.Holds cache) (hi : i < w.blocks)
    (h : w.image.expandBlock i (w.entry i) = some (w.wanted i)) :
    ∃ cache', w.Holds cache' ∧ w.image.readBlock cache i = (cache', some (w.wanted i)) := by
  unfold Gcz.readBlock
  simp only [w.blocks_image hi, h]
  by_cases hhit : cache.blockIndex = i ∧ cache.blockBytes.length = w.image.blockSize
  · refine ⟨cache, hcache, ?_⟩
    rw [if_pos hhit, hcache i hi hhit.1]
  · refine ⟨⟨w.wanted i, i⟩, fun j _ hj => ?_, ?_⟩
    · obtain rfl : i = j := hj
      rfl
    · rw [if_neg hhit]

theorem readBlock_holds (hmax : w.blocks ≤ 8 * 1024 * 1024)
    (hcache : w.Holds cache) (i : Nat) : w.Holds (w.image.readBlock cache i).1 := by
  rcases Nat.lt_or_ge i w.blocks with hi | hi
  · by_cases hwhole : i + 1 = w.blocks → w.LastWhole
    · obtain ⟨cache', hcache', hread⟩ :=
        w.readBlock_some hcache hi (w.expandBlock_stored hmax hi hwhole)
      rw [hread]
      exact hcache'
    · obtain ⟨hlast, hshort⟩ := Classical.not_imp.mp hwhole
      obtain rfl : i = w.blocks - 1 := by omega
      unfold Gcz.readBlock
      simp only [w.blocks_image hi, w.expandBlock_last (by omega) hmax hshort]
      split <;> exact hcache
  · unfold Gcz.readBlock
    simp only [w.blocks_image_none hi]
    exact hcache

theorem readPiece_holds (hmax : w.blocks ≤ 8 * 1024 * 1024)
    (hcache : w.Holds cache) (offset size : Nat) :
    w.Holds (w.image.readPiece cache offset size).1 := by
  have h := w.readBlock_holds hmax hcache (offset / w.image.blockSize)
  unfold Gcz.readPiece
  dsimp only
  split
  · next cache' hread =>
    rw [hread] at h
    exact h
  · next cache' block hread =>
    rw [hread] at h
    split <;> exact h

theorem holds_of_reached (hmax : w.blocks ≤ 8 * 1024 * 1024)
    (h : w.image.Reached cache) : w.Holds cache := by
  refine Driven.invariant (fun _ h => h ▸ w.holds_empty hmax) (fun c range c' hc _ hstep => ?_) h
  subst hstep
  exact readPieces_invariant w.Holds (fun _ _ _ => True)
    (fun c offset size _ hc _ => w.readPiece_holds hmax hc offset size) hc
    (visits_of_forall _ fun _ _ _ => trivial)

theorem readBlock_last (h0 : 0 < w.blocks) (hmax : w.blocks ≤ 8 * 1024 * 1024)
    (hshort : ¬ w.LastWhole) : w.image.readBlock .empty (w.blocks - 1) = (.empty, none) := by
  have hmiss : ¬ (BlockCache.empty.blockIndex = w.blocks - 1 ∧
      BlockCache.empty.blockBytes.length = w.image.blockSize) := by
    rintro ⟨-, hsize⟩
    have hpos := w.blockSize_pos
    have hsize' : 0 = w.blockSize := hsize
    omega
  unfold Gcz.readBlock
  simp only [w.blocks_image (show w.blocks - 1 < w.blocks by omega),
    w.expandBlock_last h0 hmax hshort, if_neg hmiss]

theorem getD_wanted {j : Nat} (hj : j < w.blockSize) :
    (w.wanted i).getD j 0 = w.disc.getD (i * w.blockSize + j) 0 := by
  unfold wanted
  rw [getD_resize _ hj, getD_slice 0 hj]

theorem serves (hmax : w.blocks ≤ 8 * 1024 * 1024) (hwhole : w.LastWhole) :
    Serves w.image.readPiece w.Holds (· < w.disc.length) fun i => w.disc.getD i 0 := by
  intro cache offset size hcache hsize hin
  have hpos := w.blockSize_pos
  have hdiv := Nat.div_add_mod offset w.blockSize
  have hmod := Nat.mod_lt offset hpos
  have hoffset : offset < w.disc.length := hin 0 hsize
  have hblock : offset / w.blockSize < w.blocks := by
    rw [lt_blocks_iff, Nat.mul_comm]
    omega
  obtain ⟨cache', hcache', hread⟩ :=
    w.readBlock_some hcache hblock (w.expandBlock_stored hmax hblock fun _ => hwhole)
  have hlen := w.length_wanted (offset / w.blockSize)
  refine ⟨cache', min size (w.blockSize - offset % w.blockSize), hcache', by omega, by omega, ?_⟩
  unfold Gcz.readPiece
  dsimp only
  rw [show w.image.blockSize = w.blockSize from rfl, hread]
  dsimp only
  rw [if_neg (by omega), hlen, Nat.min_eq_left (by omega), Nat.sub_self, List.replicate_zero,
    List.append_nil, slice_eq_window _ 0 (by omega)]
  congr 2
  refine window_congr fun i hi => ?_
  rw [w.getD_wanted (by omega), Nat.mul_comm, ← Nat.add_assoc, hdiv]

/-- **A file that was written by the rules reads back exactly if it has a block, no more than the
reader takes, and the last one is stored in as many bytes as a block has.** -/
theorem reads_back_iff : w.ReadsBack ↔
    0 < w.disc.length ∧ w.blocks ≤ 8 * 1024 * 1024 ∧ w.LastWhole := by
  have hempty : w.disc.length = 0 → w.blocks = 0 := fun h => by
    have := w.lt_blocks_iff (i := 0)
    omega
  constructor
  · rintro ⟨img, hopen, hreads⟩
    have hcount : ¬ (w.blocks = 0 ∨ 8 * 1024 * 1024 < w.blocks) := fun h => by
      rw [w.openFile_none h] at hopen
      cases hopen
    have h0 : 0 < w.blocks := by omega
    refine ⟨by omega, by omega, ?_⟩
    obtain rfl : w.image = img := by
      rw [w.openFile_some h0 (by omega)] at hopen
      exact Option.some.inj hopen
    by_contra hshort
    -- the first byte of the last block
    have hlast := w.lt_blocks_iff.mp (show w.blocks - 1 < w.blocks by omega)
    have hread := hreads .empty (.start rfl) ((w.blocks - 1) * w.blockSize) 1 (by omega)
    have hpiece : w.image.readPiece .empty ((w.blocks - 1) * w.blockSize) 1 = (.empty, none) := by
      unfold Gcz.readPiece
      rw [show w.image.blockSize = w.blockSize from rfl, Nat.mul_div_cancel _ w.blockSize_pos,
        w.readBlock_last h0 (by omega) hshort]
    unfold Gcz.readThrough readAll at hread
    rw [readPieces_none Nat.one_pos hpiece] at hread
    cases hread
  · rintro ⟨hdisc, hmax, hwhole⟩
    have h0 : 0 < w.blocks := w.lt_blocks_iff.mpr (by omega)
    refine ⟨w.image, w.openFile_some h0 hmax, fun cache hcache offset n hin => ?_⟩
    obtain ⟨cache', -, hread⟩ := (w.serves hmax hwhole).reads offset n
      (w.holds_of_reached hmax hcache) fun i hi => by omega
    rw [slice_eq_window w.disc 0 hin]
    exact congrArg Prod.snd hread

end Writer

/-! a disc whose only block shrinks -/

/-- a deflater that knows one block -/
def oneBlock : Codec where
  deflate bytes := if bytes = [5, 5, 5, 5] then [0] else 1 :: bytes
  inflate _ raw _ :=
    match raw with
    | [] => ⟨[], 0⟩
    | b :: bytes => if b = 0 then ⟨[5, 5, 5, 5], 4⟩ else ⟨bytes, bytes.length⟩
  inflate_deflate bytes room _ := by
    by_cases h : bytes = [5, 5, 5, 5]
    · rw [if_pos h, h]
      rfl
    · rw [if_neg h]
      rfl
  deflate_ne_nil bytes := by
    split <;> exact List.cons_ne_nil _ _

def shrunk : Writer oneBlock where
  disc := [5, 5, 5, 5]
  console := 0
  blockSize := 4
  padded := true
  deflated i := decide (i = 0)
  checksum _ := 0
  blockSize_pos := by decide
  blockSize_lt := by decide
  blocks_lt := by decide
  smaller i h := by
    obtain rfl := of_decide_eq_true h
    decide

theorem shrunk_not_read : ¬ shrunk.ReadsBack := by
  have hfail : (Gcz.openFile (.fromMemory shrunk.file) (some oneBlock.inflate)).map (fun img =>
      (img.readThrough .empty 0 4).2) = some none := by
    decide +kernel
  rintro ⟨img, hopen, hreads⟩
  rw [hopen, Option.map_some] at hfail
  have hread := hreads .empty (.start rfl) 0 4 (by decide)
  rw [Option.some.inj hfail] at hread
  cases hread

end DolTranslator.Disc
