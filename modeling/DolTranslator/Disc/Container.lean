import DolTranslator.Disc.Source

/-!
# CISO and WBFS containers

Both are a map from a block of the image to where that block sits in the file, with 0 meaning a
block of zeros.

* `Container.openFile`   the kinds that are read, and their maps;
* `Container.asSource`   the image, read block by block;
* `reads_assigned_iff`   which reads give the bytes of the map.
-/

namespace DolTranslator.Disc

open Streams

inductive ContainerKind where
  | raw | ciso | wbfs | gcz | wia | rvz | nkit | unknown
  deriving DecidableEq

/-- `Identify` -/
def identify (file : Source) : ContainerKind :=
  match file.read 0 8 with
  | none => .unknown
  | some magic =>
    if magic.take 4 = [0x43, 0x49, 0x53, 0x4F] then .ciso
    else if magic.take 4 = [0x57, 0x42, 0x46, 0x53] then .wbfs
    else if read32 magic 0 = 0xB10BC001 then .gcz
    else if magic.take 4 = [0x57, 0x49, 0x41, 0x01] then .wia
    else if magic.take 4 = [0x52, 0x56, 0x5A, 0x01] then .rvz
    -- NKit writes its own marker inside an otherwise ordinary image
    else if file.read 0x200 4 = some [0x4E, 0x4B, 0x49, 0x54] then .nkit
    else .raw

structure Container where
  kind : ContainerKind
  file : Source
  imageSize : Nat
  blockSize : Nat
  blocks : List Nat

namespace Container

/-! ## opening -/

def kCisoHeaderSize : Nat := 0x8000

def cisoBlocks (blockSize : Nat) : List UInt8 → Nat → List Nat
  | [], _ => []
  | flag :: flags, pos =>
    if flag ≠ 0 then pos :: cisoBlocks blockSize flags (pos + blockSize)
    else 0 :: cisoBlocks blockSize flags pos

/-- `Container::OpenCiso` -/
def openCiso (file : Source) : Option Container := do
  let header ← file.read 0 kCisoHeaderSize
  let blockSize := read32LE header 4
  if blockSize = 0 ∨ 64 * 1024 * 1024 < blockSize then none
  else
    let blocks := cisoBlocks blockSize (header.drop 8) kCisoHeaderSize
    return {
      kind := .ciso
      file := file
      imageSize := blocks.length * blockSize
      blockSize := blockSize
      blocks := blocks }

def kWiiDiscSize : Nat := 0x118240000

/-- `Container::OpenWbfs`; a shift of 32 bits turns only by the low five bits of its count -/
def openWbfs (file : Source) : Option Container := do
  let header ← file.read 0 12
  let hdSectorSize := 2 ^ (byteAt header 8 % 32)
  let wbfsSectorSize := 2 ^ (byteAt header 9 % 32)
  if byteAt header 8 < 9 ∨ byteAt header 9 < 12 ∨ 30 < byteAt header 9 then none
  else
    let count := kWiiDiscSize / wbfsSectorSize
    let table ← file.read (hdSectorSize + 0x100) (count * 2)
    return {
      kind := .wbfs
      file := file
      imageSize := kWiiDiscSize
      blockSize := wbfsSectorSize
      blocks := (List.range count).map fun index =>
        let sector := read16 table (index * 2)
        if sector = 0 then 0 else sector * wbfsSectorSize }

/-- `Container::Open` -/
def openFile (file : Source) : Option Container :=
  match identify file with
  | .raw => some ⟨.raw, file, 0, 0, []⟩
  | .ciso => openCiso file
  | .wbfs => openWbfs file
  -- identified, and not readable
  | _ => none

/-! ## reading -/

variable {c : Container} {data : List UInt8} {offset size : Nat}

/-- the body of the loop of `Mapped::Read` -/
def readPiece (c : Container) (_ : Unit) (offset size : Nat) : Unit × Option (List UInt8) :=
  let within := offset % c.blockSize
  let take := min size (c.blockSize - within)
  match c.blocks[offset / c.blockSize]? with
  | none => ((), none)
  | some pos =>
    if pos = 0 then ((), some (List.replicate take 0)) else ((), c.file.read (pos + within) take)

theorem length_of_readPiece {s s' : Unit} {bytes : List UInt8}
    (h : c.readPiece s offset size = (s', some bytes)) :
    offset / c.blockSize < c.blocks.length ∧
      bytes.length = min size (c.blockSize - offset % c.blockSize) := by
  unfold readPiece at h
  dsimp only at h
  split at h
  · cases h
  · next pos hpos =>
    refine ⟨(List.getElem?_eq_some_iff.mp hpos).1, ?_⟩
    split at h
    · obtain rfl := Option.some.inj (congrArg Prod.snd h)
      exact List.length_replicate
    · exact c.file.length_read _ _ _ (congrArg Prod.snd h)

/-- `Container::AsSource` -/
def asSource (c : Container) : Source :=
  if c.kind = .raw then c.file
  else {
    read := fun offset size => (readAll c.readPiece () offset size).2
    length_read := fun offset size bytes h => by
      refine length_readPieces (fun _ offset size s' bytes hpiece => ?_) h
      rw [(length_of_readPiece hpiece).2]
      exact Nat.min_le_left _ _ }

def assigned (c : Container) (data : List UInt8) (p : Nat) : UInt8 :=
  match c.blocks[p / c.blockSize]? with
  | none => 0
  | some pos => if pos = 0 then 0 else data.getD (pos + p % c.blockSize) 0

/-- the blocks the map refers to are all in the file -/
def BlocksInFile (c : Container) (data : List UInt8) : Prop :=
  ∀ pos ∈ c.blocks, pos ≠ 0 → pos + c.blockSize ≤ data.length

/-- a read gives the bytes the block map assigns -/
def Reads (c : Container) (data : List UInt8) (offset size : Nat) : Prop :=
  c.asSource.read offset size = some (window (c.assigned data) offset size)

/-! ## what is opened -/

/-- a map of blocks, and how much of an image it is for -/
structure Mapped (c : Container) (data : List UInt8) : Prop where
  file : c.file = .fromMemory data
  kind : c.kind ≠ .raw
  blockSize_pos : 0 < c.blockSize
  imageSize : c.kind = .ciso ∧ c.imageSize = c.blocks.length * c.blockSize ∨
    c.kind = .wbfs ∧ c.imageSize = kWiiDiscSize ∧ c.blocks.length = kWiiDiscSize / c.blockSize

theorem openCiso_mapped (h : openCiso (.fromMemory data) = some c) : c.Mapped data := by
  unfold openCiso at h
  obtain ⟨header, hheader, h⟩ := Option.bind_eq_some_iff.mp h
  dsimp only at h
  split at h
  · cases h
  · next hsize =>
    obtain rfl := Option.some.inj h
    exact ⟨rfl, ContainerKind.noConfusion, by show 0 < read32LE header 4; omega, .inl ⟨rfl, rfl⟩⟩

theorem openWbfs_mapped (h : openWbfs (.fromMemory data) = some c) : c.Mapped data := by
  unfold openWbfs at h
  obtain ⟨header, hheader, h⟩ := Option.bind_eq_some_iff.mp h
  dsimp only at h
  split at h
  · cases h
  · obtain ⟨table, htable, h⟩ := Option.bind_eq_some_iff.mp h
    obtain rfl := Option.some.inj h
    refine ⟨rfl, ContainerKind.noConfusion, Nat.two_pow_pos _, .inr ⟨rfl, rfl, ?_⟩⟩
    rw [List.length_map, List.length_range]

theorem openFile_mapped (h : openFile (.fromMemory data) = some c) :
    c = ⟨.raw, .fromMemory data, 0, 0, []⟩ ∨ c.Mapped data := by
  unfold openFile at h
  split at h
  · exact .inl (Option.some.inj h).symm
  · exact .inr (openCiso_mapped h)
  · exact .inr (openWbfs_mapped h)
  · cases h

/-! ## what is read -/

theorem Mapped.read_eq (hc : c.Mapped data) (offset size : Nat) :
    c.asSource.read offset size = (readAll c.readPiece () offset size).2 := by
  unfold asSource
  rw [if_neg hc.kind]

theorem Mapped.serves (hc : c.Mapped data) (hblocks : c.BlocksInFile data) :
    Serves c.readPiece (fun _ => True) (· < c.blocks.length * c.blockSize) (c.assigned data) := by
  intro s offset size _ hsize hin
  have hpos := hc.blockSize_pos
  have hdiv := Nat.div_add_mod offset c.blockSize
  have hmod := Nat.mod_lt offset hpos
  have hblock : offset / c.blockSize < c.blocks.length :=
    (Nat.div_lt_iff_lt_mul hpos).mpr (hin 0 hsize)
  have hget := List.getElem?_eq_getElem hblock
  have hsame : ∀ i < c.blockSize - offset % c.blockSize,
      (offset + i) / c.blockSize = offset / c.blockSize ∧
        (offset + i) % c.blockSize = offset % c.blockSize + i := fun i hi => by
    rw [show offset + i = offset % c.blockSize + i + c.blockSize * (offset / c.blockSize) by omega]
    rw [Nat.add_mul_div_left _ _ hpos, Nat.add_mul_mod_self_left, Nat.div_eq_of_lt (by omega),
      Nat.mod_eq_of_lt (by omega), Nat.zero_add]
    exact ⟨rfl, rfl⟩
  refine ⟨(), min size (c.blockSize - offset % c.blockSize), trivial, by omega, by omega, ?_⟩
  unfold readPiece
  dsimp only
  rw [hget]
  dsimp only
  by_cases h0 : c.blocks[offset / c.blockSize] = 0
  · rw [if_pos h0, window_const]
    intro i hi
    obtain ⟨hd, -⟩ := hsame i (by omega)
    unfold assigned
    rw [hd, hget]
    exact if_pos h0
  · have hfits := hblocks _ (List.getElem_mem hblock) h0
    rw [if_neg h0, hc.file]
    show ((), readMemory data _ _) = _
    rw [readMemory_of_le (by omega), slice_eq_window data 0 (by omega)]
    congr 2
    refine window_congr fun i hi => ?_
    obtain ⟨hd, hm⟩ := hsame i (by omega)
    unfold assigned
    rw [hd, hget]
    dsimp only
    rw [if_neg h0, hm, Nat.add_assoc]

theorem Mapped.read_inside (hc : c.Mapped data) {bytes : List UInt8}
    (h : c.asSource.read offset size = some bytes) :
    ∀ i < size, offset + i < c.blocks.length * c.blockSize := by
  rw [hc.read_eq] at h
  have hpos := hc.blockSize_pos
  refine readPieces_inside (· < c.blocks.length * c.blockSize)
    (fun _ offset size _ bytes _ hpiece i hi => ?_) h
  obtain ⟨hblock, hlength⟩ := length_of_readPiece hpiece
  have hdiv := Nat.div_add_mod offset c.blockSize
  have hle : (offset / c.blockSize + 1) * c.blockSize ≤ c.blocks.length * c.blockSize :=
    Nat.mul_le_mul_right _ hblock
  rw [Nat.succ_mul, Nat.mul_comm (offset / c.blockSize)] at hle
  show offset + i < _
  omega

theorem Mapped.reads_iff (hc : c.Mapped data) (hblocks : c.BlocksInFile data) :
    c.Reads data offset size ↔ size = 0 ∨ offset + size ≤ c.blocks.length * c.blockSize := by
  constructor
  · intro h
    rcases Nat.eq_zero_or_pos size with hsize | hsize
    · exact .inl hsize
    · have := hc.read_inside h (size - 1) (by omega)
      exact .inr (by omega)
  · rintro h
    obtain ⟨_, -, hread⟩ := (hc.serves hblocks).reads (s := ()) offset size trivial fun i hi => by
      rcases h with rfl | h
      · cases hi
      · omega
    unfold Reads
    rw [hc.read_eq, hread]

/-- every read inside the image gives the bytes the map assigns, exactly if the blocks make up the
image -/
theorem Mapped.all_reads_iff (hc : c.Mapped data) (hblocks : c.BlocksInFile data) :
    (∀ offset size, offset + size ≤ c.imageSize → c.Reads data offset size) ↔
      c.imageSize ≤ c.blocks.length * c.blockSize := by
  constructor
  · intro h
    rcases (hc.reads_iff hblocks).mp (h 0 c.imageSize (by omega)) with h0 | h0 <;> omega
  · intro h offset size hin
    exact (hc.reads_iff hblocks).mpr (.inr (by omega))

/-- **A read inside the image gives the bytes the block map assigns exactly if it ends where the
blocks do; and all of them do exactly if the sectors of a WBFS file divide the disc.** -/
theorem reads_assigned_iff (hopen : openFile (.fromMemory data) = some c)
    (hblocks : c.BlocksInFile data) :
    (∀ offset size, offset + size ≤ c.imageSize → (c.Reads data offset size ↔
      size = 0 ∨ offset + size ≤ c.blocks.length * c.blockSize)) ∧
    ((∀ offset size, offset + size ≤ c.imageSize → c.Reads data offset size) ↔
      (c.kind = .wbfs → c.blockSize ∣ kWiiDiscSize)) := by
  rcases openFile_mapped hopen with rfl | hc
  · -- a raw image does not say how large it is
    have hread : ∀ offset size, offset + size ≤ 0 →
        Reads ⟨.raw, .fromMemory data, 0, 0, []⟩ data offset size := fun offset size h => by
      obtain rfl : offset = 0 := by omega
      obtain rfl : size = 0 := by omega
      show readMemory data 0 0 = some []
      rw [readMemory_of_le (Nat.zero_le _)]
      rfl
    refine ⟨fun offset size h => ⟨fun _ => .inl ?_, fun _ => hread offset size h⟩,
      ⟨fun _ h => ContainerKind.noConfusion h, fun _ offset size h => hread offset size h⟩⟩
    have h' : offset + size ≤ 0 := h
    omega
  · refine ⟨fun offset size _ => hc.reads_iff hblocks, ?_⟩
    rw [hc.all_reads_iff hblocks]
    rcases hc.imageSize with ⟨hkind, hsize⟩ | ⟨hkind, hsize, hcount⟩
    · rw [hkind, hsize]
      exact ⟨fun _ h => ContainerKind.noConfusion h, fun _ => le_refl _⟩
    · rw [hsize, hcount]
      constructor
      · intro h _
        exact ⟨_, (Nat.le_antisymm h (Nat.div_mul_le_self _ _)).trans (Nat.mul_comm _ _)⟩
      · intro h
        rw [Nat.div_mul_cancel (h hkind)]

/-! a WBFS file with nothing in it, in sectors that do not divide the disc -/

def emptyWbfs : List UInt8 :=
  [0x57, 0x42, 0x46, 0x53, 0, 0, 0, 0, 9, 30] ++ List.replicate (0x300 - 10 + 8) 0

theorem blocksInFile_of_absent {n : Nat} (h : c.blocks = List.replicate n 0) :
    c.BlocksInFile data := by
  intro pos hpos h0
  rw [h] at hpos
  exact absurd (List.eq_of_mem_replicate hpos) h0

theorem reads_assigned_iff_emptyWbfs :
    ∃ c, openFile (.fromMemory emptyWbfs) = some c ∧
      (∀ offset size, offset + size ≤ c.imageSize → (c.Reads emptyWbfs offset size ↔
        size = 0 ∨ offset + size ≤ c.blocks.length * c.blockSize)) ∧
      ((∀ offset size, offset + size ≤ c.imageSize → c.Reads emptyWbfs offset size) ↔
        (c.kind = .wbfs → c.blockSize ∣ kWiiDiscSize)) := by
  have hvals : (openFile (.fromMemory emptyWbfs)).map (·.blocks) = some (List.replicate 4 0) := by
    decide +kernel
  obtain ⟨c, hc, hblocks⟩ := Option.map_eq_some_iff.mp hvals
  exact ⟨c, hc, reads_assigned_iff hc (blocksInFile_of_absent hblocks)⟩

/-- the last part of the disc is in no sector -/
theorem tail_not_read :
    ∃ c, openFile (.fromMemory emptyWbfs) = some c ∧ c.BlocksInFile emptyWbfs ∧
      2 ^ 32 + 1 ≤ c.imageSize ∧ ¬ c.Reads emptyWbfs (2 ^ 32) 1 := by
  have hvals : (openFile (.fromMemory emptyWbfs)).map (fun c =>
      (c.blocks, c.imageSize, c.asSource.read (2 ^ 32) 1)) =
        some (List.replicate 4 0, kWiiDiscSize, none) := by
    decide +kernel
  obtain ⟨c, hc, hc'⟩ := Option.map_eq_some_iff.mp hvals
  obtain ⟨hblocks, hsize, hread⟩ := by simpa only [Prod.mk.injEq] using hc'
  refine ⟨c, hc, blocksInFile_of_absent hblocks, by rw [hsize]; decide, fun h => ?_⟩
  unfold Reads at h
  rw [hread] at h
  cases h

end Container

end DolTranslator.Disc
