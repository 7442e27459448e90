import DolTranslator.Disc.Source

/-!
# The clusters of a Wii partition

A cluster is hashes and then the data they cover, each decrypted on its own; the last one read is
kept.

* `ReadCluster`, `ReadData`   the readers; a read of the source may fail now and then;
* `plain`   a byte of the decrypted stream, none where the disc has no such cluster;
* `ReadData_plain_iff`   after any reads, a read gives the bytes of the stream just when its last
  cluster is at a place of 64 bits.
-/

namespace DolTranslator.Disc

open Streams

def kClusterHashSize : Nat := 0x400

/-- `kClusterSize` -/
def kClusterBytes : Nat := 0x8000

def kClusterDataSize : Nat := 0x7C00

/-- `cbc_decrypt` under the title key: an IV, and bytes -/
structure Cipher where
  decrypt : List UInt8 → List UInt8 → List UInt8
  length_decrypt : ∀ iv bytes, (decrypt iv bytes).length = bytes.length

inductive DiscConsole where
  | gameCube | wii
  deriving DecidableEq

/-- the fields of `Image` that `ReadData` reads -/
structure DiscImage where
  source : Source
  console : DiscConsole
  plainPartitions : Bool
  cipher : Option Cipher
  encrypted : Bool
  dataOffset : Nat

/-- `mCluster` and `mClusterIndex`, and how the next reads of the source go -/
structure ClusterCache where
  cluster : List UInt8
  clusterIndex : Nat
  answers : List Bool

def ClusterCache.empty : ClusterCache := ⟨[], 2 ^ 64 - 1, []⟩

namespace DiscImage

variable (img : DiscImage)

/-- a read of the source; it fails when the next answer says so -/
def readSource (cache : ClusterCache) (offset size : Nat) : ClusterCache × Option (List UInt8) :=
  ({ cache with answers := cache.answers.tail },
    if cache.answers.headD true then img.source.read offset size else none)

/-- the data of a cluster: the hashes have a zero IV, and the data has the one at 0x3D0 of them -/
def payload (raw : List UInt8) : List UInt8 :=
  match img.encrypted, img.cipher with
  | true, some cipher =>
    let hashes := cipher.decrypt (List.replicate 16 0) (raw.take kClusterHashSize)
    cipher.decrypt (slice hashes 0x3D0 16) (slice raw kClusterHashSize kClusterDataSize)
  | _, _ => slice raw kClusterHashSize kClusterDataSize

def ReadCluster (cache : ClusterCache) (cluster : Nat) : ClusterCache × Option (List UInt8) :=
  if cache.clusterIndex = cluster ∧ cache.cluster.length = kClusterDataSize then
    (cache, some cache.cluster)
  else
    match img.readSource cache ((img.dataOffset + cluster * kClusterBytes) % 2 ^ 64)
      kClusterBytes with
    | (cache, none) => (cache, none)
    | (cache, some raw) =>
      ({ cache with cluster := img.payload raw, clusterIndex := cluster },
        some (img.payload raw))

/-- the part of a read that is in one cluster; the position wraps at 64 bits -/
def clusterPiece (cache : ClusterCache) (offset size : Nat) :
    ClusterCache × Option (List UInt8) :=
  let position := offset % 2 ^ 64
  let within := position % kClusterDataSize
  let take := min size (kClusterDataSize - within)
  match img.ReadCluster cache (position / kClusterDataSize) with
  | (cache, none) => (cache, none)
  | (cache, some cluster) => (cache, some (slice cluster within take))

def ReadData (cache : ClusterCache) (offset size : Nat) : ClusterCache × Option (List UInt8) :=
  match img.console, img.plainPartitions with
  | .gameCube, _ => img.readSource cache offset size
  | .wii, true => img.readSource cache ((img.dataOffset + offset) % 2 ^ 64) size
  | .wii, false =>
    if img.cipher.isNone ∧ img.encrypted = true then (cache, none)
    else readAll img.clusterPiece cache offset size

def ReadDatas (cache : ClusterCache) : List (Nat × Nat × List Bool) → ClusterCache
  | [] => cache
  | (offset, size, answers) :: reads =>
    ReadDatas (img.ReadData { cache with answers := answers } offset size).1 reads

def clusterData (cluster : Nat) : Option (List UInt8) :=
  if img.dataOffset + cluster * kClusterBytes < 2 ^ 64 then
    (img.source.read (img.dataOffset + cluster * kClusterBytes) kClusterBytes).map img.payload
  else none

def plain (i : Nat) : Option UInt8 :=
  (img.clusterData (i / kClusterDataSize)).bind fun data => data[i % kClusterDataSize]?

/-- the image is read through clusters -/
structure Clustered : Prop where
  wii : img.console = .wii
  clusters : img.plainPartitions = false

/-! ## the cache -/

variable {img} {cache : ClusterCache} {cluster offset size : Nat} {bytes raw : List UInt8}

variable (img) in
theorem length_payload (h : raw.length = kClusterBytes) :
    (img.payload raw).length = kClusterDataSize := by
  have hslice : (slice raw kClusterHashSize kClusterDataSize).length = kClusterDataSize :=
    length_slice (by rw [h]; decide)
  unfold payload
  split
  · dsimp only
    rw [Cipher.length_decrypt, hslice]
  · exact hslice

/-- the cluster that is kept is the one at its place -/
def CacheValid (img : DiscImage) (cache : ClusterCache) : Prop :=
  cache.cluster.length = kClusterDataSize →
    (img.source.read ((img.dataOffset + cache.clusterIndex * kClusterBytes) % 2 ^ 64)
      kClusterBytes).map img.payload = some cache.cluster

theorem cacheValid_empty (img : DiscImage) : CacheValid img .empty := fun h => by cases h

theorem cacheValid_answers (h : CacheValid img cache) (answers : List Bool) :
    CacheValid img { cache with answers := answers } := h

/-- **A cluster is the one at its place**, and so is the one that is kept then. -/
theorem ReadCluster_spec (cluster : Nat) (h : CacheValid img cache) :
    CacheValid img (img.ReadCluster cache cluster).1 ∧
      ∀ data, (img.ReadCluster cache cluster).2 = some data → data.length = kClusterDataSize ∧
        (img.source.read ((img.dataOffset + cluster * kClusterBytes) % 2 ^ 64)
          kClusterBytes).map img.payload = some data := by
  unfold ReadCluster
  split
  next hkept =>
    refine ⟨h, fun data hdata => ?_⟩
    cases hdata
    obtain ⟨rfl, hlength⟩ := hkept
    exact ⟨hlength, h hlength⟩
  · unfold readSource
    split
    next hread =>
      obtain ⟨rfl, -⟩ := Prod.mk.inj hread
      exact ⟨h, fun data hdata => (by cases hdata)⟩
    next raw hread =>
      obtain ⟨rfl, hsome⟩ := Prod.mk.inj hread
      split at hsome
      · have hlength := img.length_payload (img.source.length_read _ _ _ hsome)
        refine ⟨fun _ => by rw [hsome]; rfl, fun data hdata => ?_⟩
        cases hdata
        exact ⟨hlength, by rw [hsome]; rfl⟩
      · cases hsome

theorem clusterPiece_spec (offset size : Nat) (h : CacheValid img cache) :
    CacheValid img (img.clusterPiece cache offset size).1 ∧
      ∀ bytes, 0 < size → (img.clusterPiece cache offset size).2 = some bytes →
        0 < bytes.length ∧ bytes.length ≤ size ∧
        ((∀ i < size, img.dataOffset + (offset + i) / kClusterDataSize * kClusterBytes < 2 ^ 64) →
          bytes.map some = window img.plain offset bytes.length) := by
  obtain ⟨hvalid, hdata⟩ := ReadCluster_spec (offset % 2 ^ 64 / kClusterDataSize) h
  unfold clusterPiece
  dsimp only
  rcases hread : img.ReadCluster cache (offset % 2 ^ 64 / kClusterDataSize) with ⟨cache', result⟩
  rw [hread] at hvalid hdata
  cases result with
  | none => exact ⟨hvalid, fun bytes _ hbytes => (by cases hbytes)⟩
  | some data =>
    refine ⟨hvalid, fun bytes hsize hbytes => ?_⟩
    cases hbytes
    obtain ⟨hlength, hsource⟩ := hdata data rfl
    have hwithin := Nat.mod_lt (offset % 2 ^ 64) (show 0 < kClusterDataSize by decide)
    have htake : (slice data (offset % 2 ^ 64 % kClusterDataSize)
        (min size (kClusterDataSize - offset % 2 ^ 64 % kClusterDataSize))).length =
        min size (kClusterDataSize - offset % 2 ^ 64 % kClusterDataSize) :=
      length_slice (by rw [hlength]; omega)
    refine ⟨by rw [htake]; omega, by rw [htake]; omega, fun hinside => ?_⟩
    rw [htake]
    have hplace := hinside 0 hsize
    have hposition : offset % 2 ^ 64 = offset := Nat.mod_eq_of_lt (by
      unfold kClusterDataSize kClusterBytes at hplace
      omega)
    rw [hposition] at hwithin hsource ⊢
    rw [Nat.add_zero] at hplace
    rw [Nat.mod_eq_of_lt hplace] at hsource
    rw [slice_eq_window data 0 (by rw [hlength]; omega)]
    unfold window
    rw [List.map_map]
    refine List.map_congr_left fun i hi => ?_
    rw [List.mem_range] at hi
    -- the whole piece is in one cluster
    have hcluster : (offset + i) / kClusterDataSize = offset / kClusterDataSize := by
      unfold kClusterDataSize at *
      omega
    have hmod : (offset + i) % kClusterDataSize = offset % kClusterDataSize + i := by
      unfold kClusterDataSize at *
      omega
    show some (data.getD (offset % kClusterDataSize + i) 0) = img.plain (offset + i)
    unfold plain clusterData
    rw [hcluster, hmod, if_pos hplace, hsource, Option.bind_some]
    rw [List.getD_eq_getElem?_getD, List.getElem?_eq_getElem (by omega)]
    rfl

/-! ## reads -/

theorem ReadData_valid (h : CacheValid img cache) :
    CacheValid img (img.ReadData cache offset size).1 := by
  unfold ReadData
  split
  · exact h
  · exact h
  · split
    · exact h
    · exact readPieces_invariant (CacheValid img) (fun _ _ _ => True)
        (fun s offset size _ hs _ => (clusterPiece_spec _ _ hs).1) h
        (visits_of_forall _ fun _ _ _ => trivial)

theorem ReadDatas_valid (h : CacheValid img cache) (reads : List (Nat × Nat × List Bool)) :
    CacheValid img (img.ReadDatas cache reads) := by
  induction reads generalizing cache with
  | nil => exact h
  | cons read reads ih => exact ih (ReadData_valid (cacheValid_answers h _))

theorem ReadData_clusters (himg : Clustered img)
    (h : (img.ReadData cache offset size).2 = some bytes) :
    (readAll img.clusterPiece cache offset size).2 = some bytes := by
  unfold ReadData at h
  rw [himg.wii, himg.clusters] at h
  dsimp only at h
  split at h
  · cases h
  · exact h

theorem length_clusterPiece {cache' : ClusterCache}
    (h : img.clusterPiece cache offset size = (cache', some bytes)) : bytes.length ≤ size := by
  unfold clusterPiece at h
  dsimp only at h
  split at h
  · cases h
  · obtain ⟨-, hbytes⟩ := Prod.mk.inj h
    cases hbytes
    exact (List.length_take_le _ _).trans (Nat.min_le_left _ _)

theorem place_of_plain {i : Nat} {b : UInt8} (h : img.plain i = some b) :
    img.dataOffset + i / kClusterDataSize * kClusterBytes < 2 ^ 64 := by
  unfold plain clusterData at h
  split at h
  next hplace => exact hplace
  · cases h

/-- **Reading through clusters is reading the plain stream**, just when the last cluster of the read
is at a place of 64 bits; whatever was read before, and whether or not it could be. -/
theorem ReadData_plain_iff (himg : Clustered img) (reads : List (Nat × Nat × List Bool))
    (answers : List Bool) (h : (img.ReadData { img.ReadDatas .empty reads with answers := answers }
      offset size).2 = some bytes) :
    bytes.length = size ∧ (bytes.map some = window img.plain offset size ↔
      size = 0 ∨ img.dataOffset + (offset + size - 1) / kClusterDataSize * kClusterBytes <
        2 ^ 64) := by
  have hvalid : CacheValid img { img.ReadDatas .empty reads with answers := answers } :=
    cacheValid_answers (ReadDatas_valid (cacheValid_empty img) reads) answers
  have hread := ReadData_clusters himg h
  have hlength : bytes.length = size :=
    length_readPieces (fun _ _ _ _ _ hp => length_clusterPiece hp) hread
  refine ⟨hlength, fun hbytes => ?_, fun hplace => ?_⟩
  · rcases Nat.eq_zero_or_pos size with hzero | hpos
    · exact .inl hzero
    · right
      have hlast := getElem?_window img.plain offset (show size - 1 < size by omega)
      rw [← hbytes, List.getElem?_map, List.getElem?_eq_getElem (by omega)] at hlast
      rw [show offset + size - 1 = offset + (size - 1) by omega]
      exact place_of_plain (Option.some.inj hlast).symm
  · refine readPieces_window some (CacheValid img)
      (fun i => img.dataOffset + i / kClusterDataSize * kClusterBytes < 2 ^ 64) ?_ hvalid ?_ hread
    · intro cache offset size cache' taken hsize hs hin hp
      obtain ⟨hs', hspec⟩ := clusterPiece_spec offset size hs
      rw [hp] at hs' hspec
      obtain ⟨-, hle, hwindow⟩ := hspec taken hsize rfl
      exact ⟨hs', hle, hwindow hin⟩
    · intro i hi
      rcases hplace with hzero | hplace
      · omega
      · -- no cluster of the read is behind the last one
        have hle : (offset + i) / kClusterDataSize ≤ (offset + size - 1) / kClusterDataSize :=
          Nat.div_le_div_right (by omega)
        exact Nat.lt_of_le_of_lt
          (Nat.add_le_add_left (Nat.mul_le_mul_right _ hle) _) hplace

/-- a source that holds one cluster, of a byte -/
def oneCluster : DiscImage where
  source := ⟨fun offset size => if offset + size ≤ kClusterBytes then
      some (List.replicate size 7) else none,
    fun offset size bytes h => by
      split at h
      · cases h
        exact List.length_replicate
      · cases h⟩
  console := .wii
  plainPartitions := false
  cipher := none
  encrypted := false
  dataOffset := 0

theorem oneCluster_clustered : Clustered oneCluster := ⟨rfl, rfl⟩

/-- reads before and after one that failed -/
theorem ReadData_plain_iff_retry :
    (oneCluster.ReadData { oneCluster.ReadDatas .empty [(0, 1, [false])] with answers := [] }
        2 2).2 = some [7, 7] ∧
      [7, 7].map some = window oneCluster.plain 2 2 := by
  have hread : (oneCluster.ReadData { oneCluster.ReadDatas .empty [(0, 1, [false])] with
      answers := [] } 2 2).2 = some [7, 7] := by decide +kernel
  exact ⟨hread, (ReadData_plain_iff oneCluster_clustered _ _ hread).2.mpr (.inr (by decide))⟩

/-- **The place of a cluster wraps.**  The cluster would be at 2^64, and what is read is the first
one of the disc. -/
theorem ReadData_wraps :
    (oneCluster.ReadData { oneCluster.ReadDatas .empty [] with answers := [] }
        (2 ^ 49 * kClusterDataSize) 1).2 = some [7] ∧
      [7].map some ≠ window oneCluster.plain (2 ^ 49 * kClusterDataSize) 1 := by
  refine ⟨by decide +kernel, fun h => ?_⟩
  have hnone : oneCluster.plain (2 ^ 49 * kClusterDataSize) = none := by
    unfold plain clusterData
    rw [if_neg (by decide)]
    rfl
  have hfirst := congrArg (·[0]?) h
  rw [getElem?_window _ _ (by decide), Nat.add_zero, hnone] at hfirst
  cases hfirst

end DiscImage

end DolTranslator.Disc
