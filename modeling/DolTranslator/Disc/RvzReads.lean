import DolTranslator.Disc.Rvz
import DolTranslator.Transition.Events

/-!
# The bytes an RVZ file gives

`discByte` is the byte a single-byte read is for: the decoded byte of the first region that contains
the position, or 0.

* `Holds`   the cache has the decoded bytes of the group it names;
* `reads_pointwise_iff`   when every read gives the bytes of `discByte`, whatever was read before;
* `reads_after_failures`   when a read after failed ones gives what a fresh image gives.
-/

namespace DolTranslator.Disc.Rvz

open Streams Transition

variable {img : Rvz} {attempts : Nat → Attempt} {attempt : Attempt} {r r' : Region}
  {p q index : Nat} {out bytes : List UInt8}

/-! ## decoded groups -/

def decoded (img : Rvz) (index : Nat) (region : Region) : Option (List UInt8) :=
  match img.expand .clean index region with
  | .expanded out => some out
  | _ => none

def discByte (img : Rvz) (p : Nat) : UInt8 :=
  match img.regionAt p with
  | none => 0
  | some r =>
    match img.decoded (r.groupAt p) r with
    | none => 0
    | some bytes => bytes.getD (r.within p) 0

/-- every position of a region is in one of its groups, and the group can be read -/
def GroupReadsSucceed (img : Rvz) : Prop :=
  ∀ p r, img.regionAt p = some r →
    r.groupAt p < r.stopGroup ∧ ∃ bytes, img.decoded (r.groupAt p) r = some bytes

theorem discByte_none (h : img.regionAt p = none) : img.discByte p = 0 := by
  unfold discByte
  rw [h]

theorem decoded_eq_some : img.decoded index r = some bytes ↔
    img.expand .clean index r = .expanded bytes := by
  unfold decoded
  split
  · next out hout =>
    rw [hout, Option.some.injEq, Expansion.expanded.injEq]
  · next h =>
    constructor
    · intro h'
      cases h'
    · intro h'
      exact absurd h' (h bytes)

theorem decoded_of_expand (h : img.expand attempt index r = .expanded bytes) :
    img.decoded index r = some bytes := by
  rw [decoded_eq_some, ← h]
  unfold expand at h ⊢
  cases hg : img.groups[index]? with
  | none => rfl
  | some group =>
    simp only [hg] at h ⊢
    by_cases hsize : group.size = 0
    · rw [if_pos hsize, if_pos hsize]
    · rw [if_neg hsize] at h ⊢
      rw [if_neg hsize]
      obtain ⟨fileReads, spoiled⟩ := attempt
      cases fileReads with
      | false => cases h
      | true =>
        cases spoiled with
        | none => rfl
        | some junk =>
          simp only [Attempt.readFile, Attempt.clean, if_true] at h ⊢
          cases hraw : img.file.read group.offset group.size with
          | none => rfl
          | some raw =>
            simp only [hraw] at h ⊢
            by_cases hc : group.compressed
            · simp only [hc, Bool.not_true, Bool.false_eq_true, if_false] at h ⊢
              cases hd : img.decompressor with
              | none => rfl
              | some inflate =>
                simp only [hd, Attempt.inflate, if_true] at h
                cases h
            · simp only [hc, Bool.not_false, if_true]

/-- the decompressor is called for the group, and returns 0 -/
def InflateFails (img : Rvz) (attempt : Attempt) (index : Nat) (region : Region) : Prop :=
  ∃ group inflate raw, img.groups[index]? = some group ∧ group.size ≠ 0 ∧ group.compressed ∧
    img.decompressor = some inflate ∧
    attempt.readFile img.file group.offset group.size = some raw ∧
    (attempt.inflate inflate img.compression (img.strip group region raw) region.room).written = 0

theorem inflateFails_of_spoiled (h : img.expand attempt index r = .spoiled out) :
    img.InflateFails attempt index r := by
  unfold expand at h
  cases hg : img.groups[index]? with
  | none =>
    simp only [hg] at h
    cases h
  | some group =>
    simp only [hg] at h
    by_cases hsize : group.size = 0
    · rw [if_pos hsize] at h
      cases h
    · rw [if_neg hsize] at h
      cases hraw : attempt.readFile img.file group.offset group.size with
      | none =>
        simp only [hraw] at h
        cases h
      | some raw =>
        simp only [hraw] at h
        by_cases hc : group.compressed
        · simp only [hc, Bool.not_true, Bool.false_eq_true, if_false] at h
          cases hd : img.decompressor with
          | none =>
            simp only [hd] at h
            cases h
          | some inflate =>
            simp only [hd] at h
            split at h
            · next hw => exact ⟨group, inflate, raw, hg, hsize, hc, hd, hraw, hw⟩
            · cases h
        · simp only [hc, Bool.not_false, if_true] at h
          cases h

/-- what a group holds depends on the region only through its chunk size and its lists -/
theorem expand_congr (hchunk : r.chunk = r'.chunk) (hlists : r.lists = r'.lists) :
    img.expand attempt index r = img.expand attempt index r' := by
  unfold expand strip Region.room
  rw [hchunk, hlists]

/-! ## one piece -/

theorem covers_of_regionAt (h : img.regionAt p = some r) : r.offset ≤ p ∧ p < r.stop := by
  unfold regionAt at h
  have hp := List.find?_some h
  exact of_decide_eq_true hp

theorem serve_eq_window (bytes : List UInt8) (pos take : Nat) (htake : 0 < take) :
    ∃ n, 0 < n ∧ n ≤ take ∧ (pos < bytes.length → pos + n ≤ bytes.length) ∧
      ((pos < bytes.length → pos + take ≤ bytes.length) → n = take) ∧
      serve bytes pos take = window (fun i => bytes.getD i 0) pos n := by
  unfold serve
  by_cases hpos : pos < bytes.length
  · refine ⟨min take (bytes.length - pos), by omega, by omega, fun _ => by omega,
      fun h => by have := h hpos; omega, ?_⟩
    have hne : (bytes.drop pos).isEmpty = false := by
      rw [List.isEmpty_eq_false_iff, ne_eq, List.drop_eq_nil_iff]
      omega
    rw [hne, if_neg (by decide), ← slice_eq_window bytes 0 (by omega)]
    unfold slice
    rw [List.take_eq_take_iff, List.length_drop]
    omega
  · refine ⟨take, htake, le_refl take, fun h => absurd h hpos, fun _ => rfl, ?_⟩
    have hnil : bytes.drop pos = [] := List.drop_eq_nil_iff.mpr (by omega)
    rw [hnil, List.isEmpty_nil, if_pos rfl, window_const]
    intro i _
    show bytes.getD (pos + i) 0 = 0
    rw [List.getD_eq_getElem?_getD, List.getElem?_eq_none (by omega), Option.getD_none]

/-- a group some position is in, and its bytes -/
def Decodes (img : Rvz) (group : Nat) (bytes : List UInt8) : Prop :=
  ∃ p r, img.regionAt p = some r ∧ r.groupAt p = group ∧ r.groupAt p < r.stopGroup ∧
    img.decoded group r = some bytes

/-- the cache has the decoded bytes of the group it names -/
def Holds (img : Rvz) (cache : Cache) : Prop :=
  cache.groupIndex = noGroup ∨ img.Decodes cache.groupIndex cache.groupBytes

theorem holds_empty : img.Holds .empty := .inl rfl

theorem groupAt_ne_noGroup (h : r.groupAt p < r.stopGroup) : r.groupAt p ≠ noGroup := by
  have hstop : r.stopGroup < 2 ^ 32 := Nat.mod_lt _ (by decide)
  unfold noGroup
  omega

variable {s : Cache × Nat} {size : Nat}

theorem readPiece_none (h : img.regionAt p = none) :
    img.readPiece attempts s p size = (s, some (List.replicate size 0)) := by
  unfold readPiece
  rw [h]

theorem readPiece_out (h : img.regionAt p = some r)
    (hout : r.stopGroup ≤ r.groupAt p) : img.readPiece attempts s p size = (s, none) := by
  unfold readPiece
  simp only [h]
  rw [if_pos hout]

theorem take_pos (h : img.regionAt p = some r) (hsize : 0 < size) :
    0 < min size (min (r.stop - p) (r.chunk - r.within p)) := by
  have hin := covers_of_regionAt h
  have hwithin : r.within p < r.chunk := Nat.mod_lt _ r.chunk_pos
  omega

variable {s' : Cache × Nat}

theorem readPiece_fetched (size : Nat) (h : img.regionAt p = some r)
    (hin : r.groupAt p < r.stopGroup) (hsize : 0 < size)
    (hfetch : img.fetch attempts (r.groupAt p) r s = (s', true)) :
    img.readPiece attempts s p size = (s', some (serve s'.1.groupBytes (r.within p)
      (min size (min (r.stop - p) (r.chunk - r.within p))))) := by
  have htake := take_pos h hsize
  unfold readPiece
  simp only [h]
  rw [if_neg (by omega), hfetch, Bool.not_true, if_neg (by decide), if_neg (by omega)]

theorem readPiece_failed (h : img.regionAt p = some r)
    (hin : r.groupAt p < r.stopGroup)
    (hfetch : img.fetch attempts (r.groupAt p) r s = (s', false)) :
    img.readPiece attempts s p size = (s', none) := by
  unfold readPiece
  simp only [h]
  rw [if_neg (by omega), hfetch, Bool.not_false, if_pos rfl]

theorem fetch_hit (h : s.1.groupIndex = index) :
    img.fetch attempts index r s = (s, true) := by
  unfold fetch
  rw [if_pos h]

theorem fetch_miss (h : s.1.groupIndex ≠ index) :
    img.fetch attempts index r s =
      match img.expand (attempts s.2) index r with
      | .refused => ((s.1, s.2 + 1), false)
      | .spoiled out => ((⟨out, s.1.groupIndex⟩, s.2 + 1), false)
      | .expanded out => ((⟨out, index⟩, s.2 + 1), true) := by
  unfold fetch readGroup
  rw [if_neg h]
  cases img.expand (attempts s.2) index r <;> rfl

theorem fetch_decodes (hs : img.Holds s.1) (h : img.regionAt p = some r)
    (hin : r.groupAt p < r.stopGroup)
    (hfetch : img.fetch attempts (r.groupAt p) r s = (s', true)) :
    s'.1.groupIndex = r.groupAt p ∧ img.Decodes (r.groupAt p) s'.1.groupBytes := by
  by_cases hhit : s.1.groupIndex = r.groupAt p
  · rw [fetch_hit hhit] at hfetch
    obtain rfl : s = s' := congrArg Prod.fst hfetch
    refine ⟨hhit, ?_⟩
    rcases hs with hno | hdec
    · exact absurd (hhit.symm.trans hno) (groupAt_ne_noGroup hin)
    · rwa [hhit] at hdec
  · rw [fetch_miss hhit] at hfetch
    split at hfetch
    · cases hfetch
    · cases hfetch
    · next out hout =>
      obtain rfl := congrArg Prod.fst hfetch
      exact ⟨rfl, p, r, h, rfl, hin, decoded_of_expand hout⟩

theorem fetch_succeeds (hs : img.Holds s.1) (hr : img.regionAt p = some r)
    (hin : r.groupAt p < r.stopGroup) (h : img.decoded (r.groupAt p) r = some bytes) :
    ∃ s', img.fetch (fun _ => .clean) (r.groupAt p) r s = (s', true) ∧
      s'.1.groupIndex = r.groupAt p ∧ img.Decodes (r.groupAt p) s'.1.groupBytes := by
  have hfetch : ∃ s', img.fetch (fun _ => .clean) (r.groupAt p) r s = (s', true) := by
    by_cases hhit : s.1.groupIndex = r.groupAt p
    · exact ⟨s, fetch_hit hhit⟩
    · rw [fetch_miss hhit, decoded_eq_some.mp h]
      exact ⟨_, rfl⟩
  obtain ⟨s', hs'⟩ := hfetch
  exact ⟨s', hs', fetch_decodes hs hr hin hs'⟩

/-! ## pointwise reads -/

def clean (offset size : Nat) : Call := ⟨offset, size, fun _ => .clean⟩

/-- the caches there can be after reads that went well -/
def Reached (img : Rvz) : Cache → Prop :=
  Driven (· = .empty) (fun _ _ => True)
    fun cache (range : Nat × Nat) cache' =>
      (img.readThrough cache (clean range.1 range.2)).1 = cache'

/-- every read, whatever was read before it, gives the byte of each position -/
def ReadsPointwise (img : Rvz) : Prop :=
  ∀ cache, img.Reached cache → ∀ offset size,
    (img.readThrough cache (clean offset size)).2 = some (window img.discByte offset size)

def chunkAt (r : Region) (p : Nat) : Nat := (p - r.offset) / r.chunk

/-- **When reads are pointwise.**
* `gaps`     after a position outside every region there are only zeros;
* `pieces`   where a piece of a read goes from `q` to `q'`, the group its first position names,
             under whichever region it was decoded, has the byte of `q'`. -/
structure RegionsFit (img : Rvz) : Prop where
  gaps : ∀ p q, p < q → img.regionAt p = none → img.discByte q = 0
  pieces : ∀ q q' r bytes, img.regionAt q = some r → img.Decodes (r.groupAt q) bytes → q ≤ q' →
    q' < r.stop → chunkAt r q' = chunkAt r q →
    (r.within q < bytes.length → r.within q' < bytes.length) →
    bytes.getD (r.within q') 0 = img.discByte q'

theorem within_add {i : Nat} (hp : r.offset ≤ p) (hi : r.within p + i < r.chunk) :
    r.within (p + i) = r.within p + i ∧ chunkAt r (p + i) = chunkAt r p := by
  unfold Region.within chunkAt at *
  have hdiv := Nat.div_add_mod (p - r.offset) r.chunk
  have heq : p + i - r.offset =
      r.chunk * ((p - r.offset) / r.chunk) + ((p - r.offset) % r.chunk + i) := by
    omega
  rw [heq]
  constructor
  · rw [Nat.mul_add_mod, Nat.mod_eq_of_lt hi]
  · rw [Nat.mul_add_div r.chunk_pos, Nat.div_eq_of_lt hi, Nat.add_zero]

theorem serves (hgroups : img.GroupReadsSucceed) (hfit : img.RegionsFit) :
    Serves (img.readPiece fun _ => .clean) (fun s => img.Holds s.1) (fun _ => True)
      img.discByte := by
  intro s offset size hs hsize _
  cases hr : img.regionAt offset with
  | none =>
    refine ⟨s, size, hs, hsize, le_refl size, ?_⟩
    rw [readPiece_none hr, window_const]
    intro i _
    rcases Nat.eq_zero_or_pos i with rfl | hi
    · exact discByte_none hr
    · exact hfit.gaps offset (offset + i) (by omega) hr
  | some r =>
    obtain ⟨hin, L, hL⟩ := hgroups offset r hr
    obtain ⟨s', hfetch, hindex, hdec⟩ := fetch_succeeds hs hr hin hL
    have hcov := covers_of_regionAt hr
    have htake := take_pos hr hsize
    obtain ⟨n, hn, hle, hend, -, hserve⟩ :=
      serve_eq_window s'.1.groupBytes (r.within offset) _ htake
    refine ⟨s', n, .inr (hindex ▸ hdec), hn, by omega, ?_⟩
    rw [readPiece_fetched size hr hin hsize hfetch, hserve]
    congr 2
    refine window_congr fun i hi => ?_
    obtain ⟨hw, hc⟩ := within_add (i := i) hcov.1 (by omega)
    have hpiece := hfit.pieces offset (offset + i) r _ hr hdec (by omega) (by omega) hc
    rw [hw] at hpiece
    exact hpiece fun h => by have := hend h; omega

theorem holds_of_reached (hgroups : img.GroupReadsSucceed) {cache : Cache}
    (h : img.Reached cache) : img.Holds cache := by
  refine Driven.invariant (fun _ h => h ▸ holds_empty) (fun c range c' hc _ hstep => ?_) h
  subst hstep
  show img.Holds (readAll (img.readPiece fun _ => .clean) (c, 0) range.1 range.2).1.1
  refine readPieces_invariant (fun s : Cache × Nat => img.Holds s.1) (fun _ _ _ => True)
    (fun s offset size hsize hs _ => ?_) hc (visits_of_forall _ fun _ _ _ => trivial)
  cases hr : img.regionAt offset with
  | none => rwa [readPiece_none hr]
  | some r =>
    obtain ⟨hin, L, hL⟩ := hgroups offset r hr
    obtain ⟨s', hfetch, hindex, hdec⟩ := fetch_succeeds hs hr hin hL
    rw [readPiece_fetched size hr hin hsize hfetch]
    exact .inr (hindex ▸ hdec)

theorem readAll_one {piece : Cache × Nat → Nat → Nat → (Cache × Nat) × Option (List UInt8)}
    {offset : Nat} (hsize : 0 < size) (hlength : bytes.length = size)
    (h : piece s offset size = (s', some bytes)) :
    readAll piece s offset size = (s', some bytes) := by
  obtain ⟨size, rfl⟩ := Nat.exists_eq_add_of_lt hsize
  unfold readAll
  rw [readPieces_some hsize h, hlength, Nat.sub_self, readPieces_zero]
  show (s', some (bytes ++ [])) = _
  rw [List.append_nil]

theorem within_of_chunkAt (hq : r.offset ≤ q) {q' : Nat} (hqq : q ≤ q')
    (h : chunkAt r q' = chunkAt r q) : r.within q' = r.within q + (q' - q) := by
  unfold Region.within chunkAt at *
  have hq1 := Nat.div_add_mod (q - r.offset) r.chunk
  have hq2 := Nat.div_add_mod (q' - r.offset) r.chunk
  rw [h] at hq2
  omega

theorem reached_of_decodes {group : Nat} (h : img.Decodes group bytes) :
    img.Reached ⟨bytes, group⟩ := by
  obtain ⟨p, r, hr, rfl, hin, hdec⟩ := h
  refine Driven.step (e := (p, 1)) (.start (s := Cache.empty) rfl) trivial ?_
  have hmiss : (Cache.empty, 0).1.groupIndex ≠ r.groupAt p := (groupAt_ne_noGroup hin).symm
  have hfetch : img.fetch (fun _ => .clean) (r.groupAt p) r (Cache.empty, 0) =
      ((⟨bytes, r.groupAt p⟩, 0 + 1), true) := by
    rw [fetch_miss hmiss, decoded_eq_some.mp hdec]
  have hpiece := readPiece_fetched 1 hr hin Nat.one_pos hfetch
  have htake := take_pos hr Nat.one_pos
  obtain ⟨n, hn, hle, -, -, hserve⟩ := serve_eq_window bytes (r.within p) _ htake
  have hread := readAll_one Nat.one_pos (by rw [hserve, length_window]; omega) hpiece
  show (readAll (img.readPiece fun _ => .clean) (Cache.empty, 0) p 1).1.1 = _
  rw [hread]

/-- **A read gives the byte of each of its positions, whatever was read before, exactly if the
regions fit.** -/
theorem reads_pointwise_iff (hgroups : img.GroupReadsSucceed) :
    img.ReadsPointwise ↔ img.RegionsFit := by
  constructor
  · intro h
    constructor
    · intro p q hpq hp
      have hread := h .empty (.start rfl) p (q - p + 1)
      have hone : readAll (img.readPiece fun _ => .clean) (Cache.empty, 0) p (q - p + 1) =
          ((Cache.empty, 0), some (List.replicate (q - p + 1) 0)) :=
        readAll_one (by omega) (List.length_replicate ..) (readPiece_none hp)
      unfold readThrough clean at hread
      rw [hone] at hread
      have hat := congrArg (·[q - p]?) (Option.some.inj hread)
      simp only [getElem?_window img.discByte p (show q - p < q - p + 1 by omega),
        List.getElem?_replicate, if_pos (show q - p < q - p + 1 by omega)] at hat
      rw [show p + (q - p) = q by omega] at hat
      exact (Option.some.inj hat).symm
    · intro q q' r bytes hr hdec hqq hstop hchunk hlong
      have hcov := covers_of_regionAt hr
      have hwithin := within_of_chunkAt hcov.1 hqq hchunk
      have hlt : r.within q' < r.chunk := Nat.mod_lt _ r.chunk_pos
      obtain ⟨hin, -⟩ := hgroups q r hr
      have hread := h ⟨bytes, r.groupAt q⟩ (reached_of_decodes hdec) q (q' - q + 1)
      have hpiece : img.readPiece (fun _ => .clean) (⟨bytes, r.groupAt q⟩, 0) q (q' - q + 1) = _ :=
        readPiece_fetched _ hr hin (by omega) (fetch_hit rfl)
      have htake : min (q' - q + 1) (min (r.stop - q) (r.chunk - r.within q)) = q' - q + 1 := by
        omega
      rw [htake] at hpiece
      obtain ⟨n, -, -, -, hall, hserve⟩ :=
        serve_eq_window bytes (r.within q) (q' - q + 1) (by omega)
      obtain rfl : n = q' - q + 1 := hall fun hq => by have := hlong hq; omega
      have hone := readAll_one (by omega) (by rw [hserve, length_window]) hpiece
      unfold readThrough clean at hread
      rw [hone] at hread
      have hwin := Option.some.inj hread
      rw [hserve] at hwin
      have hat := congrArg (·[q' - q]?) hwin
      simp only [getElem?_window _ _ (show q' - q < q' - q + 1 by omega)] at hat
      rw [show q + (q' - q) = q' by omega, ← hwithin] at hat
      exact Option.some.inj hat
  · intro hfit cache hcache offset size
    obtain ⟨s', -, hread⟩ := (serves hgroups hfit).reads (s := (cache, 0)) offset size
      (holds_of_reached hgroups hcache) fun _ _ => trivial
    exact congrArg Prod.snd hread

/-! a file with one raw-data region, whose groups have one byte each -/

def smallFile (compression offset size : Nat) (bytes : List UInt8) : List UInt8 :=
  let zeros (n : Nat) := List.replicate n 0
  let groupsAt := kFileHeaderSize + kDiscSize
  let rawAt := groupsAt + 12 * bytes.length
  let dataAt := rawAt + kRawDataEntrySize
  [0x52, 0x56, 0x5A, 0x01] ++ zeros 8 ++ word32 kDiscSize ++ zeros 56 ++
  -- the disc
  word32 1 ++ word32 compression ++ word32 0 ++ word32 0x8000 ++ zeros 0x80 ++ zeros 0x24 ++
  word32 1 ++ word64 rawAt ++ word32 kRawDataEntrySize ++
  word32 bytes.length ++ word64 groupsAt ++ word32 (12 * bytes.length) ++ zeros 8 ++
  -- the tables, and the groups four bytes apart
  ((List.range bytes.length).flatMap fun i =>
    word32 (dataAt / 4 + i) ++ word32 (1 + if compression = 0 then 0 else 2 ^ 31) ++ word32 0) ++
  word64 offset ++ word64 size ++ word32 0 ++ word32 bytes.length ++
  bytes.flatMap fun b => [b, 0, 0, 0]

def smallRegion (offset size groups : Nat) : Region :=
  ⟨offset, size, 0, groups, 0x8000, 0, by decide⟩

theorem regionAt_single (hregions : img.regions = [r]) (h : img.regionAt p = some r') : r' = r := by
  have hmem := List.mem_of_find?_eq_some h
  rw [hregions] at hmem
  exact List.mem_singleton.mp hmem

theorem groupReadsSucceed_single (hregions : img.regions = [r]) (hstop : r.stop = r.offset + 1)
    (hin : r.groupAt r.offset < r.stopGroup)
    (hdec : img.decoded (r.groupAt r.offset) r = some bytes) : img.GroupReadsSucceed := by
  intro p r' hr
  obtain rfl := regionAt_single hregions hr
  have hcov := covers_of_regionAt hr
  obtain rfl : p = r'.offset := by omega
  exact ⟨hin, bytes, hdec⟩

theorem reads_pointwise_iff_small :
    ∃ img, openFile (.fromMemory (smallFile 0 0 1 [7])) none = some img ∧
      (img.ReadsPointwise ↔ img.RegionsFit) := by
  have hopen : (openFile (.fromMemory (smallFile 0 0 1 [7])) none).map (fun img =>
      (img.regions, img.decoded 0 (smallRegion 0 1 1))) =
        some ([smallRegion 0 1 1], some [7]) := by
    decide +kernel
  obtain ⟨img, himg, hvals⟩ := Option.map_eq_some_iff.mp hopen
  obtain ⟨hregions, hdec⟩ := Prod.mk.inj hvals
  exact ⟨img, himg, reads_pointwise_iff
    (groupReadsSucceed_single hregions (by decide) (by decide) hdec)⟩

/-- a read that begins in front of a region reads zeros where the region is -/
theorem read_skips_region :
    ∃ img, openFile (.fromMemory (smallFile 0 0x8000 1 [7])) none = some img ∧
      img.GroupReadsSucceed ∧ (img.readThrough .empty (clean 0x7FFF 2)).2 = some [0, 0] ∧
      (img.readThrough .empty (clean 0x8000 1)).2 = some [7] ∧ ¬ img.ReadsPointwise := by
  have hopen : (openFile (.fromMemory (smallFile 0 0x8000 1 [7])) none).map (fun img =>
      (img.regions, img.discByte 0x8000, [img.decoded 0 (smallRegion 0x8000 1 1),
        (img.readThrough .empty (clean 0x7FFF 2)).2,
        (img.readThrough .empty (clean 0x8000 1)).2])) =
        some ([smallRegion 0x8000 1 1], 7, [some [7], some [0, 0], some [7]]) := by
    decide +kernel
  obtain ⟨img, himg, hvals⟩ := Option.map_eq_some_iff.mp hopen
  obtain ⟨hregions, hbyte, hdec, hread, hread', -⟩ := by
    simpa only [Prod.mk.injEq, List.cons.injEq] using hvals
  refine ⟨img, himg, groupReadsSucceed_single hregions (by decide) (by decide) hdec, hread, hread',
    fun h => ?_⟩
  have hwin := h .empty (.start rfl) 0x7FFF 2
  rw [hread] at hwin
  have hat := congrArg (·[1]?) (Option.some.inj hwin)
  simp only [getElem?_window img.discByte 0x7FFF (show 1 < 2 by decide)] at hat
  rw [show 0x7FFF + 1 = 0x8000 by decide, hbyte] at hat
  cases hat

/-! ## reads after failures -/

/-- positions of one group are in regions that cut and list alike -/
def SharedGroupsAgree (img : Rvz) : Prop :=
  ∀ p q r r', img.regionAt p = some r → img.regionAt q = some r' → r.groupAt p = r'.groupAt q →
    r.chunk = r'.chunk ∧ r.lists = r'.lists

/-- the decompressor does not fail here while the cache names another group -/
def Unspoiled (img : Rvz) (attempts : Nat → Attempt) (s : Cache × Nat) (offset _size : Nat) :
    Prop :=
  ∀ r, img.regionAt offset = some r → r.groupAt offset < r.stopGroup →
    s.1.groupIndex ≠ r.groupAt offset → s.1.groupIndex ≠ noGroup →
      ¬ img.InflateFails (attempts s.2) (r.groupAt offset) r

def CallUnspoiled (img : Rvz) (cache : Cache) (call : Call) : Prop :=
  Visits (img.readPiece call.attempts) (img.Unspoiled call.attempts) call.size (cache, 0)
    call.offset call.size

theorem readPiece_holds {offset : Nat} (hsize : 0 < size)
    (hs : img.Holds s.1) (hok : img.Unspoiled attempts s offset size) :
    img.Holds (img.readPiece attempts s offset size).1.1 := by
  cases hr : img.regionAt offset with
  | none => rwa [readPiece_none hr]
  | some r =>
    by_cases hin : r.groupAt offset < r.stopGroup
    · rcases hfetch : img.fetch attempts (r.groupAt offset) r s with ⟨s', _ | _⟩
      · rw [readPiece_failed hr hin hfetch]
        by_cases hhit : s.1.groupIndex = r.groupAt offset
        · rw [fetch_hit hhit] at hfetch
          cases hfetch
        · rw [fetch_miss hhit] at hfetch
          split at hfetch
          · obtain rfl := congrArg Prod.fst hfetch
            exact hs
          · next out hout =>
            -- the bytes are lost, so no group may be named
            obtain rfl := congrArg Prod.fst hfetch
            by_cases hno : s.1.groupIndex = noGroup
            · exact .inl hno
            · exact absurd (inflateFails_of_spoiled hout) (hok r hr hin hhit hno)
          · cases hfetch
      · obtain ⟨hindex, hdec⟩ := fetch_decodes hs hr hin hfetch
        rw [readPiece_fetched size hr hin hsize hfetch]
        exact .inr (hindex ▸ hdec)
    · rwa [readPiece_out hr (by omega)]

theorem decoded_of_decodes (hshared : img.SharedGroupsAgree) (hr : img.regionAt p = some r)
    (h : img.Decodes (r.groupAt p) bytes) : img.decoded (r.groupAt p) r = some bytes := by
  obtain ⟨p0, r0, hr0, hsame, -, hdec⟩ := h
  obtain ⟨hchunk, hlists⟩ := hshared p0 p r0 r hr0 hr hsame
  rw [decoded_eq_some] at hdec ⊢
  rw [← hdec]
  exact (expand_congr hchunk hlists).symm

theorem readPiece_follows (hshared : img.SharedGroupsAgree) {t : Cache × Nat} {offset : Nat}
    (hs : img.Holds s.1) (ht : img.Holds t.1) (hsize : 0 < size)
    (h : (img.readPiece attempts s offset size).2 = some bytes) :
    (img.readPiece (fun _ => .clean) t offset size).2 = some bytes ∧
      img.Holds (img.readPiece attempts s offset size).1.1 ∧
      img.Holds (img.readPiece (fun _ => .clean) t offset size).1.1 := by
  cases hr : img.regionAt offset with
  | none =>
    rw [readPiece_none hr] at h ⊢
    rw [readPiece_none hr]
    exact ⟨h, hs, ht⟩
  | some r =>
    by_cases hin : r.groupAt offset < r.stopGroup
    · rcases hfetch : img.fetch attempts (r.groupAt offset) r s with ⟨s', _ | _⟩
      · rw [readPiece_failed hr hin hfetch] at h
        cases h
      · obtain ⟨hindex, hdec⟩ := fetch_decodes hs hr hin hfetch
        have hL := decoded_of_decodes hshared hr hdec
        obtain ⟨t', hfetch', hindex', hdec'⟩ := fetch_succeeds ht hr hin hL
        have hL' := decoded_of_decodes hshared hr hdec'
        have hbytes : s'.1.groupBytes = t'.1.groupBytes := Option.some.inj (hL.symm.trans hL')
        rw [readPiece_fetched size hr hin hsize hfetch] at h ⊢
        rw [readPiece_fetched size hr hin hsize hfetch', ← hbytes]
        exact ⟨h, .inr (hindex ▸ hdec), .inr (hindex' ▸ hdec')⟩
    · rw [readPiece_out hr (by omega)] at h
      cases h

/-- **While no group is spoiled, the cache has the bytes of the group it names, and a read that
succeeds gives what it gives in an image that was just opened.** -/
theorem reads_after_failures (hshared : img.SharedGroupsAgree) {cache : Cache}
    (h : Driven (· = .empty) img.CallUnspoiled
      (fun cache call cache' => (img.readThrough cache call).1 = cache') cache) :
    img.Holds cache ∧ ∀ call bytes, (img.readThrough cache call).2 = some bytes →
      (img.readThrough .empty (clean call.offset call.size)).2 = some bytes := by
  have hcache : img.Holds cache := by
    refine Driven.invariant (fun _ h => h ▸ holds_empty) (fun c call c' hc hok hstep => ?_) h
    subst hstep
    exact readPieces_invariant (fun s : Cache × Nat => img.Holds s.1) _
      (fun s offset size hsize hs hok => readPiece_holds hsize hs hok) hc hok
  refine ⟨hcache, fun call bytes hread => ?_⟩
  refine readPieces_follow (R := fun s t : Cache × Nat => img.Holds s.1 ∧ img.Holds t.1)
    (fun s t offset size bytes hst hsize hpiece => ?_)
    (show img.Holds (cache, 0).1 ∧ img.Holds (Cache.empty, 0).1 from ⟨hcache, holds_empty⟩) hread
  exact readPiece_follows hshared hst.1 hst.2 hsize hpiece

/-- a decompressor for what was only copied -/
def copied : Decompressor := some fun _ raw room => ⟨raw, min raw.length room⟩

theorem reads_after_failures_small :
    ∃ img, openFile (.fromMemory (smallFile 5 0 0x10000 [7, 9])) copied = some img ∧
      let failing := (img.readThrough .empty (clean 0 1)).1
      let cache := (img.readThrough failing ⟨0x8000, 1, fun _ => ⟨false, none⟩⟩).1
      img.Holds cache ∧ ∀ call bytes, (img.readThrough cache call).2 = some bytes →
        (img.readThrough .empty (clean call.offset call.size)).2 = some bytes := by
  have hopen : (openFile (.fromMemory (smallFile 5 0 0x10000 [7, 9])) copied).map (·.regions) =
      some [smallRegion 0 0x10000 2] := by
    decide +kernel
  obtain ⟨img, himg, hregions⟩ := Option.map_eq_some_iff.mp hopen
  have hshared : img.SharedGroupsAgree := fun p q r r' hr hr' _ => by
    obtain rfl := regionAt_single hregions hr
    obtain rfl := regionAt_single hregions hr'
    exact ⟨rfl, rfl⟩
  refine ⟨img, himg, reads_after_failures hshared (.step (e := ⟨0x8000, 1, fun _ => ⟨false, none⟩⟩)
    (.step (e := clean 0 1) (.start rfl) (visits_one ?_) rfl) (visits_one ?_) rfl)⟩
  · intro r _ _ _ hno
    exact absurd rfl hno
  · intro r _ _ _ _ hfails
    obtain ⟨group, inflate, raw, -, -, -, -, hraw, -⟩ := hfails
    cases hraw

/-- a group that was spoiled is served in place of the one the cache names -/
theorem spoiled_group_served :
    ∃ img, openFile (.fromMemory (smallFile 5 0 0x10000 [7, 9])) copied = some img ∧
      let good := (img.readThrough .empty (clean 0 1)).1
      let failing := img.readThrough good ⟨0x8000, 1, fun _ => ⟨true, some []⟩⟩
      failing.2 = none ∧ (img.readThrough failing.1 (clean 0 1)).2 = some [0] ∧
        (img.readThrough .empty (clean 0 1)).2 = some [7] := by
  have hopen : (openFile (.fromMemory (smallFile 5 0 0x10000 [7, 9])) copied).map (fun img =>
      let good := (img.readThrough .empty (clean 0 1)).1
      let failing := img.readThrough good ⟨0x8000, 1, fun _ => ⟨true, some []⟩⟩
      (failing.2, (img.readThrough failing.1 (clean 0 1)).2,
        (img.readThrough .empty (clean 0 1)).2)) = some (none, some [0], some [7]) := by
    decide +kernel
  obtain ⟨img, himg, hvals⟩ := Option.map_eq_some_iff.mp hopen
  exact ⟨img, himg, by simpa only [Prod.mk.injEq] using hvals⟩

end DolTranslator.Disc.Rvz
