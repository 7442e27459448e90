import DolTranslator.Nand.Store

/-!
# An install is a list of writes

* `attempt`   writes one after the other, up to the first that fails;
* `plan`   what an install writes, by the wad and the stored map alone;
* `installOpened_eq`   an install attempts its plan;
* `Tmd.Parse_raw`, `Wad.Parse_spec`   what parses of a wad can be read back.
-/

namespace DolTranslator.Nand

open Disc Streams

/-! ## writes one after the other -/

abbrev Writes := List (Path × Bytes)

def attempt (outcome : Nat → Bool) : Writes → Store → Store × Bool
  | [], s => (s, true)
  | (path, bytes) :: writes, s =>
    if (s.Write outcome path bytes).2 then attempt outcome writes (s.Write outcome path bytes).1
    else ((s.Write outcome path bytes).1, false)

def Files.after (files : Files) (writes : Writes) : Files :=
  writes.foldl (fun files write => files.set write.1 (some write.2)) files

/-- how many of so many operations succeed before the first that fails -/
def passed (outcome : Nat → Bool) : Nat → Nat → Nat
  | _, 0 => 0
  | k, n + 1 => if outcome k then passed outcome (k + 1) n + 1 else 0

theorem passed_le (outcome : Nat → Bool) (k n : Nat) : passed outcome k n ≤ n := by
  induction n generalizing k with
  | zero => exact Nat.le_refl 0
  | succ n ih =>
    unfold passed
    split
    · exact Nat.succ_le_succ (ih (k + 1))
    · exact Nat.zero_le _

theorem attempt_append (outcome : Nat → Bool) (writes writes' : Writes) (s : Store) :
    attempt outcome (writes ++ writes') s =
      if (attempt outcome writes s).2 then attempt outcome writes' (attempt outcome writes s).1
      else attempt outcome writes s := by
  induction writes generalizing s with
  | nil => rfl
  | cons write writes ih =>
    obtain ⟨path, bytes⟩ := write
    rw [List.cons_append, attempt, attempt]
    by_cases h : (s.Write outcome path bytes).2 = true
    · rw [if_pos h, if_pos h, ih]
    · rw [if_neg h, if_neg h]
      rfl

/-- **What an attempt leaves** is the writes before the first that fails. -/
theorem attempt_spec (outcome : Nat → Bool) (writes : Writes) (s : Store) :
    (attempt outcome writes s).1.files =
        s.files.after (writes.take (passed outcome s.count writes.length)) ∧
      ((attempt outcome writes s).2 = true ↔
        passed outcome s.count writes.length = writes.length) := by
  induction writes generalizing s with
  | nil => exact ⟨rfl, fun _ => rfl, fun _ => rfl⟩
  | cons write writes ih =>
    obtain ⟨path, bytes⟩ := write
    unfold attempt Store.Write
    rw [List.length_cons, passed]
    by_cases h : outcome s.count = true
    · rw [if_pos h, if_pos rfl, if_pos h]
      obtain ⟨hfiles, hok⟩ := ih ⟨s.files.set path (some bytes), s.count + 1⟩
      refine ⟨hfiles, hok.trans ?_⟩
      dsimp only
      omega
    · rw [if_neg h, if_neg Bool.false_ne_true, if_neg h]
      refine ⟨rfl, fun hfalse => absurd hfalse Bool.false_ne_true, fun hzero => ?_⟩
      exact absurd hzero (Nat.succ_ne_zero _).symm

namespace Files

variable {files : Files} {path : Path} {writes : Writes}

@[simp] theorem set_self (files : Files) (path : Path) (bytes : Option Bytes) :
    files.set path bytes path = bytes := if_pos rfl

theorem set_of_ne {path' : Path} (h : path' ≠ path) (bytes : Option Bytes) :
    files.set path bytes path' = files path' := if_neg h

/-- a write changes its own path only -/
theorem Write_of_ne {outcome : Nat → Bool} {s : Store} {path' : Path} {bytes : Bytes}
    (h : path' ≠ path) : (s.Write outcome path bytes).1.files path' = s.files path' := by
  unfold Store.Write
  split
  · exact set_of_ne h _
  · rfl

theorem after_append (writes' : Writes) :
    files.after (writes ++ writes') = (files.after writes).after writes' :=
  List.foldl_append

theorem after_of_not_mem (h : path ∉ writes.map Prod.fst) : files.after writes path = files path := by
  induction writes generalizing files with
  | nil => rfl
  | cons write writes ih =>
    rw [List.map_cons, List.mem_cons, not_or] at h
    exact (ih h.2).trans (set_of_ne h.1 _)

theorem isSome_after :
    (files.after writes path).isSome = true ↔
      path ∈ writes.map Prod.fst ∨ (files path).isSome = true := by
  induction writes generalizing files with
  | nil => simp [after]
  | cons write writes ih =>
    show ((files.set write.1 (some write.2)).after writes path).isSome = true ↔ _
    rw [ih, List.map_cons, List.mem_cons]
    by_cases h : path = write.1
    · rw [h, set_self]
      simp
    · rw [set_of_ne h]
      tauto

theorem after_last {bytes : Bytes} {writes' : Writes} (h : path ∉ writes'.map Prod.fst) :
    files.after (writes ++ (path, bytes) :: writes') path = some bytes := by
  rw [after_append]
  show ((files.after writes).set path (some bytes)).after writes' path = _
  rw [after_of_not_mem h, set_self]

end Files

/-! ## the plan -/

/-- the writes of the contents, given the map -/
def contentWrites (o : Opened) (id : Nat) : List ContentRecord → SharedMap → Writes
  | [], _ => []
  | content :: contents, shared =>
    match o.wad.Content content.index with
    | none => []
    | some extent =>
      if content.Shared then
        match shared.find content.sha1 with
        | some _ => contentWrites o id contents shared
        | none =>
          (sharedPath shared.nextName, o.bytes extent content) ::
            contentWrites o id contents (shared.add content.sha1)
      else
        (ContentFilePath id content.id, o.bytes extent content) ::
          contentWrites o id contents shared

/-- the map with what the contents add to it -/
def mapAfter : List ContentRecord → SharedMap → SharedMap
  | [], shared => shared
  | content :: contents, shared =>
    if content.Shared then
      match shared.find content.sha1 with
      | some _ => mapAfter contents shared
      | none => mapAfter contents (shared.add content.sha1)
    else mapAfter contents shared

def mapWrites (shared : SharedMap) : Writes :=
  if shared.bytes ≠ [] then [(mapPath, shared.bytes)] else []

def plan (o : Opened) (files : Files) : Writes :=
  let id := o.wad.tmd.title_id
  (TicketPath id, o.wad.ticket.raw) :: (TmdPath id, o.wad.tmd.raw) ::
    (contentWrites o id o.wad.tmd.contents (LoadSharedMap files) ++
      mapWrites (mapAfter o.wad.tmd.contents (LoadSharedMap files)))

/-- every content has its place in the file -/
def Opened.Whole (o : Opened) : Prop :=
  ∀ content ∈ o.wad.tmd.contents, (o.wad.Content content.index).isSome = true

section

variable {o : Opened} {id : Nat} {content : ContentRecord} {contents : List ContentRecord}
  {shared : SharedMap} {extent : WadSection}

theorem contentWrites_known {name : List UInt8}
    (hextent : o.wad.Content content.index = some extent) (hshared : content.Shared = true)
    (hfind : shared.find content.sha1 = some name) :
    contentWrites o id (content :: contents) shared = contentWrites o id contents shared := by
  rw [contentWrites, hextent]
  dsimp only
  rw [if_pos hshared, hfind]

theorem contentWrites_new (hextent : o.wad.Content content.index = some extent)
    (hshared : content.Shared = true) (hfind : shared.find content.sha1 = none) :
    contentWrites o id (content :: contents) shared =
      (sharedPath shared.nextName, o.bytes extent content) ::
        contentWrites o id contents (shared.add content.sha1) := by
  rw [contentWrites, hextent]
  dsimp only
  rw [if_pos hshared, hfind]

theorem contentWrites_own (hextent : o.wad.Content content.index = some extent)
    (hshared : ¬ content.Shared = true) :
    contentWrites o id (content :: contents) shared =
      (ContentFilePath id content.id, o.bytes extent content) ::
        contentWrites o id contents shared := by
  rw [contentWrites, hextent]
  exact if_neg hshared

theorem mapAfter_known {name : List UInt8} (hshared : content.Shared = true)
    (hfind : shared.find content.sha1 = some name) :
    mapAfter (content :: contents) shared = mapAfter contents shared := by
  rw [mapAfter, if_pos hshared, hfind]

theorem mapAfter_new (hshared : content.Shared = true) (hfind : shared.find content.sha1 = none) :
    mapAfter (content :: contents) shared = mapAfter contents (shared.add content.sha1) := by
  rw [mapAfter, if_pos hshared, hfind]

theorem mapAfter_own (hshared : ¬ content.Shared = true) :
    mapAfter (content :: contents) shared = mapAfter contents shared := if_neg hshared

end

theorem installContents_eq (outcome : Nat → Bool) {o : Opened} {id : Nat}
    {contents : List ContentRecord} (shared : SharedMap) (s : Store)
    (hwhole : ∀ content ∈ contents, (o.wad.Content content.index).isSome = true) :
    installContents outcome o id contents shared s =
      ((attempt outcome (contentWrites o id contents shared) s).1,
        if (attempt outcome (contentWrites o id contents shared) s).2 then
          some (mapAfter contents shared)
        else none) := by
  induction contents generalizing shared s with
  | nil => rfl
  | cons content contents ih =>
    have hrest (shared : SharedMap) (s : Store) :=
      ih shared s fun c hc => hwhole c (List.mem_cons_of_mem _ hc)
    obtain ⟨extent, hextent⟩ := Option.isSome_iff_exists.mp (hwhole content List.mem_cons_self)
    unfold installContents
    rw [hextent]
    dsimp only
    by_cases hshared : content.Shared = true
    · rw [if_pos hshared]
      cases hfind : shared.find content.sha1 with
      | some name =>
        rw [contentWrites_known hextent hshared hfind, mapAfter_known hshared hfind]
        exact hrest shared s
      | none =>
        rw [contentWrites_new hextent hshared hfind, mapAfter_new hshared hfind, attempt]
        dsimp only
        by_cases hok : (s.Write outcome (sharedPath shared.nextName) (o.bytes extent content)).2 =
          true
        · rw [if_pos hok, if_pos hok, hrest]
        · rw [if_neg hok, if_neg hok]
          rfl
    · rw [if_neg hshared, contentWrites_own hextent hshared, mapAfter_own hshared, attempt]
      by_cases hok : (s.Write outcome (ContentFilePath id content.id) (o.bytes extent content)).2 =
        true
      · rw [if_pos hok, if_pos hok, hrest]
      · rw [if_neg hok, if_neg hok]
        rfl

/-! ## paths -/

@[simp] theorem length_Hex8 (value : Nat) : (Hex8 value).length = 8 := rfl

theorem length_TicketPath (id : Nat) : (TicketPath id).length = 29 := rfl

theorem length_TmdPath (id : Nat) : (TmdPath id).length = 42 := rfl

theorem length_ContentFilePath (id content_id : Nat) :
    (ContentFilePath id content_id).length = 45 := rfl

theorem length_mapPath : mapPath.length = 20 := rfl

theorem length_sharedPath (name : List UInt8) : (sharedPath name).length = 13 + name.length := by
  unfold sharedPath
  rw [List.length_append, List.length_append]
  show 9 + name.length + 4 = _
  omega

theorem ne_of_length {path path' : Path} (h : path.length ≠ path'.length) : path ≠ path' :=
  fun heq => h (congrArg List.length heq)

theorem mapPath_ne_TicketPath (id : Nat) : mapPath ≠ TicketPath id :=
  ne_of_length (by rw [length_mapPath, length_TicketPath]; decide)

theorem mapPath_ne_TmdPath (id : Nat) : mapPath ≠ TmdPath id :=
  ne_of_length (by rw [length_mapPath, length_TmdPath]; decide)

/-- only the shared map is read of the files -/
theorem LoadSharedMap_congr {files files' : Files} (h : files' mapPath = files mapPath) :
    LoadSharedMap files' = LoadSharedMap files := by
  unfold LoadSharedMap
  rw [h]

/-- **An install attempts its plan.** -/
theorem installOpened_eq (outcome : Nat → Bool) {o : Opened} (hwhole : o.Whole) (s : Store) :
    installOpened outcome o s =
      ((attempt outcome (plan o s.files) s).1,
        if (attempt outcome (plan o s.files) s).2 then .Installed else .WriteFailed) := by
  unfold installOpened plan
  dsimp only
  rw [attempt]
  by_cases hticket : (s.Write outcome (TicketPath o.wad.tmd.title_id) o.wad.ticket.raw).2 = true
  · have hnot : ¬ (!true) = true := by decide
    rw [hticket, if_pos rfl, if_neg hnot, attempt]
    generalize hs : (s.Write outcome (TicketPath o.wad.tmd.title_id) o.wad.ticket.raw).1 = s1
    by_cases htmd : (s1.Write outcome (TmdPath o.wad.tmd.title_id) o.wad.tmd.raw).2 = true
    · rw [htmd, if_pos rfl, if_neg hnot]
      have hmap : (s1.Write outcome (TmdPath o.wad.tmd.title_id) o.wad.tmd.raw).1.files mapPath =
          s.files mapPath := by
        rw [Files.Write_of_ne (mapPath_ne_TmdPath _), ← hs,
          Files.Write_of_ne (mapPath_ne_TicketPath _)]
      rw [LoadSharedMap_congr hmap, installContents_eq outcome _ _ hwhole, attempt_append]
      generalize hs2 : attempt outcome (contentWrites o o.wad.tmd.title_id o.wad.tmd.contents
        (LoadSharedMap s.files)) (s1.Write outcome (TmdPath o.wad.tmd.title_id) o.wad.tmd.raw).1 = r
      by_cases hcontents : r.2 = true
      · rw [if_pos hcontents, if_pos hcontents]
        dsimp only
        unfold mapWrites
        by_cases hempty :
          (mapAfter o.wad.tmd.contents (LoadSharedMap s.files)).bytes ≠ []
        · rw [if_pos hempty, if_pos hempty, attempt]
          by_cases hok : (r.1.Write outcome mapPath
              (mapAfter o.wad.tmd.contents (LoadSharedMap s.files)).bytes).2 = true
          · rw [if_pos hok, if_pos hok]
            rfl
          · rw [if_neg hok, if_neg hok]
            rfl
        · rw [if_neg hempty, if_neg hempty]
          rfl
      · rw [if_neg hcontents, if_neg hcontents]
        dsimp only
        rw [if_neg hcontents]
    · rw [eq_false_of_ne_true htmd]
      rfl
  · rw [eq_false_of_ne_true hticket]
    rfl

/-! ## what was parsed -/

section

variable {data : Bytes} {i n : Nat}

theorem byteAt_take (h : i < n) : byteAt (data.take n) i = byteAt data i := by
  unfold byteAt
  rw [List.getD_eq_getElem?_getD, List.getD_eq_getElem?_getD, List.getElem?_take_of_lt h]

theorem read16_take (h : i + 2 ≤ n) : read16 (data.take n) i = read16 data i := by
  unfold read16
  rw [byteAt_take (by omega), byteAt_take (by omega)]

theorem read32_take (h : i + 4 ≤ n) : read32 (data.take n) i = read32 data i := by
  unfold read32
  rw [read16_take (by omega), read16_take (by omega)]

theorem read64_take (h : i + 8 ≤ n) : read64 (data.take n) i = read64 data i := by
  unfold read64
  rw [read32_take (by omega), read32_take (by omega)]

theorem slice_take {m : Nat} (h : i + m ≤ n) : slice (data.take n) i m = slice data i m := by
  unfold slice
  rw [List.drop_take, List.take_take, Nat.min_eq_left (by omega)]

end

/-- **A TMD is read back** from what was kept of it. -/
theorem Tmd.Parse_raw {data : Bytes} {tmd : Tmd} (h : Tmd.Parse data = some tmd) :
    Tmd.Parse tmd.raw = some tmd := by
  unfold Tmd.Parse at h
  split at h
  · cases h
  · next hlen =>
    split at h
    · cases h
    · next signature hsignature =>
      have hcontents : Tmd.kTmdContents = 0xA4 := rfl
      have hrecord : Tmd.kContentRecordSize = 0x24 := rfl
      have hpos : 4 ≤ signature := by
        unfold SignatureSize at hsignature
        split at hsignature <;> cases hsignature <;> decide
      dsimp only at h
      obtain ⟨needed, hn⟩ : ∃ needed, signature + Tmd.kTmdContents +
        read16 data (signature + 0x9E) * Tmd.kContentRecordSize = needed := ⟨_, rfl⟩
      rw [hn] at h
      split at h
      · cases h
      · split at h
        · cases h
        · next hneeded =>
          obtain rfl := Option.some.inj h
          dsimp only
          have htake : (data.take needed).length = needed := List.length_take_of_le (by omega)
          have hcount : read16 (data.take needed) (signature + 0x9E) =
              read16 data (signature + 0x9E) := read16_take (by omega)
          have hrecords : (List.range (read16 data (signature + 0x9E))).map (fun i =>
              Tmd.readRecord (data.take needed)
                (signature + Tmd.kTmdContents + i * Tmd.kContentRecordSize)) =
              (List.range (read16 data (signature + 0x9E))).map fun i =>
              Tmd.readRecord data
                (signature + Tmd.kTmdContents + i * Tmd.kContentRecordSize) := by
            refine List.map_congr_left fun i hi => ?_
            have hi := List.mem_range.mp hi
            have hroom : signature + Tmd.kTmdContents + i * Tmd.kContentRecordSize + 0x24 ≤
                needed := by
              rw [← hn, hcontents, hrecord]
              omega
            unfold Tmd.readRecord
            rw [read32_take (by omega), read16_take (by omega), read16_take (by omega),
              read64_take (by omega), slice_take (by omega)]
          unfold Tmd.Parse
          rw [htake, if_neg (by omega), read32_take (by omega), hsignature]
          dsimp only
          rw [if_neg (by omega), hcount, hn, if_neg (Nat.lt_irrefl needed), List.take_take,
            Nat.min_self, read64_take (by omega), hrecords]

theorem Wad.length_takeContents {file : Bytes} {contents : List ContentRecord} {offset : Nat}
    {sections : List WadSection} {offset' : Nat}
    (h : Wad.takeContents file contents offset = some (sections, offset')) :
    sections.length = contents.length := by
  induction contents generalizing offset sections offset' with
  | nil =>
    cases h
    rfl
  | cons content contents ih =>
    unfold Wad.takeContents at h
    split at h
    · cases h
    · split at h
      · cases h
      · next sections' offset'' hrest =>
        cases h
        exact congrArg (· + 1) (ih hrest)

theorem Wad.Parse_spec {file : Bytes} {wad : Wad} (h : Wad.Parse file = some wad) :
    Tmd.Parse wad.tmd.raw = some wad.tmd ∧ wad.contents.length = wad.tmd.contents.length := by
  unfold Wad.Parse at h
  split at h
  · cases h
  · split at h
    · cases h
    · extract_lets certs_size crl_size ticket_size tmd_size data_size certs crl at h
      rcases hblobs : blobs file (Align (crl + crl_size)) ticket_size tmd_size with
        ⟨ticket_section, tmd_section, offset⟩
      rw [hblobs] at h
      dsimp only at h
      split at h
      · cases h
      · split at h
        · next ticket tmd _ htmd =>
          split at h
          · cases h
          · next contents offset' hcontents =>
            split at h
            · cases h
            · cases h
              exact ⟨Tmd.Parse_raw htmd, Wad.length_takeContents hcontents⟩
        · cases h

theorem Wad.isSome_Content {wad : Wad} (h : wad.contents.length = wad.tmd.contents.length)
    {content : ContentRecord} (hmem : content ∈ wad.tmd.contents) :
    (wad.Content content.index).isSome = true := by
  obtain ⟨k, hk, rfl⟩ := List.mem_iff_getElem.mp hmem
  unfold Wad.Content
  rw [Option.isSome_map, List.find?_isSome]
  have hzip : k < (wad.tmd.contents.zip wad.contents).length := by
    rw [List.length_zip]
    omega
  refine ⟨(wad.tmd.contents.zip wad.contents)[k], List.getElem_mem hzip, ?_⟩
  rw [decide_eq_true_eq, List.getElem_zip]

theorem openWad_spec {file : Bytes} {cipher : Cipher} {o : Opened}
    (h : openWad file cipher = .ok o) :
    o.Whole ∧ Tmd.Parse o.wad.tmd.raw = some o.wad.tmd := by
  unfold openWad at h
  split at h
  · cases h
  · next wad hwad =>
    obtain ⟨hraw, hlen⟩ := Wad.Parse_spec hwad
    split at h
    · split at h
      · cases h
      · cases h
        exact ⟨fun content hmem => Wad.isSome_Content hlen hmem, hraw⟩
    · cases h

end DolTranslator.Nand
