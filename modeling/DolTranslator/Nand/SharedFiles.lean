import DolTranslator.Nand.InstallLaw
import DolTranslator.Nand.SharedMap

/-!
# What an install writes, by the hashes of the map

* `Consistent`   the map names each hash once, and the file of that name has the content;
* `Kept`   the files of a title that was installed are there;
* `Consistent.failed`, `Consistent.installed`   what an install leaves of the map and the files.
-/

namespace DolTranslator.Nand

open Disc Streams

/-! ## the contents of a wad -/

def Opened.content (o : Opened) (content : ContentRecord) : Option Bytes :=
  (o.wad.Content content.index).map fun extent => o.bytes extent content

/-- equal hashes mean equal contents, and so do equal ids of contents that are not shared -/
structure Regular (held : Bytes → Bytes) (o : Opened) : Prop where
  shared : ∀ content ∈ o.wad.tmd.contents, content.Shared = true →
    o.content content = some (held content.sha1)
  own : ∀ content ∈ o.wad.tmd.contents, ∀ content' ∈ o.wad.tmd.contents,
    content.Shared = false → content'.Shared = false → content.id = content'.id →
    o.content content = o.content content'

/-- the fields of the TMD are as wide as they are stored -/
structure Opened.Sized (o : Opened) : Prop where
  title : o.wad.tmd.title_id < 2 ^ 64
  id : ∀ content ∈ o.wad.tmd.contents, content.id < 2 ^ 32
  hashed : Hashed o.wad.tmd.contents

theorem Opened.Whole.content {o : Opened} (hwhole : o.Whole) {content : ContentRecord}
    (h : content ∈ o.wad.tmd.contents) : ∃ bytes, o.content content = some bytes := by
  obtain ⟨extent, hextent⟩ := Option.isSome_iff_exists.mp (hwhole content h)
  exact ⟨o.bytes extent content, by unfold Opened.content; rw [hextent]; rfl⟩

theorem Tmd.Parse_sized {data : Bytes} {tmd : Tmd} (h : Tmd.Parse data = some tmd) :
    tmd.title_id < 2 ^ 64 ∧
      ∀ content ∈ tmd.contents, content.id < 2 ^ 32 ∧ content.sha1.length = 20 := by
  unfold Tmd.Parse at h
  split at h
  · cases h
  · split at h
    · cases h
    · next signature _ =>
      dsimp only at h
      split at h
      · cases h
      · split at h
        · cases h
        · next hneeded =>
          obtain rfl := Option.some.inj h
          refine ⟨read64_lt _ _, fun content hcontent => ?_⟩
          obtain ⟨i, hi, rfl⟩ := List.mem_map.mp hcontent
          have hi := List.mem_range.mp hi
          have hrecord : Tmd.kContentRecordSize = 0x24 := rfl
          rw [hrecord] at hneeded
          refine ⟨read32_lt _ _, length_slice ?_⟩
          rw [hrecord]
          omega

theorem openWad_sized {file : Bytes} {cipher : Cipher} {o : Opened}
    (h : openWad file cipher = .ok o) : o.Sized := by
  obtain ⟨htitle, hrecords⟩ := Tmd.Parse_sized (openWad_spec h).2
  exact ⟨htitle, fun c hc => (hrecords c hc).1, fun c hc => (hrecords c hc).2⟩

theorem Files.after_of_agree {files : Files} {writes : Writes} {path : Path} {bytes : Bytes}
    (hmem : path ∈ writes.map Prod.fst) (hagree : ∀ b, (path, b) ∈ writes → b = bytes) :
    files.after writes path = some bytes := by
  induction writes generalizing files with
  | nil => cases hmem
  | cons write writes ih =>
    show (files.set write.1 (some write.2)).after writes path = some bytes
    by_cases hrest : path ∈ writes.map Prod.fst
    · exact ih hrest fun b hb => hagree b (List.mem_cons_of_mem _ hb)
    · rw [List.map_cons, List.mem_cons] at hmem
      obtain rfl := hmem.resolve_right hrest
      rw [Files.after_of_not_mem hrest, Files.set_self,
        hagree write.2 List.mem_cons_self]

section

variable {held : Bytes → Bytes} {o : Opened} {id : Nat} {contents : List ContentRecord}
  {hashes : List Bytes} {path : Path} {bytes : Bytes}

/-- what is written of the contents: their own files, and a shared file for each new hash -/
theorem mem_contentWrites (h : Sha1s hashes) (hcontents : Hashed contents)
    (hheld : ∀ content ∈ contents, content.Shared = true →
      o.content content = some (held content.sha1))
    (hmem : (path, bytes) ∈ contentWrites o id contents (ofHashes hashes)) :
    (∃ content ∈ contents, content.Shared = false ∧ path = ContentFilePath id content.id ∧
        o.content content = some bytes) ∨
      ∃ k, hashes.length ≤ k ∧ ∃ hk : k < (hashesAfter contents hashes).length,
        path = sharedPath (Hex8 (k % 2 ^ 32)) ∧ bytes = held (hashesAfter contents hashes)[k] := by
  induction contents generalizing hashes with
  | nil => cases hmem
  | cons content contents ih =>
    have hrest : Hashed contents := fun c hc => hcontents c (List.mem_cons_of_mem _ hc)
    have hheld' : ∀ content ∈ contents, content.Shared = true →
        o.content content = some (held content.sha1) :=
      fun c hc => hheld c (List.mem_cons_of_mem _ hc)
    cases hextent : o.wad.Content content.index with
    | none =>
      rw [contentWrites, hextent] at hmem
      cases hmem
    | some extent =>
      have hbytes : o.content content = some (o.bytes extent content) := by
        unfold Opened.content
        rw [hextent]
        rfl
      by_cases hshared : content.Shared = true
      · by_cases hknown : content.sha1 ∈ hashes
        · rw [contentWrites_known hextent hshared ((find_ofHashes h).trans (if_pos hknown))] at hmem
          have hafter : hashesAfter (content :: contents) hashes = hashesAfter contents hashes := by
            rw [hashesAfter, if_neg fun hand => hand.2 hknown]
          rw [hafter]
          obtain ⟨c, hc, hrest⟩ | hnew := ih h hrest hheld' hmem
          · exact .inl ⟨c, List.mem_cons_of_mem _ hc, hrest⟩
          · exact .inr hnew
        · rw [contentWrites_new hextent hshared ((find_ofHashes h).trans (if_neg hknown)),
            add_ofHashes h] at hmem
          have hafter : hashesAfter (content :: contents) hashes =
              hashesAfter contents (hashes ++ [content.sha1]) := by
            rw [hashesAfter, if_pos ⟨hshared, hknown⟩]
          have hlong := length_le_hashesAfter contents (hashes ++ [content.sha1])
          rw [List.length_append, List.length_singleton] at hlong
          rw [hafter]
          obtain heq | hmem := List.mem_cons.mp hmem
          · -- the new entry is where the entries ended
            obtain ⟨rfl, rfl⟩ := Prod.mk.inj heq
            refine .inr ⟨hashes.length, Nat.le_refl _, hlong, ?_, ?_⟩
            · unfold SharedMap.nextName
              rw [count_ofHashes h]
            · obtain ⟨more, hmore⟩ := exists_hashesAfter contents (hashes ++ [content.sha1])
              have hat : (hashesAfter contents (hashes ++ [content.sha1]))[hashes.length] =
                  content.sha1 := by
                simp only [hmore, List.append_assoc, List.singleton_append]
                rw [List.getElem_append_right (Nat.le_refl _)]
                simp only [Nat.sub_self, List.getElem_cons_zero]
              rw [hat]
              exact Option.some.inj (hbytes.symm.trans (hheld content List.mem_cons_self hshared))
          · have hsha1s := h.append (hcontents content List.mem_cons_self)
            obtain ⟨c, hc, hrest⟩ | ⟨k, hk, hrest⟩ := ih hsha1s hrest hheld' hmem
            · exact .inl ⟨c, List.mem_cons_of_mem _ hc, hrest⟩
            · rw [List.length_append, List.length_singleton] at hk
              exact .inr ⟨k, by omega, hrest⟩
      · rw [contentWrites_own hextent hshared] at hmem
        have hafter : hashesAfter (content :: contents) hashes = hashesAfter contents hashes := by
          rw [hashesAfter, if_neg fun hand => hshared hand.1]
        rw [hafter]
        obtain heq | hmem := List.mem_cons.mp hmem
        · obtain ⟨rfl, rfl⟩ := Prod.mk.inj heq
          exact .inl ⟨content, List.mem_cons_self, eq_false_of_ne_true hshared, rfl, hbytes⟩
        · obtain ⟨c, hc, hrest⟩ | hnew := ih h hrest hheld' hmem
          · exact .inl ⟨c, List.mem_cons_of_mem _ hc, hrest⟩
          · exact .inr hnew

theorem contentWrites_complete (id : Nat) (h : Sha1s hashes) (hcontents : Hashed contents)
    (hwhole : ∀ content ∈ contents, (o.wad.Content content.index).isSome = true) :
    (∀ content ∈ contents, content.Shared = false →
      ContentFilePath id content.id ∈
        (contentWrites o id contents (ofHashes hashes)).map Prod.fst) ∧
    ∀ k, hashes.length ≤ k → k < (hashesAfter contents hashes).length →
      sharedPath (Hex8 (k % 2 ^ 32)) ∈
        (contentWrites o id contents (ofHashes hashes)).map Prod.fst := by
  induction contents generalizing hashes with
  | nil => exact ⟨fun _ hc => (by cases hc), fun k hk hlt => absurd hlt (Nat.not_lt.mpr hk)⟩
  | cons content contents ih =>
    have hrest : Hashed contents := fun c hc => hcontents c (List.mem_cons_of_mem _ hc)
    have hwhole' := fun c hc => hwhole c (List.mem_cons_of_mem _ hc)
    obtain ⟨extent, hextent⟩ := Option.isSome_iff_exists.mp (hwhole content List.mem_cons_self)
    by_cases hshared : content.Shared = true
    · have hcases {P : ContentRecord → Prop} (htail : ∀ c ∈ contents, c.Shared = false → P c) :
          ∀ c ∈ content :: contents, c.Shared = false → P c := by
        intro c hc hown
        obtain rfl | hc := List.mem_cons.mp hc
        · rw [hshared] at hown
          cases hown
        · exact htail c hc hown
      by_cases hknown : content.sha1 ∈ hashes
      · rw [contentWrites_known hextent hshared ((find_ofHashes h).trans (if_pos hknown)),
          hashesAfter, if_neg fun hand => hand.2 hknown]
        obtain ⟨hown, hnew⟩ := ih h hrest hwhole'
        exact ⟨hcases hown, hnew⟩
      · rw [contentWrites_new hextent hshared ((find_ofHashes h).trans (if_neg hknown)),
          add_ofHashes h, hashesAfter, if_pos ⟨hshared, hknown⟩, List.map_cons]
        obtain ⟨hown, hnew⟩ := ih (h.append (hcontents content List.mem_cons_self)) hrest hwhole'
        refine ⟨hcases fun c hc hc' => List.mem_cons_of_mem _ (hown c hc hc'), fun k hk hlt => ?_⟩
        by_cases hfirst : k = hashes.length
        · rw [hfirst]
          refine List.mem_cons.mpr (.inl ?_)
          unfold SharedMap.nextName
          rw [count_ofHashes h]
        · refine List.mem_cons_of_mem _ (hnew k ?_ hlt)
          rw [List.length_append, List.length_singleton]
          omega
    · rw [contentWrites_own hextent hshared, hashesAfter, if_neg fun hand => hshared hand.1,
        List.map_cons]
      obtain ⟨hown, hnew⟩ := ih h hrest hwhole'
      refine ⟨fun c hc hc' => ?_, fun k hk hlt => List.mem_cons_of_mem _ (hnew k hk hlt)⟩
      obtain rfl | hc := List.mem_cons.mp hc
      · exact List.mem_cons_self
      · exact List.mem_cons_of_mem _ (hown c hc hc')

end

/-! ## what holds of the files -/

/-- **The map and the shared files.**  Each hash is there once, named by its place, and the file of
that name has the content. -/
structure Consistent (held : Bytes → Bytes) (files : Files) (hashes : List Bytes) : Prop where
  stored : (files mapPath).getD [] = (ofHashes hashes).bytes
  sha1s : Sha1s hashes
  nodup : hashes.Nodup
  room : hashes.length ≤ 2 ^ 32
  file : ∀ k (hk : k < hashes.length), files (sharedPath (Hex8 k)) = some (held hashes[k])

/-- **The files of a title** that was installed -/
structure Kept (o : Opened) (files : Files) (hashes : List Bytes) : Prop where
  tmd : files (TmdPath o.wad.tmd.title_id) = some o.wad.tmd.raw
  shared : ∀ content ∈ o.wad.tmd.contents, content.Shared = true → content.sha1 ∈ hashes
  own : ∀ content ∈ o.wad.tmd.contents, content.Shared = false →
    files (ContentFilePath o.wad.tmd.title_id content.id) = o.content content

section

variable {held : Bytes → Bytes} {files files' : Files} {hashes : List Bytes} {o : Opened}

theorem Consistent.load (h : Consistent held files hashes) :
    LoadSharedMap files = ofHashes hashes := by
  unfold LoadSharedMap
  rw [h.stored]
  exact Normalize_ofHashes h.sha1s

theorem Consistent.of_agree (h : Consistent held files hashes)
    (hmap : files' mapPath = files mapPath)
    (hshared : ∀ k < hashes.length, files' (sharedPath (Hex8 k)) = files (sharedPath (Hex8 k))) :
    Consistent held files' hashes :=
  { h with
    stored := by rw [hmap]; exact h.stored
    file := fun k hk => (hshared k hk).trans (h.file k hk) }

theorem Kept.of_agree {hashes' : List Bytes} (h : Kept o files hashes) (hsub : hashes ⊆ hashes')
    (htmd : files' (TmdPath o.wad.tmd.title_id) = files (TmdPath o.wad.tmd.title_id))
    (hown : ∀ content ∈ o.wad.tmd.contents,
      files' (ContentFilePath o.wad.tmd.title_id content.id) =
        files (ContentFilePath o.wad.tmd.title_id content.id)) : Kept o files' hashes' where
  tmd := htmd.trans h.tmd
  shared content hcontent hshared := hsub (h.shared content hcontent hshared)
  own content hcontent hshared := (hown content hcontent).trans (h.own content hcontent hshared)

theorem Consistent.empty (held : Bytes → Bytes) : Consistent held (fun _ => none) [] where
  stored := rfl
  sha1s := fun _ h => by cases h
  nodup := List.nodup_nil
  room := Nat.zero_le _
  file := fun _ hk => absurd hk (Nat.not_lt_zero _)

end

/-! ## an install -/

theorem InstallTitle_spec (outcome : Nat → Bool) (files : Files) {file : Bytes} {cipher : Cipher}
    {o : Opened} (hopen : openWad file cipher = .ok o) :
    (InstallTitle outcome files file cipher).1 =
        files.after ((plan o files).take (passed outcome 0 (plan o files).length)) ∧
      ((InstallTitle outcome files file cipher).2 = .Installed ↔
        passed outcome 0 (plan o files).length = (plan o files).length) := by
  obtain ⟨hfiles, hok⟩ := attempt_spec outcome (plan o files) ⟨files, 0⟩
  unfold InstallTitle
  rw [hopen]
  dsimp only
  rw [installOpened_eq outcome (openWad_spec hopen).1]
  refine ⟨hfiles, Iff.trans ?_ hok⟩
  cases (attempt outcome (plan o files) ⟨files, 0⟩).2 with
  | true => exact ⟨fun _ => rfl, fun _ => rfl⟩
  | false => exact ⟨fun h => (by cases h), fun h => (by cases h)⟩

theorem mem_plan {o : Opened} {files : Files} {path : Path} {bytes : Bytes}
    (h : (path, bytes) ∈ plan o files) :
    (path = TicketPath o.wad.tmd.title_id) ∨
      (path = TmdPath o.wad.tmd.title_id ∧ bytes = o.wad.tmd.raw) ∨
      (path, bytes) ∈ contentWrites o o.wad.tmd.title_id o.wad.tmd.contents (LoadSharedMap files) ∨
      path = mapPath ∧ bytes = (mapAfter o.wad.tmd.contents (LoadSharedMap files)).bytes := by
  obtain heq | h := List.mem_cons.mp h
  · exact .inl (Prod.mk.inj heq).1
  · obtain heq | h := List.mem_cons.mp h
    · exact .inr (.inl (Prod.mk.inj heq))
    · obtain h | h := List.mem_append.mp h
      · exact .inr (.inr (.inl h))
      · unfold mapWrites at h
        split at h
        · exact .inr (.inr (.inr (Prod.mk.inj (List.mem_singleton.mp h))))
        · cases h

theorem mem_plan_of_contents {o : Opened} {files : Files} {path : Path}
    (h : path ∈ (contentWrites o o.wad.tmd.title_id o.wad.tmd.contents
      (LoadSharedMap files)).map Prod.fst) : path ∈ (plan o files).map Prod.fst := by
  obtain ⟨write, hwrite, rfl⟩ := List.mem_map.mp h
  exact List.mem_map_of_mem
    (List.mem_cons_of_mem _ (List.mem_cons_of_mem _ (List.mem_append_left _ hwrite)))

/-- a file of another title, or a shared file that was there -/
structure Elsewhere (o : Opened) (hashes : List Bytes) (path : Path) : Prop where
  ticket : path ≠ TicketPath o.wad.tmd.title_id
  tmd : path ≠ TmdPath o.wad.tmd.title_id
  map : path ≠ mapPath
  own : ∀ content ∈ o.wad.tmd.contents, path ≠ ContentFilePath o.wad.tmd.title_id content.id
  shared : ∀ k, hashes.length ≤ k → k < 2 ^ 32 → path ≠ sharedPath (Hex8 k)

theorem length_sharedPath_Hex8 (k : Nat) : (sharedPath (Hex8 k)).length = 21 := rfl

section

variable {held : Bytes → Bytes} {files : Files} {hashes : List Bytes} {o : Opened} {path : Path}
  {bytes : Bytes} {n : Nat}

theorem elsewhere_shared {k : Nat} (hk : k < hashes.length) :
    Elsewhere o hashes (sharedPath (Hex8 k)) where
  ticket := ne_of_length (by rw [length_sharedPath_Hex8, length_TicketPath]; decide)
  tmd := ne_of_length (by rw [length_sharedPath_Hex8, length_TmdPath]; decide)
  map := ne_of_length (by rw [length_sharedPath_Hex8, length_mapPath]; decide)
  own _ _ := ne_of_length (by rw [length_sharedPath_Hex8, length_ContentFilePath]; decide)
  shared k' hk' hlt heq := by
    have := Hex8_inj (by omega) hlt (sharedPath_inj heq)
    omega

theorem elsewhere_tmd {id : Nat} (hid : id < 2 ^ 64) (hsized : o.Sized)
    (hne : id ≠ o.wad.tmd.title_id) : Elsewhere o hashes (TmdPath id) where
  ticket := ne_of_length (by rw [length_TmdPath, length_TicketPath]; decide)
  tmd heq := hne (TmdPath_inj hid hsized.title heq)
  map := ne_of_length (by rw [length_TmdPath, length_mapPath]; decide)
  own _ _ := ne_of_length (by rw [length_TmdPath, length_ContentFilePath]; decide)
  shared _ _ _ := ne_of_length (by rw [length_TmdPath, length_sharedPath_Hex8]; decide)

theorem elsewhere_own {id content_id : Nat} (hid : id < 2 ^ 64) (hcontent : content_id < 2 ^ 32)
    (hsized : o.Sized) (hne : id ≠ o.wad.tmd.title_id) :
    Elsewhere o hashes (ContentFilePath id content_id) where
  ticket := ne_of_length (by rw [length_ContentFilePath, length_TicketPath]; decide)
  tmd := ne_of_length (by rw [length_ContentFilePath, length_TmdPath]; decide)
  map := ne_of_length (by rw [length_ContentFilePath, length_mapPath]; decide)
  own content hmem heq :=
    hne (ContentFilePath_inj hid hsized.title hcontent (hsized.id content hmem) heq).1
  shared _ _ _ := ne_of_length (by rw [length_ContentFilePath, length_sharedPath_Hex8]; decide)

variable (hc : Consistent held files hashes) (hsized : o.Sized) (hregular : Regular held o)
  (hroom : (hashesAfter o.wad.tmd.contents hashes).length ≤ 2 ^ 32)

include hc hsized hregular

theorem mem_plan_cases (h : (path, bytes) ∈ plan o files) :
    path = TicketPath o.wad.tmd.title_id ∨
      (path = TmdPath o.wad.tmd.title_id ∧ bytes = o.wad.tmd.raw) ∨
      (∃ content ∈ o.wad.tmd.contents, content.Shared = false ∧
        path = ContentFilePath o.wad.tmd.title_id content.id ∧ o.content content = some bytes) ∨
      (∃ k, hashes.length ≤ k ∧ ∃ hk : k < (hashesAfter o.wad.tmd.contents hashes).length,
        path = sharedPath (Hex8 (k % 2 ^ 32)) ∧
          bytes = held (hashesAfter o.wad.tmd.contents hashes)[k]) ∨
      path = mapPath ∧ bytes = (ofHashes (hashesAfter o.wad.tmd.contents hashes)).bytes := by
  obtain hticket | htmd | hcontent | hmap := mem_plan h
  · exact .inl hticket
  · exact .inr (.inl htmd)
  · rw [hc.load] at hcontent
    obtain hown | hnew :=
      mem_contentWrites hc.sha1s hsized.hashed hregular.shared hcontent
    · exact .inr (.inr (.inl hown))
    · exact .inr (.inr (.inr (.inl hnew)))
  · rw [hc.load, mapAfter_ofHashes hc.sha1s hsized.hashed] at hmap
    exact .inr (.inr (.inr (.inr hmap)))

include hroom

theorem Elsewhere.not_mem (h : Elsewhere o hashes path) : path ∉ (plan o files).map Prod.fst := by
  intro hmem
  obtain ⟨⟨path', bytes⟩, hwrite, hpath⟩ := List.mem_map.mp hmem
  obtain rfl : path' = path := hpath
  obtain hticket | ⟨htmd, _⟩ | ⟨content, hcontent, _, hown, _⟩ | ⟨k, hk, hlt, hnew, _⟩ | ⟨hmap, _⟩ :=
    mem_plan_cases hc hsized hregular hwrite
  · exact h.ticket hticket
  · exact h.tmd htmd
  · exact h.own content hcontent hown
  · rw [Nat.mod_eq_of_lt (by omega)] at hnew
    exact h.shared k hk (by omega) hnew
  · exact h.map hmap

/-- what was elsewhere is as it was, however far the install came -/
theorem Elsewhere.after_take (h : Elsewhere o hashes path) (n : Nat) :
    files.after ((plan o files).take n) path = files path := by
  refine Files.after_of_not_mem fun hmem => h.not_mem hc hsized hregular hroom ?_
  rw [List.map_take] at hmem
  exact List.mem_of_mem_take hmem

theorem Consistent.failed (hn : n < (plan o files).length) :
    Consistent held (files.after ((plan o files).take n)) hashes := by
  refine hc.of_agree (Files.after_of_not_mem ?_) fun k hk =>
    (elsewhere_shared hk).after_take hc hsized hregular hroom n
  by_cases h2 : 2 ≤ n
  · exact (begun_take h2 hn).map
  · intro hmem
    have hsub : (plan o files).take n ⊆ [(TicketPath o.wad.tmd.title_id, o.wad.ticket.raw)] := by
      obtain rfl | rfl : n = 0 ∨ n = 1 := by omega
      · exact List.nil_subset _
      · exact List.Subset.refl _
    obtain ⟨write, hwrite, heq⟩ := List.mem_map.mp hmem
    rw [List.mem_singleton.mp (hsub hwrite)] at heq
    exact mapPath_ne_TicketPath _ heq.symm

omit hroom

theorem after_plan_tmd : files.after (plan o files) (TmdPath o.wad.tmd.title_id) =
    some o.wad.tmd.raw := by
  refine Files.after_of_agree (List.mem_cons_of_mem _ List.mem_cons_self) fun bytes hmem => ?_
  have hlen := length_TmdPath o.wad.tmd.title_id
  obtain hticket | ⟨_, htmd⟩ | ⟨content, _, _, hown, _⟩ | ⟨k, _, _, hnew, _⟩ | ⟨hmap, _⟩ :=
    mem_plan_cases hc hsized hregular hmem
  · rw [hticket, length_TicketPath] at hlen
    cases hlen
  · exact htmd
  · rw [hown, length_ContentFilePath] at hlen
    cases hlen
  · rw [hnew, length_sharedPath_Hex8] at hlen
    cases hlen
  · rw [hmap, length_mapPath] at hlen
    cases hlen

/-- the map is there, unless there is nothing in it -/
theorem after_plan_map : (files.after (plan o files) mapPath).getD [] =
    (ofHashes (hashesAfter o.wad.tmd.contents hashes)).bytes := by
  have hagree (bytes : Bytes) (hmem : (mapPath, bytes) ∈ plan o files) :
      bytes = (ofHashes (hashesAfter o.wad.tmd.contents hashes)).bytes := by
    have hlen := length_mapPath
    obtain hticket | ⟨htmd, _⟩ | ⟨content, _, _, hown, _⟩ | ⟨k, _, _, hnew, _⟩ | ⟨_, hmap⟩ :=
      mem_plan_cases hc hsized hregular hmem
    · rw [hticket, length_TicketPath] at hlen
      cases hlen
    · rw [htmd, length_TmdPath] at hlen
      cases hlen
    · rw [hown, length_ContentFilePath] at hlen
      cases hlen
    · rw [hnew, length_sharedPath_Hex8] at hlen
      cases hlen
    · exact hmap
  by_cases hmem : mapPath ∈ (plan o files).map Prod.fst
  · rw [Files.after_of_agree hmem hagree]
    rfl
  · have hempty : (ofHashes (hashesAfter o.wad.tmd.contents hashes)).bytes = [] := by
      by_contra hne
      have hlast : (mapPath, (ofHashes (hashesAfter o.wad.tmd.contents hashes)).bytes) ∈
          mapWrites (mapAfter o.wad.tmd.contents (LoadSharedMap files)) := by
        rw [hc.load, mapAfter_ofHashes hc.sha1s hsized.hashed]
        unfold mapWrites
        rw [if_pos hne]
        exact List.mem_singleton_self _
      exact hmem (List.mem_map_of_mem (List.mem_cons_of_mem _ (List.mem_cons_of_mem _
        (List.mem_append_right _ hlast))))
    have hlen := length_ofHashes (hc.sha1s.after hsized.hashed)
    have hle := length_le_hashesAfter o.wad.tmd.contents hashes
    rw [hempty, List.length_nil] at hlen
    have hnil : hashes = [] := List.eq_nil_of_length_eq_zero (by omega)
    rw [Files.after_of_not_mem hmem, hc.stored, hempty, hnil]
    rfl

theorem after_plan_own (hwhole : o.Whole) {content : ContentRecord}
    (hmem : content ∈ o.wad.tmd.contents) (hshared : content.Shared = false) :
    files.after (plan o files) (ContentFilePath o.wad.tmd.title_id content.id) =
      o.content content := by
  obtain ⟨bytes, hbytes⟩ := hwhole.content hmem
  rw [hbytes]
  refine Files.after_of_agree ?_ fun bytes' hmem' => ?_
  · have hcomplete := contentWrites_complete o.wad.tmd.title_id hc.sha1s hsized.hashed hwhole
    rw [← hc.load] at hcomplete
    exact mem_plan_of_contents (hcomplete.1 content hmem hshared)
  · have hlen := length_ContentFilePath o.wad.tmd.title_id content.id
    obtain hticket | ⟨htmd, _⟩ | ⟨content', hmem'', hshared', hown, hbytes'⟩ |
      ⟨k, _, _, hnew, _⟩ | ⟨hmap, _⟩ := mem_plan_cases hc hsized hregular hmem'
    · rw [hticket, length_TicketPath] at hlen
      cases hlen
    · rw [htmd, length_TmdPath] at hlen
      cases hlen
    · have hid := (ContentFilePath_inj hsized.title hsized.title (hsized.id _ hmem)
        (hsized.id _ hmem'') hown).2
      have hsame := hregular.own content hmem content' hmem'' hshared hshared' hid
      exact Option.some.inj (hbytes'.symm.trans (hsame.symm.trans hbytes))
    · rw [hnew, length_sharedPath_Hex8] at hlen
      cases hlen
    · rw [hmap, length_mapPath] at hlen
      cases hlen

include hroom

theorem after_plan_shared (hwhole : o.Whole) {k : Nat} (hk : hashes.length ≤ k)
    (hlt : k < (hashesAfter o.wad.tmd.contents hashes).length) :
    files.after (plan o files) (sharedPath (Hex8 k)) =
      some (held (hashesAfter o.wad.tmd.contents hashes)[k]) := by
  have hmod : k % 2 ^ 32 = k := Nat.mod_eq_of_lt (by omega)
  refine Files.after_of_agree ?_ fun bytes hmem => ?_
  · have hcomplete := contentWrites_complete o.wad.tmd.title_id hc.sha1s hsized.hashed hwhole
    rw [← hc.load] at hcomplete
    have hmem := hcomplete.2 k hk hlt
    rw [hmod] at hmem
    exact mem_plan_of_contents hmem
  · have hlen := length_sharedPath_Hex8 k
    obtain hticket | ⟨htmd, _⟩ | ⟨content, _, _, hown, _⟩ | ⟨k', _, hlt', hnew, hbytes⟩ |
      ⟨hmap, _⟩ := mem_plan_cases hc hsized hregular hmem
    · rw [hticket, length_TicketPath] at hlen
      cases hlen
    · rw [htmd, length_TmdPath] at hlen
      cases hlen
    · rw [hown, length_ContentFilePath] at hlen
      cases hlen
    · rw [Nat.mod_eq_of_lt (by omega)] at hnew
      obtain rfl := Hex8_inj (by omega) (by omega) (sharedPath_inj hnew)
      exact hbytes
    · rw [hmap, length_mapPath] at hlen
      cases hlen

/-- **An install that succeeds** adds its hashes to the map, and all its files are there. -/
theorem Consistent.installed (hwhole : o.Whole) :
    Consistent held (files.after (plan o files)) (hashesAfter o.wad.tmd.contents hashes) ∧
      Kept o (files.after (plan o files)) (hashesAfter o.wad.tmd.contents hashes) := by
  constructor
  · exact {
      stored := after_plan_map hc hsized hregular
      sha1s := hc.sha1s.after hsized.hashed
      nodup := nodup_hashesAfter hc.nodup
      room := hroom
      file := fun k hk => by
        by_cases hold : k < hashes.length
        · have hkept := (elsewhere_shared (o := o) hold).after_take hc hsized hregular hroom
            (plan o files).length
          rw [List.take_length] at hkept
          obtain ⟨more, hmore⟩ := exists_hashesAfter o.wad.tmd.contents hashes
          rw [hkept, hc.file k hold]
          simp only [hmore, List.getElem_append_left hold]
        · exact after_plan_shared hc hsized hregular hroom hwhole (by omega) hk }
  · exact {
      tmd := after_plan_tmd hc hsized hregular
      shared := fun content hmem hshared => mem_hashesAfter.mpr (.inr ⟨content, hmem, hshared, rfl⟩)
      own := fun content hmem hshared => after_plan_own hc hsized hregular hwhole hmem hshared }

end

end DolTranslator.Nand
