import DolTranslator.Nand.Installs

/-!
# An install that fails

The ticket and the TMD are written before the contents, so a write that fails later leaves a title
that is reported.

* `Harmless`   the writes before the failure change no answer;
* `InstallTitle_unchanged_iff`   exactly when a failed install leaves every answer as it was.
-/

namespace DolTranslator.Nand

open Disc Streams

/-! ## what is written of a title -/

variable {id : Nat} {o : Opened} {shared : SharedMap}

theorem contentWrites_path {contents : List ContentRecord}
    {path : Path} (h : path ∈ (contentWrites o id contents shared).map Prod.fst) :
    (∃ name, name.length = 8 ∧ path = sharedPath name) ∨
      ∃ content_id, path = ContentFilePath id content_id := by
  induction contents generalizing shared with
  | nil => cases h
  | cons content contents ih =>
    unfold contentWrites at h
    split at h
    · cases h
    · split at h
      · split at h
        · exact ih h
        · rw [List.map_cons, List.mem_cons] at h
          obtain rfl | h := h
          · exact .inl ⟨shared.nextName, length_Hex8 _, rfl⟩
          · exact ih h
      · rw [List.map_cons, List.mem_cons] at h
        obtain rfl | h := h
        · exact .inr ⟨content.id, rfl⟩
        · exact ih h

theorem contentWrites_length {contents : List ContentRecord}
    {path : Path} (h : path ∈ (contentWrites o id contents shared).map Prod.fst) :
    path.length = 21 ∨ path.length = 45 := by
  obtain ⟨name, hname, rfl⟩ | ⟨content_id, rfl⟩ := contentWrites_path h
  · exact .inl (by rw [length_sharedPath, hname])
  · exact .inr (length_ContentFilePath id content_id)

theorem plan_take {files : Files} {n : Nat} (h2 : 2 ≤ n)
    (hn : n < (plan o files).length) :
    (plan o files).take n =
      (TicketPath o.wad.tmd.title_id, o.wad.ticket.raw) ::
        (TmdPath o.wad.tmd.title_id, o.wad.tmd.raw) ::
          (contentWrites o o.wad.tmd.title_id o.wad.tmd.contents (LoadSharedMap files)).take
            (n - 2) := by
  obtain ⟨n, rfl⟩ := Nat.exists_eq_add_of_le' h2
  unfold plan at hn ⊢
  dsimp only at hn ⊢
  rw [List.length_cons, List.length_cons, List.length_append] at hn
  have hmap (shared : SharedMap) : (mapWrites shared).length ≤ 1 := by
    unfold mapWrites
    split
    · exact Nat.le_refl 1
    · exact Nat.zero_le 1
  have := hmap (mapAfter o.wad.tmd.contents (LoadSharedMap files))
  rw [List.take_succ_cons, List.take_succ_cons, List.take_append_of_le_length (by omega),
    Nat.add_sub_cancel]

/-- what the files are once the TMD is there and some of the contents -/
structure Begun (o : Opened) (files : Files) (written : Writes) : Prop where
  map : mapPath ∉ written.map Prod.fst
  empty : [] ∉ written.map Prod.fst
  tmd : files.after written (TmdPath o.wad.tmd.title_id) = some o.wad.tmd.raw
  other : ∀ id, TmdPath id ≠ TmdPath o.wad.tmd.title_id → TmdPath id ∉ written.map Prod.fst

theorem begun_take {files : Files} {n : Nat} (h2 : 2 ≤ n)
    (hn : n < (plan o files).length) : Begun o files ((plan o files).take n) := by
  rw [plan_take h2 hn]
  generalize hrest : (contentWrites o o.wad.tmd.title_id o.wad.tmd.contents
    (LoadSharedMap files)).take (n - 2) = rest
  have hlength : ∀ path ∈ rest.map Prod.fst, path.length = 21 ∨ path.length = 45 := by
    intro path hpath
    rw [← hrest, List.map_take] at hpath
    exact contentWrites_length (List.mem_of_mem_take hpath)
  have hmem {path : Path} (h1 : path.length ≠ 29) (h2 : path ≠ TmdPath o.wad.tmd.title_id)
      (h3 : path.length ≠ 21 ∧ path.length ≠ 45) :
      path ∉ ((TicketPath o.wad.tmd.title_id, o.wad.ticket.raw) ::
        (TmdPath o.wad.tmd.title_id, o.wad.tmd.raw) :: rest).map Prod.fst := by
    rw [List.map_cons, List.map_cons, List.mem_cons, List.mem_cons]
    rintro (rfl | rfl | h)
    · exact h1 (length_TicketPath _)
    · exact h2 rfl
    · obtain h | h := hlength path h
      · exact h3.1 h
      · exact h3.2 h
  refine ⟨hmem (by decide) (mapPath_ne_TmdPath _) (by decide),
    hmem (by decide) (ne_of_length (by rw [length_TmdPath]; decide)) (by decide), ?_, ?_⟩
  · show files.after ([(TicketPath o.wad.tmd.title_id, o.wad.ticket.raw)] ++ _ :: rest) _ = _
    refine Files.after_last fun h => ?_
    obtain h | h := hlength _ h <;> rw [length_TmdPath] at h <;> cases h
  · intro id hid
    refine hmem ?_ hid ?_ <;> rw [length_TmdPath] <;> decide

/-! ## what is reported then -/

theorem contentPath_congr {id' : Nat} (h : TmdPath id = TmdPath id') (shared : SharedMap)
    (content : ContentRecord) : contentPath shared id content = contentPath shared id' content := by
  have hpath : ContentPath id = ContentPath id' := List.append_cancel_right h
  unfold contentPath ContentFilePath
  rw [hpath]

/-- a content, but for whether its file is there -/
def place (files : Files) (id : Nat) (content : ContentRecord) : Nat × Nat × Bool × Path :=
  (content.id, content.index, content.Shared, contentPath (LoadSharedMap files) id content)

/-- **No answer changes.**  The title was there, by a TMD whose contents are in the same places; and
what is written of the contents of any title was there. -/
def Harmless (files : Files) (o : Opened) (written : List Path) : Prop :=
  (∃ old, installedTmd files o.wad.tmd.title_id = some old ∧
    old.contents.map (place files o.wad.tmd.title_id) =
      o.wad.tmd.contents.map (place files o.wad.tmd.title_id)) ∧
  ∀ id tmd, installedTmd files id = some tmd → ∀ content ∈ tmd.contents,
    contentPath (LoadSharedMap files) id content ∈ written →
      (files (contentPath (LoadSharedMap files) id content)).isSome = true

/-- the same answers about a title -/
def SameAnswers (files files' : Files) (id : Nat) : Prop :=
  TitleInstalled files' id = TitleInstalled files id ∧
    ResolveContents files' id = ResolveContents files id

theorem map_locate_eq {files files' : Files}
    {contents contents' : List ContentRecord} :
    contents'.map (locate files' shared id) = contents.map (locate files shared id) ↔
      contents'.map (fun c => (c.id, c.index, c.Shared, contentPath shared id c)) =
        contents.map (fun c => (c.id, c.index, c.Shared, contentPath shared id c)) ∧
      ∀ c ∈ contents', contentPath shared id c ≠ [] →
        (files' (contentPath shared id c)).isSome = (files (contentPath shared id c)).isSome := by
  induction contents' generalizing contents with
  | nil =>
    cases contents with
    | nil => simp
    | cons c contents => simp
  | cons c' contents' ih =>
    cases contents with
    | nil => simp
    | cons c contents =>
      simp only [List.map_cons, List.cons.injEq, ih, List.forall_mem_cons]
      unfold locate
      simp only [ContentLocation.mk.injEq, Prod.mk.injEq]
      constructor
      · rintro ⟨⟨h1, h2, h3, h4, h5⟩, h6, h7⟩
        refine ⟨⟨⟨h1, h2, h3, h4⟩, h6⟩, fun hne => ?_, h7⟩
        rw [← h4] at h5
        simpa [hne] using h5
      · rintro ⟨⟨⟨h1, h2, h3, h4⟩, h5⟩, h6, h7⟩
        refine ⟨⟨h1, h2, h3, h4, ?_⟩, h5, h7⟩
        rw [← h4]
        by_cases hne : contentPath shared id c' = []
        · simp [hne]
        · rw [h6 hne]

section

variable {o : Opened} {files : Files} {written : Writes} {id : Nat}

theorem installedTmd_congr {id' : Nat} (h : TmdPath id = TmdPath id') :
    installedTmd files id = installedTmd files id' := by
  unfold installedTmd
  rw [h]

theorem ResolveContents_congr {id' : Nat} (h : TmdPath id = TmdPath id') :
    ResolveContents files id = ResolveContents files id' := by
  have hlocate : locate files (LoadSharedMap files) id = locate files (LoadSharedMap files) id' := by
    funext content
    unfold locate
    rw [contentPath_congr h]
  unfold ResolveContents
  rw [installedTmd_congr h, hlocate]

theorem Begun.loadSharedMap (h : Begun o files written) :
    LoadSharedMap (files.after written) = LoadSharedMap files :=
  LoadSharedMap_congr (Files.after_of_not_mem h.map)

theorem Begun.own (h : Begun o files written) (hraw : Tmd.Parse o.wad.tmd.raw = some o.wad.tmd) :
    installedTmd (files.after written) o.wad.tmd.title_id = some o.wad.tmd := by
  unfold installedTmd
  rw [h.tmd]
  exact hraw

theorem Begun.others (h : Begun o files written)
    (hid : TmdPath id ≠ TmdPath o.wad.tmd.title_id) :
    installedTmd (files.after written) id = installedTmd files id := by
  unfold installedTmd
  rw [Files.after_of_not_mem (h.other id hid)]

theorem isSome_after_eq {path : Path} :
    (files.after written path).isSome = (files path).isSome ↔
      (path ∈ written.map Prod.fst → (files path).isSome = true) := by
  rw [Bool.eq_iff_iff, Files.isSome_after]
  tauto

theorem Begun.same_iff (h : Begun o files written)
    (hraw : Tmd.Parse o.wad.tmd.raw = some o.wad.tmd) :
    (∀ id, SameAnswers files (files.after written) id) ↔
      Harmless files o (written.map Prod.fst) := by
  have hmap := h.loadSharedMap
  have hown := h.own hraw
  constructor
  · intro hsame
    obtain ⟨hinstalled, hresolve⟩ := hsame o.wad.tmd.title_id
    unfold TitleInstalled at hinstalled
    rw [hown] at hinstalled
    obtain ⟨old, hold⟩ := Option.isSome_iff_exists.mp hinstalled.symm
    unfold ResolveContents at hresolve
    rw [hown, hold, hmap] at hresolve
    obtain ⟨hplaces, hfiles⟩ := map_locate_eq.mp hresolve
    refine ⟨⟨old, hold, hplaces.symm⟩, fun id tmd htmd content hcontent hwritten => ?_⟩
    have hne : contentPath (LoadSharedMap files) id content ≠ [] :=
      fun hnil => h.empty (hnil ▸ hwritten)
    by_cases hid : TmdPath id = TmdPath o.wad.tmd.title_id
    · rw [contentPath_congr hid] at hne hwritten ⊢
      obtain rfl := Option.some.inj (hold.symm.trans ((installedTmd_congr hid).symm.trans htmd))
      -- the new TMD has a content in the same place
      have hplace := List.mem_map_of_mem (f := fun c : ContentRecord => (c.id, c.index, c.Shared,
        contentPath (LoadSharedMap files) o.wad.tmd.title_id c)) hcontent
      rw [← hplaces] at hplace
      obtain ⟨content', hcontent', heq⟩ := List.mem_map.mp hplace
      simp only [Prod.mk.injEq] at heq
      have hfile := hfiles content' hcontent' (by rw [heq.2.2.2]; exact hne)
      rw [heq.2.2.2] at hfile
      exact isSome_after_eq.mp hfile hwritten
    · have hresolve' := (hsame id).2
      unfold ResolveContents at hresolve'
      rw [h.others hid, htmd, hmap] at hresolve'
      exact isSome_after_eq.mp ((map_locate_eq.mp hresolve').2 content hcontent hne) hwritten
  · rintro ⟨⟨old, hold, hplaces⟩, hfiles⟩
    have hkept {id : Nat} {tmd : Tmd} (htmd : installedTmd files id = some tmd)
        {content : ContentRecord} (hcontent : content ∈ tmd.contents) :
        (files.after written (contentPath (LoadSharedMap files) id content)).isSome =
          (files (contentPath (LoadSharedMap files) id content)).isSome :=
      isSome_after_eq.mpr (hfiles id tmd htmd content hcontent)
    have hself : SameAnswers files (files.after written) o.wad.tmd.title_id := by
      unfold SameAnswers TitleInstalled ResolveContents
      rw [hown, hold, hmap]
      refine ⟨rfl, map_locate_eq.mpr ⟨hplaces.symm, fun content hcontent _ => ?_⟩⟩
      have hplace := List.mem_map_of_mem (f := place files o.wad.tmd.title_id) hcontent
      rw [← hplaces] at hplace
      obtain ⟨content', hcontent', heq⟩ := List.mem_map.mp hplace
      unfold place at heq
      simp only [Prod.mk.injEq] at heq
      rw [← heq.2.2.2]
      exact hkept hold hcontent'
    intro id
    by_cases hid : TmdPath id = TmdPath o.wad.tmd.title_id
    · unfold SameAnswers TitleInstalled at hself ⊢
      rw [installedTmd_congr hid, installedTmd_congr hid, ResolveContents_congr hid,
        ResolveContents_congr hid]
      exact hself
    · unfold SameAnswers TitleInstalled ResolveContents
      rw [h.others hid, hmap]
      refine ⟨rfl, ?_⟩
      cases htmd : installedTmd files id with
      | none => rfl
      | some tmd =>
        exact map_locate_eq.mpr ⟨rfl, fun content hcontent _ => hkept htmd hcontent⟩

end

theorem SharedMap.length_of_find {sha1 : Bytes} {name : List UInt8}
    (h : shared.find sha1 = some name) : name.length = 8 := by
  unfold SharedMap.find at h
  obtain ⟨index, hindex, rfl⟩ := Option.map_eq_some_iff.mp h
  have hlt := List.mem_range.mp (List.mem_of_find?_eq_some hindex)
  have hsize : kSharedEntrySize = 28 := rfl
  unfold SharedMap.count at hlt
  rw [hsize] at hlt
  unfold SharedMap.name
  rw [hsize]
  exact length_slice (by omega)

theorem length_contentPath (shared : SharedMap) (id : Nat) (content : ContentRecord) :
    (contentPath shared id content).length = 0 ∨ (contentPath shared id content).length = 21 ∨
      (contentPath shared id content).length = 45 := by
  unfold contentPath
  split
  · split
    · next name hname =>
      refine .inr (.inl ?_)
      rw [length_sharedPath, SharedMap.length_of_find hname]
    · exact .inl rfl
  · exact .inr (.inr (length_ContentFilePath id content.id))

theorem same_of_ticket (files : Files) (id : Nat) (raw : Bytes) (id' : Nat) :
    SameAnswers files (files.set (TicketPath id) (some raw)) id' := by
  have htmd : installedTmd (files.set (TicketPath id) (some raw)) id' = installedTmd files id' := by
    unfold installedTmd
    rw [Files.set_of_ne (ne_of_length (by rw [length_TmdPath, length_TicketPath]; decide))]
  have hmap : LoadSharedMap (files.set (TicketPath id) (some raw)) = LoadSharedMap files :=
    LoadSharedMap_congr (Files.set_of_ne (mapPath_ne_TicketPath id) _)
  have hlocate : locate (files.set (TicketPath id) (some raw)) (LoadSharedMap files) id' =
      locate files (LoadSharedMap files) id' := by
    funext content
    have hne : contentPath (LoadSharedMap files) id' content ≠ TicketPath id := by
      intro heq
      have hlen := length_contentPath (LoadSharedMap files) id' content
      rw [heq, length_TicketPath] at hlen
      omega
    unfold locate
    rw [Files.set_of_ne hne]
  unfold SameAnswers TitleInstalled ResolveContents
  rw [htmd, hmap, hlocate]
  exact ⟨rfl, rfl⟩

/-- **Exactly when a failed install changes no answer.**  Nothing was written but the ticket; or the
writes before the one that fails are harmless. -/
theorem InstallTitle_unchanged_iff (outcome : Nat → Bool) (files : Files) (file : Bytes)
    (cipher : Cipher) :
    ((InstallTitle outcome files file cipher).2 ≠ .Installed →
      ∀ id, SameAnswers files (InstallTitle outcome files file cipher).1 id) ↔
    ∀ o, openWad file cipher = .ok o →
      2 ≤ passed outcome 0 (plan o files).length →
      passed outcome 0 (plan o files).length < (plan o files).length →
      Harmless files o
        (((plan o files).take (passed outcome 0 (plan o files).length)).map Prod.fst) := by
  unfold InstallTitle
  cases hopen : openWad file cipher with
  | error result =>
    refine ⟨fun _ o ho => (by cases ho), fun _ _ id => ⟨rfl, rfl⟩⟩
  | ok o =>
    obtain ⟨hwhole, hraw⟩ := openWad_spec hopen
    obtain ⟨hfiles, hok⟩ := attempt_spec outcome (plan o files) ⟨files, 0⟩
    have hle := passed_le outcome 0 (plan o files).length
    dsimp only at hfiles hok ⊢
    rw [installOpened_eq outcome hwhole]
    dsimp only
    rw [hfiles]
    have hsome : (∀ o', Except.ok (ε := InstallResult) o = .ok o' → 2 ≤ passed outcome 0
          (plan o' files).length → passed outcome 0 (plan o' files).length < (plan o' files).length →
        Harmless files o' (((plan o' files).take
          (passed outcome 0 (plan o' files).length)).map Prod.fst)) ↔
        (2 ≤ passed outcome 0 (plan o files).length →
          passed outcome 0 (plan o files).length < (plan o files).length →
        Harmless files o (((plan o files).take
          (passed outcome 0 (plan o files).length)).map Prod.fst)) :=
      ⟨fun h => h o rfl, fun h o' ho' => (Except.ok.inj ho') ▸ h⟩
    rw [hsome]
    generalize hn : passed outcome 0 (plan o files).length = n at *
    by_cases hdone : n = (plan o files).length
    · rw [if_pos (hok.mpr hdone)]
      refine ⟨fun _ _ hlt => absurd hdone (Nat.ne_of_lt hlt), fun _ hne => absurd rfl hne⟩
    · rw [if_neg fun h => hdone (hok.mp h)]
      have hlt : n < (plan o files).length := by omega
      by_cases h2 : 2 ≤ n
      · have hiff := (begun_take h2 hlt).same_iff hraw
        constructor
        · exact fun h _ _ => hiff.mp (h (by decide))
        · exact fun h _ => hiff.mpr (h h2 hlt)
      · refine ⟨fun _ h => absurd h h2, fun _ _ id => ?_⟩
        obtain rfl | rfl : n = 0 ∨ n = 1 := by omega
        · exact ⟨rfl, rfl⟩
        · exact same_of_ticket files _ _ id

/-- two contents of a byte each, the second under a given id -/
def twoContents (id : Nat) : Bytes :=
  word32 0x20 ++ word16 0x4973 ++ List.replicate 10 0 ++ word32 0x1E0 ++ word32 0x168 ++
    List.replicate 40 0 ++
  -- the ticket
  (word32 0x00010002 ++ List.replicate 508 0) ++
  -- the TMD
  (word32 0x00010002 ++ List.replicate 278 0 ++ word16 2 ++ List.replicate 4 0 ++
    (word32 0 ++ word16 0 ++ word16 1 ++ word64 1 ++ List.replicate 20 0) ++
    (word32 id ++ word16 1 ++ word16 1 ++ word64 1 ++ List.replicate 20 0) ++
    List.replicate 24 0) ++
  (0x41 :: List.replicate 63 0) ++ (0x42 :: List.replicate 15 0)

def plainCipher : Cipher where
  cbc_decrypt := some fun _ _ bytes => bytes
  common_key := some fun _ => some (List.replicate 16 0)
  length_decrypt decrypt h key iv bytes := by
    cases h
    rfl

/-- **A title that is not there is reported.**  The write of its second content fails. -/
theorem failed_install_reported :
    let failed := InstallTitle (· ≠ 3) (fun _ => none) (twoContents 1) plainCipher
    failed.2 = .WriteFailed ∧ TitleInstalled (fun _ => none) 0 = false ∧
      TitleInstalled failed.1 0 = true ∧
      (ResolveContents failed.1 0).map (·.present) = [true, false] := by
  decide +kernel

end DolTranslator.Nand
