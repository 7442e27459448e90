import DolTranslator.Dvd.Table

/-!
# The image is the file table of its registrations

* `BuildImage_ok_iff`   when there is an image, and what it is;
* `listing_data`  the paths and the files of the entries;
* `Correct`   what an image is of a list of registrations;
* `BuildImage_correct`   every image is correct, and there is none exactly when there cannot be.
-/

namespace DolTranslator.Dvd

open Disc Trees Streams

/-! ## the image -/

def rootEntry (count : Nat) : IndexedEntry := ⟨[], [kSlash], 0, 0, 0, count, true⟩

def treeEntries (t : Forest Bytes RegisteredFile) : List IndexedEntry :=
  rootEntry (t.size + 1) :: listing 0 [kSlash] 1 t

def tableNames (registrations : List RegisteredFile) : List Bytes :=
  match filesByPath registrations ∅ with
  | none => []
  | some files => preNames (buildTree files).forest

/-- more entries than 32 bits have room for, or a name past the 24 bits of its offset -/
def LimitExceeded (registrations : List RegisteredFile) : Prop :=
  kMaxEntries < (tableNames registrations).length + 1 ∨
    tableNames registrations ≠ [] ∧ 0xFFFFFF <
      1 + ((tableNames registrations).dropLast.flatMap fun name => name ++ [0]).length

/-- the parts of an image -/
structure Built (registrations : List RegisteredFile) (image : Image)
    (files : PathMap RegisteredFile) (offsets : List Nat) (table : Bytes) : Prop where
  byPath : filesByPath registrations ∅ = some files
  proper : (buildTree files).Proper
  entries : image.entries = treeEntries (buildTree files).forest
  index : image.pathToEntry = indexPaths (image.entries.map IndexedEntry.dvdPath)
  names : addNames (preNames (buildTree files).forest) [0] = some (offsets, table)
  bytes : image.bytes = encodeEntries image.entries (0 :: offsets) ++ table
  count : image.entries.length ≤ kMaxEntries

theorem EmitTree_root {t : Children} (h : t.Proper) :
    ∃ s, EmitTree 0 [kSlash] t emitRoot = .ok s ∧
      (s.setEnd 0).entries = treeEntries t.forest ∧ (s.setEnd 0).names = [] :: preNames t.forest ∧
      (s.setEnd 0).pathToEntry = indexPaths ((s.setEnd 0).entries.map IndexedEntry.dvdPath) := by
  obtain ⟨s, heq, hemitted⟩ := (EmitTree_spec 0 [kSlash] t emitRoot).1 h
  refine ⟨s, heq, ?_, hemitted.names, indexed_setEnd (hemitted.indexed indexed_emitRoot) 0⟩
  have hentries : s.entries = rootEntry 0 :: listing 0 [kSlash] 1 t.forest := hemitted.entries
  have hlength : s.entries.length = t.forest.size + 1 := by
    rw [hentries, List.length_cons, length_listing]
  show s.entries.modify 0 (fun e => { e with subtreeEnd := s.entries.length }) = _
  rw [hlength, hentries]
  rfl

theorem length_treeEntries (t : Forest Bytes RegisteredFile) :
    (treeEntries t).length = t.size + 1 := by
  unfold treeEntries
  rw [List.length_cons, length_listing]

/-- **When there is an image.** -/
theorem BuildImage_ok_iff (registrations : List RegisteredFile) :
    (∃ image, BuildImage registrations = .ok image) ↔
      ¬ ((∃ file ∈ registrations, CanonicalizePath file.dvdPath = [kSlash]) ∨
        FileAndDirectory registrations ∨ LimitExceeded registrations) := by
  unfold BuildImage LimitExceeded tableNames
  cases hfiles : filesByPath registrations ∅ with
  | none =>
    exact ⟨fun ⟨_, h⟩ => (by cases h), fun h => (h (.inl (filesByPath_eq_none.mp hfiles))).elim⟩
  | some files =>
    have hroot : ¬ ∃ file ∈ registrations, CanonicalizePath file.dvdPath = [kSlash] := by
      intro h
      rw [filesByPath_eq_none.mpr h] at hfiles
      cases hfiles
    dsimp only
    by_cases hproper : (buildTree files).Proper
    · have hboth := (buildTree_proper_iff hfiles).mp hproper
      obtain ⟨s, heq, hentries, hnames, -⟩ := EmitTree_root hproper
      rw [heq]
      dsimp only
      have hlength : (s.setEnd 0).entries.length =
          (preNames (buildTree files).forest).length + 1 := by
        rw [hentries, length_treeEntries, length_preNames]
      rw [hlength, hnames]
      by_cases hcount : kMaxEntries < (preNames (buildTree files).forest).length + 1
      · rw [if_pos hcount]
        exact ⟨fun ⟨_, h⟩ => (by cases h), fun h => (h (.inr (.inr (.inl hcount)))).elim⟩
      · rw [if_neg hcount]
        have hadd : addNames (preNames (buildTree files).forest) [0] = none ↔ _ := addNames_eq_none
        cases hstring : addNames (([] :: preNames (buildTree files).forest).drop 1) [0] with
        | none =>
          exact ⟨fun ⟨_, h⟩ => (by cases h),
            fun h => (h (.inr (.inr (.inr (hadd.mp hstring))))).elim⟩
        | some r =>
          refine ⟨fun _ => ?_, fun _ => ⟨_, rfl⟩⟩
          rintro (h | h | h | h)
          · exact hroot h
          · exact hboth h
          · exact hcount h
          · have hnone := hadd.mpr h
            rw [show ([] :: preNames (buildTree files).forest).drop 1 =
              preNames (buildTree files).forest from rfl, hnone] at hstring
            cases hstring
    · have hboth : FileAndDirectory registrations := by
        by_contra hnot
        exact hproper ((buildTree_proper_iff hfiles).mpr hnot)
      obtain ⟨e, heq⟩ := (EmitTree_spec 0 [kSlash] (buildTree files) emitRoot).2 hproper
      rw [heq]
      exact ⟨fun ⟨_, h⟩ => (by cases h), fun h => (h (.inr (.inl hboth))).elim⟩

/-- **What the image is.** -/
theorem BuildImage_built {registrations : List RegisteredFile} {image : Image}
    (h : BuildImage registrations = .ok image) :
    ∃ files offsets table, Built registrations image files offsets table := by
  unfold BuildImage at h
  cases hfiles : filesByPath registrations ∅ with
  | none =>
    rw [hfiles] at h
    cases h
  | some files =>
    rw [hfiles] at h
    dsimp only at h
    by_cases hproper : (buildTree files).Proper
    · obtain ⟨s, heq, hentries, hnames, hindex⟩ := EmitTree_root hproper
      rw [heq] at h
      dsimp only at h
      split at h
      · cases h
      · next hcount =>
        split at h
        · cases h
        · next offsets table hadd =>
          obtain rfl := Except.ok.inj h
          rw [hnames] at hadd
          exact ⟨files, offsets, table, hfiles, hproper, hentries, hindex, hadd, rfl,
            Nat.not_lt.mp hcount⟩
    · obtain ⟨e, heq⟩ := (EmitTree_spec 0 [kSlash] (buildTree files) emitRoot).2 hproper
      rw [heq] at h
      cases h

/-! ## the table -/

theorem listing_fits {t : Forest Bytes RegisteredFile} {parent first : Nat} {path : Bytes}
    (hparent : parent ≤ first) (hlt : first + t.size < 2 ^ 32) :
    ∀ e ∈ listing parent path first t, Fits e := by
  induction t generalizing parent first path with
  | nil => exact fun e he => by cases he
  | leaf name file rest ih =>
    unfold Forest.size at hlt
    intro e he
    obtain rfl | he := List.mem_cons.mp he
    · exact ⟨file.discOffsetWords.toNat_lt, file.size.toNat_lt⟩
    · exact ih (by omega) (by omega) e he
  | node name children rest ihc ihr =>
    unfold Forest.size at hlt
    intro e he
    obtain rfl | he := List.mem_cons.mp he
    · refine ⟨?_, ?_⟩
      · show parent < 2 ^ 32
        omega
      · show first + 1 + children.size < 2 ^ 32
        omega
    · obtain he | he := List.mem_append.mp he
      · exact ihc (by omega) (by omega) e he
      · exact ihr (by omega) (by omega) e he

theorem all_preNames {P : Bytes → Prop} {t : Forest Bytes RegisteredFile} (h : t.AllNames P) :
    ∀ name ∈ preNames t, P name := by
  induction t with
  | nil => exact fun name hmem => by cases hmem
  | leaf name file rest ih =>
    intro n hn
    obtain rfl | hn := List.mem_cons.mp hn
    · exact h.1
    · exact ih h.2 n hn
  | node name children rest ihc ihr =>
    intro n hn
    obtain rfl | hn := List.mem_cons.mp hn
    · exact h.1
    · obtain hn | hn := List.mem_append.mp hn
      · exact ihc h.2.1 n hn
      · exact ihr h.2.2 n hn

theorem allNames_forest {P : Bytes → Prop} {t : Children} (h : t.All fun _ name _ _ => P name) :
    t.forest.AllNames P := by
  induction t with
  | nil => trivial
  | cons key name value children rest ihc ihr =>
    obtain ⟨hname, hchildren, hrest⟩ := h
    obtain ⟨a, heq⟩ | heq := Trie.forest_cases key name value children rest
    · rw [heq]
      exact ⟨hname, ihr hrest⟩
    · rw [heq]
      exact ⟨hname, ihc hchildren, ihr hrest⟩

/-- **The table parses as the entries.** -/
theorem Built.parse {registrations : List RegisteredFile} {image : Image}
    {files : PathMap RegisteredFile} {offsets : List Nat} {table : Bytes}
    (h : Built registrations image files offsets table)
    (hzero : ∀ file ∈ registrations, NoZero file.dvdPath) :
    parseFst image.bytes = some (image.entries.map IndexedEntry.listed) := by
  have hno : (buildTree files).forest.AllNames NoZero := by
    refine allNames_forest ((all_names_buildTree h.byPath).imp fun _ name _ _ hname hmem => ?_)
    obtain ⟨-, file, hfile, hfrom⟩ := hname
    exact hzero file hfile (hfrom 0 hmem)
  have hentries := h.entries
  have hadd := h.names
  have hbytes := h.bytes
  have hcount := h.count
  generalize (buildTree files).forest = t at hentries hadd hno
  rw [hentries, length_treeEntries] at hcount
  rw [hentries] at hbytes ⊢
  have hmax : kMaxEntries = 357913941 := by decide
  have hlen : (listing 0 [kSlash] 1 t).length = (preNames t).length := by
    rw [length_listing, length_preNames]
  have htotal : (0 :: offsets).length = (treeEntries t).length := by
    rw [length_treeEntries, List.length_cons, (addNames_spec hadd).1, length_preNames]
  have hreads : ReadsEntries (fun index => readNode image.bytes (index * kNodeSize))
      (nameAt (image.bytes.drop ((t.size + 1) * kNodeSize))) 1 (listing 0 [kSlash] 1 t)
      (preNames t) := by
    have hencode := readsEntries_encode (rootEntry (t.size + 1)) hadd hlen
      (listing_fits (Nat.zero_le 1) (by omega)) (all_preNames hno)
    rw [length_listing] at hencode
    rw [hbytes]
    exact hencode
  have hroot : (readNode image.bytes 0).directory = true ∧ (readNode image.bytes 0).nameOffset = 0 ∧
      (readNode image.bytes 0).second = 0 ∧ (readNode image.bytes 0).third = t.size + 1 := by
    have hfits : Fits (rootEntry (t.size + 1)) :=
      ⟨by show 0 < 2 ^ 32; decide, by show t.size + 1 < 2 ^ 32; omega⟩
    have hencode := readNode_encode table htotal (show (treeEntries t)[0]? = _ from rfl)
      (show (0 :: offsets)[0]? = some 0 from rfl) (by decide) hfits
    rw [hbytes]
    exact hencode
  have hwalk : parseNodes (fun index => readNode image.bytes (index * kNodeSize))
      (nameAt (image.bytes.drop ((t.size + 1) * kNodeSize))) (t.size + 0) 1
      [⟨(0, [kSlash]), t.size + 1⟩] = _ :=
    parseNodes_listing 0 hreads (by omega) fun d hd => by cases hd
  have hlength : ¬ (image.bytes.length < (t.size + 1) * kNodeSize ∨ t.size + 1 = 0 ∨
      (readNode image.bytes 0).directory = false) := by
    rw [hroot.1, hbytes, List.length_append, length_encodeEntries htotal, length_treeEntries]
    rintro (hlt | h0 | hfalse)
    · omega
    · omega
    · cases hfalse
  unfold parseFst
  dsimp only
  rw [hroot.2.2.2, hroot.2.2.1, if_neg hlength, Nat.add_sub_cancel]
  show (parseNodes _ _ (t.size + 0) 1 _).map _ = _
  rw [hwalk]
  show some (_ :: (_ ++ [])) = some (_ :: _)
  rw [List.append_nil]
  rfl

/-! ## the paths and the files -/

/-- the file of an entry: none for a directory -/
def IndexedEntry.file (e : IndexedEntry) : Option (Bytes × UInt32 × UInt32) :=
  if e.isDirectory then none else some (e.hostPath, e.size, e.discOffsetWords)

def RegisteredFile.file (f : RegisteredFile) : Bytes × UInt32 × UInt32 :=
  (f.hostPath, f.size, f.discOffsetWords)

theorem listing_data {t : Forest Bytes RegisteredFile} {above : List Bytes} {parent first : Nat}
    (ht : t.AllNames (· ≠ [])) (habove : ∀ c ∈ above, c ≠ []) :
    (listing parent (joinPath above) first t).map (fun e => (e.dvdPath, e.file)) =
      (t.entries above).map fun e => (joinPath e.1, e.2.map RegisteredFile.file) := by
  induction t generalizing above parent first with
  | nil => rfl
  | leaf name file rest ih =>
    unfold listing Forest.entries
    rw [List.map_cons, List.map_cons, ih ht.2 habove, joinPath_append name habove]
    rfl
  | node name children rest ihc ihr =>
    have hdown : ∀ c ∈ above ++ [name], c ≠ [] := by
      intro c hc
      obtain hc | hc := List.mem_append.mp hc
      · exact habove c hc
      · exact List.mem_singleton.mp hc ▸ ht.1
    unfold listing Forest.entries
    rw [List.map_cons, List.map_cons, List.map_append, List.map_append, joinPath_append name habove,
      ihc ht.2.1 hdown, ihr ht.2.2 habove]
    rfl

section

variable {registrations : List RegisteredFile} {image : Image} {files : PathMap RegisteredFile}
  {offsets : List Nat} {table : Bytes}

theorem Built.plain (h : Built registrations image files offsets table) {names : List Bytes}
    {o : Option RegisteredFile} (hmem : (names, o) ∈ (buildTree files).forest.entries []) :
    ∀ name ∈ names, Plain name :=
  Forest.allNames_of_mem_entries
    (allNames_forest ((all_names_buildTree h.byPath).imp fun _ _ _ _ hname => hname.1))
    (fun _ hc => by cases hc) hmem

/-- **The entries, by the keys of their paths.** -/
theorem Built.data (h : Built registrations image files offsets table) :
    image.entries.map (fun e => (NormalizeLookupPath e.dvdPath, e.file)) =
      (joinPath [], none) :: (((buildTree files).forest.mapNames Lowercase).entries []).map fun e =>
        (joinPath e.1, e.2.map RegisteredFile.file) := by
  have hnonempty : (buildTree files).forest.AllNames (· ≠ []) :=
    allNames_forest ((all_names_buildTree h.byPath).imp fun _ _ _ _ hname => hname.1.ne_nil)
  have hlisting : (listing 0 (joinPath []) 1 (buildTree files).forest).map
      (fun e => (e.dvdPath, e.file)) = _ := listing_data hnonempty fun _ hc => by cases hc
  have hmap : ((buildTree files).forest.mapNames Lowercase).entries [] = _ :=
    Forest.entries_mapNames Lowercase (buildTree files).forest []
  have hlower : (listing 0 (joinPath []) 1 (buildTree files).forest).map
      (fun e => (NormalizeLookupPath e.dvdPath, e.file)) =
      ((buildTree files).forest.entries []).map fun e =>
        (NormalizeLookupPath (joinPath e.1), e.2.map RegisteredFile.file) := by
    have hboth := congrArg (List.map fun e : Bytes × Option (Bytes × UInt32 × UInt32) =>
      (NormalizeLookupPath e.1, e.2)) hlisting
    rw [List.map_map, List.map_map] at hboth
    exact hboth
  have hroot : NormalizeLookupPath [kSlash] = joinPath [] := by decide
  rw [h.entries, hmap, List.map_map]
  show (NormalizeLookupPath [kSlash], none) :: (listing 0 (joinPath []) 1 _).map _ = _
  rw [hroot, hlower]
  refine congrArg (_ :: ·) (List.map_congr_left fun e he => ?_)
  show (Lowercase (CanonicalizePath (joinPath e.1)), _) = (joinPath (e.1.map Lowercase), _)
  rw [CanonicalizePath_joinPath (h.plain he), Lowercase_joinPath]

theorem Built.keys (h : Built registrations image files offsets table) {keys : List Bytes}
    {o : Option RegisteredFile}
    (hmem : (keys, o) ∈ ((buildTree files).forest.mapNames Lowercase).entries []) :
    keys ≠ [] ∧ ∀ key ∈ keys, key ≠ [] ∧ kSlash ∉ key := by
  have hmap : ((buildTree files).forest.mapNames Lowercase).entries [] = _ :=
    Forest.entries_mapNames Lowercase (buildTree files).forest []
  obtain ⟨first, -, below, heq⟩ := Forest.mem_entries hmem
  have hne : keys ≠ [] := by
    rw [show keys = first :: below from heq]
    exact List.cons_ne_nil _ _
  rw [hmap] at hmem
  obtain ⟨⟨names, o'⟩, hnames, hpair⟩ := List.mem_map.mp hmem
  obtain ⟨rfl, -⟩ := Prod.mk.inj hpair
  refine ⟨hne, fun key hkey => ?_⟩
  obtain ⟨name, hname, rfl⟩ := List.mem_map.mp hkey
  have hplain := h.plain hnames name hname
  exact plain_Lowercase ⟨hplain.ne_nil, hplain.slash⟩

/-- **No path comes twice.** -/
theorem Built.nodup (h : Built registrations image files offsets table) :
    (image.entries.map fun e => NormalizeLookupPath e.dvdPath).Nodup := by
  have hpaths : image.entries.map (fun e => NormalizeLookupPath e.dvdPath) =
      joinPath [] :: (((buildTree files).forest.mapNames Lowercase).entries []).map
        fun e => joinPath e.1 := by
    have hdata := congrArg (List.map Prod.fst) h.data
    rw [List.map_map, List.map_cons, List.map_map] at hdata
    exact hdata
  have hdistinct := Forest.nodup_entries
    (Trie.distinct_forest (named_buildTree files) (sorted_buildTree files)) ([] : List Bytes)
  rw [hpaths, List.nodup_cons]
  constructor
  · intro hmem
    obtain ⟨⟨keys, o⟩, hkeys, heq⟩ := List.mem_map.mp hmem
    obtain ⟨hne, hplain⟩ := h.keys hkeys
    exact hne (joinPath_inj hplain (fun _ hc => by cases hc) heq)
  · have hmap : (((buildTree files).forest.mapNames Lowercase).entries []).map
        (fun e => joinPath e.1) =
        ((((buildTree files).forest.mapNames Lowercase).entries []).map Prod.fst).map joinPath := by
      rw [List.map_map]
      rfl
    rw [hmap]
    refine List.Nodup.map_on (fun p hp q hq heq => ?_) hdistinct
    obtain ⟨⟨_, o⟩, hp', rfl⟩ := List.mem_map.mp hp
    obtain ⟨⟨_, o'⟩, hq', rfl⟩ := List.mem_map.mp hq
    exact joinPath_inj (h.keys hp').2 (h.keys hq').2 heq

/-- **The files are the last registrations.** -/
theorem Built.files_iff (h : Built registrations image files offsets table) (q : Bytes)
    (d : Bytes × UInt32 × UInt32) :
    (q, some d) ∈ image.entries.map (fun e => (NormalizeLookupPath e.dvdPath, e.file)) ↔
      ∃ last, lastRegistration registrations q = some last ∧ last.file = d := by
  have hvalues (keys : List Bytes) (a : RegisteredFile) :
      ([] ++ keys, some a) ∈ ((buildTree files).forest.mapNames Lowercase).entries [] ↔ _ :=
    Trie.mem_entries_forest (named_buildTree files) (sorted_buildTree files) h.proper
  rw [h.data, List.mem_cons, List.mem_map]
  constructor
  · rintro (heq | ⟨⟨keys, o⟩, hmem, hpair⟩)
    · cases (Prod.mk.inj heq).2
    · obtain ⟨rfl, ho⟩ := Prod.mk.inj hpair
      obtain ⟨a, rfl, rfl⟩ := Option.map_eq_some_iff.mp ho
      obtain ⟨last, hlast, rfl, -⟩ := (value?_buildTree h.byPath).mp ((hvalues keys a).mp hmem)
      exact ⟨last, hlast, rfl⟩
  · rintro ⟨last, hlast, rfl⟩
    have hpath := (mem_of_lastRegistration hlast).2
    rw [NormalizeLookupPath_eq] at hpath
    have hvalue := (value?_buildTree h.byPath).mpr ⟨last, hpath ▸ hlast, rfl, rfl⟩
    exact .inr ⟨_, (hvalues _ _).mpr hvalue, Prod.ext hpath rfl⟩

/-- **The directories are what is above a registered path**, and the root. -/
theorem Built.directories_iff (h : Built registrations image files offsets table) (q : Bytes) :
    (q, none) ∈ image.entries.map (fun e => (NormalizeLookupPath e.dvdPath, e.file)) ↔
      q = [kSlash] ∨ ∃ file ∈ registrations, ∃ keys more, more ≠ [] ∧
        pathKeys file.dvdPath = keys ++ more ∧ q = joinPath keys := by
  have hnodes (keys : List Bytes) :
      (keys, none) ∈ ((buildTree files).forest.mapNames Lowercase).entries [] ↔ _ :=
    Trie.mem_nodes_forest (named_buildTree files) (sorted_buildTree files) h.proper
      (full_buildTree files)
  rw [h.data, List.mem_cons, List.mem_map]
  constructor
  · rintro (heq | ⟨⟨keys, o⟩, hmem, hpair⟩)
    · exact .inl (Prod.mk.inj heq).1
    · obtain ⟨rfl, ho⟩ := Prod.mk.inj hpair
      obtain rfl := Option.map_eq_none_iff.mp ho
      obtain ⟨-, more, a, hmore, hvalue⟩ := (hnodes keys).mp hmem
      obtain ⟨last, hlast, -, hkeys⟩ := (value?_buildTree h.byPath).mp hvalue
      exact .inr ⟨last, (mem_of_lastRegistration hlast).1, keys, more, hmore, hkeys, rfl⟩
  · rintro (rfl | ⟨file, hfile, keys, more, hmore, hkeys, rfl⟩)
    · exact .inl rfl
    · by_cases hnil : keys = []
      · exact .inl (by rw [hnil])
      · obtain ⟨last, hlast⟩ := exists_lastRegistration hfile
        have hsame := pathKeys_inj.mpr (mem_of_lastRegistration hlast).2
        rw [NormalizeLookupPath_eq, hkeys] at hlast
        have hvalue := (value?_buildTree h.byPath).mpr ⟨last, hlast, rfl, hsame.trans hkeys⟩
        exact .inr ⟨_, (hnodes keys).mpr ⟨hnil, more, _, hmore, hvalue⟩, rfl⟩

end

/-! ## the law -/

/-- **An image that is the file table of its registrations.** -/
structure Correct (registrations : List RegisteredFile) (image : Image) : Prop where
  /-- the bytes parse as the entries, when no path has a zero byte -/
  parses : (∀ file ∈ registrations, NoZero file.dvdPath) →
    parseFst image.bytes = some (image.entries.map IndexedEntry.listed)
  /-- no two entries have one path, up to case -/
  distinct : (image.entries.map fun e => NormalizeLookupPath e.dvdPath).Nodup
  /-- the files are the registered paths, each by its last registration -/
  files : ∀ q d, (∃ e ∈ image.entries, NormalizeLookupPath e.dvdPath = q ∧ e.file = some d) ↔
    ∃ last, lastRegistration registrations q = some last ∧ last.file = d
  /-- the directories are the root and what is above a registered path -/
  directories : ∀ q, (∃ e ∈ image.entries, NormalizeLookupPath e.dvdPath = q ∧ e.file = none) ↔
    q = [kSlash] ∨ ∃ file ∈ registrations, ∃ keys more, more ≠ [] ∧
      pathKeys file.dvdPath = keys ++ more ∧ q = joinPath keys
  /-- each path has the index of its entry -/
  index : ∀ q i, image.pathToEntry[q]? = some i ↔
    ∃ e, image.entries[i]? = some e ∧ NormalizeLookupPath e.dvdPath = q

theorem mem_map_pair {entries : List IndexedEntry} {q : Bytes} {o : Option (Bytes × UInt32 × UInt32)} :
    (q, o) ∈ entries.map (fun e => (NormalizeLookupPath e.dvdPath, e.file)) ↔
      ∃ e ∈ entries, NormalizeLookupPath e.dvdPath = q ∧ e.file = o := by
  rw [List.mem_map]
  exact exists_congr fun e => and_congr_right fun _ => Prod.mk.injEq _ _ _ _ ▸ Iff.rfl

/-- **The runtime file table is correct.**  An image is the file table of its registrations; and
there is none exactly when a path is the root, is a file and a directory, or a limit is exceeded. -/
theorem BuildImage_correct (registrations : List RegisteredFile) :
    (∀ image, BuildImage registrations = .ok image → Correct registrations image) ∧
      ((∃ e, BuildImage registrations = .error e) ↔
        (∃ file ∈ registrations, CanonicalizePath file.dvdPath = [kSlash]) ∨
          FileAndDirectory registrations ∨ LimitExceeded registrations) := by
  constructor
  · intro image himage
    obtain ⟨files, offsets, table, hbuilt⟩ := BuildImage_built himage
    refine ⟨hbuilt.parse, hbuilt.nodup, fun q d => ?_, fun q => ?_, fun q i => ?_⟩
    · rw [← mem_map_pair]
      exact hbuilt.files_iff q d
    · rw [← mem_map_pair]
      exact hbuilt.directories_iff q
    · have hnodup := hbuilt.nodup
      have hmap : image.entries.map (fun e => NormalizeLookupPath e.dvdPath) =
          (image.entries.map IndexedEntry.dvdPath).map NormalizeLookupPath := by
        rw [List.map_map]
        rfl
      rw [hmap] at hnodup
      rw [hbuilt.index, indexPaths_spec hnodup, ← hmap, List.getElem?_map, Option.map_eq_some_iff]
  · have hok := BuildImage_ok_iff registrations
    cases himage : BuildImage registrations with
    | ok image =>
      refine ⟨fun ⟨e, h⟩ => (by cases h), fun h => ?_⟩
      exact absurd h (hok.mp ⟨image, himage⟩)
    | error e =>
      refine ⟨fun _ => ?_, fun _ => ⟨e, rfl⟩⟩
      by_contra hnot
      obtain ⟨image, h⟩ := hok.mpr hnot
      rw [himage] at h
      cases h

/-- **A name with a zero byte is cut off** where the table is parsed. -/
theorem zero_byte_lost :
    (BuildImage [⟨[], [0x61, 0, 0x62], 1, 0⟩]).toOption.map (fun image =>
      (image.entries.map IndexedEntry.dvdPath, (parseFst image.bytes).map (List.map Listed.dvdPath))) =
      some ([[kSlash], [kSlash, 0x61, 0, 0x62]], some [[kSlash], [kSlash, 0x61]]) := by
  decide +kernel

end DolTranslator.Dvd
