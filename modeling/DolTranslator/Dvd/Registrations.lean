import DolTranslator.Dvd.Contract

/-!
# The tree of the registrations

* `lastRegistration`   what a path stands for;
* `value?_buildTree`   the tree has a file under the components of its path;
* `buildTree_proper_iff`   no node is a file and a directory exactly when no file is below a file.
-/

namespace DolTranslator.Dvd

open Trees

def lastRegistration (registrations : List RegisteredFile) (path : Bytes) : Option RegisteredFile :=
  registrations.reverse.find? fun file => decide (NormalizeLookupPath file.dvdPath = path)

def pathKeys (path : Bytes) : List Bytes := (pathComponents path).map Lowercase

def canonical (file : RegisteredFile) : RegisteredFile :=
  { file with dvdPath := CanonicalizePath file.dvdPath }

theorem NormalizeLookupPath_eq (path : Bytes) :
    NormalizeLookupPath path = joinPath (pathKeys path) := Lowercase_joinPath _

theorem plain_pathComponents (path : Bytes) : ∀ c ∈ pathComponents path, Plain c :=
  fun _ hc => (plain_of_mem_pathComponents hc).1

theorem CanonicalizePath_idem (path : Bytes) :
    CanonicalizePath (CanonicalizePath path) = CanonicalizePath path :=
  CanonicalizePath_joinPath (plain_pathComponents path)

theorem NormalizeLookupPath_canonical (path : Bytes) :
    NormalizeLookupPath (CanonicalizePath path) = NormalizeLookupPath path := by
  unfold NormalizeLookupPath
  rw [CanonicalizePath_idem]

theorem Components_canonical (path : Bytes) :
    Components (CanonicalizePath path) = pathComponents path :=
  Components_joinPath (plain_pathComponents path)

theorem CanonicalizePath_eq_root (path : Bytes) :
    CanonicalizePath path = [kSlash] ↔ pathComponents path = [] :=
  joinPath_eq_root fun c hc => (plain_pathComponents path c hc).ne_nil

theorem keys_plain (path : Bytes) : ∀ key ∈ pathKeys path, key ≠ [] ∧ kSlash ∉ key := by
  intro key hkey
  obtain ⟨c, hc, rfl⟩ := List.mem_map.mp hkey
  have hplain := plain_pathComponents path c hc
  exact plain_Lowercase ⟨hplain.ne_nil, hplain.slash⟩

theorem pathKeys_inj {path path' : Bytes} :
    pathKeys path = pathKeys path' ↔ NormalizeLookupPath path = NormalizeLookupPath path' := by
  rw [NormalizeLookupPath_eq, NormalizeLookupPath_eq]
  exact ⟨fun h => congrArg joinPath h, joinPath_inj (keys_plain path) (keys_plain path')⟩

theorem filesByPath_spec {registrations : List RegisteredFile} {files files' : PathMap RegisteredFile}
    (h : filesByPath registrations files = some files') (path : Bytes) :
    files'[path]? = ((lastRegistration registrations path).map canonical).or files[path]? := by
  induction registrations generalizing files with
  | nil =>
    obtain rfl := Option.some.inj h
    rfl
  | cons file registrations ih =>
    unfold filesByPath at h
    dsimp only at h
    split at h
    · cases h
    · have hrest := ih h
      have hlast : lastRegistration (file :: registrations) path =
          (lastRegistration registrations path).or
            (if NormalizeLookupPath file.dvdPath = path then some file else none) := by
        unfold lastRegistration
        rw [List.reverse_cons, List.find?_append]
        congr 1
        by_cases hpath : NormalizeLookupPath file.dvdPath = path
        · rw [if_pos hpath]
          exact List.find?_cons_of_pos (decide_eq_true hpath)
        · rw [if_neg hpath]
          exact List.find?_cons_of_neg (by rwa [decide_eq_true_eq])
      rw [hrest, hlast, Std.TreeMap.getElem?_insert, NormalizeLookupPath_canonical]
      cases lastRegistration registrations path with
      | some last => rfl
      | none =>
        by_cases hpath : NormalizeLookupPath file.dvdPath = path
        · rw [if_pos hpath, if_pos (Std.LawfulEqOrd.compare_eq_iff_eq.mpr hpath)]
          rfl
        · rw [if_neg hpath, if_neg fun heq => hpath (Std.LawfulEqOrd.compare_eq_iff_eq.mp heq)]
          rfl

theorem filesByPath_eq_none {registrations : List RegisteredFile} {files : PathMap RegisteredFile} :
    filesByPath registrations files = none ↔
      ∃ file ∈ registrations, CanonicalizePath file.dvdPath = [kSlash] := by
  induction registrations generalizing files with
  | nil => exact ⟨fun h => (by cases h), fun ⟨_, h, _⟩ => by cases h⟩
  | cons file registrations ih =>
    unfold filesByPath
    dsimp only
    rw [List.exists_mem_cons_iff]
    by_cases hroot : CanonicalizePath file.dvdPath = [kSlash]
    · rw [if_pos hroot]
      exact ⟨fun _ => .inl hroot, fun _ => rfl⟩
    · rw [if_neg hroot, ih]
      exact ⟨.inr, fun h => h.resolve_left hroot⟩

/-! ## the tree -/

def fileKeys (file : RegisteredFile) : List Bytes := (Components file.dvdPath).map Lowercase

section

variable {files : List (Bytes × RegisteredFile)} {t : Children} {file : RegisteredFile}
  {keys : List Bytes}

theorem sorted_addFiles (h : t.Sorted) :
    (files.foldl (fun root file => addFile root file.2) t).Sorted := by
  induction files generalizing t with
  | nil => exact h
  | cons e files ih => exact ih (Trie.sorted_insert h)

theorem all_addFiles {P : Bytes → Bytes → Option RegisteredFile → Children → Prop} (h : t.All P)
    (hend : ∀ e ∈ files, ∀ name ∈ Components e.2.dvdPath, ∀ children,
      P (Lowercase name) name (some e.2) children)
    (hnew : ∀ e ∈ files, ∀ name ∈ Components e.2.dvdPath, ∀ children, children ≠ .nil →
      P (Lowercase name) name none children)
    (hway : ∀ key name value children children', children' ≠ .nil → P key name value children →
      P key name value children') :
    (files.foldl (fun root file => addFile root file.2) t).All P := by
  induction files generalizing t with
  | nil => exact h
  | cons e files ih =>
    exact ih (Trie.all_insert h (hend e List.mem_cons_self) (hnew e List.mem_cons_self) hway)
      (fun e he => hend e (List.mem_cons_of_mem _ he)) fun e he => hnew e (List.mem_cons_of_mem _ he)

theorem value?_addFile (h : t.Sorted) (hne : Components file.dvdPath ≠ []) :
    (addFile t file).value? keys = if keys = fileKeys file then some file else t.value? keys :=
  Trie.value?_insert h hne keys

theorem mem_of_value? (h : t.Sorted) (hne : ∀ e ∈ files, Components e.2.dvdPath ≠ [])
    (hvalue : (files.foldl (fun root file => addFile root file.2) t).value? keys = some file) :
    (∃ e ∈ files, e.2 = file ∧ fileKeys file = keys) ∨ t.value? keys = some file := by
  induction files generalizing t with
  | nil => exact .inr hvalue
  | cons e files ih =>
    have hsorted : (addFile t e.2).Sorted := Trie.sorted_insert h
    obtain ⟨e', he', hfile⟩ | hold :=
      ih hsorted (fun e he => hne e (List.mem_cons_of_mem _ he)) hvalue
    · exact .inl ⟨e', List.mem_cons_of_mem _ he', hfile⟩
    · rw [value?_addFile h (hne e List.mem_cons_self)] at hold
      split at hold
      · next hkeys =>
        obtain rfl := Option.some.inj hold
        exact .inl ⟨e, List.mem_cons_self, rfl, hkeys.symm⟩
      · exact .inr hold

theorem value?_addFiles_of_not_mem (h : t.Sorted) (hne : ∀ e ∈ files, Components e.2.dvdPath ≠ [])
    (hvalue : t.value? keys = some file) (hnot : ∀ e ∈ files, fileKeys e.2 ≠ keys) :
    (files.foldl (fun root file => addFile root file.2) t).value? keys = some file := by
  induction files generalizing t with
  | nil => exact hvalue
  | cons e files ih =>
    refine ih (Trie.sorted_insert h) (fun e he => hne e (List.mem_cons_of_mem _ he)) ?_
      fun e he => hnot e (List.mem_cons_of_mem _ he)
    rw [value?_addFile h (hne e List.mem_cons_self), if_neg (hnot e List.mem_cons_self).symm]
    exact hvalue

theorem value?_of_mem (h : t.Sorted) (hne : ∀ e ∈ files, Components e.2.dvdPath ≠ [])
    (hdistinct : files.Pairwise fun e e' => fileKeys e.2 ≠ fileKeys e'.2)
    {e : Bytes × RegisteredFile} (hmem : e ∈ files) :
    (files.foldl (fun root file => addFile root file.2) t).value? (fileKeys e.2) = some e.2 := by
  induction files generalizing t with
  | nil => cases hmem
  | cons e' files ih =>
    obtain ⟨hfirst, hrest⟩ := List.pairwise_cons.mp hdistinct
    have hne' : ∀ e ∈ files, Components e.2.dvdPath ≠ [] :=
      fun e he => hne e (List.mem_cons_of_mem _ he)
    have hsorted : (addFile t e'.2).Sorted := Trie.sorted_insert h
    obtain rfl | hmem := List.mem_cons.mp hmem
    · have hvalue : (addFile t e.2).value? (fileKeys e.2) = some e.2 := by
        rw [value?_addFile h (hne e List.mem_cons_self), if_pos rfl]
      show (files.foldl (fun root file => addFile root file.2) (addFile t e.2)).value? _ = _
      exact value?_addFiles_of_not_mem hsorted hne' hvalue fun e'' he'' => (hfirst e'' he'').symm
    · exact ih hsorted hne' hrest hmem

end

/-! ## the tree of the registrations -/

section

variable {registrations : List RegisteredFile} {files : PathMap RegisteredFile}

theorem mem_files (h : filesByPath registrations ∅ = some files) {path : Bytes}
    {file : RegisteredFile} :
    (path, file) ∈ files.toList ↔
      ∃ last, lastRegistration registrations path = some last ∧ file = canonical last := by
  rw [Std.TreeMap.mem_toList_iff_getElem?_eq_some, filesByPath_spec h path,
    Std.TreeMap.getElem?_emptyc, Option.or_none, Option.map_eq_some_iff]
  exact exists_congr fun last => and_congr_right fun _ => eq_comm

theorem mem_of_lastRegistration {path : Bytes} {last : RegisteredFile}
    (h : lastRegistration registrations path = some last) :
    last ∈ registrations ∧ NormalizeLookupPath last.dvdPath = path := by
  unfold lastRegistration at h
  have hpath := List.find?_some h
  exact ⟨List.mem_reverse.mp (List.mem_of_find?_eq_some h), of_decide_eq_true hpath⟩

theorem exists_lastRegistration {file : RegisteredFile} (h : file ∈ registrations) :
    ∃ last, lastRegistration registrations (NormalizeLookupPath file.dvdPath) = some last := by
  rw [← Option.isSome_iff_exists]
  unfold lastRegistration
  rw [List.find?_isSome]
  exact ⟨file, List.mem_reverse.mpr h, decide_eq_true rfl⟩

theorem fileKeys_canonical (file : RegisteredFile) :
    fileKeys (canonical file) = pathKeys file.dvdPath := by
  unfold fileKeys
  show (Components (CanonicalizePath file.dvdPath)).map Lowercase = _
  rw [Components_canonical]
  rfl

theorem components_ne_nil (h : filesByPath registrations ∅ = some files) :
    ∀ e ∈ files.toList, Components e.2.dvdPath ≠ [] := by
  intro e he
  obtain ⟨last, hlast, hfile⟩ := (mem_files h).mp he
  rw [hfile]
  show Components (CanonicalizePath last.dvdPath) ≠ []
  rw [Components_canonical]
  intro hnil
  have hnone : filesByPath registrations ∅ = none := filesByPath_eq_none.mpr
    ⟨last, (mem_of_lastRegistration hlast).1, (CanonicalizePath_eq_root _).mpr hnil⟩
  rw [h] at hnone
  cases hnone

theorem distinct_files (h : filesByPath registrations ∅ = some files) :
    files.toList.Pairwise fun e e' => fileKeys e.2 ≠ fileKeys e'.2 := by
  refine List.Pairwise.imp_of_mem ?_ files.distinct_keys_toList
  intro e e' he he' hne heq
  obtain ⟨last, hlast, hfile⟩ := (mem_files h).mp he
  obtain ⟨last', hlast', hfile'⟩ := (mem_files h).mp he'
  rw [hfile, hfile', fileKeys_canonical, fileKeys_canonical, pathKeys_inj,
    (mem_of_lastRegistration hlast).2, (mem_of_lastRegistration hlast').2] at heq
  exact hne (Std.LawfulEqOrd.compare_eq_iff_eq.mpr heq)

theorem sorted_buildTree (files : PathMap RegisteredFile) : (buildTree files).Sorted :=
  sorted_addFiles (show Trie.Sorted .nil from trivial)

/-- **The tree has the files**, each under the keys of its path. -/
theorem value?_buildTree (h : filesByPath registrations ∅ = some files) {keys : List Bytes}
    {file : RegisteredFile} :
    (buildTree files).value? keys = some file ↔
      ∃ last, lastRegistration registrations (joinPath keys) = some last ∧
        file = canonical last ∧ pathKeys last.dvdPath = keys := by
  constructor
  · intro hvalue
    obtain ⟨⟨path, _⟩, hmem, rfl, hkeys⟩ | hnil :=
      mem_of_value? (show Trie.Sorted .nil from trivial) (components_ne_nil h) hvalue
    · obtain ⟨last, hlast, hfile⟩ := (mem_files h).mp hmem
      dsimp only at hkeys
      rw [hfile, fileKeys_canonical] at hkeys
      have hpath := (mem_of_lastRegistration hlast).2
      rw [NormalizeLookupPath_eq, hkeys] at hpath
      exact ⟨last, hpath ▸ hlast, hfile, hkeys⟩
    · rw [Trie.value?_nil] at hnil
      cases hnil
  · rintro ⟨last, hlast, rfl, hkeys⟩
    have hmem := (mem_files h).mpr ⟨last, hlast, rfl⟩
    have hvalue := value?_of_mem (show Trie.Sorted .nil from trivial) (components_ne_nil h) (distinct_files h) hmem
    dsimp only at hvalue
    rw [fileKeys_canonical, hkeys] at hvalue
    exact hvalue

theorem named_buildTree (files : PathMap RegisteredFile) : (buildTree files).Named Lowercase :=
  all_addFiles (show Trie.All _ .nil from trivial) (fun _ _ _ _ _ => rfl) (fun _ _ _ _ _ _ => rfl) fun _ _ _ _ _ _ h => h

theorem full_buildTree (files : PathMap RegisteredFile) : (buildTree files).Full :=
  all_addFiles (show Trie.All _ .nil from trivial) (fun _ _ _ _ _ => .inl rfl) (fun _ _ _ _ _ h => .inr h)
    fun _ _ _ _ _ hne _ => .inr hne

theorem all_names_buildTree (h : filesByPath registrations ∅ = some files) :
    (buildTree files).All fun _ name _ _ =>
      Plain name ∧ ∃ file ∈ registrations, ∀ b ∈ name, b ∈ file.dvdPath := by
  have hname : ∀ e ∈ files.toList, ∀ name ∈ Components e.2.dvdPath,
      Plain name ∧ ∃ file ∈ registrations, ∀ b ∈ name, b ∈ file.dvdPath := by
    intro e he name hmem
    obtain ⟨last, hlast, hfile⟩ := (mem_files h).mp he
    rw [hfile] at hmem
    have hmem' : name ∈ Components (CanonicalizePath last.dvdPath) := hmem
    rw [Components_canonical] at hmem'
    obtain ⟨hplain, hfrom⟩ := plain_of_mem_pathComponents hmem'
    exact ⟨hplain, last, (mem_of_lastRegistration hlast).1, hfrom⟩
  exact all_addFiles (show Trie.All _ .nil from trivial) (fun e he name hmem _ => hname e he name hmem)
    (fun e he name hmem _ _ => hname e he name hmem) fun _ _ _ _ _ _ hold => hold

/-- a path is both a file and a directory -/
def FileAndDirectory (registrations : List RegisteredFile) : Prop :=
  ∃ file ∈ registrations, ∃ file' ∈ registrations, ∃ more, more ≠ [] ∧
    pathKeys file'.dvdPath = pathKeys file.dvdPath ++ more

/-- **No node is a file and a directory** exactly when no registered path is. -/
theorem buildTree_proper_iff (h : filesByPath registrations ∅ = some files) :
    (buildTree files).Proper ↔ ¬ FileAndDirectory registrations := by
  have hvalue {file : RegisteredFile} (hmem : file ∈ registrations) :
      ∃ a, (buildTree files).value? (pathKeys file.dvdPath) = some a := by
    obtain ⟨last, hlast⟩ := exists_lastRegistration hmem
    have hkeys := pathKeys_inj.mpr (mem_of_lastRegistration hlast).2
    rw [NormalizeLookupPath_eq] at hlast
    exact ⟨_, (value?_buildTree h).mpr ⟨last, hlast, rfl, hkeys⟩⟩
  rw [(full_buildTree files).proper_iff (sorted_buildTree files)]
  constructor
  · rintro hnone ⟨file, hmem, file', hmem', more, hmore, hkeys⟩
    obtain ⟨a, ha⟩ := hvalue hmem
    obtain ⟨a', ha'⟩ := hvalue hmem'
    rw [hkeys, hnone _ a ha more hmore] at ha'
    cases ha'
  · intro hnot keys a ha more hmore
    by_contra hsome
    obtain ⟨b, hb⟩ := Option.ne_none_iff_exists'.mp hsome
    obtain ⟨last, hlast, -, hkeys⟩ := (value?_buildTree h).mp ha
    obtain ⟨last', hlast', -, hkeys'⟩ := (value?_buildTree h).mp hb
    exact hnot ⟨last, (mem_of_lastRegistration hlast).1, last', (mem_of_lastRegistration hlast').1,
      more, hmore, by rw [hkeys', hkeys]⟩

end

end DolTranslator.Dvd

/-!
## The entries of the tree

* `listing`       the entries of a forest in pre-order, and `preNames` their names;
* `EmitTree_spec`   what is emitted is the listing, unless a node is a file and a directory;
* `indexPaths`    the index of each path.
-/

namespace DolTranslator.Dvd

open Trees

/-- the entries of a forest, from an index on, below a directory -/
def listing (parent : Nat) (path : Bytes) (first : Nat) :
    Forest Bytes RegisteredFile → List IndexedEntry
  | .nil => []
  | .leaf name file rest =>
    ⟨file.hostPath, childPath path name, file.size, file.discOffsetWords, parent, first + 1, false⟩ ::
      listing parent path (first + 1) rest
  | .node name children rest =>
    ⟨[], childPath path name, 0, 0, parent, first + 1 + children.size, true⟩ ::
      (listing first (childPath path name) (first + 1) children ++
        listing parent path (first + 1 + children.size) rest)

def preNames : Forest Bytes RegisteredFile → List Bytes
  | .nil => []
  | .leaf name _ rest => name :: preNames rest
  | .node name children rest => name :: (preNames children ++ preNames rest)

section

variable {t : Forest Bytes RegisteredFile} {parent first : Nat} {path : Bytes}

@[simp] theorem length_listing : (listing parent path first t).length = t.size := by
  induction t generalizing parent path first with
  | nil => rfl
  | leaf name file rest ih => exact congrArg (· + 1) ih
  | node name children rest ihc ihr =>
    show (_ ++ _ : List IndexedEntry).length + 1 = children.size + rest.size + 1
    rw [List.length_append, ihc, ihr]

@[simp] theorem length_preNames : (preNames t).length = t.size := by
  induction t with
  | nil => rfl
  | leaf name file rest ih => exact congrArg (· + 1) ih
  | node name children rest ihc ihr =>
    show (_ ++ _ : List Bytes).length + 1 = children.size + rest.size + 1
    rw [List.length_append, ihc, ihr]

end

/-! ## indexes -/

def indexPaths (paths : List Bytes) : PathMap Nat :=
  paths.zipIdx.foldl (fun m p => m.insertIfNew (NormalizeLookupPath p.1) p.2) ∅

theorem indexPaths_append (paths : List Bytes) (path : Bytes) :
    indexPaths (paths ++ [path]) =
      (indexPaths paths).insertIfNew (NormalizeLookupPath path) paths.length := by
  unfold indexPaths
  rw [List.zipIdx_append, List.foldl_append]
  show _ = _
  rw [Nat.zero_add]
  rfl

/-- **A path has its index**, when no two paths are alike. -/
theorem indexPaths_spec {paths : List Bytes} (h : (paths.map NormalizeLookupPath).Nodup) (q : Bytes)
    (i : Nat) :
    (indexPaths paths)[q]? = some i ↔ (paths.map NormalizeLookupPath)[i]? = some q := by
  induction paths using List.reverseRecOn generalizing q i with
  | nil =>
    have hnone : (indexPaths [])[q]? = none := Std.TreeMap.getElem?_emptyc
    rw [hnone]
    exact ⟨fun h => (by cases h), fun h => by cases h⟩
  | append_singleton paths path ih =>
    rw [List.map_append, List.nodup_append] at h
    have ih := fun q i => ih h.1 q i
    have hnot : NormalizeLookupPath path ∉ paths.map NormalizeLookupPath := fun hmem =>
      h.2.2 _ hmem _ (List.mem_singleton.mpr rfl) rfl
    have hfresh : NormalizeLookupPath path ∉ indexPaths paths := by
      intro hmem
      rw [Std.TreeMap.mem_iff_isSome_getElem?] at hmem
      obtain ⟨j, hj⟩ := Option.isSome_iff_exists.mp hmem
      rw [ih] at hj
      exact hnot (List.mem_of_getElem? hj)
    rw [indexPaths_append, Std.TreeMap.getElem?_insertIfNew, List.map_append, List.map_singleton]
    by_cases hq : NormalizeLookupPath path = q
    · rw [if_pos ⟨Std.LawfulEqOrd.compare_eq_iff_eq.mpr hq, hfresh⟩, Option.some.injEq, ← hq]
      constructor
      · rintro rfl
        rw [List.getElem?_append_right (by rw [List.length_map]), List.length_map, Nat.sub_self]
        rfl
      · intro hi
        by_contra hne
        rcases Nat.lt_or_ge i (paths.map NormalizeLookupPath).length with hlt | hge
        · rw [List.getElem?_append_left hlt] at hi
          exact hnot (List.mem_of_getElem? hi)
        · rw [List.length_map] at hge
          have hlen := (List.getElem?_eq_some_iff.mp hi).1
          rw [List.length_append, List.length_map, List.length_singleton] at hlen
          omega
    · rw [if_neg fun hand => hq (Std.LawfulEqOrd.compare_eq_iff_eq.mp hand.1), ih]
      rcases Nat.lt_or_ge i (paths.map NormalizeLookupPath).length with hlt | hge
      · rw [List.getElem?_append_left hlt]
      · rw [List.getElem?_append_right hge, List.getElem?_eq_none hge]
        refine ⟨fun h => (by cases h), fun h => ?_⟩
        have hmem := List.mem_singleton.mp (List.mem_of_getElem? h)
        exact absurd hmem.symm hq

/-- the index agrees with the entries -/
def Emission.Indexed (s : Emission) : Prop :=
  s.pathToEntry = indexPaths (s.entries.map IndexedEntry.dvdPath)

theorem indexed_push {s : Emission} (h : s.Indexed) (entry : IndexedEntry) (name : Bytes) :
    (s.push entry name).Indexed := by
  unfold Emission.Indexed Emission.push
  rw [List.map_append, List.map_singleton, indexPaths_append, List.length_map, ← h]

theorem modify_length_append {β : Type} (xs ys : List β) (y : β) (f : β → β) :
    (xs ++ y :: ys).modify xs.length f = xs ++ f y :: ys := by
  induction xs with
  | nil => rfl
  | cons x xs ih => exact congrArg (x :: ·) ih

theorem map_dvdPath_modify (entries : List IndexedEntry) (index ends : Nat) :
    (entries.modify index fun e => { e with subtreeEnd := ends }).map IndexedEntry.dvdPath =
      entries.map IndexedEntry.dvdPath := by
  induction entries generalizing index with
  | nil => cases index <;> rfl
  | cons e entries ih =>
    cases index with
    | zero => rfl
    | succ index => exact congrArg (e.dvdPath :: ·) (ih index)

theorem indexed_setEnd {s : Emission} (h : s.Indexed) (index : Nat) : (s.setEnd index).Indexed := by
  unfold Emission.Indexed Emission.setEnd
  rw [map_dvdPath_modify]
  exact h

theorem indexed_emitRoot : emitRoot.Indexed := by
  have hroot : NormalizeLookupPath [kSlash] = [kSlash] := by decide
  show _ = (∅ : PathMap Nat).insertIfNew (NormalizeLookupPath [kSlash]) 0
  rw [hroot]
  rfl

/-- what an emission has after a forest -/
structure Emitted (s s' : Emission) (parent : Nat) (path : Bytes)
    (t : Forest Bytes RegisteredFile) : Prop where
  entries : s'.entries = s.entries ++ listing parent path s.entries.length t
  names : s'.names = s.names ++ preNames t
  indexed : s.Indexed → s'.Indexed

theorem isNil_iff {t : Children} : t.isNil = true ↔ t = .nil := by
  cases t with
  | nil => exact ⟨fun _ => rfl, fun _ => rfl⟩
  | cons key name value children rest => exact ⟨fun h => (by cases h), fun h => by cases h⟩

/-- **What is emitted** of a tree is the listing of its forest, and nothing when a node is a file
and a directory or neither. -/
theorem EmitTree_spec (parent : Nat) (path : Bytes) (t : Children) (s : Emission) :
    (t.Proper → ∃ s', EmitTree parent path t s = .ok s' ∧ Emitted s s' parent path t.forest) ∧
      (¬ t.Proper → ∃ e, EmitTree parent path t s = .error e) := by
  induction t generalizing parent path s with
  | nil =>
    refine ⟨fun _ => ⟨s, rfl, ?_, ?_, fun h => h⟩, fun h => absurd trivial h⟩
    · exact (List.append_nil _).symm
    · exact (List.append_nil _).symm
  | cons key name file children rest ihc ihr =>
    unfold EmitTree
    dsimp only
    by_cases hnil : children = .nil
    · subst hnil
      cases file with
      | none =>
        refine ⟨fun h => ?_, fun _ => ⟨_, rfl⟩⟩
        cases h.1.mpr rfl
      | some file =>
        obtain ⟨hok, herror⟩ := ihr parent path (s.push ⟨file.hostPath, childPath path name,
          file.size, file.discOffsetWords, parent, s.entries.length + 1, false⟩ name)
        constructor
        · intro h
          obtain ⟨s', heq, hemitted⟩ := hok h.2.2
          refine ⟨s', heq, ?_, ?_, fun hi => hemitted.indexed (indexed_push hi _ _)⟩
          · rw [hemitted.entries]
            show (s.entries ++ [_]) ++ listing parent path (s.entries ++ [_]).length _ = _
            rw [List.length_append, List.append_assoc]
            rfl
          · rw [hemitted.names]
            show (s.names ++ [_]) ++ _ = _
            rw [List.append_assoc]
            rfl
        · intro h
          exact herror fun hrest => h ⟨⟨fun _ => rfl, fun _ => rfl⟩, trivial, hrest⟩
    · have hfalse : (!children.isNil) = true := by
        rw [Bool.not_eq_true', ← Bool.not_eq_true, isNil_iff]
        exact hnil
      rw [if_pos hfalse]
      cases file with
      | some file =>
        refine ⟨fun h => absurd (h.1.mp rfl) hnil, fun _ => ⟨_, rfl⟩⟩
      | none =>
        rw [if_neg (by decide : ¬ (none : Option RegisteredFile).isSome = true), Trie.forest_node]
        obtain ⟨hok, herror⟩ := ihc s.entries.length (childPath path name)
          (s.push ⟨[], childPath path name, 0, 0, parent, 0, true⟩ name)
        by_cases hchildren : children.Proper
        · obtain ⟨s1, heq, hemitted⟩ := hok hchildren
          rw [heq]
          dsimp only
          have hbelow : s1.entries = s.entries ++ ⟨[], childPath path name, 0, 0, parent, 0, true⟩ ::
              listing s.entries.length (childPath path name) (s.entries.length + 1)
                children.forest := by
            rw [hemitted.entries]
            show (s.entries ++ [_]) ++ listing _ _ (s.entries ++ [_]).length _ = _
            rw [List.length_append, List.append_assoc]
            rfl
          have hlength : s1.entries.length = s.entries.length + 1 + children.forest.size := by
            rw [hbelow, List.length_append, List.length_cons, length_listing]
            omega
          have hentries : (s1.setEnd s.entries.length).entries = s.entries ++
              ⟨[], childPath path name, 0, 0, parent, s.entries.length + 1 + children.forest.size,
                true⟩ :: listing s.entries.length (childPath path name) (s.entries.length + 1)
                  children.forest := by
            show s1.entries.modify _ (fun e => { e with subtreeEnd := s1.entries.length }) = _
            rw [hlength, hbelow, modify_length_append]
          obtain ⟨hok', herror'⟩ := ihr parent path (s1.setEnd s.entries.length)
          constructor
          · intro h
            obtain ⟨s', heq', hemitted'⟩ := hok' h.2.2
            refine ⟨s', heq', ?_, ?_, fun hi => hemitted'.indexed (indexed_setEnd
              (hemitted.indexed (indexed_push hi _ _)) _)⟩
            · have hlength' : (s1.setEnd s.entries.length).entries.length =
                  s.entries.length + 1 + children.forest.size := by
                rw [hentries, List.length_append, List.length_cons, length_listing]
                omega
              rw [hemitted'.entries, hlength', hentries, List.append_assoc]
              rfl
            · rw [hemitted'.names]
              show s1.names ++ _ = _
              rw [hemitted.names]
              show (s.names ++ [_] ++ _) ++ _ = _
              rw [List.append_assoc, List.append_assoc]
              rfl
          · intro h
            exact herror' fun hrest => h ⟨⟨fun h => (by cases h), fun h => absurd h hnil⟩,
              hchildren, hrest⟩
        · obtain ⟨e, heq⟩ := herror hchildren
          rw [heq]
          exact ⟨fun h => absurd h.2.1 hchildren, fun _ => ⟨e, rfl⟩⟩

end DolTranslator.Dvd
