import DolTranslator.Nand.SharedFiles
import Mathlib.Data.List.Dedup
import Mathlib.Data.List.Perm.Subperm

/-!
# Shared contents over a history

* `Call`, `run`   titles installed and removed, any write or removal of which may fail;
* `Consistent.step`   what one call keeps;
* `shared_contents_consistent`   what holds after every history.
-/

namespace DolTranslator.Nand

open Disc Streams

/-! ## histories -/

inductive Call where
  | install (outcome : Nat → Bool) (file : Bytes) (cipher : Cipher)
  | remove (outcome : Nat → Bool) (id : UInt64)

namespace Call

def opened : Call → Option Opened
  | .install _ file cipher => (openWad file cipher).toOption
  | .remove _ _ => none

def title : Call → Option Nat
  | .install _ file cipher => (openWad file cipher).toOption.map (·.wad.tmd.title_id)
  | .remove _ id => some id.toNat

def step (files : Files) : Call → Files
  | .install outcome file cipher => (InstallTitle outcome files file cipher).1
  | .remove outcome id => (RemoveTitle outcome files id.toNat).1

end Call

def run (calls : List Call) : Files := calls.foldl Call.step fun _ => none

def Opened.sharedHashes (o : Opened) : List Bytes :=
  (o.wad.tmd.contents.filter ContentRecord.Shared).map (·.sha1)

def Call.sharedHashes (call : Call) : List Bytes :=
  match call.opened with
  | none => []
  | some o => o.sharedHashes

theorem Store.Remove_of_ne {outcome : Nat → Bool} {s : Store} {path path' : Path}
    (h : path' ≠ path) : (s.Remove outcome path).files path' = s.files path' := by
  unfold Store.Remove
  split
  · exact Files.set_of_ne h _
  · rfl

theorem removeContents_of_ne {outcome : Nat → Bool} {id : Nat} {contents : List ContentRecord}
    {s : Store} {path : Path} (h : ∀ content ∈ contents, path ≠ ContentFilePath id content.id) :
    (removeContents outcome id contents s).files path = s.files path := by
  induction contents generalizing s with
  | nil => rfl
  | cons content contents ih =>
    unfold removeContents
    rw [ih fun c hc => h c (List.mem_cons_of_mem _ hc)]
    split
    · rfl
    · exact Store.Remove_of_ne (h content List.mem_cons_self)

/-- a removal changes the files of its title only -/
theorem RemoveTitle_of_ne {outcome : Nat → Bool} {files : Files} {id : Nat} {path : Path}
    (hticket : path ≠ TicketPath id) (htmd : path ≠ TmdPath id)
    (hown : ∀ content_id < 2 ^ 32, path ≠ ContentFilePath id content_id) :
    (RemoveTitle outcome files id).1 path = files path := by
  unfold RemoveTitle
  split
  · rfl
  · next tmd hinstalled =>
    have hsized : ∀ content ∈ tmd.contents, content.id < 2 ^ 32 := by
      unfold installedTmd at hinstalled
      split at hinstalled
      · cases hinstalled
      · exact fun c hc => ((Tmd.Parse_sized hinstalled).2 c hc).1
    dsimp only
    rw [Store.Remove_of_ne hticket, Store.Remove_of_ne htmd,
      removeContents_of_ne fun c hc => hown c.id (hsized c hc)]

/-! ## a call -/

/-- the wad of a call is regular, and its hashes are among the given ones -/
def Call.Fits (held : Bytes → Bytes) (all : List Bytes) (call : Call) : Prop :=
  ∀ o, call.opened = some o → Regular held o ∧ ∀ sha1 ∈ o.sharedHashes, sha1 ∈ all

section

variable {held : Bytes → Bytes} {all : List Bytes} {files : Files} {hashes : List Bytes}
  {o : Opened} {call : Call}

theorem mem_sharedHashes {sha1 : Bytes} :
    sha1 ∈ o.sharedHashes ↔
      ∃ content ∈ o.wad.tmd.contents, content.Shared = true ∧ content.sha1 = sha1 := by
  unfold Opened.sharedHashes
  simp only [List.mem_map, List.mem_filter, and_assoc]

theorem hashesAfter_room (hc : Consistent held files hashes) (hsub : hashes ⊆ all)
    (hall : all.dedup.length ≤ 2 ^ 32) (hwad : ∀ sha1 ∈ o.sharedHashes, sha1 ∈ all) :
    hashesAfter o.wad.tmd.contents hashes ⊆ all ∧
      (hashesAfter o.wad.tmd.contents hashes).length ≤ 2 ^ 32 := by
  have hsubset : hashesAfter o.wad.tmd.contents hashes ⊆ all := by
    intro sha1 hsha1
    obtain hold | hnew := mem_hashesAfter.mp hsha1
    · exact hsub hold
    · exact hwad sha1 (mem_sharedHashes.mpr hnew)
  have hdedup : hashesAfter o.wad.tmd.contents hashes ⊆ all.dedup :=
    fun sha1 hsha1 => List.mem_dedup.mpr (hsubset hsha1)
  have hle := ((nodup_hashesAfter hc.nodup).subperm hdedup).length_le
  exact ⟨hsubset, by omega⟩

theorem Kept.elsewhere {id : Nat} (hsized : o.Sized) (hid : id ≠ o.wad.tmd.title_id)
    (h : id < 2 ^ 64) :
    TmdPath o.wad.tmd.title_id ≠ TmdPath id ∧
      ∀ content ∈ o.wad.tmd.contents, ∀ content_id < 2 ^ 32,
        ContentFilePath o.wad.tmd.title_id content.id ≠ ContentFilePath id content_id :=
  ⟨fun heq => hid (TmdPath_inj hsized.title h heq).symm, fun content hmem _ hlt heq =>
    hid (ContentFilePath_inj hsized.title h (hsized.id content hmem) hlt heq).1.symm⟩

/-- **One call** keeps the map and the files of the titles it is not about. -/
theorem Consistent.step (hc : Consistent held files hashes) (hsub : hashes ⊆ all)
    (hall : all.dedup.length ≤ 2 ^ 32) (hfits : call.Fits held all) :
    ∃ hashes', Consistent held (call.step files) hashes' ∧ hashes' ⊆ all ∧
      ∀ o, o.Sized → Kept o files hashes → call.title ≠ some o.wad.tmd.title_id →
        Kept o (call.step files) hashes' := by
  cases call with
  | remove outcome id =>
    have hid := id.toNat_lt
    have hkept {path : Path} (hlen : path.length ≠ 29) (hlen' : path.length ≠ 42)
        (hlen'' : path.length ≠ 45) :
        (RemoveTitle outcome files id.toNat).1 path = files path := by
      refine RemoveTitle_of_ne (ne_of_length hlen) (ne_of_length hlen') fun c _ => ne_of_length ?_
      exact hlen''
    refine ⟨hashes, ?_, hsub, fun o hsized hold hne => ?_⟩
    · refine hc.of_agree (hkept (by decide) (by decide) (by decide)) fun k _ => ?_
      exact hkept (by rw [length_sharedPath_Hex8]; decide) (by rw [length_sharedPath_Hex8]; decide)
        (by rw [length_sharedPath_Hex8]; decide)
    · have hne' : id.toNat ≠ o.wad.tmd.title_id := fun heq => hne (congrArg some heq)
      obtain ⟨htmd, hown⟩ := Kept.elsewhere hsized hne' hid
      refine hold.of_agree (List.Subset.refl _) ?_ fun content hmem => ?_
      · exact RemoveTitle_of_ne (ne_of_length (by rw [length_TmdPath, length_TicketPath]; decide)) htmd
          fun _ _ => ne_of_length (by rw [length_TmdPath, length_ContentFilePath]; decide)
      · exact RemoveTitle_of_ne
          (ne_of_length (by rw [length_ContentFilePath, length_TicketPath]; decide))
          (ne_of_length (by rw [length_ContentFilePath, length_TmdPath]; decide)) (hown content hmem)
  | install outcome file cipher =>
    cases hopen : openWad file cipher with
    | error result =>
      have hsame : (Call.install outcome file cipher).step files = files := by
        show (InstallTitle outcome files file cipher).1 = files
        unfold InstallTitle
        rw [hopen]
      rw [hsame]
      exact ⟨hashes, hc, hsub, fun _ _ hold _ => hold⟩
    | ok wad =>
      have hopened : (openWad file cipher).toOption = some wad := by
        rw [hopen]
        rfl
      obtain ⟨hregular, hwad⟩ := hfits wad hopened
      have hsized := openWad_sized hopen
      obtain ⟨hsub', hroom⟩ := hashesAfter_room hc hsub hall hwad
      obtain ⟨hfiles, -⟩ := InstallTitle_spec outcome files hopen
      have hkept {hashes' : List Bytes} (hgrows : hashes ⊆ hashes') (o : Opened) (hsized' : o.Sized)
          (hold : Kept o files hashes) (hne : (Call.install outcome file cipher).title ≠
            some o.wad.tmd.title_id) :
          Kept o (InstallTitle outcome files file cipher).1 hashes' := by
        have hne' : o.wad.tmd.title_id ≠ wad.wad.tmd.title_id := by
          intro heq
          refine hne ?_
          show (openWad file cipher).toOption.map _ = _
          rw [hopened, heq]
          rfl
        rw [hfiles]
        refine hold.of_agree hgrows ?_ fun content hmem => ?_
        · exact (elsewhere_tmd hsized'.title hsized hne').after_take hc hsized hregular hroom _
        · exact (elsewhere_own hsized'.title (hsized'.id content hmem) hsized hne').after_take
            hc hsized hregular hroom _
      by_cases hn : passed outcome 0 (plan wad files).length < (plan wad files).length
      · refine ⟨hashes, ?_, hsub, hkept (List.Subset.refl _)⟩
        show Consistent held (InstallTitle outcome files file cipher).1 hashes
        rw [hfiles]
        exact hc.failed hsized hregular hroom hn
      · obtain ⟨more, hmore⟩ := exists_hashesAfter wad.wad.tmd.contents hashes
        refine ⟨hashesAfter wad.wad.tmd.contents hashes, ?_, hsub',
          hkept (hmore ▸ List.subset_append_left _ _)⟩
        show Consistent held (InstallTitle outcome files file cipher).1 _
        rw [hfiles, List.take_of_length_le (by omega)]
        exact (hc.installed hsized hregular hroom (openWad_spec hopen).1).1

/-- **Any number of calls** -/
theorem Consistent.steps {calls : List Call} (hc : Consistent held files hashes)
    (hsub : hashes ⊆ all) (hall : all.dedup.length ≤ 2 ^ 32)
    (hfits : ∀ call ∈ calls, call.Fits held all) :
    ∃ hashes', Consistent held (calls.foldl Call.step files) hashes' ∧ hashes' ⊆ all ∧
      ∀ o, o.Sized → Kept o files hashes →
        (∀ call ∈ calls, call.title ≠ some o.wad.tmd.title_id) →
        Kept o (calls.foldl Call.step files) hashes' := by
  induction calls generalizing files hashes with
  | nil => exact ⟨hashes, hc, hsub, fun _ _ hold _ => hold⟩
  | cons call calls ih =>
    obtain ⟨hashes1, hc1, hsub1, hkept1⟩ :=
      hc.step hsub hall (hfits call List.mem_cons_self)
    obtain ⟨hashes2, hc2, hsub2, hkept2⟩ :=
      ih hc1 hsub1 fun c hmem => hfits c (List.mem_cons_of_mem _ hmem)
    refine ⟨hashes2, hc2, hsub2, fun o hsized hold hne => ?_⟩
    refine hkept2 o hsized (hkept1 o hsized hold (hne call List.mem_cons_self)) ?_
    exact fun c hmem => hne c (List.mem_cons_of_mem _ hmem)

end

/-! ## what is reported -/

def storedMap (files : Files) : SharedMap := ⟨(files mapPath).getD []⟩

/-- **The stored map.**  Entry `k` is named `Hex8 k`, no hash is there twice, and the file of each
entry has the content of its hash. -/
structure MapHolds (held : Bytes → Bytes) (files : Files) : Prop where
  whole : (storedMap files).bytes.length = (storedMap files).count * kSharedEntrySize
  name : ∀ k < (storedMap files).count, (storedMap files).name k = Hex8 k
  distinct : ∀ j < (storedMap files).count, ∀ k < (storedMap files).count,
    (storedMap files).sha1 j = (storedMap files).sha1 k → j = k
  file : ∀ k < (storedMap files).count,
    files (sharedPath ((storedMap files).name k)) = some (held ((storedMap files).sha1 k))

/-- **The contents of a title.**  Each is reported as present, at a file that has its bytes. -/
def Reported (files : Files) (o : Opened) : Prop :=
  List.Forall₂ (fun location content =>
    location.id = content.id ∧ location.index = content.index ∧
      location.shared = content.Shared ∧ location.present = true ∧
      ∃ bytes, o.content content = some bytes ∧ files location.path = some bytes)
    (ResolveContents files o.wad.tmd.title_id) o.wad.tmd.contents

section

variable {held : Bytes → Bytes} {files : Files} {hashes : List Bytes} {o : Opened}

theorem Consistent.mapHolds (h : Consistent held files hashes) : MapHolds held files := by
  have hmap : storedMap files = ofHashes hashes := congrArg SharedMap.mk h.stored
  have hcount := count_ofHashes h.sha1s
  have hroom := h.room
  have hname {k : Nat} (hk : k < hashes.length) : (ofHashes hashes).name k = Hex8 k := by
    rw [name_ofHashes h.sha1s hk, Nat.mod_eq_of_lt (by omega)]
  constructor <;> rw [hmap, hcount]
  · exact length_ofHashes h.sha1s
  · exact fun k hk => hname hk
  · intro j hj k hk heq
    rw [sha1_ofHashes h.sha1s hj, sha1_ofHashes h.sha1s hk] at heq
    exact (List.Nodup.getElem_inj_iff h.nodup).mp heq
  · intro k hk
    rw [hname hk, sha1_ofHashes h.sha1s hk]
    exact h.file k hk

theorem Kept.reported (h : Kept o files hashes) (hc : Consistent held files hashes)
    (hraw : Tmd.Parse o.wad.tmd.raw = some o.wad.tmd) (hwhole : o.Whole)
    (hregular : Regular held o) : Reported files o := by
  have hinstalled : installedTmd files o.wad.tmd.title_id = some o.wad.tmd := by
    unfold installedTmd
    rw [h.tmd]
    exact hraw
  unfold Reported ResolveContents
  rw [hinstalled, hc.load]
  show List.Forall₂ _ (o.wad.tmd.contents.map _) o.wad.tmd.contents
  rw [List.forall₂_map_left_iff, List.forall₂_same]
  intro content hmem
  obtain ⟨bytes, hbytes⟩ := hwhole.content hmem
  have hplace : contentPath (ofHashes hashes) o.wad.tmd.title_id content ≠ [] ∧
      files (contentPath (ofHashes hashes) o.wad.tmd.title_id content) = some bytes := by
    unfold contentPath
    by_cases hshared : content.Shared = true
    · have hknown := h.shared content hmem hshared
      have hlt := List.idxOf_lt_length_of_mem hknown
      have hroom := hc.room
      rw [if_pos hshared, find_ofHashes hc.sha1s, if_pos hknown, Nat.mod_eq_of_lt (by omega)]
      refine ⟨ne_of_length (by rw [length_sharedPath_Hex8]; decide), ?_⟩
      show files (sharedPath (Hex8 _)) = _
      rw [hc.file _ hlt, List.getElem_idxOf]
      exact (hregular.shared content hmem hshared).symm.trans hbytes
    · rw [if_neg hshared]
      refine ⟨ne_of_length (by rw [length_ContentFilePath]; decide), ?_⟩
      rw [h.own content hmem (eq_false_of_ne_true hshared)]
      exact hbytes
  refine ⟨rfl, rfl, rfl, ?_, bytes, hbytes, hplace.2⟩
  show (decide _ && Option.isSome _) = true
  rw [hplace.2, decide_eq_true hplace.1]
  rfl

end

/-- **Shared contents stay consistent over any history.**  Where equal hashes mean equal contents,
and there are names for the different hashes, the map holds after any installs and removals; and of
a title that was installed, and that no later call is about, every content is reported. -/
theorem shared_contents_consistent (held : Bytes → Bytes) (calls : List Call)
    (hregular : ∀ call ∈ calls, ∀ o, call.opened = some o → Regular held o)
    (hroom : (calls.flatMap Call.sharedHashes).dedup.length ≤ 2 ^ 32) :
    MapHolds held (run calls) ∧
      ∀ before outcome file cipher after o,
        calls = before ++ Call.install outcome file cipher :: after →
        openWad file cipher = .ok o →
        (InstallTitle outcome (run before) file cipher).2 = .Installed →
        (∀ call ∈ after, call.title ≠ some o.wad.tmd.title_id) →
        Reported (run calls) o := by
  have hfits : ∀ call ∈ calls, call.Fits held (calls.flatMap Call.sharedHashes) := by
    intro call hmem o hopened
    refine ⟨hregular call hmem o hopened, fun sha1 hsha1 => ?_⟩
    refine List.mem_flatMap.mpr ⟨call, hmem, ?_⟩
    unfold Call.sharedHashes
    rw [hopened]
    exact hsha1
  constructor
  · obtain ⟨hashes, hc, -, -⟩ :=
      (Consistent.empty held).steps (List.nil_subset _) hroom hfits
    exact hc.mapHolds
  · intro before outcome file cipher after o hcalls hopen hdone hafter
    have hopened : (Call.install outcome file cipher).opened = some o := by
      show (openWad file cipher).toOption = some o
      rw [hopen]
      rfl
    rw [hcalls] at hfits hroom
    have hbefore : ∀ call ∈ before, call.Fits held _ :=
      fun call hmem => hfits call (List.mem_append_left _ hmem)
    obtain ⟨hashes1, hc1, hsub1, -⟩ :=
      (Consistent.empty held).steps (List.nil_subset _) hroom hbefore
    obtain ⟨hreg, hwad⟩ := hfits _ (List.mem_append_right _ List.mem_cons_self) o hopened
    obtain ⟨hsub2, hroom2⟩ := hashesAfter_room hc1 hsub1 hroom hwad
    obtain ⟨hwhole, hraw⟩ := openWad_spec hopen
    obtain ⟨hfiles, hinstalled⟩ := InstallTitle_spec outcome (run before) hopen
    obtain ⟨hc2, hkept2⟩ := hc1.installed (openWad_sized hopen) hreg hroom2 hwhole
    obtain ⟨hashes3, hc3, -, hkept3⟩ := hc2.steps hsub2 hroom fun call hmem =>
      hfits call (List.mem_append_right _ (List.mem_cons_of_mem _ hmem))
    have hrun : run calls =
        after.foldl Call.step ((run before).after (plan o (run before))) := by
      rw [hcalls]
      unfold run
      rw [List.foldl_append, List.foldl_cons]
      congr 1
      refine hfiles.trans ?_
      rw [hinstalled.mp hdone, List.take_length]
      rfl
    rw [hrun]
    exact (hkept3 o (openWad_sized hopen) hkept2 hafter).reported hc3 hraw hwhole hreg

/-! ## two titles that share a content -/

/-- a title with two contents of a byte each: `A`, of a given type, and the title's own `B`, under a
given id -/
def pairWad (title id type : Nat) : Bytes :=
  word32 0x20 ++ word16 0x4973 ++ List.replicate 10 0 ++ word32 0x1E0 ++ word32 0x168 ++
    List.replicate 40 0 ++
  -- the ticket
  (word32 0x00010002 ++ List.replicate 508 0) ++
  -- the TMD
  (word32 0x00010002 ++ List.replicate 196 0 ++ word64 title ++ List.replicate 74 0 ++ word16 2 ++
    List.replicate 4 0 ++
    (word32 0 ++ word16 0 ++ word16 type ++ word64 1 ++ List.replicate 20 0) ++
    (word32 id ++ word16 1 ++ word16 1 ++ word64 1 ++ List.replicate 20 1) ++
    List.replicate 24 0) ++
  (0x41 :: List.replicate 63 0) ++ (0x42 :: List.replicate 15 0)

/-- the contents of the hashes of `pairWad` -/
def pairHeld (sha1 : Bytes) : Bytes := if sha1 = List.replicate 20 0 then [0x41] else [0x42]

/-- two titles that share `A`, and the first is removed -/
def pairHistory : List Call :=
  [.install (fun _ => true) (pairWad 1 1 0x8001) plainCipher,
    .install (fun _ => true) (pairWad 2 1 0x8001) plainCipher, .remove (fun _ => true) 1]

instance (held : Bytes → Bytes) (o : Opened) : Decidable (Regular held o) :=
  decidable_of_iff ((∀ content ∈ o.wad.tmd.contents, content.Shared = true →
      o.content content = some (held content.sha1)) ∧
    ∀ content ∈ o.wad.tmd.contents, ∀ content' ∈ o.wad.tmd.contents,
      content.Shared = false → content'.Shared = false → content.id = content'.id →
      o.content content = o.content content') ⟨fun h => ⟨h.1, h.2⟩, fun h => ⟨h.shared, h.own⟩⟩

theorem pairHistory_regular :
    ∀ call ∈ pairHistory, ∀ o, call.opened = some o → Regular pairHeld o := by
  have hall : ∀ call ∈ pairHistory, (call.opened.all fun o => decide (Regular pairHeld o)) = true := by
    decide +kernel
  intro call hmem o hopened
  have h := hall call hmem
  rw [hopened] at h
  exact of_decide_eq_true h

/-- the second title has its contents still -/
theorem shared_contents_consistent_pair :
    MapHolds pairHeld (run pairHistory) ∧
      ∃ o, openWad (pairWad 2 1 0x8001) plainCipher = .ok o ∧ Reported (run pairHistory) o := by
  have hroom : (pairHistory.flatMap Call.sharedHashes).dedup.length ≤ 2 ^ 32 := by decide +kernel
  obtain ⟨hmap, htitles⟩ :=
    shared_contents_consistent pairHeld pairHistory pairHistory_regular hroom
  have htitle : (openWad (pairWad 2 1 0x8001) plainCipher).toOption.map (·.wad.tmd.title_id) =
      some 2 := by decide +kernel
  have hdone : (InstallTitle (fun _ => true) (run [.install (fun _ => true) (pairWad 1 1 0x8001)
      plainCipher]) (pairWad 2 1 0x8001) plainCipher).2 = .Installed := by decide +kernel
  cases hopen : openWad (pairWad 2 1 0x8001) plainCipher with
  | error result =>
    rw [hopen] at htitle
    cases htitle
  | ok o =>
    rw [hopen] at htitle
    refine ⟨hmap, o, rfl, htitles [_] _ _ _ [_] o rfl hopen hdone fun call hmem => ?_⟩
    rw [List.mem_singleton.mp hmem]
    show some (1 : UInt64).toNat ≠ some o.wad.tmd.title_id
    have hid : o.wad.tmd.title_id = 2 := Option.some.inj htitle
    rw [hid]
    decide

/-- **A file that does not have its content.**  Two contents of a title under one id; and a title
that was installed, and whose installation over it failed. -/
theorem installed_content_lost :
    (let files := run [.install (fun _ => true) (pairWad 1 0 1) plainCipher];
      (InstallTitle (fun _ => true) (fun _ => none) (pairWad 1 0 1) plainCipher).2 = .Installed ∧
        (openWad (pairWad 1 0 1) plainCipher).toOption.map (fun o =>
          o.wad.tmd.contents.map o.content) = some [some [0x41], some [0x42]] ∧
        (ResolveContents files 1).map (fun location => files location.path) =
          [some [0x42], some [0x42]]) ∧
    (let files := run [.install (fun _ => true) (pairWad 1 1 1) plainCipher,
        .install (· ≠ 3) (pairWad 1 2 1) plainCipher];
      (InstallTitle (fun _ => true) (fun _ => none) (pairWad 1 1 1) plainCipher).2 = .Installed ∧
        (InstallTitle (· ≠ 3) (run [.install (fun _ => true) (pairWad 1 1 1) plainCipher])
          (pairWad 1 2 1) plainCipher).2 = .WriteFailed ∧
        (ResolveContents files 1).map (·.present) = [true, false]) := by
  decide +kernel

end DolTranslator.Nand
