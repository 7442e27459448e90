import DolTranslator.Dvd.Offsets
import DolTranslator.Streams.UpperBound

/-!
# Reads of the published files

* `ReadsRight`   every read by the offset of a file is of this file;
* `readsRight_iff`   it is when files at one offset are the same for a read;
* `reads_right_iff`   which files of the disc and which registrations that needs.
-/

namespace DolTranslator.Dvd

open Streams

/-- every read by the word offset of a published file, within the file and to guest memory, selects
the file, the offset and as much as is asked and left; in whichever order the sort left the extents -/
def ReadsRight (entries : List DVDFileEntry) : Prop :=
  ∀ extents, SortedExtents entries extents → ∀ e ∈ entries, e.isDirectory = false →
    ∀ (Contains : Nat → Nat → Bool) (fileInfoPtr bufferPtr : Nat) (length offset : Int),
      0 ≤ offset → offset < e.size.toNat → offset < 2 ^ 31 → 0 ≤ length → length < 2 ^ 31 →
      (min length.toNat (e.size.toNat - offset.toNat) ≠ 0 →
        Contains bufferPtr (min length.toNat (e.size.toNat - offset.toNat)) = true) →
      ResolveFileRead Contains entries extents (some e.discOffsetWords) fileInfoPtr bufferPtr length
        offset = .ok ⟨fileInfoPtr, bufferPtr, e.hostPath, offset.toNat,
          min length.toNat (e.size.toNat - offset.toNat), offset⟩

/-- how far two numbers below 2^31 reach into a file of this size -/
def reach (size : UInt32) : Nat := min size.toNat (2 ^ 32 - 2)

/-- files at one offset are the same for a read -/
def Separate (entries : List DVDFileEntry) : Prop :=
  ∀ e ∈ entries, e.isDirectory = false → e.size ≠ 0 → e.discOffsetWords ≠ 0 ∧
    ∀ e' ∈ entries, e'.isDirectory = false → e'.discOffsetWords = e.discOffsetWords →
      e'.hostPath = e.hostPath ∧ reach e'.size = reach e.size

section

variable {entries : List DVDFileEntry} {extents : List PublishedExtent} {e e' : DVDFileEntry}
  {x : PublishedExtent} {i : Nat}

/-! ## the extents -/

theorem extentOf_eq_some : extentOf e i = some x ↔
    (e.isDirectory = false ∧ e.discOffsetWords ≠ 0) ∧
      x = ⟨e.discOffsetWords.toNat * 4, e.discOffsetWords.toNat * 4 + max e.size.toNat 1, i⟩ := by
  unfold extentOf
  split
  next h =>
    refine ⟨fun h => (by cases h), fun ⟨⟨hfile, hne⟩, _⟩ => ?_⟩
    rcases h with h | h
    · rw [hfile] at h
      cases h
    · exact absurd h hne
  next h =>
    rw [not_or, Bool.not_eq_true] at h
    rw [Option.some.injEq]
    exact ⟨fun hx => ⟨h, hx.symm⟩, fun hx => hx.2.symm⟩

theorem mem_fileExtents :
    x ∈ fileExtents entries ↔ ∃ e i, entries[i]? = some e ∧ extentOf e i = some x := by
  unfold fileExtents
  rw [List.mem_filterMap]
  constructor
  · rintro ⟨⟨e, i⟩, hmem, hx⟩
    exact ⟨e, i, List.mem_zipIdx_iff_getElem?.mp hmem, hx⟩
  · rintro ⟨e, i, hget, hx⟩
    exact ⟨(e, i), List.mem_zipIdx_iff_getElem?.mpr hget, hx⟩

theorem find_of_last {offset : Nat}
    (hlast : lastAtMost PublishedExtent.startBytes offset extents = some x)
    (hx : x.startBytes ≤ offset ∧ offset < x.endBytes) :
    FindPublishedExtentForByteOffset extents offset = some x := by
  unfold FindPublishedExtentForByteOffset
  rw [show (extents.takeWhile _).getLast? = some x from hlast]
  exact if_pos hx

theorem find_of_mem (hsorted : SortedExtents entries extents) (he : e ∈ entries)
    (hfile : e.isDirectory = false) (hne : e.discOffsetWords ≠ 0) :
    ∃ e' i x, entries[i]? = some e' ∧ e'.isDirectory = false ∧
      e'.discOffsetWords = e.discOffsetWords ∧ extentOf e' i = some x ∧
        FindPublishedExtentForByteOffset extents (e.discOffsetWords.toNat * 4) = some x := by
  obtain ⟨k, hk⟩ := List.mem_iff_getElem?.mp he
  have hmem := hsorted.perm.mem_iff.mpr
    (mem_fileExtents.mpr ⟨e, k, hk, extentOf_eq_some.mpr ⟨⟨hfile, hne⟩, rfl⟩⟩)
  obtain ⟨x, hx, hstart, hlast⟩ := lastAtMost_key PublishedExtent.startBytes
    hsorted.sorted hmem
  obtain ⟨e', i, hget, hextent⟩ := mem_fileExtents.mp (hsorted.perm.mem_iff.mp hx)
  obtain ⟨⟨hfile', -⟩, rfl⟩ := extentOf_eq_some.mp hextent
  have hstart' : e'.discOffsetWords.toNat * 4 = e.discOffsetWords.toNat * 4 := hstart
  refine ⟨e', i, _, hget, hfile', UInt32.toNat_inj.mp (by omega), hextent, ?_⟩
  refine find_of_last hlast ⟨hstart'.le, ?_⟩
  show _ < e'.discOffsetWords.toNat * 4 + _
  omega

theorem exists_find (hget : entries[i]? = some e) (hx : extentOf e i = some x) :
    ∃ extents, SortedExtents entries extents ∧
      FindPublishedExtentForByteOffset extents (e.discOffsetWords.toNat * 4) = some x := by
  obtain ⟨extents, hperm, hsorted, hlast⟩ := exists_lastAtMost PublishedExtent.startBytes
    (mem_fileExtents.mpr ⟨e, i, hget, hx⟩)
  refine ⟨extents, ⟨hperm, hsorted⟩, ?_⟩
  obtain ⟨-, rfl⟩ := extentOf_eq_some.mp hx
  refine find_of_last hlast ⟨le_rfl, ?_⟩
  show _ < e.discOffsetWords.toNat * 4 + _
  omega

theorem exists_sortedExtents (entries : List DVDFileEntry) :
    ∃ extents, SortedExtents entries extents :=
  have ⟨extents, hperm, hsorted⟩ := exists_sortedBy PublishedExtent.startBytes (fileExtents entries)
  ⟨extents, hperm, hsorted⟩

/-! ## a read -/

theorem ResolveFileRead_found {words : UInt32} {Contains : Nat → Nat → Bool}
    {fileInfoPtr bufferPtr : Nat} {length offset : Int} (hget : entries[i]? = some e)
    (hx : extentOf e i = some x) (hwords : e.discOffsetWords = words)
    (hfind : FindPublishedExtentForByteOffset extents (words.toNat * 4) = some x)
    (hoffset : 0 ≤ offset) (hlength : 0 ≤ length) :
    ResolveFileRead Contains entries extents (some words) fileInfoPtr bufferPtr length offset =
      if e.size.toNat ≤ offset.toNat then .error .outsideFile
      else if min length.toNat (e.size.toNat - offset.toNat) ≠ 0 ∧
          !Contains bufferPtr (min length.toNat (e.size.toNat - offset.toNat)) then
        .error .destination
      else .ok ⟨fileInfoPtr, bufferPtr, e.hostPath, offset.toNat,
        min length.toNat (e.size.toNat - offset.toNat), offset⟩ := by
  obtain ⟨-, rfl⟩ := extentOf_eq_some.mp hx
  unfold ResolveFileRead
  dsimp only
  rw [hfind]
  dsimp only
  rw [hget]
  dsimp only
  rw [if_neg (by omega), hwords, Nat.sub_self, Nat.zero_add]

theorem of_found {words : UInt32} {Contains : Nat → Nat → Bool} {fileInfoPtr bufferPtr n : Nat}
    {length offset : Int} {host : Bytes} (hget : entries[i]? = some e)
    (hx : extentOf e i = some x) (hwords : e.discOffsetWords = words)
    (hfind : FindPublishedExtentForByteOffset extents (words.toNat * 4) = some x)
    (hoffset : 0 ≤ offset) (hlength : 0 ≤ length)
    (h : ResolveFileRead Contains entries extents (some words) fileInfoPtr bufferPtr length offset =
      .ok ⟨fileInfoPtr, bufferPtr, host, offset.toNat, n, offset⟩) :
    offset.toNat < e.size.toNat ∧ e.hostPath = host ∧
      min length.toNat (e.size.toNat - offset.toNat) = n := by
  rw [ResolveFileRead_found hget hx hwords hfind hoffset hlength] at h
  split at h
  · cases h
  next hlt =>
  split at h
  · cases h
  injection h with h
  injection h with _ _ hhost _ hlen _
  exact ⟨by omega, hhost, hlen⟩

theorem ResolveFileRead_zero (hsorted : SortedExtents entries extents)
    (Contains : Nat → Nat → Bool) (fileInfoPtr bufferPtr : Nat) (length offset : Int) :
    ResolveFileRead Contains entries extents (some 0) fileInfoPtr bufferPtr length offset =
      .error .unresolvedHandle := by
  have hnone : FindPublishedExtentForByteOffset extents 0 = none := by
    cases hfind : FindPublishedExtentForByteOffset extents 0 with
    | none => rfl
    | some x =>
      unfold FindPublishedExtentForByteOffset at hfind
      split at hfind
      · cases hfind
      next y hlast =>
      obtain ⟨hmem, hle⟩ := mem_of_lastAtMost PublishedExtent.startBytes hlast
      obtain ⟨e, i, -, hy⟩ := mem_fileExtents.mp (hsorted.perm.mem_iff.mp hmem)
      obtain ⟨⟨-, hne⟩, rfl⟩ := extentOf_eq_some.mp hy
      have hle' : e.discOffsetWords.toNat * 4 ≤ 0 := hle
      exact absurd (UInt32.toNat_inj.mp (show e.discOffsetWords.toNat = 0 by omega)) hne
  unfold ResolveFileRead
  dsimp only
  rw [show (0 : UInt32).toNat * 4 = 0 from rfl, hnone]

theorem readsRight_of_separate (h : Separate entries) : ReadsRight entries := by
  intro extents hsorted e he hfile Contains fileInfoPtr bufferPtr length offset hoffset hlt hoffset31
    hlength hlength31 hcontains
  have hsize : e.size ≠ 0 := by
    intro h0
    have hzero : e.size.toNat = 0 := by rw [h0]; rfl
    omega
  obtain ⟨hne, hsame⟩ := h e he hfile hsize
  obtain ⟨e', i, x, hget, hfile', hwords, hx, hfind⟩ := find_of_mem hsorted he hfile hne
  obtain ⟨hhost, hreach⟩ := hsame e' (List.mem_of_getElem? hget) hfile' hwords
  unfold reach at hreach
  -- what is left of both sizes is the same for a length of 31 bits
  have hmin : min length.toNat (e'.size.toNat - offset.toNat) =
      min length.toNat (e.size.toNat - offset.toNat) := by omega
  rw [ResolveFileRead_found hget hx hwords hfind hoffset hlength, if_neg (by omega), hmin, hhost,
    if_neg]
  rintro ⟨hnonzero, hnot⟩
  rw [hcontains hnonzero] at hnot
  cases hnot

theorem separate_of_readsRight (h : ReadsRight entries) : Separate entries := by
  intro e he hfile hsize
  have hpos : 0 < e.size.toNat := by
    rcases Nat.eq_zero_or_pos e.size.toNat with h0 | hpos
    · exact absurd (UInt32.toNat_inj.mp h0) hsize
    · exact hpos
  have hread := fun extents hsorted => h extents hsorted e he hfile (fun _ _ => true) 0 0 (2 ^ 31 - 1)
  have hne : e.discOffsetWords ≠ 0 := by
    intro h0
    obtain ⟨extents, hsorted⟩ := exists_sortedExtents entries
    have hread0 := hread extents hsorted 0 (by omega) (by omega) (by omega) (by omega) (by omega)
      fun _ => rfl
    rw [h0, ResolveFileRead_zero hsorted] at hread0
    cases hread0
  refine ⟨hne, fun e' he' hfile' hwords => ?_⟩
  obtain ⟨i, hget⟩ := List.mem_iff_getElem?.mp he'
  obtain ⟨x, hx⟩ : ∃ x, extentOf e' i = some x :=
    ⟨_, extentOf_eq_some.mpr ⟨⟨hfile', hwords ▸ hne⟩, rfl⟩⟩
  obtain ⟨extents, hsorted, hfind⟩ := exists_find hget hx
  rw [hwords] at hfind
  -- a read from as far as an offset goes tells the sizes apart
  have hfar := hread extents hsorted (min (e.size.toNat - 1) (2 ^ 31 - 1)) (by omega) (by omega)
    (by omega) (by omega) (by omega) fun _ => rfl
  obtain ⟨hlt, hhost, hlen⟩ := of_found hget hx hwords hfind (by omega) (by omega) hfar
  refine ⟨hhost, ?_⟩
  unfold reach
  omega

theorem readsRight_iff : ReadsRight entries ↔ Separate entries :=
  ⟨separate_of_readsRight, readsRight_of_separate⟩

end

/-! ## the law -/

/-- **What the offsets need.**  A file that is not empty shares its offset of the disc only with
what is the same for a read; and the first registration without one does not come to be at offset 0,
which is none, or at an empty file that is the end of everything. -/
structure Distinguished (fstFiles : List FstFileEntry) (registrations : List Registration) : Prop where
  shared : ∀ i j r r', Effective registrations i r → Effective registrations j r' → r.size ≠ 0 →
    realOffset fstFiles r.lookup ≠ 0 →
    realOffset fstFiles r'.lookup = realOffset fstFiles r.lookup →
    r'.hostPath = r.hostPath ∧ reach r'.size = reach r.size
  first : ∀ i r, Effective registrations i r → r.size ≠ 0 → New fstFiles registrations i →
    (∀ j, j < i → ¬New fstFiles registrations j) →
    ¬EndsBy fstFiles registrations 0 ∧
      ∀ j r', Effective registrations j r' → realOffset fstFiles r'.lookup ≠ 0 →
        32 ∣ (realOffset fstFiles r'.lookup).toNat * 4 →
        ¬EndsBy fstFiles registrations ((realOffset fstFiles r'.lookup).toNat * 4)

section

variable {fstFiles : List FstFileEntry} {registrations : List Registration} {reserved ends : Nat}
  {words : Nat → UInt32} {entries : List DVDFileEntry}

theorem mem_of_file {d : Bytes × UInt32 × UInt32} :
    (∃ e ∈ entries, e.file = some d) ↔
      ∃ e ∈ entries, e.isDirectory = false ∧ (e.hostPath, e.size, e.discOffsetWords) = d := by
  refine exists_congr fun e => and_congr_right fun _ => ?_
  unfold DVDFileEntry.file
  cases e.isDirectory with
  | false => exact ⟨fun h => ⟨rfl, Option.some.inj h⟩, fun h => congrArg some h.2⟩
  | true => exact ⟨fun h => (by cases h), fun h => (by cases h.1)⟩

theorem separate_iff (hfiles : ∀ d, (∃ e ∈ entries, e.file = some d) ↔
      ∃ i r, Effective registrations i r ∧ (r.hostPath, r.size, words i) = d) :
    Separate entries ↔ ∀ i r, Effective registrations i r → r.size ≠ 0 → words i ≠ 0 ∧
      ∀ j r', Effective registrations j r' → words j = words i →
        r'.hostPath = r.hostPath ∧ reach r'.size = reach r.size := by
  constructor
  · intro h i r hr hsize
    obtain ⟨e, he, hfile, hd⟩ := mem_of_file.mp ((hfiles _).mpr ⟨i, r, hr, rfl⟩)
    obtain ⟨hhost, hd⟩ := Prod.mk.inj hd
    obtain ⟨hsz, hw⟩ := Prod.mk.inj hd
    obtain ⟨hne, hsame⟩ := h e he hfile (hsz ▸ hsize)
    refine ⟨hw ▸ hne, fun j r' hr' hwords => ?_⟩
    obtain ⟨e', he', hfile', hd'⟩ := mem_of_file.mp ((hfiles _).mpr ⟨j, r', hr', rfl⟩)
    obtain ⟨hhost', hd'⟩ := Prod.mk.inj hd'
    obtain ⟨hsz', hw'⟩ := Prod.mk.inj hd'
    rw [← hhost, ← hhost', ← hsz, ← hsz']
    exact hsame e' he' hfile' (hw'.trans (hwords.trans hw.symm))
  · intro h e he hfile hsize
    obtain ⟨i, r, hr, hd⟩ := (hfiles _).mp (mem_of_file.mpr ⟨e, he, hfile, rfl⟩)
    obtain ⟨hhost, hd⟩ := Prod.mk.inj hd
    obtain ⟨hsz, hw⟩ := Prod.mk.inj hd
    obtain ⟨hne, hsame⟩ := h i r hr (hsz ▸ hsize)
    refine ⟨hw ▸ hne, fun e' he' hfile' hwords => ?_⟩
    obtain ⟨j, r', hr', hd'⟩ := (hfiles _).mp (mem_of_file.mpr ⟨e', he', hfile', rfl⟩)
    obtain ⟨hhost', hd'⟩ := Prod.mk.inj hd'
    obtain ⟨hsz', hw'⟩ := Prod.mk.inj hd'
    rw [← hhost, ← hhost', ← hsz, ← hsz']
    exact hsame j r' hr' (hw'.trans (hwords.trans hw.symm))

theorem toNat_ne_zero {n : UInt32} (h : n ≠ 0) : n.toNat ≠ 0 := fun h0 => h (UInt32.toNat_inj.mp h0)

theorem align32_of_dvd {n : Nat} (h : 32 ∣ n) : align32 n = n := by
  unfold align32
  omega

theorem Offsets.new_inj (ho : Offsets fstFiles registrations ends words) {i j : Nat}
    (hi : New fstFiles registrations i) (hj : New fstFiles registrations j)
    (h : words j = words i) : j = i := by
  rcases Nat.lt_trichotomy i j with hij | hij | hji
  · have hlt := ho.lt j i hj hi hij
    rw [h] at hlt
    exact absurd hlt (Nat.lt_irrefl _)
  · exact hij.symm
  · have hlt := ho.lt i j hi hj hji
    rw [h] at hlt
    exact absurd hlt (Nat.lt_irrefl _)

theorem distinguished_of_apart (ho : Offsets fstFiles registrations ends words)
    (h : ∀ i r, Effective registrations i r → r.size ≠ 0 → words i ≠ 0 ∧
      ∀ j r', Effective registrations j r' → words j = words i →
        r'.hostPath = r.hostPath ∧ reach r'.size = reach r.size) :
    Distinguished fstFiles registrations := by
  constructor
  · intro i j r r' hr hr' hsize hne hsame
    refine (h i r hr hsize).2 j r' hr' ?_
    rw [ho.real i r hr hne, ho.real j r' hr' (hsame ▸ hne), hsame]
  · intro i r hr hsize hnew hfirst
    have hwords := ho.first i hnew hfirst
    obtain ⟨hne, hsame⟩ := h i r hr hsize
    refine ⟨fun hends => ?_, fun j r' hr' hne' hdvd hends => ?_⟩
    · -- nothing has an end: the first one is at 0
      have hends0 := (ho.ends_le_iff 0).mpr hends
      rw [Nat.le_zero.mp hends0, align32_of_dvd (Nat.dvd_zero 32)] at hwords
      exact hne (UInt32.toNat_inj.mp (show (words i).toNat = 0 by omega))
    · -- everything ends where `j` starts: it is empty, and the first one is there
      have hle := (ho.ends_le_iff _).mpr hends
      have hfile := ((ho.ends_le_iff ends).mp le_rfl).files j r' hr' hne'
      have heq : ends = (realOffset fstFiles r'.lookup).toNat * 4 := by omega
      rw [heq, align32_of_dvd hdvd] at hwords
      have hj : words j = words i := by
        rw [ho.real j r' hr' hne']
        exact UInt32.toNat_inj.mp (by omega)
      have hreach := (hsame j r' hr' hj).2
      have hpos := toNat_ne_zero hsize
      unfold reach at hreach
      omega

theorem apart_of_distinguished (ho : Offsets fstFiles registrations ends words)
    (h : Distinguished fstFiles registrations) {i : Nat} {r : Registration}
    (hr : Effective registrations i r) (hsize : r.size ≠ 0) :
    words i ≠ 0 ∧ ∀ j r', Effective registrations j r' → words j = words i →
      r'.hostPath = r.hostPath ∧ reach r'.size = reach r.size := by
  have hnew : ∀ j r', Effective registrations j r' → realOffset fstFiles r'.lookup = 0 →
      New fstFiles registrations j := fun j r' hr' h0 => ⟨r', hr'.get, fun hnot => hnot.2 h0⟩
  have hends := (ho.ends_le_iff ends).mp le_rfl
  have halign := align32_le ends
  have hpos := toNat_ne_zero hsize
  by_cases hreal : realOffset fstFiles r.lookup = 0
  · have hi := hnew i r hr hreal
    have hle := ho.le i hi
    by_cases hfirst : ∀ j, j < i → ¬New fstFiles registrations j
    · have hwords := ho.first i hi hfirst
      obtain ⟨hzero, hother⟩ := h.first i r hr hsize hi hfirst
      refine ⟨fun h0 => hzero ((ho.ends_le_iff 0).mp ?_), fun j r' hr' hj => ?_⟩
      · rw [h0] at hwords
        exact halign.1.trans hwords.ge
      · by_cases hreal' : realOffset fstFiles r'.lookup = 0
        · obtain rfl := ho.new_inj hi (hnew j r' hr' hreal') hj
          cases hr.get.symm.trans hr'.get
          exact ⟨rfl, rfl⟩
        · -- a file of the table is there: it starts where everything ends
          have hfile := hends.files j r' hr' hreal'
          have hw := ho.real j r' hr' hreal'
          have heq : (realOffset fstFiles r'.lookup).toNat * 4 = align32 ends := by
            rw [← hwords, ← hj, hw]
          exact absurd ((ho.ends_le_iff _).mp (by omega)) (hother j r' hr' hreal' (by omega))
    · -- an earlier one is at the end of everything or behind it, and this one behind that
      have ⟨k, hk⟩ := not_forall.mp hfirst
      obtain ⟨hki, hk⟩ := Classical.not_imp.mp hk
      have hknew := not_not.mp hk
      have hlt := ho.lt i k hi hknew hki
      have hkle := ho.le k hknew
      refine ⟨fun h0 => by rw [h0] at hlt; exact absurd hlt (Nat.not_lt_zero _), fun j r' hr' hj => ?_⟩
      by_cases hreal' : realOffset fstFiles r'.lookup = 0
      · obtain rfl := ho.new_inj hi (hnew j r' hr' hreal') hj
        cases hr.get.symm.trans hr'.get
        exact ⟨rfl, rfl⟩
      · have hfile := hends.files j r' hr' hreal'
        have hw := ho.real j r' hr' hreal'
        rw [← hw, hj] at hfile
        omega
  · have hw := ho.real i r hr hreal
    have hfile := hends.files i r hr hreal
    refine ⟨hw ▸ hreal, fun j r' hr' hj => ?_⟩
    by_cases hreal' : realOffset fstFiles r'.lookup = 0
    · -- a new one is behind this file
      have hle := ho.le j (hnew j r' hr' hreal')
      rw [hj, hw] at hle
      omega
    · have hw' := ho.real j r' hr' hreal'
      exact h.shared i j r r' hr hr' hsize hreal (by rw [← hw, ← hw', hj])

end

/-- **Reads of the published files.**  After the table is published, every read by the offset of a
file selects it exactly when the files of the disc and the registrations are distinguished. -/
theorem reads_right_iff {fstFiles : List FstFileEntry} {registrations : List Registration}
    {reserved : Nat} {entries : List DVDFileEntry}
    (h : publishEntries fstFiles registrations reserved = some entries) :
    ReadsRight entries ↔ Distinguished fstFiles registrations := by
  obtain ⟨ends, words, ho, hfiles⟩ := publishEntries_spec h
  rw [readsRight_iff, separate_iff hfiles]
  exact ⟨distinguished_of_apart ho, fun hd i r hr hsize => apart_of_distinguished ho hd hr hsize⟩

/-- a replaced file that is longer than its place, and a new one behind it -/
theorem reads_right_replaced :
    ∃ entries, publishEntries [⟨64, 10, [0x61]⟩] [⟨[0x61], [0x78], 100⟩, ⟨[0x62], [0x79], 5⟩] 4096 =
        some entries ∧
      (ReadsRight entries ↔
        Distinguished [⟨64, 10, [0x61]⟩] [⟨[0x61], [0x78], 100⟩, ⟨[0x62], [0x79], 5⟩]) := by
  have hsome : (publishEntries [⟨64, 10, [0x61]⟩] [⟨[0x61], [0x78], 100⟩, ⟨[0x62], [0x79], 5⟩]
    4096).isSome = true := by decide +kernel
  obtain ⟨entries, h⟩ := Option.isSome_iff_exists.mp hsome
  exact ⟨entries, h, reads_right_iff h⟩

/-- **An empty file hides a new one.**  The disc ends with an empty file, at a multiple of 32; the new
file is published where the empty one is, and its reads are fatal. -/
theorem empty_file_hides :
    ∃ entries, publishEntries [⟨64, 0, [0x62]⟩] [⟨[0x62], [0x78], 0⟩, ⟨[0x61], [0x79], 5⟩] 4096 =
        some entries ∧
      (⟨[0x79], [kSlash, 0x61], 5, 16, false⟩ : DVDFileEntry) ∈ entries ∧
      SortedExtents entries (fileExtents entries) ∧
      ResolveFileRead (fun _ _ => true) entries (fileExtents entries) (some 16) 0 0 5 0 =
        .error .outsideFile ∧
      ¬ReadsRight entries := by
  have hpublish : publishEntries [⟨64, 0, [0x62]⟩] [⟨[0x62], [0x78], 0⟩, ⟨[0x61], [0x79], 5⟩] 4096 =
      some [⟨[], [kSlash], 0, 0, true⟩, ⟨[0x79], [kSlash, 0x61], 5, 16, false⟩,
        ⟨[0x78], [kSlash, 0x62], 0, 16, false⟩] := by
    decide +kernel
  refine ⟨_, hpublish, by decide, ⟨List.Perm.refl _, by decide⟩, by decide, fun h => ?_⟩
  obtain ⟨-, hsame⟩ := readsRight_iff.mp h ⟨[0x79], [kSlash, 0x61], 5, 16, false⟩ (by decide) rfl
    (by decide)
  obtain ⟨hhost, -⟩ := hsame ⟨[0x78], [kSlash, 0x62], 0, 16, false⟩ (by decide) rfl rfl
  exact absurd hhost (by decide)

end DolTranslator.Dvd
