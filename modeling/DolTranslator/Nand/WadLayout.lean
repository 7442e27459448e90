import DolTranslator.Nand.Installs

/-!
# Where the sections of a wad are

`Wad.Parse` again, with the sections that an install does not use.

* `ParseLayout`   all the sections;
* `layout`   the contents back to back, in numbers that do not wrap;
* `Bounded`   every section is in the file, and so is every copy of an install;
* `Fits`   the contents, padded, end in the file; `bounded_iff`   then and only then.
-/

namespace DolTranslator.Nand

open Disc Streams

inductive WadKind where
  | Installable | Boot2
  deriving DecidableEq

structure WadLayout where
  kind : WadKind
  certs : WadSection
  crl : WadSection
  wad : Wad
  footer : WadSection
  deriving DecidableEq

namespace Wad

def kTypeInstallable : Nat := 0x4973
def kTypeBoot2 : Nat := 0x6962

/-- `Wad::Parse` -/
def ParseLayout (file : Bytes) : Option WadLayout :=
  if file.length < kHeaderSize ∨ read32 file 0 ≠ kHeaderSize then none
  else
    let type := read16 file 0x04
    if type ≠ kTypeInstallable ∧ type ≠ kTypeBoot2 then none
    else
      let certs_size := read32 file 0x08
      let crl_size := read32 file 0x0C
      let ticket_size := read32 file 0x10
      let tmd_size := read32 file 0x14
      let data_size := read32 file 0x18
      let footer_size := read32 file 0x1C
      let certs := Align kHeaderSize
      let crl := Align (certs + certs_size)
      let (ticket_section, tmd_section, offset) :=
        blobs file (Align (crl + crl_size)) ticket_size tmd_size
      if offset > file.length ∨ ticket_section.offset + ticket_section.size > file.length ∨
          tmd_section.offset + tmd_section.size > file.length then none
      else
        match Ticket.Parse (slice file ticket_section.offset ticket_section.size),
          Tmd.Parse (slice file tmd_section.offset tmd_section.size) with
        | some ticket, some tmd =>
          match takeContents file tmd.contents offset with
          | none => none
          | some (contents, offset') =>
            if data_size ≠ 0 ∧ (offset' + (2 ^ 64 - offset)) % 2 ^ 64 > Align data_size then none
            else some {
              kind := if type = kTypeBoot2 then .Boot2 else .Installable
              certs := ⟨certs, certs_size⟩
              crl := ⟨crl, crl_size⟩
              wad := ⟨ticket, tmd, contents⟩
              footer :=
                if (offset' + footer_size) % 2 ^ 64 > file.length then ⟨offset', 0⟩
                else ⟨offset', footer_size⟩ }
        | _, _ => none

def blobsOf (file : Bytes) : WadSection × WadSection × Nat :=
  blobs file (Align (Align (Align kHeaderSize + read32 file 0x08) + read32 file 0x0C))
    (read32 file 0x10) (read32 file 0x14)

/-- what parses has passed every check -/
structure Parsed (file : Bytes) (l : WadLayout) (offset' : Nat) : Prop where
  certs : l.certs = ⟨Align kHeaderSize, read32 file 0x08⟩
  crl : l.crl = ⟨Align (Align kHeaderSize + read32 file 0x08), read32 file 0x0C⟩
  room : (blobsOf file).2.2 ≤ file.length
  ticketRoom : (blobsOf file).1.offset + (blobsOf file).1.size ≤ file.length
  tmdRoom : (blobsOf file).2.1.offset + (blobsOf file).2.1.size ≤ file.length
  contents : takeContents file l.wad.tmd.contents (blobsOf file).2.2 = some (l.wad.contents, offset')
  footer : l.footer = if (offset' + read32 file 0x1C) % 2 ^ 64 > file.length then ⟨offset', 0⟩
    else ⟨offset', read32 file 0x1C⟩

theorem ParseLayout_spec {file : Bytes} {l : WadLayout} (h : ParseLayout file = some l) :
    ∃ offset', Parsed file l offset' := by
  unfold ParseLayout at h
  split at h
  · cases h
  · extract_lets type certs_size crl_size ticket_size tmd_size data_size footer_size certs crl at h
    split at h
    · cases h
    · rcases hblobs : blobs file (Align (crl + crl_size)) ticket_size tmd_size with
        ⟨ticket_section, tmd_section, offset⟩
      have hblobsOf : blobsOf file = (ticket_section, tmd_section, offset) := hblobs
      rw [hblobs] at h
      dsimp only at h
      split at h
      · cases h
      · next hroom =>
        push Not at hroom
        split at h
        · split at h
          · cases h
          · next contents offset' hcontents =>
            split at h
            · cases h
            · cases h
              refine ⟨offset', rfl, rfl, ?_, ?_, ?_, ?_, rfl⟩ <;> rw [hblobsOf]
              · exact hroom.1
              · exact hroom.2.1
              · exact hroom.2.2
              · exact hcontents
        · cases h

/-! ## the contents, in numbers that do not wrap -/

/-- up to a multiple of 64 -/
def roundUp (value : Nat) : Nat := (value + 63) / 64 * 64

theorem Align_eq {value : Nat} (h : value + 63 < 2 ^ 64) : Align value = roundUp value := by
  unfold Align roundUp
  rw [Nat.mod_eq_of_lt h]

theorem le_roundUp (value : Nat) : value ≤ roundUp value := by
  unfold roundUp
  omega

theorem roundUp_lt (value : Nat) : roundUp value < value + 64 := by
  unfold roundUp
  omega

theorem roundUp_dvd (value : Nat) : 64 ∣ roundUp value := ⟨(value + 63) / 64, by unfold roundUp; omega⟩

variable {offset : Nat}

theorem roundUp_add (h : 64 ∣ offset) (value : Nat) :
    roundUp (offset + value) = offset + roundUp value := by
  obtain ⟨k, rfl⟩ := h
  unfold roundUp
  omega

def padded (contents : List ContentRecord) : Nat :=
  (contents.map fun content => roundUp content.EncryptedSize).sum

variable {contents : List ContentRecord}

theorem size_le_padded {content : ContentRecord}
    (h : content ∈ contents) : content.EncryptedSize ≤ padded contents := by
  induction contents with
  | nil => cases h
  | cons first contents ih =>
    unfold padded at ih ⊢
    rw [List.map_cons, List.sum_cons]
    rcases List.mem_cons.mp h with rfl | h
    · exact (le_roundUp _).trans (Nat.le_add_right _ _)
    · exact (ih h).trans (Nat.le_add_left _ _)

def layout : List ContentRecord → Nat → List WadSection
  | [], _ => []
  | content :: contents, offset =>
    ⟨offset, content.EncryptedSize⟩ :: layout contents (offset + roundUp content.EncryptedSize)

theorem takeContents_eq {file : Bytes} {offset' : Nat}
    {sections : List WadSection} (hfile : file.length < 2 ^ 63) (hoffset : offset < file.length + 64)
    (hdvd : 64 ∣ offset) (hsizes : ∀ content ∈ contents, content.EncryptedSize ≤ file.length)
    (h : takeContents file contents offset = some (sections, offset')) :
    sections = layout contents offset ∧ offset' = offset + padded contents := by
  induction contents generalizing offset sections with
  | nil =>
    cases h
    exact ⟨rfl, rfl⟩
  | cons content contents ih =>
    have hsize := hsizes content List.mem_cons_self
    unfold takeContents at h
    split at h
    · cases h
    · next hroom =>
      rw [Nat.mod_eq_of_lt (by omega)] at hroom
      have hnext : Align (offset + content.EncryptedSize) =
          offset + roundUp content.EncryptedSize := by
        rw [Align_eq (by omega), roundUp_add hdvd]
      rw [hnext] at h
      have hlt := roundUp_lt content.EncryptedSize
      split at h
      · cases h
      · next sections' offset'' hrest =>
        cases h
        obtain ⟨hsections, hend⟩ := ih (by omega) (Nat.dvd_add hdvd (roundUp_dvd _))
          (fun c hc => hsizes c (List.mem_cons_of_mem _ hc)) hrest
        refine ⟨by rw [hsections]; rfl, ?_⟩
        rw [hend]
        unfold padded
        rw [List.map_cons, List.sum_cons]
        omega

theorem layout_inside :
    ∀ s ∈ layout contents offset, s.offset + s.size ≤ offset + padded contents := by
  induction contents generalizing offset with
  | nil => intro s hs; cases hs
  | cons content contents ih =>
    intro s hs
    have hround := le_roundUp content.EncryptedSize
    unfold padded
    rw [List.map_cons, List.sum_cons]
    rcases List.mem_cons.mp hs with rfl | hs
    · dsimp only
      omega
    · have hrest := ih s hs
      unfold padded at hrest
      omega

theorem layout_apart :
    (layout contents offset).IsChain fun s s' => s.offset + s.size ≤ s'.offset := by
  induction contents generalizing offset with
  | nil => exact .nil
  | cons content contents ih =>
    have hround := le_roundUp content.EncryptedSize
    cases contents with
    | nil => exact .singleton _
    | cons next contents =>
      refine .cons_cons ?_ ih
      dsimp only
      omega

theorem layout_copy {content : ContentRecord}
    {s : WadSection} (hmem : content ∈ contents)
    (hs : ((contents.zip (layout contents offset)).find? (·.1.index = content.index)).map (·.2) =
      some s) : s.offset + content.EncryptedSize ≤ offset + padded contents := by
  induction contents generalizing offset with
  | nil => cases hmem
  | cons first contents ih =>
    have hsize := size_le_padded hmem
    rw [layout, List.zip_cons_cons, List.find?_cons] at hs
    split at hs
    · cases hs
      dsimp only
      omega
    · next hne =>
      have hmem' : content ∈ contents := by
        rcases List.mem_cons.mp hmem with rfl | hmem
        · simp at hne
        · exact hmem
      have hrest := ih hmem' hs
      unfold padded at hrest ⊢
      rw [List.map_cons, List.sum_cons]
      omega

/-! ## every extent -/

/-- in the file -/
def Inside (file : Bytes) (s : WadSection) : Prop := s.offset + s.size ≤ file.length

/-- every section is in the file, and what an install copies is as well -/
structure Bounded (file : Bytes) (l : WadLayout) : Prop where
  certs : Inside file l.certs
  crl : Inside file l.crl
  footer : Inside file l.footer
  content : ∀ index, ∀ s ∈ l.wad.Content index, Inside file s
  apart : l.wad.contents.IsChain fun s s' => s.offset + s.size ≤ s'.offset
  copy : ∀ content ∈ l.wad.tmd.contents, ∀ s ∈ l.wad.Content content.index,
    s.offset + content.EncryptedSize ≤ file.length

/-- the contents, each padded to 64 bytes, end in the file -/
def Fits (file : Bytes) (l : WadLayout) : Prop :=
  (blobsOf file).2.2 + padded l.wad.tmd.contents ≤ file.length

theorem Align_dvd (value : Nat) : 64 ∣ Align value := ⟨(value + 63) % 2 ^ 64 / 64, by unfold Align; omega⟩

theorem blobs_spec (file : Bytes) {start ticket tmd : Nat} (hstart : start < 2 ^ 40)
    (hticket : ticket < 2 ^ 32) (htmd : tmd < 2 ^ 32) :
    64 ∣ (blobs file start ticket tmd).2.2 ∧ start ≤ (blobs file start ticket tmd).2.2 := by
  have hafter : ∀ a b, a < 2 ^ 32 → b < 2 ^ 32 → start ≤ Align (Align (start + a) + b) := by
    intro a b ha hb
    have b3 := le_roundUp (start + a)
    have t3 := roundUp_lt (start + a)
    rw [Align_eq (show start + a + 63 < 2 ^ 64 by omega), Align_eq (by omega)]
    have b4 := le_roundUp (roundUp (start + a) + b)
    omega
  unfold blobs
  dsimp only
  split
  · exact ⟨Align_dvd _, hafter tmd ticket htmd hticket⟩
  · exact ⟨Align_dvd _, hafter ticket tmd hticket htmd⟩

theorem blobsOf_spec (file : Bytes) : 64 ∣ (blobsOf file).2.2 ∧
    Align (Align kHeaderSize + read32 file 0x08) + read32 file 0x0C ≤ (blobsOf file).2.2 ∧
      Align kHeaderSize + read32 file 0x08 ≤ (blobsOf file).2.2 := by
  have hcerts := read32_lt file 0x08
  have hcrl := read32_lt file 0x0C
  have hheader : Align kHeaderSize = 64 := rfl
  have h1 : Align (64 + read32 file 0x08) = roundUp (64 + read32 file 0x08) := Align_eq (by omega)
  have b1 := le_roundUp (64 + read32 file 0x08)
  have t1 := roundUp_lt (64 + read32 file 0x08)
  have h2 : Align (roundUp (64 + read32 file 0x08) + read32 file 0x0C) =
      roundUp (roundUp (64 + read32 file 0x08) + read32 file 0x0C) := Align_eq (by omega)
  have b2 := le_roundUp (roundUp (64 + read32 file 0x08) + read32 file 0x0C)
  have t2 := roundUp_lt (roundUp (64 + read32 file 0x08) + read32 file 0x0C)
  unfold blobsOf
  rw [hheader, h1, h2]
  obtain ⟨hdvd, hle⟩ := blobs_spec file (show roundUp (roundUp (64 + read32 file 0x08) +
    read32 file 0x0C) < 2 ^ 40 by omega) (read32_lt file 0x10) (read32_lt file 0x14)
  exact ⟨hdvd, le_trans b2 hle, le_trans (by omega) hle⟩

/-- **Every extent of a wad that parses is in the file** just when its contents, padded, end there. -/
theorem bounded_iff {file : Bytes} {l : WadLayout} (hfile : file.length < 2 ^ 63)
    (hparse : ParseLayout file = some l) : Bounded file l ↔ Fits file l := by
  obtain ⟨offset', h⟩ := ParseLayout_spec hparse
  obtain ⟨hdvd, hcrl, hcerts⟩ := blobsOf_spec file
  have hroom := h.room
  have heq (hsizes : ∀ content ∈ l.wad.tmd.contents, content.EncryptedSize ≤ file.length) :=
    takeContents_eq hfile (by omega) hdvd hsizes h.contents
  have hfooter := h.footer
  have hlen := length_takeContents h.contents
  refine ⟨fun hb => ?_, fun hfits => ?_⟩
  · -- a record of every size has a place, and its copy stays in the file
    have hsizes : ∀ content ∈ l.wad.tmd.contents, content.EncryptedSize ≤ file.length := by
      intro content hmem
      obtain ⟨s, hs⟩ := Option.isSome_iff_exists.mp (isSome_Content hlen hmem)
      have hcopy := hb.copy content hmem s hs
      omega
    have hend := (heq hsizes).2
    have hinside : l.footer.offset + l.footer.size ≤ file.length := hb.footer
    rw [hfooter] at hinside
    unfold Fits
    rw [← hend]
    split at hinside
    · exact hinside
    · dsimp only at hinside
      omega
  · have hsizes : ∀ content ∈ l.wad.tmd.contents, content.EncryptedSize ≤ file.length := by
      intro content hmem
      have hone := size_le_padded hmem
      unfold Fits at hfits
      omega
    obtain ⟨hsections, hend⟩ := heq hsizes
    unfold Fits at hfits
    have hread := read32_lt file 0x1C
    refine ⟨?_, ?_, ?_, fun index s hs => ?_, ?_, fun content hmem s hs => ?_⟩
    · rw [h.certs]
      exact hcerts.trans hroom
    · rw [h.crl]
      exact hcrl.trans hroom
    · unfold Inside
      rw [hfooter]
      split
      · dsimp only
        omega
      · next hfoot =>
        rw [Nat.mod_eq_of_lt (by omega)] at hfoot
        dsimp only
        omega
    · unfold Content at hs
      obtain ⟨pair, hpair, rfl⟩ := Option.map_eq_some_iff.mp hs
      have hmem := List.mem_of_find?_eq_some hpair
      rw [hsections] at hmem
      have hin := layout_inside pair.2 (List.of_mem_zip hmem).2
      unfold Inside
      omega
    · rw [hsections]
      exact layout_apart
    · unfold Content at hs
      rw [hsections] at hs
      have hcopy := layout_copy hmem hs
      omega

instance (file : Bytes) (l : WadLayout) : Decidable (Fits file l) :=
  inferInstanceAs (Decidable (_ ≤ _))

/-- a wad of one content, with a ticket and a TMD that are signed in the shortest way; the size of
the content, and the content -/
def oneContent (size content : Bytes) : Bytes :=
  [0, 0, 0, 0x20] ++ [0x49, 0x73, 0, 0] ++ List.replicate 8 0 ++ [0, 0, 0x01, 0xE0] ++
    [0, 0, 0x01, 0x44] ++ List.replicate 40 0 ++
    ([0, 1, 0, 2] ++ List.replicate 0x1DC 0 ++ List.replicate 0x20 0) ++
    ([0, 1, 0, 2] ++ List.replicate 0x116 0 ++ [0, 1] ++ List.replicate 12 0 ++ size ++
      List.replicate 20 0 ++ List.replicate 0x3C 0) ++ content

theorem bounded_iff_oneContent :
    ∃ l, ParseLayout (oneContent [0, 0, 0, 0, 0, 0, 0, 9] (List.replicate 64 7)) = some l ∧
      Bounded (oneContent [0, 0, 0, 0, 0, 0, 0, 9] (List.replicate 64 7)) l := by
  have hany : (ParseLayout (oneContent [0, 0, 0, 0, 0, 0, 0, 9] (List.replicate 64 7))).any
      (fun l => Fits (oneContent [0, 0, 0, 0, 0, 0, 0, 9] (List.replicate 64 7)) l) = true := by
    decide +kernel
  obtain ⟨l, hl, hfits⟩ := (Option.any_eq_true _ _).mp hany
  exact ⟨l, hl, (bounded_iff (by decide +kernel) hl).mpr (of_decide_eq_true hfits)⟩

def wrappedSize : Bytes := [0xFF, 0xFF, 0xFF, 0xFF, 0xFF, 0xFF, 0xFF, 0xF0]

theorem wrappedSize_unbounded :
    ∃ l, ParseLayout (oneContent wrappedSize []) = some l ∧
      l.wad.contents = [⟨0x3C0, 2 ^ 64 - 16⟩] ∧ ¬Bounded (oneContent wrappedSize []) l := by
  have hany : (ParseLayout (oneContent wrappedSize [])).any
      (fun l => decide (l.wad.contents = [⟨0x3C0, 2 ^ 64 - 16⟩]) &&
        decide (l.wad.Content 0 = some ⟨0x3C0, 2 ^ 64 - 16⟩)) = true := by decide +kernel
  obtain ⟨l, hl, hboth⟩ := (Option.any_eq_true _ _).mp hany
  rw [Bool.and_eq_true, decide_eq_true_eq, decide_eq_true_eq] at hboth
  refine ⟨l, hl, hboth.1, fun h => ?_⟩
  have hinside : 0x3C0 + (2 ^ 64 - 16) ≤ (oneContent wrappedSize []).length :=
    h.content 0 _ hboth.2
  have hlength : (oneContent wrappedSize []).length = 0x3C0 := by decide +kernel
  omega

end Wad

end DolTranslator.Nand
