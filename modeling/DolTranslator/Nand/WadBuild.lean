import DolTranslator.Nand.WadLayout
import DolTranslator.Nand.SysconfReload

/-!
# A wad that was built is read back

* `Build`   the sections one after the other, each padded;
* `Build_eq`   the file as an append of padded parts;
* `looksLike_ticket`, `looksLike_tmd`   what the guess at the order of the blobs sees;
* `takeContents_of_room`   contents that end in the file are all found;
* `roundtrip_iff`   the file is read back, unless the size of the data is cut to 32 bits.
-/

namespace DolTranslator.Nand

open Disc Streams

namespace Wad

/-! ## building -/

def Pad (out : Bytes) : Bytes := resize out (Align out.length)

def addSection (out bytes : Bytes) : Bytes := Pad (out ++ bytes)

def typeOf : WadKind → Nat
  | .Boot2 => kTypeBoot2
  | .Installable => kTypeInstallable

def header (kind : WadKind) (certificates ticket tmd data_size footer : Nat) : Bytes :=
  word32 kHeaderSize ++ word16 (typeOf kind) ++ [0, 0] ++ word32 certificates ++ word32 0 ++
    word32 ticket ++ word32 tmd ++ word32 (data_size % 2 ^ 32) ++ word32 footer

/-- `Wad::Build` -/
def Build (kind : WadKind) (certificates ticket tmd : Bytes) (contents : List Bytes)
    (footer : Bytes) : Bytes :=
  let data_size := contents.foldl (fun size content => (size + Align content.length) % 2 ^ 64) 0
  let out := Pad (header kind certificates.length ticket.length tmd.length data_size footer.length)
  let out := addSection out certificates
  let out :=
    match kind with
    | .Boot2 => addSection (addSection out tmd) ticket
    | .Installable => addSection (addSection out ticket) tmd
  let out := contents.foldl addSection out
  if footer.isEmpty then out else addSection out footer

/-! ## the parts -/

/-- up to a boundary of 64 -/
def pad (bytes : Bytes) : Bytes :=
  bytes ++ List.replicate (roundUp bytes.length - bytes.length) 0

theorem length_pad (bytes : Bytes) : (pad bytes).length = roundUp bytes.length := by
  have hle := le_roundUp bytes.length
  unfold pad
  rw [List.length_append, List.length_replicate]
  omega

theorem resize_eq_append {bytes : Bytes} {n : Nat} (h : bytes.length ≤ n) :
    resize bytes n = bytes ++ List.replicate (n - bytes.length) 0 := by
  induction bytes generalizing n with
  | nil =>
    induction n with
    | zero => rfl
    | succ n ih =>
      show 0 :: resize [] n = _
      rw [ih (Nat.zero_le n)]
      rfl
  | cons b bytes ih =>
    cases n with
    | zero => cases h
    | succ n =>
      show b :: resize bytes n = _
      rw [ih (Nat.le_of_succ_le_succ h), List.length_cons, Nat.add_sub_add_right]
      rfl

/-- on a boundary, only the new bytes are padded -/
theorem addSection_eq {out bytes : Bytes} (hdvd : 64 ∣ out.length)
    (h : out.length + bytes.length + 63 < 2 ^ 64) : addSection out bytes = out ++ pad bytes := by
  have hle := le_roundUp bytes.length
  unfold addSection Pad pad
  rw [Align_eq (by rw [List.length_append]; exact h), List.length_append, roundUp_add hdvd,
    resize_eq_append (by rw [List.length_append]; omega), List.append_assoc, List.length_append,
    Nat.add_sub_add_left]

def paddedSize (contents : List Bytes) : Nat := (contents.map fun content => roundUp content.length).sum

theorem paddedSize_cons (content : Bytes) (contents : List Bytes) :
    paddedSize (content :: contents) = roundUp content.length + paddedSize contents :=
  List.sum_cons

theorem length_flatMap_pad (contents : List Bytes) :
    (contents.flatMap pad).length = paddedSize contents := by
  induction contents with
  | nil => rfl
  | cons content contents ih =>
    rw [List.flatMap_cons, List.length_append, length_pad, ih, paddedSize_cons]

theorem paddedSize_dvd (contents : List Bytes) : 64 ∣ paddedSize contents := by
  induction contents with
  | nil => exact Nat.dvd_zero 64
  | cons content contents ih =>
    rw [paddedSize_cons]
    exact Nat.dvd_add (roundUp_dvd _) ih

theorem foldl_addSection {contents : List Bytes} {out : Bytes} (hdvd : 64 ∣ out.length)
    (h : out.length + paddedSize contents + 63 < 2 ^ 64) :
    contents.foldl addSection out = out ++ contents.flatMap pad := by
  induction contents generalizing out with
  | nil => exact (List.append_nil out).symm
  | cons content contents ih =>
    have hle := le_roundUp content.length
    rw [paddedSize_cons] at h
    have hlength : (out ++ pad content).length = out.length + roundUp content.length := by
      rw [List.length_append, length_pad]
    rw [List.foldl_cons, addSection_eq hdvd (by omega),
      ih (by rw [hlength]; exact Nat.dvd_add hdvd (roundUp_dvd _)) (by rw [hlength]; omega),
      List.flatMap_cons, List.append_assoc]

theorem foldl_size (contents : List Bytes) (size : Nat)
    (h : size + paddedSize contents + 63 < 2 ^ 64) :
    contents.foldl (fun size content => (size + Align content.length) % 2 ^ 64) size =
      size + paddedSize contents := by
  induction contents generalizing size with
  | nil => rfl
  | cons content contents ih =>
    have hle := le_roundUp content.length
    rw [paddedSize_cons] at h ⊢
    rw [List.foldl_cons, Align_eq (by omega), Nat.mod_eq_of_lt (by omega), ih _ (by omega)]
    omega

/-! ## what is built of -/

structure Parts where
  kind : WadKind
  certificates : Bytes
  ticket : Bytes
  tmd : Bytes
  contents : List Bytes
  footer : Bytes

def tmdIssuer (data : Bytes) : List UInt8 :=
  match SignatureSize (read32 data 0) with
  | none => []
  | some signature => ReadIssuer data signature

/-- blobs that parse whole, by the two signers, and contents of the sizes of the TMD -/
structure Parts.Whole (p : Parts) (ticket : Ticket) (tmd : Tmd) : Prop where
  ticketParses : Ticket.Parse p.ticket = some ticket
  ticketRaw : ticket.raw = p.ticket
  ticketSigner : contains ticket.issuer (chars "-XS") = true
  tmdParses : Tmd.Parse p.tmd = some tmd
  tmdRaw : tmd.raw = p.tmd
  tmdSigner : contains (tmdIssuer p.tmd) (chars "-XS") = false
  sizes : p.contents.map List.length = tmd.contents.map ContentRecord.EncryptedSize
  certificatesSize : p.certificates.length < 2 ^ 31
  ticketSize : p.ticket.length < 2 ^ 31
  tmdSize : p.tmd.length < 2 ^ 31
  contentSize : ∀ content ∈ p.contents, content.length < 2 ^ 31
  footerSize : p.footer.length < 2 ^ 31

namespace Parts

variable (p : Parts)

def file : Bytes := Build p.kind p.certificates p.ticket p.tmd p.contents p.footer

def first : Bytes := match p.kind with | .Boot2 => p.tmd | .Installable => p.ticket

def second : Bytes := match p.kind with | .Boot2 => p.ticket | .Installable => p.tmd

def head : Bytes :=
  header p.kind p.certificates.length p.ticket.length p.tmd.length (paddedSize p.contents)
    p.footer.length ++ List.replicate 32 0

def before : Bytes := p.head ++ pad p.certificates

def blobsEnd : Bytes := p.before ++ pad p.first ++ pad p.second

end Parts

theorem length_header (kind : WadKind) (a b c d e : Nat) : (header kind a b c d e).length = 32 := rfl

variable {p : Parts} {ticket : Ticket} {tmd : Tmd}

theorem length_head : p.head.length = 64 := by
  unfold Parts.head
  rw [List.length_append, length_header, List.length_replicate]

theorem length_before : p.before.length = 64 + roundUp p.certificates.length := by
  unfold Parts.before
  rw [List.length_append, length_head, length_pad]

theorem length_blobsEnd : p.blobsEnd.length =
    64 + roundUp p.certificates.length + roundUp p.first.length + roundUp p.second.length := by
  unfold Parts.blobsEnd
  rw [List.length_append, List.length_append, length_before, length_pad, length_pad]

theorem before_dvd : 64 ∣ p.before.length := by
  rw [length_before]
  exact Nat.dvd_add (Nat.dvd_refl 64) (roundUp_dvd _)

theorem blobsEnd_dvd : 64 ∣ p.blobsEnd.length := by
  rw [length_blobsEnd]
  have h1 := roundUp_dvd p.certificates.length
  have h2 := roundUp_dvd p.first.length
  have h3 := roundUp_dvd p.second.length
  omega

theorem first_lt (h : p.Whole ticket tmd) : p.first.length < 2 ^ 31 ∧ p.second.length < 2 ^ 31 := by
  unfold Parts.first Parts.second
  cases p.kind with
  | Boot2 => exact ⟨h.tmdSize, h.ticketSize⟩
  | Installable => exact ⟨h.ticketSize, h.tmdSize⟩

theorem length_contents {data : Bytes} (h : Tmd.Parse data = some tmd) :
    tmd.contents.length < 2 ^ 16 := by
  unfold Tmd.Parse at h
  split at h
  · cases h
  · split at h
    · cases h
    · next signature _ =>
      dsimp only at h
      split at h
      · cases h
      · split at h
        · cases h
        · cases h
          have h1 : byteAt data (signature + 0x9E) < 2 ^ 8 := UInt8.toNat_lt _
          have h2 : byteAt data (signature + 0x9E + 1) < 2 ^ 8 := UInt8.toNat_lt _
          rw [List.length_map, List.length_range]
          unfold read16
          omega

theorem paddedSize_le {contents : List Bytes} (h : ∀ content ∈ contents, content.length < 2 ^ 31) :
    paddedSize contents ≤ contents.length * 2 ^ 31 := by
  induction contents with
  | nil => exact Nat.le_refl 0
  | cons content contents ih =>
    have hrest := ih fun c hc => h c (List.mem_cons_of_mem _ hc)
    have hthis := h content List.mem_cons_self
    have hround : roundUp content.length ≤ 2 ^ 31 := by
      unfold roundUp
      omega
    rw [paddedSize_cons, List.length_cons]
    omega

theorem paddedSize_lt (h : p.Whole ticket tmd) : paddedSize p.contents < 2 ^ 47 := by
  have hle := paddedSize_le h.contentSize
  have hcount := length_contents h.tmdParses
  have hlength : p.contents.length = tmd.contents.length := by
    have hlengths := congrArg List.length h.sizes
    rwa [List.length_map, List.length_map] at hlengths
  omega

/-- **A built file** is its padded parts in order. -/
theorem Build_eq (h : p.Whole ticket tmd) :
    p.file = p.blobsEnd ++ p.contents.flatMap pad ++ pad p.footer := by
  have hpadded := paddedSize_lt h
  have hcerts := h.certificatesSize
  have hroundCerts := roundUp_lt p.certificates.length
  obtain ⟨hfirst, hsecond⟩ := first_lt h
  have hroundFirst := roundUp_lt p.first.length
  have hroundSecond := roundUp_lt p.second.length
  have hfooter := h.footerSize
  have hbefore := length_before (p := p)
  have hblobs := length_blobsEnd (p := p)
  have hsize := foldl_size p.contents 0 (by omega)
  have hhead : Pad (header p.kind p.certificates.length p.ticket.length p.tmd.length
      (paddedSize p.contents) p.footer.length) = p.head := by
    unfold Pad
    rw [length_header, resize_eq_append (by rw [length_header]; decide)]
    rfl
  have hcertificates : addSection p.head p.certificates = p.before :=
    addSection_eq ⟨1, length_head⟩ (by rw [length_head]; omega)
  have hfirstLength : (p.before ++ pad p.first).length =
      p.before.length + roundUp p.first.length := by
    rw [List.length_append, length_pad]
  have hblobsEnd : addSection (addSection p.before p.first) p.second = p.blobsEnd := by
    rw [addSection_eq before_dvd (by omega), addSection_eq
      (by rw [hfirstLength]; exact Nat.dvd_add before_dvd (roundUp_dvd _)) (by omega)]
    rfl
  have hkind : (match p.kind with
      | .Boot2 => addSection (addSection p.before p.tmd) p.ticket
      | .Installable => addSection (addSection p.before p.ticket) p.tmd) = p.blobsEnd := by
    rw [← hblobsEnd]
    unfold Parts.first Parts.second
    cases p.kind <;> rfl
  have hcontents : p.contents.foldl addSection p.blobsEnd = p.blobsEnd ++ p.contents.flatMap pad :=
    foldl_addSection blobsEnd_dvd (by omega)
  unfold Parts.file Build
  dsimp only
  rw [hsize, Nat.zero_add, hhead, hcertificates, hkind, hcontents]
  split
  · next hempty =>
    rw [List.isEmpty_iff.mp hempty]
    exact (List.append_nil _).symm
  · have hlength : (p.blobsEnd ++ p.contents.flatMap pad).length =
        p.blobsEnd.length + paddedSize p.contents := by
      rw [List.length_append, length_flatMap_pad]
    exact addSection_eq (by rw [hlength]; exact Nat.dvd_add blobsEnd_dvd (paddedSize_dvd _))
      (by rw [hlength]; omega)

section Header

theorem Build_head (h : p.Whole ticket tmd) : ∃ rest, p.file = header p.kind p.certificates.length
    p.ticket.length p.tmd.length (paddedSize p.contents) p.footer.length ++ rest := by
  rw [Build_eq h]
  unfold Parts.blobsEnd Parts.before Parts.head
  rw [List.append_assoc, List.append_assoc, List.append_assoc, List.append_assoc, List.append_assoc]
  exact ⟨_, rfl⟩

theorem read32_header {bytes : Bytes} {kind : WadKind} {a b c d e i n : Nat} (rest : Bytes)
    (hbytes : bytes = header kind a b c d e ++ rest) (hi : i + 4 ≤ 32) (hn : n < 2 ^ 32)
    (h : slice (header kind a b c d e) i 4 = word32 n) : read32 bytes i = n := by
  apply read32_word32 hn
  rw [hbytes, slice_append_left (by rw [length_header]; exact hi), h]

theorem header_reads (h : p.Whole ticket tmd) :
    read32 p.file 0 = kHeaderSize ∧ read16 p.file 4 = typeOf p.kind ∧
      read32 p.file 0x08 = p.certificates.length ∧ read32 p.file 0x0C = 0 ∧
      read32 p.file 0x10 = p.ticket.length ∧ read32 p.file 0x14 = p.tmd.length ∧
      read32 p.file 0x18 = paddedSize p.contents % 2 ^ 32 ∧ read32 p.file 0x1C = p.footer.length := by
  obtain ⟨rest, hrest⟩ := Build_head h
  have hcertificates := h.certificatesSize
  have hticket := h.ticketSize
  have htmd := h.tmdSize
  have hfooter := h.footerSize
  have hdata : paddedSize p.contents % 2 ^ 32 < 2 ^ 32 := Nat.mod_lt _ (by decide)
  refine ⟨?_, ?_, ?_, ?_, ?_, ?_, ?_, ?_⟩
  · exact read32_header rest hrest (by decide) (by decide) rfl
  · apply Sysconf.read16_word16
    · cases p.kind <;> decide
    · rw [hrest, slice_append_left (by rw [length_header]; decide)]
      rfl
  · exact read32_header rest hrest (by decide) (by omega) rfl
  · exact read32_header rest hrest (by decide) (by decide) rfl
  · exact read32_header rest hrest (by decide) (by omega) rfl
  · exact read32_header rest hrest (by decide) (by omega) rfl
  · exact read32_header rest hrest (by decide) hdata rfl
  · exact read32_header rest hrest (by decide) (by omega) rfl

end Header

/-! ## the order of the blobs -/

theorem Ticket_spec {data : Bytes} (h : Ticket.Parse data = some ticket) :
    ∃ signature, 4 ≤ data.length ∧ SignatureSize (read32 data 0) = some signature ∧
      signature + Ticket.kBodySize ≤ data.length ∧ ticket.issuer = ReadIssuer data signature := by
  unfold Ticket.Parse at h
  split at h
  · cases h
  · next hlen =>
    split at h
    · cases h
    · next signature hsignature =>
      split at h
      · cases h
      · next hroom =>
        cases h
        exact ⟨signature, by omega, hsignature, by omega, rfl⟩

theorem Tmd_room {data : Bytes} (h : Tmd.Parse data = some tmd) :
    ∃ signature, 4 ≤ data.length ∧ SignatureSize (read32 data 0) = some signature ∧
      signature + Tmd.kTmdContents ≤ data.length := by
  unfold Tmd.Parse at h
  split at h
  · cases h
  · next hlen =>
    split at h
    · cases h
    · next signature hsignature =>
      dsimp only at h
      split at h
      · cases h
      · next hroom => exact ⟨signature, by omega, hsignature, by omega⟩

theorem slice_at {x y z : Bytes} {n : Nat} (h : n = y.length) :
    slice (x ++ (y ++ z)) x.length n = y := by
  rw [h, ← List.append_assoc]
  exact slice_middle x y z

theorem looksLike_ticket (h : p.Whole ticket tmd) {pre rest : Bytes} :
    LooksLikeTicket (pre ++ (p.ticket ++ rest)) pre.length p.ticket.length = true := by
  unfold LooksLikeTicket
  rw [if_neg (by rw [List.length_append, List.length_append]; omega), slice_at rfl, h.ticketParses]
  exact h.ticketSigner

/-- at a TMD, the issuer that is read is that of the TMD, however much is taken for the ticket -/
theorem looksLike_tmd (h : p.Whole ticket tmd) {pre rest : Bytes} {n : Nat} :
    LooksLikeTicket (pre ++ (p.tmd ++ rest)) pre.length n = false := by
  unfold LooksLikeTicket
  split
  · rfl
  · split
    · rfl
    · next found hfound =>
      obtain ⟨signature, hlen, hsignature, hroom, hissuer⟩ := Ticket_spec hfound
      obtain ⟨signature', hlen', hsignature', hroom'⟩ := Tmd_room h.tmdParses
      have hbody : Ticket.kBodySize = 0x164 := rfl
      have hrecords : Tmd.kTmdContents = 0xA4 := rfl
      have hn : signature + 0x164 ≤ n := by
        have hle : (slice (pre ++ (p.tmd ++ rest)) pre.length n).length ≤ n := by
          unfold slice
          exact List.length_take_le _ _
        omega
      have htake : slice (pre ++ (p.tmd ++ rest)) pre.length n = (p.tmd ++ rest).take n := by
        unfold slice
        rw [List.drop_left]
      have htmd : (p.tmd ++ rest).take p.tmd.length = p.tmd := List.take_left
      have hread : read32 ((p.tmd ++ rest).take n) 0 = read32 p.tmd 0 := by
        conv_rhs => rw [← htmd]
        rw [read32_take (by omega), read32_take (by omega)]
      rw [htake, hread] at hsignature
      rw [htake] at hissuer
      obtain rfl := Option.some.inj (hsignature.symm.trans hsignature')
      have hread' : ReadIssuer ((p.tmd ++ rest).take n) signature = ReadIssuer p.tmd signature := by
        unfold ReadIssuer
        conv_rhs => rw [← htmd]
        rw [slice_take (by omega), slice_take (by omega)]
      have hsame : found.issuer = tmdIssuer p.tmd := by
        have hissuerOf : tmdIssuer = fun data => match SignatureSize (read32 data 0) with
          | none => []
          | some signature => ReadIssuer data signature := rfl
        rw [hissuer, hread', hissuerOf]
        beta_reduce
        rw [hsignature']
      rw [hsame]
      exact h.tmdSigner

theorem blobs_eq (h : p.Whole ticket tmd) :
    ∃ s s', blobs p.file p.before.length p.ticket.length p.tmd.length =
        (s, s', p.blobsEnd.length) ∧
      (s.offset + s.size ≤ p.blobsEnd.length ∧ slice p.file s.offset s.size = p.ticket) ∧
      s'.offset + s'.size ≤ p.blobsEnd.length ∧ slice p.file s'.offset s'.size = p.tmd := by
  have hfile := Build_eq h
  have hbefore := length_before (p := p)
  have hblobsEnd := length_blobsEnd (p := p)
  have hcertificates := h.certificatesSize
  have hroundCerts := roundUp_lt p.certificates.length
  have hticketSize := h.ticketSize
  have htmdSize := h.tmdSize
  have hroundTicket := roundUp_lt p.ticket.length
  have hroundTmd := roundUp_lt p.tmd.length
  have hticketLe := le_roundUp p.ticket.length
  have htmdLe := le_roundUp p.tmd.length
  have hend {size : Nat} (hsize : size < 2 ^ 31) :
      Align (p.before.length + size) = p.before.length + roundUp size := by
    rw [Align_eq (by omega), roundUp_add before_dvd]
  have hend' {size size' : Nat} (hsize : size < 2 ^ 31) (hsize' : size' < 2 ^ 31) :
      Align (p.before.length + roundUp size + size') =
        p.before.length + roundUp size + roundUp size' := by
    have hround := roundUp_lt size
    rw [Align_eq (by omega), roundUp_add (Nat.dvd_add before_dvd (roundUp_dvd _))]
  unfold blobs
  dsimp only
  rw [hend hticketSize, hend htmdSize, hend' hticketSize htmdSize, hend' htmdSize hticketSize]
  unfold Parts.blobsEnd at hfile
  unfold Parts.first Parts.second at hfile hblobsEnd
  have hlength (bytes : Bytes) : (p.before ++ pad bytes).length =
      p.before.length + roundUp bytes.length := by
    rw [List.length_append, length_pad]
  -- a padded blob is the blob, then zeros
  have hpad {pre bytes rest : Bytes} : ∃ zeros, pre ++ pad bytes ++ rest =
      pre ++ (bytes ++ zeros) := ⟨_, by unfold pad; rw [List.append_assoc, List.append_assoc]⟩
  cases hkind : p.kind with
  | Installable =>
    rw [hkind] at hfile hblobsEnd
    dsimp only at hfile hblobsEnd
    obtain ⟨rest, hat⟩ : ∃ rest, p.file = p.before ++ (p.ticket ++ rest) := by
      rw [hfile, List.append_assoc, List.append_assoc]
      exact hpad
    obtain ⟨rest', hat'⟩ : ∃ rest, p.file = p.before ++ pad p.ticket ++ (p.tmd ++ rest) := by
      rw [hfile, List.append_assoc]
      exact hpad
    have hlooks : LooksLikeTicket p.file p.before.length p.ticket.length = true := by
      rw [hat]
      exact looksLike_ticket h
    rw [hlooks, Bool.not_true, Bool.false_and, if_neg Bool.false_ne_true]
    refine ⟨_, _, by rw [hblobsEnd, ← hbefore], ?_, ?_⟩
    · dsimp only
      exact ⟨by omega, by rw [hat, slice_at rfl]⟩
    · dsimp only
      refine ⟨by omega, ?_⟩
      rw [← hlength, hat', slice_at rfl]
  | Boot2 =>
    rw [hkind] at hfile hblobsEnd
    dsimp only at hfile hblobsEnd
    obtain ⟨rest, hat⟩ : ∃ rest, p.file = p.before ++ (p.tmd ++ rest) := by
      rw [hfile, List.append_assoc, List.append_assoc]
      exact hpad
    obtain ⟨rest', hat'⟩ : ∃ rest, p.file = p.before ++ pad p.tmd ++ (p.ticket ++ rest) := by
      rw [hfile, List.append_assoc]
      exact hpad
    have hlooks : LooksLikeTicket p.file p.before.length p.ticket.length = false := by
      rw [hat]
      exact looksLike_tmd h
    have hlooks' : LooksLikeTicket p.file (p.before.length + roundUp p.tmd.length) p.ticket.length =
        true := by
      rw [← hlength, hat']
      exact looksLike_ticket h
    rw [hlooks, hlooks', Bool.not_false, Bool.true_and, if_pos rfl]
    refine ⟨_, _, by rw [hblobsEnd, ← hbefore], ?_, ?_⟩
    · dsimp only
      refine ⟨by omega, ?_⟩
      rw [← hlength, hat', slice_at rfl]
    · dsimp only
      exact ⟨by omega, by rw [hat, slice_at rfl]⟩

theorem takeContents_of_room (file : Bytes) (records : List ContentRecord) {offset : Nat}
    (hfile : file.length < 2 ^ 63) (hdvd : 64 ∣ offset) (h : offset + padded records ≤ file.length) :
    takeContents file records offset = some (layout records offset, offset + padded records) := by
  induction records generalizing offset with
  | nil => rfl
  | cons content records ih =>
    have hle := le_roundUp content.EncryptedSize
    have hsum : padded (content :: records) =
        roundUp content.EncryptedSize + padded records := List.sum_cons
    rw [hsum] at h ⊢
    unfold takeContents
    rw [if_neg (by rw [Nat.mod_eq_of_lt (by omega)]; omega), Align_eq (by omega), roundUp_add hdvd,
      ih (Nat.dvd_add hdvd (roundUp_dvd _)) (by omega), Nat.add_assoc]
    rfl

theorem layout_slices {records : List ContentRecord} {contents : List Bytes} {pre post : Bytes}
    (h : contents.map List.length = records.map ContentRecord.EncryptedSize) :
    (layout records pre.length).map (fun s => slice (pre ++ contents.flatMap pad ++ post) s.offset
      s.size) = contents := by
  induction records generalizing contents pre with
  | nil =>
    rw [List.map_nil, List.map_eq_nil_iff] at h
    rw [h]
    rfl
  | cons record records ih =>
    cases contents with
    | nil => cases h
    | cons content contents =>
      rw [List.map_cons, List.map_cons, List.cons.injEq] at h
      have hbytes : pre ++ (content :: contents).flatMap pad ++ post =
          pre ++ pad content ++ contents.flatMap pad ++ post := by
        rw [List.flatMap_cons, ← List.append_assoc]
      have hnext : pre.length + roundUp record.EncryptedSize = (pre ++ pad content).length := by
        rw [List.length_append, length_pad, h.1]
      unfold layout
      rw [List.map_cons, hbytes, hnext, ih h.2]
      congr 1
      unfold pad
      rw [List.append_assoc, List.append_assoc, List.append_assoc]
      exact slice_at h.1.symm

theorem paddedSize_eq {records : List ContentRecord} {contents : List Bytes}
    (h : contents.map List.length = records.map ContentRecord.EncryptedSize) :
    padded records = paddedSize contents := by
  have hboth := congrArg (List.map roundUp) h
  rw [List.map_map, List.map_map] at hboth
  exact congrArg List.sum hboth.symm

/-! ## reading back -/

/-- the sections are the parts -/
structure Parts.Returned (p : Parts) (l : WadLayout) : Prop where
  kind : l.kind = p.kind
  certificates : slice p.file l.certs.offset l.certs.size = p.certificates
  ticket : Ticket.Parse p.ticket = some l.wad.ticket ∧ l.wad.ticket.raw = p.ticket
  tmd : Tmd.Parse p.tmd = some l.wad.tmd ∧ l.wad.tmd.raw = p.tmd
  contents : l.wad.contents.map (fun s => slice p.file s.offset s.size) = p.contents
  footer : slice p.file l.footer.offset l.footer.size = p.footer

/-- the size of the data is the same when it is cut to 32 bits, or is cut to zero -/
def Parts.DataFits (p : Parts) : Prop := paddedSize p.contents < 2 ^ 32 ∨ 2 ^ 32 ∣ paddedSize p.contents

instance (p : Parts) : Decidable p.DataFits := inferInstanceAs (Decidable (_ ∨ _))

theorem ParseLayout_Build (h : p.Whole ticket tmd) :
    (p.DataFits → ∃ l, ParseLayout p.file = some l ∧ p.Returned l) ∧
      (¬p.DataFits → ParseLayout p.file = none) := by
  obtain ⟨hsize, htype, hcerts, hcrl, hticket, htmd, hdata, hfooter⟩ := header_reads h
  obtain ⟨s, s', hblobs, ⟨hticketRoom, hticketBytes⟩, htmdRoom, htmdBytes⟩ := blobs_eq h
  have hfile := Build_eq h
  have hpadded := paddedSize_lt h
  have hcertificates := h.certificatesSize
  have hroundCerts := roundUp_lt p.certificates.length
  have hroundFooter := roundUp_lt p.footer.length
  have hfooterLe := le_roundUp p.footer.length
  have hfooterSize := h.footerSize
  obtain ⟨hfirst, hsecond⟩ := first_lt h
  have hroundFirst := roundUp_lt p.first.length
  have hroundSecond := roundUp_lt p.second.length
  have hbefore := length_before (p := p)
  have hblobsEnd := length_blobsEnd (p := p)
  have hlength : p.file.length = p.blobsEnd.length + paddedSize p.contents +
      roundUp p.footer.length := by
    rw [hfile, List.length_append, List.length_append, length_flatMap_pad, length_pad]
  have hsum := paddedSize_eq h.sizes
  have htake := takeContents_of_room p.file tmd.contents (by omega)
    (blobsEnd_dvd (p := p)) (by omega)
  have hstart : Align (Align (Align kHeaderSize + p.certificates.length) + 0) = p.before.length := by
    have hdvd : 64 ∣ 64 + roundUp p.certificates.length :=
      Nat.dvd_add (Nat.dvd_refl 64) (roundUp_dvd _)
    have hcertsEnd : Align (64 + p.certificates.length) = 64 + roundUp p.certificates.length := by
      rw [Align_eq (by omega), roundUp_add (Nat.dvd_refl 64)]
    show Align (Align (64 + p.certificates.length) + 0) = _
    rw [hcertsEnd, Align_eq (by omega), roundUp_add hdvd, hbefore]
    rfl
  have hinstallable : kTypeInstallable ≠ kTypeBoot2 := by decide
  have hknown : ¬(typeOf p.kind ≠ kTypeInstallable ∧ typeOf p.kind ≠ kTypeBoot2) := by
    cases p.kind with
    | Boot2 => exact fun hne => hne.2 rfl
    | Installable => exact fun hne => hne.1 rfl
  have hdata' : Align (paddedSize p.contents % 2 ^ 32) = paddedSize p.contents % 2 ^ 32 := by
    have hdvd := paddedSize_dvd p.contents
    rw [Align_eq (by omega)]
    unfold roundUp
    omega
  have hused : (p.blobsEnd.length + padded tmd.contents + (2 ^ 64 - p.blobsEnd.length)) % 2 ^ 64 =
      paddedSize p.contents := by
    rw [hsum]
    omega
  have hparse : ParseLayout p.file =
      if paddedSize p.contents % 2 ^ 32 ≠ 0 ∧
        paddedSize p.contents > paddedSize p.contents % 2 ^ 32 then none
      else some {
        kind := if typeOf p.kind = kTypeBoot2 then .Boot2 else .Installable
        certs := ⟨64, p.certificates.length⟩
        crl := ⟨64 + roundUp p.certificates.length, 0⟩
        wad := ⟨ticket, tmd, layout tmd.contents p.blobsEnd.length⟩
        footer := ⟨p.blobsEnd.length + paddedSize p.contents, p.footer.length⟩ } := by
    have hcrlAt : Align (Align kHeaderSize + p.certificates.length) =
        64 + roundUp p.certificates.length := by
      show Align (64 + p.certificates.length) = _
      rw [Align_eq (by omega), roundUp_add (Nat.dvd_refl 64)]
    unfold ParseLayout
    rw [hsize, htype, hcerts, hcrl, hticket, htmd, hdata, hfooter,
      if_neg (by show ¬(_ < 32 ∨ _); omega)]
    extract_lets type certs_size crl_size ticket_size tmd_size data_size footer_size certs crl
    rw [if_neg (show ¬(type ≠ kTypeInstallable ∧ type ≠ kTypeBoot2) from hknown)]
    have hstart' : Align (crl + crl_size) = p.before.length := hstart
    rw [hstart', show blobs p.file p.before.length ticket_size tmd_size = _ from hblobs]
    dsimp only
    rw [if_neg (by omega), hticketBytes, htmdBytes, h.ticketParses, h.tmdParses]
    dsimp only
    rw [htake]
    dsimp only
    rw [hused, hdata', hsum, if_neg (c := _ > p.file.length) (by
      rw [Nat.mod_eq_of_lt (by omega)]
      omega)]
    have hcrl' : crl = 64 + roundUp p.certificates.length := hcrlAt
    rw [hcrl']
    rfl
  refine ⟨fun hfits => ?_, fun hcut => ?_⟩
  · refine ⟨_, hparse.trans (if_neg ?_), ?_, ?_, ⟨h.ticketParses, h.ticketRaw⟩,
      ⟨h.tmdParses, h.tmdRaw⟩, ?_, ?_⟩
    · unfold Parts.DataFits at hfits
      omega
    · dsimp only
      cases p.kind with
      | Boot2 => exact if_pos rfl
      | Installable => exact if_neg hinstallable
    · have hat : ∃ rest, p.file = p.head ++ (p.certificates ++ rest) := by
        rw [hfile]
        unfold Parts.blobsEnd Parts.before
        unfold pad
        rw [List.append_assoc, List.append_assoc, List.append_assoc, List.append_assoc,
          List.append_assoc]
        exact ⟨_, rfl⟩
      obtain ⟨rest, hrest⟩ := hat
      have hslice := slice_at (x := p.head) (z := rest) (n := p.certificates.length) rfl
      rw [length_head, ← hrest] at hslice
      exact hslice
    · dsimp only
      rw [hfile]
      exact layout_slices h.sizes
    · have hat : p.file = (p.blobsEnd ++ p.contents.flatMap pad) ++ (p.footer ++
          List.replicate (roundUp p.footer.length - p.footer.length) 0) := hfile
      have hslice := slice_at (x := p.blobsEnd ++ p.contents.flatMap pad)
        (z := List.replicate (roundUp p.footer.length - p.footer.length) (0 : UInt8))
        (n := p.footer.length) rfl
      rw [List.length_append, length_flatMap_pad, ← hat] at hslice
      exact hslice
  · rw [hparse]
    apply if_pos
    unfold Parts.DataFits at hcut
    omega

/-- **A wad that was built is read back**, just when the size of its contents is not cut. -/
theorem roundtrip_iff (h : p.Whole ticket tmd) :
    (∃ l, ParseLayout p.file = some l ∧ p.Returned l) ↔ p.DataFits := by
  obtain ⟨hfits, hcut⟩ := ParseLayout_Build h
  refine ⟨fun hl => ?_, hfits⟩
  by_contra hnot
  obtain ⟨l, hl, -⟩ := hl
  rw [hcut hnot] at hl
  cases hl

def shortTicket : Bytes :=
  [0, 1, 0, 2] ++ List.replicate 0x78 0 ++ chars "Root-XS" ++ List.replicate 0x15D 0

def shortTmd (sizes : List Bytes) : Bytes :=
  [0, 1, 0, 2] ++ List.replicate 0x78 0 ++ chars "Root-CP" ++ List.replicate 0x97 0 ++
    word16 sizes.length ++ List.replicate 4 0 ++
    sizes.flatMap fun size => List.replicate 8 0 ++ size ++ List.replicate 20 0

/-- parts that differ in their contents only -/
def shortParts (kind : WadKind) (sizes : List Bytes) (contents : List Bytes) : Parts where
  kind := kind
  certificates := [1, 2, 3]
  ticket := shortTicket
  tmd := shortTmd sizes
  contents := contents
  footer := [9]

theorem shortParts_whole (kind : WadKind) (sizes contents : List Bytes) (records : List Nat)
    (htmd : ((Tmd.Parse (shortTmd sizes)).any fun tmd => decide (tmd.raw = shortTmd sizes) &&
      decide (tmd.contents.map ContentRecord.EncryptedSize = records)) = true)
    (hsigner : contains (tmdIssuer (shortTmd sizes)) (chars "-XS") = false)
    (hsize : (shortTmd sizes).length < 2 ^ 31)
    (hcontents : contents.map List.length = records)
    (hcontentSize : ∀ content ∈ contents, content.length < 2 ^ 31) :
    ∃ ticket tmd, (shortParts kind sizes contents).Whole ticket tmd := by
  have hticket : ((Ticket.Parse shortTicket).any fun ticket => decide (ticket.raw = shortTicket) &&
      contains ticket.issuer (chars "-XS")) = true := by decide +kernel
  obtain ⟨ticket, hparse, hboth⟩ := (Option.any_eq_true _ _).mp hticket
  obtain ⟨tmd, hparse', hboth'⟩ := (Option.any_eq_true _ _).mp htmd
  rw [Bool.and_eq_true, decide_eq_true_eq] at hboth
  rw [Bool.and_eq_true, decide_eq_true_eq, decide_eq_true_eq] at hboth'
  exact ⟨ticket, tmd, hparse, hboth.1, hboth.2, hparse', hboth'.1, hsigner,
    hcontents.trans hboth'.2.symm, (by decide : 3 < 2 ^ 31),
    (by decide +kernel : shortTicket.length < 2 ^ 31), hsize, hcontentSize,
    (by decide : 1 < 2 ^ 31)⟩

def twoBlocks : Parts := shortParts .Boot2
  [[0, 0, 0, 0, 0, 0, 0, 16], [0, 0, 0, 0, 0, 0, 0, 9]] [List.replicate 16 7, List.replicate 16 8]

theorem roundtrip_iff_twoBlocks : ∃ l, ParseLayout twoBlocks.file = some l ∧ twoBlocks.Returned l := by
  obtain ⟨ticket, tmd, h⟩ := shortParts_whole .Boot2
    [[0, 0, 0, 0, 0, 0, 0, 16], [0, 0, 0, 0, 0, 0, 0, 9]]
    [List.replicate 16 7, List.replicate 16 8] [16, 16]
    (by decide +kernel) (by decide +kernel) (by decide +kernel) rfl (by decide)
  exact (roundtrip_iff h).mpr (by decide +kernel)

/-- three contents of just less than 2^31 bytes, whose sizes together do not fit into 32 bits -/
def threeLarge : Parts := shortParts .Installable
  (List.replicate 3 [0, 0, 0, 0, 0x7F, 0xFF, 0xFF, 0xF0])
  (List.replicate 3 (List.replicate (2 ^ 31 - 16) 0))

theorem threeLarge_refused :
    (∃ ticket tmd, threeLarge.Whole ticket tmd) ∧ ParseLayout threeLarge.file = none := by
  have hlength : (List.replicate (2 ^ 31 - 16) (0 : UInt8)).length = 2 ^ 31 - 16 :=
    List.length_replicate
  have hwhole : ∃ ticket tmd, threeLarge.Whole ticket tmd := by
    apply shortParts_whole _ _ _ (List.replicate 3 (2 ^ 31 - 16))
    · decide +kernel
    · decide +kernel
    · decide +kernel
    · rw [List.map_replicate, hlength]
    · intro content hmem
      rw [List.eq_of_mem_replicate hmem, hlength]
      decide
  obtain ⟨ticket, tmd, h⟩ := hwhole
  refine ⟨⟨ticket, tmd, h⟩, (ParseLayout_Build h).2 fun hfits => ?_⟩
  have hsum : paddedSize threeLarge.contents = 3 * 2 ^ 31 := by
    show paddedSize (List.replicate 3 (List.replicate (2 ^ 31 - 16) 0)) = _
    unfold paddedSize
    rw [List.map_replicate, hlength]
    decide
  unfold Parts.DataFits at hfits
  omega

end Wad

end DolTranslator.Nand
