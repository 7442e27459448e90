import DolTranslator.Archive.AshTrees

/-!
# What is decoded

* `Spelled`   tokens in the two streams, under two codes;
* `AshFile`   a well-formed file, each stream in whole words;
* `AshDecompress_iff`   which of them are expanded: those whose trees leave a symbol out and whose
  streams leave a bit; and nothing else is.
-/

namespace DolTranslator.Archive

open Disc Lz Streams

/-! ## files -/

/-- a byte is its own symbol, a length comes after the bytes and has a distance in the other
stream -/
inductive Spelled (symbols distances : Code) :
    List (Token UInt8) → List Bool → List Bool → Prop
  | nil : Spelled symbols distances [] [] []
  | literal {b : UInt8} {w bs bd : List Bool} {tokens : List (Token UInt8)}
      (hsymbol : symbols.Path b.toNat w) (h : Spelled symbols distances tokens bs bd) :
      Spelled symbols distances (.literal b :: tokens) (w ++ bs) bd
  | copy {distance length : Nat} {w v bs bd : List Bool} {tokens : List (Token UInt8)}
      (hpos : 0 < distance) (hlong : 3 ≤ length) (hsymbol : symbols.Path (length - 3 + 0x100) w)
      (hdistance : distances.Path (distance - 1) v) (h : Spelled symbols distances tokens bs bd) :
      Spelled symbols distances (.copy distance length :: tokens) (w ++ bs) (v ++ bd)

/-- the symbols of a code with a branch, in so many bits -/
def OfWidth (width : Nat) (c : Code) : Prop :=
  (∀ symbol ∈ c.symbols, symbol < 2 ^ width) ∧ c.branches ≠ 0

/-- a file of these tokens under these codes, `bs` and `bd` being the coded bits of its streams -/
structure AshFile (symbol_bits distance_bits : Nat) (symbols distances : Code)
    (tokens : List (Token UInt8)) (bs bd : List Bool) (src out : List UInt8) : Prop where
  magic : IsAsh src = true
  size : read32 src 4 % 2 ^ 24 = out.length
  pos : 0 < out.length
  symbols_width : OfWidth symbol_bits symbols
  distances_width : OfWidth distance_bits distances
  spelled : Spelled symbols distances tokens bs bd
  expands : expand tokens [] = some out
  /-- the streams are there in whole words, with anything behind their last bits -/
  symbols_at : ∃ more, wordBits src kAshHeaderSize = symbols.spell symbol_bits ++ (bs ++ more)
  distances_at :
    ∃ more, wordBits src (read32 src 8) = distances.spell distance_bits ++ (bd ++ more)

variable {symbol_bits distance_bits expanded : Nat} {symbols distances : Code}
  {tokens : List (Token UInt8)} {bs bd : List Bool}

/-- **Tokens that come to the size are decoded.** -/
theorem ashLoop_spelled {s : AshState} {out : List UInt8} {mores mored : List Bool} {fuel : Nat}
    (hs : OfWidth symbol_bits symbols) (hsn : symbols.branches + 1 < 2 ^ symbol_bits)
    (hd : OfWidth distance_bits distances) (hdn : distances.branches + 1 < 2 ^ distance_bits)
    (hsize : expanded < 2 ^ 32) (hspelled : Spelled symbols distances tokens bs bd)
    (hsymbols : s.symbols.rest = bs ++ mores) (hdistances : s.distances.rest = bd ++ mored)
    (hexpand : expand tokens s.dst = some out) (hout : out.length = expanded)
    (hfuel : expanded < s.dst.length + fuel) :
    ∃ s', ashLoop (codeTree symbol_bits symbols) (codeTree distance_bits distances) symbol_bits
        distance_bits expanded fuel s = some s' ∧
      s'.symbols.rest = mores ∧ s'.distances.rest = mored ∧ s'.dst = out := by
  have hkeeps := expand_keeps hexpand
  induction hspelled generalizing s fuel with
  | nil =>
    obtain rfl := Option.some.inj hexpand
    obtain ⟨fuel, rfl⟩ := Nat.exists_eq_succ_of_ne_zero (n := fuel) (by omega)
    exact ⟨s, if_neg (by omega), hsymbols, hdistances, rfl⟩
  | @literal b w bs bd tokens hsymbol h ih =>
    rw [List.append_assoc] at hsymbols
    obtain ⟨reader, hreader, hread⟩ := readSymbol_path hs.1 hsn hsymbol hsymbols
    change expand tokens (s.dst ++ [b]) = some out at hexpand
    have hmore := (expand_keeps hexpand).length_le
    rw [List.length_append, List.length_singleton] at hmore
    obtain ⟨fuel, rfl⟩ := Nat.exists_eq_succ_of_ne_zero (n := fuel) (by omega)
    have hfuel' : expanded < (s.dst ++ [b]).length + fuel := by
      rw [List.length_append, List.length_singleton]
      omega
    obtain ⟨s', hloop, hrest⟩ := ih (s := { s with symbols := reader, dst := s.dst ++ [b] })
      hreader hdistances hexpand hfuel' (expand_keeps hexpand)
    refine ⟨s', ?_, hrest⟩
    refine (if_pos (by omega)).trans ?_
    unfold ashSymbol
    rw [hread]
    dsimp only
    rw [if_pos b.toNat_lt, UInt8.ofNat_toNat]
    exact hloop
  | @copy distance length w v bs bd tokens hpos hlong hsymbol hdistance h ih =>
    rw [List.append_assoc] at hsymbols hdistances
    obtain ⟨reader, hreader, hread⟩ := readSymbol_path hs.1 hsn hsymbol hsymbols
    obtain ⟨reader', hreader', hread'⟩ := readSymbol_path hd.1 hdn hdistance hdistances
    change (if distance ≤ s.dst.length then _ else none) = some out at hexpand
    by_cases hback : distance ≤ s.dst.length
    · rw [if_pos hback] at hexpand
      have hmore := (expand_keeps hexpand).length_le
      rw [length_copyBack] at hmore
      obtain ⟨fuel, rfl⟩ := Nat.exists_eq_succ_of_ne_zero (n := fuel) (by omega)
      have hfuel' : expanded < (copyBack distance length s.dst).length + fuel := by
        rw [length_copyBack]
        omega
      obtain ⟨s', hloop, hrest⟩ := ih
        (s := ⟨reader, reader', copyBack distance length s.dst⟩) hreader hreader' hexpand hfuel'
        (expand_keeps hexpand)
      refine ⟨s', ?_, hrest⟩
      refine (if_pos (by omega)).trans ?_
      unfold ashSymbol
      rw [hread]
      dsimp only
      rw [if_neg (by omega), hread']
      dsimp only
      rw [show length - 3 + 0x100 - 0x100 + 3 = length by omega,
        Nat.mod_eq_of_lt (a := s.dst.length + length) (by omega), if_neg (by omega),
        show s.dst.length - (distance - 1) - 1 = s.dst.length - distance by omega,
        copyForward_eq length hback]
      exact hloop
    · rw [if_neg hback] at hexpand
      cases hexpand

/-- **Only such tokens are.** -/
theorem ashLoop_sound {s s' : AshState} {fuel : Nat}
    (hs : OfWidth symbol_bits symbols) (hsn : symbols.branches + 1 < 2 ^ symbol_bits)
    (hd : OfWidth distance_bits distances) (hdn : distances.branches + 1 < 2 ^ distance_bits)
    (hbits : symbol_bits ≤ 16) (hsize : expanded < 2 ^ 24) (hle : s.dst.length ≤ expanded)
    (h : ashLoop (codeTree symbol_bits symbols) (codeTree distance_bits distances) symbol_bits
      distance_bits expanded fuel s = some s') :
    ∃ tokens bs bd, Spelled symbols distances tokens bs bd ∧
      s.symbols.rest = bs ++ s'.symbols.rest ∧ s.distances.rest = bd ++ s'.distances.rest ∧
      expand tokens s.dst = some s'.dst ∧ s'.dst.length = expanded := by
  induction fuel generalizing s with
  | zero => cases h
  | succ fuel ih =>
    by_cases hmore : s.dst.length < expanded
    · replace h := (if_pos hmore).symm.trans h
      unfold ashSymbol at h
      cases hread : readSymbol (codeTree symbol_bits symbols) (2 ^ symbol_bits) s.symbols with
      | none =>
        rw [hread] at h
        cases h
      | some read =>
        obtain ⟨symbol, reader⟩ := read
        rw [hread] at h
        obtain ⟨w, hsymbol, hw⟩ := readSymbol_sound hs.1 hsn hread
        dsimp only at h
        by_cases hbyte : symbol < 0x100
        · rw [if_pos hbyte] at h
          obtain ⟨tokens, bs, bd, hspelled, hbs, hbd, hexpand, hlen⟩ := ih
            (by rw [List.length_append, List.length_singleton]; omega) h
          have hvalue : (UInt8.ofNat symbol).toNat = symbol := by
            rw [UInt8.toNat_ofNat', Nat.mod_eq_of_lt hbyte]
          refine ⟨.literal (UInt8.ofNat symbol) :: tokens, w ++ bs, bd,
            .literal (hvalue.symm ▸ hsymbol) hspelled, ?_, hbd, hexpand, hlen⟩
          rw [hw, List.append_assoc]
          exact congrArg (w ++ ·) hbs
        · rw [if_neg hbyte] at h
          cases hread' : readSymbol (codeTree distance_bits distances) (2 ^ distance_bits)
              s.distances with
          | none =>
            rw [hread'] at h
            cases h
          | some read' =>
            obtain ⟨distance, reader'⟩ := read'
            rw [hread'] at h
            obtain ⟨v, hdistance, hv⟩ := readSymbol_sound hd.1 hdn hread'
            dsimp only at h
            have hsmall : symbol < 2 ^ 16 := Nat.lt_of_lt_of_le (hs.1 symbol hsymbol.mem)
              (Nat.pow_le_pow_right (by decide) hbits)
            rw [Nat.mod_eq_of_lt (a := s.dst.length + (symbol - 0x100 + 3)) (by omega)] at h
            by_cases hcopy : distance + 1 > s.dst.length ∨
                s.dst.length + (symbol - 0x100 + 3) > expanded
            · rw [if_pos hcopy] at h
              cases h
            · have hback : distance + 1 ≤ s.dst.length :=
                Nat.le_of_not_lt fun hlt => hcopy (.inl hlt)
              rw [if_neg hcopy, Nat.sub_sub, copyForward_eq _ hback] at h
              obtain ⟨tokens, bs, bd, hspelled, hbs, hbd, hexpand, hlen⟩ := ih
                (by rw [length_copyBack]; omega) h
              refine ⟨.copy (distance + 1) (symbol - 0x100 + 3) :: tokens, w ++ bs, v ++ bd,
                .copy (Nat.succ_pos _) (by omega) ?_ hdistance hspelled, ?_, ?_, ?_, hlen⟩
              · rw [show symbol - 0x100 + 3 - 3 + 0x100 = symbol by omega]
                exact hsymbol
              · rw [hw, List.append_assoc]
                exact congrArg (w ++ ·) hbs
              · rw [hv, List.append_assoc]
                exact congrArg (v ++ ·) hbd
              · rw [expand, if_pos hback]
                dsimp only at hexpand
                exact hexpand
    · obtain rfl := Option.some.inj ((if_neg hmore).symm.trans h)
      exact ⟨[], [], [], .nil, rfl, rfl, rfl, by omega⟩

theorem AshDecompress_eq_some {src out : List UInt8} {dst_size : Nat} :
    AshDecompress src dst_size symbol_bits distance_bits = some out ↔
      (AshExpandedSize src ≠ 0 ∧ AshExpandedSize src ≤ dst_size) ∧
      (1 ≤ symbol_bits ∧ symbol_bits ≤ 16) ∧ (1 ≤ distance_bits ∧ distance_bits ≤ 16) ∧
      read32 src 8 + 4 ≤ src.length ∧
      ∃ st rs dt rd s, ReadTree (.start src kAshHeaderSize) symbol_bits = some (st, rs) ∧
        ReadTree (.start src (read32 src 8)) distance_bits = some (dt, rd) ∧
        ashLoop st dt symbol_bits distance_bits (AshExpandedSize src) (AshExpandedSize src + 1)
          ⟨rs, rd, []⟩ = some s ∧
        s.symbols.failed = false ∧ s.distances.failed = false ∧ s.dst = out := by
  unfold AshDecompress
  dsimp only
  constructor
  · intro h
    split at h
    · cases h
    · split at h
      · cases h
      · split at h
        · cases h
        · refine ⟨⟨by omega, by omega⟩, ⟨by omega, by omega⟩, ⟨by omega, by omega⟩, by omega, ?_⟩
          split at h
          · next st rs dt rd hst hdt =>
            split at h
            · cases h
            · next s hs =>
              split at h
              · cases h
              · next hgood =>
                obtain ⟨hsg, hdg⟩ := Bool.or_eq_false_iff.mp (Bool.eq_false_of_not_eq_true hgood)
                exact ⟨st, rs, dt, rd, s, hst, hdt, hs, hsg, hdg, Option.some.inj h⟩
          · cases h
  · rintro ⟨hsize, hsb, hdb, hat, st, rs, dt, rd, s, hst, hdt, hs, hsg, hdg, rfl⟩
    rw [if_neg (by omega), if_neg (by omega), if_neg (by omega), hst, hdt]
    dsimp only
    rw [hs]
    dsimp only
    rw [hsg, hdg]
    rfl

theorem AshFile.expandedSize {src out : List UInt8}
    (h : AshFile symbol_bits distance_bits symbols distances tokens bs bd src out) :
    AshExpandedSize src = out.length := (if_pos h.magic).trans h.size

/-- **Exactly which files are expanded.**  A well-formed file is, when each of its trees has fewer
leaves than there are symbols of its width and each of its streams ends before the last bit of the
whole words that are left of the file; and nothing is expanded that is not a well-formed file. -/
theorem AshDecompress_iff (src : List UInt8) (dst_size symbol_bits distance_bits : Nat) :
    (∀ (symbols distances : Code) (tokens : List (Token UInt8)) (bs bd : List Bool)
      (out : List UInt8),
      1 ≤ symbol_bits → symbol_bits ≤ 16 → 1 ≤ distance_bits → distance_bits ≤ 16 →
      out.length ≤ dst_size →
      AshFile symbol_bits distance_bits symbols distances tokens bs bd src out →
      (AshDecompress src dst_size symbol_bits distance_bits = some out ↔
        symbols.symbols.length < 2 ^ symbol_bits ∧
        distances.symbols.length < 2 ^ distance_bits ∧
        (symbols.spell symbol_bits ++ bs).length < (wordBits src kAshHeaderSize).length ∧
        (distances.spell distance_bits ++ bd).length <
          (wordBits src (read32 src 8)).length)) ∧
    ∀ out, AshDecompress src dst_size symbol_bits distance_bits = some out →
      out.length ≤ dst_size ∧ ∃ symbols distances tokens bs bd,
        AshFile symbol_bits distance_bits symbols distances tokens bs bd src out := by
  constructor
  · intro symbols distances tokens bs bd out hsb hsb' hdb hdb' hdst hfile
    obtain ⟨mores, hmores⟩ := hfile.symbols_at
    obtain ⟨mored, hmored⟩ := hfile.distances_at
    have hsize := hfile.expandedSize
    have hpos := hfile.pos
    have hlt : out.length < 2 ^ 24 := by
      rw [← hfile.size]
      exact Nat.mod_lt _ (by decide)
    have hlens : (wordBits src kAshHeaderSize).length =
        (symbols.spell symbol_bits ++ bs).length + mores.length := by
      rw [hmores, ← List.append_assoc, List.length_append]
    have hlend : (wordBits src (read32 src 8)).length =
        (distances.spell distance_bits ++ bd).length + mored.length := by
      rw [hmored, ← List.append_assoc, List.length_append]
    rw [hlens, hlend, Code.length_symbols, Code.length_symbols, AshDecompress_eq_some, hsize]
    have hloop {rs rd : BitReader} (hsn : symbols.branches + 1 < 2 ^ symbol_bits)
        (hdn : distances.branches + 1 < 2 ^ distance_bits) (hrs : rs.rest = bs ++ mores)
        (hrd : rd.rest = bd ++ mored) :=
      ashLoop_spelled (s := ⟨rs, rd, []⟩) hfile.symbols_width hsn hfile.distances_width hdn
        (by omega) hfile.spelled hrs hrd hfile.expands rfl
        (show out.length < 0 + (out.length + 1) by omega)
    constructor
    · rintro ⟨-, -, -, -, st, rs, dt, rd, s, hst, hdt, hs, hsg, hdg, -⟩
      obtain ⟨cs, hcs, -, hsn, rfl, -, hrests⟩ := ReadTree_sound hst
      obtain ⟨cd, hcd, -, hdn, rfl, -, hrestd⟩ := ReadTree_sound hdt
      rw [BitReader.rest_start, hmores] at hrests
      rw [BitReader.rest_start, hmored] at hrestd
      obtain ⟨rfl, hrs⟩ := Code.spell_inj hfile.symbols_width.1 hcs hrests
      obtain ⟨rfl, hrd⟩ := Code.spell_inj hfile.distances_width.1 hcd hrestd
      obtain ⟨s', hs', hsr, hdr, -⟩ := hloop hsn hdn hrs.symm hrd.symm
      obtain rfl := Option.some.inj (hs'.symm.trans hs)
      refine ⟨hsn, hdn, ?_, ?_⟩
      · have : mores ≠ [] := by
          rw [← hsr, Ne, ← BitReader.failed_iff, hsg]
          exact Bool.false_ne_true
        have := List.length_pos_iff.mpr this
        omega
      · have : mored ≠ [] := by
          rw [← hdr, Ne, ← BitReader.failed_iff, hdg]
          exact Bool.false_ne_true
        have := List.length_pos_iff.mpr this
        omega
    · rintro ⟨hsn, hdn, hms, hmd⟩
      have hsome : mores ≠ [] := List.length_pos_iff.mp (by omega)
      have hdome : mored ≠ [] := List.length_pos_iff.mp (by omega)
      obtain ⟨rs, hrs, hst⟩ := ReadTree_spell hfile.symbols_width.1
        ((BitReader.rest_start src kAshHeaderSize).trans hmores) hfile.symbols_width.2 hsn
        (List.append_ne_nil_of_right_ne_nil _ hsome)
      obtain ⟨rd, hrd, hdt⟩ := ReadTree_spell hfile.distances_width.1
        ((BitReader.rest_start src (read32 src 8)).trans hmored) hfile.distances_width.2 hdn
        (List.append_ne_nil_of_right_ne_nil _ hdome)
      obtain ⟨s, hs, hsr, hdr, hout⟩ := hloop hsn hdn hrs hrd
      have hat : read32 src 8 + 4 ≤ src.length := by
        by_contra hshort
        rw [wordBits_of_lt (Nat.lt_of_not_le hshort)] at hlend
        rw [List.length_nil] at hlend
        omega
      refine ⟨⟨by omega, hdst⟩, ⟨hsb, hsb'⟩, ⟨hdb, hdb'⟩, hat, _, rs, _, rd, s, hst, hdt, hs, ?_,
        ?_, hout⟩
      · rw [← Bool.not_eq_true, BitReader.failed_iff, hsr]
        exact hsome
      · rw [← Bool.not_eq_true, BitReader.failed_iff, hdr]
        exact hdome
  · intro out h
    obtain ⟨⟨hne, hdst⟩, hsb, hdb, -, st, rs, dt, rd, s, hst, hdt, hs, hsg, hdg, rfl⟩ :=
      AshDecompress_eq_some.mp h
    obtain ⟨cs, hcs, hcsb, hsn, rfl, -, hrests⟩ := ReadTree_sound hst
    obtain ⟨cd, hcd, hcdb, hdn, rfl, -, hrestd⟩ := ReadTree_sound hdt
    rw [BitReader.rest_start] at hrests hrestd
    have hash : IsAsh src = true := by
      by_contra hno
      exact hne (if_neg hno)
    have hexpanded : AshExpandedSize src = read32 src 4 % 2 ^ 24 := if_pos hash
    have hlt : AshExpandedSize src < 2 ^ 24 := by
      rw [hexpanded]
      exact Nat.mod_lt _ (by decide)
    obtain ⟨tokens, bs, bd, hspelled, hbs, hbd, hexpand, hlen⟩ := ashLoop_sound ⟨hcs, hcsb⟩ hsn
      ⟨hcd, hcdb⟩ hdn hsb.2 hlt (Nat.zero_le _) hs
    refine ⟨by omega, cs, cd, tokens, bs, bd, ⟨hash, by omega, by omega, ⟨hcs, hcsb⟩,
      ⟨hcd, hcdb⟩, hspelled, hexpand, ⟨s.symbols.rest, ?_⟩, ⟨s.distances.rest, ?_⟩⟩⟩
    · rw [hrests]
      exact congrArg (_ ++ ·) hbs
    · rw [hrestd]
      exact congrArg (_ ++ ·) hbd

/-! ## files that end on a word, and full trees -/

def byteAndLength : Code := .node (.leaf 0x41) (.leaf 0x100)

def zeroAndOne : Code := .node (.leaf 0) (.leaf 1)

/-- "A", and seven times three of it -/
def runTokens : List (Token UInt8) := .literal 0x41 :: List.replicate 7 (.copy 1 3)

def wordEndFile : List UInt8 :=
  [0x41, 0x53, 0x48, 0x30, 0, 0, 0, 22, 0, 0, 0, 0x10, 0x88, 0x28, 0x03, 0xF8, 0x80, 0, 0, 0x80]

def fullTreeFile : List UInt8 :=
  [0x41, 0x53, 0x48, 0x30, 0, 0, 0, 2, 0, 0, 0, 0x10, 0x8A, 0, 0, 0, 0x82, 0, 0, 0]

theorem runTokens_spelled : Spelled byteAndLength zeroAndOne runTokens
    (false :: List.replicate 7 true) (List.replicate 7 false) := by
  have hrun (n : Nat) : Spelled byteAndLength zeroAndOne (List.replicate n (.copy 1 3))
      (List.replicate n true) (List.replicate n false) := by
    induction n with
    | zero => exact .nil
    | succ n ih =>
      exact .copy (w := [true]) (v := [false]) (by decide) (by decide) (.one (.leaf 0x100))
        (.zero (.leaf 0)) ih
  exact .literal (w := [false]) (.zero (.leaf 0x41)) (hrun 7)

theorem wordEndFile_ash {src : List UInt8}
    (h : src = wordEndFile ∨ src = wordEndFile ++ [0, 0, 0, 0]) :
    AshFile 9 11 byteAndLength zeroAndOne runTokens (false :: List.replicate 7 true)
      (List.replicate 7 false) src (List.replicate 22 0x41) where
  magic := by obtain rfl | rfl := h <;> decide
  size := by obtain rfl | rfl := h <;> decide
  pos := by decide
  symbols_width := ⟨by decide, by decide⟩
  distances_width := ⟨by decide, by decide⟩
  spelled := runTokens_spelled
  expands := by decide
  symbols_at := by
    obtain rfl | rfl := h
    · exact ⟨(wordBits wordEndFile kAshHeaderSize).drop 29, by decide +kernel⟩
    · exact ⟨(wordBits (wordEndFile ++ [0, 0, 0, 0]) kAshHeaderSize).drop 29, by decide +kernel⟩
  distances_at := by
    obtain rfl | rfl := h
    · exact ⟨[], by decide +kernel⟩
    · exact ⟨List.replicate 32 false, by decide +kernel⟩

theorem fullTreeFile_ash :
    AshFile 1 2 zeroAndOne zeroAndOne [.literal 0, .literal 1] [false, true] [] fullTreeFile
      [0, 1] where
  magic := by decide
  size := by decide
  pos := by decide
  symbols_width := ⟨by decide, by decide⟩
  distances_width := ⟨by decide, by decide⟩
  spelled := .literal (w := [false]) (.zero (.leaf 0))
    (.literal (w := [true]) (.one (.leaf 1)) .nil)
  expands := by decide
  symbols_at := ⟨(wordBits fullTreeFile kAshHeaderSize).drop 7, by decide +kernel⟩
  distances_at := ⟨(wordBits fullTreeFile 0x10).drop 7, by decide +kernel⟩

/-- **Refused.**  A well-formed file whose distances end with its last word, and one whose tree has
every symbol, over distinct symbols both. -/
theorem AshDecompress_refuses :
    (AshFile 9 11 byteAndLength zeroAndOne runTokens (false :: List.replicate 7 true)
        (List.replicate 7 false) wordEndFile (List.replicate 22 0x41) ∧
      AshDecompress wordEndFile 22 9 11 = none) ∧
    (AshFile 1 2 zeroAndOne zeroAndOne [.literal 0, .literal 1] [false, true] [] fullTreeFile
        [0, 1] ∧
      AshDecompress fullTreeFile 2 1 2 = none) ∧
    byteAndLength.symbols.Nodup ∧ zeroAndOne.symbols.Nodup :=
  ⟨⟨wordEndFile_ash (.inl rfl), by decide +kernel⟩, ⟨fullTreeFile_ash, by decide +kernel⟩,
    by decide, by decide⟩

/-- the same file with one more word behind it -/
theorem AshDecompress_iff_run :
    AshDecompress (wordEndFile ++ [0, 0, 0, 0]) 22 9 11 = some (List.replicate 22 0x41) :=
  ((AshDecompress_iff (wordEndFile ++ [0, 0, 0, 0]) 22 9 11).1 byteAndLength zeroAndOne runTokens
    (false :: List.replicate 7 true) (List.replicate 7 false) (List.replicate 22 0x41) (by decide)
    (by decide) (by decide) (by decide) (by decide) (wordEndFile_ash (.inr rfl))).mpr
    ⟨by decide, by decide, by decide +kernel, by decide +kernel⟩

end DolTranslator.Archive
