import DolTranslator.Archive.Window

/-!
# A CX stream, expanded

A header of four or eight bytes, then groups of eight items.  The kinds differ in how a reference
is spelled: two bytes, or two, three or four.

* `CxDecompress`  the decoder; none where the code returns 0;
* `lz10`, `lz11`  the formats, `CxFile` a stream of some tokens;
* `CxDecompress_exact`   the decoder expands every stream, and refuses everything else.
-/

namespace DolTranslator.Archive

open Disc Lz Streams

/-! ## the decoder -/

inductive CxKind where
  | none | lz10 | lz11 | huffman4 | huffman8 | rle
  deriving DecidableEq

/-- `Read24`, the low byte first -/
def read24LE (bytes : List UInt8) (i : Nat) : Nat :=
  byteAt bytes i + byteAt bytes (i + 1) * 256 + byteAt bytes (i + 2) * 65536

/-- after the longer size, when the three bytes were not enough -/
def PayloadAt (data : List UInt8) : Nat := if read24LE data 1 = 0 then 8 else 4

def CxIdentify (data : List UInt8) : CxKind :=
  if data.length < 4 then .none
  else
    match byteAt data 0 with
    | 0x10 => .lz10
    | 0x11 => .lz11
    | 0x20 => .huffman4
    | 0x28 => .huffman8
    | 0x30 => .rle
    | _ => .none

def CxExpandedSize (data : List UInt8) : Nat :=
  if CxIdentify data = .none then 0
  else if read24LE data 1 ≠ 0 then read24LE data 1
  else if 8 ≤ data.length then read32LE data 4
  else 0

def lz10Reference : List UInt8 → Option ((Nat × Nat) × List UInt8)
  | first :: second :: src =>
    some ((first.toNat % 16 * 256 + second.toNat + 1, first.toNat / 16 + 3), src)
  | _ => none

/-- the top nibble of the first byte says how many there are -/
def lz11Reference : List UInt8 → Option ((Nat × Nat) × List UInt8)
  | first :: second :: src =>
    let indicator := first.toNat / 16
    if indicator = 0 then
      match src with
      | third :: src =>
        some ((second.toNat % 16 * 256 + third.toNat + 1,
          first.toNat * 16 + second.toNat / 16 + 0x11), src)
      | _ => none
    else if indicator = 1 then
      match src with
      | third :: fourth :: src =>
        some ((third.toNat % 16 * 256 + fourth.toNat + 1,
          first.toNat % 16 * 4096 + second.toNat * 16 + third.toNat / 16 + 0x111), src)
      | _ => none
    else some ((first.toNat % 16 * 256 + second.toNat + 1, indicator + 1), src)
  | _ => none

def cxReference (kind : CxKind) (src : List UInt8) : Option ((Nat × Nat) × List UInt8) :=
  if kind = .lz10 then lz10Reference src else lz11Reference src

structure CxState where
  flags : Nat
  left : Nat
  src : List UInt8
  dst : List UInt8

def cxGroup (s : CxState) : Option CxState :=
  if s.left = 0 then
    match s.src with
    | [] => none
    | group :: src => some { s with flags := group.toNat, left := 8, src := src }
  else some s

def cxLiteral (s : CxState) : Option CxState :=
  match s.src with
  | [] => none
  | literal :: src => some { s with src := src, dst := s.dst ++ [literal] }

def cxRun (kind : CxKind) (expanded : Nat) (s : CxState) : Option CxState :=
  match cxReference kind s.src with
  | none => none
  | some ((distance, length), src) =>
    if distance > s.dst.length ∨ (s.dst.length + length) % 2 ^ 32 > expanded then none
    else
      some { s with
        src := src
        dst := copyForward (s.dst.length - distance) length s.dst }

/-- one item; none for a stream that is refused -/
def cxItem (kind : CxKind) (expanded : Nat) (s : CxState) : Option CxState :=
  match cxGroup s with
  | none => none
  | some s =>
    let next := { s with flags := (s.flags <<< 1) &&& 0xFF, left := s.left - 1 }
    if s.flags &&& 0x80 ≠ 0 then cxRun kind expanded next else cxLiteral next

def cxLoop (kind : CxKind) (expanded : Nat) : Nat → CxState → Option (List UInt8)
  | 0, _ => none
  | fuel + 1, s =>
    if s.dst.length < expanded then
      match cxItem kind expanded s with
      | none => none
      | some s => cxLoop kind expanded fuel s
    else some s.dst

/-- what is written, of which the code returns the length; none where it returns 0 -/
def CxDecompress (src : List UInt8) (dst_size : Nat) : Option (List UInt8) :=
  let kind := CxIdentify src
  if kind ≠ .lz10 ∧ kind ≠ .lz11 then none
  else
    let expanded := CxExpandedSize src
    if expanded = 0 ∨ dst_size < expanded then none
    else cxLoop kind expanded (src.length + 1) ⟨0, 0, src.drop (PayloadAt src), []⟩

/-! ## the formats -/

def spellLast (nibble distance : Nat) : List UInt8 :=
  [UInt8.ofNat (nibble * 16 + (distance - 1) / 256), UInt8.ofNat ((distance - 1) % 256)]

def spellLz10 (distance length : Nat) : List UInt8 := spellLast (length - 3) distance

def spellLz11 (distance length : Nat) : List UInt8 :=
  if length ≤ 0x10 then spellLast (length - 1) distance
  else if length ≤ 0x110 then
    UInt8.ofNat ((length - 0x11) / 16) :: spellLast ((length - 0x11) % 16) distance
  else
    UInt8.ofNat (0x10 + (length - 0x111) / 4096) :: UInt8.ofNat ((length - 0x111) / 16 % 256) ::
      spellLast ((length - 0x111) % 16) distance

/-- eight items to a group, the high flag first; a flag that is set is a reference -/
def lz10 : Format UInt8 where
  flags group := maskBits group.toNat 8
  Fits distance length := 1 ≤ distance ∧ distance ≤ 4096 ∧ 3 ≤ length ∧ length ≤ 18
  spell := spellLz10
  read := lz10Reference

def lz11 : Format UInt8 where
  flags group := maskBits group.toNat 8
  Fits distance length := 1 ≤ distance ∧ distance ≤ 4096 ∧ 3 ≤ length ∧ length ≤ 0x10110
  spell := spellLz11
  read := lz11Reference

def cxFormat (kind : CxKind) : Format UInt8 := if kind = .lz10 then lz10 else lz11

def CxKind.byte (kind : CxKind) : UInt8 := if kind = .lz10 then 0x10 else 0x11

def word24LE (n : Nat) : List UInt8 :=
  [UInt8.ofNat n, UInt8.ofNat (n / 2 ^ 8), UInt8.ofNat (n / 2 ^ 16)]

/-- the two headers of a size: three bytes, or zeros and then four -/
inductive CxHeader (kind : CxKind) (n : Nat) : List UInt8 → Prop where
  | short (h : n < 2 ^ 24) : CxHeader kind n (kind.byte :: word24LE n)
  | long (h : n < 2 ^ 32) : CxHeader kind n (kind.byte :: 0 :: 0 :: 0 :: word32LE n)

/-- a stream of these tokens, with whatever after them -/
structure CxFile (kind : CxKind) (tokens : List (Token UInt8)) (src out : List UInt8) : Prop where
  kind_eq : kind = .lz10 ∨ kind = .lz11
  file : ∃ header payload, CxHeader kind out.length header ∧ src = header ++ payload ∧
    (cxFormat kind).Grouped [] tokens payload
  expands : expand tokens [] = some out
  pos : 0 < out.length

theorem spellLast_eq {nibble distance : Nat} {high low : UInt8}
    (hhigh : high.toNat = nibble * 16 + (distance - 1) / 256)
    (hlow : low.toNat = (distance - 1) % 256) : spellLast nibble distance = [high, low] := by
  unfold spellLast
  rw [← hhigh, ← hlow, UInt8.ofNat_toNat, UInt8.ofNat_toNat]

theorem lz10Reference_eq_some (src : List UInt8) (distance length : Nat) (rest : List UInt8) :
    lz10Reference src = some ((distance, length), rest) ↔
      lz10.Fits distance length ∧ src = spellLz10 distance length ++ rest := by
  constructor
  · intro h
    match src with
    | [] => cases h
    | [_] => cases h
    | first :: second :: src =>
      have hfirst := first.toNat_lt
      have hsecond := second.toNat_lt
      cases h
      refine ⟨⟨by omega, by omega, by omega, by omega⟩, ?_⟩
      unfold spellLz10
      rw [@spellLast_eq _ _ first second (by omega) (by omega)]
      rfl
  · rintro ⟨⟨hd1, hd2, hl1, hl2⟩, rfl⟩
    have hbyte (n : Nat) : (UInt8.ofNat n).toNat = n % 256 := UInt8.toNat_ofNat'
    show some ((_, _), rest) = _
    rw [hbyte, hbyte]
    simp only [Option.some.injEq, Prod.mk.injEq, and_true]
    omega

theorem lz11Reference_eq_some (src : List UInt8) (distance length : Nat) (rest : List UInt8) :
    lz11Reference src = some ((distance, length), rest) ↔
      lz11.Fits distance length ∧ src = spellLz11 distance length ++ rest := by
  constructor
  · intro h
    match src with
    | [] => cases h
    | [_] => cases h
    | first :: second :: src =>
      have hfirst := first.toNat_lt
      have hsecond := second.toNat_lt
      unfold lz11Reference at h
      dsimp only at h
      unfold spellLz11
      split at h
      · match src with
        | [] => cases h
        | third :: src =>
          have hthird := third.toNat_lt
          cases h
          refine ⟨⟨by omega, by omega, by omega, by omega⟩, ?_⟩
          rw [if_neg (by omega), if_pos (by omega),
            ← byte_eq (b := first) (by omega),
            @spellLast_eq _ _ second third (by omega) (by omega)]
          rfl
      · split at h
        · match src with
          | [] => cases h
          | [_] => cases h
          | third :: fourth :: src =>
            have hthird := third.toNat_lt
            have hfourth := fourth.toNat_lt
            cases h
            refine ⟨⟨by omega, by omega, by omega, by omega⟩, ?_⟩
            rw [if_neg (by omega), if_neg (by omega),
              ← byte_eq (b := first) (by omega), ← byte_eq (b := second) (by omega),
              @spellLast_eq _ _ third fourth (by omega) (by omega)]
            rfl
        · cases h
          refine ⟨⟨by omega, by omega, by omega, by omega⟩, ?_⟩
          rw [if_pos (by omega),
            @spellLast_eq _ _ first second (by omega) (by omega)]
          rfl
  · rintro ⟨⟨hd1, hd2, hl1, hl2⟩, rfl⟩
    have hbyte (n : Nat) : (UInt8.ofNat n).toNat = n % 256 := UInt8.toNat_ofNat'
    unfold spellLz11
    split
    · show (if _ then _ else if _ then _ else some ((_, _), rest)) = _
      rw [hbyte, hbyte, if_neg (by omega), if_neg (by omega)]
      simp only [Option.some.injEq, Prod.mk.injEq, and_true]
      omega
    · split
      · show (if _ then some ((_, _), rest) else _) = _
        rw [hbyte, hbyte, hbyte, if_pos (by omega)]
        simp only [Option.some.injEq, Prod.mk.injEq, and_true]
        omega
      · show (if _ then _ else if _ then some ((_, _), rest) else _) = _
        rw [hbyte, hbyte, hbyte, hbyte, if_neg (by omega), if_pos (by omega)]
        simp only [Option.some.injEq, Prod.mk.injEq, and_true]
        omega

theorem cxReference_eq (kind : CxKind) : (cxFormat kind).read = cxReference kind := by
  funext src
  unfold cxFormat cxReference
  split <;> rfl

theorem cxFormat_flags (kind : CxKind) (group : UInt8) :
    (cxFormat kind).flags group = maskBits group.toNat 8 := by
  unfold cxFormat
  split <;> rfl

variable {kind : CxKind}

theorem cxFormat_le {distance length : Nat}
    (h : (cxFormat kind).Fits distance length) : 3 ≤ length ∧ length ≤ 0x10110 := by
  unfold cxFormat at h
  split at h
  · obtain ⟨-, -, h1, h2⟩ := h
    omega
  · obtain ⟨-, -, h1, h2⟩ := h
    omega

theorem cxFormat_lawful (kind : CxKind) : (cxFormat kind).Lawful where
  flags_ne_nil b h := by
    have := congrArg List.length h
    rw [cxFormat_flags, length_maskBits] at this
    cases this
  read_eq_some := by
    unfold cxFormat
    split
    · exact lz10Reference_eq_some
    · exact lz11Reference_eq_some
  fits_pos distance length h := by
    have := (cxFormat_le h).1
    omega
  spell_ne_nil distance length _ := by
    unfold cxFormat
    split
    · exact List.cons_ne_nil _ _
    · show spellLz11 distance length ≠ []
      unfold spellLz11
      split
      · exact List.cons_ne_nil _ _
      · split <;> exact List.cons_ne_nil _ _

/-! ## the decoder reads the formats -/

def shiftBits (flags : Nat) : Nat → List Bool
  | 0 => []
  | k + 1 => decide (flags &&& 0x80 ≠ 0) :: shiftBits ((flags <<< 1) &&& 0xFF) k

theorem shiftBits_eight : ∀ flags < 256, shiftBits flags 8 = maskBits flags 8 := by decide +kernel

variable {expanded : Nat}

theorem cxRun_eq (s : CxState)
    (hsize : expanded + 0x11110 < 2 ^ 32) (hmore : s.dst.length < expanded) :
    cxRun kind expanded s =
      match (cxFormat kind).read s.src with
      | none => none
      | some ((distance, length), src) =>
        if distance ≤ s.dst.length ∧ s.dst.length + length ≤ expanded then
          some { s with src := src, dst := copyBack distance length s.dst }
        else none := by
  unfold cxRun
  rw [← cxReference_eq]
  cases hread : (cxFormat kind).read s.src with
  | none => rfl
  | some run =>
    obtain ⟨⟨distance, length⟩, src⟩ := run
    have hfits := cxFormat_le (((cxFormat_lawful kind).read_eq_some _ _ _ _).mp hread).1
    dsimp only
    by_cases h : distance ≤ s.dst.length ∧ s.dst.length + length ≤ expanded
    · rw [if_pos h, if_neg (by omega), copyForward_eq length h.1]
    · rw [if_neg h, if_pos (by omega)]

variable {src : List UInt8}

theorem cxItem_eq {k flags fuel : Nat} {dst : List UInt8}
    (hsize : expanded + 0x11110 < 2 ^ 32) (hmore : dst.length < expanded) :
    (cxFormat kind).decode expanded (fuel + 1) (shiftBits flags (k + 1)) src dst =
      match cxItem kind expanded ⟨flags, k + 1, src, dst⟩ with
      | none => none
      | some s =>
        (cxFormat kind).decode expanded fuel (shiftBits ((flags <<< 1) &&& 0xFF) k) s.src s.dst := by
  have hgroup : cxGroup ⟨flags, k + 1, src, dst⟩ = some ⟨flags, k + 1, src, dst⟩ :=
    if_neg (Nat.succ_ne_zero k)
  unfold cxItem
  rw [hgroup]
  dsimp only
  by_cases hflag : flags &&& 0x80 ≠ 0
  · have hbits : shiftBits flags (k + 1) = true :: shiftBits ((flags <<< 1) &&& 0xFF) k := by
      rw [shiftBits, decide_eq_true hflag]
    rw [hbits, Format.decode_copy hmore, if_pos hflag, cxRun_eq _ hsize hmore]
    dsimp only
    cases (cxFormat kind).read src with
    | none => rfl
    | some run =>
      dsimp only
      split <;> rfl
  · have hbits : shiftBits flags (k + 1) = false :: shiftBits ((flags <<< 1) &&& 0xFF) k := by
      rw [shiftBits, decide_eq_false hflag]
    rw [hbits, Format.decode_literal hmore, if_neg hflag]
    cases src <;> rfl

theorem cxItem_keeps {k flags : Nat} {dst : List UInt8} {s : CxState}
    (h : cxItem kind expanded ⟨flags, k + 1, src, dst⟩ = some s) :
    s.flags = (flags <<< 1) &&& 0xFF ∧ s.left = k ∧ s.src.length < src.length := by
  have hgroup : cxGroup ⟨flags, k + 1, src, dst⟩ = some ⟨flags, k + 1, src, dst⟩ :=
    if_neg (Nat.succ_ne_zero k)
  unfold cxItem at h
  rw [hgroup] at h
  dsimp only at h
  split at h
  · unfold cxRun at h
    rw [← cxReference_eq] at h
    dsimp only at h
    split at h
    · cases h
    · next distance length rest hread =>
      obtain ⟨hfits, rfl⟩ := ((cxFormat_lawful kind).read_eq_some _ _ _ _).mp hread
      have hspell := List.length_pos_iff.mpr ((cxFormat_lawful kind).spell_ne_nil _ _ hfits)
      split at h
      · cases h
      · cases h
        refine ⟨rfl, rfl, ?_⟩
        rw [List.length_append]
        show rest.length < _
        omega
  · cases src with
    | nil => cases h
    | cons literal src =>
      cases h
      exact ⟨rfl, rfl, Nat.lt_succ_self _⟩

/-- **The loop is the reader**, from any place in a group. -/
theorem cxLoop_eq {fuel fuel' k flags : Nat} {dst : List UInt8}
    (hsize : expanded + 0x11110 < 2 ^ 32) (hfuel : src.length < fuel)
    (hfuel' : src.length < fuel') :
    cxLoop kind expanded fuel ⟨flags, k, src, dst⟩ =
      (cxFormat kind).decode expanded fuel' (shiftBits flags k) src dst := by
  induction fuel generalizing fuel' k flags src dst with
  | zero => omega
  | succ fuel ih =>
    obtain ⟨fuel', rfl⟩ := Nat.exists_eq_succ_of_ne_zero (Nat.ne_of_gt (Nat.zero_lt_of_lt hfuel'))
    by_cases hfull : expanded ≤ dst.length
    · rw [Format.decode_full hfull]
      exact if_neg (Nat.not_lt.mpr hfull)
    · have hmore : dst.length < expanded := Nat.lt_of_not_le hfull
      -- an item whose flag is there, with fuel for what follows it
      have hitem {fuel' k flags : Nat} {rest : List UInt8} (hrest : rest.length ≤ fuel)
          (hfuel' : rest.length < fuel' + 1) :
          (match cxItem kind expanded ⟨flags, k + 1, rest, dst⟩ with
            | none => none
            | some s => cxLoop kind expanded fuel s) =
          (cxFormat kind).decode expanded (fuel' + 1) (shiftBits flags (k + 1)) rest dst := by
        rw [cxItem_eq hsize hmore]
        cases hs : cxItem kind expanded ⟨flags, k + 1, rest, dst⟩ with
        | none => rfl
        | some s =>
          obtain ⟨flags', left, src', dst'⟩ := s
          obtain ⟨rfl, rfl, hlen⟩ := cxItem_keeps hs
          dsimp only at hlen ⊢
          exact ih (by omega) (by omega)
      refine (if_pos hmore).trans ?_
      cases k with
      | zero =>
        show _ = (cxFormat kind).decode expanded (fuel' + 1) [] src dst
        rw [Format.decode_group hmore]
        cases src with
        | nil => rfl
        | cons group src =>
          rw [List.length_cons] at hfuel hfuel'
          obtain ⟨fuel', rfl⟩ := Nat.exists_eq_succ_of_ne_zero (n := fuel') (by omega)
          dsimp only
          rw [cxFormat_flags, ← shiftBits_eight _ group.toNat_lt]
          exact hitem (k := 7) (by omega) (by omega)
      | succ k => exact hitem (by omega) hfuel'

/-! ## headers -/

theorem CxIdentify_eq {data : List UInt8} (hkind : kind = .lz10 ∨ kind = .lz11) :
    CxIdentify data = kind ↔ 4 ≤ data.length ∧ byteAt data 0 = kind.byte.toNat := by
  unfold CxIdentify
  by_cases hlen : data.length < 4
  · rw [if_pos hlen]
    constructor
    · rintro rfl
      obtain h | h := hkind <;> cases h
    · intro h
      omega
  · rw [if_neg hlen]
    obtain rfl | rfl := hkind
    · show _ ↔ _ ∧ byteAt data 0 = 0x10
      split <;> simp_all
    · show _ ↔ _ ∧ byteAt data 0 = 0x11
      split <;> simp_all

theorem CxKind.not_none (hkind : kind = .lz10 ∨ kind = .lz11) : kind ≠ .none := by
  rintro rfl
  obtain h | h := hkind <;> cases h

theorem CxHeader.reads {n : Nat} {header : List UInt8}
    (h : CxHeader kind n header) (hkind : kind = .lz10 ∨ kind = .lz11) (hpos : 0 < n)
    (payload : List UInt8) :
    CxIdentify (header ++ payload) = kind ∧ CxExpandedSize (header ++ payload) = n ∧
      PayloadAt (header ++ payload) = header.length := by
  have hbyte (n : Nat) : (UInt8.ofNat n).toNat = n % 256 := UInt8.toNat_ofNat'
  have hidentify : CxIdentify (header ++ payload) = kind := by
    refine (CxIdentify_eq hkind).mpr ?_
    cases h with
    | short => exact ⟨Nat.le_add_left 4 _, rfl⟩
    | long => exact ⟨(by show 4 ≤ payload.length + 8; omega), rfl⟩
  unfold CxExpandedSize PayloadAt
  rw [hidentify, if_neg (CxKind.not_none hkind)]
  refine ⟨rfl, ?_⟩
  cases h with
  | short hn =>
    have hread : read24LE (kind.byte :: word24LE n ++ payload) 1 = n := by
      show (UInt8.ofNat n).toNat + (UInt8.ofNat (n / 2 ^ 8)).toNat * 256 +
        (UInt8.ofNat (n / 2 ^ 16)).toNat * 65536 = n
      rw [hbyte, hbyte, hbyte]
      omega
    rw [hread, if_pos (Nat.ne_of_gt hpos), if_neg (Nat.ne_of_gt hpos)]
    exact ⟨rfl, rfl⟩
  | long hn =>
    have hread : read24LE (kind.byte :: 0 :: 0 :: 0 :: word32LE n ++ payload) 1 = 0 := by
      show (0 : UInt8).toNat + (0 : UInt8).toNat * 256 + (0 : UInt8).toNat * 65536 = 0
      decide
    rw [hread, if_neg (fun h => h rfl), if_pos rfl]
    refine ⟨?_, rfl⟩
    rw [if_pos (by show 8 ≤ payload.length + 8; omega)]
    exact read32LE_word32LE hn rfl

theorem CxHeader.of_size (hkind : kind = .lz10 ∨ kind = .lz11)
    (hidentify : CxIdentify src = kind) (hpos : CxExpandedSize src ≠ 0) :
    ∃ header, CxHeader kind (CxExpandedSize src) header ∧
      src = header ++ src.drop (PayloadAt src) := by
  obtain ⟨hlen, hbyte⟩ := (CxIdentify_eq hkind).mp hidentify
  unfold CxExpandedSize at hpos ⊢
  rw [hidentify, if_neg (CxKind.not_none hkind)] at hpos ⊢
  match src, hlen with
  | a :: b :: c :: d :: rest, _ =>
    obtain rfl : a = kind.byte := UInt8.toNat_inj.mp hbyte
    have hb := b.toNat_lt
    have hc := c.toNat_lt
    have hd := d.toNat_lt
    have hread : read24LE (kind.byte :: b :: c :: d :: rest) 1 =
        b.toNat + c.toNat * 256 + d.toNat * 65536 := rfl
    unfold PayloadAt
    by_cases hsmall : read24LE (kind.byte :: b :: c :: d :: rest) 1 ≠ 0
    · rw [if_pos hsmall, if_neg hsmall]
      refine ⟨kind.byte :: word24LE _, .short (by omega), ?_⟩
      have hword : word24LE (b.toNat + c.toNat * 256 + d.toNat * 65536) = [b, c, d] := by
        simp only [word24LE, List.cons.injEq, ← UInt8.toNat_inj, UInt8.toNat_ofNat', and_true]
        omega
      rw [hread, hword]
      rfl
    · rw [if_neg hsmall] at hpos ⊢
      rw [Decidable.not_not.mp hsmall]
      rw [Decidable.not_not.mp hsmall] at hread
      split at hpos
      · next hlen =>
        match rest, hlen with
        | e :: f :: g :: h :: rest, hlen =>
          have he := e.toNat_lt
          have hf := f.toNat_lt
          have hg := g.toNat_lt
          have hh := h.toNat_lt
          have hread32 : read32LE (kind.byte :: b :: c :: d :: e :: f :: g :: h :: rest) 4 =
              e.toNat + f.toNat * 256 + g.toNat * 65536 + h.toNat * 16777216 := rfl
          rw [if_pos hlen, hread32]
          refine ⟨kind.byte :: 0 :: 0 :: 0 :: word32LE _, .long (by omega), ?_⟩
          obtain rfl : b = 0 := UInt8.toNat_inj.mp (show b.toNat = 0 by omega)
          obtain rfl : c = 0 := UInt8.toNat_inj.mp (show c.toNat = 0 by omega)
          obtain rfl : d = 0 := UInt8.toNat_inj.mp (show d.toNat = 0 by omega)
          have hword : word32LE (e.toNat + f.toNat * 256 + g.toNat * 65536 +
              h.toNat * 16777216) = [e, f, g, h] := by
            simp only [word32LE, List.cons.injEq, ← UInt8.toNat_inj, UInt8.toNat_ofNat', and_true]
            omega
          rw [hword]
          rfl
      · exact absurd rfl hpos

theorem CxDecompress_eq_some {out : List UInt8} {dst_size : Nat}
    (hsize : CxExpandedSize src + 0x11110 < 2 ^ 32) :
    CxDecompress src dst_size = some out ↔
      out.length ≤ dst_size ∧ ∃ kind tokens, CxFile kind tokens src out := by
  have hfuel : (src.drop (PayloadAt src)).length < src.length + 1 := by
    rw [List.length_drop]
    omega
  have hloop (kind : CxKind) : cxLoop kind (CxExpandedSize src) (src.length + 1)
      ⟨0, 0, src.drop (PayloadAt src), []⟩ =
      (cxFormat kind).decode (CxExpandedSize src) (src.length + 1) [] (src.drop (PayloadAt src))
        [] := cxLoop_eq (k := 0) hsize hfuel hfuel
  have hread (kind : CxKind) : (cxFormat kind).decode (CxExpandedSize src) (src.length + 1) []
      (src.drop (PayloadAt src)) [] = some out ↔ _ :=
    Format.decode_eq_some (cxFormat_lawful kind) hfuel (Nat.zero_le _)
  unfold CxDecompress
  dsimp only
  constructor
  · intro h
    split at h
    · cases h
    · next hkind =>
      have hkind' : CxIdentify src = .lz10 ∨ CxIdentify src = .lz11 := by
        by_cases hlz10 : CxIdentify src = .lz10
        · exact .inl hlz10
        · exact .inr (Decidable.not_not.mp fun h => hkind ⟨hlz10, h⟩)
      split at h
      · cases h
      · obtain ⟨tokens, hgrouped, hexpands, hlen⟩ := (hread _).mp ((hloop _).symm.trans h)
        obtain ⟨header, hheader, hsrc⟩ := CxHeader.of_size hkind' rfl (by omega)
        rw [← hlen] at hheader
        exact ⟨by omega, _, tokens, hkind', ⟨header, _, hheader, hsrc, hgrouped⟩, hexpands,
          by omega⟩
  · rintro ⟨hdst, kind, tokens, hkind, ⟨header, payload, hheader, hsrc, hgrouped⟩, hexpands, hpos⟩
    obtain ⟨hidentify, hexpanded, hpayload⟩ := hheader.reads hkind hpos payload
    rw [← hsrc] at hidentify hexpanded hpayload
    have hdrop : src.drop (PayloadAt src) = payload := by
      rw [hpayload, hsrc, List.drop_left]
    rw [hidentify, if_neg (by obtain rfl | rfl := hkind <;> simp), if_neg (by omega)]
    exact (hloop kind).trans
      ((hread kind).mpr ⟨tokens, hdrop ▸ hgrouped, hexpands, hexpanded.symm⟩)

/-- **The decoder expands exactly the streams.**  Every token sequence of a kind comes back from its
encoding under either header, whatever follows it; and what is written is always what the tokens of
the source come to, so that a source which is no stream of a size that fits is refused. -/
theorem CxDecompress_exact :
    (∀ (kind : CxKind) (tokens : List (Token UInt8)) (out header rest : List UInt8)
      (dst_size : Nat), kind = .lz10 ∨ kind = .lz11 →
      (∀ token ∈ tokens, (cxFormat kind).FitsToken token) → expand tokens [] = some out →
      0 < out.length → out.length + 0x11110 < 2 ^ 32 → CxHeader kind out.length header →
      out.length ≤ dst_size →
      CxDecompress (header ++ ((cxFormat kind).encode packFlags 8 tokens ++ rest)) dst_size =
        some out) ∧
    ∀ (src : List UInt8) (dst_size : Nat), CxExpandedSize src + 0x11110 < 2 ^ 32 →
      (∀ out, CxDecompress src dst_size = some out ↔
        out.length ≤ dst_size ∧ ∃ kind tokens, CxFile kind tokens src out) ∧
      (CxDecompress src dst_size = none ↔
        ∀ kind tokens out, CxFile kind tokens src out → dst_size < out.length) := by
  refine ⟨?_, fun src dst_size hsize => ⟨fun out => CxDecompress_eq_some hsize, ?_⟩⟩
  · intro kind tokens out header rest dst_size hkind hfits hexpands hpos hsize hheader hdst
    have hgrouped : (cxFormat kind).Grouped [] tokens
        ((cxFormat kind).encode packFlags 8 tokens ++ rest) :=
      Format.grouped_encode (by decide)
        (fun flags hflags => by
          rw [cxFormat_flags]
          exact maskBits_packFlags hflags)
        (fun b => by rw [cxFormat_flags, length_maskBits]) hfits rest
    have hfile : CxFile kind tokens (header ++ ((cxFormat kind).encode packFlags 8 tokens ++ rest))
        out := ⟨hkind, ⟨header, _, hheader, rfl, hgrouped⟩, hexpands, hpos⟩
    refine (CxDecompress_eq_some ?_).mpr ⟨hdst, kind, tokens, hfile⟩
    rw [(hheader.reads hkind hpos _).2.1]
    exact hsize
  · rw [Option.eq_none_iff_forall_ne_some]
    constructor
    · intro h kind tokens out hfile
      refine Nat.lt_of_not_le fun hdst => h out ?_
      exact (CxDecompress_eq_some hsize).mpr ⟨hdst, kind, tokens, hfile⟩
    · intro h out hout
      obtain ⟨hdst, kind, tokens, hfile⟩ := (CxDecompress_eq_some hsize).mp hout
      have := h kind tokens out hfile
      omega

/-- a run over itself in each kind, under each header; and a kind that is not expanded -/
theorem CxDecompress_exact_kinds :
    CxDecompress ((CxKind.lz10.byte :: word24LE 6) ++
      ((cxFormat .lz10).encode packFlags 8 [.literal 0x41, .copy 1 5] ++ [0xFF])) 6 =
        some [0x41, 0x41, 0x41, 0x41, 0x41, 0x41] ∧
      CxDecompress ((CxKind.lz11.byte :: 0 :: 0 :: 0 :: word32LE 6) ++
        ((cxFormat .lz11).encode packFlags 8 [.literal 0x41, .copy 1 5] ++ [])) 8 =
          some [0x41, 0x41, 0x41, 0x41, 0x41, 0x41] ∧
      CxDecompress [0x20, 1, 0, 0, 0, 0] 6 = none := by
  have hfits (kind : CxKind) (hkind : kind = .lz10 ∨ kind = .lz11) :
      ∀ token ∈ [Token.literal (0x41 : UInt8), .copy 1 5], (cxFormat kind).FitsToken token := by
    intro token hmem
    obtain rfl | rfl : token = .literal 0x41 ∨ token = .copy 1 5 := by simpa using hmem
    · trivial
    · obtain rfl | rfl := hkind
      · exact ⟨by decide, by decide, by decide, by decide⟩
      · exact ⟨by decide, by decide, by decide, by decide⟩
  refine ⟨?_, ?_, ?_⟩
  · exact CxDecompress_exact.1 .lz10 [.literal 0x41, .copy 1 5] [0x41, 0x41, 0x41, 0x41, 0x41, 0x41]
      (CxKind.lz10.byte :: word24LE 6) [0xFF] 6 (.inl rfl) (hfits _ (.inl rfl)) rfl (by decide)
      (by decide) (.short (by decide)) (Nat.le_refl 6)
  · exact CxDecompress_exact.1 .lz11 [.literal 0x41, .copy 1 5] [0x41, 0x41, 0x41, 0x41, 0x41, 0x41]
      (CxKind.lz11.byte :: 0 :: 0 :: 0 :: word32LE 6) [] 8 (.inr rfl) (hfits _ (.inr rfl)) rfl
      (by decide) (by decide) (.long (by decide)) (by decide)
  · refine ((CxDecompress_exact.2 [0x20, 1, 0, 0, 0, 0] 6 (by decide)).2).mpr ?_
    intro kind tokens out hfile
    obtain ⟨header, payload, hheader, hsrc, -⟩ := hfile.file
    have hkind := (hheader.reads hfile.kind_eq hfile.pos payload).1
    rw [← hsrc] at hkind
    obtain rfl | rfl := hfile.kind_eq <;> cases hkind

end DolTranslator.Archive
