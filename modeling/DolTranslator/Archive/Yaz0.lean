import DolTranslator.Archive.Window

/-!
# Yaz0, expanded

A header, then groups of eight codes, each a byte or a reference of two or three bytes.

* `Yaz0Decode`   the decoder; none where the code returns 0;
* `yaz0`   the format, `Yaz0File` a file of some tokens;
* `Yaz0Decode_exact`   the decoder expands every file, and refuses everything else.
-/

namespace DolTranslator.Archive

open Disc Lz Streams

/-! ## the decoder -/

def kYaz0HeaderSize : Nat := 16

/-- "Yaz0" -/
def kYaz0Magic : List UInt8 := [0x59, 0x61, 0x7A, 0x30]

def Yaz0ExpandedSize (data : List UInt8) : Nat :=
  if data.length < 8 ∨ data.take 4 ≠ kYaz0Magic then 0 else read32 data 4

def yaz0Count (reference : Nat) (src : List UInt8) : Option (Nat × List UInt8) :=
  if reference / 2 ^ 12 = 0 then
    match src with
    | [] => none
    | extra :: src => some (extra.toNat + 18, src)
  else some (reference / 2 ^ 12 + 2, src)

/-- `mask` is none of the bits when the flags of a group are used up -/
structure Yaz0State where
  mask : Nat
  flags : Nat
  src : List UInt8
  dst : List UInt8

def yaz0Group (s : Yaz0State) : Option Yaz0State :=
  if s.mask = 0 then
    match s.src with
    | [] => none
    | group :: src => some { s with mask := 0x80, flags := group.toNat, src := src }
  else some s

def yaz0Literal (s : Yaz0State) : Option Yaz0State :=
  match s.src with
  | [] => none
  | literal :: src => some { s with src := src, dst := s.dst ++ [literal] }

def yaz0Run (expanded : Nat) (s : Yaz0State) : Option Yaz0State :=
  match s.src with
  | high :: low :: src =>
    let reference := high.toNat * 256 + low.toNat
    let distance := reference % 2 ^ 12 + 1
    if distance > s.dst.length then none
    else
      match yaz0Count reference src with
      | none => none
      | some (count, src) =>
        if (s.dst.length + count) % 2 ^ 32 > expanded then none
        else
          some { s with
            src := src
            dst := copyForward (s.dst.length - distance) count s.dst }
  | _ => none

/-- one code; none for a stream that is refused -/
def yaz0Code (expanded : Nat) (s : Yaz0State) : Option Yaz0State :=
  match yaz0Group s with
  | none => none
  | some s =>
    (if s.flags &&& s.mask ≠ 0 then yaz0Literal s else yaz0Run expanded s).map
      fun s => { s with mask := s.mask >>> 1 }

def yaz0Loop (expanded : Nat) : Nat → Yaz0State → Option (List UInt8)
  | 0, _ => none
  | fuel + 1, s =>
    if s.dst.length < expanded then
      match yaz0Code expanded s with
      | none => none
      | some s => yaz0Loop expanded fuel s
    else some s.dst

/-- what is written, of which the code returns the length; none where it returns 0 -/
def Yaz0Decode (src : List UInt8) (dst_size : Nat) : Option (List UInt8) :=
  let expanded := Yaz0ExpandedSize src
  if expanded = 0 ∨ dst_size < expanded ∨ src.length < kYaz0HeaderSize then none
  else yaz0Loop expanded (src.length + 1) ⟨0, 0, src.drop kYaz0HeaderSize, []⟩

/-! ## the format -/

def spellYaz0 (distance length : Nat) : List UInt8 :=
  let low := UInt8.ofNat ((distance - 1) % 256)
  if length ≤ 17 then [UInt8.ofNat ((length - 2) * 16 + (distance - 1) / 256), low]
  else [UInt8.ofNat ((distance - 1) / 256), low, UInt8.ofNat (length - 18)]

def readYaz0 : List UInt8 → Option ((Nat × Nat) × List UInt8)
  | high :: low :: src =>
    let reference := high.toNat * 256 + low.toNat
    (yaz0Count reference src).map fun (count, src) => ((reference % 2 ^ 12 + 1, count), src)
  | _ => none

/-- eight codes to a group, the high flag first; a flag that is set is a byte -/
def yaz0 : Format UInt8 where
  flags group := (maskBits group.toNat 8).map (!·)
  Fits distance length := 1 ≤ distance ∧ distance ≤ 4096 ∧ 3 ≤ length ∧ length ≤ 273
  spell := spellYaz0
  read := readYaz0

def packYaz0 (copies : List Bool) : UInt8 := packFlags (copies.map (!·))

/-- a file of these tokens, with whatever after them -/
structure Yaz0File (tokens : List (Token UInt8)) (src out : List UInt8) : Prop where
  /-- the eight bytes after the size are not looked at -/
  file : ∃ padding payload, padding.length = 8 ∧
    src = kYaz0Magic ++ word32 out.length ++ padding ++ payload ∧ yaz0.Grouped [] tokens payload
  expands : expand tokens [] = some out
  pos : 0 < out.length
  lt : out.length < 2 ^ 32

theorem readYaz0_eq_some (src : List UInt8) (distance length : Nat) (rest : List UInt8) :
    readYaz0 src = some ((distance, length), rest) ↔
      yaz0.Fits distance length ∧ src = spellYaz0 distance length ++ rest := by
  constructor
  · intro h
    match src with
    | [] => cases h
    | [_] => cases h
    | high :: low :: src =>
      have hhigh := high.toNat_lt
      have hlow := low.toNat_lt
      unfold readYaz0 yaz0Count at h
      dsimp only at h
      split at h
      · match src with
        | [] => cases h
        | extra :: src =>
          have hextra := extra.toNat_lt
          cases h
          refine ⟨⟨by omega, by omega, by omega, by omega⟩, ?_⟩
          unfold spellYaz0
          dsimp only
          rw [if_neg (by omega)]
          show high :: low :: extra :: src = _ :: _ :: _ :: src
          congr 1
          · exact byte_eq (by omega)
          · congr 1
            · exact byte_eq (by omega)
            · congr 1
              exact byte_eq (by omega)
      · cases h
        refine ⟨⟨by omega, by omega, by omega, by omega⟩, ?_⟩
        unfold spellYaz0
        dsimp only
        rw [if_pos (by omega)]
        show high :: low :: src = _ :: _ :: src
        congr 1
        · exact byte_eq (by omega)
        · congr 1
          exact byte_eq (by omega)
  · rintro ⟨⟨hd1, hd2, hl1, hl2⟩, rfl⟩
    have hbyte (n : Nat) : (UInt8.ofNat n).toNat = n % 256 := UInt8.toNat_ofNat'
    unfold spellYaz0
    dsimp only
    split
    · next hshort =>
      show Option.map _ (yaz0Count _ rest) = _
      rw [hbyte, hbyte]
      unfold yaz0Count
      rw [if_neg (by omega)]
      simp only [Option.map_some, Option.some.injEq, Prod.mk.injEq, and_true]
      omega
    · next hlong =>
      show Option.map _ (yaz0Count _ (UInt8.ofNat (length - 18) :: rest)) = _
      rw [hbyte, hbyte]
      unfold yaz0Count
      rw [if_pos (by omega)]
      simp only [Option.map_some, Option.some.injEq, Prod.mk.injEq, and_true, hbyte]
      omega

theorem yaz0_lawful : yaz0.Lawful where
  flags_ne_nil b h := by
    have := congrArg List.length h
    simp [yaz0] at this
  read_eq_some := readYaz0_eq_some
  fits_pos distance length h := by
    have := h.2.2.1
    omega
  spell_ne_nil distance length _ := by
    show spellYaz0 distance length ≠ []
    unfold spellYaz0
    dsimp only
    split <;> exact List.cons_ne_nil _ _

theorem packYaz0_flags (copies : List Bool) (h : copies.length ≤ 8) :
    copies <+: yaz0.flags (packYaz0 copies) := by
  have hlen : (copies.map (!·)).length ≤ 8 := by
    rw [List.length_map]
    exact h
  obtain ⟨rest, hrest⟩ := maskBits_packFlags hlen
  refine ⟨rest.map (!·), ?_⟩
  show _ = (maskBits (packFlags (copies.map (!·))).toNat 8).map (!·)
  rw [← hrest, List.map_append, List.map_map]
  congr 1
  exact (List.map_id copies).symm.trans (List.map_congr_left fun c _ => (Bool.not_not c).symm)

/-! ## the decoder reads the format -/

theorem yaz0Count_le {reference count : Nat} {src rest : List UInt8}
    (hreference : reference < 2 ^ 16) (h : yaz0Count reference src = some (count, rest)) :
    count ≤ 273 := by
  unfold yaz0Count at h
  split at h
  · cases src with
    | nil => cases h
    | cons extra src =>
      have := extra.toNat_lt
      cases h
      omega
  · cases h
    omega

theorem yaz0Count_length {reference count : Nat} {src rest : List UInt8}
    (h : yaz0Count reference src = some (count, rest)) : rest.length ≤ src.length := by
  unfold yaz0Count at h
  split at h
  · cases src with
    | nil => cases h
    | cons extra src =>
      cases h
      exact Nat.le_succ _
  · cases h
    exact Nat.le_refl _

theorem yaz0Run_eq {expanded : Nat} (s : Yaz0State) (hsize : expanded + 273 < 2 ^ 32)
    (hmore : s.dst.length < expanded) :
    yaz0Run expanded s =
      match readYaz0 s.src with
      | none => none
      | some ((distance, length), src) =>
        if distance ≤ s.dst.length ∧ s.dst.length + length ≤ expanded then
          some { s with src := src, dst := copyBack distance length s.dst }
        else none := by
  unfold yaz0Run readYaz0
  split
  · next high low src hsrc =>
    have hhigh := high.toNat_lt
    have hlow := low.toNat_lt
    dsimp only
    cases hcount : yaz0Count (high.toNat * 256 + low.toNat) src with
    | none =>
      rw [Option.map_none]
      dsimp only
      split <;> rfl
    | some run =>
      obtain ⟨count, rest⟩ := run
      have hle := yaz0Count_le (by omega) hcount
      rw [Option.map_some]
      dsimp only
      by_cases hdistance : (high.toNat * 256 + low.toNat) % 2 ^ 12 + 1 ≤ s.dst.length
      · rw [if_neg (by omega), copyForward_eq count hdistance,
          Nat.mod_eq_of_lt (a := s.dst.length + count) (by omega)]
        by_cases hfits : s.dst.length + count ≤ expanded
        · rw [if_neg (by omega), if_pos ⟨hdistance, hfits⟩]
        · rw [if_pos (by omega), if_neg fun h => hfits h.2]
      · rw [if_pos (by omega), if_neg fun h => hdistance h.1]
  · rfl

theorem yaz0Code_eq {expanded k flags fuel : Nat} {src dst : List UInt8}
    (hsize : expanded + 273 < 2 ^ 32) (hmore : dst.length < expanded) :
    yaz0.decode expanded (fuel + 1) ((maskBits flags (k + 1)).map (!·)) src dst =
      match yaz0Code expanded ⟨2 ^ k, flags, src, dst⟩ with
      | none => none
      | some s => yaz0.decode expanded fuel ((maskBits flags k).map (!·)) s.src s.dst := by
  have hgroup : yaz0Group ⟨2 ^ k, flags, src, dst⟩ = some ⟨2 ^ k, flags, src, dst⟩ :=
    if_neg (Nat.ne_of_gt (Nat.two_pow_pos k))
  unfold yaz0Code
  rw [hgroup]
  dsimp only
  by_cases hflag : flags &&& 2 ^ k ≠ 0
  · have hbits : (maskBits flags (k + 1)).map (!·) = false :: (maskBits flags k).map (!·) := by
      rw [maskBits, decide_eq_true hflag]
      rfl
    rw [hbits, Format.decode_literal hmore, if_pos hflag]
    cases src <;> rfl
  · have hbits : (maskBits flags (k + 1)).map (!·) = true :: (maskBits flags k).map (!·) := by
      rw [maskBits, decide_eq_false hflag]
      rfl
    rw [hbits, Format.decode_copy hmore, if_neg hflag, yaz0Run_eq _ hsize hmore]
    have hread : yaz0.read src = readYaz0 src := rfl
    rw [hread]
    cases readYaz0 src with
    | none => rfl
    | some run =>
      dsimp only
      split <;> rfl

theorem yaz0Code_keeps {expanded k flags : Nat} {src dst : List UInt8} {s : Yaz0State}
    (h : yaz0Code expanded ⟨2 ^ k, flags, src, dst⟩ = some s) :
    s.mask = 2 ^ k / 2 ∧ s.flags = flags ∧ s.src.length < src.length := by
  have hgroup : yaz0Group ⟨2 ^ k, flags, src, dst⟩ = some ⟨2 ^ k, flags, src, dst⟩ :=
    if_neg (Nat.ne_of_gt (Nat.two_pow_pos k))
  unfold yaz0Code at h
  rw [hgroup] at h
  obtain ⟨s', hs', rfl⟩ := Option.map_eq_some_iff.mp h
  show s'.mask >>> 1 = _ ∧ s'.flags = flags ∧ s'.src.length < src.length
  rw [show s'.mask >>> 1 = s'.mask / 2 from Nat.shiftRight_eq_div_pow s'.mask 1]
  split at hs'
  · cases src with
    | nil => cases hs'
    | cons b src =>
      cases hs'
      exact ⟨rfl, rfl, Nat.lt_succ_self _⟩
  · match src with
    | [] => cases hs'
    | [_] => cases hs'
    | high :: low :: src =>
      unfold yaz0Run at hs'
      dsimp only at hs'
      split at hs'
      · cases hs'
      · split at hs'
        · cases hs'
        · next count rest hcount =>
          split at hs'
          · cases hs'
          · cases hs'
            refine ⟨rfl, rfl, ?_⟩
            show rest.length < src.length + 1 + 1
            have := yaz0Count_length hcount
            omega

/-- **The loop is the reader**, from any place in a group. -/
theorem yaz0Loop_eq {expanded fuel fuel' k flags : Nat} {src dst : List UInt8}
    (hsize : expanded + 273 < 2 ^ 32) (hk : k ≤ 8) (hfuel : src.length < fuel)
    (hfuel' : src.length < fuel') :
    yaz0Loop expanded fuel ⟨2 ^ k / 2, flags, src, dst⟩ =
      yaz0.decode expanded fuel' ((maskBits flags k).map (!·)) src dst := by
  induction fuel generalizing fuel' k flags src dst with
  | zero => omega
  | succ fuel ih =>
    obtain ⟨fuel', rfl⟩ := Nat.exists_eq_succ_of_ne_zero (Nat.ne_of_gt (Nat.zero_lt_of_lt hfuel'))
    by_cases hfull : expanded ≤ dst.length
    · rw [Format.decode_full hfull]
      exact if_neg (Nat.not_lt.mpr hfull)
    · have hmore : dst.length < expanded := Nat.lt_of_not_le hfull
      -- a code whose flag is there, with fuel for what follows it
      have hcode {fuel' k flags : Nat} {rest : List UInt8} (hk : k < 8) (hrest : rest.length ≤ fuel)
          (hfuel' : rest.length < fuel' + 1) :
          (match yaz0Code expanded ⟨2 ^ k, flags, rest, dst⟩ with
            | none => none
            | some s => yaz0Loop expanded fuel s) =
          yaz0.decode expanded (fuel' + 1) ((maskBits flags (k + 1)).map (!·)) rest dst := by
        rw [yaz0Code_eq hsize hmore]
        cases hs : yaz0Code expanded ⟨2 ^ k, flags, rest, dst⟩ with
        | none => rfl
        | some s =>
          obtain ⟨mask, flags', src', dst'⟩ := s
          obtain ⟨rfl, rfl, hlen⟩ := yaz0Code_keeps hs
          dsimp only at hlen ⊢
          exact ih (by omega) (by omega) (by omega)
      refine (if_pos hmore).trans ?_
      cases k with
      | zero =>
        show _ = yaz0.decode expanded (fuel' + 1) [] src dst
        rw [Format.decode_group hmore]
        cases src with
        | nil => rfl
        | cons group src =>
          rw [List.length_cons] at hfuel hfuel'
          obtain ⟨fuel', rfl⟩ := Nat.exists_eq_succ_of_ne_zero (n := fuel') (by omega)
          exact hcode (k := 7) (by omega) (by omega) (by omega)
      | succ k =>
        rw [show 2 ^ (k + 1) / 2 = 2 ^ k by rw [Nat.pow_succ]; omega]
        exact hcode hk (by omega) hfuel'

theorem Yaz0File.expandedSize {tokens : List (Token UInt8)} {src out : List UInt8}
    (h : Yaz0File tokens src out) :
    Yaz0ExpandedSize src = out.length ∧ kYaz0HeaderSize ≤ src.length ∧
      yaz0.Grouped [] tokens (src.drop kYaz0HeaderSize) := by
  obtain ⟨padding, payload, hpadding, rfl, hgrouped⟩ := h.file
  have hlen : (kYaz0Magic ++ word32 out.length ++ padding).length = kYaz0HeaderSize := by
    rw [List.length_append, hpadding]
    rfl
  refine ⟨?_, ?_, ?_⟩
  · unfold Yaz0ExpandedSize
    rw [if_neg, read32_word32 h.lt]
    · rw [List.append_assoc, List.append_assoc]
      rfl
    · rintro (hshort | hmagic)
      · rw [List.length_append, hlen] at hshort
        change 16 + payload.length < 8 at hshort
        omega
      · rw [List.append_assoc, List.append_assoc] at hmagic
        exact hmagic rfl
  · rw [List.length_append, hlen]
    exact Nat.le_add_right _ _
  · rw [List.drop_append_of_le_length (Nat.le_of_eq hlen.symm), ← hlen, List.drop_length]
    exact hgrouped

theorem Yaz0File.of_header {tokens : List (Token UInt8)} {src out : List UInt8}
    (hsize : Yaz0ExpandedSize src = out.length) (hpos : 0 < out.length)
    (hlen : kYaz0HeaderSize ≤ src.length)
    (hgrouped : yaz0.Grouped [] tokens (src.drop kYaz0HeaderSize))
    (hexpands : expand tokens [] = some out) : Yaz0File tokens src out := by
  change 16 ≤ src.length at hlen
  unfold Yaz0ExpandedSize at hsize
  split at hsize
  · omega
  · next hmagic =>
    have htake : src.take 4 = kYaz0Magic := Decidable.not_not.mp fun h => hmagic (.inr h)
    refine ⟨⟨slice src 8 8, src.drop kYaz0HeaderSize, length_slice (by omega), ?_, hgrouped⟩,
      hexpands, hpos, ?_⟩
    · rw [← hsize, word32_read32 (by omega), ← htake]
      show src = src.take 4 ++ (src.drop 4).take 4 ++ (src.drop 8).take 8 ++ src.drop 16
      rw [← List.take_add, ← List.take_add, List.take_append_drop]
    · rw [← hsize]
      exact read32_lt src 4

theorem Yaz0Decode_eq_some {src out : List UInt8} {dst_size : Nat}
    (hsize : Yaz0ExpandedSize src + 273 < 2 ^ 32) :
    Yaz0Decode src dst_size = some out ↔
      out.length ≤ dst_size ∧ ∃ tokens, Yaz0File tokens src out := by
  have hfuel : (src.drop kYaz0HeaderSize).length < src.length + 1 := by
    rw [List.length_drop]
    omega
  have hloop : yaz0Loop (Yaz0ExpandedSize src) (src.length + 1)
      ⟨0, 0, src.drop kYaz0HeaderSize, []⟩ =
      yaz0.decode (Yaz0ExpandedSize src) (src.length + 1) [] (src.drop kYaz0HeaderSize) [] :=
    yaz0Loop_eq (k := 0) hsize (by decide) hfuel hfuel
  have hread : yaz0.decode (Yaz0ExpandedSize src) (src.length + 1) []
      (src.drop kYaz0HeaderSize) [] = some out ↔ _ :=
    Format.decode_eq_some yaz0_lawful hfuel (Nat.zero_le _)
  unfold Yaz0Decode
  dsimp only
  constructor
  · intro h
    split at h
    · cases h
    · next hheader =>
      obtain ⟨tokens, hgrouped, hexpands, hlen⟩ := hread.mp (hloop.symm.trans h)
      exact ⟨by omega, tokens, .of_header hlen.symm (by omega) (by omega) hgrouped hexpands⟩
  · rintro ⟨hdst, tokens, hfile⟩
    obtain ⟨hexpanded, hlen, hgrouped⟩ := hfile.expandedSize
    have hpos := hfile.pos
    rw [if_neg (by omega)]
    exact hloop.trans (hread.mpr ⟨tokens, hgrouped, hfile.expands, hexpanded.symm⟩)

/-- **The decoder expands exactly the files.**  Every token sequence of the format comes back from
its encoding, whatever follows it; and what is written is always what the tokens of the source come
to, so that a source which is no file of a size that fits is refused. -/
theorem Yaz0Decode_exact :
    (∀ (tokens : List (Token UInt8)) (out padding rest : List UInt8) (dst_size : Nat),
      (∀ token ∈ tokens, yaz0.FitsToken token) → expand tokens [] = some out → 0 < out.length →
      out.length + 273 < 2 ^ 32 → padding.length = 8 → out.length ≤ dst_size →
      Yaz0Decode (kYaz0Magic ++ word32 out.length ++ padding ++
        (yaz0.encode packYaz0 8 tokens ++ rest)) dst_size = some out) ∧
    ∀ (src : List UInt8) (dst_size : Nat), Yaz0ExpandedSize src + 273 < 2 ^ 32 →
      (∀ out, Yaz0Decode src dst_size = some out ↔
        out.length ≤ dst_size ∧ ∃ tokens, Yaz0File tokens src out) ∧
      (Yaz0Decode src dst_size = none ↔
        ∀ tokens out, Yaz0File tokens src out → dst_size < out.length) := by
  refine ⟨?_, fun src dst_size hsize => ⟨fun out => Yaz0Decode_eq_some hsize, ?_⟩⟩
  · intro tokens out padding rest dst_size hfits hexpands hpos hsize hpadding hdst
    have hgrouped : yaz0.Grouped [] tokens (yaz0.encode packYaz0 8 tokens ++ rest) :=
      Format.grouped_encode (by decide) packYaz0_flags
        (fun b => by
          show ((maskBits b.toNat 8).map (!·)).length = 8
          rw [List.length_map, length_maskBits]) hfits rest
    have hfile : Yaz0File tokens (kYaz0Magic ++ word32 out.length ++ padding ++
        (yaz0.encode packYaz0 8 tokens ++ rest)) out :=
      ⟨⟨padding, _, hpadding, rfl, hgrouped⟩, hexpands, hpos, by omega⟩
    refine (Yaz0Decode_eq_some ?_).mpr ⟨hdst, tokens, hfile⟩
    rw [hfile.expandedSize.1]
    exact hsize
  · rw [Option.eq_none_iff_forall_ne_some]
    constructor
    · intro h tokens out hfile
      refine Nat.lt_of_not_le fun hdst => h out ?_
      exact (Yaz0Decode_eq_some hsize).mpr ⟨hdst, tokens, hfile⟩
    · intro h out hout
      obtain ⟨hdst, tokens, hfile⟩ := (Yaz0Decode_eq_some hsize).mp hout
      have := h tokens out hfile
      omega

/-- a byte, a run over itself, and bytes after the stream; and a file that is cut off -/
theorem Yaz0Decode_exact_overlap :
    Yaz0Decode (kYaz0Magic ++ word32 [0x41, 0x41, 0x41, 0x41, 0x41, 0x41].length ++
      List.replicate 8 0 ++ (yaz0.encode packYaz0 8 [.literal 0x41, .copy 1 5] ++ [0xFF])) 6 =
        some [0x41, 0x41, 0x41, 0x41, 0x41, 0x41] ∧
      Yaz0Decode [0x59, 0x61, 0x7A, 0x30] 6 = none := by
  constructor
  · refine Yaz0Decode_exact.1 [.literal 0x41, .copy 1 5] [0x41, 0x41, 0x41, 0x41, 0x41, 0x41]
      (List.replicate 8 0) [0xFF] 6 ?_ rfl (by decide) (by decide) rfl (Nat.le_refl 6)
    intro token hmem
    obtain rfl | rfl : token = .literal 0x41 ∨ token = .copy 1 5 := by simpa using hmem
    · trivial
    · exact ⟨by decide, by decide, by decide, by decide⟩
  · refine ((Yaz0Decode_exact.2 [0x59, 0x61, 0x7A, 0x30] 6 (by decide)).2).mpr ?_
    intro tokens out hfile
    have hlen : 16 ≤ 4 := hfile.expandedSize.2.1
    omega

end DolTranslator.Archive
