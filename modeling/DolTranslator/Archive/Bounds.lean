import DolTranslator.Archive.Yaz0
import DolTranslator.Archive.Cx
import DolTranslator.Lz.Limits

/-!
# Where the sliding-window readers read and write

The decoders of `Yaz0` and `Cx` over positions of 32 bits and a buffer, with each access checked: a
read is in the source, and a write below the size that the source declares.

* `Yaz0Expand`, `CxExpand`   the decoders;
* `yaz0ExpandLoop_eq`, `cxExpandLoop_eq`   they are the reader of their format, up to 2^32;
* `Yaz0Expand_safe_iff`, `CxExpand_safe_iff`   they write outside exactly on the sources that
  overrun, and always end.
-/

namespace DolTranslator.Archive

open Disc Lz Streams

/-! ## reading and writing -/

structure Progress where
  read : Nat
  written : Nat
  dst : List UInt8

variable (src : List UInt8) (expanded : Nat)

/-- `next`, of which every caller gives up where it has no byte -/
def nextByte (p : Progress) : Checked (UInt8 × Progress) := do
  require (p.read < src.length)
  within src.length p.read 1
  return (src.getD p.read 0, { p with read := p.read + 1 })

/-- `dst[written++]` -/
def writeByte (b : UInt8) (p : Progress) : Checked Progress := do
  within expanded p.written 1
  return { p with written := (p.written + 1) % 2 ^ 32, dst := p.dst.set p.written b }

def writeRun : Nat → Nat → Progress → Checked Progress
  | 0, _, p => .ok p
  | count + 1, source, p => do
    within p.dst.length source 1
    let p ← writeByte expanded (p.dst.getD source 0) p
    writeRun count ((source + 1) % 2 ^ 32) p

/-! ## Yaz0 -/

def yaz0RunCount (reference : Nat) (p : Progress) : Checked (Nat × Progress) :=
  if reference / 2 ^ 12 = 0 then do
    let (extra, p) ← nextByte src p
    return (extra.toNat + 18, p)
  else return (reference / 2 ^ 12 + 2, p)

def yaz0RunAt (p : Progress) : Checked Progress := do
  let (high, p) ← nextByte src p
  let (low, p) ← nextByte src p
  let reference := high.toNat * 256 + low.toNat
  let distance := reference % 2 ^ 12 + 1
  require (distance ≤ p.written)
  let (count, p) ← yaz0RunCount src reference p
  require ((p.written + count) % 2 ^ 32 ≤ expanded)
  writeRun expanded count (p.written - distance) p

def yaz0GroupAt (mask flags : Nat) (p : Progress) : Checked (Nat × Nat × Progress) :=
  if mask = 0 then do
    let (group, p) ← nextByte src p
    return (0x80, group.toNat, p)
  else return (mask, flags, p)

def yaz0CodeAt (mask flags : Nat) (p : Progress) : Checked Progress :=
  if flags &&& mask ≠ 0 then do
    let (literal, p) ← nextByte src p
    writeByte expanded literal p
  else yaz0RunAt src expanded p

def yaz0ExpandLoop : Nat → Nat → Nat → Progress → Checked Progress
  | 0, _, _, _ => .error .unfinished
  | fuel + 1, mask, flags, p =>
    if p.written < expanded then do
      let (mask, flags, p) ← yaz0GroupAt src mask flags p
      let p ← yaz0CodeAt src expanded mask flags p
      yaz0ExpandLoop fuel (mask >>> 1) flags p
    else .ok p

/-- `Yaz0ExpandedSize` -/
def yaz0SizeAt : Checked Nat :=
  if src.length < 8 then .ok 0
  else do
    within src.length 0 4
    if src.take 4 ≠ kYaz0Magic then return 0
    else
      within src.length 4 4
      return read32 src 4

/-- `Yaz0Decode` into a buffer; the bytes that were written -/
def Yaz0Expand (dst : List UInt8) : Checked (List UInt8) := do
  let expanded ← yaz0SizeAt src
  require (expanded ≠ 0 ∧ expanded ≤ dst.length ∧ kYaz0HeaderSize ≤ src.length)
  let p ← yaz0ExpandLoop src expanded (src.length + 1) 0 0 ⟨kYaz0HeaderSize, 0, dst⟩
  return p.dst.take p.written

/-! ## CX -/

def lz10ReferenceAt (p : Progress) : Checked ((Nat × Nat) × Progress) := do
  let (first, p) ← nextByte src p
  let (second, p) ← nextByte src p
  return ((first.toNat % 16 * 256 + second.toNat + 1, first.toNat / 16 + 3), p)

def lz11ReferenceAt (p : Progress) : Checked ((Nat × Nat) × Progress) := do
  let (first, p) ← nextByte src p
  let indicator := first.toNat / 16
  let (second, p) ← nextByte src p
  if indicator = 0 then
    let (third, p) ← nextByte src p
    return ((second.toNat % 16 * 256 + third.toNat + 1,
      first.toNat * 16 + second.toNat / 16 + 0x11), p)
  else if indicator = 1 then
    let (third, p) ← nextByte src p
    let (fourth, p) ← nextByte src p
    return ((third.toNat % 16 * 256 + fourth.toNat + 1,
      first.toNat % 16 * 4096 + second.toNat * 16 + third.toNat / 16 + 0x111), p)
  else return ((first.toNat % 16 * 256 + second.toNat + 1, indicator + 1), p)

def cxReferenceAt (kind : CxKind) (p : Progress) : Checked ((Nat × Nat) × Progress) :=
  if kind = .lz10 then lz10ReferenceAt src p else lz11ReferenceAt src p

def cxGroupAt (flags left : Nat) (p : Progress) : Checked (Nat × Nat × Progress) :=
  if left = 0 then do
    let (group, p) ← nextByte src p
    return (group.toNat, 8, p)
  else return (flags, left, p)

def cxItemAt (kind : CxKind) (flags : Nat) (p : Progress) : Checked Progress :=
  if flags &&& 0x80 ≠ 0 then do
    let ((distance, length), p) ← cxReferenceAt src kind p
    require (distance ≤ p.written ∧ (p.written + length) % 2 ^ 32 ≤ expanded)
    writeRun expanded length (p.written - distance) p
  else do
    let (literal, p) ← nextByte src p
    writeByte expanded literal p

def cxExpandLoop (kind : CxKind) : Nat → Nat → Nat → Progress → Checked Progress
  | 0, _, _, _ => .error .unfinished
  | fuel + 1, flags, left, p =>
    if p.written < expanded then do
      let (flags, left, p) ← cxGroupAt src flags left p
      let p ← cxItemAt src expanded kind flags p
      cxExpandLoop kind fuel ((flags <<< 1) &&& 0xFF) (left - 1) p
    else .ok p

/-- `CxIdentify` -/
def cxIdentifyAt : Checked CxKind :=
  if src.length < 4 then .ok .none
  else do
    within src.length 0 1
    return CxIdentify src

/-- `CxExpandedSize` -/
def cxSizeAt : Checked Nat := do
  let kind ← cxIdentifyAt src
  if kind = .none then return 0
  else
    within src.length 1 3
    if read24LE src 1 ≠ 0 then return read24LE src 1
    else if 8 ≤ src.length then
      within src.length 4 4
      return read32LE src 4
    else return 0

/-- `CxDecompress` into a buffer; the bytes that were written -/
def CxExpand (dst : List UInt8) : Checked (List UInt8) := do
  let kind ← cxIdentifyAt src
  require (kind = .lz10 ∨ kind = .lz11)
  let expanded ← cxSizeAt src
  require (expanded ≠ 0 ∧ expanded ≤ dst.length)
  within src.length 1 3
  let p ← cxExpandLoop src expanded kind (src.length + 1) 0 0 ⟨PayloadAt src, 0, dst⟩
  return p.dst.take p.written

/-! ## what a state stands for -/

/-- the bytes that are left of the source, and those that were written -/
structure Shows (p : Progress) (rest out : List UInt8) : Prop where
  read : src.drop p.read = rest
  written : p.written = out.length
  output : p.dst.take p.written = out
  le : out.length ≤ expanded
  room : expanded ≤ p.dst.length
  small : expanded < 2 ^ 32

variable {src expanded} {p : Progress} {rest out : List UInt8} {b : UInt8}

theorem nextByte_nil (h : Shows src expanded p [] out) :
    nextByte src p = .error .refused := by
  have hle : src.length ≤ p.read := List.drop_eq_nil_iff.mp h.read
  unfold nextByte
  rw [require_neg (Nat.not_lt.mpr hle), error_bind]

theorem nextByte_cons (h : Shows src expanded p (b :: rest) out) :
    ∃ p', nextByte src p = .ok (b, p') ∧ Shows src expanded p' rest out := by
  have hlt : p.read < src.length := by
    by_contra hnot
    have hnil := List.drop_eq_nil_of_le (Nat.not_lt.mp hnot)
    rw [h.read] at hnil
    cases hnil
  have hcons := List.drop_eq_getElem_cons hlt
  rw [h.read] at hcons
  obtain ⟨hb, hrest⟩ := List.cons.inj hcons
  refine ⟨{ p with read := p.read + 1 }, ?_, ⟨hrest.symm, h.2, h.3, h.4, h.5, h.6⟩⟩
  unfold nextByte
  rw [require_pos hlt, ok_bind, within_of_le hlt, ok_bind, List.getD_eq_getElem _ _ hlt, ← hb]
  rfl

theorem writeByte_of_lt (h : Shows src expanded p rest out) (hlt : out.length < expanded) :
    ∃ p', writeByte expanded b p = .ok p' ∧ Shows src expanded p' rest (out ++ [b]) ∧
      p'.dst.length = p.dst.length := by
  have hwritten := h.written
  have hroom := h.room
  have hsmall := h.small
  refine ⟨{ p with written := (p.written + 1) % 2 ^ 32, dst := p.dst.set p.written b }, ?_, ?_, ?_⟩
  · unfold writeByte
    rw [within_of_le (by omega), ok_bind]
    rfl
  · have hnext : (p.written + 1) % 2 ^ 32 = p.written + 1 := Nat.mod_eq_of_lt (by omega)
    refine ⟨h.read, ?_, ?_, ?_, ?_, h.small⟩
    · show (p.written + 1) % 2 ^ 32 = _
      rw [hnext, List.length_append, List.length_singleton, hwritten]
    · show (p.dst.set p.written b).take ((p.written + 1) % 2 ^ 32) = _
      rw [hnext, List.take_succ_eq_append_getElem (by rw [List.length_set]; omega),
        List.getElem_set_self, List.take_set_of_le (Nat.le_refl _), h.output]
    · rw [List.length_append, List.length_singleton]
      exact hlt
    · show expanded ≤ (p.dst.set p.written b).length
      rw [List.length_set]
      exact hroom
  · exact List.length_set

theorem writeByte_of_full (h : Shows src expanded p rest out) (hfull : out.length = expanded) :
    writeByte expanded b p = .error .outside := by
  have hwritten := h.written
  unfold writeByte
  rw [within_of_lt (by decide) (by omega), error_bind]

theorem getD_dst (h : Shows src expanded p rest out) {i : Nat} (hi : i < out.length) :
    p.dst.getD i 0 = out.getD i 0 := by
  conv_rhs => rw [← h.output, h.written]
  rw [List.getD_eq_getElem?_getD, List.getD_eq_getElem?_getD, List.getElem?_take_of_lt hi]

variable {distance : Nat}

theorem writeRun_succ (hpos : 0 < distance) (count : Nat) {p : Progress}
    {out : List UInt8} (h : Shows src expanded p rest out) (hdistance : distance ≤ out.length)
    (hmore : out.length < expanded) :
    ∃ p', Shows src expanded p' rest (out ++ [out.getD (out.length - distance) 0]) ∧
      writeRun expanded (count + 1) (out.length - distance) p =
        writeRun expanded count
          ((out ++ [out.getD (out.length - distance) 0]).length - distance) p' := by
  have hroom := h.room
  have hsmall := h.small
  have hsource : out.length - distance < out.length := by omega
  obtain ⟨p', hp', hshows, hlength⟩ :=
    writeByte_of_lt (b := out.getD (out.length - distance) 0) h hmore
  have hlen : (out ++ [out.getD (out.length - distance) 0]).length = out.length + 1 := by
    rw [List.length_append, List.length_singleton]
  refine ⟨p', hshows, ?_⟩
  rw [writeRun, within_of_le (by omega), ok_bind, getD_dst h hsource, hp', ok_bind,
    Nat.mod_eq_of_lt (a := out.length - distance + 1) (by omega),
    show out.length - distance + 1 =
      (out ++ [out.getD (out.length - distance) 0]).length - distance by omega]

theorem writeRun_of_le (hpos : 0 < distance) (count : Nat) {p : Progress}
    {out : List UInt8} (h : Shows src expanded p rest out) (hdistance : distance ≤ out.length)
    (hle : out.length + count ≤ expanded) :
    ∃ p', writeRun expanded count (out.length - distance) p = .ok p' ∧
      Shows src expanded p' rest (copyBack distance count out) := by
  induction count generalizing p out with
  | zero => exact ⟨p, rfl, h⟩
  | succ count ih =>
    obtain ⟨p', hshows, hstep⟩ := writeRun_succ hpos count h hdistance (by omega)
    have hlen : (out ++ [out.getD (out.length - distance) 0]).length = out.length + 1 :=
      List.length_append
    rw [hstep]
    exact ih hshows (by omega) (by omega)

theorem writeRun_of_lt (hpos : 0 < distance) (count : Nat) {p : Progress}
    {out : List UInt8} (h : Shows src expanded p rest out) (hdistance : distance ≤ out.length)
    (hlt : expanded < out.length + count) :
    writeRun expanded count (out.length - distance) p = .error .outside := by
  induction count generalizing p out with
  | zero =>
    have := h.le
    omega
  | succ count ih =>
    have hroom := h.room
    rcases Nat.eq_or_lt_of_le h.le with hfull | hmore
    · rw [writeRun, within_of_le (by omega), ok_bind, writeByte_of_full h hfull, error_bind]
    · obtain ⟨p', hshows, hstep⟩ := writeRun_succ hpos count h hdistance hmore
      have hlen : (out ++ [out.getD (out.length - distance) 0]).length = out.length + 1 :=
        List.length_append
      rw [hstep]
      exact ih hshows (by omega) (by omega)

/-! ## a run -/

/-- what becomes of a reference that was read, which is what the reader of the format does -/
def afterRun (expanded distance length : Nat) (rest out : List UInt8) :
    Checked (List UInt8 × List UInt8) :=
  if distance ≤ out.length then
    if 2 ^ 32 ≤ out.length + length then .error .outside
    else if out.length + length ≤ expanded then .ok (rest, copyBack distance length out)
    else .error .refused
  else .error .refused

/-- a run of the code is one of the reader, with a state that shows what is then left and written -/
def Follows (src : List UInt8) (expanded : Nat) (x : Checked Progress)
    (y : Checked (List UInt8 × List UInt8)) : Prop :=
  match y with
  | .ok (rest, out) => ∃ p, x = .ok p ∧ Shows src expanded p rest out
  | .error stop => x = .error stop

theorem follows_run {length : Nat} (hpos : 0 < distance)
    (h : Shows src expanded p rest out) (hmore : out.length < expanded)
    (hlength : length ≤ 2 ^ 31) :
    Follows src expanded
      (require (distance ≤ p.written) >>= fun _ =>
        require ((p.written + length) % 2 ^ 32 ≤ expanded) >>= fun _ =>
          writeRun expanded length (p.written - distance) p)
      (afterRun expanded distance length rest out) := by
  have hsmall := h.small
  unfold afterRun
  rw [h.written]
  by_cases hdistance : distance ≤ out.length
  · rw [require_pos hdistance, ok_bind, if_pos hdistance]
    by_cases hlimit : 2 ^ 32 ≤ out.length + length
    · rw [if_pos hlimit, require_pos (by omega), ok_bind]
      exact writeRun_of_lt hpos length h hdistance (by omega)
    · rw [if_neg hlimit, Nat.mod_eq_of_lt (Nat.lt_of_not_le hlimit)]
      by_cases hle : out.length + length ≤ expanded
      · rw [if_pos hle, require_pos hle, ok_bind]
        exact writeRun_of_le hpos length h hdistance hle
      · rw [if_neg hle, require_neg hle, error_bind]
        rfl
  · rw [if_neg hdistance, require_neg hdistance, error_bind]
    rfl

/-- a code of the reader, by its flag -/
def readCode (f : Format UInt8) (expanded : Nat) (flag : Bool) (rest out : List UInt8) :
    Checked (List UInt8 × List UInt8) :=
  if flag then
    match f.read rest with
    | none => .error .refused
    | some ((distance, length), rest) => afterRun expanded distance length rest out
  else
    match rest with
    | [] => .error .refused
    | b :: rest => .ok (rest, out ++ [b])

variable {f : Format UInt8} {fuel : Nat}

theorem decodeWithin_code {flag : Bool} {flags : List Bool}
    (hmore : out.length < expanded) :
    f.decodeWithin (2 ^ 32) expanded (fuel + 1) (flag :: flags) rest out =
      (readCode f expanded flag rest out >>= fun (rest, out) =>
        f.decodeWithin (2 ^ 32) expanded fuel flags rest out) := by
  show (if expanded ≤ out.length then _ else _) = _
  rw [if_neg (Nat.not_le.mpr hmore)]
  cases flag with
  | false => cases rest <;> rfl
  | true =>
    unfold readCode
    rw [if_pos rfl]
    dsimp only
    cases f.read rest with
    | none => rfl
    | some run =>
      unfold afterRun
      dsimp only
      split
      · split
        · rfl
        · split <;> rfl
      · rfl

theorem decodeWithin_group (hmore : out.length < expanded) :
    f.decodeWithin (2 ^ 32) expanded (fuel + 1) [] rest out =
      match rest with
      | [] => .error .refused
      | b :: rest => f.decodeWithin (2 ^ 32) expanded fuel (f.flags b) rest out := by
  cases rest <;> exact if_neg (Nat.not_le.mpr hmore)

theorem readCode_length (hf : f.Lawful) {flag : Bool}
    {rest' out' : List UInt8} (h : readCode f expanded flag rest out = .ok (rest', out')) :
    rest'.length < rest.length := by
  unfold readCode at h
  split at h
  · split at h
    · cases h
    · next distance length rest1 hread =>
      obtain ⟨hfits, rfl⟩ := (hf.read_eq_some _ _ _ _).mp hread
      have hspell := List.length_pos_iff.mpr (hf.spell_ne_nil _ _ hfits)
      unfold afterRun at h
      split at h
      · split at h
        · cases h
        · split at h
          · cases h
            rw [List.length_append]
            omega
          · cases h
      · cases h
  · split at h
    · cases h
    · cases h
      exact Nat.lt_succ_self _

theorem follows_bind {β : Type} {x : Checked Progress} {y : Checked (List UInt8 × List UInt8)}
    {k : Progress → Checked β} {k' : List UInt8 × List UInt8 → Checked β}
    (h : Follows src expanded x y)
    (hk : ∀ p rest out, y = .ok (rest, out) → Shows src expanded p rest out →
      k p = k' (rest, out)) : x >>= k = y >>= k' := by
  cases y with
  | error stop =>
    obtain rfl : x = .error stop := h
    rfl
  | ok shown =>
    obtain ⟨p, rfl, hp⟩ := h
    exact hk p shown.1 shown.2 rfl hp

/-! ## Yaz0 -/

theorem yaz0RunAt_follows (h : Shows src expanded p rest out) (hmore : out.length < expanded) :
    Follows src expanded (yaz0RunAt src expanded p)
      (match readYaz0 rest with
      | none => .error .refused
      | some ((distance, length), rest) => afterRun expanded distance length rest out) := by
  unfold yaz0RunAt
  match rest with
  | [] =>
    rw [nextByte_nil h, error_bind]
    rfl
  | [high] =>
    obtain ⟨p1, hp1, h1⟩ := nextByte_cons h
    rw [hp1, ok_bind]
    dsimp only
    rw [nextByte_nil h1, error_bind]
    rfl
  | high :: low :: rest =>
    obtain ⟨p1, hp1, h1⟩ := nextByte_cons h
    obtain ⟨p2, hp2, h2⟩ := nextByte_cons h1
    have hhigh := high.toNat_lt
    have hlow := low.toNat_lt
    rw [hp1, ok_bind]
    dsimp only
    rw [hp2, ok_bind]
    dsimp only
    unfold readYaz0 yaz0Count yaz0RunCount
    dsimp only
    by_cases hlong : (high.toNat * 256 + low.toNat) / 2 ^ 12 = 0
    · rw [if_pos hlong, if_pos hlong]
      match rest with
      | [] =>
        show Follows src expanded _ (.error .refused)
        by_cases hdistance : (high.toNat * 256 + low.toNat) % 2 ^ 12 + 1 ≤ p2.written
        · rw [require_pos hdistance, ok_bind, nextByte_nil h2]
          rfl
        · rw [require_neg hdistance, error_bind]
          rfl
      | extra :: rest =>
        obtain ⟨p3, hp3, h3⟩ := nextByte_cons h2
        have hextra := extra.toNat_lt
        have hsame : p2.written = p3.written := h2.written.trans h3.written.symm
        rw [hp3, hsame]
        exact follows_run (Nat.succ_pos _) h3 hmore (show extra.toNat + 18 ≤ 2 ^ 31 by omega)
    · rw [if_neg hlong, if_neg hlong]
      exact follows_run (Nat.succ_pos _) h2 hmore (by omega)

variable {flags : Nat}

theorem yaz0CodeAt_follows {mask : Nat} (h : Shows src expanded p rest out)
    (hmore : out.length < expanded) :
    Follows src expanded (yaz0CodeAt src expanded mask flags p)
      (readCode yaz0 expanded (!decide (flags &&& mask ≠ 0)) rest out) := by
  unfold yaz0CodeAt
  by_cases hflag : flags &&& mask ≠ 0
  · rw [if_pos hflag, decide_eq_true hflag]
    cases rest with
    | nil =>
      rw [nextByte_nil h, error_bind]
      rfl
    | cons b rest =>
      obtain ⟨p1, hp1, h1⟩ := nextByte_cons h
      obtain ⟨p2, hp2, h2, -⟩ := writeByte_of_lt (b := b) h1 hmore
      rw [hp1, ok_bind]
      exact ⟨p2, hp2, h2⟩
  · rw [if_neg hflag, decide_eq_false hflag]
    exact yaz0RunAt_follows h hmore

def bytesWritten (x : Checked Progress) : Checked (List UInt8) :=
  x >>= fun p => .ok (p.dst.take p.written)

/-- **The loop is the reader with positions of 32 bits**, from any place in a group. -/
theorem yaz0ExpandLoop_eq {fuel' k : Nat} (h : Shows src expanded p rest out)
    (hk : k ≤ 8) (hfuel : rest.length < fuel) (hfuel' : rest.length < fuel') :
    bytesWritten (yaz0ExpandLoop src expanded fuel (2 ^ k / 2) flags p) =
      yaz0.decodeWithin (2 ^ 32) expanded fuel' ((maskBits flags k).map (!·)) rest out := by
  induction fuel generalizing fuel' k flags p rest out with
  | zero => omega
  | succ fuel ih =>
    obtain ⟨fuel', rfl⟩ := Nat.exists_eq_succ_of_ne_zero (Nat.ne_of_gt (Nat.zero_lt_of_lt hfuel'))
    have hwritten := h.written
    unfold bytesWritten yaz0ExpandLoop
    by_cases hfull : expanded ≤ out.length
    · rw [if_neg (by omega), ok_bind, h.output]
      exact (if_pos hfull).symm
    · have hmore : out.length < expanded := Nat.lt_of_not_le hfull
      rw [if_pos (by omega)]
      -- a code whose flag is there, with fuel for what follows it
      have hcode {fuel' k flags : Nat} {p : Progress} {rest : List UInt8}
          (h : Shows src expanded p rest out) (hk : k < 8) (hrest : rest.length ≤ fuel)
          (hfuel' : rest.length < fuel' + 1) :
          bytesWritten (yaz0CodeAt src expanded (2 ^ k) flags p >>= fun p =>
            yaz0ExpandLoop src expanded fuel (2 ^ k >>> 1) flags p) =
          yaz0.decodeWithin (2 ^ 32) expanded (fuel' + 1) ((maskBits flags (k + 1)).map (!·))
            rest out := by
        rw [maskBits, List.map_cons, decodeWithin_code hmore, bytesWritten, bind_assoc]
        refine follows_bind (yaz0CodeAt_follows h hmore) fun p' rest' out' hy h' => ?_
        have hlen := readCode_length yaz0_lawful hy
        rw [show 2 ^ k >>> 1 = 2 ^ k / 2 from Nat.shiftRight_eq_div_pow _ 1]
        exact ih h' (by omega) (by omega) (by omega)
      cases k with
      | zero =>
        show _ = yaz0.decodeWithin (2 ^ 32) expanded (fuel' + 1) [] rest out
        rw [decodeWithin_group hmore, yaz0GroupAt, if_pos (by decide)]
        cases rest with
        | nil =>
          rw [nextByte_nil h]
          rfl
        | cons group rest =>
          rw [List.length_cons] at hfuel hfuel'
          obtain ⟨fuel', rfl⟩ := Nat.exists_eq_succ_of_ne_zero (n := fuel') (by omega)
          obtain ⟨p1, hp1, h1⟩ := nextByte_cons h
          rw [hp1]
          exact hcode (k := 7) h1 (by omega) (by omega) (by omega)
      | succ k =>
        rw [show 2 ^ (k + 1) / 2 = 2 ^ k by rw [Nat.pow_succ]; omega, yaz0GroupAt,
          if_neg (Nat.ne_of_gt (Nat.two_pow_pos k))]
        exact hcode h hk (by omega) hfuel'

/-! ## CX -/

/-- a reference that is read is the one the reader has -/
def ReadsReference (src : List UInt8) (expanded : Nat) (x : Checked ((Nat × Nat) × Progress))
    (out : List UInt8) : Option ((Nat × Nat) × List UInt8) → Prop
  | none => x = .error .refused
  | some (reference, rest) => ∃ p, x = .ok (reference, p) ∧ Shows src expanded p rest out

theorem lz10ReferenceAt_reads (h : Shows src expanded p rest out) :
    ReadsReference src expanded (lz10ReferenceAt src p) out (lz10Reference rest) := by
  unfold lz10ReferenceAt
  match rest with
  | [] =>
    rw [nextByte_nil h]
    rfl
  | [first] =>
    obtain ⟨p1, hp1, h1⟩ := nextByte_cons h
    rw [hp1, ok_bind]
    dsimp only
    rw [nextByte_nil h1]
    rfl
  | first :: second :: rest =>
    obtain ⟨p1, hp1, h1⟩ := nextByte_cons h
    obtain ⟨p2, hp2, h2⟩ := nextByte_cons h1
    rw [hp1, ok_bind]
    dsimp only
    rw [hp2, ok_bind]
    exact ⟨p2, rfl, h2⟩

theorem lz11ReferenceAt_reads (h : Shows src expanded p rest out) :
    ReadsReference src expanded (lz11ReferenceAt src p) out (lz11Reference rest) := by
  unfold lz11ReferenceAt
  match rest with
  | [] =>
    rw [nextByte_nil h]
    rfl
  | [first] =>
    obtain ⟨p1, hp1, h1⟩ := nextByte_cons h
    rw [hp1, ok_bind]
    dsimp only
    rw [nextByte_nil h1]
    rfl
  | first :: second :: rest =>
    obtain ⟨p1, hp1, h1⟩ := nextByte_cons h
    obtain ⟨p2, hp2, h2⟩ := nextByte_cons h1
    rw [hp1, ok_bind]
    dsimp only
    rw [hp2, ok_bind]
    unfold lz11Reference
    dsimp only
    by_cases hthree : first.toNat / 16 = 0
    · rw [if_pos hthree, if_pos hthree]
      cases rest with
      | nil =>
        rw [nextByte_nil h2]
        rfl
      | cons third rest =>
        obtain ⟨p3, hp3, h3⟩ := nextByte_cons h2
        rw [hp3]
        exact ⟨p3, rfl, h3⟩
    · rw [if_neg hthree, if_neg hthree]
      by_cases hfour : first.toNat / 16 = 1
      · rw [if_pos hfour, if_pos hfour]
        match rest with
        | [] =>
          rw [nextByte_nil h2]
          rfl
        | [third] =>
          obtain ⟨p3, hp3, h3⟩ := nextByte_cons h2
          rw [hp3, ok_bind]
          dsimp only
          rw [nextByte_nil h3]
          rfl
        | third :: fourth :: rest =>
          obtain ⟨p3, hp3, h3⟩ := nextByte_cons h2
          obtain ⟨p4, hp4, h4⟩ := nextByte_cons h3
          rw [hp3, ok_bind]
          dsimp only
          rw [hp4]
          exact ⟨p4, rfl, h4⟩
      · rw [if_neg hfour, if_neg hfour]
        exact ⟨p2, rfl, h2⟩

theorem cxReferenceAt_reads (kind : CxKind) (h : Shows src expanded p rest out) :
    ReadsReference src expanded (cxReferenceAt src kind p) out ((cxFormat kind).read rest) := by
  rw [cxReference_eq]
  unfold cxReferenceAt cxReference
  split
  · exact lz10ReferenceAt_reads h
  · exact lz11ReferenceAt_reads h

theorem cxFormat_pos {kind : CxKind} {length : Nat}
    (h : (cxFormat kind).Fits distance length) : 0 < distance := by
  unfold cxFormat at h
  split at h
  · exact h.1
  · exact h.1

theorem cxItemAt_follows {kind : CxKind} (h : Shows src expanded p rest out)
    (hmore : out.length < expanded) :
    Follows src expanded (cxItemAt src expanded kind flags p)
      (readCode (cxFormat kind) expanded (decide (flags &&& 0x80 ≠ 0)) rest out) := by
  unfold cxItemAt
  by_cases hflag : flags &&& 0x80 ≠ 0
  · rw [if_pos hflag, decide_eq_true hflag]
    have hreads := cxReferenceAt_reads kind h
    unfold readCode
    rw [if_pos rfl]
    cases hread : (cxFormat kind).read rest with
    | none =>
      rw [hread] at hreads
      rw [show cxReferenceAt src kind p = _ from hreads]
      rfl
    | some run =>
      obtain ⟨⟨distance, length⟩, rest'⟩ := run
      rw [hread] at hreads
      obtain ⟨p', hp', h'⟩ := hreads
      obtain ⟨hfits, -⟩ := ((cxFormat_lawful kind).read_eq_some _ _ _ _).mp hread
      have hlength := (cxFormat_le hfits).2
      rw [hp', ok_bind]
      dsimp only
      rw [require_and]
      exact follows_run (cxFormat_pos hfits) h' hmore (by omega)
  · rw [if_neg hflag, decide_eq_false hflag]
    cases rest with
    | nil =>
      rw [nextByte_nil h, error_bind]
      rfl
    | cons b rest =>
      obtain ⟨p1, hp1, h1⟩ := nextByte_cons h
      obtain ⟨p2, hp2, h2, -⟩ := writeByte_of_lt (b := b) h1 hmore
      rw [hp1, ok_bind]
      exact ⟨p2, hp2, h2⟩

theorem cxExpandLoop_eq {kind : CxKind} {fuel' k : Nat}
    (h : Shows src expanded p rest out) (hfuel : rest.length < fuel)
    (hfuel' : rest.length < fuel') :
    bytesWritten (cxExpandLoop src expanded kind fuel flags k p) =
      (cxFormat kind).decodeWithin (2 ^ 32) expanded fuel' (shiftBits flags k) rest out := by
  induction fuel generalizing fuel' k flags p rest out with
  | zero => omega
  | succ fuel ih =>
    obtain ⟨fuel', rfl⟩ := Nat.exists_eq_succ_of_ne_zero (Nat.ne_of_gt (Nat.zero_lt_of_lt hfuel'))
    have hwritten := h.written
    unfold bytesWritten cxExpandLoop
    by_cases hfull : expanded ≤ out.length
    · rw [if_neg (by omega), ok_bind, h.output]
      exact (if_pos hfull).symm
    · have hmore : out.length < expanded := Nat.lt_of_not_le hfull
      rw [if_pos (by omega)]
      -- an item whose flag is there, with fuel for what follows it
      have hitem {fuel' k flags : Nat} {p : Progress} {rest : List UInt8}
          (h : Shows src expanded p rest out) (hrest : rest.length ≤ fuel)
          (hfuel' : rest.length < fuel' + 1) :
          bytesWritten (cxItemAt src expanded kind flags p >>= fun p =>
            cxExpandLoop src expanded kind fuel ((flags <<< 1) &&& 0xFF) (k + 1 - 1) p) =
          (cxFormat kind).decodeWithin (2 ^ 32) expanded (fuel' + 1) (shiftBits flags (k + 1))
            rest out := by
        rw [shiftBits, decodeWithin_code hmore, bytesWritten, bind_assoc]
        refine follows_bind (cxItemAt_follows h hmore) fun p' rest' out' hy h' => ?_
        have hlen := readCode_length (cxFormat_lawful kind) hy
        exact ih h' (by omega) (by omega)
      cases k with
      | zero =>
        show _ = (cxFormat kind).decodeWithin (2 ^ 32) expanded (fuel' + 1) [] rest out
        rw [decodeWithin_group hmore, cxGroupAt, if_pos rfl]
        cases rest with
        | nil =>
          rw [nextByte_nil h]
          rfl
        | cons group rest =>
          rw [List.length_cons] at hfuel hfuel'
          obtain ⟨fuel', rfl⟩ := Nat.exists_eq_succ_of_ne_zero (n := fuel') (by omega)
          obtain ⟨p1, hp1, h1⟩ := nextByte_cons h
          rw [hp1]
          dsimp only
          rw [cxFormat_flags, ← shiftBits_eight _ group.toNat_lt]
          exact hitem (k := 7) h1 (by omega) (by omega)
      | succ k =>
        rw [cxGroupAt, if_neg (Nat.succ_ne_zero k)]
        exact hitem h (by omega) hfuel'

/-! ## whole sources -/

/-- a copy of a Yaz0 file reaches 2^32 -/
def Yaz0Overruns (src dst : List UInt8) : Prop :=
  Yaz0ExpandedSize src ≤ dst.length ∧ kYaz0HeaderSize ≤ src.length ∧
    yaz0.Overruns (2 ^ 32) (Yaz0ExpandedSize src) [] (src.drop kYaz0HeaderSize) []

/-- a reference of a stream does -/
def CxOverruns (src dst : List UInt8) : Prop :=
  (CxIdentify src = .lz10 ∨ CxIdentify src = .lz11) ∧ CxExpandedSize src ≤ dst.length ∧
    (cxFormat (CxIdentify src)).Overruns (2 ^ 32) (CxExpandedSize src) []
      (src.drop (PayloadAt src)) []

variable {dst : List UInt8}

theorem shows_start (read : Nat) (hroom : expanded ≤ dst.length)
    (hsmall : expanded < 2 ^ 32) :
    Shows src expanded ⟨read, 0, dst⟩ (src.drop read) [] :=
  ⟨rfl, rfl, List.take_zero, Nat.zero_le _, hroom, hsmall⟩

theorem yaz0SizeAt_eq (src : List UInt8) : yaz0SizeAt src = .ok (Yaz0ExpandedSize src) := by
  unfold yaz0SizeAt Yaz0ExpandedSize
  by_cases hshort : src.length < 8
  · rw [if_pos hshort, if_pos (.inl hshort)]
  · rw [if_neg hshort, within_of_le (by omega), ok_bind]
    by_cases hmagic : src.take 4 ≠ kYaz0Magic
    · rw [if_pos hmagic, if_pos (.inr hmagic)]
      rfl
    · rw [if_neg hmagic, if_neg (by rintro (h | h); exacts [hshort h, hmagic h]),
        within_of_le (by omega)]
      rfl

theorem Yaz0ExpandedSize_lt (src : List UInt8) : Yaz0ExpandedSize src < 2 ^ 32 := by
  unfold Yaz0ExpandedSize
  split
  · decide
  · exact read32_lt _ _

theorem length_payload (src : List UInt8) (i : Nat) : (src.drop i).length < src.length + 1 := by
  rw [List.length_drop]
  omega

theorem Yaz0Expand_eq (src dst : List UInt8) :
    Yaz0Expand src dst =
      if Yaz0ExpandedSize src ≠ 0 ∧ Yaz0ExpandedSize src ≤ dst.length ∧
          kYaz0HeaderSize ≤ src.length then
        yaz0.decodeWithin (2 ^ 32) (Yaz0ExpandedSize src) (src.length + 1) []
          (src.drop kYaz0HeaderSize) []
      else .error .refused := by
  unfold Yaz0Expand
  rw [yaz0SizeAt_eq, ok_bind]
  split
  · next h =>
    have hfuel := length_payload src kYaz0HeaderSize
    rw [require_pos h, ok_bind]
    exact yaz0ExpandLoop_eq (k := 0) (shows_start _ h.2.1 (Yaz0ExpandedSize_lt src)) (by decide)
      hfuel hfuel
  · next h => rw [require_neg h, error_bind]

theorem not_overruns_zero {flags : List Bool} (h : expanded = 0) :
    ¬f.Overruns (2 ^ 32) expanded flags rest [] :=
  Format.not_overruns_full (h ▸ Nat.zero_le _)

theorem Yaz0Expand_finishes (src dst : List UInt8) : Finishes (Yaz0Expand src dst) := by
  rw [Yaz0Expand_eq]
  split
  · exact Format.decodeWithin_finishes yaz0_lawful (length_payload src _)
  · exact fun h => by cases h

theorem Yaz0Expand_safe_iff (src dst : List UInt8) :
    Safe (Yaz0Expand src dst) ↔ ¬Yaz0Overruns src dst := by
  rw [Yaz0Expand_eq]
  split
  · next h =>
    have hover : Yaz0Overruns src dst ↔ _ := and_iff_right h.2.1 |>.trans (and_iff_right h.2.2)
    rw [hover, ← Format.decodeWithin_outside_iff yaz0_lawful (length_payload src _)]
    rfl
  · next h =>
    refine ⟨fun _ hover => h ⟨fun hzero => ?_, hover.1, hover.2.1⟩, fun _ => safe_refused⟩
    exact not_overruns_zero hzero hover.2.2

theorem cxIdentifyAt_eq (src : List UInt8) : cxIdentifyAt src = .ok (CxIdentify src) := by
  unfold cxIdentifyAt
  by_cases hshort : src.length < 4
  · rw [if_pos hshort, CxIdentify, if_pos hshort]
  · rw [if_neg hshort, within_of_le (by omega)]
    rfl

theorem CxIdentify_length {src : List UInt8} (h : CxIdentify src ≠ .none) : 4 ≤ src.length := by
  by_contra hshort
  exact h (if_pos (Nat.lt_of_not_le hshort))

theorem cxSizeAt_eq (src : List UInt8) : cxSizeAt src = .ok (CxExpandedSize src) := by
  unfold cxSizeAt CxExpandedSize
  rw [cxIdentifyAt_eq, ok_bind]
  by_cases hkind : CxIdentify src = .none
  · rw [if_pos hkind, if_pos hkind]
    rfl
  · have hlength := CxIdentify_length hkind
    rw [if_neg hkind, if_neg hkind, within_of_le (by omega), ok_bind]
    by_cases hsmall : read24LE src 1 ≠ 0
    · rw [if_pos hsmall, if_pos hsmall]
      rfl
    · rw [if_neg hsmall, if_neg hsmall]
      by_cases hlong : 8 ≤ src.length
      · rw [if_pos hlong, if_pos hlong, within_of_le (by omega)]
        rfl
      · rw [if_neg hlong, if_neg hlong]
        rfl

theorem CxExpandedSize_lt (src : List UInt8) : CxExpandedSize src < 2 ^ 32 := by
  have hbyte (i : Nat) : byteAt src i < 2 ^ 8 := UInt8.toNat_lt _
  have h1 := hbyte 1
  have h2 := hbyte 2
  have h3 := hbyte 3
  have h4 := hbyte 4
  have h5 := hbyte 5
  have h6 := hbyte 6
  have h7 := hbyte 7
  unfold CxExpandedSize
  split
  · decide
  · split
    · show byteAt src 1 + byteAt src 2 * 256 + byteAt src 3 * 65536 < 2 ^ 32
      omega
    · split
      · show byteAt src 4 + byteAt src 5 * 256 + byteAt src 6 * 65536 + byteAt src 7 * 16777216 <
          2 ^ 32
        omega
      · decide

theorem CxExpand_eq (src dst : List UInt8) :
    CxExpand src dst =
      if (CxIdentify src = .lz10 ∨ CxIdentify src = .lz11) ∧ CxExpandedSize src ≠ 0 ∧
          CxExpandedSize src ≤ dst.length then
        (cxFormat (CxIdentify src)).decodeWithin (2 ^ 32) (CxExpandedSize src) (src.length + 1) []
          (src.drop (PayloadAt src)) []
      else .error .refused := by
  unfold CxExpand
  rw [cxIdentifyAt_eq, ok_bind]
  by_cases hkind : CxIdentify src = .lz10 ∨ CxIdentify src = .lz11
  · have hlength : 4 ≤ src.length := CxIdentify_length (CxKind.not_none hkind)
    rw [require_pos hkind, ok_bind, cxSizeAt_eq, ok_bind]
    by_cases hsize : CxExpandedSize src ≠ 0 ∧ CxExpandedSize src ≤ dst.length
    · have hfuel := length_payload src (PayloadAt src)
      rw [require_pos hsize, ok_bind, within_of_le (by omega), ok_bind, if_pos ⟨hkind, hsize⟩]
      exact cxExpandLoop_eq (k := 0) (shows_start _ hsize.2 (CxExpandedSize_lt src)) hfuel hfuel
    · rw [require_neg hsize, error_bind, if_neg fun h => hsize h.2]
  · rw [require_neg hkind, error_bind, if_neg fun h => hkind h.1]

theorem CxExpand_finishes (src dst : List UInt8) : Finishes (CxExpand src dst) := by
  rw [CxExpand_eq]
  split
  · exact Format.decodeWithin_finishes (cxFormat_lawful _) (length_payload src _)
  · exact fun h => by cases h

theorem CxExpand_safe_iff (src dst : List UInt8) :
    Safe (CxExpand src dst) ↔ ¬CxOverruns src dst := by
  rw [CxExpand_eq]
  split
  · next h =>
    have hover : CxOverruns src dst ↔ _ := and_iff_right h.1 |>.trans (and_iff_right h.2.2)
    rw [hover, ← Format.decodeWithin_outside_iff (cxFormat_lawful _) (length_payload src _)]
    rfl
  · next h =>
    refine ⟨fun _ hover => h ⟨hover.1, fun hzero => ?_, hover.2.1⟩, fun _ => safe_refused⟩
    exact not_overruns_zero hzero hover.2.2

/-! ## a source that overruns -/

/-- a byte, so many copies of it and one more, 273 at a time -/
def runsOf (copies : Nat) : List (Token UInt8) :=
  .literal 0x41 :: List.replicate copies (.copy 1 273) ++ [.copy 1 273]

theorem headerOf_reads {n : Nat} (hn : n < 2 ^ 32) (payload : List UInt8) :
    Yaz0ExpandedSize (kYaz0Magic ++ word32 n ++ List.replicate 8 0 ++ payload) = n ∧
      kYaz0HeaderSize ≤ (kYaz0Magic ++ word32 n ++ List.replicate 8 0 ++ payload).length ∧
      (kYaz0Magic ++ word32 n ++ List.replicate 8 0 ++ payload).drop kYaz0HeaderSize = payload := by
  refine ⟨?_, ?_, rfl⟩
  · unfold Yaz0ExpandedSize
    rw [if_neg, read32_word32 hn rfl]
    rintro (hshort | hmagic)
    · change payload.length + 16 < 8 at hshort
      omega
    · exact hmagic rfl
  · show 16 ≤ payload.length + 16
    omega

/-- a file of 2^32 - 1 bytes, as its header has it -/
def fileOfRuns (copies : Nat) : List UInt8 :=
  kYaz0Magic ++ word32 0xFFFFFFFF ++ List.replicate 8 0 ++
    (yaz0.encode packYaz0 8 (runsOf copies) ++ [])

theorem fileOfRuns_overruns {copies : Nat} (hdst : dst.length = 2 ^ 32 - 1)
    (hshort : 1 + copies * 273 < 2 ^ 32 - 1) (hlong : 2 ^ 32 ≤ 1 + copies * 273 + 273) :
    Yaz0Overruns (fileOfRuns copies) dst := by
  have hfits : ∀ token ∈ runsOf copies, yaz0.FitsToken token := by
    intro token hmem
    have hcopy : yaz0.FitsToken (.copy 1 273) := ⟨by decide, by decide, by decide, by decide⟩
    rcases List.mem_append.mp hmem with hmem | hmem
    · rcases List.mem_cons.mp hmem with rfl | hmem
      · trivial
      · rw [(List.mem_replicate.mp hmem).2]
        exact hcopy
    · rw [List.mem_singleton.mp hmem]
      exact hcopy
  have hgrouped : yaz0.Grouped [] (runsOf copies)
      (yaz0.encode packYaz0 8 (runsOf copies) ++ []) :=
    Format.grouped_encode (by decide) packYaz0_flags
      (fun b => by
        show ((maskBits b.toNat 8).map (!·)).length = 8
        rw [List.length_map, length_maskBits]) hfits []
  have hbyte : 1 ≤ [(0x41 : UInt8)].length := Nat.le_refl 1
  obtain ⟨out, hexpand, hlength⟩ :
      ∃ out, expand (List.replicate copies (.copy 1 273)) [(0x41 : UInt8)] = some out ∧
        out.length = 1 + copies * 273 := Format.exists_expand_replicate copies hbyte
  obtain ⟨hsize, hheader, hdrop⟩ := headerOf_reads (n := 0xFFFFFFFF) (by decide)
    (yaz0.encode packYaz0 8 (runsOf copies) ++ [])
  refine ⟨?_, hheader, .literal 0x41 :: List.replicate copies (.copy 1 273), 1, 273, out, ?_,
    hexpand, ?_, by omega, by omega⟩
  · rw [fileOfRuns, hsize]
    omega
  · rw [fileOfRuns, hdrop]
    exact hgrouped
  · rw [fileOfRuns, hsize]
    omega

end DolTranslator.Archive
