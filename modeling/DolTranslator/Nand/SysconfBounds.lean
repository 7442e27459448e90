import DolTranslator.Nand.Sysconf
import DolTranslator.Streams.Checked

/-!
# The accesses of parsing a SYSCONF

The parser of `Sysconf` with each access to the file checked.

* `parseChecked`   `Sysconf::Parse`;
* `LengthOutside`   an entry whose small array has its length behind the end of the file;
* `parseChecked_eq` the parser reads outside just where it comes to such an entry, and else it
  gives what `Parse` does;
* `parse_bounded_iff`   so far it keeps to the file, and every value is as long as its type says.
-/

namespace DolTranslator.Nand

open Disc Streams

/-- a number is as wide as its type, and an array has something in it -/
def SysconfItem.Matches (item : SysconfItem) : Prop :=
  match item.type with
  | .byte | .bool => item.data.length = 1
  | .short => item.data.length = 2
  | .long => item.data.length = 4
  | .longLong => item.data.length = 8
  | .bigArray | .smallArray => 1 ≤ item.data.length
  | .unknown => True

namespace Sysconf

variable (file : List UInt8)

/-! ## the parser -/

def parseDataChecked (name : List UInt8) (type : SysconfType) (offset length : Nat) :
    Checked Entry :=
  if offset + length > file.length then .ok .stop
  else do
    within file.length offset length
    return .item ⟨name, type, slice file offset length⟩

def parseValueChecked (name : List UInt8) (type : SysconfType) (offset : Nat) : Checked Entry :=
  match type with
  | .bigArray =>
    if offset + 2 > file.length then .ok .stop
    else do
      within file.length offset 2
      parseDataChecked file name type (offset + 2) (read16 file offset + 1)
  | .smallArray => do
    -- no check comes before this one
    within file.length offset 1
    parseDataChecked file name type (offset + 1) (byteAt file offset + 1)
  | type => parseDataChecked file name type offset (FixedWidth type)

def parseEntryChecked (index : Nat) : Checked Entry :=
  let entry := kOffsetTable + index * 2
  if entry + 1 ≥ file.length then .ok .stop
  else do
    within file.length entry 2
    let offset := read16 file entry
    if offset = 0 ∨ offset ≥ file.length then return .skip
    else
      within file.length offset 1
      let header := byteAt file offset
      let nameLength := header % 32 + 1
      if offset + 1 + nameLength > file.length then return .stop
      else
        within file.length (offset + 1) nameLength
        parseValueChecked file (slice file (offset + 1) nameLength) (.ofNumber (header / 32))
          (offset + 1 + nameLength)

def parseLoopChecked : Nat → Nat → Checked (List SysconfItem)
  | 0, _ => .ok []
  | n + 1, index => parseEntryChecked file index >>= fun
    | .stop => .ok []
    | .skip => parseLoopChecked n (index + 1)
    | .item item => parseLoopChecked n (index + 1) >>= fun items => .ok (item :: items)

/-- `Sysconf::Parse` -/
def parseChecked : Checked Sysconf := do
  require (kFooterOffset + 4 ≤ file.length)
  within file.length 0 4
  require (file.take 4 = sysconfMagic)
  within file.length 0x0004 2
  let items ← parseLoopChecked file (read16 file 0x0004) 0
  return ⟨items⟩

/-- the name of a small array ends with the file, so its length is not there -/
structure LengthOutside (index : Nat) : Prop where
  listed : kOffsetTable + index * 2 + 1 < file.length
  used : read16 file (kOffsetTable + index * 2) ≠ 0
  inside : read16 file (kOffsetTable + index * 2) < file.length
  small : byteAt file (read16 file (kOffsetTable + index * 2)) / 32 = 2
  ends : read16 file (kOffsetTable + index * 2) + 1 +
    (byteAt file (read16 file (kOffsetTable + index * 2)) % 32 + 1) = file.length

/-- the walk along the offsets comes to the entry -/
def Reached (index : Nat) : Prop := ∀ before, before < index → parseEntry file before ≠ .stop

/-- no entry that the walk comes to has its length outside -/
def ParseBounded : Prop :=
  kFooterOffset + 4 ≤ file.length → file.take 4 = sysconfMagic →
    ∀ index, index < read16 file 0x0004 → Reached file index → ¬LengthOutside file index

variable {file}

/-! ## an entry -/

theorem parseDataChecked_eq (name : List UInt8) (type : SysconfType) (offset length : Nat) :
    parseDataChecked file name type offset length = .ok (parseData file name type offset length) := by
  unfold parseDataChecked parseData
  split
  · rfl
  · rw [within_of_le (by omega)]
    rfl

theorem parseValueChecked_eq (name : List UInt8) (type : SysconfType) (offset : Nat) :
    parseValueChecked file name type offset =
      if type = .smallArray ∧ file.length ≤ offset then .error .outside
      else .ok (parseValue file name type offset) := by
  cases type with
  | smallArray =>
    rcases Nat.lt_or_ge offset file.length with hlt | hge
    · rw [if_neg (by omega)]
      show (within file.length offset 1 >>= fun _ => _) = _
      rw [within_of_le (by omega), ok_bind, parseDataChecked_eq]
      rfl
    · rw [if_pos ⟨rfl, hge⟩]
      show (within file.length offset 1 >>= fun _ => _) = _
      rw [within_of_lt (by decide) (by omega)]
      rfl
  | bigArray =>
    rw [if_neg (by simp)]
    unfold parseValueChecked parseValue
    dsimp only
    split
    · rfl
    · rw [within_of_le (by omega), ok_bind, parseDataChecked_eq]
  | unknown | byte | short | long | longLong | bool =>
    rw [if_neg (by simp)]
    exact parseDataChecked_eq ..

theorem ofNumber_eq_smallArray {n : Nat} : SysconfType.ofNumber n = .smallArray ↔ n = 2 := by
  unfold SysconfType.ofNumber
  split <;> simp_all

theorem parseEntryChecked_of_not {index : Nat} (h : ¬LengthOutside file index) :
    parseEntryChecked file index = .ok (parseEntry file index) := by
  unfold parseEntryChecked parseEntry
  dsimp only
  split
  · rfl
  · next hlisted =>
    rw [within_of_le (by omega), ok_bind]
    split
    · rfl
    · next hoffset =>
      rw [within_of_le (by omega), ok_bind]
      split
      · rfl
      · next hname =>
        rw [within_of_le (by omega), ok_bind, parseValueChecked_eq, if_neg]
        rintro ⟨hsmall, hends⟩
        exact h ⟨by omega, by omega, by omega, ofNumber_eq_smallArray.mp hsmall, by omega⟩

theorem parseEntryChecked_of_outside {index : Nat} (h : LengthOutside file index) :
    parseEntryChecked file index = .error .outside := by
  have hlisted := h.listed
  have hused := h.used
  have hinside := h.inside
  have hends := h.ends
  unfold parseEntryChecked
  dsimp only
  rw [if_neg (by omega), within_of_le (by omega), ok_bind, if_neg (by omega),
    within_of_le (by omega), ok_bind, if_neg (by omega), within_of_le (by omega), ok_bind,
    parseValueChecked_eq, if_pos ⟨ofNumber_eq_smallArray.mpr h.small, by omega⟩]

theorem parseData_item {name : List UInt8} {type : SysconfType} {offset length : Nat}
    {item : SysconfItem} (h : parseData file name type offset length = .item item) :
    item.type = type ∧ item.data.length = length := by
  unfold parseData at h
  split at h
  · cases h
  · next hinside =>
    cases h
    exact ⟨rfl, length_slice (by omega)⟩

theorem parseValue_matches {name : List UInt8} {type : SysconfType} {offset : Nat}
    {item : SysconfItem} (h : parseValue file name type offset = .item item) : item.Matches := by
  have hdata : ∀ {type : SysconfType} {offset length : Nat},
      parseData file name type offset length = .item item → item.type = type ∧
        item.data.length = length := parseData_item
  unfold SysconfItem.Matches
  unfold parseValue at h
  cases type with
  | bigArray =>
    dsimp only at h
    split at h
    · cases h
    · obtain ⟨htype, hlength⟩ := hdata h
      rw [htype]
      show 1 ≤ item.data.length
      omega
  | smallArray =>
    obtain ⟨htype, hlength⟩ := hdata h
    rw [htype]
    show 1 ≤ item.data.length
    omega
  | unknown | byte | short | long | longLong | bool =>
    obtain ⟨htype, hlength⟩ := hdata h
    rw [htype]
    first | exact hlength | trivial

theorem parseEntry_matches {index : Nat} {item : SysconfItem}
    (h : parseEntry file index = .item item) : item.Matches := by
  unfold parseEntry at h
  dsimp only at h
  split at h
  · cases h
  · split at h
    · cases h
    · split at h
      · cases h
      · exact parseValue_matches h

theorem parseLoop_matches (n index : Nat) : ∀ item ∈ parseLoop file n index, item.Matches := by
  induction n generalizing index with
  | zero => intro item hitem; cases hitem
  | succ n ih =>
    intro item hitem
    unfold parseLoop at hitem
    split at hitem
    · cases hitem
    · exact ih (index + 1) item hitem
    · next first hfirst =>
      rcases List.mem_cons.mp hitem with rfl | hitem
      · exact parseEntry_matches hfirst
      · exact ih (index + 1) item hitem

theorem parseLoopChecked_iff (n index : Nat) (hreached : Reached file index) :
    ((∀ i, index ≤ i → i < index + n → Reached file i → ¬LengthOutside file i) →
      parseLoopChecked file n index = .ok (parseLoop file n index)) ∧
    ((∃ i, index ≤ i ∧ i < index + n ∧ Reached file i ∧ LengthOutside file i) →
      parseLoopChecked file n index = .error .outside) := by
  induction n generalizing index with
  | zero => exact ⟨fun _ => rfl, fun ⟨i, h1, h2, _⟩ => by omega⟩
  | succ n ih =>
    show (_ → (parseEntryChecked file index >>= _) = _) ∧ (_ → (parseEntryChecked file index >>= _) = _)
    unfold parseLoop
    by_cases hout : LengthOutside file index
    · rw [parseEntryChecked_of_outside hout]
      exact ⟨fun h => absurd hout (h index le_rfl (by omega) hreached), fun _ => rfl⟩
    · rw [parseEntryChecked_of_not hout]
      have hlater : ∀ {i}, index ≤ i → LengthOutside file i → index + 1 ≤ i := by
        intro i hi hi'
        have hne : i ≠ index := fun e => hout (e ▸ hi')
        omega
      have hnext (hgo : parseEntry file index ≠ .stop) : Reached file (index + 1) := by
        intro before hbefore
        rcases Nat.lt_or_ge before index with hlt | hge
        · exact hreached before hlt
        · rw [show before = index by omega]
          exact hgo
      have hrest (hgo : parseEntry file index ≠ .stop) := ih (index + 1) (hnext hgo)
      cases hentry : parseEntry file index with
      | stop =>
        refine ⟨fun _ => rfl, fun ⟨i, h1, h2, h3, h4⟩ => ?_⟩
        exact absurd hentry (h3 index (hlater h1 h4))
      | skip =>
        obtain ⟨hsafe, hunsafe⟩ := hrest (by simp [hentry])
        refine ⟨fun h => hsafe fun i h1 h2 => h i (by omega) (by omega), fun ⟨i, h1, h2, h3, h4⟩ => ?_⟩
        exact hunsafe ⟨i, hlater h1 h4, by omega, h3, h4⟩
      | item item =>
        obtain ⟨hsafe, hunsafe⟩ := hrest (by simp [hentry])
        refine ⟨fun h => ?_, fun ⟨i, h1, h2, h3, h4⟩ => ?_⟩
        · show (parseLoopChecked file n (index + 1) >>= _) = _
          rw [hsafe fun i h1 h2 => h i (by omega) (by omega)]
          rfl
        · show (parseLoopChecked file n (index + 1) >>= _) = _
          rw [ hunsafe ⟨i, hlater h1 h4, by omega, h3, h4⟩]
          rfl

theorem reached_zero : Reached file 0 := fun _ h => absurd h (Nat.not_lt_zero _)

theorem parseChecked_cases :
    (parseChecked file = .error .refused ∧ Parse file = none ∧ ParseBounded file) ∨
      kFooterOffset + 4 ≤ file.length ∧ file.take 4 = sysconfMagic ∧
        parseChecked file =
          parseLoopChecked file (read16 file 0x0004) 0 >>= fun items => .ok ⟨items⟩ := by
  unfold parseChecked
  by_cases hlength : kFooterOffset + 4 ≤ file.length
  · have hroom : 0x0004 + 2 ≤ file.length := le_trans (by decide) hlength
    rw [require_pos hlength, ok_bind, within_of_le (by omega), ok_bind]
    by_cases hmagic : file.take 4 = sysconfMagic
    · rw [require_pos hmagic, ok_bind, within_of_le hroom, ok_bind]
      exact .inr ⟨hlength, hmagic, rfl⟩
    · rw [require_neg hmagic]
      exact .inl ⟨rfl, if_pos (.inr hmagic), fun _ h => absurd h hmagic⟩
  · rw [require_neg hlength]
    exact .inl ⟨rfl, if_pos (.inl (by omega)), fun h => absurd h hlength⟩

theorem parseChecked_eq (h : ParseBounded file) :
    parseChecked file = match Parse file with
      | some c => .ok c
      | none => .error .refused := by
  rcases @parseChecked_cases file with ⟨hrefused, hnone, -⟩ | ⟨hlength, hmagic, heq⟩
  · rw [hrefused, hnone]
  · have hloop := (parseLoopChecked_iff (read16 file 0x0004) 0 reached_zero).1
      fun i _ hi hreached => h hlength hmagic i (by omega) hreached
    have hparse : Parse file = some ⟨parseLoop file (read16 file 0x0004) 0⟩ :=
      if_neg (by rw [hmagic]; simp; omega)
    rw [heq, hloop, hparse]
    rfl

/-- **Every access is in the file, and every value as long as its type says**, just when no small
array that the walk comes to has its name at the very end of the file. -/
theorem parse_bounded_iff (file : List UInt8) :
    (Safe (parseChecked file) ∧
      ∀ c, parseChecked file = .ok c → ∀ item ∈ c.items, item.Matches) ↔ ParseBounded file := by
  refine ⟨fun h hlength hmagic index hindex hreached hout => ?_, fun h => ?_⟩
  · rcases @parseChecked_cases file with ⟨-, -, hbounded⟩ | ⟨-, -, heq⟩
    · exact hbounded hlength hmagic index hindex hreached hout
    · have hloop := (parseLoopChecked_iff (read16 file 0x0004) 0 reached_zero).2
        ⟨index, Nat.zero_le _, by omega, hreached, hout⟩
      rw [hloop] at heq
      exact h.1 heq
  · have heq := parseChecked_eq h
    cases hparse : Parse file with
    | none =>
      rw [hparse] at heq
      rw [heq]
      exact ⟨safe_refused, fun c hc => by cases hc⟩
    | some c =>
      rw [hparse] at heq
      rw [heq]
      refine ⟨safe_ok c, fun c' hc item hitem => ?_⟩
      cases hc
      unfold Parse at hparse
      split at hparse
      · cases hparse
      · cases hparse
        exact parseLoop_matches _ _ item hitem

/-! ## a small array at the end -/

/-- one item, of one letter: its type and its name are the last two bytes of the file -/
def arrayAtEnd : List UInt8 :=
  sysconfMagic ++ [0, 1, 0x3F, 0xFE] ++ List.replicate 0x3FF6 0 ++ [0x40, 0x41]

theorem byteAt_append_left {bytes rest : List UInt8} {i : Nat} (h : i < bytes.length) :
    byteAt (bytes ++ rest) i = byteAt bytes i := by
  unfold byteAt
  rw [List.getD_eq_getElem?_getD, List.getD_eq_getElem?_getD, List.getElem?_append_left h]

theorem byteAt_append_right (bytes rest : List UInt8) (i : Nat) :
    byteAt (bytes ++ rest) (bytes.length + i) = byteAt rest i := by
  unfold byteAt
  rw [List.getD_eq_getElem?_getD, List.getD_eq_getElem?_getD,
    List.getElem?_append_right (Nat.le_add_right _ _), Nat.add_sub_cancel_left]

theorem arrayAtEnd_unbounded : ¬(Safe (parseChecked arrayAtEnd) ∧
    ∀ c, parseChecked arrayAtEnd = .ok c → ∀ item ∈ c.items, item.Matches) := by
  have hbody : (sysconfMagic ++ [0, 1, 0x3F, 0xFE] ++ List.replicate 0x3FF6 0).length = 0x3FFE := by
    rw [List.length_append, List.length_replicate]
    rfl
  have hlength : arrayAtEnd.length = 0x4000 := by
    unfold arrayAtEnd
    rw [List.length_append, hbody]
    rfl
  have hhead (i : Nat) (hi : i < 8) :
      byteAt arrayAtEnd i = byteAt (sysconfMagic ++ [0, 1, 0x3F, 0xFE]) i := by
    unfold arrayAtEnd
    rw [byteAt_append_left (by rw [hbody]; omega), byteAt_append_left hi]
  have hlast : byteAt arrayAtEnd 0x3FFE = 0x40 := by
    have h := byteAt_append_right
      (sysconfMagic ++ [0, 1, 0x3F, 0xFE] ++ List.replicate 0x3FF6 0) [0x40, 0x41] 0
    rw [hbody] at h
    exact h
  have hoffset : read16 arrayAtEnd 6 = 0x3FFE := by
    unfold read16
    rw [hhead 6 (by decide), hhead 7 (by decide)]
    decide
  have hcount : read16 arrayAtEnd 4 = 1 := by
    unfold read16
    rw [hhead 4 (by decide), hhead 5 (by decide)]
    decide
  rw [parse_bounded_iff]
  intro h
  refine h (by rw [hlength]; decide) (by rfl) 0 (by rw [hcount]; decide) reached_zero ⟨?_, ?_, ?_, ?_, ?_⟩
  · rw [hlength]
    decide
  · rw [show kOffsetTable + 0 * 2 = 6 from rfl, hoffset]
    decide
  · rw [show kOffsetTable + 0 * 2 = 6 from rfl, hoffset, hlength]
    decide
  · rw [show kOffsetTable + 0 * 2 = 6 from rfl, hoffset, hlast]
  · rw [show kOffsetTable + 0 * 2 = 6 from rfl, hoffset, hlast, hlength]

end Sysconf

end DolTranslator.Nand
