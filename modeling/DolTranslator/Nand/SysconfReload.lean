import DolTranslator.Nand.Sysconf

/-!
# A SYSCONF that was built, parsed again

* `Sized`   a value as wide as its type says;
* `Holds`   a file that has some items, and offsets for them;
* `Parse_Build_iff`   what was built parses as it was exactly when every item is sized.
-/

namespace DolTranslator.Nand

open Disc Streams

namespace SysconfItem

/-- the value is as wide as its type; an array has a length that can be stored -/
def Sized (item : SysconfItem) : Prop :=
  match item.type with
  | .bigArray => 1 ≤ item.data.length ∧ item.data.length ≤ 2 ^ 16
  | .smallArray => 1 ≤ item.data.length ∧ item.data.length ≤ 2 ^ 8
  | type => item.data.length = FixedWidth type

/-- the name has a length that can be stored -/
def Named (item : SysconfItem) : Prop := 1 ≤ item.name.length ∧ item.name.length ≤ 32

instance (item : SysconfItem) : Decidable item.Named := inferInstanceAs (Decidable (_ ∧ _))

instance (item : SysconfItem) : Decidable item.Sized :=
  match item with
  | ⟨_, .bigArray, _⟩ => inferInstanceAs (Decidable (_ ∧ _))
  | ⟨_, .smallArray, _⟩ => inferInstanceAs (Decidable (_ ∧ _))
  | ⟨_, .unknown, data⟩ => inferInstanceAs (Decidable (data.length = 0))
  | ⟨_, .byte, data⟩ => inferInstanceAs (Decidable (data.length = 1))
  | ⟨_, .short, data⟩ => inferInstanceAs (Decidable (data.length = 2))
  | ⟨_, .long, data⟩ => inferInstanceAs (Decidable (data.length = 4))
  | ⟨_, .longLong, data⟩ => inferInstanceAs (Decidable (data.length = 8))
  | ⟨_, .bool, data⟩ => inferInstanceAs (Decidable (data.length = 1))

end SysconfItem

theorem SysconfType.ofNumber_number (type : SysconfType) : ofNumber type.number = type := by
  cases type <;> rfl

theorem SysconfType.number_lt (type : SysconfType) : type.number < 8 := by
  cases type <;> decide

namespace Sysconf

open SysconfItem

theorem read16_word16 {bytes : List UInt8} {i n : Nat} (hn : n < 2 ^ 16)
    (h : slice bytes i 2 = word16 n) : read16 bytes i = n := by
  have hat : ∀ j < 2, byteAt bytes (i + j) = byteAt (word16 n) j := fun j hj => by
    rw [← h, byteAt_slice bytes i hj]
  have h0 := hat 0 (by decide)
  have h1 := hat 1 (by decide)
  have e0 : byteAt (word16 n) 0 = n / 2 ^ 8 % 2 ^ 8 := UInt8.toNat_ofNat'
  have e1 : byteAt (word16 n) 1 = n % 2 ^ 8 := UInt8.toNat_ofNat'
  unfold read16
  rw [Nat.add_zero] at h0
  rw [h0, h1, e0, e1]
  omega

/-! ## an item in a file -/

def itemBytes (item : SysconfItem) : List UInt8 :=
  [headerByte item] ++ item.name ++ lengthBytes item ++ item.data

theorem length_lengthBytes (item : SysconfItem) : (lengthBytes item).length = extra item := by
  unfold lengthBytes extra
  split <;> rfl

theorem length_itemBytes (item : SysconfItem) : (itemBytes item).length = itemSize item := by
  unfold itemBytes itemSize
  rw [List.length_append, List.length_append, List.length_append, length_lengthBytes]
  rfl

variable {file : List UInt8} {cursor : Nat} {item : SysconfItem}

theorem buildItem_eq (h : cursor + itemSize item ≤ file.length) :
    buildItem file cursor item = patch file cursor (itemBytes item) := by
  have hlen := length_lengthBytes item
  unfold itemSize at h
  unfold buildItem itemBytes
  have hname : ([headerByte item] ++ item.name).length = 1 + item.name.length := by
    rw [List.length_append, List.length_singleton]
  have hlengths : ([headerByte item] ++ item.name ++ lengthBytes item).length =
      1 + item.name.length + extra item := by
    rw [List.length_append, hname, hlen]
  have h1 : patch (patch file cursor [headerByte item]) (cursor + 1) item.name =
      patch file cursor ([headerByte item] ++ item.name) := patch_patch rfl (by omega)
  have h2 : patch (patch file cursor ([headerByte item] ++ item.name))
      (cursor + 1 + item.name.length) (lengthBytes item) =
      patch file cursor ([headerByte item] ++ item.name ++ lengthBytes item) :=
    patch_patch (by omega) (by omega)
  have h3 : patch (patch file cursor ([headerByte item] ++ item.name ++ lengthBytes item))
      (cursor + 1 + item.name.length + extra item) item.data =
      patch file cursor ([headerByte item] ++ item.name ++ lengthBytes item ++ item.data) :=
    patch_patch (by omega) (by omega)
  dsimp only
  rw [h1, h2, h3]

theorem pieces_of_slice (h : slice file cursor (itemSize item) = itemBytes item) :
    byteAt file cursor = (headerByte item).toNat ∧
      slice file (cursor + 1) item.name.length = item.name ∧
      slice file (cursor + 1 + item.name.length) (extra item) = lengthBytes item ∧
      slice file (cursor + 1 + item.name.length + extra item) item.data.length = item.data := by
  have hlen := length_lengthBytes item
  have hpart {j n : Nat} (hj : j + n ≤ itemSize item) :
      slice file (cursor + j) n = slice (itemBytes item) j n := by
    rw [← h, slice_slice _ _ hj]
  unfold itemSize at hpart
  refine ⟨?_, ?_, ?_, ?_⟩
  · have hat := byteAt_slice file cursor (j := 0) (n := itemSize item)
      (by unfold itemSize; omega)
    rw [h] at hat
    exact hat.symm
  · rw [hpart (by omega)]
    have hm := slice_middle [headerByte item] item.name (lengthBytes item ++ item.data)
    unfold itemBytes
    rw [List.append_assoc]
    exact hm
  · rw [Nat.add_assoc, hpart (by omega)]
    have hm := slice_middle ([headerByte item] ++ item.name) (lengthBytes item) item.data
    rw [List.length_append, List.length_singleton, hlen] at hm
    exact hm
  · rw [Nat.add_assoc, Nat.add_assoc, hpart (by omega)]
    have hm := slice_middle ([headerByte item] ++ item.name ++ lengthBytes item) item.data []
    rw [List.length_append, List.length_append, List.length_singleton, hlen,
      List.append_nil, Nat.add_assoc] at hm
    exact hm

theorem headerByte_spec (h : item.Named) :
    SysconfType.ofNumber ((headerByte item).toNat / 32) = item.type ∧
      (headerByte item).toNat % 32 + 1 = item.name.length := by
  have hnumber := item.type.number_lt
  obtain ⟨h1, h2⟩ := h
  have hvalue : (headerByte item).toNat = item.type.number * 32 + (item.name.length - 1) := by
    unfold headerByte
    rw [UInt8.toNat_ofNat']
    omega
  rw [hvalue]
  constructor
  · rw [show (item.type.number * 32 + (item.name.length - 1)) / 32 = item.type.number by omega]
    exact item.type.ofNumber_number
  · omega

variable {index : Nat}

/-- **An item in a file is parsed.** -/
theorem parseEntry_of_slice
    (hnamed : item.Named) (hsized : item.Sized) (hpos : 0 < cursor) (hlt : cursor < 2 ^ 16)
    (hentry : kOffsetTable + index * 2 + 1 < file.length)
    (hoffset : slice file (kOffsetTable + index * 2) 2 = word16 cursor)
    (hfile : cursor + itemSize item ≤ file.length)
    (h : slice file cursor (itemSize item) = itemBytes item) :
    parseEntry file index = .item item := by
  obtain ⟨hheader, hname, hlength, hdata⟩ := pieces_of_slice h
  obtain ⟨htype, hnameLength⟩ := headerByte_spec hnamed
  have hitem : (⟨item.name, item.type, item.data⟩ : SysconfItem) = item := rfl
  unfold itemSize at hfile
  unfold parseEntry
  dsimp only
  rw [if_neg (by omega), read16_word16 hlt hoffset, if_neg (by omega), hheader, hnameLength, htype,
    if_neg (by omega), hname]
  unfold SysconfItem.Sized at hsized
  unfold extra at hfile hlength hdata
  unfold lengthBytes at hlength
  unfold parseValue parseData
  cases htype' : item.type with
  | bigArray =>
    rw [htype'] at hsized hfile hlength hdata hitem
    dsimp only at hsized hfile hlength hdata ⊢
    have hread := read16_word16 (n := item.data.length - 1) (by omega)
      (hlength.trans (by
        simp only [word16, List.cons.injEq, ← UInt8.toNat_inj, UInt8.toNat_ofNat', and_true]
        omega))
    rw [if_neg (by omega), hread, Nat.sub_add_cancel hsized.1, if_neg (by omega), hdata, hitem]
  | smallArray =>
    rw [htype'] at hsized hfile hlength hdata hitem
    dsimp only at hsized hfile hlength hdata ⊢
    have hat := byteAt_slice file (cursor + 1 + item.name.length) (j := 0) (n := 1) (by decide)
    rw [hlength] at hat
    have hread : byteAt file (cursor + 1 + item.name.length) + 1 = item.data.length := by
      change _ = byteAt file (cursor + 1 + item.name.length) at hat
      rw [← hat]
      show (UInt8.ofNat (item.data.length + 0xFF)).toNat + 1 = _
      rw [UInt8.toNat_ofNat']
      omega
    rw [hread, if_neg (by omega), hdata, hitem]
  | _ =>
    rw [htype'] at hsized hfile hlength hdata hitem
    dsimp only at hsized hfile hlength hdata ⊢
    rw [Nat.add_zero] at hdata
    rw [← hsized, if_neg (by omega), hdata, hitem]

/-! ## the items of a file -/

/-- the items, with their offsets -/
def Holds (file : List UInt8) : List SysconfItem → Nat → Nat → Prop
  | [], _, _ => True
  | item :: items, index, cursor =>
    slice file (kOffsetTable + index * 2) 2 = word16 cursor ∧
      slice file cursor (itemSize item) = itemBytes item ∧
      Holds file items (index + 1) (cursor + itemSize item)

def totalSize (items : List SysconfItem) : Nat := (items.map itemSize).sum

theorem totalSize_cons (item : SysconfItem) (items : List SysconfItem) :
    totalSize (item :: items) = itemSize item + totalSize items := List.sum_cons

variable {items : List SysconfItem}

theorem parseLoop_of_holds
    (hnamed : ∀ item ∈ items, item.Named) (hsized : ∀ item ∈ items, item.Sized)
    (hlen : file.length = kSysconfSize) (htable : kOffsetTable + (index + items.length) * 2 ≤ cursor)
    (hfit : cursor + totalSize items ≤ kPayloadLimit) (h : Holds file items index cursor) :
    parseLoop file items.length index = items := by
  have hlimit : kPayloadLimit = 0x3FAE := rfl
  have hsize : kSysconfSize = 0x4000 := rfl
  have htable0 : kOffsetTable = 6 := rfl
  induction items generalizing index cursor with
  | nil => rfl
  | cons item items ih =>
    obtain ⟨hoffset, hitem, hrest⟩ := h
    rw [totalSize_cons] at hfit
    rw [List.length_cons] at htable
    have hentry := parseEntry_of_slice (hnamed item List.mem_cons_self)
      (hsized item List.mem_cons_self) (by omega) (by omega) (by omega) hoffset (by omega) hitem
    have hnext : parseLoop file items.length (index + 1) = items :=
      ih (fun i h => hnamed i (List.mem_cons_of_mem _ h))
        (fun i h => hsized i (List.mem_cons_of_mem _ h)) (by omega) (by omega) hrest
    rw [List.length_cons, parseLoop, hentry]
    dsimp only
    rw [hnext]

theorem Holds.congr {file' : List UInt8}
    (hsame : ∀ i n, i + n ≤ kPayloadLimit → slice file' i n = slice file i n)
    (htable : kOffsetTable + (index + items.length) * 2 ≤ cursor)
    (hfit : cursor + totalSize items ≤ kPayloadLimit) (h : Holds file items index cursor) :
    Holds file' items index cursor := by
  induction items generalizing index cursor with
  | nil => trivial
  | cons item items ih =>
    obtain ⟨hoffset, hitem, hrest⟩ := h
    rw [totalSize_cons] at hfit
    rw [List.length_cons] at htable
    refine ⟨?_, ?_, ih (by omega) (by omega) hrest⟩
    · rw [hsame _ _ (by omega)]
      exact hoffset
    · rw [hsame _ _ (by omega)]
      exact hitem

/-- what the loop leaves: the size, what is before the offsets, and what is between them and the
cursor -/
theorem buildLoop_keeps
    (hlen : file.length = kSysconfSize) (htable : kOffsetTable + (index + items.length) * 2 ≤ cursor)
    (hfit : cursor + totalSize items ≤ kPayloadLimit) :
    (buildLoop items index cursor file).length = kSysconfSize ∧
      ∀ i n, i + n ≤ kOffsetTable + index * 2 ∨
          (kOffsetTable + (index + items.length) * 2 ≤ i ∧ i + n ≤ cursor) →
        slice (buildLoop items index cursor file) i n = slice file i n := by
  have hlimit : kPayloadLimit = 0x3FAE := rfl
  have hsize : kSysconfSize = 0x4000 := rfl
  induction items generalizing index cursor file with
  | nil => exact ⟨hlen, fun _ _ _ => rfl⟩
  | cons item items ih =>
    rw [totalSize_cons] at hfit
    rw [List.length_cons] at htable
    have hbytes := length_itemBytes item
    have hword : (word16 cursor).length = 2 := rfl
    have hlen1 : (patch file (kOffsetTable + index * 2) (word16 cursor)).length = kSysconfSize := by
      rw [length_patch (by omega), hlen]
    have hlen2 : (patch (patch file (kOffsetTable + index * 2) (word16 cursor)) cursor
        (itemBytes item)).length = kSysconfSize := by
      rw [length_patch (by omega), hlen1]
    have htable' : kOffsetTable + (index + 1 + items.length) * 2 ≤ cursor + itemSize item := by
      omega
    unfold buildLoop
    rw [if_neg (by omega), buildItem_eq (by omega)]
    obtain ⟨hlen', hkeeps⟩ := ih hlen2 htable' (by omega)
    refine ⟨hlen', fun i n hin => ?_⟩
    rw [List.length_cons] at hin
    rw [hkeeps i n (by omega), slice_patch_before (by omega) (by omega)]
    obtain hin | hin := hin
    · exact slice_patch_before (by omega) hin
    · exact slice_patch_after (by omega) (by omega)

/-- **The loop writes the items.** -/
theorem holds_buildLoop
    (hlen : file.length = kSysconfSize) (htable : kOffsetTable + (index + items.length) * 2 ≤ cursor)
    (hfit : cursor + totalSize items ≤ kPayloadLimit) :
    Holds (buildLoop items index cursor file) items index cursor := by
  have hlimit : kPayloadLimit = 0x3FAE := rfl
  have hsize : kSysconfSize = 0x4000 := rfl
  induction items generalizing index cursor file with
  | nil => trivial
  | cons item items ih =>
    rw [totalSize_cons] at hfit
    rw [List.length_cons] at htable
    have hbytes := length_itemBytes item
    have hword : (word16 cursor).length = 2 := rfl
    have hlen1 : (patch file (kOffsetTable + index * 2) (word16 cursor)).length = kSysconfSize := by
      rw [length_patch (by omega), hlen]
    have hlen2 : (patch (patch file (kOffsetTable + index * 2) (word16 cursor)) cursor
        (itemBytes item)).length = kSysconfSize := by
      rw [length_patch (by omega), hlen1]
    unfold buildLoop
    rw [if_neg (by omega), buildItem_eq (by omega)]
    have htable' : kOffsetTable + (index + 1 + items.length) * 2 ≤ cursor + itemSize item := by
      omega
    obtain ⟨-, hkeeps⟩ := buildLoop_keeps hlen2 htable' (by omega)
    refine ⟨?_, ?_, ih hlen2 (by omega) (by omega)⟩
    · rw [hkeeps _ _ (by omega), slice_patch_before (by omega) (by omega)]
      exact slice_patch (by omega)
    · rw [hkeeps _ _ (by omega), ← hbytes]
      exact slice_patch (by omega)

/-! ## what is parsed is sized -/

theorem parseData_spec {name : List UInt8} {type : SysconfType} {offset length : Nat}
    (h : parseData file name type offset length = .item item) :
    item.name = name ∧ item.type = type ∧ item.data.length = length := by
  unfold parseData at h
  split at h
  · cases h
  · cases h
    exact ⟨rfl, rfl, length_slice (by omega)⟩

theorem parseValue_sized {name : List UInt8} {type : SysconfType} {offset : Nat}
    (h : parseValue file name type offset = .item item) :
    item.name = name ∧ item.Sized := by
  have h0 : byteAt file offset < 2 ^ 8 := UInt8.toNat_lt _
  have h1 : byteAt file (offset + 1) < 2 ^ 8 := UInt8.toNat_lt _
  unfold SysconfItem.Sized
  cases type with
  | bigArray =>
    change (if _ then _ else _) = _ at h
    split at h
    · cases h
    · obtain ⟨hname, htype, hdata⟩ := parseData_spec h
      unfold read16 at hdata
      rw [htype]
      exact ⟨hname, by omega, by omega⟩
  | smallArray =>
    obtain ⟨hname, htype, hdata⟩ := parseData_spec h
    rw [htype]
    exact ⟨hname, by omega, by omega⟩
  | _ =>
    obtain ⟨hname, htype, hdata⟩ := parseData_spec h
    rw [htype]
    exact ⟨hname, hdata⟩

theorem parseEntry_sized (h : parseEntry file index = .item item) : item.Named ∧ item.Sized := by
  unfold parseEntry at h
  dsimp only at h
  split at h
  · cases h
  · split at h
    · cases h
    · split at h
      · cases h
      · next hname =>
        have hlen := length_slice (Nat.le_of_not_lt hname)
        obtain ⟨hn, hsized⟩ := parseValue_sized h
        unfold SysconfItem.Named
        rw [hn, hlen]
        exact ⟨⟨by omega, by omega⟩, hsized⟩

theorem parseLoop_sized {n : Nat}
    (h : item ∈ parseLoop file n index) : item.Named ∧ item.Sized := by
  induction n generalizing index with
  | zero => cases h
  | succ n ih =>
    unfold parseLoop at h
    split at h
    · cases h
    · exact ih h
    · next parsed hparsed =>
      obtain rfl | h := List.mem_cons.mp h
      · exact parseEntry_sized hparsed
      · exact ih h

theorem Parse_sized {c : Sysconf} (h : Parse file = some c) :
    ∀ item ∈ c.items, item.Named ∧ item.Sized := by
  unfold Parse at h
  split at h
  · cases h
  · obtain rfl := Option.some.inj h
    exact fun item hitem => parseLoop_sized hitem

/-- all items are before the trailing table -/
def Fits (c : Sysconf) : Prop := c.tableEnd + totalSize c.items ≤ kPayloadLimit

theorem Build_spec {c : Sysconf} (hfit : c.Fits) :
    (Build c).length = kSysconfSize ∧ (Build c).take 4 = sysconfMagic ∧
      read16 (Build c) 0x0004 = c.items.length ∧ Holds (Build c) c.items 0 c.tableEnd := by
  have hlimit : kPayloadLimit = 0x3FAE := rfl
  have hsize : kSysconfSize = 0x4000 := rfl
  have hfooter : kFooterOffset = 0x3FFC := rfl
  have htable : kOffsetTable = 6 := rfl
  have hmagic : sysconfMagic.length = 4 := rfl
  have hend : sysconfFooter.length = 4 := rfl
  have hword : (word16 c.items.length).length = 2 := rfl
  unfold Fits at hfit
  have hcount : c.items.length < 2 ^ 16 := by
    unfold tableEnd at hfit
    omega
  have htableEnd : c.tableEnd = kOffsetTable + (c.items.length + 1) * 2 := rfl
  have hlen0 : (patch (List.replicate kSysconfSize 0) 0 sysconfMagic).length = kSysconfSize := by
    rw [length_patch (by rw [List.length_replicate]; omega), List.length_replicate]
  have hlen1 : (patch (patch (List.replicate kSysconfSize 0) 0 sysconfMagic) 0x0004
      (word16 c.items.length)).length = kSysconfSize := by
    rw [length_patch (by omega), hlen0]
  have htable0 : kOffsetTable + (0 + c.items.length) * 2 ≤ c.tableEnd := by omega
  obtain ⟨hlen2, hkeeps⟩ := buildLoop_keeps hlen1 htable0 hfit
  have hbefore {i n : Nat} (h : i + n ≤ kPayloadLimit) :
      slice (Build c) i n = slice (buildLoop c.items 0 c.tableEnd
        (patch (patch (List.replicate kSysconfSize 0) 0 sysconfMagic) 0x0004
          (word16 c.items.length))) i n := slice_patch_before (by omega) (by omega)
  refine ⟨?_, ?_, ?_, ?_⟩
  · exact (length_patch (by omega)).trans hlen2
  · show slice (Build c) 0 4 = _
    rw [hbefore (by omega), hkeeps 0 4 (by omega), slice_patch_before (by omega) (by omega)]
    have hroom : 0 + sysconfMagic.length ≤ (List.replicate kSysconfSize (0 : UInt8)).length := by
      rw [List.length_replicate]
      omega
    exact slice_patch hroom
  · refine read16_word16 hcount ?_
    rw [hbefore (by omega), hkeeps 4 2 (by omega)]
    exact slice_patch (by omega)
  · refine Holds.congr (fun i n h => hbefore h) (by omega) hfit ?_
    exact holds_buildLoop hlen1 (by omega) hfit

/-- **A save and a reload.**  What fits comes back as it was exactly when every value is as wide as
its type. -/
theorem Parse_Build_iff {c : Sysconf} (hnamed : ∀ item ∈ c.items, item.Named) (hfit : c.Fits) :
    Parse (Build c) = some c ↔ ∀ item ∈ c.items, item.Sized := by
  constructor
  · intro h item hitem
    exact (Parse_sized h item hitem).2
  · intro hsized
    obtain ⟨hlen, hmagic, hcount, hholds⟩ := Build_spec hfit
    have hfooter : kFooterOffset + 4 = kSysconfSize := rfl
    have htableEnd : c.tableEnd = kOffsetTable + (c.items.length + 1) * 2 := rfl
    unfold Parse
    rw [if_neg (by rintro (h | h); · omega
                   · exact h hmagic), hcount,
      parseLoop_of_holds hnamed hsized hlen (by omega) hfit hholds]

end Sysconf

end DolTranslator.Nand
