import Mathlib.Data.List.GetD
import DolTranslator.Nand.SysconfReload

/-!
# The database of the Miis

A file with a slot for each of a hundred Miis, and much that is only carried.

* `Crc16Ccitt`, `Empty`, `Parse`, `Put`, `Remove`, `Build`   as the store does them;
* `writes`   what `Build` writes, range by range; `writes_pairwise`   the ranges do not meet;
* `sign`   the checksum; signing again changes nothing;
* `Parse_Build`, `Build_Build`   the file that is built parses, and is built again from itself;
* `carried_edited`   the rest of a file is carried through any edits.
-/

namespace DolTranslator.Nand

open Disc Streams

def kMiiDatabaseSize : Nat := 0x1F1E0
def kMiiDatabaseFileSize : Nat := 0xBE6C0
def kMiiEntrySize : Nat := 0x4A
def kMiiSlots : Nat := 100
def kMiiParadeOffset : Nat := 0x1D00
def kMiiCrcOffset : Nat := 0x1F1DE
def kEntriesOffset : Nat := 0x04

def crcByte (crc : UInt16) (byte : UInt8) : UInt16 :=
  (List.range 8).foldl
    (fun crc _ => if crc &&& 0x8000 ≠ 0 then (crc <<< 1) ^^^ 0x1021 else crc <<< 1)
    (crc ^^^ (byte.toUInt16 <<< 8))

def Crc16Ccitt (data : List UInt8) : UInt16 := data.foldl crcByte 0

/-- the 74 bytes of a Mii -/
@[ext] structure Mii where
  raw : List UInt8
  size : raw.length = kMiiEntrySize

def Mii.none : Mii := ⟨List.replicate kMiiEntrySize 0, List.length_replicate⟩

structure MiiDatabase where
  slots : Fin kMiiSlots → Mii
  /-- a whole file: what is not interpreted is carried in it -/
  rest : List UInt8

namespace MiiDatabase

def slotOffset (slot : Nat) : Nat := kEntriesOffset + slot * kMiiEntrySize

/-- what an empty database has beside zeros: the flag after the slots, and the entries of the
parade -/
def emptyWrites : List (Nat × List UInt8) :=
  (0, chars "RNOD") :: (slotOffset kMiiSlots, [0x80]) ::
    (kMiiParadeOffset, chars "RNHD" ++ [0xFF, 0xFF, 0xFF, 0xFF]) ::
      (List.range 10000).map fun entry =>
        (kMiiParadeOffset + 0x10 + entry * 12, [0x7F, 0xFF, 0x7F, 0xFF])

def emptyFile : List UInt8 := patchAll emptyWrites (List.replicate kMiiDatabaseFileSize 0)

def Empty : MiiDatabase where
  slots := fun _ => Mii.none
  rest := emptyFile

/-- with whether the checksum is right -/
def Parse (file : List UInt8) : Option (MiiDatabase × Bool) :=
  if h : file.length < kMiiDatabaseSize ∨ slice file 0 4 ≠ chars "RNOD" ∨
      slice file kMiiParadeOffset 4 ≠ chars "RNHD" then none
  else if (file.drop kMiiDatabaseSize).any (· ≠ 0) then none
  else
    some ({
      slots := fun slot => ⟨slice file (slotOffset slot) kMiiEntrySize, length_slice (by
        have hslot := slot.isLt
        rw [not_or] at h
        unfold slotOffset
        unfold kMiiSlots at hslot
        unfold kEntriesOffset kMiiEntrySize
        unfold kMiiDatabaseSize at h
        omega)⟩
      rest := file },
      decide (read16 file kMiiCrcOffset = (Crc16Ccitt (file.take kMiiCrcOffset)).toNat))

def Put (db : MiiDatabase) (slot : Nat) (mii : Mii) : MiiDatabase × Bool :=
  if h : slot < kMiiSlots then ({ db with slots := Function.update db.slots ⟨slot, h⟩ mii }, true)
  else (db, false)

def Remove (db : MiiDatabase) (slot : Nat) : MiiDatabase × Bool :=
  if h : slot < kMiiSlots then ({ db with slots := Function.update db.slots ⟨slot, h⟩ Mii.none }, true)
  else (db, false)

def slotWrites (slots : Fin kMiiSlots → Mii) : List (Nat × List UInt8) :=
  (List.finRange kMiiSlots).map fun slot : Fin kMiiSlots => (slotOffset slot, (slots slot).raw)

def Build (db : MiiDatabase) : List UInt8 :=
  let file := resize db.rest (max db.rest.length kMiiDatabaseFileSize)
  let file := patch file 0 (chars "RNOD")
  let file := patch file kMiiParadeOffset (chars "RNHD")
  let file := patchAll (slotWrites db.slots) file
  patch file kMiiCrcOffset (word16 (Crc16Ccitt (file.take kMiiCrcOffset)).toNat)

/-! ## what is written where -/

/-- all that is written but the checksum -/
def writes (slots : Fin kMiiSlots → Mii) : List (Nat × List UInt8) :=
  (0, chars "RNOD") :: (kMiiParadeOffset, chars "RNHD") :: slotWrites slots

def unsigned (db : MiiDatabase) : List UInt8 :=
  patchAll (writes db.slots) (resize db.rest (max db.rest.length kMiiDatabaseFileSize))

def sign (file : List UInt8) : List UInt8 :=
  patch file kMiiCrcOffset (word16 (Crc16Ccitt (file.take kMiiCrcOffset)).toNat)

theorem Build_eq (db : MiiDatabase) : db.Build = sign db.unsigned := by
  unfold Build sign unsigned writes patchAll
  rw [List.foldl_cons, List.foldl_cons]

theorem slotOffset_le (slot : Fin kMiiSlots) : slotOffset slot + kMiiEntrySize ≤ 0x1CEC := by
  have hslot : (slot : Nat) < 100 := slot.isLt
  show 4 + (slot : Nat) * 0x4A + 0x4A ≤ 0x1CEC
  omega

theorem le_slotOffset (slot : Nat) : 4 ≤ slotOffset slot := Nat.le_add_right 4 _

theorem apart_slots {slot slot' : Fin kMiiSlots} (h : slot ≠ slot') :
    Apart (slotOffset slot) kMiiEntrySize (slotOffset slot') kMiiEntrySize := by
  have hne : (slot : Nat) ≠ slot' := fun heq => h (Fin.ext heq)
  show 4 + (slot : Nat) * 0x4A + 0x4A ≤ 4 + (slot' : Nat) * 0x4A ∨
    4 + (slot' : Nat) * 0x4A + 0x4A ≤ 4 + (slot : Nat) * 0x4A
  omega

theorem mem_writes {slots : Fin kMiiSlots → Mii} {write : Nat × List UInt8} :
    write ∈ writes slots ↔ write = (0, chars "RNOD") ∨ write = (kMiiParadeOffset, chars "RNHD") ∨
      ∃ slot : Fin kMiiSlots, write = (slotOffset slot, (slots slot).raw) := by
  unfold writes slotWrites
  rw [List.mem_cons, List.mem_cons, List.mem_map]
  simp only [List.mem_finRange, true_and, eq_comm]

theorem writes_pairwise (slots : Fin kMiiSlots → Mii) :
    (writes slots).Pairwise fun write write' =>
      Apart write.1 write.2.length write'.1 write'.2.length := by
  have hslots : ∀ write ∈ slotWrites slots, 4 ≤ write.1 ∧ write.1 + write.2.length ≤ 0x1CEC := by
    intro write hmem
    obtain ⟨slot, -, rfl⟩ := List.mem_map.mp hmem
    dsimp only
    rw [(slots slot).size]
    exact ⟨le_slotOffset slot, slotOffset_le slot⟩
  unfold writes
  refine .cons (fun write hmem => ?_) (.cons (fun write hmem => ?_) ?_)
  · rcases List.mem_cons.mp hmem with rfl | hmem
    · exact .inl (by decide)
    · exact .inl (hslots write hmem).1
  · exact .inr ((hslots write hmem).2.trans (by decide))
  · apply List.Pairwise.map _ _ (List.nodup_finRange kMiiSlots)
    intro slot slot' hne
    dsimp only
    rw [(slots slot).size, (slots slot').size]
    exact apart_slots hne

theorem writes_before {slots : Fin kMiiSlots → Mii} {write : Nat × List UInt8}
    (hmem : write ∈ writes slots) : write.1 + write.2.length ≤ kMiiCrcOffset := by
  rcases mem_writes.mp hmem with rfl | rfl | ⟨slot, rfl⟩
  · decide
  · decide
  · have hslot := slotOffset_le slot
    dsimp only
    rw [(slots slot).size]
    exact hslot.trans (by decide)

theorem writes_room {slots : Fin kMiiSlots → Mii} {length : Nat} (h : kMiiDatabaseSize ≤ length) :
    Room (writes slots) length := by
  intro write hmem
  have hbefore := writes_before hmem
  have hcrc : kMiiCrcOffset ≤ kMiiDatabaseSize := by decide
  omega

/-! ## the checksum -/

variable {file : List UInt8}

theorem length_sign (h : kMiiDatabaseSize ≤ file.length) : (sign file).length = file.length :=
  length_patch h

theorem slice_sign {i n : Nat} (h : kMiiDatabaseSize ≤ file.length)
    (hapart : Apart i n kMiiCrcOffset 2) : slice (sign file) i n = slice file i n :=
  slice_patch_of_apart h hapart

theorem take_sign (h : kMiiDatabaseSize ≤ file.length) :
    (sign file).take kMiiCrcOffset = file.take kMiiCrcOffset :=
  slice_sign (i := 0) h (.inl (Nat.le_of_eq (Nat.zero_add _)))

theorem read16_sign (h : kMiiDatabaseSize ≤ file.length) :
    read16 (sign file) kMiiCrcOffset = (Crc16Ccitt (file.take kMiiCrcOffset)).toNat := by
  apply Sysconf.read16_word16 (UInt16.toNat_lt _)
  exact slice_patch h

theorem sign_sign (h : kMiiDatabaseSize ≤ file.length) : sign (sign file) = sign file := by
  show patch (sign file) kMiiCrcOffset
    (word16 (Crc16Ccitt ((sign file).take kMiiCrcOffset)).toNat) = sign file
  rw [take_sign h]
  exact patch_self (slice_patch h)

/-! ## the file that is built -/

/-- zeros after the checksum -/
def ZeroTail (file : List UInt8) : Prop := ∀ k, kMiiDatabaseSize ≤ k → file.getD k 0 = 0

variable {db : MiiDatabase}

theorem length_unsigned (db : MiiDatabase) :
    db.unsigned.length = max db.rest.length kMiiDatabaseFileSize := by
  have hroom : kMiiDatabaseSize ≤ (resize db.rest (max db.rest.length kMiiDatabaseFileSize)).length := by
    rw [length_resize]
    exact le_trans (by decide) (Nat.le_max_right _ _)
  unfold unsigned
  rw [length_patchAll (writes_room hroom), length_resize]

theorem unsigned_room (db : MiiDatabase) : kMiiDatabaseSize ≤ db.unsigned.length := by
  rw [length_unsigned]
  exact le_trans (by decide) (Nat.le_max_right _ _)

theorem slice_unsigned_of_mem {write : Nat × List UInt8} (hmem : write ∈ writes db.slots) :
    slice db.unsigned write.1 write.2.length = write.2 := by
  apply slice_patchAll_of_mem _ (writes_pairwise _) hmem
  rw [length_resize]
  exact writes_room (le_trans (by decide) (Nat.le_max_right _ _))

theorem slice_Build_of_mem {write : Nat × List UInt8} (hmem : write ∈ writes db.slots) :
    slice db.Build write.1 write.2.length = write.2 := by
  rw [Build_eq, slice_sign (unsigned_room db) (.inl (writes_before hmem)),
    slice_unsigned_of_mem hmem]

theorem slice_Build_of_apart {i n : Nat} (hcrc : Apart i n kMiiCrcOffset 2)
    (hapart : ∀ write ∈ writes db.slots, Apart i n write.1 write.2.length) :
    slice db.Build i n =
      slice (resize db.rest (max db.rest.length kMiiDatabaseFileSize)) i n := by
  rw [Build_eq, slice_sign (unsigned_room db) hcrc]
  apply slice_patchAll_of_apart _ hapart
  rw [length_resize]
  exact writes_room (le_trans (by decide) (Nat.le_max_right _ _))

theorem length_Build (db : MiiDatabase) :
    db.Build.length = max db.rest.length kMiiDatabaseFileSize := by
  rw [Build_eq, length_sign (unsigned_room db), length_unsigned]

theorem getD_resize_max (bytes : List UInt8) (n k : Nat) :
    (resize bytes (max bytes.length n)).getD k 0 = bytes.getD k 0 := by
  rcases Nat.lt_or_ge k (max bytes.length n) with hk | hk
  · exact getD_resize bytes hk
  · rw [List.getD_eq_default _ _ (by rw [length_resize]; exact hk),
      List.getD_eq_default _ _ ((Nat.le_max_left _ _).trans hk)]

theorem getD_slice_one (bytes : List UInt8) (k : Nat) : (slice bytes k 1).getD 0 0 = bytes.getD k 0 :=
  getD_slice 0 Nat.one_pos

theorem getD_Build_of_apart {k : Nat} (hcrc : Apart k 1 kMiiCrcOffset 2)
    (hapart : ∀ write ∈ writes db.slots, Apart k 1 write.1 write.2.length) :
    db.Build.getD k 0 = db.rest.getD k 0 := by
  rw [← getD_slice_one, slice_Build_of_apart hcrc hapart, getD_slice_one, getD_resize_max]

theorem zeroTail_Build (h : ZeroTail db.rest) : ZeroTail db.Build := by
  intro k hk
  have hcrc : kMiiCrcOffset ≤ k := le_trans (by decide) hk
  rw [getD_Build_of_apart (.inr hk) fun write hmem => .inr ((writes_before hmem).trans hcrc), h k hk]

theorem any_drop_eq_false {n : Nat} : (file.drop n).any (· ≠ 0) = false ↔ ∀ k, n ≤ k → file.getD k 0 = 0 := by
  rw [List.any_eq_false]
  refine ⟨fun h k hk => ?_, fun h b hb => ?_⟩
  · rcases Nat.lt_or_ge k file.length with hlt | hge
    · have hmem : file[k] ∈ file.drop n := by
        rw [List.mem_drop_iff_getElem]
        refine ⟨k - n, by omega, ?_⟩
        congr 1
        omega
      have hzero := h _ hmem
      rw [List.getD_eq_getElem _ _ hlt]
      simpa using hzero
    · exact List.getD_eq_default _ _ hge
  · obtain ⟨j, hj, rfl⟩ := List.mem_drop_iff_getElem.mp hb
    have hzero := h (n + j) (Nat.le_add_right n j)
    rw [List.getD_eq_getElem _ _ (by omega)] at hzero
    simpa [Nat.add_comm] using hzero

/-- **What is built parses**, with a right checksum and the same slots. -/
theorem Parse_Build (h : ZeroTail db.rest) :
    Parse db.Build = some ({ db with rest := db.Build }, true) := by
  have hlength : kMiiDatabaseSize ≤ db.Build.length := by
    rw [length_Build]
    exact le_trans (by decide) (Nat.le_max_right _ _)
  have hfirst := slice_Build_of_mem
    (mem_writes.mpr (.inl rfl) : (0, chars "RNOD") ∈ writes db.slots)
  have hparade := slice_Build_of_mem
    (mem_writes.mpr (.inr (.inl rfl)) : (kMiiParadeOffset, chars "RNHD") ∈ writes db.slots)
  have hsum : read16 db.Build kMiiCrcOffset = (Crc16Ccitt (db.Build.take kMiiCrcOffset)).toNat := by
    rw [Build_eq, read16_sign (unsigned_room db), take_sign (unsigned_room db)]
  have hslot (slot : Fin kMiiSlots) :
      slice db.Build (slotOffset slot) kMiiEntrySize = (db.slots slot).raw := by
    rw [← (db.slots slot).size]
    exact slice_Build_of_mem (mem_writes.mpr (.inr (.inr ⟨slot, rfl⟩)))
  unfold Parse
  rw [dif_neg (by rw [not_or, not_or]; exact ⟨by omega, fun h => h hfirst, fun h => h hparade⟩),
    any_drop_eq_false.mpr (zeroTail_Build h), if_neg Bool.false_ne_true, decide_eq_true hsum]
  have hslots : (fun slot : Fin kMiiSlots => (⟨slice db.Build (slotOffset slot) kMiiEntrySize,
      (congrArg List.length (hslot slot)).trans (db.slots slot).size⟩ : Mii)) = db.slots := by
    funext slot
    exact Mii.ext (hslot slot)
  exact congrArg (fun slots => some (({ slots := slots, rest := db.Build } : MiiDatabase), true)) hslots

/-- **Building again** changes nothing. -/
theorem Build_Build (db : MiiDatabase) : ({ db with rest := db.Build } : MiiDatabase).Build = db.Build := by
  have hunsigned : ({ db with rest := db.Build } : MiiDatabase).unsigned = db.Build := by
    unfold unsigned
    dsimp only
    rw [resize_of_length (by rw [length_Build, Nat.max_assoc, Nat.max_self])]
    exact patchAll_self fun write hmem => slice_Build_of_mem hmem
  rw [Build_eq, hunsigned, Build_eq, sign_sign (unsigned_room db)]

/-! ## loading and editing -/

/-- the database has what the file has -/
structure Loaded (file : List UInt8) (db : MiiDatabase) : Prop where
  rest : db.rest = file
  tail : ZeroTail file
  holds : ∀ write ∈ writes db.slots, slice file write.1 write.2.length = write.2

theorem loaded_of_Parse {valid : Bool} (h : Parse file = some (db, valid)) : Loaded file db := by
  unfold Parse at h
  split at h
  · cases h
  · next hfixed =>
    rw [not_or, not_or, not_not, not_not] at hfixed
    split at h
    · cases h
    · next htail =>
      cases h
      refine ⟨rfl, any_drop_eq_false.mp (eq_false_of_ne_true htail), fun write hmem => ?_⟩
      rcases mem_writes.mp hmem with rfl | rfl | ⟨slot, rfl⟩
      · exact hfixed.2.1
      · exact hfixed.2.2
      · dsimp only
        rw [length_slice]
        have hslot := slotOffset_le slot
        have hsize : 0x1F1E0 ≤ file.length := not_lt.mp hfixed.1
        omega

theorem mem_emptyWrites {write : Nat × List UInt8} (hmem : write ∈ emptyWrites) :
    write = (0, chars "RNOD") ∨ write = (slotOffset kMiiSlots, [0x80]) ∨
      write = (kMiiParadeOffset, chars "RNHD" ++ [0xFF, 0xFF, 0xFF, 0xFF]) ∨
        0x1D10 ≤ write.1 ∧ write.1 + write.2.length ≤ kMiiCrcOffset := by
  unfold emptyWrites at hmem
  rw [List.mem_cons, List.mem_cons, List.mem_cons, List.mem_map] at hmem
  rcases hmem with rfl | rfl | rfl | ⟨entry, hentry, rfl⟩
  · exact .inl rfl
  · exact .inr (.inl rfl)
  · exact .inr (.inr (.inl rfl))
  · have hlt := List.mem_range.mp hentry
    refine .inr (.inr (.inr ?_))
    show 0x1D10 ≤ 0x1D10 + entry * 12 ∧ 0x1D10 + entry * 12 + 4 ≤ 0x1F1DE
    omega

theorem emptyWrites_before {write : Nat × List UInt8} (hmem : write ∈ emptyWrites) :
    write.1 + write.2.length ≤ kMiiCrcOffset := by
  rcases mem_emptyWrites hmem with rfl | rfl | rfl | ⟨-, h⟩
  · decide
  · decide
  · decide
  · exact h

theorem emptyWrites_room : Room emptyWrites (List.replicate kMiiDatabaseFileSize (0 : UInt8)).length := by
  intro write hmem
  rw [List.length_replicate]
  exact (emptyWrites_before hmem).trans (by decide)

theorem emptyWrites_pairwise : emptyWrites.Pairwise fun write write' =>
    Apart write.1 write.2.length write'.1 write'.2.length := by
  have hentries : ∀ write ∈ (List.range 10000).map (fun entry : Nat =>
      (kMiiParadeOffset + 0x10 + entry * 12, ([0x7F, 0xFF, 0x7F, 0xFF] : List UInt8))),
      0x1D10 ≤ write.1 := by
    intro write hmem
    obtain ⟨entry, -, rfl⟩ := List.mem_map.mp hmem
    show 0x1D10 ≤ 0x1D10 + entry * 12
    omega
  have hlater {offset n : Nat} (hn : offset + n ≤ 0x1D10) : ∀ write ∈ (List.range 10000).map
      (fun entry : Nat =>
        (kMiiParadeOffset + 0x10 + entry * 12, ([0x7F, 0xFF, 0x7F, 0xFF] : List UInt8))),
      Apart offset n write.1 write.2.length :=
    fun write hmem => .inl (hn.trans (hentries write hmem))
  unfold emptyWrites
  refine .cons (fun write hmem => ?_) (.cons (fun write hmem => ?_)
    (.cons (hlater (by decide)) ?_))
  · rw [List.mem_cons, List.mem_cons] at hmem
    rcases hmem with rfl | rfl | hmem
    · exact .inl (by decide)
    · exact .inl (by decide)
    · exact hlater (by decide) write hmem
  · rw [List.mem_cons] at hmem
    rcases hmem with rfl | hmem
    · exact .inl (by decide)
    · exact hlater (by decide) write hmem
  · apply List.Pairwise.map _ _ List.nodup_range
    intro entry entry' hne
    show 0x1D10 + entry * 12 + 4 ≤ 0x1D10 + entry' * 12 ∨
      0x1D10 + entry' * 12 + 4 ≤ 0x1D10 + entry * 12
    omega

theorem slice_replicate {i n m : Nat} (h : i + n ≤ m) :
    slice (List.replicate m (0 : UInt8)) i n = List.replicate n 0 := by
  unfold slice
  rw [List.drop_replicate, List.take_replicate, Nat.min_eq_left (by omega)]

theorem loaded_Empty : Loaded emptyFile Empty := by
  have hmem {write : Nat × List UInt8} (h : write ∈ emptyWrites) :
      slice emptyFile write.1 write.2.length = write.2 :=
    slice_patchAll_of_mem emptyWrites_room emptyWrites_pairwise h
  have hrest : Empty.rest = emptyFile := by rw [Empty]
  refine ⟨hrest, fun k hk => ?_, fun write hwrite => ?_⟩
  · have hcrc : kMiiCrcOffset ≤ k := le_trans (by decide) hk
    have hslice : slice emptyFile k 1 = slice (List.replicate kMiiDatabaseFileSize 0) k 1 :=
      slice_patchAll_of_apart emptyWrites_room fun write hmem =>
        .inr ((emptyWrites_before hmem).trans hcrc)
    rw [← getD_slice_one, hslice, getD_slice_one]
    rcases Nat.lt_or_ge k kMiiDatabaseFileSize with hlt | hge
    · rw [List.getD_eq_getElem _ _ (by rw [List.length_replicate]; exact hlt),
        List.getElem_replicate]
    · exact List.getD_eq_default _ _ (by rw [List.length_replicate]; exact hge)
  · rcases mem_writes.mp hwrite with rfl | rfl | ⟨slot, rfl⟩
    · have hfirst : (0, chars "RNOD") ∈ emptyWrites := List.mem_cons_self
      exact hmem hfirst
    · have hparade : (kMiiParadeOffset, chars "RNHD" ++ [0xFF, 0xFF, 0xFF, 0xFF]) ∈ emptyWrites :=
        List.mem_cons_of_mem _ (List.mem_cons_of_mem _ List.mem_cons_self)
      have hboth := hmem hparade
      have hpart := congrArg (slice · 0 4) hboth
      dsimp only at hpart
      rw [slice_slice _ _ (by decide)] at hpart
      exact hpart
    · have hslot := slotOffset_le slot
      have hstart := le_slotOffset slot
      have hslice : slice emptyFile (slotOffset slot) kMiiEntrySize =
          slice (List.replicate kMiiDatabaseFileSize 0) (slotOffset slot) kMiiEntrySize := by
        apply slice_patchAll_of_apart emptyWrites_room
        intro write hmem
        rcases mem_emptyWrites hmem with rfl | rfl | rfl | ⟨h, -⟩
        · exact .inr hstart
        · exact .inl hslot
        · exact .inl (hslot.trans (by decide))
        · exact .inl (hslot.trans (le_trans (by decide) h))
      show slice emptyFile (slotOffset slot) kMiiEntrySize = List.replicate kMiiEntrySize 0
      rw [hslice, slice_replicate (hslot.trans (by decide))]

inductive Edit where
  | Put (slot : Nat) (mii : Mii)
  | Remove (slot : Nat)

def Edit.slot : Edit → Nat
  | .Put slot _ => slot
  | .Remove slot => slot

def edit (db : MiiDatabase) : Edit → MiiDatabase
  | .Put slot mii => (db.Put slot mii).1
  | .Remove slot => (db.Remove slot).1

def edited (db : MiiDatabase) (edits : List Edit) : MiiDatabase := edits.foldl edit db

theorem rest_edit (db : MiiDatabase) (e : Edit) : (db.edit e).rest = db.rest := by
  cases e with
  | Put slot mii =>
    show (db.Put slot mii).1.rest = _
    unfold Put
    split <;> rfl
  | Remove slot =>
    show (db.Remove slot).1.rest = _
    unfold Remove
    split <;> rfl

/-- an edit changes its own slot only -/
theorem slots_edit_of_ne {e : Edit} {slot : Fin kMiiSlots} (h : e.slot ≠ slot) :
    (db.edit e).slots slot = db.slots slot := by
  have hupdate (mii : Mii) (hlt : e.slot < kMiiSlots) :
      Function.update db.slots ⟨e.slot, hlt⟩ mii slot = db.slots slot :=
    Function.update_of_ne (fun heq => h (congrArg Fin.val heq).symm) _ _
  cases e with
  | Put target mii =>
    show (db.Put target mii).1.slots slot = _
    unfold Put
    split
    · next hlt => exact hupdate mii hlt
    · rfl
  | Remove target =>
    show (db.Remove target).1.slots slot = _
    unfold Remove
    split
    · next hlt => exact hupdate Mii.none hlt
    · rfl

theorem edited_spec (db : MiiDatabase) (edits : List Edit) :
    (db.edited edits).rest = db.rest ∧ ∀ slot : Fin kMiiSlots, (∀ e ∈ edits, e.slot ≠ slot) →
      (db.edited edits).slots slot = db.slots slot := by
  induction edits generalizing db with
  | nil => exact ⟨rfl, fun _ _ => rfl⟩
  | cons e edits ih =>
    obtain ⟨hrest, hslots⟩ := ih (db.edit e)
    refine ⟨hrest.trans (rest_edit db e), fun slot h => ?_⟩
    exact (hslots slot fun e' he' => h e' (List.mem_cons_of_mem _ he')).trans
      (slots_edit_of_ne (h e List.mem_cons_self))

/-- what a file is of a database with some slots, given the file it came from -/
structure Carried (file : List UInt8) (before db : MiiDatabase) : Prop where
  parses : ∃ db', Parse db.Build = some (db', true) ∧ db'.slots = db.slots ∧ db'.Build = db.Build
  length : db.Build.length = max file.length kMiiDatabaseFileSize
  /-- what is not the checksum nor in a slot that changed; past the end of the file, zeros -/
  kept : ∀ k, k ≠ kMiiCrcOffset → k ≠ kMiiCrcOffset + 1 →
    (∀ slot : Fin kMiiSlots, slotOffset slot ≤ k → k < slotOffset slot + kMiiEntrySize →
      db.slots slot = before.slots slot) → db.Build.getD k 0 = file.getD k 0

theorem getD_of_slice {bytes bytes' : List UInt8} {i k n : Nat} (h : slice bytes i n = slice bytes' i n)
    (hle : i ≤ k) (hlt : k < i + n) : bytes.getD k 0 = bytes'.getD k 0 := by
  have hat : (slice bytes i n).getD (k - i) 0 = (slice bytes' i n).getD (k - i) 0 := by rw [h]
  rw [getD_slice 0 (by omega), getD_slice 0 (by omega), Nat.add_sub_cancel' hle] at hat
  exact hat

theorem carried_of_loaded {before : MiiDatabase} (h : Loaded file before) (hrest : db.rest = before.rest) :
    Carried file before db := by
  have hfile : db.rest = file := hrest.trans h.rest
  have htail : ZeroTail db.rest := hfile ▸ h.tail
  refine ⟨⟨_, Parse_Build htail, rfl, Build_Build db⟩, by rw [length_Build, hfile], ?_⟩
  intro k hcrc hcrc' hslots
  by_cases hin : ∃ write ∈ writes db.slots, ¬Apart k 1 write.1 write.2.length
  · -- in a range that is written: there it is what was read
    obtain ⟨write, hmem, hin⟩ := hin
    unfold Apart at hin
    have hsame : write ∈ writes before.slots := by
      rcases mem_writes.mp hmem with rfl | rfl | ⟨slot, rfl⟩
      · exact mem_writes.mpr (.inl rfl)
      · exact mem_writes.mpr (.inr (.inl rfl))
      · dsimp only at hin
        rw [(db.slots slot).size] at hin
        rw [hslots slot (by omega) (by omega)]
        exact mem_writes.mpr (.inr (.inr ⟨slot, rfl⟩))
    exact getD_of_slice ((slice_Build_of_mem hmem).trans (h.holds write hsame).symm) (by omega)
      (by omega)
  · push Not at hin
    have hapart : Apart k 1 kMiiCrcOffset 2 := by
      unfold Apart
      omega
    rw [getD_Build_of_apart hapart hin, hfile]

/-- where a database is from: a file that parses, or none -/
def Origin (file : List UInt8) (db : MiiDatabase) : Prop :=
  (∃ valid, Parse file = some (db, valid)) ∨ file = emptyFile ∧ db = Empty

/-- **What is not interpreted is carried**, through any edits. -/
theorem carried_edited (h : Origin file db) (edits : List Edit) :
    Carried file db (db.edited edits) := by
  have hloaded : Loaded file db := by
    rcases h with ⟨valid, hparse⟩ | ⟨hfile, hdb⟩
    · exact loaded_of_Parse hparse
    · rw [hfile, hdb]
      exact loaded_Empty
  exact carried_of_loaded hloaded (edited_spec db edits).1

theorem carried_edited_Empty :
    Carried emptyFile Empty (Empty.edited [.Put 3 ⟨List.replicate kMiiEntrySize 1, List.length_replicate⟩,
      .Remove 99, .Remove 100]) := by
  have horigin : Origin emptyFile Empty := by
    right
    exact ⟨rfl, rfl⟩
  exact carried_edited horigin _

end MiiDatabase

end DolTranslator.Nand
