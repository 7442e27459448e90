import DolTranslator.Disc.Directory
import DolTranslator.Streams.Checked

/-!
# The accesses of reading a U8 archive

The reader of `Directory` with each access to the archive checked.

* `U8.parseChecked`   `U8::Parse`;
* `U8.ParseBounded`   what the fields have to be like;
* `U8.parseChecked_safe_iff`   no access is outside, and every file is in the archive, just when
  they are.
-/

namespace DolTranslator.Disc

open Streams Trees

namespace U8

variable (data : List UInt8)

/-- `name_at`: no name behind the names, and else up to the first zero -/
def nameChecked (namesAt namesSize offset : Nat) : Checked (List UInt8) :=
  if namesSize ≤ offset then .ok []
  else scan (· == 0) (namesSize - offset) (data.drop (namesAt + offset))

/-- the loop over the nodes -/
def entriesChecked (nodesAt namesAt namesSize : Nat) :
    Nat → Nat → List (Open (List UInt8)) → Checked (List Entry)
  | 0, _, _ => .ok []
  | left + 1, index, stack => do
    within data.length (nodesAt + index * kNodeSize) kNodeSize
    let fields := readNode data (nodesAt + index * kNodeSize)
    let stack := close index stack
    let name ← nameChecked data namesAt namesSize fields.nameOffset
    let path := folderPath stack ++ name
    if fields.directory then
      let rest ← entriesChecked nodesAt namesAt namesSize left (index + 1)
        (⟨name, fields.third⟩ :: stack)
      return ⟨path, true, 0, 0⟩ :: rest
    else
      -- a file that runs past the archive
      require (fields.second + fields.third ≤ data.length)
      let rest ← entriesChecked nodesAt namesAt namesSize left (index + 1) stack
      return ⟨path, false, fields.second, fields.third⟩ :: rest

/-- `U8::Parse` -/
def parseChecked : Checked (List Entry) := do
  require (0x20 ≤ data.length)
  within data.length 0 4
  require (read32 data 0 = kU8Magic)
  within data.length 0x04 8
  let nodesAt := read32 data 0x04
  let tablesSize := read32 data 0x08
  require (nodesAt + kNodeSize ≤ data.length ∧ (nodesAt + tablesSize) % 2 ^ 32 ≤ data.length)
  within data.length (nodesAt + 8) 4
  let count := read32 data (nodesAt + 8)
  require (count ≠ 0 ∧ count * kNodeSize ≤ tablesSize)
  entriesChecked data nodesAt (nodesAt + count * kNodeSize) (tablesSize - count * kNodeSize)
    (count - 1) 1 []

/-! ## the fields -/

/-- the node at an index is a folder, or a file in the archive -/
def Kept (nodesAt index : Nat) : Prop :=
  (readNode data (nodesAt + index * kNodeSize)).directory = true ∨
    (readNode data (nodesAt + index * kNodeSize)).second +
      (readNode data (nodesAt + index * kNodeSize)).third ≤ data.length

/-- a node is there, and so is its name, or a zero behind the start of the name -/
def NodeThere (nodesAt namesAt namesSize index : Nat) : Prop :=
  let offset := (readNode data (nodesAt + index * kNodeSize)).nameOffset
  nodesAt + index * kNodeSize + kNodeSize ≤ data.length ∧
    (offset < namesSize → Ends (· == 0) (namesSize - offset) (data.drop (namesAt + offset)))

/-- every node from the first one on is there, up to a file that is not in the archive -/
def NodesThere (nodesAt namesAt namesSize count : Nat) : Prop :=
  ∀ index, 1 ≤ index → index < count →
    (∀ before, 1 ≤ before → before < index → Kept data nodesAt before) →
      NodeThere data nodesAt namesAt namesSize index

/-- the header passes the checks, the last of which is of a sum of 32 bits -/
structure Accepted : Prop where
  header : 0x20 ≤ data.length
  magic : read32 data 0 = kU8Magic
  root : read32 data 0x04 + kNodeSize ≤ data.length
  tables : (read32 data 0x04 + read32 data 0x08) % 2 ^ 32 ≤ data.length
  count : read32 data (read32 data 0x04 + 8) ≠ 0
  nodes : read32 data (read32 data 0x04 + 8) * kNodeSize ≤ read32 data 0x08

/-- the tables are in the archive, or it has what is read of them -/
def ParseBounded : Prop :=
  Accepted data → read32 data 0x04 + read32 data 0x08 ≤ data.length ∨
    NodesThere data (read32 data 0x04)
      (read32 data 0x04 + read32 data (read32 data 0x04 + 8) * kNodeSize)
      (read32 data 0x08 - read32 data (read32 data 0x04 + 8) * kNodeSize)
      (read32 data (read32 data 0x04 + 8))

/-- every file that was read is in the archive -/
def FilesInside (entries : List Entry) : Prop :=
  ∀ e ∈ entries, e.directory = false → e.offset + e.size ≤ data.length

variable {data} {nodesAt namesAt namesSize : Nat}

/-! ## a node -/

theorem nameChecked_of_ends {offset : Nat}
    (h : offset < namesSize → Ends (· == 0) (namesSize - offset) (data.drop (namesAt + offset))) :
    nameChecked data namesAt namesSize offset =
      .ok (nameAt (slice data namesAt namesSize) offset) := by
  unfold nameChecked nameAt slice
  rw [List.drop_take, List.drop_drop]
  rcases Nat.lt_or_ge offset namesSize with hlt | hge
  · rw [if_neg (Nat.not_le.mpr hlt), scan_eq, if_pos (h hlt)]
    refine congrArg Except.ok (congrArg (List.takeWhile · _) (funext fun b => ?_))
    show (!decide (b = 0)) = decide (b ≠ 0)
    exact (decide_not).symm
  · rw [if_pos hge, Nat.sub_eq_zero_of_le hge]
    rfl

theorem nameChecked_of_not_ends {offset : Nat} (hlt : offset < namesSize)
    (h : ¬Ends (· == 0) (namesSize - offset) (data.drop (namesAt + offset))) :
    nameChecked data namesAt namesSize offset = .error .outside := by
  unfold nameChecked
  rw [if_neg (Nat.not_le.mpr hlt), scan_eq, if_neg h]

variable {index left : Nat}

theorem entriesChecked_of_there {stack : List (Open (List UInt8))}
    (h : NodeThere data nodesAt namesAt namesSize index) :
    entriesChecked data nodesAt namesAt namesSize (left + 1) index stack =
      (let fields := readNode data (nodesAt + index * kNodeSize)
      let name := nameAt (slice data namesAt namesSize) fields.nameOffset
      let path := folderPath (close index stack) ++ name
      if fields.directory then
        entriesChecked data nodesAt namesAt namesSize left (index + 1)
          (⟨name, fields.third⟩ :: close index stack) >>= fun rest =>
        .ok (⟨path, true, 0, 0⟩ :: rest)
      else
        require (fields.second + fields.third ≤ data.length) >>= fun _ =>
        entriesChecked data nodesAt namesAt namesSize left (index + 1) (close index stack) >>=
          fun rest => .ok (⟨path, false, fields.second, fields.third⟩ :: rest)) := by
  rw [entriesChecked, within_of_le h.1, ok_bind]
  dsimp only
  rw [nameChecked_of_ends h.2, ok_bind]
  rfl

theorem entriesChecked_of_not_there {stack : List (Open (List UInt8))}
    (h : ¬NodeThere data nodesAt namesAt namesSize index) :
    entriesChecked data nodesAt namesAt namesSize (left + 1) index stack = .error .outside := by
  rw [entriesChecked]
  rcases Nat.lt_or_ge data.length (nodesAt + index * kNodeSize + kNodeSize) with hlt | hge
  · rw [within_of_lt (by decide) hlt, error_bind]
  · rw [within_of_le hge, ok_bind]
    dsimp only
    obtain ⟨hoffset, hends⟩ := Classical.not_imp.mp fun hname => h ⟨hge, hname⟩
    rw [nameChecked_of_not_ends hoffset hends, error_bind]

theorem upTo_succ {kept there : Nat → Prop} :
    (∀ i, index ≤ i → i < index + (left + 1) → (∀ j, index ≤ j → j < i → kept j) → there i) ↔
      there index ∧ (kept index →
        ∀ i, index + 1 ≤ i → i < index + 1 + left → (∀ j, index + 1 ≤ j → j < i → kept j) →
          there i) := by
  constructor
  · intro h
    refine ⟨h index le_rfl (by omega) fun j _ _ => by omega, fun hkept i hi hlt hbefore => ?_⟩
    refine h i (by omega) (by omega) fun j hj hji => ?_
    rcases Nat.eq_or_lt_of_le hj with rfl | hj
    · exact hkept
    · exact hbefore j hj hji
  · rintro ⟨hindex, hrest⟩ i hi hlt hbefore
    rcases Nat.eq_or_lt_of_le hi with rfl | hi
    · exact hindex
    · exact hrest (hbefore index le_rfl hi) i hi (by omega) fun j hj hji =>
        hbefore j (by omega) hji

theorem entriesChecked_safe_iff (left index : Nat) (stack : List (Open (List UInt8))) :
    Safe (entriesChecked data nodesAt namesAt namesSize left index stack) ↔
      ∀ i, index ≤ i → i < index + left → (∀ j, index ≤ j → j < i → Kept data nodesAt j) →
        NodeThere data nodesAt namesAt namesSize i := by
  induction left generalizing index stack with
  | zero => exact ⟨fun _ i hi hlt => by omega, fun _ => safe_ok []⟩
  | succ left ih =>
    rw [upTo_succ]
    by_cases hthere : NodeThere data nodesAt namesAt namesSize index
    · rw [entriesChecked_of_there hthere, and_iff_right hthere]
      dsimp only
      by_cases hfolder : (readNode data (nodesAt + index * kNodeSize)).directory = true
      · rw [if_pos hfolder, safe_bind_ok, ih]
        exact ⟨fun h _ => h, fun h => h (.inl hfolder)⟩
      · rw [if_neg hfolder, safe_require_bind, safe_bind_ok, ih]
        exact ⟨fun h hkept => h (hkept.resolve_left hfolder), fun h hin => h (.inr hin)⟩
    · rw [entriesChecked_of_not_there hthere]
      exact ⟨fun h => absurd h not_safe_outside, fun h => absurd h.1 hthere⟩

theorem filesInside_of_ok {stack : List (Open (List UInt8))}
    {entries : List Entry}
    (h : entriesChecked data nodesAt namesAt namesSize left index stack = .ok entries) :
    FilesInside data entries := by
  induction left generalizing index stack entries with
  | zero =>
    obtain rfl := Except.ok.inj h
    exact fun e he => absurd he List.not_mem_nil
  | succ left ih =>
    have hthere : NodeThere data nodesAt namesAt namesSize index := by
      by_contra hnot
      rw [entriesChecked_of_not_there hnot] at h
      cases h
    rw [entriesChecked_of_there hthere] at h
    dsimp only at h
    split at h
    · obtain ⟨rest, hrest, heq⟩ := bind_ok h
      obtain rfl := Except.ok.inj heq
      exact List.forall_mem_cons.mpr ⟨fun hfile => (by cases hfile), ih hrest⟩
    · obtain ⟨hin, h⟩ := require_ok h
      obtain ⟨rest, hrest, heq⟩ := bind_ok h
      obtain rfl := Except.ok.inj heq
      exact List.forall_mem_cons.mpr ⟨fun _ => hin, ih hrest⟩

/-! ## the archive -/

def nodesChecked (data : List UInt8) : Checked (List Entry) :=
  entriesChecked data (read32 data 0x04)
    (read32 data 0x04 + read32 data (read32 data 0x04 + 8) * kNodeSize)
    (read32 data 0x08 - read32 data (read32 data 0x04 + 8) * kNodeSize)
    (read32 data (read32 data 0x04 + 8) - 1) 1 []

theorem parseChecked_of_accepted (h : Accepted data) : parseChecked data = nodesChecked data := by
  have hheader := h.header
  have hroot : read32 data 0x04 + 12 ≤ data.length := h.root
  unfold parseChecked
  rw [require_pos h.header, ok_bind, within_of_le (by omega), ok_bind, require_pos h.magic, ok_bind,
    within_of_le (by omega), ok_bind]
  dsimp only
  rw [require_pos ⟨h.root, h.tables⟩, ok_bind, within_of_le (by omega), ok_bind,
    require_pos ⟨h.count, h.nodes⟩, ok_bind]
  rfl

theorem parseChecked_of_not (h : ¬Accepted data) : parseChecked data = .error .refused := by
  unfold parseChecked
  by_cases hheader : 0x20 ≤ data.length
  · rw [require_pos hheader, ok_bind, within_of_le (by omega), ok_bind]
    by_cases hmagic : read32 data 0 = kU8Magic
    · rw [require_pos hmagic, ok_bind, within_of_le (by omega), ok_bind]
      dsimp only
      by_cases htables : read32 data 0x04 + kNodeSize ≤ data.length ∧
          (read32 data 0x04 + read32 data 0x08) % 2 ^ 32 ≤ data.length
      · have hroot : read32 data 0x04 + 12 ≤ data.length := htables.1
        rw [require_pos htables, ok_bind, within_of_le (by omega), ok_bind]
        by_cases hnodes : read32 data (read32 data 0x04 + 8) ≠ 0 ∧
            read32 data (read32 data 0x04 + 8) * kNodeSize ≤ read32 data 0x08
        · exact absurd ⟨hheader, hmagic, htables.1, htables.2, hnodes.1, hnodes.2⟩ h
        · rw [require_neg hnodes, error_bind]
      · rw [require_neg htables, error_bind]
    · rw [require_neg hmagic, error_bind]
  · rw [require_neg hheader, error_bind]

theorem nodesThere_of_le {count : Nat} {tablesSize : Nat}
    (hnodes : count * kNodeSize ≤ tablesSize) (htables : nodesAt + tablesSize ≤ data.length) :
    NodesThere data nodesAt (nodesAt + count * kNodeSize) (tablesSize - count * kNodeSize)
      count := by
  intro index _ hlt _
  have hmul := Nat.mul_le_mul_right kNodeSize (show index + 1 ≤ count from hlt)
  rw [Nat.succ_mul] at hmul
  refine ⟨by omega, fun hoffset => .inl ?_⟩
  rw [List.length_drop]
  omega

theorem nodesChecked_safe_iff (h : Accepted data) :
    Safe (nodesChecked data) ↔
      NodesThere data (read32 data 0x04)
        (read32 data 0x04 + read32 data (read32 data 0x04 + 8) * kNodeSize)
        (read32 data 0x08 - read32 data (read32 data 0x04 + 8) * kNodeSize)
        (read32 data (read32 data 0x04 + 8)) := by
  unfold nodesChecked NodesThere
  rw [entriesChecked_safe_iff,
    show 1 + (read32 data (read32 data 0x04 + 8) - 1) = read32 data (read32 data 0x04 + 8) from
      Nat.add_sub_cancel' (Nat.pos_of_ne_zero h.count)]

/-- **every access is in the archive and so is every file that was read, just when the tables are in
the archive, or it has each node that is looked at and the end of its name** -/
theorem parseChecked_safe_iff (data : List UInt8) :
    (Safe (parseChecked data) ∧
      ∀ entries, parseChecked data = .ok entries → FilesInside data entries) ↔
    ParseBounded data := by
  by_cases h : Accepted data
  · rw [parseChecked_of_accepted h, nodesChecked_safe_iff h]
    refine ⟨fun hsafe _ => .inr hsafe.1, fun hbounded => ⟨?_, fun entries hok => ?_⟩⟩
    · rcases hbounded h with htables | hthere
      · exact nodesThere_of_le h.nodes htables
      · exact hthere
    · exact filesInside_of_ok hok
  · rw [parseChecked_of_not h]
    exact ⟨fun _ h' => absurd h' h, fun _ => ⟨safe_refused, fun _ hok => (by cases hok)⟩⟩

/-- one node beside the root, at 0x20, and tables said to have so many bytes -/
def oneNode (tablesSize : Nat) : List UInt8 :=
  word32 kU8Magic ++ word32 0x20 ++ word32 tablesSize ++ List.replicate 20 0 ++
    List.replicate 8 0 ++ word32 2 ++ [0, 0, 0, 7] ++ word32 0 ++ word32 1

/-- tables of 2^32 - 16 bytes from 0x20 on end at 16: the check passes, and the name of the node is
looked for behind the archive -/
theorem parseChecked_outside : ¬Safe (parseChecked (oneNode 0xFFFFFFF0)) := by decide +kernel

end U8

end DolTranslator.Disc
