import DolTranslator.Disc.Source
import DolTranslator.Trees.Preorder

/-!
# Directory tables

U8 archives and discs keep their directories alike: nodes of twelve bytes in pre-order, where a
folder says which node it ends before, and the names behind them.

* `U8.parse`, `Image.readFileTable`, `find`   the readers;
* `Tables`   a tree written as such a table;
* `directory_round_trip`   the readers give its entries back.
-/

namespace DolTranslator.Disc

open Streams Trees

/-! ## the readers -/

/-- `U8Entry`, and the `Entry` of a disc -/
structure Entry where
  path : List UInt8
  directory : Bool
  offset : Nat
  size : Nat
  deriving DecidableEq

def kNodeSize : Nat := 12

/-- the fields of a node -/
structure NodeFields where
  directory : Bool
  nameOffset : Nat
  second : Nat
  third : Nat

def readNode (table : List UInt8) (pos : Nat) : NodeFields where
  directory := decide (byteAt table pos ≠ 0)
  nameOffset := read32 table pos % 2 ^ 24
  second := read32 table (pos + 4)
  third := read32 table (pos + 8)

/-- `name_at`: up to the first zero, or the end -/
def nameAt (names : List UInt8) (offset : Nat) : List UInt8 :=
  (names.drop offset).takeWhile (· ≠ 0)

/-- the path so far: every open folder and a slash -/
def folderPath (stack : List (Open (List UInt8))) : List UInt8 :=
  stack.reverse.flatMap fun folder => folder.path ++ [0x2F]

/-- the loop over the nodes, from `index` on; `file` is what becomes of the numbers of a file -/
def readEntries (node : Nat → NodeFields) (name : Nat → List UInt8)
    (file : Nat → Nat → Option (Nat × Nat)) :
    Nat → Nat → List (Open (List UInt8)) → Option (List Entry)
  | 0, _, _ => some []
  | left + 1, index, stack =>
    let fields := node index
    let stack := close index stack
    let path := folderPath stack ++ name fields.nameOffset
    if fields.directory then
      (readEntries node name file left (index + 1)
        (⟨name fields.nameOffset, fields.third⟩ :: stack)).map (⟨path, true, 0, 0⟩ :: ·)
    else
      match file fields.second fields.third with
      | none => none
      | some (offset, size) =>
        (readEntries node name file left (index + 1) stack).map (⟨path, false, offset, size⟩ :: ·)

/-- `U8::Find`, `Image::Find` -/
def find (entries : List Entry) (path : List UInt8) : Option Entry :=
  entries.find? fun e => decide (e.path = path)

def kU8Magic : Nat := 0x55AA382D

/-- `U8::Parse`; the end of the tables is added up in 32 bits -/
def U8.parse (data : List UInt8) : Option (List Entry) :=
  let size := data.length
  if size < 0x20 ∨ read32 data 0 ≠ kU8Magic then none
  else
    let nodesAt := read32 data 0x04
    let tablesSize := read32 data 0x08
    if size < nodesAt + kNodeSize ∨ size < (nodesAt + tablesSize) % 2 ^ 32 then none
    else
      let count := read32 data (nodesAt + 8)
      if count = 0 ∨ tablesSize < count * kNodeSize then none
      else
        let names := slice data (nodesAt + count * kNodeSize) (tablesSize - count * kNodeSize)
        readEntries (fun index => readNode data (nodesAt + index * kNodeSize)) (nameAt names)
          -- a file that runs past the archive
          (fun second third => if size < second + third then none else some (second, third))
          (count - 1) 1 []

inductive Console where
  | gameCube | wii
  deriving DecidableEq

/-- `Image`: where its file table is; `data` is what `ReadData` reads -/
structure Image where
  console : Console
  fstOffset : Nat
  fstSize : Nat
  data : Source

/-- the bytes that a number stands for: a Wii disc counts in four-byte units -/
def Console.unit : Console → Nat
  | .gameCube => 1
  | .wii => 4

/-- `Image::ReadFileTable` -/
def Image.readFileTable (img : Image) : Option (List Entry) :=
  if img.fstSize = 0 ∨ 16 * 1024 * 1024 < img.fstSize then none
  else
    match img.data.read (img.fstOffset * img.console.unit) (img.fstSize * img.console.unit) with
    | none => none
    | some table =>
      if table.length < kNodeSize then none
      else
        let count := read32 table 8
        if count = 0 ∨ table.length < count * kNodeSize then none
        else
          readEntries (fun index => readNode table (index * kNodeSize))
            (nameAt (table.drop (count * kNodeSize)))
            (fun second third => some (second * img.console.unit, third)) (count - 1) 1 []

/-! ## the writer -/

abbrev Tree := Forest (List UInt8) (Nat × Nat)

def NoZero (name : List UInt8) : Prop := (0 : UInt8) ∉ name

instance (name : List UInt8) : Decidable (NoZero name) := inferInstanceAs (Decidable (_ ∉ _))

/-- what becomes of a row: a folder has no offset and no size -/
def toEntry (e : List (List UInt8) × Option (Nat × Nat)) : Entry :=
  match e.2 with
  | none => ⟨[(0x2F : UInt8)].intercalate e.1, true, 0, 0⟩
  | some (offset, size) => ⟨[(0x2F : UInt8)].intercalate e.1, false, offset, size⟩

def nameRecord (rows : List (Row (List UInt8) (Nat × Nat))) (i : Nat) : List UInt8 :=
  match rows[i]? with
  | none => []
  | some row => row.1 ++ [0]

/-- a tree and how it is written: the bytes in front of the names and after them, the second word of
each folder, and the unit of a file's offset -/
structure Tables where
  tree : Tree
  before : List UInt8
  after : List UInt8
  parent : Nat → Nat
  unit : Nat
  noZero : tree.AllNames NoZero
  count_lt : tree.size + 1 < 2 ^ 32
  names_lt : before.length + start (nameRecord (tree.rows 1)) tree.size ≤ 2 ^ 24
  files_fit : ∀ name offset size, (name, Sum.inl (offset, size)) ∈ tree.rows 1 →
    unit ∣ offset ∧ offset / unit < 2 ^ 32 ∧ size < 2 ^ 32

namespace Tables

variable (w : Tables)

def nameOffset (i : Nat) : Nat := w.before.length + start (nameRecord (w.tree.rows 1)) i

/-- the words of a node: the root, and one for each row -/
def nodeWords : Nat → Nat × Nat × Nat
  | 0 => (2 ^ 24, 0, w.tree.size + 1)
  | i + 1 =>
    match (w.tree.rows 1)[i]? with
    | none => (0, 0, 0)
    | some (_, .inl (offset, size)) => (w.nameOffset i, offset / w.unit, size)
    | some (_, .inr ends) => (2 ^ 24 + w.nameOffset i, w.parent i % 2 ^ 32, ends)

def node (i : Nat) : List UInt8 :=
  word32 (w.nodeWords i).1 ++ word32 (w.nodeWords i).2.1 ++ word32 (w.nodeWords i).2.2

def names : List UInt8 :=
  w.before ++ records (nameRecord (w.tree.rows 1)) w.tree.size ++ w.after

def table : List UInt8 := records w.node (w.tree.size + 1) ++ w.names

/-- one entry for each node but the root, in pre-order -/
def entries : List Entry := (w.tree.entries []).map toEntry

/-- a U8 archive: the header, the table behind a gap, and whatever follows it -/
def archive (gap dataArea : List UInt8) : List UInt8 :=
  word32 kU8Magic ++ word32 (0x20 + gap.length) ++ word32 w.table.length ++
    word32 (0x20 + gap.length + w.table.length) ++ List.replicate 16 0 ++ gap ++ w.table ++ dataArea

/-- every file is inside a number of bytes -/
def FilesInside (size : Nat) : Prop :=
  ∀ name offset length, (name, Sum.inl (offset, length)) ∈ w.tree.rows 1 → offset + length ≤ size

/-- the table of an image -/
structure TableOf (img : Image) : Prop where
  unit : w.unit = img.console.unit
  size : w.table.length = img.fstSize * img.console.unit
  read : img.data.read (img.fstOffset * img.console.unit) w.table.length = some w.table

end Tables

/-! ## the loop is the walk -/

/-- what the reader makes of a node is a row -/
def ReadsRow (node : Nat → NodeFields) (name : Nat → List UInt8)
    (file : Nat → Nat → Option (Nat × Nat)) (index : Nat) (row : Row (List UInt8) (Nat × Nat)) :
    Prop :=
  name (node index).nameOffset = row.1 ∧
    match row.2 with
    | .inl value => (node index).directory = false ∧
        file (node index).second (node index).third = some value
    | .inr ends => (node index).directory = true ∧ (node index).third = ends

theorem flatMap_append_eq_intercalate (sep : UInt8) (above : List (List UInt8))
    (name : List UInt8) :
    (above.flatMap fun folder => folder ++ [sep]) ++ name =
      [sep].intercalate (above ++ [name]) := by
  induction above with
  | nil => simp [List.intercalate]
  | cons folder above ih =>
    rw [List.flatMap_cons, List.append_assoc, List.append_assoc, ih, List.cons_append]
    cases above with
    | nil => simp [List.intercalate]
    | cons second above => simp [List.intercalate]

theorem folderPath_append (stack : List (Open (List UInt8))) (name : List UInt8) :
    folderPath stack ++ name = [(0x2F : UInt8)].intercalate (pathOf stack ++ [name]) := by
  rw [← flatMap_append_eq_intercalate]
  unfold folderPath pathOf
  rw [← List.map_reverse, List.flatMap_map]

theorem readEntries_eq_walk {node : Nat → NodeFields} {name : Nat → List UInt8}
    {file : Nat → Nat → Option (Nat × Nat)} {rows : List (Row (List UInt8) (Nat × Nat))}
    {first : Nat} (stack : List (Open (List UInt8)))
    (h : ∀ i row, rows[i]? = some row → ReadsRow node name file (first + i) row) :
    readEntries node name file rows.length first stack =
      some ((walk first stack rows).map toEntry) := by
  induction rows generalizing first stack with
  | nil => rfl
  | cons row rows ih =>
    have hrest : ∀ i row, rows[i]? = some row → ReadsRow node name file (first + 1 + i) row :=
      fun i row hi => by
        have := h (i + 1) row (by rwa [List.getElem?_cons_succ])
        rwa [show first + (i + 1) = first + 1 + i by omega] at this
    have hrow := h 0 row rfl
    rw [Nat.add_zero] at hrow
    rw [List.length_cons]
    obtain ⟨n, value | ends⟩ := row
    · obtain ⟨hname, hdir, hfile⟩ := hrow
      unfold readEntries walk
      simp only [hdir, hfile, hname, ih _ hrest, Bool.false_eq_true, if_false, Option.map_some,
        List.map_cons, folderPath_append]
      rfl
    · obtain ⟨hname, hdir, hthird⟩ := hrow
      unfold readEntries walk
      simp only [hdir, hthird, hname, ih _ hrest, if_true, Option.map_some, List.map_cons,
        folderPath_append]
      rfl

/-! ## reading a table -/

theorem nameAt_of_drop {names name : List UInt8} (rest : List UInt8) {offset : Nat} (hname : NoZero name)
    (h : names.drop offset = name ++ 0 :: rest) : nameAt names offset = name := by
  unfold nameAt
  rw [h, List.takeWhile_append_of_pos, List.takeWhile_cons_of_neg, List.append_nil]
  · decide
  · intro b hb
    refine decide_eq_true fun h0 => hname (h0 ▸ hb)

namespace Tables

variable {w : Tables} {data : List UInt8} {pos i : Nat}

theorem length_table (w : Tables) :
    w.table.length = (w.tree.size + 1) * kNodeSize + w.names.length := by
  unfold table
  rw [List.length_append, length_records (k := 12) fun i =>
    show (w.node i).length = 12 from rfl]
  rfl

theorem length_names (w : Tables) : w.names.length =
    w.before.length + start (nameRecord (w.tree.rows 1)) w.tree.size + w.after.length := by
  unfold names
  rw [List.length_append, List.length_append]
  rfl

/-- a table, where it lies -/
def LiesAt (w : Tables) (data : List UInt8) (pos : Nat) : Prop :=
  slice data pos w.table.length = w.table

theorem LiesAt.node (h : w.LiesAt data pos) (hi : i ≤ w.tree.size) :
    slice data (pos + i * kNodeSize) 12 = w.node i := by
  have hlen := w.length_table
  have hle : i * kNodeSize + 12 ≤ (w.tree.size + 1) * kNodeSize := by
    unfold kNodeSize
    omega
  rw [← slice_slice data pos (m := w.table.length) (by omega), h]
  unfold table
  rw [slice_append_left]
  · have hs := slice_records w.node (show i < w.tree.size + 1 by omega)
    rwa [start_const (k := 12) fun i => show (w.node i).length = 12 from rfl] at hs
  · rw [length_records (k := 12) fun i => show (w.node i).length = 12 from rfl]
    exact hle

theorem LiesAt.words (h : w.LiesAt data pos) (hi : i ≤ w.tree.size)
    (h0 : (w.nodeWords i).1 < 2 ^ 32) (h1 : (w.nodeWords i).2.1 < 2 ^ 32)
    (h2 : (w.nodeWords i).2.2 < 2 ^ 32) :
    read32 data (pos + i * kNodeSize) = (w.nodeWords i).1 ∧
      read32 data (pos + i * kNodeSize + 4) = (w.nodeWords i).2.1 ∧
      read32 data (pos + i * kNodeSize + 8) = (w.nodeWords i).2.2 := by
  have hnode := h.node hi
  have hword : ∀ j, j + 4 ≤ 12 →
      slice data (pos + i * kNodeSize + j) 4 = slice (w.node i) j 4 := fun j hj => by
    rw [← hnode, slice_slice _ _ hj]
  exact ⟨read32_word32 h0 (hword 0 (by decide)), read32_word32 h1 (hword 4 (by decide)),
    read32_word32 h2 (hword 8 (by decide))⟩

theorem nameOffset_lt (hi : i < w.tree.size) : w.nameOffset i < 2 ^ 24 := by
  have hlt := w.names_lt
  have hrow := List.getElem?_eq_getElem
    (show i < (w.tree.rows 1).length by rw [Forest.length_rows]; exact hi)
  have hpos : start (nameRecord (w.tree.rows 1)) i <
      start (nameRecord (w.tree.rows 1)) (i + 1) := by
    rw [start_succ]
    unfold nameRecord
    rw [hrow]
    dsimp only
    rw [List.length_append, List.length_singleton]
    omega
  have hle : start (nameRecord (w.tree.rows 1)) (i + 1) ≤
      start (nameRecord (w.tree.rows 1)) w.tree.size := start_le hi
  unfold nameOffset
  omega

theorem nameAt_names {row : Row (List UInt8) (Nat × Nat)} (hrow : (w.tree.rows 1)[i]? = some row) :
    nameAt w.names (w.nameOffset i) = row.1 := by
  have hi : i < w.tree.size := by
    have := (List.getElem?_eq_some_iff.mp hrow).1
    rwa [Forest.length_rows] at this
  have hno : NoZero row.1 := Forest.allNames_of_mem_rows w.noZero (List.mem_of_getElem? hrow)
  obtain ⟨rest, hrest⟩ := exists_drop_records (nameRecord (w.tree.rows 1)) hi
  have hrecord : nameRecord (w.tree.rows 1) i = row.1 ++ [0] := by
    unfold nameRecord
    rw [hrow]
  have hle : start (nameRecord (w.tree.rows 1)) i ≤
      (records (nameRecord (w.tree.rows 1)) w.tree.size).length := start_le hi.le
  refine nameAt_of_drop (rest ++ w.after) hno ?_
  unfold names nameOffset
  rw [List.append_assoc, List.drop_append, List.drop_of_length_le (by omega), List.nil_append,
    Nat.add_sub_cancel_left, List.drop_append_of_le_length hle, hrest, hrecord]
  rw [List.append_assoc, List.append_assoc]
  rfl

theorem LiesAt.readsRow (h : w.LiesAt data pos) {file : Nat → Nat → Option (Nat × Nat)}
    {row : Row (List UInt8) (Nat × Nat)} (hrow : (w.tree.rows 1)[i]? = some row)
    (hfile : ∀ offset size, row.2 = .inl (offset, size) →
      file (offset / w.unit) size = some (offset, size)) :
    ReadsRow (fun index => readNode data (pos + index * kNodeSize)) (nameAt w.names) file (1 + i)
      row := by
  have hi : i < w.tree.size := by
    have := (List.getElem?_eq_some_iff.mp hrow).1
    rwa [Forest.length_rows] at this
  have hoffset := nameOffset_lt hi
  have hname := nameAt_names hrow
  have hcount := w.count_lt
  rw [Nat.add_comm 1 i]
  obtain ⟨n, ⟨offset, size⟩ | ends⟩ := row
  · obtain ⟨-, hdiv, hsize⟩ := w.files_fit n offset size (List.mem_of_getElem? hrow)
    have hwords : w.nodeWords (i + 1) = (w.nameOffset i, offset / w.unit, size) := by
      simp only [nodeWords, hrow]
    obtain ⟨h0, h1, h2⟩ := h.words (i := i + 1) (by omega) (by rw [hwords]; omega)
      (by rw [hwords]; exact hdiv) (by rw [hwords]; exact hsize)
    rw [hwords] at h0 h1 h2
    refine ⟨?_, ?_, ?_⟩
    · show nameAt w.names (read32 data _ % 2 ^ 24) = n
      rw [h0, Nat.mod_eq_of_lt hoffset, hname]
    · show decide (byteAt data _ ≠ 0) = false
      have htop := byteAt_of_read32 data (pos + (i + 1) * kNodeSize)
      rw [h0] at htop
      rw [decide_eq_false_iff_not, not_not, htop]
      show w.nameOffset i / 2 ^ 24 = 0
      omega
    · show file (read32 data _) (read32 data _) = _
      rw [h1, h2]
      exact hfile offset size rfl
  · have hends := Forest.ends_le (List.mem_of_getElem? hrow)
    have hwords : w.nodeWords (i + 1) = (2 ^ 24 + w.nameOffset i, w.parent i % 2 ^ 32, ends) := by
      simp only [nodeWords, hrow]
    obtain ⟨h0, -, h2⟩ := h.words (i := i + 1) (by omega) (by rw [hwords]; dsimp only; omega)
      (by rw [hwords]; exact Nat.mod_lt _ (by decide)) (by rw [hwords]; dsimp only; omega)
    rw [hwords] at h0 h2
    refine ⟨?_, ?_, ?_⟩
    · show nameAt w.names (read32 data _ % 2 ^ 24) = n
      rw [h0, Nat.add_mod_left, Nat.mod_eq_of_lt hoffset, hname]
    · show decide (byteAt data _ ≠ 0) = true
      have htop := byteAt_of_read32 data (pos + (i + 1) * kNodeSize)
      rw [h0] at htop
      rw [decide_eq_true_eq, htop]
      show (2 ^ 24 + w.nameOffset i) / 2 ^ 24 ≠ 0
      omega
    · exact h2

/-- **The loop over the nodes of a table gives its entries.** -/
theorem LiesAt.readEntries (h : w.LiesAt data pos) (file : Nat → Nat → Option (Nat × Nat))
    (hfile : ∀ name offset size, (name, Sum.inl (offset, size)) ∈ w.tree.rows 1 →
      file (offset / w.unit) size = some (offset, size)) :
    Disc.readEntries (fun index => readNode data (pos + index * kNodeSize)) (nameAt w.names) file
      w.tree.size 1 [] = some w.entries := by
  have hloop := readEntries_eq_walk []
    fun i row (hrow : (w.tree.rows 1)[i]? = some row) =>
      h.readsRow hrow fun offset size hvalue => hfile row.1 offset size
        (by rw [← hvalue]; exact List.mem_of_getElem? hrow)
  rw [Forest.length_rows, walk_rows] at hloop
  exact hloop

theorem LiesAt.count (h : w.LiesAt data pos) : read32 data (pos + 8) = w.tree.size + 1 := by
  have hwords := h.words (i := 0) (Nat.zero_le _) (by show 2 ^ 24 < 2 ^ 32; decide)
    (by show 0 < 2 ^ 32; decide) w.count_lt
  rw [Nat.zero_mul, Nat.add_zero] at hwords
  exact hwords.2.2

theorem LiesAt.names (h : w.LiesAt data pos) :
    slice data (pos + (w.tree.size + 1) * kNodeSize)
      (w.table.length - (w.tree.size + 1) * kNodeSize) = w.names := by
  have hlen := w.length_table
  rw [← slice_slice data pos (m := w.table.length) (by omega), h]
  unfold table
  have hnodes : (records w.node (w.tree.size + 1)).length = (w.tree.size + 1) * kNodeSize :=
    length_records (k := 12) (fun i => show (w.node i).length = 12 from rfl) _
  rw [← hnodes, List.length_append, Nat.add_sub_cancel_left]
  have hs := slice_append_right (records w.node (w.tree.size + 1)) w.names 0
    w.names.length
  rw [Nat.add_zero] at hs
  refine hs.trans ?_
  unfold slice
  rw [List.drop_zero, List.take_length]

/-! ## the readers on a table -/

theorem length_archive (w : Tables) (gap dataArea : List UInt8) : (w.archive gap dataArea).length =
    0x20 + gap.length + w.table.length + dataArea.length := by
  unfold archive
  simp only [List.length_append, List.length_replicate]
  rfl

theorem archive_liesAt (w : Tables) (gap dataArea : List UInt8) :
    w.LiesAt (w.archive gap dataArea) (0x20 + gap.length) := by
  have hmiddle := slice_middle (word32 kU8Magic ++ word32 (0x20 + gap.length) ++
    word32 w.table.length ++ word32 (0x20 + gap.length + w.table.length) ++ List.replicate 16 0 ++
    gap) w.table dataArea
  rw [List.length_append] at hmiddle
  exact hmiddle

theorem parse_archive (gap dataArea : List UInt8) (hunit : w.unit = 1)
    (hgap : 0x20 + gap.length < 2 ^ 32) (htable : w.table.length < 2 ^ 32)
    (hinside : w.FilesInside (w.archive gap dataArea).length) :
    U8.parse (w.archive gap dataArea) = some w.entries := by
  have hlies := w.archive_liesAt gap dataArea
  have hlength := w.length_archive gap dataArea
  have htable' := w.length_table
  have hmagic : read32 (w.archive gap dataArea) 0 = kU8Magic := read32_word32 (by decide) rfl
  have hat : read32 (w.archive gap dataArea) 4 = 0x20 + gap.length := read32_word32 hgap rfl
  have hsize : read32 (w.archive gap dataArea) 8 = w.table.length := read32_word32 htable rfl
  have hmod : (0x20 + gap.length + w.table.length) % 2 ^ 32 ≤ 0x20 + gap.length + w.table.length :=
    Nat.mod_le _ _
  have hcount := hlies.count
  have hnodes : kNodeSize ≤ (w.tree.size + 1) * kNodeSize := by
    unfold kNodeSize
    omega
  unfold U8.parse
  dsimp only
  rw [hmagic, if_neg (by omega), hat, hsize, if_neg (by omega), hcount, if_neg (by omega),
    hlies.names, Nat.add_sub_cancel]
  refine hlies.readEntries _ fun name offset size hfile => ?_
  have := hinside name offset size hfile
  rw [hunit, Nat.div_one, if_neg (by omega)]

theorem readFileTable_table {img : Image} (h : w.TableOf img)
    (hlimit : img.fstSize ≤ 16 * 1024 * 1024) : img.readFileTable = some w.entries := by
  have hlies : w.LiesAt w.table 0 := by
    unfold LiesAt slice
    rw [List.drop_zero, List.take_length]
  have htable := w.length_table
  have hcount := hlies.count
  have hnames := hlies.names
  have hnodes : kNodeSize ≤ (w.tree.size + 1) * kNodeSize := by
    unfold kNodeSize
    omega
  have hpos : 0 < kNodeSize := by decide
  have hzero : img.fstSize ≠ 0 := fun h0 => by
    have hsize := h.size
    rw [h0, Nat.zero_mul] at hsize
    omega
  rw [Nat.zero_add] at hcount hnames
  have hdrop : w.table.drop ((w.tree.size + 1) * kNodeSize) = w.names := by
    rw [← hnames]
    unfold slice
    rw [List.take_of_length_le]
    rw [List.length_drop]
  unfold Image.readFileTable
  rw [if_neg (by omega), ← h.size, h.read]
  dsimp only
  rw [if_neg (by omega), hcount, if_neg (by omega), hdrop, Nat.add_sub_cancel]
  have hloop := hlies.readEntries (fun second third =>
    some (second * img.console.unit, third)) fun name offset size hfile => by
      obtain ⟨hunit, -, -⟩ := w.files_fit name offset size hfile
      rw [← h.unit, Nat.div_mul_cancel hunit]
  simp only [Nat.zero_add] at hloop
  exact hloop

/-! ## finding -/

def NoSlash (name : List UInt8) : Prop := (0x2F : UInt8) ∉ name

instance (name : List UInt8) : Decidable (NoSlash name) := inferInstanceAs (Decidable (_ ∉ _))

theorem toEntry_path (e : List (List UInt8) × Option (Nat × Nat)) :
    (toEntry e).path = [(0x2F : UInt8)].intercalate e.1 := by
  unfold toEntry
  cases e.2 <;> rfl

theorem intercalate_inj {xs ys : List (List UInt8)} (hxs : ∀ n ∈ xs, NoSlash n)
    (hys : ∀ n ∈ ys, NoSlash n) (hx : xs ≠ []) (hy : ys ≠ [])
    (h : [(0x2F : UInt8)].intercalate xs = [(0x2F : UInt8)].intercalate ys) : xs = ys := by
  rw [← List.splitOn_intercalate 0x2F hxs hx, h, List.splitOn_intercalate 0x2F hys hy]

/-- the first entry with a path is the only one -/
theorem find?_of_nodup {γ κ : Type} [DecidableEq κ] {key : γ → κ} {xs : List γ}
    (h : (xs.map key).Nodup) {x : γ} (hx : x ∈ xs) :
    (xs.find? fun y => decide (key y = key x)) = some x := by
  induction xs with
  | nil => cases hx
  | cons y xs ih =>
    rw [List.map_cons, List.nodup_cons] at h
    rcases List.mem_cons.mp hx with rfl | hx
    · exact List.find?_cons_of_pos (decide_eq_true rfl)
    · rw [List.find?_cons_of_neg, ih h.2 hx]
      rw [decide_eq_true_eq]
      exact fun heq => h.1 (heq ▸ List.mem_map_of_mem hx)

theorem find_entry (hdistinct : w.tree.Distinct) (hslash : w.tree.AllNames NoSlash) {e : Entry}
    (he : e ∈ w.entries) : find w.entries e.path = some e := by
  refine find?_of_nodup ?_ he
  have hpaths : w.entries.map Entry.path =
      ((w.tree.entries []).map Prod.fst).map [(0x2F : UInt8)].intercalate := by
    unfold entries
    rw [List.map_map, List.map_map]
    exact List.map_congr_left fun e _ => toEntry_path e
  rw [hpaths]
  refine List.Nodup.map_on (fun p hp q hq hpq => ?_) (Forest.nodup_entries hdistinct [])
  obtain ⟨a, ha, rfl⟩ := List.mem_map.mp hp
  obtain ⟨b, hb, rfl⟩ := List.mem_map.mp hq
  have hnil : ∀ e ∈ w.tree.entries [], e.1 ≠ [] := fun e he h => by
    obtain ⟨n, -, below, hpath⟩ := Forest.mem_entries he
    rw [h] at hpath
    cases hpath
  have hno : ∀ e ∈ w.tree.entries [], ∀ n ∈ e.1, NoSlash n := fun e he =>
    Forest.allNames_of_mem_entries hslash (fun n hn => absurd hn List.not_mem_nil) he
  exact intercalate_inj (hno a ha) (hno b hb) (hnil a ha) (hnil b hb) hpq

/-- **Round trip.**  Both readers give one entry for each node but the root, in pre-order, and where
no name has a slash and siblings have different names, a path finds its entry. -/
theorem directory_round_trip (w : Tables) :
    (∀ gap dataArea, w.unit = 1 → 0x20 + gap.length < 2 ^ 32 → w.table.length < 2 ^ 32 →
      w.FilesInside (w.archive gap dataArea).length →
        U8.parse (w.archive gap dataArea) = some w.entries) ∧
    (∀ img, w.TableOf img → img.fstSize ≤ 16 * 1024 * 1024 →
      img.readFileTable = some w.entries) ∧
    (w.tree.Distinct → w.tree.AllNames NoSlash →
      ∀ e ∈ w.entries, find w.entries e.path = some e) :=
  ⟨fun gap dataArea hunit hgap htable hinside =>
      parse_archive gap dataArea hunit hgap htable hinside,
    fun _ himg hlimit => readFileTable_table himg hlimit,
    fun hdistinct hslash _ he => find_entry hdistinct hslash he⟩

/-! a folder "a" with a file "b", beside a file "c" -/

def smallTables : Tables where
  tree := .node [0x61] (.leaf [0x62] (0x40, 1) .nil) (.leaf [0x63] (0x20, 2) .nil)
  before := [0]
  after := []
  parent _ := 0
  unit := 1
  noZero := ⟨by decide, ⟨by decide, trivial⟩, by decide, trivial⟩
  count_lt := by decide
  names_lt := by decide
  files_fit name offset size h := by
    obtain ⟨-, rfl, rfl⟩ | ⟨-, rfl, rfl⟩ :
        name = [0x62] ∧ offset = 0x40 ∧ size = 1 ∨ name = [0x63] ∧ offset = 0x20 ∧ size = 2 := by
      simpa [Forest.rows] using h
    all_goals decide

def smallImage (w : Tables) : Image := ⟨.gameCube, 0, w.table.length, .fromMemory w.table⟩

theorem tableOf_smallImage (hunit : w.unit = 1) : w.TableOf (smallImage w) where
  unit := hunit
  size := (Nat.mul_one _).symm
  read := by
    show readMemory w.table (0 * 1) w.table.length = _
    rw [Nat.zero_mul, readMemory_of_le (by omega)]
    unfold slice
    rw [List.drop_zero, List.take_length]

theorem directory_round_trip_small :
    U8.parse (smallTables.archive [] (List.replicate 8 7)) = some smallTables.entries ∧
      (smallImage smallTables).readFileTable = some smallTables.entries ∧
      find smallTables.entries [0x61, 0x2F, 0x62] = some ⟨[0x61, 0x2F, 0x62], false, 0x40, 1⟩ := by
  obtain ⟨hparse, htable, hfind⟩ := directory_round_trip smallTables
  refine ⟨hparse [] _ rfl (by decide) (by decide) ?_, htable _ (tableOf_smallImage rfl) (by decide),
    hfind ⟨by decide, ⟨List.not_mem_nil, trivial⟩, List.not_mem_nil, trivial⟩
      ⟨by decide, ⟨by decide, trivial⟩, by decide, trivial⟩
      (⟨[0x61, 0x2F, 0x62], false, 0x40, 1⟩ : Entry) (by decide)⟩
  intro name offset size h
  have hlen := length_archive smallTables [] (List.replicate 8 7)
  obtain ⟨-, rfl, rfl⟩ | ⟨-, rfl, rfl⟩ :
      name = [0x62] ∧ offset = 0x40 ∧ size = 1 ∨ name = [0x63] ∧ offset = 0x20 ∧ size = 2 := by
    simpa [smallTables, Forest.rows] using h
  all_goals decide

/-! a file "a/b", beside a folder "a" with a file "b" -/

def slashTables (after : List UInt8) : Tables where
  tree := .leaf [0x61, 0x2F, 0x62] (0x20, 1) (.node [0x61] (.leaf [0x62] (0x20, 2) .nil) .nil)
  before := [0]
  after := after
  parent _ := 0
  unit := 1
  noZero := ⟨by decide, by decide, ⟨by decide, trivial⟩, trivial⟩
  count_lt := by decide
  names_lt := by decide
  files_fit name offset size h := by
    obtain ⟨-, rfl, rfl⟩ | ⟨-, rfl, rfl⟩ : name = [0x61, 0x2F, 0x62] ∧ offset = 0x20 ∧ size = 1 ∨
        name = [0x62] ∧ offset = 0x20 ∧ size = 2 := by
      simpa [Forest.rows] using h
    all_goals decide

/-- a path may be that of another entry, and a table may be too long for the reader of a disc -/
theorem directory_not_read :
    ((slashTables []).tree.Distinct ∧
      U8.parse ((slashTables []).archive [] []) = some (slashTables []).entries ∧
      ∃ e ∈ (slashTables []).entries, find (slashTables []).entries e.path ≠ some e) ∧
    ∃ img, (slashTables (List.replicate (2 ^ 24) 0)).TableOf img ∧ img.readFileTable = none := by
  refine ⟨⟨⟨by decide, ⟨List.not_mem_nil, ⟨List.not_mem_nil, trivial⟩, trivial⟩⟩, by decide +kernel,
    ⟨[0x61, 0x2F, 0x62], false, 0x20, 2⟩, by decide, by decide⟩, ?_⟩
  refine ⟨smallImage (slashTables (List.replicate (2 ^ 24) 0)), tableOf_smallImage rfl, ?_⟩
  have hlen := length_table (slashTables (List.replicate (2 ^ 24) 0))
  have hnames := length_names (slashTables (List.replicate (2 ^ 24) 0))
  have hafter : (slashTables (List.replicate (2 ^ 24) 0)).after.length = 2 ^ 24 :=
    List.length_replicate
  have hnode : 0 < kNodeSize := by decide
  have hnodes : kNodeSize ≤ ((slashTables (List.replicate (2 ^ 24) 0)).tree.size + 1) * kNodeSize :=
    Nat.le_mul_of_pos_left _ (Nat.succ_pos _)
  unfold Image.readFileTable
  rw [if_pos]
  refine .inr ?_
  show 16 * 1024 * 1024 < (slashTables (List.replicate (2 ^ 24) 0)).table.length
  omega

end Tables

end DolTranslator.Disc
