import DolTranslator.Disc.Directory
import DolTranslator.Dvd.Registrations

/-!
# The table, parsed again

* `parseFst`   the file table of a Wii disc, as a list of its nodes;
* `addNames_spec`   where each name is in the string table;
* `parseNodes_listing`   the walk over the nodes of a listing gives the listing;
* `readsEntries_encode`   what is encoded reads as its entries.
-/

namespace DolTranslator.Dvd

open Disc Trees Streams

/-! ## the parser -/

/-- an entry, but for the file of the host, which the table does not have -/
structure Listed where
  dvdPath : Bytes
  size : Nat
  discOffsetWords : Nat
  parentIndex : Nat
  subtreeEnd : Nat
  isDirectory : Bool
  deriving DecidableEq

def IndexedEntry.listed (e : IndexedEntry) : Listed :=
  ⟨e.dvdPath, e.size.toNat, e.discOffsetWords.toNat, e.parentIndex, e.subtreeEnd, e.isDirectory⟩

/-- the nodes in pre-order; an open directory has its index and its path.  The second word of a file
is its offset and the third its size; of a directory, its parent and the index it ends before -/
def parseNodes (node : Nat → NodeFields) (name : Nat → Bytes) :
    Nat → Nat → List (Open (Nat × Bytes)) → Option (List Listed)
  | 0, _, _ => some []
  | left + 1, index, stack =>
    let fields := node index
    match close index stack with
    | [] => none
    | top :: below =>
      let path := childPath top.path.2 (name fields.nameOffset)
      if fields.directory then
        if fields.second ≠ top.path.1 then none
        else
          (parseNodes node name left (index + 1)
            (⟨(index, path), fields.third⟩ :: top :: below)).map
              (⟨path, 0, 0, fields.second, fields.third, true⟩ :: ·)
      else
        (parseNodes node name left (index + 1) (top :: below)).map
          (⟨path, fields.third, fields.second, top.path.1, index + 1, false⟩ :: ·)

/-- the root says how many nodes there are, and the names are behind them -/
def parseFst (bytes : Bytes) : Option (List Listed) :=
  let root := readNode bytes 0
  let count := root.third
  if bytes.length < count * kNodeSize ∨ count = 0 ∨ root.directory = false then none
  else
    (parseNodes (fun index => readNode bytes (index * kNodeSize))
      (nameAt (bytes.drop (count * kNodeSize))) (count - 1) 1 [⟨(0, [kSlash]), count⟩]).map
        (⟨[kSlash], 0, 0, root.second, count, true⟩ :: ·)

/-! ## the walk -/

def IndexedEntry.second (e : IndexedEntry) : Nat :=
  if e.isDirectory then e.parentIndex else e.discOffsetWords.toNat

def IndexedEntry.third (e : IndexedEntry) : Nat :=
  if e.isDirectory then e.subtreeEnd else e.size.toNat

/-- a node reads as an entry of a name -/
structure ReadsEntry (node : Nat → NodeFields) (name : Nat → Bytes) (index : Nat) (e : IndexedEntry)
    (n : Bytes) : Prop where
  directory : (node index).directory = e.isDirectory
  name : name (node index).nameOffset = n
  second : (node index).second = e.second
  third : (node index).third = e.third

/-- nodes from an index on read as some entries of some names -/
def ReadsEntries (node : Nat → NodeFields) (name : Nat → Bytes) (first : Nat)
    (entries : List IndexedEntry) (names : List Bytes) : Prop :=
  ∀ i e n, entries[i]? = some e → names[i]? = some n → ReadsEntry node name (first + i) e n

section

variable {node : Nat → NodeFields} {name : Nat → Bytes} {first : Nat} {e : IndexedEntry} {n : Bytes}
  {entries entries' : List IndexedEntry} {names names' : List Bytes}

theorem ReadsEntries.head (h : ReadsEntries node name first (e :: entries) (n :: names)) :
    ReadsEntry node name first e n := h 0 e n rfl rfl

theorem ReadsEntries.tail (h : ReadsEntries node name first (e :: entries) (n :: names)) :
    ReadsEntries node name (first + 1) entries names := by
  intro i e' n' he hn
  have hread := h (i + 1) e' n' he hn
  rwa [show first + (i + 1) = first + 1 + i by omega] at hread

theorem ReadsEntries.left (h : ReadsEntries node name first (entries ++ entries') (names ++ names'))
    (hlen : entries.length = names.length) : ReadsEntries node name first entries names := by
  intro i e' n' he hn
  have hi := (List.getElem?_eq_some_iff.mp he).1
  refine h i e' n' ?_ ?_
  · rw [List.getElem?_append_left hi]
    exact he
  · rw [List.getElem?_append_left (by omega)]
    exact hn

theorem ReadsEntries.right (h : ReadsEntries node name first (entries ++ entries') (names ++ names'))
    (hlen : entries.length = names.length) :
    ReadsEntries node name (first + entries.length) entries' names' := by
  intro i e' n' he hn
  have hread := h (entries.length + i) e' n' (by
      rw [List.getElem?_append_right (by omega), Nat.add_sub_cancel_left]
      exact he) (by
      rw [List.getElem?_append_right (by omega), hlen, Nat.add_sub_cancel_left]
      exact hn)
  rwa [← Nat.add_assoc] at hread

theorem parseNodes_close (left index : Nat) (stack : List (Open (Nat × Bytes))) :
    parseNodes node name left index (close index stack) = parseNodes node name left index stack := by
  cases left with
  | zero => rfl
  | succ left =>
    unfold parseNodes
    rw [close_close]

theorem parseNodes_file {left index : Nat} {stack below : List (Open (Nat × Bytes))}
    {top : Open (Nat × Bytes)} (h : ReadsEntry node name index e n) (hfile : e.isDirectory = false)
    (hopen : close index stack = top :: below) :
    parseNodes node name (left + 1) index stack =
      (parseNodes node name left (index + 1) (top :: below)).map
        (⟨childPath top.path.2 n, e.third, e.second, top.path.1, index + 1, false⟩ :: ·) := by
  have hdirectory : ¬ (node index).directory = true := by
    rw [h.directory, hfile]
    decide
  rw [parseNodes, hopen]
  dsimp only
  rw [if_neg hdirectory, h.name, h.second, h.third]

theorem parseNodes_directory {left index : Nat} {stack below : List (Open (Nat × Bytes))}
    {top : Open (Nat × Bytes)} (h : ReadsEntry node name index e n)
    (hdirectory : e.isDirectory = true) (hparent : e.second = top.path.1)
    (hopen : close index stack = top :: below) :
    parseNodes node name (left + 1) index stack =
      (parseNodes node name left (index + 1)
        (⟨(index, childPath top.path.2 n), e.third⟩ :: top :: below)).map
          (⟨childPath top.path.2 n, 0, 0, e.second, e.third, true⟩ :: ·) := by
  have hdirectory' : (node index).directory = true := h.directory.trans hdirectory
  rw [parseNodes, hopen]
  dsimp only
  rw [if_pos hdirectory', h.name, h.second, h.third, if_neg fun hne => hne hparent]

/-- **The walk over the nodes of a listing gives the listing.** -/
theorem parseNodes_listing {t : Forest Bytes RegisteredFile} {parent ends : Nat} {path : Bytes}
    {below : List (Open (Nat × Bytes))} (left : Nat)
    (h : ReadsEntries node name first (listing parent path first t) (preNames t))
    (hends : first + t.size ≤ ends) (hbelow : ∀ d ∈ below, first + t.size ≤ d.ends) :
    parseNodes node name (t.size + left) first (⟨(parent, path), ends⟩ :: below) =
      (parseNodes node name left (first + t.size) (⟨(parent, path), ends⟩ :: below)).map
        ((listing parent path first t).map IndexedEntry.listed ++ ·) := by
  induction t generalizing parent path first ends below left with
  | nil =>
    show parseNodes node name (0 + left) first _ =
      (parseNodes node name left (first + 0) _).map (fun more => more)
    rw [Nat.zero_add, Nat.add_zero]
    exact Option.map_id.symm ▸ rfl
  | leaf leafName file rest ih =>
    unfold Forest.size at hends hbelow
    have hhead := h.head
    have hopen : close first (⟨(parent, path), ends⟩ :: below) = ⟨(parent, path), ends⟩ :: below := by
      refine close_eq_self fun d hd => ?_
      obtain rfl | hd := List.mem_cons.mp hd
      · show first < ends
        omega
      · have := hbelow d hd
        omega
    have hrest : parseNodes node name (rest.size + left) (first + 1)
        (⟨(parent, path), ends⟩ :: below) = _ :=
      ih left h.tail (by omega) fun d hd => by have := hbelow d hd; omega
    show parseNodes node name (rest.size + 1 + left) first _ =
      (parseNodes node name left (first + (rest.size + 1)) _).map _
    rw [show rest.size + 1 + left = rest.size + left + 1 by omega, parseNodes_file hhead rfl hopen,
      hrest, Option.map_map, show first + 1 + rest.size = first + (rest.size + 1) by omega]
    rfl
  | node dirName children rest ihc ihr =>
    unfold Forest.size at hends hbelow
    have hhead := h.head
    have hlen : (listing first (childPath path dirName) (first + 1) children).length =
        (preNames children).length := by rw [length_listing, length_preNames]
    have hchildren := h.tail.left hlen
    have hright := h.tail.right hlen
    rw [length_listing] at hright
    have hopen : close first (⟨(parent, path), ends⟩ :: below) = ⟨(parent, path), ends⟩ :: below := by
      refine close_eq_self fun d hd => ?_
      obtain rfl | hd := List.mem_cons.mp hd
      · show first < ends
        omega
      · have := hbelow d hd
        omega
    have hinside : ∀ d ∈ (⟨(parent, path), ends⟩ :: below : List (Open (Nat × Bytes))),
        first + 1 + children.size ≤ d.ends := by
      intro d hd
      obtain rfl | hd := List.mem_cons.mp hd
      · show first + 1 + children.size ≤ ends
        omega
      · have := hbelow d hd
        omega
    have hdown : parseNodes node name (children.size + (rest.size + left)) (first + 1)
        (⟨(first, childPath path dirName), first + 1 + children.size⟩ ::
          ⟨(parent, path), ends⟩ :: below) = _ :=
      ihc (rest.size + left) hchildren (Nat.le_refl _) hinside
    -- the directory has ended
    have hended : parseNodes node name (rest.size + left) (first + 1 + children.size)
        (⟨(first, childPath path dirName), first + 1 + children.size⟩ ::
          ⟨(parent, path), ends⟩ :: below) =
        parseNodes node name (rest.size + left) (first + 1 + children.size)
          (⟨(parent, path), ends⟩ :: below) := by
      have hclose : close (first + 1 + children.size) (⟨(first, childPath path dirName),
          first + 1 + children.size⟩ :: ⟨(parent, path), ends⟩ :: below) =
          close (first + 1 + children.size) (⟨(parent, path), ends⟩ :: below) :=
        close_cons (Nat.le_refl (first + 1 + children.size))
      rw [← parseNodes_close, hclose, parseNodes_close]
    have hrest : parseNodes node name (rest.size + left) (first + 1 + children.size)
        (⟨(parent, path), ends⟩ :: below) = _ :=
      ihr left hright (by omega) fun d hd => by have := hbelow d hd; omega
    show parseNodes node name (children.size + rest.size + 1 + left) first _ =
      (parseNodes node name left (first + (children.size + rest.size + 1)) _).map _
    rw [show children.size + rest.size + 1 + left = children.size + (rest.size + left) + 1 by omega,
      parseNodes_directory hhead rfl rfl hopen]
    show (parseNodes node name (children.size + (rest.size + left)) (first + 1)
      (⟨(first, childPath path dirName), first + 1 + children.size⟩ ::
        ⟨(parent, path), ends⟩ :: below)).map _ = _
    rw [hdown, hended, hrest, Option.map_map, Option.map_map,
      show first + 1 + children.size + rest.size = first + (children.size + rest.size + 1) by omega]
    refine congrArg (Option.map · _) ?_
    funext more
    show _ :: (_ ++ (_ ++ more)) = _ :: ((_ ++ _ : List IndexedEntry).map IndexedEntry.listed ++ more)
    rw [List.map_append, List.append_assoc]
    rfl

/-- **Where the names are.**  Each is at its offset, which fits in 24 bits, up to a zero. -/
theorem addNames_spec {names : List Bytes} {stringTable table : Bytes} {offsets : List Nat}
    (h : addNames names stringTable = some (offsets, table)) :
    offsets.length = names.length ∧
      table = stringTable ++ names.flatMap (fun name => name ++ [0]) ∧
      ∀ (i : Nat) (name : Bytes), names[i]? = some name → ∃ offset, offsets[i]? = some offset ∧
        offset ≤ 0xFFFFFF ∧ ∃ rest, table.drop offset = name ++ 0 :: rest := by
  induction names generalizing stringTable table offsets with
  | nil =>
    obtain ⟨rfl, rfl⟩ := Prod.mk.inj (Option.some.inj h)
    exact ⟨rfl, (List.append_nil _).symm, fun i name hname => by cases hname⟩
  | cons name names ih =>
    unfold addNames at h
    split at h
    · cases h
    · next hroom =>
      split at h
      · cases h
      · next offsets' table' hrest =>
        obtain ⟨rfl, rfl⟩ := Prod.mk.inj (Option.some.inj h)
        obtain ⟨hlen, htable, hnames⟩ := ih hrest
        rw [List.append_assoc, List.append_assoc] at htable
        refine ⟨congrArg (· + 1) hlen, ?_, fun i n hn => ?_⟩
        · rw [htable, List.flatMap_cons, List.append_assoc]
        · cases i with
          | zero =>
            obtain rfl := Option.some.inj hn
            refine ⟨stringTable.length, rfl, by omega, names.flatMap (fun name => name ++ [0]), ?_⟩
            rw [htable, List.drop_left]
            rfl
          | succ i => exact hnames i n hn

theorem addNames_eq_none {names : List Bytes} {stringTable : Bytes} :
    addNames names stringTable = none ↔
      names ≠ [] ∧ 0xFFFFFF < stringTable.length +
        (names.dropLast.flatMap fun name => name ++ [0]).length := by
  induction names generalizing stringTable with
  | nil => exact ⟨fun h => (by cases h), fun h => absurd rfl h.1⟩
  | cons name names ih =>
    unfold addNames
    by_cases hroom : 0x00FFFFFF < stringTable.length
    · rw [if_pos hroom]
      exact ⟨fun _ => ⟨List.cons_ne_nil _ _, by omega⟩, fun _ => rfl⟩
    · rw [if_neg hroom]
      have hih : addNames names (stringTable ++ name ++ [0]) = none ↔ _ := ih
      refine Iff.trans ?_ (hih.trans ?_)
      · cases addNames names (stringTable ++ name ++ [0]) with
        | none => exact ⟨fun _ => rfl, fun _ => rfl⟩
        | some r => exact ⟨fun h => (by cases h), fun h => by cases h⟩
      cases names with
      | nil =>
        refine ⟨fun h => absurd rfl h.1, fun h => ?_⟩
        have hlt := h.2
        rw [List.dropLast_singleton, List.flatMap_nil, List.length_nil] at hlt
        omega
      | cons second names =>
        rw [List.dropLast_cons_cons, List.flatMap_cons, List.length_append, List.length_append,
          List.length_append, List.length_append]
        refine ⟨fun h => ⟨List.cons_ne_nil _ _, ?_⟩, fun h => ⟨List.cons_ne_nil _ _, ?_⟩⟩
        · have := h.2
          omega
        · have := h.2
          omega

end

/-! ## encoded entries -/

section

variable {entries : List IndexedEntry} {offsets : List Nat} {i : Nat} {e : IndexedEntry}
  {offset : Nat}

/-- the numbers of an entry fit in words -/
def Fits (e : IndexedEntry) : Prop := e.second < 2 ^ 32 ∧ e.third < 2 ^ 32

theorem length_encodeEntry (e : IndexedEntry) (offset : Nat) : (encodeEntry e offset).length = 12 :=
  rfl

theorem length_encodeEntries (hlen : offsets.length = entries.length) :
    (encodeEntries entries offsets).length = entries.length * kNodeSize := by
  unfold encodeEntries kNodeSize
  rw [List.length_flatMap]
  have hconst : (entries.zip offsets).map (fun e => (encodeEntry e.1 e.2).length) =
      List.replicate entries.length 12 := by
    refine List.eq_replicate_iff.mpr ⟨?_, fun b hb => ?_⟩
    · rw [List.length_map, List.length_zip, hlen, Nat.min_self]
    · obtain ⟨e, -, rfl⟩ := List.mem_map.mp hb
      rfl
  rw [hconst, List.sum_replicate_nat]

/-- **An entry is read as it was encoded.** -/
theorem readNode_encode (stringTable : Bytes) (hlen : offsets.length = entries.length)
    (he : entries[i]? = some e) (ho : offsets[i]? = some offset) (hoffset : offset ≤ 0xFFFFFF)
    (hfits : Fits e) :
    let node := readNode (encodeEntries entries offsets ++ stringTable) (i * kNodeSize)
    node.directory = e.isDirectory ∧ node.nameOffset = offset ∧ node.second = e.second ∧
      node.third = e.third := by
  obtain ⟨hi, rfl⟩ := List.getElem?_eq_some_iff.mp he
  obtain ⟨hi', rfl⟩ := List.getElem?_eq_some_iff.mp ho
  have hzip : i < (entries.zip offsets).length := by
    rw [List.length_zip]
    omega
  have htotal := length_encodeEntries hlen
  have hsize : kNodeSize = 12 := rfl
  have hslice : slice (encodeEntries entries offsets ++ stringTable) (i * kNodeSize) 12 =
      encodeEntry entries[i] offsets[i] := by
    have hat : slice (encodeEntries entries offsets) (i * 12) 12 = _ :=
      slice_flatMap (f := fun e : IndexedEntry × Nat => encodeEntry e.1 e.2)
        (fun e _ => length_encodeEntry e.1 e.2) hzip
    rw [slice_append_left (by rw [htotal, hsize]; omega), hsize, hat, List.getElem_zip]
  have hword (j : Nat) (hj : j + 4 ≤ 12) :
      slice (encodeEntries entries offsets ++ stringTable) (i * kNodeSize + j) 4 =
        slice (encodeEntry entries[i] offsets[i]) j 4 := by
    rw [← hslice, slice_slice _ _ hj]
  generalize hdir : entries[i].isDirectory = directory at *
  have hflag : (if directory then 0x01000000 else 0) ||| offsets[i] =
      (if directory then 0x01000000 else 0) + offsets[i] := by
    cases directory with
    | true => exact (Nat.two_pow_add_eq_or_of_lt (i := 24) (by omega) 1).symm
    | false => exact (Nat.zero_or _).trans (Nat.zero_add _).symm
  have hfirst : read32 (encodeEntries entries offsets ++ stringTable) (i * kNodeSize) =
      (if directory then 0x01000000 else 0) + offsets[i] := by
    refine read32_word32 ?_ ?_
    · split <;> omega
    · rw [← hflag, ← hdir]
      exact hword 0 (by decide)
  have hsecond := read32_word32 hfits.1
    (show slice (encodeEntries entries offsets ++ stringTable) (i * kNodeSize + 4) 4 = _ from
      hword 4 (by decide))
  have hthird := read32_word32 hfits.2
    (show slice (encodeEntries entries offsets ++ stringTable) (i * kNodeSize + 8) 4 = _ from
      hword 8 (by decide))
  refine ⟨?_, ?_, hsecond, hthird⟩
  · show decide (byteAt _ _ ≠ 0) = directory
    rw [byteAt_of_read32, hfirst]
    cases directory with
    | true =>
      rw [decide_eq_true_eq]
      show (0x01000000 + offsets[i]) / 2 ^ 24 ≠ 0
      omega
    | false =>
      rw [decide_eq_false_iff_not, not_not]
      show (0 + offsets[i]) / 2 ^ 24 = 0
      omega
  · show read32 _ _ % 2 ^ 24 = offsets[i]
    rw [hfirst]
    split <;> omega

/-- **What is encoded reads as the entries and the names.** -/
theorem readsEntries_encode (root : IndexedEntry) {names : List Bytes} {table : Bytes}
    (hadd : addNames names [0] = some (offsets, table)) (hlen : entries.length = names.length)
    (hfits : ∀ e ∈ entries, Fits e) (hzero : ∀ name ∈ names, NoZero name) :
    let bytes := encodeEntries (root :: entries) (0 :: offsets) ++ table
    ReadsEntries (fun index => readNode bytes (index * kNodeSize))
      (nameAt (bytes.drop ((entries.length + 1) * kNodeSize))) 1 entries names := by
  intro bytes i e n he hn
  obtain ⟨hoffsets, htable, hnames⟩ := addNames_spec hadd
  obtain ⟨offset, ho, hle, rest, hdrop⟩ := hnames i n hn
  have htotal : (0 :: offsets).length = (root :: entries).length := by
    rw [List.length_cons, List.length_cons, hoffsets, hlen]
  have hread := readNode_encode table (i := i + 1) htotal he ho hle
    (hfits e (List.mem_of_getElem? he))
  have hnames : bytes.drop ((entries.length + 1) * kNodeSize) = table := by
    have hlength := length_encodeEntries htotal
    exact (congrArg bytes.drop hlength.symm).trans List.drop_left
  rw [Nat.add_comm 1 i]
  refine ⟨hread.1, ?_, hread.2.2.1, hread.2.2.2⟩
  show nameAt _ (readNode bytes ((i + 1) * kNodeSize)).nameOffset = n
  rw [hnames, hread.2.1]
  exact nameAt_of_drop rest (hzero n (List.mem_of_getElem? hn)) hdrop

end

end DolTranslator.Dvd
