import DolTranslator.Archive.Bounds
import DolTranslator.Archive.AshLaw

/-!
# Where the ASH reader reads and writes

The decoder of `Ash` over a buffer, with each access to the source, to the arrays of a tree and to
the output checked, and each loop given the fuel it needs.

* `AshExpand`   the decoder;
* `ReadTreeAt_eq`, `walkTreeAt_eq`   a tree is read, and a symbol with it, inside the arrays;
* `AshExpand_decodes`   all of it is what `AshDecompress` does: a size of 24 bits leaves room for
  the longest run;
* `expanders_bounded_iff`   what is accessed, for the three formats.
-/

namespace DolTranslator.Archive

open Disc Lz Streams

/-! ## bits -/

namespace BitReader

def feedAt (r : BitReader) : Checked BitReader := do
  if r.next + 4 > r.data.length then return r.feed
  else
    within r.data.length r.next 4
    return r.feed

def startAt (data : List UInt8) (place : Nat) : Checked BitReader :=
  feedAt ⟨data, place, 0, 0, false, width_pos⟩

def bitAt (r : BitReader) : Checked (Bool × BitReader) :=
  if r.failed = false ∧ r.used = 31 then do
    let next ← r.feedAt
    return (r.bit.1, next)
  else return r.bit

def bitsOntoAt (value : Nat) : Nat → BitReader → Checked (Nat × BitReader)
  | 0, r => .ok (value, r)
  | count + 1, r => do
    let (bit, r) ← r.bitAt
    bitsOntoAt (2 * value + bit.toNat) count r

def bitsAt (count : Nat) (r : BitReader) : Checked (Nat × BitReader) := bitsOntoAt 0 count r

end BitReader

/-! ## trees -/

/-- the inner loop of `ReadTree` -/
def closePlacesAt (size : Nat) (a : Arrays) (symbol : Nat) :
    List Place → Checked (Option (Arrays × Nat × List Place))
  | [] => .ok none
  | .left index :: pending => do
    within size index 1
    return some (a.setLeft index symbol, symbol, pending)
  | .right index :: pending => do
    within size index 1
    if pending.length > 0 then closePlacesAt size (a.setRight index symbol) index pending
    else return some (a.setRight index symbol, index, [])

def ReadTreeSymbolAt (width : Nat) (loop : TreeState → Checked (Option (Tree × BitReader)))
    (s : TreeState) (symbol : Nat) : Checked (Option (Tree × BitReader)) := do
  match ← closePlacesAt (2 * 2 ^ width - 1) s.arrays symbol s.pending with
  | none => return none
  | some (arrays, symbol, pending) =>
    if pending.length > 0 then loop { s with arrays := arrays, pending := pending }
    else if s.reader.failed then return none
    else return some (⟨arrays, 2 * 2 ^ width - 1, symbol⟩, s.reader)

def ReadTreeLoopAt (width : Nat) : Nat → TreeState → Checked (Option (Tree × BitReader))
  | 0, _ => .error .unfinished
  | fuel + 1, s =>
    if s.reader.failed ∨ s.next ≥ 2 * 2 ^ width - 1 then return none
    else do
      let (bit, reader) ← s.reader.bitAt
      if bit then
        ReadTreeLoopAt width fuel { s with
          reader := reader
          pending := .left s.next :: .right s.next :: s.pending
          next := s.next + 1 }
      else
        let (symbol, reader) ← reader.bitsAt width
        ReadTreeSymbolAt width (ReadTreeLoopAt width fuel) { s with reader := reader } symbol

/-- `ReadTree`; none for a tree that is not `ok` -/
def ReadTreeAt (reader : BitReader) (width : Nat) : Checked (Option (Tree × BitReader)) :=
  ReadTreeLoopAt width (2 * 2 ^ width) ⟨reader, ⟨fun _ => 0, fun _ => 0⟩, [], 2 ^ width⟩

/-- from a node down to a symbol -/
def walkTreeAt (tree : Tree) (leaves : Nat) : Nat → Nat → BitReader → Checked (Nat × BitReader)
  | 0, _, _ => .error .unfinished
  | fuel + 1, symbol, reader =>
    if symbol ≥ leaves then do
      require (¬(symbol ≥ tree.size ∨ reader.failed))
      let (bit, reader) ← reader.bitAt
      within tree.size symbol 1
      walkTreeAt tree leaves fuel
        (if bit then tree.arrays.right symbol else tree.arrays.left symbol) reader
    else .ok (symbol, reader)

def readSymbolAt (tree : Tree) (leaves : Nat) (reader : BitReader) : Checked (Nat × BitReader) :=
  walkTreeAt tree leaves (tree.size + 1) tree.root reader

/-! ## the decoder -/

/-- the readers, and the output; they keep their own places in the source -/
structure AshProgress where
  symbols : BitReader
  distances : BitReader
  progress : Progress

/-- one symbol, and the distance behind a length -/
def ashSymbolAt (symbol_tree distance_tree : Tree) (symbol_bits distance_bits expanded : Nat)
    (s : AshProgress) : Checked AshProgress := do
  let (symbol, symbols) ← readSymbolAt symbol_tree (2 ^ symbol_bits) s.symbols
  if symbol < 0x100 then
    let p ← writeByte expanded (UInt8.ofNat symbol) s.progress
    return { s with symbols := symbols, progress := p }
  else
    let (distance, distances) ← readSymbolAt distance_tree (2 ^ distance_bits) s.distances
    let length := symbol - 0x100 + 3
    require (distance + 1 ≤ s.progress.written ∧
      (s.progress.written + length) % 2 ^ 32 ≤ expanded)
    let p ← writeRun expanded length (s.progress.written - (distance + 1)) s.progress
    return ⟨symbols, distances, p⟩

def ashLoopAt (symbol_tree distance_tree : Tree) (symbol_bits distance_bits expanded : Nat) :
    Nat → AshProgress → Checked AshProgress
  | 0, _ => .error .unfinished
  | fuel + 1, s =>
    if s.progress.written < expanded then do
      let s ← ashSymbolAt symbol_tree distance_tree symbol_bits distance_bits expanded s
      ashLoopAt symbol_tree distance_tree symbol_bits distance_bits expanded fuel s
    else .ok s

/-- `AshExpandedSize` -/
def ashSizeAt (src : List UInt8) : Checked Nat :=
  if kAshHeaderSize ≤ src.length then do
    within src.length 0 4
    if read32 src 0 = kAshMagic then
      within src.length 4 4
      return read32 src 4 % 2 ^ 24
    else return 0
  else .ok 0

/-- `AshDecompress` into a buffer; the bytes that were written -/
def AshExpand (src dst : List UInt8) (symbol_bits distance_bits : Nat) :
    Checked (List UInt8) := do
  let expanded ← ashSizeAt src
  require (expanded ≠ 0 ∧ expanded ≤ dst.length)
  require (1 ≤ symbol_bits ∧ symbol_bits ≤ 16 ∧ 1 ≤ distance_bits ∧ distance_bits ≤ 16)
  within src.length 8 4
  let distance_at := read32 src 8
  require (distance_at + 4 ≤ src.length)
  let symbols ← BitReader.startAt src kAshHeaderSize
  let distances ← BitReader.startAt src distance_at
  let symbol_tree ← ReadTreeAt symbols symbol_bits
  let distance_tree ← ReadTreeAt distances distance_bits
  let (symbol_tree, symbols) ← given symbol_tree
  let (distance_tree, distances) ← given distance_tree
  let s ← ashLoopAt symbol_tree distance_tree symbol_bits distance_bits expanded (expanded + 1)
    ⟨symbols, distances, ⟨0, 0, dst⟩⟩
  require (¬(s.symbols.failed || s.distances.failed))
  return s.progress.dst.take s.progress.written

/-! ## bits -/

namespace BitReader

theorem feedAt_eq (r : BitReader) : r.feedAt = .ok r.feed := by
  unfold feedAt
  split
  · rfl
  · next hlong =>
    rw [within_of_le (Nat.le_of_not_lt hlong)]
    rfl

theorem startAt_eq (data : List UInt8) (place : Nat) :
    startAt data place = .ok (start data place) := feedAt_eq _

theorem bitAt_eq (r : BitReader) : r.bitAt = .ok r.bit := by
  unfold bitAt
  split
  · next h =>
    rw [feedAt_eq, ok_bind]
    have hnext : r.bit.2 = r.feed := by
      unfold bit
      rw [h.1, if_neg Bool.false_ne_true]
      exact dif_pos h.2
    rw [← hnext]
    rfl
  · rfl

theorem bitsAt_eq (count : Nat) (r : BitReader) : r.bitsAt count = .ok (r.bits count) := by
  have hgo (v : Nat) : bitsOntoAt v count r = .ok (bitsOnto v count r) := by
    induction count generalizing r v with
    | zero => rfl
    | succ count ih =>
      show (r.bitAt >>= fun bit => _) = _
      rw [bitAt_eq, ok_bind]
      exact ih _ _
  exact hgo 0

end BitReader

/-! ## trees -/

def Place.index : Place → Nat
  | .left index => index
  | .right index => index

def Place.isLeft : Place → Bool
  | .left _ => true
  | .right _ => false

theorem closePlacesAt_eq {size : Nat} {pending : List Place} (a : Arrays) (symbol : Nat)
    (h : ∀ place ∈ pending, place.index < size) :
    closePlacesAt size a symbol pending = .ok (closePlaces a symbol pending) := by
  induction pending generalizing a symbol with
  | nil => rfl
  | cons place pending ih =>
    obtain ⟨hplace, hpending⟩ := List.forall_mem_cons.mp h
    cases place with
    | left index =>
      unfold closePlacesAt
      rw [within_of_le hplace]
      rfl
    | right index =>
      unfold closePlacesAt closePlaces
      rw [within_of_le hplace, ok_bind]
      split
      · exact ih _ _ hpending
      · rfl

theorem closePlaces_some {a a' : Arrays} {symbol symbol' : Nat} {pending pending' : List Place}
    (h : closePlaces a symbol pending = some (a', symbol', pending')) :
    (∀ place ∈ pending', place ∈ pending) ∧
      (pending' ≠ [] → pending'.countP Place.isLeft < pending.countP Place.isLeft) := by
  induction pending generalizing a symbol with
  | nil => cases h
  | cons place pending ih =>
    cases place with
    | left index =>
      cases h
      exact ⟨fun place hplace => List.mem_cons_of_mem _ hplace,
        fun _ => by rw [List.countP_cons]; exact Nat.lt_succ_self _⟩
    | right index =>
      unfold closePlaces at h
      split at h
      · obtain ⟨hmem, hcount⟩ := ih h
        refine ⟨fun place hplace => List.mem_cons_of_mem _ (hmem place hplace), fun hne => ?_⟩
        rw [List.countP_cons]
        exact Nat.lt_add_right _ (hcount hne)
      · cases h
        exact ⟨fun place hplace => absurd hplace List.not_mem_nil, fun hne => absurd rfl hne⟩

/-- **A tree is read inside its arrays**, and the loop ends: each iteration takes a node that is
left or closes a left place. -/
theorem ReadTreeLoopAt_eq {width fuel : Nat} {s : TreeState}
    (hplaces : ∀ place ∈ s.pending, place.index < 2 * 2 ^ width - 1)
    (hfuel : 2 * (2 * 2 ^ width - 1 - s.next) + s.pending.countP Place.isLeft < fuel) :
    ReadTreeLoopAt width fuel s = .ok (ReadTreeLoop width fuel s) := by
  induction fuel generalizing s with
  | zero => omega
  | succ fuel ih =>
    unfold ReadTreeLoopAt ReadTreeLoop
    by_cases hguard : s.reader.failed = true ∨ s.next ≥ 2 * 2 ^ width - 1
    · rw [if_pos hguard, if_pos hguard]
      rfl
    · rw [if_neg hguard, if_neg hguard, BitReader.bitAt_eq, ok_bind]
      have hnext : s.next < 2 * 2 ^ width - 1 := Nat.lt_of_not_le fun h => hguard (.inr h)
      dsimp only
      split
      · refine ih ?_ ?_
        · exact List.forall_mem_cons.mpr ⟨hnext, List.forall_mem_cons.mpr ⟨hnext, hplaces⟩⟩
        · have hone : (Place.left s.next :: .right s.next :: s.pending).countP Place.isLeft =
              s.pending.countP Place.isLeft + 1 := by
            rw [List.countP_cons_of_pos rfl, List.countP_cons_of_neg Bool.false_ne_true]
          dsimp only
          omega
      · rw [BitReader.bitsAt_eq, ok_bind]
        unfold ReadTreeSymbolAt ReadTreeSymbol
        dsimp only
        rw [closePlacesAt_eq _ _ hplaces, ok_bind]
        cases hclose : closePlaces s.arrays (s.reader.bit.2.bits width).1 s.pending with
        | none => rfl
        | some closed =>
          obtain ⟨arrays, symbol, pending⟩ := closed
          obtain ⟨hmem, hcount⟩ := closePlaces_some hclose
          dsimp only
          by_cases hopen : pending.length > 0
          · rw [if_pos hopen, if_pos hopen]
            have hless := hcount (List.length_pos_iff.mp hopen)
            refine ih (fun place hplace => hplaces place (hmem place hplace)) ?_
            dsimp only
            omega
          · rw [if_neg hopen, if_neg hopen]
            split <;> rfl

theorem ReadTreeAt_eq (reader : BitReader) (width : Nat) :
    ReadTreeAt reader width = .ok (ReadTree reader width) := by
  have hpos := Nat.two_pow_pos width
  refine ReadTreeLoopAt_eq (fun place hplace => absurd hplace List.not_mem_nil) ?_
  show 2 * (2 * 2 ^ width - 1 - 2 ^ width) + 0 < 2 * 2 ^ width
  omega

/-- **A symbol is read inside the arrays**, by induction on the code that the tree stands for: no
path is longer than its branches. -/
theorem walkTreeAt_eq {tree : Tree} {leaves n fuel : Nat} {c : Code} (reader : BitReader)
    (h : Stands tree leaves c n) (hfuel : c.branches < fuel) :
    walkTreeAt tree leaves fuel (value c n) reader =
      given (walkTree tree leaves fuel (value c n) reader) := by
  induction c generalizing n fuel reader with
  | leaf symbol =>
    obtain ⟨fuel, rfl⟩ := Nat.exists_eq_succ_of_ne_zero (Nat.ne_of_gt hfuel)
    have hlt : ¬symbol ≥ leaves :=
      Nat.not_le.mpr (h.symbols symbol (List.mem_singleton_self symbol))
    show (if symbol ≥ leaves then _ else _) = given (if symbol ≥ leaves then _ else _)
    rw [if_neg hlt, if_neg hlt]
    rfl
  | node zero one ihz iho =>
    change zero.branches + one.branches + 1 < fuel at hfuel
    obtain ⟨fuel, rfl⟩ := Nat.exists_eq_succ_of_ne_zero (n := fuel) (by omega)
    have hle : n ≥ leaves := h.le
    show walkTreeAt tree leaves (fuel + 1) n reader =
      given (walkTree tree leaves (fuel + 1) n reader)
    unfold walkTreeAt walkTree
    rw [if_pos hle, if_pos hle]
    by_cases hguard : n ≥ tree.size ∨ reader.failed = true
    · rw [require_neg fun hnot => hnot hguard, error_bind, if_pos hguard]
      rfl
    · rw [require_pos hguard, ok_bind, if_neg hguard, BitReader.bitAt_eq, ok_bind]
      dsimp only
      rw [within_of_le h.node_lt, ok_bind]
      split
      · rw [h.one.2]
        exact iho _ h.one.1 (by omega)
      · rw [h.zero.2]
        exact ihz _ h.zero.1 (by omega)

theorem walkTree_lt {tree : Tree} {leaves fuel symbol symbol' : Nat} {reader reader' : BitReader}
    (h : walkTree tree leaves fuel symbol reader = some (symbol', reader')) : symbol' < leaves := by
  induction fuel generalizing symbol reader with
  | zero => cases h
  | succ fuel ih =>
    unfold walkTree at h
    split at h
    · split at h
      · cases h
      · exact ih h
    · next hlt =>
      cases h
      exact Nat.lt_of_not_le hlt

/-- a tree that was read is one that symbols can be read from -/
def Readable (tree : Tree) (width : Nat) : Prop :=
  ∃ c : Code, tree = codeTree width c ∧ (∀ symbol ∈ c.symbols, symbol < 2 ^ width) ∧
    c.branches + 1 < 2 ^ width

theorem readSymbolAt_eq {tree : Tree} {width : Nat} (h : Readable tree width)
    (reader : BitReader) :
    readSymbolAt tree (2 ^ width) reader = given (readSymbol tree (2 ^ width) reader) := by
  obtain ⟨c, rfl, hsymbols, hnodes⟩ := h
  refine walkTreeAt_eq reader (codeTree_stands hsymbols hnodes) ?_
  show c.branches < 2 * 2 ^ width - 1 + 1
  omega

theorem readable_of_read {reader reader' : BitReader} {tree : Tree} {width : Nat}
    (h : ReadTree reader width = some (tree, reader')) : Readable tree width := by
  obtain ⟨c, hsymbols, -, hnodes, htree, -⟩ := ReadTree_sound h
  exact ⟨c, htree, hsymbols, hnodes⟩

variable {src : List UInt8} {expanded symbol_bits distance_bits : Nat}
  {symbol_tree distance_tree : Tree}

/-- the decoder is where the list decoder is, with its output in the buffer -/
structure AshShows (expanded : Nat) (s : AshProgress) (t : AshState) : Prop where
  symbols : s.symbols = t.symbols
  distances : s.distances = t.distances
  shows : ∃ src rest, Shows src expanded s.progress rest t.dst

theorem ashSymbolAt_eq {s : AshProgress} {t : AshState}
    (hsymbols : Readable symbol_tree symbol_bits)
    (hdistances : Readable distance_tree distance_bits) (hbits : symbol_bits ≤ 16)
    (hexpanded : expanded < 2 ^ 24) (hmore : t.dst.length < expanded)
    (h : AshShows expanded s t) :
    match ashSymbol symbol_tree distance_tree symbol_bits distance_bits expanded t with
    | none => ashSymbolAt symbol_tree distance_tree symbol_bits distance_bits expanded s =
        .error .refused
    | some t' =>
      t.dst.length < t'.dst.length ∧
        ∃ s', ashSymbolAt symbol_tree distance_tree symbol_bits distance_bits expanded s = .ok s' ∧
          AshShows expanded s' t' := by
  obtain ⟨hs, hd, src, rest, hshows⟩ := h
  unfold ashSymbol ashSymbolAt
  rw [readSymbolAt_eq hsymbols, hs, hd]
  cases hread : readSymbol symbol_tree (2 ^ symbol_bits) t.symbols with
  | none => rfl
  | some found =>
    obtain ⟨symbol, symbols⟩ := found
    have hsymbol : symbol < 2 ^ symbol_bits := walkTree_lt hread
    have hlimit : 2 ^ symbol_bits ≤ 2 ^ 16 := Nat.pow_le_pow_right (by decide) hbits
    rw [given, ok_bind]
    dsimp only
    by_cases hbyte : symbol < 0x100
    · rw [if_pos hbyte, if_pos hbyte]
      obtain ⟨p, hp, hnext, -⟩ := writeByte_of_lt (b := UInt8.ofNat symbol) hshows hmore
      refine ⟨?_, ⟨symbols, t.distances, p⟩, ?_, rfl, rfl, src, rest, hnext⟩
      · show t.dst.length < (t.dst ++ [UInt8.ofNat symbol]).length
        rw [List.length_append]
        exact Nat.lt_succ_self _
      · rw [hp]
        rfl
    · rw [if_neg hbyte, if_neg hbyte, readSymbolAt_eq hdistances]
      cases hread' : readSymbol distance_tree (2 ^ distance_bits) t.distances with
      | none => rfl
      | some found =>
        obtain ⟨distance, distances⟩ := found
        have hwritten := hshows.written
        rw [given, ok_bind]
        dsimp only
        rw [hwritten, Nat.sub_sub]
        by_cases hfits : distance + 1 ≤ t.dst.length ∧
            (t.dst.length + (symbol - 0x100 + 3)) % 2 ^ 32 ≤ expanded
        · rw [if_neg (by omega), require_pos hfits, ok_bind]
          have hle : t.dst.length + (symbol - 0x100 + 3) ≤ expanded := by omega
          obtain ⟨p, hp, hnext⟩ := writeRun_of_le (Nat.succ_pos distance) (symbol - 0x100 + 3)
            hshows hfits.1 hle
          refine ⟨?_, ⟨symbols, distances, p⟩, ?_, rfl, rfl, src, rest, ?_⟩
          · dsimp only
            rw [copyForward_eq _ hfits.1, length_copyBack]
            omega
          · rw [hp]
            rfl
          · dsimp only
            rw [copyForward_eq _ hfits.1]
            exact hnext
        · rw [if_pos (by omega), require_neg hfits]
          rfl

/-- **The loop is that of the list decoder**, which ends: the output grows with every symbol. -/
theorem ashLoopAt_eq {fuel : Nat} {s : AshProgress} {t : AshState}
    (hsymbols : Readable symbol_tree symbol_bits)
    (hdistances : Readable distance_tree distance_bits) (hbits : symbol_bits ≤ 16)
    (hexpanded : expanded < 2 ^ 24) (h : AshShows expanded s t)
    (hfuel : expanded < t.dst.length + fuel) (hpos : 0 < fuel) :
    match ashLoop symbol_tree distance_tree symbol_bits distance_bits expanded fuel t with
    | none => ashLoopAt symbol_tree distance_tree symbol_bits distance_bits expanded fuel s =
        .error .refused
    | some t' =>
      ∃ s', ashLoopAt symbol_tree distance_tree symbol_bits distance_bits expanded fuel s = .ok s' ∧
        AshShows expanded s' t' := by
  induction fuel generalizing s t with
  | zero => omega
  | succ fuel ih =>
    obtain ⟨hs, hd, src, rest, hshows⟩ := h
    have hwritten := hshows.written
    unfold ashLoop ashLoopAt
    rw [hwritten]
    by_cases hmore : t.dst.length < expanded
    · rw [if_pos hmore, if_pos hmore]
      have hstep := ashSymbolAt_eq hsymbols hdistances hbits hexpanded hmore
        ⟨hs, hd, src, rest, hshows⟩
      cases hsymbol : ashSymbol symbol_tree distance_tree symbol_bits distance_bits expanded t with
      | none =>
        rw [hsymbol] at hstep
        dsimp only at hstep ⊢
        rw [hstep, error_bind]
      | some t' =>
        rw [hsymbol] at hstep
        obtain ⟨hgrows, s', hs', hnext⟩ := hstep
        dsimp only
        rw [hs', ok_bind]
        exact ih hnext (by omega) (by omega)
    · rw [if_neg hmore, if_neg hmore]
      exact ⟨s, rfl, hs, hd, src, rest, hshows⟩

/-! ## whole sources -/

theorem ashSizeAt_eq (src : List UInt8) : ashSizeAt src = .ok (AshExpandedSize src) := by
  unfold ashSizeAt AshExpandedSize IsAsh
  by_cases hlength : kAshHeaderSize ≤ src.length
  · have hlength' : 12 ≤ src.length := hlength
    rw [if_pos hlength, within_of_le (by omega), ok_bind, decide_eq_true hlength, Bool.true_and]
    by_cases hmagic : read32 src 0 = kAshMagic
    · rw [if_pos hmagic, within_of_le (by omega), if_pos (decide_eq_true hmagic)]
      rfl
    · rw [if_neg hmagic, decide_eq_false hmagic]
      rfl
  · rw [if_neg hlength, decide_eq_false hlength]
    rfl

theorem AshExpandedSize_lt (src : List UInt8) : AshExpandedSize src < 2 ^ 24 := by
  unfold AshExpandedSize
  split
  · exact Nat.mod_lt _ (by decide)
  · decide

theorem AshExpandedSize_length {src : List UInt8} (h : AshExpandedSize src ≠ 0) :
    12 ≤ src.length := by
  unfold AshExpandedSize IsAsh at h
  by_contra hshort
  rw [decide_eq_false (show ¬kAshHeaderSize ≤ src.length from hshort)] at h
  exact h rfl

/-- **Every access of the decoder is inside, and it ends**: it does what the list decoder does. -/
theorem AshExpand_decodes (src dst : List UInt8) (symbol_bits distance_bits : Nat) :
    AshExpand src dst symbol_bits distance_bits =
      given (AshDecompress src dst.length symbol_bits distance_bits) := by
  unfold AshExpand AshDecompress
  rw [ashSizeAt_eq, ok_bind]
  dsimp only
  by_cases hsize : AshExpandedSize src ≠ 0 ∧ AshExpandedSize src ≤ dst.length
  · have hlength := AshExpandedSize_length hsize.1
    rw [require_pos hsize, ok_bind, if_neg (by omega)]
    by_cases hbits : 1 ≤ symbol_bits ∧ symbol_bits ≤ 16 ∧ 1 ≤ distance_bits ∧ distance_bits ≤ 16
    · rw [require_pos hbits, ok_bind, if_neg (by omega), within_of_le (by omega), ok_bind]
      by_cases hat : read32 src 8 + 4 ≤ src.length
      · rw [require_pos hat, ok_bind, if_neg (Nat.not_lt.mpr hat), BitReader.startAt_eq, ok_bind,
          BitReader.startAt_eq, ok_bind, ReadTreeAt_eq, ok_bind, ReadTreeAt_eq, ok_bind]
        cases hs : ReadTree (.start src kAshHeaderSize) symbol_bits with
        | none => rfl
        | some found =>
          obtain ⟨symbol_tree, symbols⟩ := found
          cases hd : ReadTree (.start src (read32 src 8)) distance_bits with
          | none => rfl
          | some found =>
            obtain ⟨distance_tree, distances⟩ := found
            have hstart : AshShows (AshExpandedSize src)
                ⟨symbols, distances, ⟨0, 0, dst⟩⟩ ⟨symbols, distances, []⟩ :=
              ⟨rfl, rfl, src, src.drop 0, shows_start 0 hsize.2
                ((AshExpandedSize_lt src).trans (by decide))⟩
            have hroom : AshExpandedSize src < 0 + (AshExpandedSize src + 1) := by omega
            have hloop := ashLoopAt_eq (readable_of_read hs) (readable_of_read hd) hbits.2.1
              (AshExpandedSize_lt src) hstart hroom (Nat.succ_pos _)
            rw [given, ok_bind]
            dsimp only
            rw [given, ok_bind]
            dsimp only
            cases hrun : ashLoop symbol_tree distance_tree symbol_bits distance_bits
                (AshExpandedSize src) (AshExpandedSize src + 1) ⟨symbols, distances, []⟩ with
            | none =>
              rw [hrun] at hloop
              dsimp only at hloop ⊢
              rw [hloop]
              rfl
            | some t =>
              rw [hrun] at hloop
              obtain ⟨s, hs', hsymbols, hdistances, _, _, hshows⟩ := hloop
              dsimp only
              rw [hs', ok_bind, hsymbols, hdistances, hshows.output]
              by_cases hfailed : (t.symbols.failed || t.distances.failed) = true
              · rw [if_pos hfailed, require_neg fun h => h hfailed]
                rfl
              · rw [if_neg hfailed, require_pos hfailed]
                rfl
      · rw [require_neg hat, if_pos (Nat.lt_of_not_le hat)]
        rfl
    · rw [require_neg hbits, if_pos (by omega)]
      rfl
  · rw [require_neg hsize, if_pos (by omega)]
    rfl

/-- **The expanders end on every source, and access nothing outside it, the arrays of their trees or
the declared size, but for a Yaz0 file or a CX stream in which a copy reaches 2^32.** -/
theorem expanders_bounded_iff (src dst : List UInt8) (symbol_bits distance_bits : Nat) :
    (Safe (Yaz0Expand src dst) ∧ Finishes (Yaz0Expand src dst) ↔ ¬Yaz0Overruns src dst) ∧
      (Safe (CxExpand src dst) ∧ Finishes (CxExpand src dst) ↔ ¬CxOverruns src dst) ∧
      Safe (AshExpand src dst symbol_bits distance_bits) ∧
      Finishes (AshExpand src dst symbol_bits distance_bits) := by
  refine ⟨?_, ?_, ?_⟩
  · rw [and_iff_left (Yaz0Expand_finishes src dst)]
    exact Yaz0Expand_safe_iff src dst
  · rw [and_iff_left (CxExpand_finishes src dst)]
    exact CxExpand_safe_iff src dst
  · rw [AshExpand_decodes]
    exact given_safe _

/-- a file of 2^32 - 1 bytes whose runs stop 254 short of that, and one more run of 273 -/
theorem Yaz0Expand_outside :
    Yaz0ExpandedSize (fileOfRuns 15732480) = 2 ^ 32 - 1 ∧
      ¬Safe (Yaz0Expand (fileOfRuns 15732480) (List.replicate (2 ^ 32 - 1) 0)) := by
  refine ⟨(headerOf_reads (by decide) _).1, fun hsafe => ?_⟩
  refine (Yaz0Expand_safe_iff _ _).mp hsafe (fileOfRuns_overruns List.length_replicate ?_ ?_)
  · decide
  · decide

end DolTranslator.Archive
