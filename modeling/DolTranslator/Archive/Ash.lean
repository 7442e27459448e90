import DolTranslator.Archive.Window
import DolTranslator.Lz.Codes

/-!
# Bits out of big-endian words

The reader keeps a word and fetches the next one as soon as the last bit of it is taken.

* `BitReader`   the reader, which has failed once there is no word to fetch;
* `rest`   the bits it has still to give; it has failed exactly when there are none;
* `wordBits`   those of the whole words of a file from some place on.
-/

namespace DolTranslator.Archive

open Disc Lz Streams

structure BitReader where
  data : List UInt8
  next : Nat
  word : Nat
  used : Nat
  failed : Bool
  used_lt : used < 32

namespace BitReader

def feed (r : BitReader) : BitReader :=
  if r.next + 4 > r.data.length then
    { r with failed := true, word := 0, used := 0, used_lt := by decide }
  else
    { r with
      word := read32 r.data r.next
      used := 0
      next := r.next + 4
      used_lt := by decide }

theorem width_pos : 0 < 32 := by decide

def start (data : List UInt8) (place : Nat) : BitReader :=
  feed ⟨data, place, 0, 0, false, by decide⟩

/-- a zero once there is nothing left -/
def bit (r : BitReader) : Bool × BitReader :=
  if r.failed then (false, r)
  else
    (decide (r.word / 2 ^ 31 ≠ 0),
      if h : r.used = 31 then r.feed
      else
        { r with
          used := r.used + 1
          word := r.word * 2 % 2 ^ 32
          used_lt := by
            have := r.used_lt
            omega })

/-- `Bits`, onto what was read before -/
def bitsOnto (value : Nat) : Nat → BitReader → Nat × BitReader
  | 0, r => (value, r)
  | count + 1, r => bitsOnto (2 * value + r.bit.1.toNat) count r.bit.2

def bits (count : Nat) (r : BitReader) : Nat × BitReader := bitsOnto 0 count r

end BitReader

/-! ## what is left of a file -/

def wordBitsFrom (data : List UInt8) : Nat → Nat → List Bool
  | 0, _ => []
  | n + 1, i => bitsOf 32 (read32 data i) ++ wordBitsFrom data n (i + 4)

def wordBits (data : List UInt8) (i : Nat) : List Bool :=
  wordBitsFrom data ((data.length - i) / 4) i

theorem wordBits_of_lt {data : List UInt8} {i : Nat} (h : data.length < i + 4) :
    wordBits data i = [] := by
  unfold wordBits
  rw [show (data.length - i) / 4 = 0 by omega]
  rfl

theorem wordBits_of_le {data : List UInt8} {i : Nat} (h : i + 4 ≤ data.length) :
    wordBits data i = bitsOf 32 (read32 data i) ++ wordBits data (i + 4) := by
  unfold wordBits
  rw [show (data.length - i) / 4 = (data.length - (i + 4)) / 4 + 1 by omega]
  rfl

def topBits (word : Nat) : Nat → List Bool
  | 0 => []
  | k + 1 => decide (word / 2 ^ 31 ≠ 0) :: topBits (word * 2 % 2 ^ 32) k

theorem bitsOf_mod (n v : Nat) : bitsOf n (v % 2 ^ n) = bitsOf n v := by
  have h := bitsOf_ofBits (bitsOf n v)
  rwa [length_bitsOf, ofBits_bitsOf] at h

theorem topBits_eq {k word : Nat} (hk : k ≤ 32) (hword : word < 2 ^ 32) :
    topBits word k = bitsOf k (word / 2 ^ (32 - k)) := by
  induction k generalizing word with
  | zero => rfl
  | succ k ih =>
    rw [topBits, ih (by omega) (Nat.mod_lt _ (by decide)), bitsOf]
    have hpow : 2 ^ (32 - k) = 2 * 2 ^ (32 - (k + 1)) := by
      rw [← pow_succ', show 32 - (k + 1) + 1 = 32 - k by omega]
    have hsplit : (2 : Nat) ^ 32 = 2 ^ (32 - k) * 2 ^ k := by
      rw [← pow_add, show 32 - k + k = 32 by omega]
    have hlow : word * 2 % 2 ^ 32 / 2 ^ (32 - k) = word / 2 ^ (32 - (k + 1)) % 2 ^ k := by
      rw [hsplit, Nat.mod_mul_right_div_self, hpow, Nat.mul_comm word 2,
        Nat.mul_div_mul_left _ _ (by decide)]
    have hhigh : word / 2 ^ (32 - (k + 1)) / 2 ^ k = word / 2 ^ 31 := by
      rw [Nat.div_div_eq_div_mul, ← pow_add, show 32 - (k + 1) + k = 31 by omega]
    rw [hlow, bitsOf_mod, hhigh]
    congr 1
    exact decide_eq_decide.mpr (by omega)

namespace BitReader

def rest (r : BitReader) : List Bool :=
  if r.failed then [] else topBits r.word (32 - r.used) ++ wordBits r.data r.next

variable {r : BitReader}

/-- **The reader has failed as soon as it has given its last bit.** -/
theorem failed_iff : r.failed = true ↔ r.rest = [] := by
  have hused := r.used_lt
  unfold rest
  cases r.failed with
  | true => exact ⟨fun _ => rfl, fun _ => rfl⟩
  | false =>
    refine ⟨fun h => (by cases h), fun h => ?_⟩
    rw [if_neg Bool.false_ne_true, show 32 - r.used = 31 - r.used + 1 by omega] at h
    cases h

theorem rest_feed (h : r.failed = false) : r.feed.rest = wordBits r.data r.next := by
  unfold feed
  split
  · next hshort =>
    rw [wordBits_of_lt hshort]
    rfl
  · next hlong =>
    rw [wordBits_of_le (Nat.le_of_not_lt hlong)]
    unfold rest
    rw [h, if_neg Bool.false_ne_true]
    show topBits (read32 r.data r.next) 32 ++ _ = _
    rw [topBits_eq (Nat.le_refl 32) (read32_lt _ _), Nat.sub_self, pow_zero, Nat.div_one]

@[simp] theorem rest_start (data : List UInt8) (i : Nat) :
    (start data i).rest = wordBits data i := rest_feed rfl

theorem rest_bit (r : BitReader) : r.bit.2.rest = r.rest.tail := by
  have hused := r.used_lt
  unfold bit
  split
  · next hfailed =>
    show r.rest = r.rest.tail
    simp only [failed_iff.mp hfailed, List.tail_nil]
  · next hgood =>
    have hgood : r.failed = false := Bool.eq_false_of_not_eq_true hgood
    have hrest : r.rest = topBits r.word (32 - r.used) ++ wordBits r.data r.next :=
      if_neg (by rw [hgood]; exact Bool.false_ne_true)
    dsimp only
    split
    · next hlast =>
      rw [rest_feed hgood, hrest, hlast]
      rfl
    · rw [hrest, show 32 - r.used = 32 - (r.used + 1) + 1 by omega]
      exact if_neg (by rw [hgood]; exact Bool.false_ne_true)

theorem bit_of_rest {b : Bool} {bs : List Bool} (h : r.rest = b :: bs) :
    r.failed = false ∧ r.bit.1 = b ∧ r.bit.2.rest = bs := by
  have hgood : r.failed = false := by
    rw [← Bool.not_eq_true, failed_iff, h]
    exact List.cons_ne_nil _ _
  have hused := r.used_lt
  refine ⟨hgood, ?_, ?_⟩
  · unfold rest at h
    rw [hgood, if_neg Bool.false_ne_true, show 32 - r.used = 31 - r.used + 1 by omega] at h
    unfold bit
    rw [hgood, if_neg Bool.false_ne_true]
    exact (List.cons.inj h).1
  · rw [rest_bit, h]
    rfl

theorem rest_bits (count : Nat) (r : BitReader) : (r.bits count).2.rest = r.rest.drop count := by
  have hgo (v : Nat) : (bitsOnto v count r).2.rest = r.rest.drop count := by
    induction count generalizing r v with
    | zero => rfl
    | succ count ih =>
      show (bitsOnto _ count r.bit.2).2.rest = _
      rw [ih, rest_bit, List.drop_tail]
  exact hgo 0

theorem bits_of_rest {bs more : List Bool} (h : r.rest = bs ++ more) :
    (r.bits bs.length).1 = ofBits bs := by
  have hgo (v : Nat) : (bitsOnto v bs.length r).1 =
      bs.foldl (fun v bit => 2 * v + bit.toNat) v := by
    induction bs generalizing r v with
    | nil => rfl
    | cons b bs ih =>
      obtain ⟨-, hbit, hrest⟩ := bit_of_rest h
      show (bitsOnto (2 * v + r.bit.1.toNat) bs.length r.bit.2).1 = _
      rw [hbit]
      exact ih hrest _
  exact hgo 0

end BitReader

end DolTranslator.Archive

/-!
## ASH, expanded

Two bit streams, symbols and distances, each behind the tree of its code.

* `ReadTree`      a tree from its walk, by a stack of the places still open;
* `AshDecompress` the decoder; none where the code returns 0.
-/

namespace DolTranslator.Archive

open Disc Lz Streams

/-! ## trees -/

/-- where a 0 bit leads and where a 1 bit leads -/
structure Arrays where
  left : Nat → Nat
  right : Nat → Nat

def Arrays.setLeft (a : Arrays) (i v : Nat) : Arrays :=
  { a with left := fun j => if j = i then v else a.left j }

def Arrays.setRight (a : Arrays) (i v : Nat) : Arrays :=
  { a with right := fun j => if j = i then v else a.right j }

structure Tree where
  arrays : Arrays
  size : Nat
  root : Nat

/-- a place to fill: on which side of which branch -/
inductive Place where
  | left (index : Nat)
  | right (index : Nat)

/-- the inner loop: a symbol closes the nearest place, and each branch that is then complete the
next one; `open` is how many places there are -/
def closePlaces (a : Arrays) (symbol : Nat) : List Place → Option (Arrays × Nat × List Place)
  | [] => none
  | .left index :: pending => some (a.setLeft index symbol, symbol, pending)
  | .right index :: pending =>
    if pending.length > 0 then closePlaces (a.setRight index symbol) index pending
    else some (a.setRight index symbol, index, [])

structure TreeState where
  reader : BitReader
  arrays : Arrays
  pending : List Place
  next : Nat

/-- what follows a symbol, given the rest of the loop -/
def ReadTreeSymbol (width : Nat) (loop : TreeState → Option (Tree × BitReader)) (s : TreeState)
    (symbol : Nat) : Option (Tree × BitReader) :=
  match closePlaces s.arrays symbol s.pending with
  | none => none
  | some (arrays, symbol, pending) =>
    if pending.length > 0 then loop { s with arrays := arrays, pending := pending }
    else if s.reader.failed then none
    else some (⟨arrays, 2 * 2 ^ width - 1, symbol⟩, s.reader)

def ReadTreeLoop (width : Nat) : Nat → TreeState → Option (Tree × BitReader)
  | 0, _ => none
  | fuel + 1, s =>
    if s.reader.failed ∨ s.next ≥ 2 * 2 ^ width - 1 then none
    else if s.reader.bit.1 then
      ReadTreeLoop width fuel { s with
        reader := s.reader.bit.2
        pending := .left s.next :: .right s.next :: s.pending
        next := s.next + 1 }
    else
      let symbol := s.reader.bit.2.bits width
      ReadTreeSymbol width (ReadTreeLoop width fuel) { s with reader := symbol.2 } symbol.1

/-- none for a tree that is not `ok` -/
def ReadTree (reader : BitReader) (width : Nat) : Option (Tree × BitReader) :=
  ReadTreeLoop width (2 * 2 ^ width)
    ⟨reader, ⟨fun _ => 0, fun _ => 0⟩, [], 2 ^ width⟩

/-! ## the decoder -/

def kAshHeaderSize : Nat := 0x0C

/-- "ASH0" -/
def kAshMagic : Nat := 0x41534830

def IsAsh (data : List UInt8) : Bool :=
  decide (kAshHeaderSize ≤ data.length) && decide (read32 data 0 = kAshMagic)

/-- the low 24 bits of its word -/
def AshExpandedSize (data : List UInt8) : Nat :=
  if IsAsh data then read32 data 4 % 2 ^ 24 else 0

/-- from a node down to a symbol -/
def walkTree (tree : Tree) (leaves : Nat) : Nat → Nat → BitReader → Option (Nat × BitReader)
  | 0, _, _ => none
  | fuel + 1, symbol, reader =>
    if symbol ≥ leaves then
      if symbol ≥ tree.size ∨ reader.failed then none
      else
        walkTree tree leaves fuel
          (if reader.bit.1 then tree.arrays.right symbol else tree.arrays.left symbol) reader.bit.2
    else some (symbol, reader)

/-- a symbol from the root; no path is longer than the tree -/
def readSymbol (tree : Tree) (leaves : Nat) (reader : BitReader) : Option (Nat × BitReader) :=
  walkTree tree leaves (tree.size + 1) tree.root reader

structure AshState where
  symbols : BitReader
  distances : BitReader
  dst : List UInt8

/-- one symbol, and the distance behind a length; none for a file that is refused -/
def ashSymbol (symbol_tree distance_tree : Tree) (symbol_bits distance_bits expanded : Nat)
    (s : AshState) : Option AshState :=
  match readSymbol symbol_tree (2 ^ symbol_bits) s.symbols with
  | none => none
  | some (symbol, symbols) =>
    if symbol < 0x100 then
      some { s with symbols := symbols, dst := s.dst ++ [UInt8.ofNat symbol] }
    else
      match readSymbol distance_tree (2 ^ distance_bits) s.distances with
      | none => none
      | some (distance, distances) =>
        let length := symbol - 0x100 + 3
        if distance + 1 > s.dst.length ∨ (s.dst.length + length) % 2 ^ 32 > expanded then none
        else
          some ⟨symbols, distances, copyForward (s.dst.length - distance - 1) length s.dst⟩

def ashLoop (symbol_tree distance_tree : Tree) (symbol_bits distance_bits expanded : Nat) :
    Nat → AshState → Option AshState
  | 0, _ => none
  | fuel + 1, s =>
    if s.dst.length < expanded then
      match ashSymbol symbol_tree distance_tree symbol_bits distance_bits expanded s with
      | none => none
      | some s => ashLoop symbol_tree distance_tree symbol_bits distance_bits expanded fuel s
    else some s

/-- what is written, of which the code returns the length; none where it returns 0 -/
def AshDecompress (src : List UInt8) (dst_size symbol_bits distance_bits : Nat) :
    Option (List UInt8) :=
  let expanded := AshExpandedSize src
  if expanded = 0 ∨ dst_size < expanded then none
  else if symbol_bits < 1 ∨ symbol_bits > 16 ∨ distance_bits < 1 ∨ distance_bits > 16 then none
  else
    let distance_at := read32 src 8
    if distance_at + 4 > src.length then none
    else
      match ReadTree (.start src kAshHeaderSize) symbol_bits,
        ReadTree (.start src distance_at) distance_bits with
      | some (symbol_tree, symbols), some (distance_tree, distances) =>
        match ashLoop symbol_tree distance_tree symbol_bits distance_bits expanded (expanded + 1)
          ⟨symbols, distances, []⟩ with
        | none => none
        | some s => if s.symbols.failed || s.distances.failed then none else some s.dst
      | _, _ => none

end DolTranslator.Archive
