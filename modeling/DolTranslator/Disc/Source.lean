import DolTranslator.Streams.Reads

/-!
# What the disc readers read from

A `Source` hands out ranges of bytes.  `fromMemory` is the one over a buffer; the readers of this
directory turn one source into another.
-/

namespace DolTranslator.Disc

open Streams

/-- `Source`: a read that succeeds has as many bytes as were asked for -/
structure Source where
  read : Nat → Nat → Option (List UInt8)
  length_read : ∀ offset size bytes, read offset size = some bytes → bytes.length = size

/-- `ReadMemory`; the end of the range is taken not to pass 2^64 -/
def readMemory (data : List UInt8) (offset size : Nat) : Option (List UInt8) :=
  if data.length < offset + size then none else some (slice data offset size)

/-- `FromMemory` -/
def Source.fromMemory (data : List UInt8) : Source where
  read := readMemory data
  length_read offset size bytes h := by
    unfold readMemory at h
    split at h
    · cases h
    · obtain rfl := Option.some.inj h
      exact length_slice (by omega)

theorem readMemory_of_le {data : List UInt8} {offset size : Nat} (h : offset + size ≤ data.length) :
    readMemory data offset size = some (slice data offset size) := if_neg (by omega)

theorem readMemory_of_lt {data : List UInt8} {offset size : Nat} (h : data.length < offset + size) :
    readMemory data offset size = none := if_pos h

/-- `std::vector::resize`, which fills with zeros -/
def resize : List UInt8 → Nat → List UInt8
  | _, 0 => []
  | [], n + 1 => 0 :: resize [] n
  | b :: bytes, n + 1 => b :: resize bytes n

@[simp] theorem length_resize (bytes : List UInt8) (n : Nat) : (resize bytes n).length = n := by
  induction n generalizing bytes with
  | zero => cases bytes <;> rfl
  | succ n ih => cases bytes <;> exact congrArg (· + 1) (ih _)

theorem resize_of_length {bytes : List UInt8} {n : Nat} (h : bytes.length = n) :
    resize bytes n = bytes := by
  induction bytes generalizing n with
  | nil =>
    obtain rfl : 0 = n := h
    rfl
  | cons b bytes ih =>
    obtain rfl : bytes.length + 1 = n := h
    exact congrArg (b :: ·) (ih rfl)

theorem getD_resize (bytes : List UInt8) {j n : Nat} (hj : j < n) :
    (resize bytes n).getD j 0 = bytes.getD j 0 := by
  induction n generalizing bytes j with
  | zero => omega
  | succ n ih =>
    cases bytes with
    | nil =>
      cases j with
      | zero => rfl
      | succ j => exact ih [] (by omega)
    | cons b bytes =>
      cases j with
      | zero => rfl
      | succ j => exact ih bytes (by omega)

/-! ## words -/

/-- the byte at a position; the readers only look where there is one -/
def byteAt (bytes : List UInt8) (i : Nat) : Nat := (bytes.getD i 0).toNat

/-- `Read16BE` -/
def read16 (bytes : List UInt8) (i : Nat) : Nat := byteAt bytes i * 256 + byteAt bytes (i + 1)

/-- `Read32`, the high byte first -/
def read32 (bytes : List UInt8) (i : Nat) : Nat :=
  read16 bytes i * 65536 + read16 bytes (i + 2)

/-- `Read64`, the high byte first -/
def read64 (bytes : List UInt8) (i : Nat) : Nat :=
  read32 bytes i * 2 ^ 32 + read32 bytes (i + 4)

/-- `Read32` of the files that keep the low byte first -/
def read32LE (bytes : List UInt8) (i : Nat) : Nat :=
  byteAt bytes i + byteAt bytes (i + 1) * 256 + byteAt bytes (i + 2) * 65536 +
    byteAt bytes (i + 3) * 16777216

/-- `Read64` of the files that keep the low byte first -/
def read64LE (bytes : List UInt8) (i : Nat) : Nat :=
  read32LE bytes i + read32LE bytes (i + 4) * 2 ^ 32

theorem byteAt_slice (bytes : List UInt8) (i : Nat) {j n : Nat} (h : j < n) :
    byteAt (slice bytes i n) j = byteAt bytes (i + j) := congrArg UInt8.toNat (getD_slice 0 h)

theorem read32_lt (bytes : List UInt8) (i : Nat) : read32 bytes i < 2 ^ 32 := by
  have h0 : byteAt bytes i < 2 ^ 8 := UInt8.toNat_lt _
  have h1 : byteAt bytes (i + 1) < 2 ^ 8 := UInt8.toNat_lt _
  have h2 : byteAt bytes (i + 2) < 2 ^ 8 := UInt8.toNat_lt _
  have h3 : byteAt bytes (i + 2 + 1) < 2 ^ 8 := UInt8.toNat_lt _
  unfold read32 read16
  omega

theorem read64_lt (bytes : List UInt8) (i : Nat) : read64 bytes i < 2 ^ 64 := by
  have h0 := read32_lt bytes i
  have h1 := read32_lt bytes (i + 4)
  unfold read64
  omega

def word16 (n : Nat) : List UInt8 := [UInt8.ofNat (n / 2 ^ 8), UInt8.ofNat n]

def word32 (n : Nat) : List UInt8 :=
  [UInt8.ofNat (n / 2 ^ 24), UInt8.ofNat (n / 2 ^ 16), UInt8.ofNat (n / 2 ^ 8), UInt8.ofNat n]

def word64 (n : Nat) : List UInt8 := word32 (n / 2 ^ 32) ++ word32 n

def word32LE (n : Nat) : List UInt8 :=
  [UInt8.ofNat n, UInt8.ofNat (n / 2 ^ 8), UInt8.ofNat (n / 2 ^ 16), UInt8.ofNat (n / 2 ^ 24)]

def word64LE (n : Nat) : List UInt8 := word32LE n ++ word32LE (n / 2 ^ 32)

theorem read32_word32 {bytes : List UInt8} {i n : Nat} (hn : n < 2 ^ 32)
    (h : slice bytes i 4 = word32 n) : read32 bytes i = n := by
  have hat : ∀ j < 4, byteAt bytes (i + j) = byteAt (word32 n) j := fun j hj => by
    rw [← h, byteAt_slice bytes i hj]
  have h0 := hat 0 (by decide)
  have h1 := hat 1 (by decide)
  have h2 := hat 2 (by decide)
  have h3 := hat 3 (by decide)
  have e0 : byteAt (word32 n) 0 = n / 2 ^ 24 % 2 ^ 8 := UInt8.toNat_ofNat'
  have e1 : byteAt (word32 n) 1 = n / 2 ^ 16 % 2 ^ 8 := UInt8.toNat_ofNat'
  have e2 : byteAt (word32 n) 2 = n / 2 ^ 8 % 2 ^ 8 := UInt8.toNat_ofNat'
  have e3 : byteAt (word32 n) 3 = n % 2 ^ 8 := UInt8.toNat_ofNat'
  unfold read32 read16
  rw [Nat.add_zero] at h0
  rw [show i + 2 + 1 = i + 3 by omega, h0, h1, h2, h3, e0, e1, e2, e3]
  omega

theorem byteAt_of_read32 (bytes : List UInt8) (i : Nat) :
    byteAt bytes i = read32 bytes i / 2 ^ 24 := by
  have h1 : byteAt bytes (i + 1) < 2 ^ 8 := UInt8.toNat_lt _
  have h2 : byteAt bytes (i + 2) < 2 ^ 8 := UInt8.toNat_lt _
  have h3 : byteAt bytes (i + 2 + 1) < 2 ^ 8 := UInt8.toNat_lt _
  unfold read32 read16
  omega

theorem read32LE_word32LE {bytes : List UInt8} {i n : Nat} (hn : n < 2 ^ 32)
    (h : slice bytes i 4 = word32LE n) : read32LE bytes i = n := by
  have hat : ∀ j < 4, byteAt bytes (i + j) = byteAt (word32LE n) j := fun j hj => by
    rw [← h, byteAt_slice bytes i hj]
  have h0 := hat 0 (by decide)
  have h1 := hat 1 (by decide)
  have h2 := hat 2 (by decide)
  have h3 := hat 3 (by decide)
  have e0 : byteAt (word32LE n) 0 = n % 2 ^ 8 := UInt8.toNat_ofNat'
  have e1 : byteAt (word32LE n) 1 = n / 2 ^ 8 % 2 ^ 8 := UInt8.toNat_ofNat'
  have e2 : byteAt (word32LE n) 2 = n / 2 ^ 16 % 2 ^ 8 := UInt8.toNat_ofNat'
  have e3 : byteAt (word32LE n) 3 = n / 2 ^ 24 % 2 ^ 8 := UInt8.toNat_ofNat'
  unfold read32LE
  rw [Nat.add_zero] at h0
  rw [h0, h1, h2, h3, e0, e1, e2, e3]
  omega

theorem read64LE_word64LE {bytes : List UInt8} {i n : Nat} (hn : n < 2 ^ 64)
    (h : slice bytes i 8 = word64LE n) : read64LE bytes i = n := by
  have hlow : slice bytes i 4 = word32LE (n % 2 ^ 32) := by
    have hs := slice_slice bytes i (j := 0) (n := 4) (m := 8) (by decide)
    rw [h] at hs
    rw [← Nat.add_zero i, ← hs]
    show word32LE n = _
    unfold word32LE
    simp only [List.cons.injEq, ← UInt8.toNat_inj, UInt8.toNat_ofNat', and_true]
    omega
  have hhigh : slice bytes (i + 4) 4 = word32LE (n / 2 ^ 32) := by
    have hs := slice_slice bytes i (j := 4) (n := 4) (m := 8) (by decide)
    rw [h] at hs
    rw [← hs]
    rfl
  unfold read64LE
  rw [read32LE_word32LE (Nat.mod_lt _ (by decide)) hlow, read32LE_word32LE (by omega) hhigh]
  omega

/-! ## decompressors -/

/-- `Compression`; a file may name a method by a number that is none of them -/
inductive Compression where
  | none | purge | bzip2 | lzma | lzma2 | zstd | zlib
  | other (number : Nat)
  deriving DecidableEq

def Compression.ofNumber : Nat → Compression
  | 0 => .none
  | 1 => .purge
  | 2 => .bzip2
  | 3 => .lzma
  | 4 => .lzma2
  | 5 => .zstd
  | 100 => .zlib
  | n => .other n

/-- what a call of `inflate` wrote from the start of its buffer, and the number it returned -/
structure Inflated where
  bytes : List UInt8
  written : Nat

/-- `Decompressor::inflate`, from the method, the input and the room there is; it may be null -/
abbrev Decompressor := Option (Compression → List UInt8 → Nat → Inflated)

end DolTranslator.Disc
