import DolTranslator.Disc.Source
import DolTranslator.Lz.Tokens

/-!
# What the sliding-window readers share

* `word32_read32`  a word that was read, as bytes;
* `copyForward`   the loop of a copy, which is `copyBack`;
* `maskBits`   the flags of a group from a mask down, `packFlags` the byte that has them.
-/

namespace DolTranslator.Archive

open Disc Lz Streams

theorem byte_eq {b : UInt8} {n : Nat} (h : b.toNat = n) : b = UInt8.ofNat n := by
  rw [← h, UInt8.ofNat_toNat]

theorem word32_read32 {bytes : List UInt8} {i : Nat} (h : i + 4 ≤ bytes.length) :
    word32 (read32 bytes i) = slice bytes i 4 := by
  have hat : ∀ j < 4, byteAt bytes (i + j) = byteAt (slice bytes i 4) j := fun j hj =>
    (byteAt_slice bytes i hj).symm
  have hlen := length_slice h
  match hs : slice bytes i 4, hlen with
  | [a, b, c, d], _ =>
    rw [hs] at hat
    have h0 : byteAt bytes i = a.toNat := hat 0 (by decide)
    have h1 : byteAt bytes (i + 1) = b.toNat := hat 1 (by decide)
    have h2 : byteAt bytes (i + 2) = c.toNat := hat 2 (by decide)
    have h3 : byteAt bytes (i + 2 + 1) = d.toNat := hat 3 (by decide)
    have ha := a.toNat_lt
    have hb := b.toNat_lt
    have hc := c.toNat_lt
    have hd := d.toNat_lt
    unfold read32 read16 word32
    rw [h0, h1, h2, h3]
    simp only [List.cons.injEq, ← UInt8.toNat_inj, UInt8.toNat_ofNat', and_true]
    omega

/-- the loop of a run: one byte at a time, from a position that moves on -/
def copyForward (src : Nat) : Nat → List UInt8 → List UInt8
  | 0, out => out
  | count + 1, out => copyForward (src + 1) count (out ++ [out.getD src 0])

theorem copyForward_eq {distance : Nat} (count : Nat) {out : List UInt8}
    (h : distance ≤ out.length) :
    copyForward (out.length - distance) count out = copyBack distance count out := by
  induction count generalizing out with
  | zero => rfl
  | succ count ih =>
    have hlen : (out ++ [out.getD (out.length - distance) 0]).length = out.length + 1 := by
      rw [List.length_append, List.length_singleton]
    have hnext := @ih (out ++ [out.getD (out.length - distance) 0]) (by omega)
    rw [hlen, show out.length + 1 - distance = out.length - distance + 1 by omega] at hnext
    exact hnext

/-! ## flags -/

def maskBits (flags : Nat) : Nat → List Bool
  | 0 => []
  | k + 1 => decide (flags &&& 2 ^ k ≠ 0) :: maskBits flags k

@[simp] theorem length_maskBits (flags k : Nat) : (maskBits flags k).length = k := by
  induction k with
  | zero => rfl
  | succ k ih => exact congrArg (· + 1) ih

def packFlags (flags : List Bool) : UInt8 :=
  UInt8.ofNat ((flags ++ List.replicate (8 - flags.length) false).foldl
    (fun n flag => 2 * n + flag.toNat) 0)

theorem packFlags_eight : ∀ a b c d e f g h : Bool,
    maskBits (packFlags [a, b, c, d, e, f, g, h]).toNat 8 = [a, b, c, d, e, f, g, h] := by
  decide +kernel

theorem maskBits_packFlags {flags : List Bool} (h : flags.length ≤ 8) :
    flags <+: maskBits (packFlags flags).toNat 8 := by
  have hpad : packFlags flags = packFlags (flags ++ List.replicate (8 - flags.length) false) := by
    have hlen : (flags ++ List.replicate (8 - flags.length) false).length = 8 := by
      rw [List.length_append, List.length_replicate]
      omega
    unfold packFlags
    rw [hlen, Nat.sub_self, List.replicate_zero, List.append_nil]
  have height (fs : List Bool) (hfs : fs.length = 8) : maskBits (packFlags fs).toNat 8 = fs := by
    match fs, hfs with
    | [a, b, c, d, e, f, g, h], _ => exact packFlags_eight a b c d e f g h
  rw [hpad, height _ (by rw [List.length_append, List.length_replicate]; omega)]
  exact List.prefix_append _ _

end DolTranslator.Archive
