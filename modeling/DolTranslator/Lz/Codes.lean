import Mathlib.Data.List.Basic
import Mathlib.Tactic.Ring
import Mathlib.Algebra.Order.Ring.Nat

/-!
# Prefix codes

A code is a binary tree with a symbol at each leaf: the path to a leaf spells its symbol.

* `spell`   the tree itself, as a walk;
* `Path`   the bits of a symbol;
* `bitsOf`, `ofBits`   a number in so many bits, the high one first.
-/

namespace Lz

/-! ## numbers -/

def bitsOf : Nat → Nat → List Bool
  | 0, _ => []
  | n + 1, v => decide (v / 2 ^ n % 2 = 1) :: bitsOf n v

def ofBits (bits : List Bool) : Nat := bits.foldl (fun v bit => 2 * v + bit.toNat) 0

@[simp] theorem length_bitsOf (n v : Nat) : (bitsOf n v).length = n := by
  induction n with
  | zero => rfl
  | succ n ih => exact congrArg (· + 1) ih

theorem foldl_bits (bits : List Bool) (v : Nat) :
    bits.foldl (fun v bit => 2 * v + bit.toNat) v = v * 2 ^ bits.length + ofBits bits := by
  unfold ofBits
  induction bits generalizing v with
  | nil => simp
  | cons bit bits ih =>
    rw [List.foldl_cons, ih, List.foldl_cons, ih (2 * 0 + bit.toNat), List.length_cons, pow_succ]
    ring

theorem ofBits_cons (bit : Bool) (bits : List Bool) :
    ofBits (bit :: bits) = bit.toNat * 2 ^ bits.length + ofBits bits := by
  refine (foldl_bits bits (2 * 0 + bit.toNat)).trans ?_
  rw [Nat.mul_zero, Nat.zero_add]

theorem ofBits_lt (bits : List Bool) : ofBits bits < 2 ^ bits.length := by
  induction bits with
  | nil => decide
  | cons bit bits ih =>
    rw [ofBits_cons, List.length_cons, pow_succ]
    cases bit with
    | false => rw [Bool.toNat_false]; omega
    | true => rw [Bool.toNat_true]; omega

theorem ofBits_bitsOf (n v : Nat) : ofBits (bitsOf n v) = v % 2 ^ n := by
  induction n with
  | zero => rw [pow_zero, Nat.mod_one]; rfl
  | succ n ih =>
    rw [bitsOf, ofBits_cons, ih, length_bitsOf, pow_succ, Nat.mod_mul]
    rcases Nat.mod_two_eq_zero_or_one (v / 2 ^ n) with h | h
    · rw [h]
      simp
    · rw [h]
      simp [Nat.add_comm]

theorem bitsOf_ofBits (bits : List Bool) : bitsOf bits.length (ofBits bits) = bits := by
  have hgo (bits : List Bool) (k : Nat) :
      bitsOf bits.length (k * 2 ^ bits.length + ofBits bits) = bits := by
    induction bits generalizing k with
    | nil => rfl
    | cons bit bits ih =>
      have hlt := ofBits_lt bits
      have hv : k * 2 ^ (bit :: bits).length + ofBits (bit :: bits) =
          (2 * k + bit.toNat) * 2 ^ bits.length + ofBits bits := by
        rw [ofBits_cons, List.length_cons, pow_succ]
        ring
      rw [hv]
      show decide (_ / 2 ^ bits.length % 2 = 1) :: bitsOf bits.length _ = _
      rw [ih, Nat.mul_comm, Nat.mul_add_div (Nat.two_pow_pos _), Nat.div_eq_of_lt hlt]
      congr 1
      cases bit with
      | false =>
        rw [Bool.toNat_false]
        exact decide_eq_false (by omega)
      | true =>
        rw [Bool.toNat_true]
        exact decide_eq_true (by omega)
  have h := hgo bits 0
  rwa [Nat.zero_mul, Nat.zero_add] at h

/-! ## codes -/

inductive Code where
  | leaf (symbol : Nat)
  | node (zero one : Code)
  deriving DecidableEq

namespace Code

def branches : Code → Nat
  | leaf _ => 0
  | node zero one => zero.branches + one.branches + 1

def symbols : Code → List Nat
  | leaf symbol => [symbol]
  | node zero one => zero.symbols ++ one.symbols

/-- a walk over the tree: a one for a branch, a zero and then the symbol for a leaf -/
def spell (width : Nat) : Code → List Bool
  | leaf symbol => false :: bitsOf width symbol
  | node zero one => true :: (zero.spell width ++ one.spell width)

theorem length_symbols (c : Code) : c.symbols.length = c.branches + 1 := by
  induction c with
  | leaf => rfl
  | node zero one ihz iho =>
    show (zero.symbols ++ one.symbols).length = zero.branches + one.branches + 1 + 1
    rw [List.length_append, ihz, iho]
    omega

/-- **A walk can be told from what follows it.** -/
theorem spell_inj {width : Nat} {c c' : Code} {rest rest' : List Bool}
    (hc : ∀ s ∈ c.symbols, s < 2 ^ width) (hc' : ∀ s ∈ c'.symbols, s < 2 ^ width)
    (h : c.spell width ++ rest = c'.spell width ++ rest') : c = c' ∧ rest = rest' := by
  induction c generalizing c' rest rest' with
  | leaf s =>
    cases c' with
    | leaf s' =>
      obtain ⟨hs, hrest⟩ := List.append_inj (List.cons.inj h).2
        ((length_bitsOf width s).trans (length_bitsOf width s').symm)
      have hv := congrArg ofBits hs
      rw [ofBits_bitsOf, ofBits_bitsOf, Nat.mod_eq_of_lt (hc s (List.mem_singleton_self s)),
        Nat.mod_eq_of_lt (hc' s' (List.mem_singleton_self s'))] at hv
      exact ⟨congrArg leaf hv, hrest⟩
    | node => cases (List.cons.inj h).1
  | node zero one ihz iho =>
    cases c' with
    | leaf => cases (List.cons.inj h).1
    | node zero' one' =>
      have hbits := (List.cons.inj h).2
      change (zero.spell width ++ one.spell width) ++ rest =
        (zero'.spell width ++ one'.spell width) ++ rest' at hbits
      rw [List.append_assoc, List.append_assoc] at hbits
      obtain ⟨rfl, hone⟩ := ihz (fun s hs => hc s (List.mem_append_left _ hs))
        (fun s hs => hc' s (List.mem_append_left _ hs)) hbits
      obtain ⟨rfl, hrest⟩ := iho (fun s hs => hc s (List.mem_append_right _ hs))
        (fun s hs => hc' s (List.mem_append_right _ hs)) hone
      exact ⟨rfl, hrest⟩

/-- the bits that lead to a symbol -/
inductive Path : Code → Nat → List Bool → Prop
  | leaf (s : Nat) : Path (leaf s) s []
  | zero {zero one : Code} {s : Nat} {bits : List Bool} (h : Path zero s bits) :
      Path (node zero one) s (false :: bits)
  | one {zero one : Code} {s : Nat} {bits : List Bool} (h : Path one s bits) :
      Path (node zero one) s (true :: bits)

theorem Path.length_le {c : Code} {s : Nat} {bits : List Bool} (h : c.Path s bits) :
    bits.length ≤ c.branches := by
  induction h with
  | leaf => exact Nat.le_refl 0
  | zero _ ih =>
    show _ + 1 ≤ _ + _ + 1
    omega
  | one _ ih =>
    show _ + 1 ≤ _ + _ + 1
    omega

theorem Path.mem {c : Code} {s : Nat} {bits : List Bool} (h : c.Path s bits) : s ∈ c.symbols := by
  induction h with
  | leaf s => exact List.mem_singleton_self s
  | zero _ ih => exact List.mem_append_left _ ih
  | one _ ih => exact List.mem_append_right _ ih

end Code

end Lz

/-!
## Canonical codes

The codes of symbols whose lengths rise: each is the one before it plus one, moved up where the
length grows.

* `codesFrom`, `sizesFrom`   the codes of a list of lengths, given how many there are of each;
* `firstCode`, `firstIndex`  the first code of a length, and its place;
  `codesFrom_eq`   all the codes of a length follow its first one;
* `prefix_ge`      a code is past every shorter one;
* `code_lt`        where the lengths satisfy Kraft's inequality, a code fits into its length.
-/

namespace Lz

theorem bitsOf_eq_map (n v : Nat) :
    bitsOf n v = (List.range n).map fun i => v.testBit (n - 1 - i) := by
  induction n with
  | zero => rfl
  | succ n ih =>
    rw [bitsOf, ih, List.range_succ_eq_map, List.map_cons, List.map_map]
    congr 1
    · rw [Nat.testBit_eq_decide_div_mod_eq]
      simp
    · apply List.map_congr_left
      intro i hi
      show _ = v.testBit (n + 1 - 1 - (i + 1))
      rw [show n + 1 - 1 - (i + 1) = n - 1 - i by omega]

theorem ofBits_append (xs ys : List Bool) :
    ofBits (xs ++ ys) = ofBits xs * 2 ^ ys.length + ofBits ys := by
  unfold ofBits
  rw [List.foldl_append, foldl_bits]
  rfl

theorem ofBits_append_div (xs ys : List Bool) : ofBits (xs ++ ys) / 2 ^ ys.length = ofBits xs := by
  rw [ofBits_append, Nat.mul_comm, Nat.mul_add_div (Nat.two_pow_pos _),
    Nat.div_eq_of_lt (ofBits_lt ys), Nat.add_zero]

/-! ## the codes of some lengths -/

def codesFrom : Nat → Nat → List Nat → List (Nat × Nat)
  | _, _, [] => []
  | code, size, next :: sizes =>
    (next, code * 2 ^ (next - size)) :: codesFrom (code * 2 ^ (next - size) + 1) next sizes

variable (counts : Nat → Nat)

/-- so many lengths from one on, each as often as there are symbols of it -/
def sizesFrom : Nat → Nat → List Nat
  | _, 0 => []
  | len, n + 1 => List.replicate (counts len) len ++ sizesFrom (len + 1) n

/-- **the canonical code** of symbols of the lengths 1 to 16: their lengths and codes in order -/
def canonicalCodes : List (Nat × Nat) := codesFrom 0 1 (sizesFrom counts 1 16)

def firstCode : Nat → Nat
  | 0 => 0
  | 1 => 0
  | len + 2 => 2 * (firstCode (len + 1) + counts (len + 1))

def firstIndex : Nat → Nat
  | 0 => 0
  | 1 => 0
  | len + 2 => firstIndex (len + 1) + counts (len + 1)

theorem firstCode_succ {len : Nat} (h : 1 ≤ len) :
    firstCode counts (len + 1) = 2 * (firstCode counts len + counts len) := by
  obtain ⟨n, rfl⟩ := Nat.exists_eq_add_of_le' h
  rfl

theorem firstIndex_succ {len : Nat} (h : 1 ≤ len) :
    firstIndex counts (len + 1) = firstIndex counts len + counts len := by
  obtain ⟨n, rfl⟩ := Nat.exists_eq_add_of_le' h
  rfl

def codesOf (len : Nat) : List (Nat × Nat) :=
  (List.range (counts len)).map fun j => (len, firstCode counts len + j)

def codesOfFrom : Nat → Nat → List (Nat × Nat)
  | _, 0 => []
  | len, n + 1 => codesOf counts len ++ codesOfFrom (len + 1) n

variable {counts}

theorem codesFrom_replicate (len m code : Nat) (rest : List Nat) :
    codesFrom code len (List.replicate m len ++ rest) =
      ((List.range m).map fun j => (len, code + j)) ++ codesFrom (code + m) len rest := by
  induction m generalizing code with
  | zero => rfl
  | succ m ih =>
    rw [List.replicate_succ, List.cons_append, codesFrom, Nat.sub_self, pow_zero, Nat.mul_one, ih,
      List.range_succ_eq_map, List.map_cons, List.map_map, List.cons_append]
    have hshift : ((fun j => (len, code + 1 + j)) : Nat → Nat × Nat) =
        (fun j => (len, code + j)) ∘ Nat.succ := by
      funext j
      show (len, code + 1 + j) = (len, code + (j + 1))
      rw [Nat.add_assoc, Nat.add_comm 1 j]
    rw [hshift, Nat.add_assoc, Nat.add_comm 1 m]
    rfl

/-- only the next code at its own size matters -/
theorem codesFrom_size {code size len : Nat} (hsize : size ≤ len) {sizes : List Nat}
    (h : ∀ s ∈ sizes.head?, len ≤ s) :
    codesFrom code size sizes = codesFrom (code * 2 ^ (len - size)) len sizes := by
  cases sizes with
  | nil => rfl
  | cons next sizes =>
    have hle : len ≤ next := h next rfl
    rw [codesFrom, codesFrom, Nat.mul_assoc, ← pow_add,
      show len - size + (next - len) = next - size by omega]

theorem mem_sizesFrom {len n s : Nat} (h : s ∈ sizesFrom counts len n) : len ≤ s := by
  induction n generalizing len with
  | zero => cases h
  | succ n ih =>
    rcases List.mem_append.mp h with h | h
    · exact (List.eq_of_mem_replicate h).ge
    · exact (Nat.le_succ len).trans (ih h)

/-- **All the codes of a length follow its first one.** -/
theorem codesFrom_eq {len : Nat} (hlen : 1 ≤ len) (n : Nat) :
    codesFrom (firstCode counts len) len (sizesFrom counts len n) = codesOfFrom counts len n := by
  induction n generalizing len with
  | zero => rfl
  | succ n ih =>
    have hnext : codesFrom (firstCode counts len + counts len) len (sizesFrom counts (len + 1) n) =
        codesFrom (firstCode counts (len + 1)) (len + 1) (sizesFrom counts (len + 1) n) := by
      rw [codesFrom_size (Nat.le_succ len) fun s hs => mem_sizesFrom (List.mem_of_mem_head? hs),
        show len.succ - len = 1 by omega, pow_one, Nat.mul_comm, firstCode_succ counts hlen]
    show codesFrom _ len (List.replicate (counts len) len ++ sizesFrom counts (len + 1) n) =
      codesOf counts len ++ codesOfFrom counts (len + 1) n
    rw [codesFrom_replicate, hnext, ih (Nat.le_add_left 1 len)]
    rfl

theorem canonicalCodes_eq : canonicalCodes counts = codesOfFrom counts 1 16 :=
  codesFrom_eq (Nat.le_refl 1) 16

theorem length_codesOf (len : Nat) : (codesOf counts len).length = counts len := by
  unfold codesOf
  rw [List.length_map, List.length_range]

theorem getElem?_codesOfFrom {len n k : Nat} (hlen : 1 ≤ len) {entry : Nat × Nat}
    (h : (codesOfFrom counts len n)[k]? = some entry) :
    len ≤ entry.1 ∧ entry.1 < len + n ∧ ∃ j < counts entry.1,
      entry.2 = firstCode counts entry.1 + j ∧
        firstIndex counts len + k = firstIndex counts entry.1 + j := by
  induction n generalizing len k with
  | zero => cases h
  | succ n ih =>
    have h' : (codesOf counts len ++ codesOfFrom counts (len + 1) n)[k]? = some entry := h
    rcases Nat.lt_or_ge k (counts len) with hk | hk
    · rw [List.getElem?_append_left (by rw [length_codesOf]; exact hk)] at h'
      unfold codesOf at h'
      rw [List.getElem?_map, List.getElem?_range hk] at h'
      obtain rfl := Option.some.inj h'
      refine ⟨Nat.le_refl len, ?_, k, hk, rfl, rfl⟩
      show len < len + (n + 1)
      omega
    · rw [List.getElem?_append_right (by rw [length_codesOf]; exact hk), length_codesOf] at h'
      obtain ⟨hle, hlt, j, hj, hcode, hplace⟩ := ih (Nat.le_add_left 1 len) h'
      refine ⟨by omega, by omega, j, hj, hcode, ?_⟩
      rw [firstIndex_succ counts hlen] at hplace
      omega

theorem firstCode_ge {len : Nat} (hlen : 1 ≤ len) (n : Nat) :
    (firstCode counts len + counts len) * 2 ^ (n + 1) ≤ firstCode counts (len + n + 1) := by
  induction n with
  | zero =>
    rw [Nat.zero_add, pow_one, Nat.add_zero, firstCode_succ counts hlen]
    omega
  | succ n ih =>
    rw [firstCode_succ counts (by omega : 1 ≤ len + (n + 1)), pow_succ, ← Nat.mul_assoc]
    have hstep : len + (n + 1) = len + n + 1 := rfl
    rw [hstep]
    omega

/-- **A code is past every shorter one.** -/
theorem prefix_ge {len len' code : Nat} (hlen : 1 ≤ len) (hlt : len < len')
    (hcode : firstCode counts len' ≤ code) :
    firstCode counts len + counts len ≤ code / 2 ^ (len' - len) := by
  have hge := @firstCode_ge counts len hlen (len' - len - 1)
  rw [show len + (len' - len - 1) + 1 = len' by omega,
    show len' - len - 1 + 1 = len' - len by omega] at hge
  exact (Nat.le_div_iff_mul_le (Nat.two_pow_pos _)).mpr (hge.trans hcode)

/-! ## Kraft's inequality -/

variable (counts)

/-- the part of the codes of the first lengths, in codes of 16 bits -/
def kraftSum (n : Nat) : Nat :=
  ((List.range n).map fun i => counts (i + 1) * 2 ^ (16 - (i + 1))).sum

def Kraft : Prop := kraftSum counts 16 ≤ 2 ^ 16

instance : Decidable (Kraft counts) := inferInstanceAs (Decidable (_ ≤ _))

variable {counts}

theorem kraftSum_succ (n : Nat) :
    kraftSum counts (n + 1) = kraftSum counts n + counts (n + 1) * 2 ^ (16 - (n + 1)) := by
  unfold kraftSum
  rw [List.range_succ, List.map_append, List.sum_append]
  simp

theorem kraftSum_mono {n m : Nat} (h : n ≤ m) : kraftSum counts n ≤ kraftSum counts m := by
  induction m, h using Nat.le_induction with
  | base => exact Nat.le_refl _
  | succ m _ ih =>
    rw [kraftSum_succ]
    omega

theorem firstCode_kraft {n : Nat} (h : n < 16) :
    firstCode counts (n + 1) * 2 ^ (16 - (n + 1)) = kraftSum counts n := by
  induction n with
  | zero =>
    show 0 * _ = 0
    exact Nat.zero_mul _
  | succ n ih =>
    have hrest := ih (by omega)
    have hpow : 2 ^ (16 - (n + 1)) = 2 * 2 ^ (16 - (n + 1 + 1)) := by
      rw [← pow_succ', show 16 - (n + 1 + 1) + 1 = 16 - (n + 1) by omega]
    rw [firstCode_succ counts (Nat.le_add_left 1 n), kraftSum_succ, ← hrest, ← Nat.add_mul, hpow,
      Nat.mul_comm 2, Nat.mul_assoc]

theorem firstCode_add_le (h : Kraft counts) {len : Nat} (hlen : 1 ≤ len) (hle : len ≤ 16) :
    firstCode counts len + counts len ≤ 2 ^ len := by
  obtain ⟨n, rfl⟩ := Nat.exists_eq_add_of_le' hlen
  have hsum : (firstCode counts (n + 1) + counts (n + 1)) * 2 ^ (16 - (n + 1)) =
      kraftSum counts (n + 1) := by
    rw [Nat.add_mul, firstCode_kraft (by omega), kraftSum_succ]
  have hpow : 2 ^ 16 = 2 ^ (n + 1) * 2 ^ (16 - (n + 1)) := by
    rw [← pow_add, show n + 1 + (16 - (n + 1)) = 16 by omega]
  have hle16 : kraftSum counts (n + 1) ≤ 2 ^ 16 := (kraftSum_mono hle).trans h
  rw [← hsum, hpow] at hle16
  exact Nat.le_of_mul_le_mul_right hle16 (Nat.two_pow_pos _)

/-- **A code fits into its length.** -/
theorem code_lt (h : Kraft counts) {len j : Nat} (hlen : 1 ≤ len) (hle : len ≤ 16)
    (hj : j < counts len) : firstCode counts len + j < 2 ^ len := by
  have hall := firstCode_add_le h hlen hle
  omega

end Lz
