import Mathlib.Data.Nat.Init
import Mathlib.Logic.Function.Basic

/-!
# Lanes of a bit vector

A vector is read as lanes of `w` bits, the first one lowest.

* `lane`, `pack`   one lane, and the vector of given lanes;
* `lane_pack`, `eq_of_lanes`   each of the two undoes the other;
* `lane_lane`   lanes of lanes are lanes;
* `load`, `store`   a vector out of an array and into it, element by element;
* `repeated`, `repeated_add`, `repeated_blocks`   a loop over indices.
-/

namespace Simd

variable {n w : Nat}

def lane (w : Nat) (v : BitVec n) (i : Nat) : BitVec w := v.extractLsb' (w * i) w

/-- the vector of the first `k` of some lanes -/
def pack (n : Nat) (f : Nat → BitVec w) : Nat → BitVec n
  | 0 => 0#n
  | k + 1 => pack n f k ||| (f k).setWidth n <<< (w * k)

theorem getLsbD_lane (v : BitVec n) (i b : Nat) :
    (lane w v i).getLsbD b = (decide (b < w) && v.getLsbD (w * i + b)) :=
  BitVec.getLsbD_extractLsb' (w * i) w v b

theorem getLsbD_pack (f : Nat → BitVec w) (k i b : Nat) (hb : b < w) (hn : w * i + b < n) :
    (pack n f k).getLsbD (w * i + b) = (decide (i < k) && (f i).getLsbD b) := by
  induction k with
  | zero => simp [pack]
  | succ k ih =>
    unfold pack
    rw [BitVec.getLsbD_or, ih, BitVec.getLsbD_shiftLeft, BitVec.getLsbD_setWidth]
    rcases Nat.lt_trichotomy i k with hlt | rfl | hgt
    · have hmul : w * (i + 1) ≤ w * k := Nat.mul_le_mul_left w hlt
      rw [Nat.mul_succ] at hmul
      have hbelow : w * i + b < w * k := by omega
      simp [hlt, Nat.lt_succ_of_lt hlt, hbelow]
    · have hself : w * i + b - w * i = b := by omega
      have hroom : b < n := by omega
      simp [hn, hself, hroom]
    · have hmul : w * (k + 1) ≤ w * i := Nat.mul_le_mul_left w hgt
      rw [Nat.mul_succ] at hmul
      have hpast : w ≤ w * i + b - w * k := by omega
      have hi : ¬ i < k := by omega
      have hi' : ¬ i < k + 1 := by omega
      simp [hi, hi', BitVec.getLsbD_of_ge (f k) _ hpast]

theorem lane_pack (f : Nat → BitVec w) {k i : Nat} (hi : i < k) (hn : w * k ≤ n) :
    lane w (pack n f k) i = f i := by
  have hmul : w * (i + 1) ≤ w * k := Nat.mul_le_mul_left w hi
  rw [Nat.mul_succ] at hmul
  apply BitVec.eq_of_getLsbD_eq
  intro b hb
  rw [getLsbD_lane, getLsbD_pack f k i b hb (by omega)]
  simp [hb, hi]

theorem eq_of_lanes {k : Nat} (hn : n = w * k) {a b : BitVec n}
    (h : ∀ i, i < k → lane w a i = lane w b i) : a = b := by
  apply BitVec.eq_of_getLsbD_eq
  intro p hp
  have hw : 0 < w := by
    rcases Nat.eq_zero_or_pos w with rfl | hw
    · omega
    · exact hw
  have hdiv : p / w < k := Nat.div_lt_of_lt_mul (hn ▸ hp)
  have hmod := Nat.mod_lt p hw
  have hbit := congrArg (fun x => x.getLsbD (p % w)) (h (p / w) hdiv)
  simp only [getLsbD_lane, hmod, decide_true, Bool.true_and, Nat.div_add_mod] at hbit
  exact hbit

theorem lane_lane {m : Nat} (v : BitVec n) (j : Nat) {i : Nat} (hi : i < m) :
    lane w (lane (w * m) v j) i = lane w v (m * j + i) := by
  have hmul : w * (i + 1) ≤ w * m := Nat.mul_le_mul_left w hi
  rw [Nat.mul_succ] at hmul
  apply BitVec.eq_of_getLsbD_eq
  intro b hb
  have hinner : w * i + b < w * m := by omega
  rw [getLsbD_lane, getLsbD_lane, getLsbD_lane, Nat.mul_add, ← Nat.mul_assoc]
  simp [hb, hinner, Nat.add_assoc]

/-! ## arrays -/

/-- the `k` elements from `i` on -/
def load (n : Nat) (a : Nat → BitVec w) (i k : Nat) : BitVec n := pack n (fun j => a (i + j)) k

/-- the elements from `i` on are written over -/
def store (a : Nat → BitVec w) (i : Nat) (v : BitVec n) (k : Nat) (j : Nat) : BitVec w :=
  if i ≤ j ∧ j < i + k then lane w v (j - i) else a j

theorem lane_load (a : Nat → BitVec w) (i : Nat) {j k : Nat} (hj : j < k) (hn : w * k ≤ n) :
    lane w (load n a i k) j = a (i + j) := lane_pack (fun j => a (i + j)) hj hn

theorem store_succ (a : Nat → BitVec w) (i : Nat) (v : BitVec n) (k : Nat) :
    store a i v (k + 1) = Function.update (store a i v k) (i + k) (lane w v k) := by
  funext j
  by_cases hj : j = i + k
  · subst hj
    rw [Function.update_self]
    unfold store
    rw [if_pos (by omega), Nat.add_sub_cancel_left]
  · rw [Function.update_of_ne hj]
    unfold store
    by_cases hin : i ≤ j ∧ j < i + k
    · rw [if_pos hin, if_pos (by omega)]
    · rw [if_neg hin, if_neg (by omega)]

theorem store_zero (a : Nat → BitVec w) (i : Nat) (v : BitVec n) : store a i v 0 = a := by
  funext j
  exact if_neg (by omega)

theorem store_of_ge (a : Nat → BitVec w) (i : Nat) (v : BitVec n) {k j : Nat} (h : i + k ≤ j) :
    store a i v k j = a j := if_neg (by omega)

/-! ## loops -/

/-- a step for each of `k` indices from `i` on -/
def repeated {σ : Type} (step : Nat → σ → σ) : Nat → Nat → σ → σ
  | 0, _, s => s
  | k + 1, i, s => repeated step k (i + 1) (step i s)

theorem repeated_add {σ : Type} (step : Nat → σ → σ) (k k' i : Nat) (s : σ) :
    repeated step (k + k') i s = repeated step k' (i + k) (repeated step k i s) := by
  induction k generalizing i s with
  | zero => rw [Nat.zero_add]; rfl
  | succ k ih =>
    rw [Nat.succ_add]
    show repeated step (k + k') (i + 1) (step i s) = repeated step k' (i + (k + 1)) _
    rw [ih, Nat.add_assoc, Nat.add_comm 1 k]
    rfl

theorem repeated_succ {σ : Type} (step : Nat → σ → σ) (k i : Nat) (s : σ) :
    repeated step (k + 1) i s = step (i + k) (repeated step k i s) :=
  repeated_add step k 1 i s

theorem repeated_blocks {α : Type} {g : Nat → (Nat → α) → Nat → α} {m : Nat} {f : Nat → α}
    (hin : ∀ i a p, m * i ≤ p → p < m * i + m → g i a p = f p)
    (hout : ∀ i a p, ¬ (m * i ≤ p ∧ p < m * i + m) → g i a p = a p) (n : Nat) (a : Nat → α)
    (p : Nat) : repeated g n 0 a p = if p < m * n then f p else a p := by
  induction n with
  | zero => rfl
  | succ n ih =>
    rw [repeated_succ, Nat.zero_add, Nat.mul_succ]
    by_cases hblock : m * n ≤ p ∧ p < m * n + m
    · rw [hin n _ p hblock.1 hblock.2, if_pos hblock.2]
    · rw [hout n _ p hblock, ih]
      by_cases hp : p < m * n
      · rw [if_pos hp, if_pos (by omega)]
      · rw [if_neg hp, if_neg (by omega)]

end Simd
