import Mathlib.Data.List.Range
import Mathlib.Data.List.TakeDrop
import Mathlib.Data.BitVec

/-!
# Slices, and records back to back

* `slice`   the values of a list in a range of positions;
* `records`   records one after another;
* `slice_records`   each record is where those before it end.
-/

namespace Streams

variable {β : Type} {xs ys : List β} {record : Nat → List β} {i j k m n offset : Nat}

/-! ## slices -/

def slice (xs : List β) (offset n : Nat) : List β := (xs.drop offset).take n

theorem length_slice (h : offset + n ≤ xs.length) : (slice xs offset n).length = n := by
  unfold slice
  rw [List.length_take, List.length_drop]
  omega

theorem slice_append_left (h : offset + n ≤ xs.length) :
    slice (xs ++ ys) offset n = slice xs offset n := by
  unfold slice
  rw [List.drop_append_of_le_length (by omega), List.take_append_of_le_length]
  rw [List.length_drop]
  omega

theorem slice_append_right (xs ys : List β) (offset n : Nat) :
    slice (xs ++ ys) (xs.length + offset) n = slice ys offset n := by
  unfold slice
  rw [List.drop_append, List.drop_of_length_le (by omega), List.nil_append, Nat.add_sub_cancel_left]

theorem slice_prefix (xs ys : List β) : slice (xs ++ ys) 0 xs.length = xs := by
  unfold slice
  rw [List.drop_zero, List.take_left]

theorem slice_middle (xs ys zs : List β) : slice (xs ++ ys ++ zs) xs.length ys.length = ys := by
  have h := slice_append_right xs (ys ++ zs) 0 ys.length
  rw [Nat.add_zero, slice_prefix, ← List.append_assoc] at h
  exact h

theorem slice_slice (xs : List β) (i : Nat) (h : j + n ≤ m) : slice (slice xs i m) j n = slice xs (i + j) n := by
  unfold slice
  rw [List.drop_take, List.take_take, List.drop_drop, Nat.min_eq_left (by omega)]

theorem getD_slice (b : β) (h : j < n) : (slice xs i n).getD j b = xs.getD (i + j) b := by
  unfold slice
  rw [List.getD_eq_getElem?_getD, List.getD_eq_getElem?_getD, List.getElem?_take_of_lt h,
    List.getElem?_drop]

theorem slice_flatMap {α : Type} {xs : List α} {f : α → List β}
    (h : ∀ x ∈ xs, (f x).length = k) (hi : i < xs.length) :
    slice (xs.flatMap f) (i * k) k = f xs[i] := by
  induction xs generalizing i with
  | nil => cases hi
  | cons x xs ih =>
    have hx := h x List.mem_cons_self
    rw [List.flatMap_cons]
    cases i with
    | zero =>
      have hfirst := slice_prefix (f x) (xs.flatMap f)
      rwa [hx, ← Nat.zero_mul k] at hfirst
    | succ i =>
      have hrest := slice_append_right (f x) (xs.flatMap f) (i * k) k
      rw [hx] at hrest
      rw [Nat.succ_mul, Nat.add_comm, hrest]
      exact ih (fun y hy => h y (List.mem_cons_of_mem _ hy)) (Nat.lt_of_succ_lt_succ hi)

/-! ## records -/

def records (record : Nat → List β) (n : Nat) : List β := (List.range n).flatMap record

def start (record : Nat → List β) (i : Nat) : Nat := (records record i).length

@[simp] theorem records_zero : records record 0 = [] := rfl

theorem records_succ (record : Nat → List β) (n : Nat) :
    records record (n + 1) = records record n ++ record n := by
  unfold records
  rw [List.range_succ, List.flatMap_append, List.flatMap_singleton]

theorem start_succ (record : Nat → List β) (i : Nat) :
    start record (i + 1) = start record i + (record i).length := by
  unfold start
  rw [records_succ, List.length_append]

theorem start_const (h : ∀ i, (record i).length = k) (i : Nat) : start record i = i * k := by
  induction i with
  | zero => rw [Nat.zero_mul]; rfl
  | succ i ih => rw [start_succ, ih, h, Nat.succ_mul]

theorem length_records (h : ∀ i, (record i).length = k) (n : Nat) :
    (records record n).length = n * k := start_const h n

theorem exists_records_append (record : Nat → List β) (h : i ≤ n) :
    ∃ rest, records record n = records record i ++ rest := by
  induction n with
  | zero =>
    obtain rfl : i = 0 := by omega
    exact ⟨[], rfl⟩
  | succ n ih =>
    rcases Nat.lt_or_ge n i with hlt | hge
    · obtain rfl : i = n + 1 := by omega
      exact ⟨[], (List.append_nil _).symm⟩
    · obtain ⟨rest, hrest⟩ := ih hge
      refine ⟨rest ++ record n, ?_⟩
      rw [records_succ, hrest, List.append_assoc]

theorem records_inj {record' : Nat → List β} (hlength : ∀ i < n, (record i).length = (record' i).length)
    (h : records record n = records record' n) : ∀ i < n, record i = record' i := by
  induction n with
  | zero => exact fun i hi => absurd hi (Nat.not_lt_zero i)
  | succ n ih =>
    rw [records_succ, records_succ] at h
    obtain ⟨hinit, hlast⟩ := List.append_inj' h (hlength n (Nat.lt_succ_self n))
    intro i hi
    rcases Nat.lt_succ_iff_lt_or_eq.mp hi with hlt | rfl
    · exact ih (fun j hj => hlength j (Nat.lt_succ_of_lt hj)) hinit i hlt
    · exact hlast

theorem start_le (h : i ≤ n) : start record i ≤ (records record n).length := by
  obtain ⟨rest, hrest⟩ := exists_records_append record h
  rw [hrest, List.length_append]
  exact Nat.le_add_right _ _

theorem exists_drop_records (record : Nat → List β) (h : i < n) :
    ∃ rest, (records record n).drop (start record i) = record i ++ rest := by
  obtain ⟨rest, hrest⟩ := exists_records_append record (Nat.succ_le_of_lt h)
  refine ⟨rest, ?_⟩
  rw [hrest, records_succ, List.append_assoc]
  exact List.drop_left

theorem slice_records (record : Nat → List β) (h : i < n) :
    slice (records record n) (start record i) (record i).length = record i := by
  obtain ⟨rest, hrest⟩ := exists_records_append record (Nat.succ_le_of_lt h)
  rw [hrest, records_succ]
  exact slice_middle _ _ _

end Streams

/-!
## Fields packed into one number

* `or_shiftLeft_lt`    a field above another stays within the widths of both;
* `or_shiftLeft_inj`   the packed number says what both fields are.
-/

namespace Streams

variable {a a' b b' m n : Nat}

theorem or_shiftLeft_eq (ha : a < 2 ^ n) (b : Nat) : a ||| b <<< n = 2 ^ n * b + a := by
  rw [Nat.or_comm, ← Nat.shiftLeft_add_eq_or_of_lt ha, Nat.shiftLeft_eq, Nat.mul_comm]

theorem or_shiftLeft_lt (ha : a < 2 ^ n) (hb : b < 2 ^ m) : a ||| b <<< n < 2 ^ (n + m) := by
  rw [or_shiftLeft_eq ha, Nat.pow_add]
  calc 2 ^ n * b + a < 2 ^ n * b + 2 ^ n := Nat.add_lt_add_left ha _
    _ = 2 ^ n * (b + 1) := (Nat.mul_succ _ _).symm
    _ ≤ 2 ^ n * 2 ^ m := Nat.mul_le_mul_left _ hb

theorem or_shiftLeft_inj (ha : a < 2 ^ n) (ha' : a' < 2 ^ n)
    (h : a ||| b <<< n = a' ||| b' <<< n) : a = a' ∧ b = b' := by
  have hpos : 0 < 2 ^ n := Nat.two_pow_pos n
  rw [or_shiftLeft_eq ha, or_shiftLeft_eq ha'] at h
  constructor
  · have hmod := congrArg (· % 2 ^ n) h
    rwa [Nat.mul_add_mod, Nat.mul_add_mod, Nat.mod_eq_of_lt ha, Nat.mod_eq_of_lt ha'] at hmod
  · have hdiv := congrArg (· / 2 ^ n) h
    rwa [Nat.mul_add_div hpos, Nat.mul_add_div hpos, Nat.div_eq_of_lt ha, Nat.div_eq_of_lt ha'] at hdiv

end Streams
