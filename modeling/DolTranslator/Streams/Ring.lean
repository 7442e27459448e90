import Mathlib.Data.List.Range
import Mathlib.Data.Nat.ModEq
import Mathlib.Logic.Function.Basic

/-!
# Ring buffers

`ring f n first used`: what the slots of a ring of `n` hold, from slot `first` on.

* `ring_pushBack`, `ring_pushFront`   one slot more at either end;
* `ring_popFront`   the first slot and what is left after it.
-/

namespace Streams

open Function

variable {α : Type*} {f : Nat → α} {n first used : Nat} {x : α}

def ring (f : Nat → α) (n first used : Nat) : List α :=
  (List.range used).map fun i => f ((first + i) % n)

@[simp] theorem ring_zero : ring f n first 0 = [] := rfl

@[simp] theorem length_ring : (ring f n first used).length = used := by
  unfold ring
  rw [List.length_map, List.length_range]

/-- only the slots that are in use matter -/
theorem ring_congr {g : Nat → α} (h : ∀ i < used, f ((first + i) % n) = g ((first + i) % n)) :
    ring f n first used = ring g n first used :=
  List.map_congr_left fun i hi => h i (List.mem_range.mp hi)

theorem ring_popFront (hfirst : first < n) :
    ring f n first (used + 1) = f first :: ring f n ((first + 1) % n) used := by
  unfold ring
  rw [List.range_succ_eq_map, List.map_cons, List.map_map, Nat.add_zero, Nat.mod_eq_of_lt hfirst]
  congr 1
  refine List.map_congr_left fun i _ => ?_
  show f ((first + (i + 1)) % n) = f (((first + 1) % n + i) % n)
  rw [Nat.mod_add_mod]
  congr 2
  omega

theorem slot_ne (first n : Nat) {i j : Nat} (hij : i < j) (hj : j < i + n) :
    (first + i) % n ≠ (first + j) % n := by
  intro h
  have hmod : first + i ≡ first + j [MOD n] := h
  have hdvd : n ∣ first + j - (first + i) := (Nat.modEq_iff_dvd' (by omega)).mp hmod
  have hle := Nat.le_of_dvd (by omega) hdvd
  omega

theorem ring_pushBack (hused : used < n) :
    ring (update f ((first + used) % n) x) n first (used + 1) = ring f n first used ++ [x] := by
  unfold ring
  rw [List.range_succ, List.map_append]
  congr 1
  · refine List.map_congr_left fun i hi => ?_
    have hi' := List.mem_range.mp hi
    exact update_of_ne (slot_ne first n hi' (by omega)) x f
  · show [update f ((first + used) % n) x ((first + used) % n)] = [x]
    rw [update_self]

theorem ring_pushFront {first' : Nat} (hused : used < n) (hfirst' : first' < n)
    (hnext : (first' + 1) % n = first) :
    ring (update f first' x) n first' (used + 1) = x :: ring f n first used := by
  rw [ring_popFront hfirst', hnext, update_self]
  congr 1
  refine ring_congr fun i hi => update_of_ne ?_ x f
  rw [← hnext, Nat.mod_add_mod]
  intro h
  have hne := slot_ne first' n (show 0 < i + 1 by omega) (by omega)
  rw [Nat.add_zero, Nat.mod_eq_of_lt hfirst'] at hne
  refine hne ?_
  rw [← h]
  congr 1
  omega

end Streams
