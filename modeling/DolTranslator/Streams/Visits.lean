import Mathlib.Data.List.Basic
import Mathlib.Logic.Relation

/-!
# A walk over items of their own lengths

The items lie one behind the other; an item says where the one behind it starts, or that it is the
last one.

* `Follows`   an item starts right behind another one;
* `visits`   the places below the size where a walk from a place finds an item, in order;
* `mem_visits`   these are the places that the items lead to;
* `visits_next`, `visits_of_le`   a walk, item by item.
-/

namespace Streams

/-- the item at `place` is followed by one at `place'` -/
def Follows (next : Nat → Option Nat) (place place' : Nat) : Prop := next place = some place'

/-- the places where a walk from `place` finds an item: it ends behind the last item, and at the size -/
def visits (next : Nat → Option Nat) (size : Nat) : Nat → Nat → List Nat
  | 0, _ => []
  | fuel + 1, place =>
    if place < size then
      place :: match next place with
        | none => []
        | some place' => visits next size fuel place'
    else []

variable {next : Nat → Option Nat} {size fuel place place' : Nat}

theorem visits_of_le (h : size ≤ place) : visits next size fuel place = [] := by
  cases fuel with
  | zero => rfl
  | succ fuel => exact if_neg (Nat.not_lt.mpr h)

theorem visits_last (h : place < size) (hnext : next place = none) :
    visits next size (fuel + 1) place = [place] := by
  unfold visits
  rw [if_pos h, hnext]

theorem visits_next (h : place < size) (hnext : next place = some place') :
    visits next size (fuel + 1) place = place :: visits next size fuel place' := by
  show (if place < size then place :: (match next place with
    | none => []
    | some place' => visits next size fuel place') else []) = _
  rw [if_pos h, hnext]

theorem lt_of_mem_visits {p : Nat} (h : p ∈ visits next size fuel place) : p < size := by
  induction fuel generalizing place with
  | zero => cases h
  | succ fuel ih =>
    by_cases hlt : place < size
    · cases hnext : next place with
      | none =>
        rw [visits_last hlt hnext, List.mem_singleton] at h
        rw [h]
        exact hlt
      | some place' =>
        rw [visits_next hlt hnext] at h
        rcases List.mem_cons.mp h with rfl | h
        · exact hlt
        · exact ih h
    · rw [visits_of_le (Nat.not_lt.mp hlt)] at h
      cases h

/-- every item is behind the one that it follows -/
def Ascends (next : Nat → Option Nat) : Prop := ∀ place place', next place = some place' → place < place'

theorem Ascends.le (hup : Ascends next) (h : Relation.ReflTransGen (Follows next) place place') :
    place ≤ place' := by
  induction h with
  | refl => exact Nat.le_refl _
  | tail _ hstep ih => exact Nat.le_trans ih (Nat.le_of_lt (hup _ _ hstep))

theorem mem_visits (hup : Ascends next) (hfuel : size ≤ place + fuel) {p : Nat} :
    p ∈ visits next size fuel place ↔ p < size ∧ Relation.ReflTransGen (Follows next) place p := by
  constructor
  · intro h
    refine ⟨lt_of_mem_visits h, ?_⟩
    clear hfuel
    induction fuel generalizing place with
    | zero => cases h
    | succ fuel ih =>
      by_cases hlt : place < size
      · cases hnext : next place with
        | none =>
          rw [visits_last hlt hnext, List.mem_singleton] at h
          rw [h]
        | some place' =>
          rw [visits_next hlt hnext] at h
          rcases List.mem_cons.mp h with rfl | h
          · exact .refl
          · exact .head hnext (ih h)
      · rw [visits_of_le (Nat.not_lt.mp hlt)] at h
        cases h
  · rintro ⟨hp, h⟩
    induction fuel generalizing place with
    | zero => exact absurd (hup.le h) (by omega)
    | succ fuel ih =>
      have hlt : place < size := Nat.lt_of_le_of_lt (hup.le h) hp
      rcases Relation.ReflTransGen.cases_head h with rfl | ⟨place', hnext, hrest⟩
      · cases hnext : next place with
        | none =>
          rw [visits_last hlt hnext]
          exact List.mem_singleton_self _
        | some place' =>
          rw [visits_next hlt hnext]
          exact List.mem_cons_self
      · have hup' := hup _ _ hnext
        rw [visits_next hlt hnext]
        exact List.mem_cons_of_mem _ (ih (by omega) hrest)

end Streams
