import Mathlib.Data.List.Induction

/-!
# The last of each key

* `LastOfKey`   a position of a list after which its key does not occur;
* `lastOfKey_concat`   one more at the end takes the place of the one with its key;
* `find?_reverse_key`   a search from the end finds it.
-/

namespace Streams

variable {α κ : Type} {key : α → κ} {xs : List α} {a x : α} {i : Nat}

/-- `x`, at `i`, is the last one of its key -/
structure LastOfKey (key : α → κ) (xs : List α) (i : Nat) (x : α) : Prop where
  get : xs[i]? = some x
  last : ∀ j y, i < j → xs[j]? = some y → key y ≠ key x

theorem getElem?_concat_eq_some :
    (xs ++ [a])[i]? = some x ↔ xs[i]? = some x ∨ i = xs.length ∧ x = a := by
  rcases Nat.lt_trichotomy i xs.length with h | h | h
  · rw [List.getElem?_append_left h]
    constructor
    · exact .inl
    · rintro (hx | ⟨rfl, -⟩)
      · exact hx
      · exact absurd h (Nat.lt_irrefl _)
  · rw [h, List.getElem?_concat_length, List.getElem?_eq_none (Nat.le_refl _)]
    constructor
    · rintro ⟨⟩
      exact .inr ⟨rfl, rfl⟩
    · rintro (hx | ⟨-, rfl⟩)
      · cases hx
      · rfl
  · rw [List.getElem?_eq_none (by rw [List.length_append, List.length_singleton]; omega),
      List.getElem?_eq_none (Nat.le_of_lt h)]
    constructor
    · intro hx
      cases hx
    · rintro (hx | ⟨rfl, -⟩)
      · cases hx
      · exact absurd h (Nat.lt_irrefl _)

theorem lastOfKey_concat :
    LastOfKey key (xs ++ [a]) i x ↔
      i = xs.length ∧ x = a ∨ LastOfKey key xs i x ∧ key x ≠ key a := by
  constructor
  · rintro ⟨hget, hlast⟩
    rcases getElem?_concat_eq_some.mp hget with h | h
    · have hlen := (List.getElem?_eq_some_iff.mp h).1
      refine .inr ⟨⟨h, fun j y hij hy => hlast j y hij (getElem?_concat_eq_some.mpr (.inl hy))⟩, ?_⟩
      exact (hlast _ a hlen List.getElem?_concat_length).symm
    · exact .inl h
  · rintro (⟨rfl, rfl⟩ | ⟨⟨hget, hlast⟩, hne⟩)
    · refine ⟨List.getElem?_concat_length, fun j y hij hy => ?_⟩
      rcases getElem?_concat_eq_some.mp hy with h | ⟨rfl, -⟩
      · exact absurd (List.getElem?_eq_some_iff.mp h).1 (Nat.lt_asymm hij)
      · exact absurd hij (Nat.lt_irrefl _)
    · refine ⟨getElem?_concat_eq_some.mpr (.inl hget), fun j y hij hy => ?_⟩
      rcases getElem?_concat_eq_some.mp hy with h | ⟨-, rfl⟩
      · exact hlast j y hij h
      · exact hne.symm

theorem not_lastOfKey_nil : ¬LastOfKey key [] i x := fun h => by cases h.get

theorem find?_reverse_key [DecidableEq κ] (key : α → κ) (xs : List α) (k : κ) (x : α) :
    (xs.reverse.find? fun y => decide (key y = k)) = some x ↔
      ∃ i, LastOfKey key xs i x ∧ key x = k := by
  induction xs using List.reverseRecOn with
  | nil => exact ⟨fun h => (by cases h), fun ⟨_, h, _⟩ => absurd h not_lastOfKey_nil⟩
  | append_singleton xs a ih =>
    rw [List.reverse_append, List.reverse_singleton, List.singleton_append, List.find?_cons]
    simp only [lastOfKey_concat]
    by_cases ha : key a = k
    · rw [decide_eq_true ha]
      constructor
      · rintro ⟨⟩
        exact ⟨_, .inl ⟨rfl, rfl⟩, ha⟩
      · rintro ⟨i, ⟨-, rfl⟩ | ⟨-, hne⟩, hx⟩
        · rfl
        · exact absurd (hx.trans ha.symm) hne
    · rw [decide_eq_false ha]
      show (xs.reverse.find? fun y => decide (key y = k)) = some x ↔ _
      rw [ih]
      constructor
      · rintro ⟨i, h, hx⟩
        exact ⟨i, .inr ⟨h, fun heq => ha (heq.symm.trans hx)⟩, hx⟩
      · rintro ⟨i, ⟨-, rfl⟩ | ⟨h, -⟩, hx⟩
        · exact absurd hx ha
        · exact ⟨i, h, hx⟩

end Streams
