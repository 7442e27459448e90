import Mathlib

/-!
# The last one at or before a key

* `lastAtMost`   what is before the upper bound of a key, in a list that is sorted by keys;
* `lastAtMost_key`   it has the key, when something in the list does;
* `exists_lastAtMost`   a sort that keeps no order among equal keys can leave any of them there.
-/

namespace Streams

variable {α κ : Type} [LinearOrder κ] {key : α → κ} {xs : List α} {k : κ} {x y : α}

/-- the last one whose key is at most `k`, of those in front that are -/
def lastAtMost (key : α → κ) (k : κ) (xs : List α) : Option α :=
  (xs.takeWhile fun x => decide (key x ≤ k)).getLast?

/-- sorted by the keys -/
def SortedBy (key : α → κ) (xs : List α) : Prop := xs.Pairwise fun x y => key x ≤ key y

theorem exists_sortedBy (key : α → κ) (xs : List α) : ∃ ys, ys.Perm xs ∧ SortedBy key ys := by
  refine ⟨_, List.mergeSort_perm xs fun x y => decide (key x ≤ key y), ?_⟩
  refine List.Pairwise.imp (fun h => of_decide_eq_true h) (List.pairwise_mergeSort ?_ ?_ xs)
  · intro a b c hab hbc
    exact decide_eq_true ((of_decide_eq_true hab).trans (of_decide_eq_true hbc))
  · intro a b
    rw [Bool.or_eq_true, decide_eq_true_iff, decide_eq_true_iff]
    exact le_total _ _

theorem mem_of_lastAtMost (key : α → κ) (h : lastAtMost key k xs = some x) : x ∈ xs ∧ key x ≤ k := by
  have hmem := List.mem_of_getLast? h
  have hle := List.mem_takeWhile_imp (p := fun x => decide (key x ≤ k)) hmem
  exact ⟨(List.takeWhile_sublist _).subset hmem, of_decide_eq_true hle⟩

theorem mem_takeWhile (hsorted : SortedBy key xs) (hy : y ∈ xs) (hk : key y ≤ k) :
    y ∈ xs.takeWhile fun x => decide (key x ≤ k) := by
  induction xs with
  | nil => cases hy
  | cons x xs ih =>
    obtain ⟨hx, hxs⟩ := List.pairwise_cons.mp hsorted
    have hle : key x ≤ k := by
      rcases List.mem_cons.mp hy with rfl | hy
      · exact hk
      · exact (hx y hy).trans hk
    rw [List.takeWhile_cons_of_pos (p := fun x => decide (key x ≤ k)) (decide_eq_true hle)]
    rcases List.mem_cons.mp hy with rfl | hy
    · exact List.mem_cons_self
    · exact List.mem_cons_of_mem _ (ih hxs hy)

theorem le_getLast {R : α → α → Prop} {ys : List α} (hpair : ys.Pairwise R)
    (hlast : ys.getLast? = some x) (hy : y ∈ ys) : y = x ∨ R y x := by
  obtain ⟨front, rfl⟩ := List.getLast?_eq_some_iff.mp hlast
  rcases List.mem_append.mp hy with hy | hy
  · exact .inr ((List.pairwise_append.mp hpair).2.2 y hy x (List.mem_singleton_self x))
  · exact .inl (List.mem_singleton.mp hy)

theorem lastAtMost_key (key : α → κ) (hsorted : SortedBy key xs) (hy : y ∈ xs) :
    ∃ x ∈ xs, key x = key y ∧ lastAtMost key (key y) xs = some x := by
  have hfront := mem_takeWhile hsorted hy le_rfl
  cases hlast : lastAtMost key (key y) xs with
  | none => rw [List.getLast?_eq_none_iff.mp hlast] at hfront; cases hfront
  | some x =>
    obtain ⟨hx, hle⟩ := mem_of_lastAtMost key hlast
    refine ⟨x, hx, le_antisymm hle ?_, rfl⟩
    have hpair := hsorted.sublist (List.takeWhile_sublist fun x => decide (key x ≤ key y))
    rcases le_getLast hpair hlast hfront with rfl | h
    · exact le_rfl
    · exact h

/-- the order by keys that has `y` last among those of its key -/
def leLast [DecidableEq α] (key : α → κ) (y a b : α) : Bool :=
  decide (key a < key b) || (decide (key a = key b) && (decide (a ≠ y) || decide (b = y)))

theorem leLast_iff [DecidableEq α] {a b : α} :
    leLast key y a b = true ↔ key a < key b ∨ key a = key b ∧ (a = y → b = y) := by
  unfold leLast
  by_cases ha : a = y <;> simp [ha]

theorem exists_lastAtMost [DecidableEq α] (key : α → κ) (hy : y ∈ xs) :
    ∃ ys, ys.Perm xs ∧ SortedBy key ys ∧ lastAtMost key (key y) ys = some y := by
  have htrans : ∀ a b c, leLast key y a b = true → leLast key y b c = true →
      leLast key y a c = true := by
    intro a b c hab hbc
    rw [leLast_iff] at hab hbc ⊢
    rcases hab with hab | ⟨hab, hay⟩ <;> rcases hbc with hbc | ⟨hbc, hby⟩
    · exact .inl (hab.trans hbc)
    · exact .inl (hbc ▸ hab)
    · exact .inl (hab ▸ hbc)
    · exact .inr ⟨hab.trans hbc, fun h => hby (hay h)⟩
  have htotal : ∀ a b, (leLast key y a b || leLast key y b a) = true := by
    intro a b
    rw [Bool.or_eq_true, leLast_iff, leLast_iff]
    rcases lt_trichotomy (key a) (key b) with h | h | h
    · exact .inl (.inl h)
    · by_cases hb : b = y
      · exact .inl (.inr ⟨h, fun _ => hb⟩)
      · exact .inr (.inr ⟨h.symm, fun h => absurd h hb⟩)
    · exact .inr (.inl h)
  have hpair := List.pairwise_mergeSort htrans htotal xs
  have hsorted : SortedBy key (xs.mergeSort (leLast key y)) := by
    refine hpair.imp ?_
    intro a b hab
    rcases leLast_iff.mp hab with h | h
    · exact h.le
    · exact h.1.le
  refine ⟨_, List.mergeSort_perm xs _, hsorted, ?_⟩
  have hmem : y ∈ xs.mergeSort (leLast key y) := List.mem_mergeSort.mpr hy
  obtain ⟨x, -, hkey, hlast⟩ := lastAtMost_key key hsorted hmem
  -- what is last comes after `y`, with its key: it is `y`
  have hfront := mem_takeWhile hsorted hmem (le_refl (key y))
  have hpair' := hpair.sublist (List.takeWhile_sublist fun x => decide (key x ≤ key y))
  rcases le_getLast hpair' hlast hfront with rfl | h
  · exact hlast
  · rcases leLast_iff.mp h with h | ⟨-, h⟩
    · exact absurd hkey h.ne'
    · rw [hlast, h rfl]

end Streams
