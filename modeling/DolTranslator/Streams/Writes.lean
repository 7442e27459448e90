import Mathlib.Data.List.Pairwise
import Mathlib.Logic.Function.Basic

/-!
# Writes, now or later

* `applyWrites`   writes to a memory, one after another;
* `applyWrites_comm`   writes to different places commute;
* `applyAll`   pending writes, in their order;
* `applyAll_filter`   some of them first: when no write that is put off comes before one of them at
  the same place, the memory is the same in the end.
-/

namespace Streams

variable {A V : Type} [DecidableEq A]

def applyWrites (writes : List (A × V)) (m : A → V) : A → V :=
  writes.foldl (fun m w => Function.update m w.1 w.2) m

def footprint (writes : List (A × V)) : List A := writes.map Prod.fst

variable {writes writes' : List (A × V)} {m m' : A → V} {q : A}

@[simp] theorem applyWrites_nil (m : A → V) : applyWrites [] m = m := rfl

@[simp] theorem applyWrites_cons (w : A × V) (writes : List (A × V)) (m : A → V) :
    applyWrites (w :: writes) m = applyWrites writes (Function.update m w.1 w.2) := rfl

theorem applyWrites_of_not_mem (h : q ∉ footprint writes) : applyWrites writes m q = m q := by
  induction writes generalizing m with
  | nil => rfl
  | cons w writes ih =>
    obtain ⟨hne, hrest⟩ := not_or.mp fun hq => h (List.mem_cons.mpr hq)
    rw [applyWrites_cons, ih hrest, Function.update_of_ne hne]

theorem applyWrites_mem (h : q ∈ footprint writes) :
    ∃ w ∈ writes, w.1 = q ∧ applyWrites writes m q = w.2 := by
  induction writes generalizing m with
  | nil => cases h
  | cons w writes ih =>
    rw [applyWrites_cons]
    by_cases hq : q ∈ footprint writes
    · obtain ⟨w', hw', hplace, hvalue⟩ := ih hq (m := Function.update m w.1 w.2)
      exact ⟨w', List.mem_cons_of_mem _ hw', hplace, hvalue⟩
    · have hw : q = w.1 := (List.mem_cons.mp h).resolve_right hq
      refine ⟨w, List.mem_cons_self, hw.symm, ?_⟩
      rw [applyWrites_of_not_mem hq, hw, Function.update_self]

theorem applyWrites_of_unique {v : V} (h : q ∈ footprint writes)
    (hsame : ∀ w ∈ writes, w.1 = q → w.2 = v) : applyWrites writes m q = v := by
  obtain ⟨w, hw, hplace, hvalue⟩ := applyWrites_mem h (m := m)
  rw [hvalue, hsame w hw hplace]

theorem applyWrites_congr (h : q ∈ footprint writes ∨ m q = m' q) :
    applyWrites writes m q = applyWrites writes m' q := by
  induction writes generalizing m m' with
  | nil =>
    rcases h with h | h
    · cases h
    · exact h
  | cons w writes ih =>
    rw [applyWrites_cons, applyWrites_cons]
    by_cases hw : q = w.1
    · subst hw
      exact ih (.inr (by rw [Function.update_self, Function.update_self]))
    · refine ih ?_
      rw [Function.update_of_ne hw, Function.update_of_ne hw]
      rcases h with h | h
      · rcases List.mem_cons.mp h with h | h
        · exact absurd h hw
        · exact .inl h
      · exact .inr h

theorem applyWrites_comm (h : ∀ q ∈ footprint writes, q ∉ footprint writes') (m : A → V) :
    applyWrites writes (applyWrites writes' m) = applyWrites writes' (applyWrites writes m) := by
  funext q
  by_cases hq : q ∈ footprint writes
  · rw [applyWrites_of_not_mem (h q hq)]
    exact applyWrites_congr (.inl hq)
  · rw [applyWrites_of_not_mem hq]
    exact applyWrites_congr (.inr (applyWrites_of_not_mem hq).symm)

/-! ## pending writes -/

variable {P : Type} {f : P → List (A × V)} {pending : List P}

def applyAll (f : P → List (A × V)) (pending : List P) (m : A → V) : A → V :=
  pending.foldl (fun m p => applyWrites (f p) m) m

@[simp] theorem applyAll_nil (m : A → V) : applyAll f [] m = m := rfl

@[simp] theorem applyAll_cons (p : P) (pending : List P) (m : A → V) :
    applyAll f (p :: pending) m = applyAll f pending (applyWrites (f p) m) := rfl

theorem applyAll_append (pending pending' : List P) (m : A → V) :
    applyAll f (pending ++ pending') m = applyAll f pending' (applyAll f pending m) :=
  List.foldl_append ..

theorem applyAll_of_not_mem (h : ∀ p ∈ pending, q ∉ footprint (f p)) :
    applyAll f pending m q = m q := by
  induction pending generalizing m with
  | nil => rfl
  | cons p pending ih =>
    obtain ⟨hq, hrest⟩ := List.forall_mem_cons.mp h
    rw [applyAll_cons, ih hrest, applyWrites_of_not_mem hq]

theorem applyAll_applyWrites (h : ∀ p ∈ pending, ∀ q ∈ footprint (f p), q ∉ footprint writes)
    (m : A → V) :
    applyAll f pending (applyWrites writes m) = applyWrites writes (applyAll f pending m) := by
  induction pending generalizing m with
  | nil => rfl
  | cons p pending ih =>
    obtain ⟨hq, hrest⟩ := List.forall_mem_cons.mp h
    rw [applyAll_cons, applyWrites_comm hq, ih hrest, applyAll_cons]

/-- none that is put off comes before one that is not, at the same place -/
def Independent (f : P → List (A × V)) (now : P → Bool) (pending : List P) : Prop :=
  pending.Pairwise fun p p' => now p = false → now p' = true →
    ∀ q ∈ footprint (f p), q ∉ footprint (f p')

theorem applyAll_filter {now : P → Bool} (h : Independent f now pending) (m : A → V) :
    applyAll f (pending.filter fun p => !now p) (applyAll f (pending.filter now) m) =
      applyAll f pending m := by
  induction pending generalizing m with
  | nil => rfl
  | cons p pending ih =>
    obtain ⟨hhead, hrest⟩ := List.pairwise_cons.mp h
    cases hnow : now p with
    | true =>
      rw [List.filter_cons_of_neg (by rw [hnow]; decide), List.filter_cons_of_pos hnow, applyAll_cons,
        ih hrest, applyAll_cons]
    | false =>
      rw [List.filter_cons_of_pos (by rw [hnow]; rfl),
        List.filter_cons_of_neg (by rw [hnow]; decide), applyAll_cons, applyAll_cons, ← ih hrest]
      congr 1
      -- what is put off is performed before those that are not
      have hlater : ∀ p' ∈ pending.filter now, ∀ q ∈ footprint (f p'), q ∉ footprint (f p) := by
        intro p' hmem q hq hq'
        obtain ⟨hmem, hnow'⟩ := List.mem_filter.mp hmem
        exact hhead p' hmem hnow hnow' q hq' hq
      rw [applyAll_applyWrites hlater]

end Streams
