import Mathlib

/-!
# Work stacks

A loop that takes the top item of a stack, changes a state and pushes further items, until the
stack is empty or an item stops it.

* `pop`   one round;
* `Halts`   the loop ends;
* `reaches_of_acc`   an item below which every chain of pushed items is finite is used up, with
  all that it pushes, before the items under it are touched;
* `halts_of_acc`   a stack of such items.
-/

namespace DolTranslator.FlowGraph

section
variable {ι σ : Type*} (step : ι → σ → Option (List ι × σ))

/-- one round of the loop; nothing when the loop is over -/
def pop : List ι × σ → Option (List ι × σ)
  | ([], _) => none
  | (x :: rest, s) => (step x s).map fun r => (r.1 ++ rest, r.2)

/-- the loop after a number of rounds; nothing when it has ended by then -/
def rounds : Nat → List ι × σ → Option (List ι × σ)
  | 0, c => some c
  | k + 1, c => (pop step c).bind (rounds k)

def Halts (c : List ι × σ) : Prop := ∃ k, rounds step k c = none

/-- the loop ends, or comes down to the rest of the stack -/
def Reaches (rest : List ι) (c : List ι × σ) : Prop :=
  Halts step c ∨ ∃ k s, rounds step k c = some (rest, s)

variable {step}

theorem rounds_add (j k : Nat) (c : List ι × σ) :
    rounds step (j + k) c = (rounds step j c).bind (rounds step k) := by
  induction j generalizing c with
  | zero => rw [Nat.zero_add]; rfl
  | succ j ih =>
    rw [Nat.succ_add]
    show (pop step c).bind (rounds step (j + k)) = _
    cases h : pop step c with
    | none => simp [rounds, h]
    | some d => simp [rounds, h, ih d]

theorem Halts.of_rounds {k : Nat} {c d : List ι × σ} (h : rounds step k c = some d)
    (hd : Halts step d) : Halts step c := by
  obtain ⟨m, hm⟩ := hd
  exact ⟨k + m, by rw [rounds_add, h]; exact hm⟩

theorem Reaches.of_rounds {k : Nat} {rest : List ι} {c d : List ι × σ}
    (h : rounds step k c = some d) (hd : Reaches step rest d) : Reaches step rest c := by
  rcases hd with hd | ⟨m, s, hm⟩
  · exact Or.inl (hd.of_rounds h)
  · exact Or.inr ⟨k + m, s, by rw [rounds_add, h]; exact hm⟩

theorem reaches_append {xs rest : List ι}
    (h : ∀ x ∈ xs, ∀ under s, Reaches step under (x :: under, s)) (s : σ) :
    Reaches step rest (xs ++ rest, s) := by
  induction xs generalizing s with
  | nil => exact Or.inr ⟨0, s, rfl⟩
  | cons x xs ih =>
    have hxs := ih fun y hy => h y (List.mem_cons_of_mem x hy)
    rcases h x List.mem_cons_self (xs ++ rest) s with hx | ⟨k, s', hk⟩
    · exact Or.inl hx
    · exact (hxs s').of_rounds hk

/-- **An item below which no chain of pushed items goes on forever is used up.** -/
theorem reaches_of_acc {below : ι → ι → Prop}
    (hstep : ∀ x s r, step x s = some r → ∀ y ∈ r.1, below y x) {x : ι} (hx : Acc below x)
    (rest : List ι) (s : σ) : Reaches step rest (x :: rest, s) := by
  induction hx generalizing rest s with
  | intro x _ ih =>
    cases hr : step x s with
    | none => exact Or.inl ⟨1, by simp [rounds, pop, hr]⟩
    | some r =>
      have hround : rounds step 1 (x :: rest, s) = some (r.1 ++ rest, r.2) := by
        simp [rounds, pop, hr]
      apply Reaches.of_rounds hround
      exact reaches_append (fun y hy under s' => ih y (hstep x s r hr y hy) under s') r.2

theorem halts_of_acc {below : ι → ι → Prop}
    (hstep : ∀ x s r, step x s = some r → ∀ y ∈ r.1, below y x) {xs : List ι}
    (hxs : ∀ x ∈ xs, Acc below x) (s : σ) : Halts step (xs, s) := by
  have hreach : Reaches step [] (xs ++ [], s) :=
    reaches_append (fun x hx => reaches_of_acc hstep (hxs x hx)) s
  rw [List.append_nil] at hreach
  rcases hreach with h | ⟨k, s', hk⟩
  · exact h
  · exact Halts.of_rounds hk ⟨1, rfl⟩

end

end DolTranslator.FlowGraph
