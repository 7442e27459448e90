import Mathlib.Data.List.Basic

/-!
# A machine that is fed

A machine that takes steps while it can, and whose buffer is added to from outside.

* `runs`, `settle`   the machine's steps, up to where it stops;
* `Steps`   some of its steps;
* `Fed`   a step shrinks the machine, and does the same with more in the buffer;
* `settle_push`   the machine may stop before more comes: it is the same in the end.
-/

namespace Streams

variable {S B : Type}

/-- at most so many steps -/
def runs (step : S → Option S) : Nat → S → S
  | 0, s => s
  | fuel + 1, s =>
    match step s with
    | none => s
    | some s' => runs step fuel s'

inductive Steps (step : S → Option S) : S → S → Prop where
  | refl (s : S) : Steps step s s
  | head {s s' s'' : S} : step s = some s' → Steps step s' s'' → Steps step s s''

/-- the machine when it stops; `size` bounds its steps -/
def settle (step : S → Option S) (size : S → Nat) (s : S) : S := runs step (size s) s

structure Fed (step : S → Option S) (push : S → List B → S) (size : S → Nat) (Inv : S → Prop) :
    Prop where
  shrinks : ∀ {s s'}, Inv s → step s = some s' → size s' < size s
  keeps : ∀ {s s'}, Inv s → step s = some s' → Inv s'
  pushed : ∀ {s} w, Inv s → Inv (push s w)
  grows : ∀ {s s'} w, Inv s → step s = some s' → step (push s w) = some (push s' w)

variable {step : S → Option S} {push : S → List B → S} {size : S → Nat} {Inv : S → Prop}
  {s s' s'' : S}

theorem runs_none (h : step s = none) (fuel : Nat) : runs step fuel s = s := by
  cases fuel with
  | zero => rfl
  | succ fuel =>
    unfold runs
    rw [h]

theorem runs_some (h : step s = some s') (fuel : Nat) :
    runs step (fuel + 1) s = runs step fuel s' := by
  rw [runs, h]

theorem Steps.trans (h : Steps step s s') (h' : Steps step s' s'') : Steps step s s'' := by
  induction h with
  | refl s => exact h'
  | head hstep _ ih => exact .head hstep (ih h')

theorem Steps.single (h : step s = some s') : Steps step s s' := .head h (.refl s')

theorem runs_steps (fuel : Nat) (s : S) : Steps step s (runs step fuel s) := by
  induction fuel generalizing s with
  | zero => exact .refl s
  | succ fuel ih =>
    cases hstep : step s with
    | none =>
      rw [runs_none hstep]
      exact .refl s
    | some s' =>
      rw [runs_some hstep]
      exact .head hstep (ih s')

theorem settle_none (h : step s = none) : settle step size s = s := runs_none h _

theorem settle_steps (s : S) : Steps step s (settle step size s) := runs_steps _ s

namespace Fed

variable (h : Fed step push size Inv)
include h

theorem inv_steps (hinv : Inv s) (hsteps : Steps step s s') : Inv s' := by
  induction hsteps with
  | refl s => exact hinv
  | head hstep _ ih => exact ih (h.keeps hinv hstep)

theorem push_steps (hinv : Inv s) (hsteps : Steps step s s') (w : List B) :
    Steps step (push s w) (push s' w) := by
  induction hsteps with
  | refl s => exact .refl _
  | head hstep _ ih => exact .head (h.grows w hinv hstep) (ih (h.keeps hinv hstep))

theorem runs_fuel {n k : Nat} (hinv : Inv s) (hn : size s ≤ n) (hk : size s ≤ k) :
    runs step n s = runs step k s := by
  induction n generalizing s k with
  | zero =>
    cases hstep : step s with
    | none => rw [runs_none hstep, runs_none hstep]
    | some s' =>
      have := h.shrinks hinv hstep
      omega
  | succ n ih =>
    cases hstep : step s with
    | none => rw [runs_none hstep, runs_none hstep]
    | some s' =>
      have hlt := h.shrinks hinv hstep
      obtain ⟨k, rfl⟩ : ∃ j, k = j + 1 := ⟨k - 1, by omega⟩
      rw [runs_some hstep, runs_some hstep]
      exact ih (h.keeps hinv hstep) (by omega) (by omega)

theorem settle_some (hinv : Inv s) (hstep : step s = some s') :
    settle step size s = settle step size s' := by
  have hlt := h.shrinks hinv hstep
  unfold settle
  obtain ⟨n, hn⟩ : ∃ n, size s = n + 1 := ⟨size s - 1, by omega⟩
  rw [hn, runs_some hstep]
  exact h.runs_fuel (h.keeps hinv hstep) (by omega) (Nat.le_refl _)

theorem settle_eq (hinv : Inv s) (hsteps : Steps step s s') :
    settle step size s = settle step size s' := by
  induction hsteps with
  | refl s => rfl
  | head hstep _ ih => exact (h.settle_some hinv hstep).trans (ih (h.keeps hinv hstep))

theorem step_settle (hinv : Inv s) : step (settle step size s) = none := by
  obtain ⟨n, hn⟩ : ∃ n, size s = n := ⟨_, rfl⟩
  induction n using Nat.strongRecOn generalizing s with
  | ind n ih =>
    cases hstep : step s with
    | none => rwa [settle_none hstep]
    | some s' =>
      rw [h.settle_some hinv hstep]
      exact ih _ (hn ▸ h.shrinks hinv hstep) (h.keeps hinv hstep) rfl

theorem inv_settle (hinv : Inv s) : Inv (settle step size s) := h.inv_steps hinv (settle_steps s)

/-- **It may stop before more comes.** -/
theorem settle_push (hinv : Inv s) (w : List B) :
    settle step size (push s w) = settle step size (push (settle step size s) w) :=
  h.settle_eq (h.pushed w hinv) (h.push_steps hinv (settle_steps s) w)

end Fed

end Streams
