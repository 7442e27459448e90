import Mathlib.Data.List.Basic
import Mathlib.Logic.Function.Basic

/-!
# Passes over samples

A filter goes over its samples one by one, and carries a state. Passed over the parts of a list one
after another it does what it does over the whole list.

* `pass`, `pass_append`   a state from sample to sample;
* `produce`, `produce_add`   the same without inputs;
* `produce_inv`, `produce_sim`   what steps keep, and another machine whose steps agree;
* `Splits`   stages of such passes;
* `foldl_update`   a step for each of some keys, that changes nothing but its own key.
-/

namespace Streams

variable {σ τ α β κ : Type}

def pass (step : σ → α → β × σ) : σ → List α → List β × σ
  | s, [] => ([], s)
  | s, a :: as =>
    let (b, s) := step s a
    let (bs, s) := pass step s as
    (b :: bs, s)

theorem pass_cons (step : σ → α → β × σ) (s : σ) (a : α) (as : List α) :
    pass step s (a :: as) =
      ((step s a).1 :: (pass step (step s a).2 as).1, (pass step (step s a).2 as).2) := rfl

theorem pass_append (step : σ → α → β × σ) (s : σ) (as as' : List α) :
    pass step s (as ++ as') = ((pass step s as).1 ++ (pass step (pass step s as).2 as').1,
      (pass step (pass step s as).2 as').2) := by
  induction as generalizing s with
  | nil => rfl
  | cons a as ih =>
    rw [List.cons_append, pass_cons, ih, pass_cons]
    rfl

theorem length_pass (step : σ → α → β × σ) (s : σ) (as : List α) :
    (pass step s as).1.length = as.length := by
  induction as generalizing s with
  | nil => rfl
  | cons a as ih => exact congrArg (· + 1) (ih _)

/-- so many outputs, and the state behind them -/
def produce (step : σ → β × σ) : Nat → σ → List β × σ
  | 0, s => ([], s)
  | n + 1, s =>
    let (b, s) := step s
    let (bs, s) := produce step n s
    (b :: bs, s)

theorem produce_succ (step : σ → β × σ) (n : Nat) (s : σ) :
    produce step (n + 1) s =
      ((step s).1 :: (produce step n (step s).2).1, (produce step n (step s).2).2) := rfl

theorem produce_add (step : σ → β × σ) (n k : Nat) (s : σ) :
    produce step (n + k) s = ((produce step n s).1 ++ (produce step k (produce step n s).2).1,
      (produce step k (produce step n s).2).2) := by
  induction n generalizing s with
  | zero =>
    rw [Nat.zero_add]
    rfl
  | succ n ih =>
    rw [Nat.succ_add, produce_succ, ih, produce_succ]
    rfl

theorem length_produce (step : σ → β × σ) (n : Nat) (s : σ) :
    (produce step n s).1.length = n := by
  induction n generalizing s with
  | zero => rfl
  | succ n ih => exact congrArg (· + 1) (ih _)

theorem produce_inv {step : σ → β × σ} (Inv : σ → Prop) (hstep : ∀ s, Inv s → Inv (step s).2)
    (n : Nat) {s : σ} (h : Inv s) : Inv (produce step n s).2 := by
  induction n generalizing s with
  | zero => exact h
  | succ n ih => exact ih (hstep s h)

theorem produce_sim {step : σ → β × σ} {step' : τ → β × τ} (Rel : σ → τ → Prop)
    (hstep : ∀ s t, Rel s t → (step s).1 = (step' t).1 ∧ Rel (step s).2 (step' t).2) (n : Nat) {s : σ}
    {t : τ} (h : Rel s t) : (produce step n s).1 = (produce step' n t).1 ∧
      Rel (produce step n s).2 (produce step' n t).2 := by
  induction n generalizing s t with
  | zero => exact ⟨rfl, h⟩
  | succ n ih =>
    obtain ⟨hout, hrel⟩ := hstep s t h
    obtain ⟨houts, hrels⟩ := ih hrel
    exact ⟨congrArg₂ List.cons hout houts, hrels⟩

/-! ## stages -/

/-- a stage that goes over the parts of a list as over the whole list -/
def Splits (stage : List α → σ → List β × σ) : Prop := ∀ as as' s,
  stage (as ++ as') s = ((stage as s).1 ++ (stage as' (stage as s).2).1, (stage as' (stage as s).2).2)

theorem splits_pass (step : σ → α → β × σ) : Splits fun as s => pass step s as :=
  fun as as' s => pass_append step s as as'

theorem Splits.comp {γ : Type} {first : List α → σ → List β × σ} {second : List β → τ → List γ × τ}
    (hfirst : Splits first) (hsecond : Splits second) :
    Splits fun as (s : σ × τ) => ((second (first as s.1).1 s.2).1, ((first as s.1).2,
      (second (first as s.1).1 s.2).2)) := by
  rintro as as' ⟨s, t⟩
  simp only [hfirst as as' s, hsecond (first as s).1]

/-- a stage that is only there if the state says so, and does not change what it says -/
theorem Splits.ite {stage : List α → σ → List α × σ} {p : σ → Prop} [DecidablePred p]
    (hstage : Splits stage) (hp : ∀ as s, p (stage as s).2 ↔ p s) :
    Splits fun as s => if p s then stage as s else (as, s) := by
  intro as as' s
  by_cases h : p s
  · simp only [if_pos h, if_pos ((hp as s).mpr h)]
    exact hstage as as' s
  · simp only [if_neg h]

/-- steps for different keys, each of which changes only its own key -/
theorem foldl_update [DecidableEq κ] (f : κ → β → β) {keys : List κ} (hkeys : keys.Nodup)
    (s : κ → β) : keys.foldl (fun s k => Function.update s k (f k (s k))) s =
      fun k => if k ∈ keys then f k (s k) else s k := by
  induction keys generalizing s with
  | nil => rfl
  | cons key keys ih =>
    obtain ⟨hkey, hrest⟩ := List.nodup_cons.mp hkeys
    rw [List.foldl_cons, ih hrest]
    funext k
    by_cases hk : k = key
    · subst hk
      rw [if_neg hkey, if_pos List.mem_cons_self, Function.update_self]
    · rw [Function.update_of_ne hk]
      simp only [List.mem_cons, hk, false_or]

end Streams
