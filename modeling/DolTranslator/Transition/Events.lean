import Mathlib.Data.List.Basic

/-!
# Systems driven by events

What happens next is the environment's choice, an event.  `Driven start ok step s`: the state `s` is
reached from a start by steps whose events are `ok` in the state they come in.

* `Driven.invariant`   what the starts satisfy and every such step preserves holds in every state;
* `Driven.of_run`   a run of a step function on a list of events.
-/

namespace Transition

variable {S E : Type*} {start : S → Prop} {ok ok' : S → E → Prop} {step : S → E → S → Prop}

inductive Driven (start : S → Prop) (ok : S → E → Prop) (step : S → E → S → Prop) : S → Prop where
  | start {s : S} (h : start s) : Driven start ok step s
  | step {s t : S} {e : E} (h : Driven start ok step s) (hok : ok s e) (hstep : step s e t) :
      Driven start ok step t

namespace Driven

/-- **Invariant rule.** -/
theorem invariant {I : S → Prop} (h0 : ∀ s, start s → I s)
    (hstep : ∀ s e t, I s → ok s e → step s e t → I t) {s : S} (h : Driven start ok step s) :
    I s := by
  induction h with
  | start hs => exact h0 _ hs
  | step _ hok hst ih => exact hstep _ _ _ ih hok hst

theorem mono (hok : ∀ s e, ok s e → ok' s e) {s : S} (h : Driven start ok step s) :
    Driven start ok' step s := by
  induction h with
  | start hs => exact .start hs
  | step _ h hst ih => exact ih.step (hok _ _ h) hst

/-- a step function on a list of events, as long as the events are `ok` -/
def run (next : S → E → Option S) (ok : S → E → Bool) : S → List E → Option S
  | s, [] => some s
  | s, e :: es => if ok s e then (next s e).bind fun t => run next ok t es else none

theorem of_run {next : S → E → Option S} {okb : S → E → Bool}
    (hok : ∀ s e, okb s e = true → ok s e) (hnext : ∀ s e t, next s e = some t → step s e t)
    {es : List E} {s t : S} (h : Driven start ok step s) (hrun : run next okb s es = some t) :
    Driven start ok step t := by
  induction es generalizing s with
  | nil =>
    obtain rfl := Option.some.inj hrun
    exact h
  | cons e es ih =>
    unfold run at hrun
    split at hrun
    · next hb =>
      obtain ⟨u, hu, hrest⟩ := Option.bind_eq_some_iff.mp hrun
      exact ih (h.step (hok s e hb) (hnext s e u hu)) hrest
    · cases hrun

end Driven

end Transition
