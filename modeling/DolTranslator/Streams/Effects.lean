import Mathlib.Data.List.Nodup

/-!
# Effects on slots

An effect writes one slot of a state.  Writing twice is writing once, and effects on different slots
commute; so an effect that has been performed stays performed until something else writes its slot.

* `Effects`   the two laws;
* `Stable e s`   performing `e` again would change nothing;
* `stable_performAll`   an effect of a list is stable after it, unless another one took its slot.
-/

namespace Streams

variable {S E Slot : Type} {perform : E → S → S} {slot : E → Slot}

structure Effects (perform : E → S → S) (slot : E → Slot) : Prop where
  twice : ∀ e s, perform e (perform e s) = perform e s
  comm : ∀ e e' s, slot e ≠ slot e' → perform e (perform e' s) = perform e' (perform e s)

def performAll (perform : E → S → S) (es : List E) (s : S) : S :=
  es.foldl (fun s e => perform e s) s

@[simp] theorem performAll_nil (s : S) : performAll perform [] s = s := rfl

@[simp] theorem performAll_cons (e : E) (es : List E) (s : S) :
    performAll perform (e :: es) s = performAll perform es (perform e s) := rfl

theorem performAll_append (es es' : List E) (s : S) :
    performAll perform (es ++ es') s = performAll perform es' (performAll perform es s) :=
  List.foldl_append ..

def Stable (perform : E → S → S) (e : E) (s : S) : Prop := perform e s = s

theorem performAll_of_stable {es : List E} {s : S} (h : ∀ e ∈ es, Stable perform e s) :
    performAll perform es s = s := by
  induction es with
  | nil => rfl
  | cons e es ih =>
    have he : perform e s = s := h e List.mem_cons_self
    rw [performAll_cons, he]
    exact ih fun e' he' => h e' (List.mem_cons_of_mem e he')

namespace Effects

variable (h : Effects perform slot)
include h

theorem stable_perform (e : E) (s : S) : Stable perform e (perform e s) := h.twice e s

theorem stable_of_ne {e e' : E} {s : S} (hs : Stable perform e s) (hne : slot e ≠ slot e') :
    Stable perform e (perform e' s) := by
  unfold Stable at hs ⊢
  rw [h.comm e e' s hne, hs]

theorem stable_performAll_of_ne {e : E} {es : List E} {s : S} (hs : Stable perform e s)
    (hne : ∀ e' ∈ es, slot e ≠ slot e') : Stable perform e (performAll perform es s) := by
  induction es generalizing s with
  | nil => exact hs
  | cons e' es ih =>
    exact ih (h.stable_of_ne hs (hne e' List.mem_cons_self)) fun e'' he'' =>
      hne e'' (List.mem_cons_of_mem e' he'')

/-- **What a list has written stays written**, when only the same effect writes the slot again. -/
theorem stable_performAll {es : List E} {e : E} (he : e ∈ es)
    (hunique : ∀ e' ∈ es, slot e' = slot e → e' = e) (s : S) :
    Stable perform e (performAll perform es s) := by
  induction es generalizing s with
  | nil => cases he
  | cons e' es ih =>
    rw [performAll_cons]
    have hrest : ∀ e'' ∈ es, slot e'' = slot e → e'' = e := fun e'' he'' =>
      hunique e'' (List.mem_cons_of_mem e' he'')
    by_cases hmem : e ∈ es
    · exact ih hmem hrest _
    · have hhead : e = e' := (List.mem_cons.mp he).resolve_right hmem
      subst hhead
      refine h.stable_performAll_of_ne (h.stable_perform e s) fun e'' he'' heq => hmem ?_
      rwa [← hrest e'' he'' heq.symm]

theorem stable_performAll_of_nodup {es : List E} (hnodup : (es.map slot).Nodup) {e : E}
    (he : e ∈ es) (s : S) : Stable perform e (performAll perform es s) :=
  h.stable_performAll he (fun _ he' heq => List.inj_on_of_nodup_map hnodup he' he heq) s

end Effects

end Streams
