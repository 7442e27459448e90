import Mathlib.Data.List.Basic

/-!
# A machine that runs a stream item by item

The machine takes items off the front of a list until one is not there whole.

* `loop`   items one after another, and what is left;
* `Resumable`   an item does not look past its end, and one that was cut leaves the machine such
  that it runs the same once the rest has come;
* `loop_append`  a resumable machine runs a stream in two pieces as it runs it whole;
* `loop_take`   it runs the items that are there whole as if nothing came after them;
* `loop_rel`   what every item preserves, the stream preserves;
* `Body`   the same rules for what follows the head of an item.
-/

namespace Streams

variable {M B : Type}

def loop (step : M → List B → M × Option (List B)) : Nat → M → List B → M × List B
  | 0, m, data => (m, data)
  | fuel + 1, m, data =>
    match data with
    | [] => (m, [])
    | b :: data =>
      match step m (b :: data) with
      | (m, none) => (m, b :: data)
      | (m, some rest) => loop step fuel m rest

structure Resumable (step : M → List B → M × Option (List B)) : Prop where
  shrinks : ∀ m data m' rest, step m data = (m', some rest) → rest.length < data.length
  grows : ∀ m data m' rest more, step m data = (m', some rest) →
    step m (data ++ more) = (m', some (rest ++ more))
  tight : ∀ m data m' rest more, step m (data ++ more) = (m', some (rest ++ more)) →
    step m data = (m', some rest)
  retries : ∀ m data m' more, step m data = (m', none) → data ≠ [] →
    step m' (data ++ more) = step m (data ++ more)

variable {step : M → List B → M × Option (List B)}

theorem loop_nil (step : M → List B → M × Option (List B)) (fuel : Nat) (m : M) :
    loop step fuel m [] = (m, []) := by
  cases fuel <;> rfl

theorem loop_none {fuel : Nat} {m m' : M} {data : List B} (h0 : data ≠ [])
    (h : step m data = (m', none)) : loop step (fuel + 1) m data = (m', data) := by
  cases data with
  | nil => exact absurd rfl h0
  | cons b data =>
    show (match step m (b :: data) with
      | (m, none) => (m, b :: data)
      | (m, some rest) => loop step fuel m rest) = _
    rw [h]

theorem loop_some {fuel : Nat} {m m' : M} {data rest : List B} (h0 : data ≠ [])
    (h : step m data = (m', some rest)) : loop step (fuel + 1) m data = loop step fuel m' rest := by
  cases data with
  | nil => exact absurd rfl h0
  | cons b data =>
    show (match step m (b :: data) with
      | (m, none) => (m, b :: data)
      | (m, some rest) => loop step fuel m rest) = _
    rw [h]

theorem loop_suffix (hsuffix : ∀ m data m' rest, step m data = (m', some rest) → rest <:+ data)
    (fuel : Nat) (m : M) (data : List B) : (loop step fuel m data).2 <:+ data := by
  induction fuel generalizing m data with
  | zero => exact List.suffix_refl data
  | succ fuel ih =>
    by_cases h0 : data = []
    · simp only [h0, loop_nil, List.suffix_refl]
    · rcases hstep : step m data with ⟨m', o⟩
      cases o with
      | none =>
        simp only [loop_none h0 hstep, List.suffix_refl]
      | some rest =>
        rw [loop_some h0 hstep]
        exact (ih m' rest).trans (hsuffix m data m' rest hstep)

/-- **What every item preserves, the stream preserves.** -/
theorem loop_rel {R : M → M → Prop} (hrefl : ∀ m, R m m)
    (htrans : ∀ m m' m'', R m m' → R m' m'' → R m m'') (hstep : ∀ m data, R m (step m data).1)
    (fuel : Nat) (m : M) (data : List B) : R m (loop step fuel m data).1 := by
  induction fuel generalizing m data with
  | zero => exact hrefl m
  | succ fuel ih =>
    by_cases h0 : data = []
    · rw [h0, loop_nil]
      exact hrefl m
    · have hone := hstep m data
      rcases hs : step m data with ⟨m', o⟩
      rw [hs] at hone
      cases o with
      | none =>
        rw [loop_none h0 hs]
        exact hone
      | some rest =>
        rw [loop_some h0 hs]
        exact htrans m m' _ hone (ih m' rest)

namespace Resumable

variable (h : Resumable step) {data : List B}
include h

theorem loop_fuel {n k : Nat} {m : M} {data : List B} (hn : data.length ≤ n)
    (hk : data.length ≤ k) : loop step n m data = loop step k m data := by
  induction n generalizing m data k with
  | zero =>
    rw [List.length_eq_zero_iff.mp (Nat.le_zero.mp hn), loop_nil, loop_nil]
  | succ n ih =>
    by_cases h0 : data = []
    · rw [h0, loop_nil, loop_nil]
    · have hpos := List.length_pos_iff.mpr h0
      obtain ⟨k, rfl⟩ : ∃ j, k = j + 1 := ⟨k - 1, by omega⟩
      rcases hs : step m data with ⟨m', o⟩
      cases o with
      | none => rw [loop_none h0 hs, loop_none h0 hs]
      | some rest =>
        have hlt := h.shrinks m data m' rest hs
        rw [loop_some h0 hs, loop_some h0 hs]
        exact ih (by omega) (by omega)

/-- **In two pieces.**  What is left of the first piece runs before the second. -/
theorem loop_append {n k j : Nat} {m : M} {data more : List B} (hn : data.length ≤ n)
    (hk : (data ++ more).length ≤ k)
    (hj : ((loop step n m data).2 ++ more).length ≤ j) :
    loop step k m (data ++ more) =
      loop step j (loop step n m data).1 ((loop step n m data).2 ++ more) := by
  induction n generalizing m data k with
  | zero =>
    have h0 : data = [] := List.length_eq_zero_iff.mp (Nat.le_zero.mp hn)
    subst h0
    exact h.loop_fuel hk hj
  | succ n ih =>
    by_cases h0 : data = []
    · subst h0
      rw [loop_nil] at hj ⊢
      exact h.loop_fuel hk hj
    · have hne : data ++ more ≠ [] := by simp [h0]
      have hpos := List.length_pos_iff.mpr hne
      obtain ⟨k, rfl⟩ : ∃ i, k = i + 1 := ⟨k - 1, by omega⟩
      rcases hs : step m data with ⟨m', o⟩
      cases o with
      | some rest =>
        have hlt := h.shrinks m data m' rest hs
        rw [loop_some h0 hs] at hj ⊢
        rw [loop_some hne (h.grows m data m' rest more hs)]
        refine ih (by omega) ?_ hj
        rw [List.length_append] at hk ⊢
        omega
      | none =>
        rw [loop_none h0 hs] at hj ⊢
        dsimp only at hj ⊢
        obtain ⟨j, rfl⟩ : ∃ i, j = i + 1 := ⟨j - 1, by omega⟩
        have hretry := h.retries m data m' more hs h0
        rcases hs' : step m (data ++ more) with ⟨m'', o⟩
        rw [hs'] at hretry
        cases o with
        | none => rw [loop_none hne hs', loop_none hne hretry]
        | some rest =>
          have hlt := h.shrinks _ _ _ _ hs'
          rw [loop_some hne hs', loop_some hne hretry]
          exact h.loop_fuel (by omega) (by omega)

/-- **The bytes that were run, alone.**  What the item that was cut has left behind is nothing that
`f` can see. -/
theorem loop_take {N : Type} {f : M → N}
    (hsuffix : ∀ m data m' rest, step m data = (m', some rest) → rest <:+ data)
    (hcut : ∀ m data m', step m data = (m', none) → f m' = f m) {n k : Nat} {m : M}
    {front : List B} (hn : (front ++ (loop step n m data).2).length ≤ n) (hk : front.length ≤ k)
    (hdata : data = front ++ (loop step n m data).2) :
    (loop step k m front).2 = [] ∧ f (loop step k m front).1 = f (loop step n m data).1 := by
  induction n generalizing m data front k with
  | zero =>
    have hlen := Nat.le_zero.mp hn
    rw [List.length_append] at hlen
    have hfront : front = [] := List.length_eq_zero_iff.mp (by omega)
    rw [hfront, loop_nil]
    exact ⟨rfl, rfl⟩
  | succ n ih =>
    by_cases h0 : data = []
    · subst h0
      rw [loop_nil] at hdata ⊢
      rw [(List.append_eq_nil_iff.mp hdata.symm).1, loop_nil]
      exact ⟨rfl, rfl⟩
    · rcases hs : step m data with ⟨m', o⟩
      cases o with
      | none =>
        rw [loop_none h0 hs] at hdata ⊢
        have hfront : front = [] := by simpa using hdata
        rw [hfront, loop_nil]
        exact ⟨rfl, (hcut m data m' hs).symm⟩
      | some rest =>
        rw [loop_some h0 hs] at hdata hn ⊢
        generalize hu : (loop step n m' rest).2 = u at hdata hn
        obtain ⟨x, hx⟩ := hsuffix m data m' rest hs
        obtain ⟨y, hy⟩ : u <:+ rest := hu ▸ loop_suffix hsuffix n m' rest
        have hfront : front = x ++ y := by
          rw [← hx, ← hy, ← List.append_assoc] at hdata
          exact (List.append_cancel_right hdata).symm
        have hlt := h.shrinks m data m' rest hs
        have hxpos : 0 < x.length := by
          rw [← hx, List.length_append] at hlt
          omega
        have hne : front ≠ [] := by
          rw [hfront]
          exact List.append_ne_nil_of_left_ne_nil (List.length_pos_iff.mp hxpos) y
        obtain ⟨k, rfl⟩ : ∃ i, k = i + 1 := by
          have hpos := List.length_pos_iff.mpr hne
          exact ⟨k - 1, by omega⟩
        have hstep : step m front = (m', some y) := by
          rw [hdata, ← hy] at hs
          exact h.tight m front m' y u hs
        rw [loop_some hne hstep]
        rw [hfront, List.length_append] at hk hn
        rw [List.length_append] at hn
        refine ih ?_ (by omega) (by rw [hu, hy])
        rw [hu, List.length_append]
        omega

end Resumable

/-! ## items with a head -/

/-- what follows the head of an item, by the same rules -/
structure Body (body : M → List B → M × Option (List B)) : Prop where
  suffix : ∀ m data m' rest, body m data = (m', some rest) → rest <:+ data
  grows : ∀ m data m' rest more, body m data = (m', some rest) →
    body m (data ++ more) = (m', some (rest ++ more))
  tight : ∀ m data m' rest more, body m (data ++ more) = (m', some (rest ++ more)) →
    body m data = (m', some rest)
  retries : ∀ m data m' more, body m data = (m', none) →
    body m' (data ++ more) = body m (data ++ more)

namespace Body

theorem stop : Body fun (m : M) (_ : List B) => (m, none) :=
  ⟨fun _ _ _ _ h => (by cases h), fun _ _ _ _ _ h => (by cases h), fun _ _ _ _ _ h => (by cases h),
    fun m data m' more h => by
      cases h
      rfl⟩

theorem skip : Body fun (m : M) (data : List B) => (m, some data) where
  suffix m data m' rest h := by
    cases h
    exact List.suffix_refl data
  grows m data m' rest more h := by
    cases h
    rfl
  tight m data m' rest more h := by
    obtain ⟨rfl, hrest⟩ := Prod.mk.inj h
    rw [List.append_cancel_right (Option.some.inj hrest)]
  retries m data m' more h := by cases h

/-- so many elements as the first few of them tell, or an item that never ends -/
theorem counted (k : Nat) (size : M → List B → Option Nat) (g : M → List B → M)
    (hsize : ∀ m data more, k ≤ data.length → size m (data ++ more) = size m data)
    (hle : ∀ m data n, size m data = some n → k ≤ n)
    (hg : ∀ m data more n, size m data = some n → n ≤ data.length →
      g m (data ++ more) = g m data) :
    Body fun m data =>
      if data.length < k then (m, none)
      else
        match size m data with
        | none => (m, none)
        | some n => if data.length < n then (m, none) else (g m data, some (data.drop n)) where
  suffix m data m' rest h := by
    split at h
    · cases h
    · split at h
      · cases h
      · next n _ =>
        split at h
        · cases h
        · cases h
          exact List.drop_suffix n data
  grows m data m' rest more h := by
    split at h
    · cases h
    · next hk =>
      split at h
      · cases h
      · next n hn =>
        split at h
        · cases h
        · next hlen =>
          cases h
          rw [if_neg (by rw [List.length_append]; omega), hsize m data more (by omega), hn]
          dsimp only
          rw [if_neg (by rw [List.length_append]; omega), hg m data more n hn (by omega),
            List.drop_append_of_le_length (by omega)]
  tight m data m' rest more h := by
    split at h
    · cases h
    · next hk =>
      split at h
      · cases h
      · next n hn =>
        split at h
        · cases h
        · next hmore =>
          obtain ⟨rfl, hrest⟩ := Prod.mk.inj h
          have hrest := Option.some.inj hrest
          have hlen : n ≤ data.length := by
            have hlengths := congrArg List.length hrest
            simp only [List.length_drop, List.length_append] at hlengths hmore
            omega
          have hkn := hle m _ n hn
          rw [hsize m data more (by omega)] at hn
          rw [List.drop_append_of_le_length hlen] at hrest
          rw [if_neg (by omega), hn]
          dsimp only
          rw [if_neg (by omega), hg m data more n hn hlen, List.append_cancel_right hrest]
  retries m data m' more h := by
    split at h
    · cases h
      rfl
    · split at h
      · cases h
        rfl
      · split at h
        · cases h
          rfl
        · cases h

/-- so many elements, of which the item reads no others -/
theorem fixed (n : Nat) (g : M → List B → M)
    (hg : ∀ m data more, n ≤ data.length → g m (data ++ more) = g m data) :
    Body fun m data => if data.length < n then (m, none) else (g m data, some (data.drop n)) := by
  have hcounted := counted n (fun _ _ => some n) g (fun _ _ _ _ => rfl)
    (fun _ _ _ h => Nat.le_of_eq (Option.some.inj h))
    fun m data more k hk hle => hg m data more (Option.some.inj hk ▸ hle)
  -- the second test is the first one
  have htwice (m : M) (data : List B) : (if data.length < n then (m, none) else
      if data.length < n then (m, none) else (g m data, some (data.drop n))) =
        if data.length < n then (m, none) else (g m data, some (data.drop n)) := by
    split <;> rfl
  simp only [htwice] at hcounted
  exact hcounted

theorem ite {c : Prop} [Decidable c] {f g : M → List B → M × Option (List B)} (hf : Body f)
    (hg : Body g) : Body fun m data => if c then f m data else g m data := by
  by_cases hc : c
  · simpa only [hc, if_true] using hf
  · simpa only [hc, if_false] using hg

end Body

theorem Resumable.of_bodies {body : B → M → List B → M × Option (List B)}
    (hnil : ∀ m, (step m []).2 = none) (hcons : ∀ m b data, step m (b :: data) = body b m data)
    (hbody : ∀ b, Body (body b)) : Resumable step where
  shrinks m data m' rest h := by
    cases data with
    | nil =>
      have hnone := hnil m
      rw [h] at hnone
      cases hnone
    | cons b data =>
      rw [hcons] at h
      exact Nat.lt_succ_of_le ((hbody b).suffix m data m' rest h).length_le
  grows m data m' rest more h := by
    cases data with
    | nil =>
      have hnone := hnil m
      rw [h] at hnone
      cases hnone
    | cons b data =>
      rw [hcons] at h
      rw [List.cons_append, hcons]
      exact (hbody b).grows m data m' rest more h
  tight m data m' rest more h := by
    cases data with
    | nil =>
      cases more with
      | nil =>
        have hnone := hnil m
        rw [List.append_nil] at h
        rw [h] at hnone
        cases hnone
      | cons b more =>
        -- an item takes its head at least
        rw [List.nil_append, hcons] at h
        have hlen := ((hbody b).suffix _ _ _ _ h).length_le
        rw [List.length_append, List.length_cons] at hlen
        omega
    | cons b data =>
      rw [List.cons_append, hcons] at h
      rw [hcons]
      exact (hbody b).tight m data m' rest more h
  retries m data m' more h h0 := by
    cases data with
    | nil => exact absurd rfl h0
    | cons b data =>
      rw [hcons] at h
      rw [List.cons_append, hcons, hcons]
      exact (hbody b).retries m data m' more h

end Streams
