import Mathlib

/-!
# Sweeps to a least solution

A system of equations gives each node `b` a right-hand side `rhs b`, which reads the values of all
nodes.  A sweep visits the nodes in a fixed order and writes what the right-hand side says at once,
so that a later visit reads it; sweeps follow each other until one changes nothing.

* `solve`   the loop, for a number of sweeps;
* `solve_isSome`   monotone right-hand sides over values of bounded rank: it ends;
* `solve_fixed`   where it ends, the equations hold;
* `solve_le`   and no other solution is smaller.
-/

set_option linter.unusedSectionVars false

namespace Dataflow

section
variable {α : Type*} [DecidableEq α] [PartialOrder α] [OrderBot α]

def valueAt (values : List α) (b : Nat) : α := values.getD b ⊥

def visit (rhs : Nat → (Nat → α) → α) (b : Nat) (work : List α × Bool) : List α × Bool :=
  let new := rhs b (valueAt work.1)
  if new = valueAt work.1 b then work else (work.1.set b new, true)

def sweep (rhs : Nat → (Nat → α) → α) (order : List Nat) (values : List α) : List α × Bool :=
  order.foldl (fun work b => visit rhs b work) (values, false)

/-- sweeps until one changes nothing -/
def solve (rhs : Nat → (Nat → α) → α) (order : List Nat) : Nat → List α → Option (List α)
  | 0, _ => none
  | fuel + 1, values =>
    let r := sweep rhs order values
    if r.2 then solve rhs order fuel r.1 else some r.1

theorem valueAt_set (values : List α) (b : Nat) (v : α) (hb : b < values.length) (c : Nat) :
    valueAt (values.set b v) c = if c = b then v else valueAt values c := by
  unfold valueAt
  by_cases hcb : c = b
  · subst hcb
    simp [hb]
  · rw [if_neg hcb, List.getD_eq_getElem?_getD, List.getD_eq_getElem?_getD,
      List.getElem?_set_ne (Ne.symm hcb)]

theorem valueAt_replicate (n b : Nat) : valueAt (List.replicate n (⊥ : α)) b = ⊥ := by
  unfold valueAt
  rw [List.getD_eq_getElem?_getD, List.getElem?_replicate]
  split <;> rfl

/-! ## one sweep -/

variable {rhs : Nat → (Nat → α) → α} {order : List Nat}

theorem visit_cases (rhs : Nat → (Nat → α) → α) (b : Nat) (work : List α × Bool) :
    (visit rhs b work = work ∧ rhs b (valueAt work.1) = valueAt work.1 b) ∨
    (visit rhs b work = (work.1.set b (rhs b (valueAt work.1)), true) ∧
      rhs b (valueAt work.1) ≠ valueAt work.1 b) := by
  by_cases h : rhs b (valueAt work.1) = valueAt work.1 b
  · exact Or.inl ⟨if_pos h, h⟩
  · exact Or.inr ⟨if_neg h, h⟩

theorem visit_length (rhs : Nat → (Nat → α) → α) (b : Nat) (work : List α × Bool) :
    (visit rhs b work).1.length = work.1.length := by
  rcases visit_cases rhs b work with ⟨h, -⟩ | ⟨h, -⟩
  · rw [h]
  · rw [h, List.length_set]

theorem sweep_invariant {I : List α → Prop} {values : List α} (h0 : I values)
    (hstep : ∀ b ∈ order, ∀ work : List α × Bool, I work.1 → I (visit rhs b work).1) :
    I (sweep rhs order values).1 := by
  unfold sweep
  suffices hs : ∀ (l : List Nat) (work : List α × Bool), (∀ b ∈ l, b ∈ order) → I work.1 →
      I (l.foldl (fun work b => visit rhs b work) work).1 from
    hs order (values, false) (fun _ h => h) h0
  intro l
  induction l with
  | nil => exact fun _ _ h => h
  | cons b l ih =>
    intro work hl h
    exact ih _ (fun c hc => hl c (List.mem_cons_of_mem _ hc))
      (hstep b (hl b List.mem_cons_self) work h)

theorem solve_invariant {I : List α → Prop} {fuel : Nat} {values result : List α} (h0 : I values)
    (hstep : ∀ b ∈ order, ∀ work : List α × Bool, I work.1 → I (visit rhs b work).1)
    (h : solve rhs order fuel values = some result) : I result := by
  induction fuel generalizing values with
  | zero => cases h
  | succ fuel ih =>
    have hs : I (sweep rhs order values).1 := sweep_invariant h0 hstep
    simp only [solve] at h
    split at h
    · exact ih hs h
    · obtain rfl := Option.some.inj h
      exact hs

theorem sweep_unchanged {values : List α} (h : (sweep rhs order values).2 = false) :
    (sweep rhs order values).1 = values ∧
      ∀ b ∈ order, rhs b (valueAt values) = valueAt values b := by
  unfold sweep at h ⊢
  suffices hs : ∀ (l : List Nat) (work : List α × Bool),
      (l.foldl (fun work b => visit rhs b work) work).2 = false →
      work.2 = false ∧ (l.foldl (fun work b => visit rhs b work) work).1 = work.1 ∧
        ∀ b ∈ l, rhs b (valueAt work.1) = valueAt work.1 b from (hs order (values, false) h).2
  intro l
  induction l with
  | nil => exact fun work h => ⟨h, rfl, fun b hb => by cases hb⟩
  | cons b l ih =>
    intro work h
    obtain ⟨h1, h2, h3⟩ := ih (visit rhs b work) h
    rw [List.foldl_cons]
    rcases visit_cases rhs b work with ⟨e, hb⟩ | ⟨e, -⟩
    · rw [e] at h1 h2 h3
      refine ⟨h1, e.symm ▸ h2, fun c hc => ?_⟩
      rcases List.mem_cons.mp hc with rfl | hc
      · exact hb
      · exact h3 c hc
    · rw [e] at h1
      cases h1

/-- **The equations hold where the loop ends.** -/
theorem solve_fixed {fuel : Nat} {values result : List α}
    (h : solve rhs order fuel values = some result) :
    ∀ b ∈ order, rhs b (valueAt result) = valueAt result b := by
  induction fuel generalizing values with
  | zero => cases h
  | succ fuel ih =>
    simp only [solve] at h
    split at h
    · exact ih h
    · rename_i hr
      obtain rfl := Option.some.inj h
      obtain ⟨e, hfixed⟩ := sweep_unchanged (Bool.eq_false_iff.mpr hr)
      rwa [e]

variable {rank : α → Nat}

theorem sum_map_set (rank : α → Nat) (values : List α) (b : Nat) (v : α) (hb : b < values.length) :
    ((values.set b v).map rank).sum + rank (valueAt values b) =
      (values.map rank).sum + rank v := by
  induction values generalizing b with
  | nil => cases hb
  | cons a l ih =>
    cases b with
    | zero =>
      simp only [List.set_cons_zero, List.map_cons, List.sum_cons, valueAt, List.getD_cons_zero]
      omega
    | succ b =>
      have := ih b (by simpa using hb)
      simp only [List.set_cons_succ, List.map_cons, List.sum_cons, valueAt,
        List.getD_cons_succ] at this ⊢
      omega

/-! ## monotone equations -/

/-- right-hand sides that grow with the values -/
def MonotoneEquations (rhs : Nat → (Nat → α) → α) : Prop :=
  ∀ b v w, (∀ c, v c ≤ w c) → rhs b v ≤ rhs b w

section
variable (hmono : MonotoneEquations rhs)
include hmono

/-- no node is above its right-hand side: a visit can only raise values -/
theorem visit_ascending {b : Nat} {work : List α × Bool} (hb : b < work.1.length)
    (h : ∀ c ∈ order, valueAt work.1 c ≤ rhs c (valueAt work.1)) (hmem : b ∈ order) :
    (∀ c, valueAt work.1 c ≤ valueAt (visit rhs b work).1 c) ∧
      ∀ c ∈ order, valueAt (visit rhs b work).1 c ≤ rhs c (valueAt (visit rhs b work).1) := by
  rcases visit_cases rhs b work with ⟨e, -⟩ | ⟨e, -⟩
  · rw [e]
    exact ⟨fun c => le_rfl, h⟩
  · rw [e]
    have hup : ∀ c, valueAt work.1 c ≤ valueAt (work.1.set b (rhs b (valueAt work.1))) c := by
      intro c
      rw [valueAt_set _ _ _ hb]
      split
      · rename_i hcb
        exact hcb ▸ h b hmem
      · exact le_rfl
    refine ⟨hup, fun c hc => ?_⟩
    refine le_trans ?_ (hmono c _ _ hup)
    rw [valueAt_set _ _ _ hb]
    split
    · rename_i hcb
      rw [hcb]
    · exact h c hc

theorem visit_le {b : Nat} {work : List α × Bool} {other : Nat → α} (hb : b < work.1.length)
    (h : ∀ c, valueAt work.1 c ≤ other c) (hother : rhs b other ≤ other b) (c : Nat) :
    valueAt (visit rhs b work).1 c ≤ other c := by
  rcases visit_cases rhs b work with ⟨e, -⟩ | ⟨e, -⟩
  · rw [e]
    exact h c
  · rw [e, valueAt_set _ _ _ hb]
    split
    · rename_i hcb
      rw [hcb]
      exact (hmono b _ _ h).trans hother
    · exact h c

/-- **The loop ends in the least solution.** -/
theorem solve_le {fuel n : Nat} {result : List α} {other : Nat → α}
    (horder : ∀ b ∈ order, b < n) (hother : ∀ b ∈ order, rhs b other ≤ other b)
    (h : solve rhs order fuel (List.replicate n ⊥) = some result) (c : Nat) :
    valueAt result c ≤ other c := by
  refine (solve_invariant (I := fun v => v.length = n ∧ ∀ c, valueAt v c ≤ other c)
    ⟨List.length_replicate, fun c => ?_⟩ (fun b hb work hw => ?_) h).2 c
  · rw [valueAt_replicate]
    exact bot_le
  · exact ⟨(visit_length rhs b work).trans hw.1,
      visit_le hmono (hw.1 ▸ horder b hb) hw.2 (hother b hb)⟩

variable (hrank : StrictMono rank)
include hrank

theorem sweep_rank {n : Nat} {values : List α} (hlen : values.length = n)
    (horder : ∀ b ∈ order, b < n)
    (hasc : ∀ c ∈ order, valueAt values c ≤ rhs c (valueAt values))
    (hchanged : (sweep rhs order values).2 = true) :
    (values.map rank).sum < ((sweep rhs order values).1.map rank).sum := by
  suffices hs : ∀ (l : List Nat) (work : List α × Bool), (∀ b ∈ l, b ∈ order) →
      work.1.length = n → (∀ c ∈ order, valueAt work.1 c ≤ rhs c (valueAt work.1)) →
      ((values.map rank).sum ≤ (work.1.map rank).sum) →
      (work.2 = true → (values.map rank).sum < (work.1.map rank).sum) →
      (l.foldl (fun work b => visit rhs b work) work).2 = true →
      (values.map rank).sum < ((l.foldl (fun work b => visit rhs b work) work).1.map rank).sum from
    hs order (values, false) (fun _ h => h) hlen hasc le_rfl (fun h => by cases h) hchanged
  intro l
  induction l with
  | nil => exact fun work _ _ _ _ h hw => h hw
  | cons b l ih =>
    intro work hl hwl hwa hle hlt hw
    have hmem := hl b List.mem_cons_self
    have hb : b < work.1.length := hwl ▸ horder b hmem
    obtain ⟨hup, hasc'⟩ := visit_ascending hmono hb hwa hmem
    have hlen' := (visit_length rhs b work).trans hwl
    have hl' : ∀ c ∈ l, c ∈ order := fun c hc => hl c (List.mem_cons_of_mem _ hc)
    rw [List.foldl_cons] at hw ⊢
    rcases visit_cases rhs b work with ⟨e, -⟩ | ⟨e, hne⟩
    · rw [e] at hw ⊢
      exact ih work hl' hwl hwa hle hlt hw
    · have hraise : rank (valueAt work.1 b) < rank (rhs b (valueAt work.1)) :=
        hrank (lt_of_le_of_ne (hwa b hmem) (Ne.symm hne))
      have hsum := sum_map_set rank work.1 b (rhs b (valueAt work.1)) hb
      have hlt' : (values.map rank).sum < ((visit rhs b work).1.map rank).sum := by
        rw [e]
        refine lt_of_le_of_lt hle ?_
        show _ < ((work.1.set b (rhs b (valueAt work.1))).map rank).sum
        omega
      exact ih _ hl' hlen' hasc' hlt'.le (fun _ => hlt') hw

/-- **Enough sweeps end the loop.** -/
theorem solve_isSome {n height : Nat} (hbound : ∀ a, rank a ≤ height)
    (horder : ∀ b ∈ order, b < n) {fuel : Nat} {values : List α} (hlen : values.length = n)
    (hasc : ∀ c ∈ order, valueAt values c ≤ rhs c (valueAt values))
    (hfuel : n * height < fuel + (values.map rank).sum) :
    (solve rhs order fuel values).isSome := by
  have hmax : ∀ l : List α, (l.map rank).sum ≤ l.length * height := by
    intro l
    induction l with
    | nil => simp
    | cons a l ih =>
      rw [List.map_cons, List.sum_cons, List.length_cons, Nat.succ_mul]
      have := hbound a
      omega
  induction fuel generalizing values with
  | zero =>
    have := hmax values
    rw [hlen] at this
    omega
  | succ fuel ih =>
    simp only [solve]
    split
    · rename_i hchanged
      have hlt := sweep_rank hmono hrank hlen horder hasc hchanged
      obtain ⟨hlen', hasc'⟩ := sweep_invariant
        (I := fun v => v.length = n ∧ ∀ c ∈ order, valueAt v c ≤ rhs c (valueAt v))
        ⟨hlen, hasc⟩ fun b (hb : b ∈ order) work hw => ⟨(visit_length rhs b work).trans hw.1,
          (visit_ascending hmono (hw.1 ▸ horder b hb) hw.2 hb).2⟩
      exact ih hlen' hasc' (by omega)
    · rfl

/-- **The loop ends when it starts with nothing.** -/
theorem solve_replicate_isSome {n height : Nat} (hbound : ∀ a, rank a ≤ height)
    (horder : ∀ b ∈ order, b < n) :
    (solve rhs order (n * height + 1) (List.replicate n ⊥)).isSome := by
  refine solve_isSome hmono hrank hbound horder List.length_replicate (fun c _ => ?_) (by omega)
  rw [valueAt_replicate]
  exact bot_le

end

end

end Dataflow
