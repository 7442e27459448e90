import Mathlib

/-!
# Runs of a transition system

A system is a partial function `next` on states.  `Reaches next P s t`: there is a run from `s` to
`t`, and `P` holds of every state that the run leaves.

* `after`   the state after a number of steps, for runs that are computed;
* `Reaches.invariant`   what the start satisfies and every step preserves holds in every state;
* `Reaches.simulate`   a run of one system followed step by step in another.
-/

namespace Transition

variable {S T : Type*} {next : S → Option S} {next' : T → Option T} {P : S → Prop}

inductive Reaches (next : S → Option S) (P : S → Prop) (start : S) : S → Prop where
  | refl : Reaches next P start start
  | step {s t : S} : Reaches next P start s → P s → next s = some t → Reaches next P start t

/-- the state after `n` steps -/
def after (next : S → Option S) : Nat → S → Option S
  | 0, s => some s
  | n + 1, s => (after next n s).bind next

namespace Reaches

theorem of_after {n : Nat} {s t : S} (h : after next n s = some t)
    (hP : ∀ k < n, ∀ u, after next k s = some u → P u) : Reaches next P s t := by
  induction n generalizing t with
  | zero =>
    obtain rfl := Option.some.inj h
    exact .refl
  | succ n ih =>
    obtain ⟨u, hu, hnext⟩ := Option.bind_eq_some_iff.mp h
    have hreach := ih hu fun k hk v hv => hP k (hk.trans (Nat.lt_succ_self n)) v hv
    exact hreach.step (hP n (Nat.lt_succ_self n) u hu) hnext

/-- **Invariant rule.** -/
theorem invariant {I : S → Prop} {start : S} (h0 : I start)
    (hstep : ∀ s t, I s → P s → next s = some t → I t) {s : S} (h : Reaches next P start s) :
    I s := by
  induction h with
  | refl => exact h0
  | step _ hp hn ih => exact hstep _ _ ih hp hn

/-- **Simulation rule.** -/
theorem simulate {R : S → T → Prop} {start : S} {start' : T} (h0 : R start start')
    (hstep : ∀ s s' t, R s s' → P s → next s = some t → ∃ t', next' s' = some t' ∧ R t t')
    {s : S} (h : Reaches next P start s) :
    ∃ s', Reaches next' (fun _ => True) start' s' ∧ R s s' := by
  induction h with
  | refl => exact ⟨start', .refl, h0⟩
  | step _ hp hn ih =>
    obtain ⟨s', hr, hs⟩ := ih
    obtain ⟨t', hn', ht⟩ := hstep _ _ _ hs hp hn
    exact ⟨t', hr.step trivial hn', ht⟩

end Reaches

end Transition

/-!
## Networks of bits

A network computes all its bits anew in each round, each from bits of the round before.

* `Settles`            a bit stops to change;
* `OnCycle`            a node that depends on itself through another node;
* `settles_network`    monotone bits settle when those on a cycle do: a bit that depends on itself
  alone cannot alternate.
-/

namespace Transition

def Settles (x : ℕ → Prop) : Prop := ∃ n, ∀ k, n ≤ k → (x k ↔ x n)

namespace Settles

variable {x : ℕ → Prop}

theorem of_true {n : ℕ} (h : ∀ k, n ≤ k → x k) : Settles x :=
  ⟨n, fun k hk => iff_of_true (h k hk) (h n le_rfl)⟩

theorem of_false {n : ℕ} (h : ∀ k, n ≤ k → ¬ x k) : Settles x :=
  ⟨n, fun k hk => iff_of_false (h k hk) (h n le_rfl)⟩

theorem of_ascending {n : ℕ} (h : ∀ k, n ≤ k → x k → x (k + 1)) : Settles x := by
  by_cases hx : ∃ k, n ≤ k ∧ x k
  · obtain ⟨k, hk, hxk⟩ := hx
    refine of_true (n := k) fun l hl => ?_
    induction l, hl using Nat.le_induction with
    | base => exact hxk
    | succ l hl ih => exact h l (hk.trans hl) ih
  · exact of_false (n := n) fun k hk hxk => hx ⟨k, hk, hxk⟩

theorem of_descending {n : ℕ} (h : ∀ k, n ≤ k → x (k + 1) → x k) : Settles x := by
  by_cases hx : ∃ k, n ≤ k ∧ ¬ x k
  · obtain ⟨k, hk, hxk⟩ := hx
    refine of_false (n := k) fun l hl => ?_
    induction l, hl using Nat.le_induction with
    | base => exact hxk
    | succ l hl ih => exact fun hl' => ih (h l (hk.trans hl) hl')
  · exact of_true (n := n) fun k hk => by_contra fun hxk => hx ⟨k, hk, hxk⟩

end Settles

theorem exists_settled {ι : Type*} (s : Finset ι) {x : ι → ℕ → Prop}
    (h : ∀ i ∈ s, Settles (x i)) : ∃ n, ∀ i ∈ s, ∀ k, n ≤ k → (x i k ↔ x i n) := by
  classical
  induction s using Finset.induction_on with
  | empty => exact ⟨0, fun i hi => by cases hi⟩
  | insert a s _ ih =>
    obtain ⟨n, hn⟩ := ih fun i hi => h i (Finset.mem_insert_of_mem hi)
    obtain ⟨m, hm⟩ := h a (Finset.mem_insert_self a s)
    refine ⟨max n m, fun i hi k hk => ?_⟩
    have hnk : n ≤ k := (le_max_left n m).trans hk
    have hmk : m ≤ k := (le_max_right n m).trans hk
    rcases Finset.mem_insert.mp hi with rfl | hi
    · exact (hm k hmk).trans (hm _ (le_max_right n m)).symm
    · exact (hn i hi k hnk).trans (hn i hi _ (le_max_left n m)).symm

section
variable {ι : Type*} (dep : ι → ι → Prop)

/-- a node that depends on itself through another node -/
def OnCycle (i : ι) : Prop :=
  ∃ j, j ≠ i ∧ Relation.ReflTransGen dep i j ∧ Relation.ReflTransGen dep j i

variable {dep} {x : ι → ℕ → Prop} {K : ℕ}

theorem settles_of_dependencies {i : ι} {n : ℕ} (hK : K ≤ n)
    (hmono : ∀ k l, K ≤ k → K ≤ l → (∀ j, dep i j → x j k → x j l) → x i (k + 1) → x i (l + 1))
    (hdeps : ∀ j, dep i j → j ≠ i → ∀ k, n ≤ k → (x j k ↔ x j n)) : Settles (x i) := by
  have hstep : ∀ k l, n ≤ k → n ≤ l → (x i k → x i l) → x i (k + 1) → x i (l + 1) := by
    intro k l hk hl hi
    refine hmono k l (hK.trans hk) (hK.trans hl) fun j hj hx => ?_
    by_cases hji : j = i
    · exact hji ▸ hi (hji ▸ hx)
    · exact (hdeps j hj hji l hl).mpr ((hdeps j hj hji k hk).mp hx)
  by_cases hn : x i n
  · refine Settles.of_descending (n := n) fun k hk => ?_
    induction k, hk using Nat.le_induction with
    | base => exact fun _ => hn
    | succ k hk ih => exact hstep (k + 1) k (by omega) hk ih
  · refine Settles.of_ascending (n := n) fun k hk => ?_
    induction k, hk using Nat.le_induction with
    | base => exact fun h => absurd h hn
    | succ k hk ih => exact hstep k (k + 1) hk (by omega) ih

/-- **A monotone network settles when its cycles do.** -/
theorem settles_network (s : Finset ι) (hs : ∀ i ∈ s, ∀ j, dep i j → j ∈ s)
    (hmono : ∀ i ∈ s, ∀ k l, K ≤ k → K ≤ l → (∀ j, dep i j → x j k → x j l) →
      x i (k + 1) → x i (l + 1))
    (hcycle : ∀ i ∈ s, OnCycle dep i → Settles (x i)) : ∀ i ∈ s, Settles (x i) := by
  classical
  -- by the number of nodes that a node depends on: off the cycles it gets smaller
  let below (i : ι) : Finset ι := s.filter (Relation.ReflTransGen dep i)
  have hbelow : ∀ i j, j ∈ below i ↔ j ∈ s ∧ Relation.ReflTransGen dep i j :=
    fun i j => Finset.mem_filter
  suffices hind : ∀ m, ∀ i ∈ s, (below i).card = m → Settles (x i) from
    fun i hi => hind _ i hi rfl
  intro m
  induction m using Nat.strong_induction_on with
  | _ m ih =>
    intro i hi hm
    by_cases hc : OnCycle dep i
    · exact hcycle i hi hc
    · have hdeps : ∀ j ∈ s.filter (fun j => dep i j ∧ j ≠ i), Settles (x j) := by
        intro j hj
        obtain ⟨hjs, hij, hne⟩ := Finset.mem_filter.mp hj
        refine ih _ ?_ j hjs rfl
        rw [← hm]
        have hsub : below j ⊆ below i := by
          intro k hk
          obtain ⟨hks, hjk⟩ := (hbelow j k).mp hk
          exact (hbelow i k).mpr ⟨hks, Relation.ReflTransGen.head hij hjk⟩
        have hmem : i ∈ below i := (hbelow i i).mpr ⟨hi, .refl⟩
        have hnot : i ∉ below j := fun hji => hc ⟨j, hne, .single hij, ((hbelow j i).mp hji).2⟩
        exact Finset.card_lt_card ((Finset.ssubset_iff_of_subset hsub).mpr ⟨i, hmem, hnot⟩)
      obtain ⟨n, hn⟩ := exists_settled _ hdeps
      refine settles_of_dependencies (le_max_left K n) (hmono i hi) fun j hij hne k hk => ?_
      have hj : j ∈ s.filter fun j => dep i j ∧ j ≠ i :=
        Finset.mem_filter.mpr ⟨hs i hi j hij, hij, hne⟩
      exact (hn j hj k ((le_max_right K n).trans hk)).trans (hn j hj _ (le_max_right K n)).symm

end

end Transition
