import Mathlib

/-!
# Dominance in a rooted graph

Nodes of any type, a set `root` of start nodes and a relation `edge`.

* `Walk l n`   `l` lists the nodes of a walk from a root to `n`, last node first;
* `Dominates d n`   every walk to `n` meets `d`;
* `Dominates.total` two dominators of one node are comparable;
* `mem_of_postfix`  a solution of the data-flow equations is contained in dominance;
* `Immediate`   a function that returns the closest strict dominator, and
  `Immediate.agree`: a value that only changes outside the nodes between `p` and the immediate
  dominator of a successor of `p` is the same at both.
-/

namespace DolTranslator.FlowGraph

variable {α : Type*} {root : α → Prop} {edge : α → α → Prop}

/-- the nodes of a walk from a root, last node first -/
inductive Walk (root : α → Prop) (edge : α → α → Prop) : List α → α → Prop where
  | start {r : α} : root r → Walk root edge [r] r
  | step {l : List α} {m n : α} : Walk root edge l m → edge m n → Walk root edge (n :: l) n

def Rooted (root : α → Prop) (edge : α → α → Prop) (n : α) : Prop := ∃ l, Walk root edge l n

def Dominates (root : α → Prop) (edge : α → α → Prop) (d n : α) : Prop :=
  ∀ l, Walk root edge l n → d ∈ l

/-- dominance by another node -/
def StrictlyDominates (root : α → Prop) (edge : α → α → Prop) (d n : α) : Prop :=
  Dominates root edge d n ∧ d ≠ n

theorem Walk.mem {l : List α} {n : α} (h : Walk root edge l n) : n ∈ l := by
  cases h with
  | start _ => exact List.mem_cons_self
  | step _ _ => exact List.mem_cons_self

theorem Walk.rooted {l : List α} {n : α} (h : Walk root edge l n) : Rooted root edge n := ⟨l, h⟩

theorem Walk.cut {l : List α} {n d : α} (h : Walk root edge l n) (hd : d ∈ l) :
    ∃ k, Walk root edge k d ∧ k ⊆ l ∧ k.length ≤ l.length ∧ (d = n ∨ k.length < l.length) := by
  induction h with
  | @start r hr =>
    have e : d = r := List.mem_singleton.mp hd
    subst e
    exact ⟨[d], Walk.start hr, List.Subset.refl _, le_refl _, Or.inl rfl⟩
  | @step l m n hw he ih =>
    rcases List.mem_cons.mp hd with rfl | hd
    · exact ⟨d :: l, Walk.step hw he, List.Subset.refl _, le_refl _, Or.inl rfl⟩
    · obtain ⟨k, hk, hsub, hlen, _⟩ := ih hd
      have hlt : k.length < (n :: l).length := by
        simp only [List.length_cons]
        omega
      exact ⟨k, hk, fun x hx => List.mem_cons_of_mem _ (hsub hx), hlt.le, Or.inr hlt⟩

/-! ## dominance is an order on rooted nodes -/

theorem Dominates.refl (n : α) : Dominates root edge n n := fun _ h => h.mem

theorem Dominates.trans {a b c : α} (hab : Dominates root edge a b)
    (hbc : Dominates root edge b c) : Dominates root edge a c := by
  intro l hl
  obtain ⟨k, hk, hsub, -, -⟩ := hl.cut (hbc l hl)
  exact hsub (hab k hk)

theorem Dominates.rooted {d n : α} (h : Dominates root edge d n) (hn : Rooted root edge n) :
    Rooted root edge d := by
  obtain ⟨l, hl⟩ := hn
  obtain ⟨k, hk, -⟩ := hl.cut (h l hl)
  exact hk.rooted

private theorem antisymm_walk (N : Nat) : ∀ (l : List α) (a b : α), l.length ≤ N →
    Walk root edge l a → Dominates root edge a b → Dominates root edge b a → a = b := by
  induction N with
  | zero =>
    intro l a b hl hw
    exact absurd hw.mem (by simp [List.length_eq_zero_iff.mp (Nat.le_zero.mp hl)])
  | succ N ih =>
    intro l a b hl hw hab hba
    obtain ⟨k, hk, -, -, rfl | hlt⟩ := hw.cut (hba l hw)
    · rfl
    · exact (ih k b a (by omega) hk hba hab).symm

theorem Dominates.antisymm {a b : α} (ha : Rooted root edge a)
    (hab : Dominates root edge a b) (hba : Dominates root edge b a) : a = b := by
  obtain ⟨l, hl⟩ := ha
  exact antisymm_walk l.length l a b (le_refl _) hl hab hba

/-- a walk that avoids `a` or one that avoids `b` leads to every rooted node, as soon as each of
the two can be reached without the other -/
private theorem avoid {a b : α} {ka kb : List α} (hne : a ≠ b) (ha : Walk root edge ka a)
    (hka : b ∉ ka) (hb : Walk root edge kb b) (hkb : a ∉ kb) {l : List α} {n : α}
    (h : Walk root edge l n) :
    (∃ k, Walk root edge k n ∧ a ∉ k) ∨ (∃ k, Walk root edge k n ∧ b ∉ k) := by
  induction h with
  | @start r hr =>
    by_cases hra : a = r
    · refine Or.inr ⟨[r], Walk.start hr, fun hbr => hne ?_⟩
      rw [hra, List.mem_singleton.mp hbr]
    · exact Or.inl ⟨[r], Walk.start hr, fun h => hra (List.mem_singleton.mp h)⟩
  | @step l m n _ he ih =>
    by_cases hna : n = a
    · exact Or.inr ⟨ka, hna ▸ ha, hka⟩
    · by_cases hnb : n = b
      · exact Or.inl ⟨kb, hnb ▸ hb, hkb⟩
      · rcases ih with ⟨k, hk, hak⟩ | ⟨k, hk, hbk⟩
        · exact Or.inl ⟨n :: k, Walk.step hk he, by
            rw [List.mem_cons, not_or]; exact ⟨fun e => hna e.symm, hak⟩⟩
        · exact Or.inr ⟨n :: k, Walk.step hk he, by
            rw [List.mem_cons, not_or]; exact ⟨fun e => hnb e.symm, hbk⟩⟩

/-- **Two dominators of one node are comparable.** -/
theorem Dominates.total {a b n : α} (hn : Rooted root edge n) (ha : Dominates root edge a n)
    (hb : Dominates root edge b n) : Dominates root edge a b ∨ Dominates root edge b a := by
  by_contra hcon
  rw [not_or] at hcon
  obtain ⟨hab, hba⟩ := hcon
  have hne : a ≠ b := fun e => hab (e ▸ Dominates.refl a)
  simp only [Dominates, not_forall] at hab hba
  obtain ⟨kb, hkb, hakb⟩ := hab
  obtain ⟨ka, hka, hbka⟩ := hba
  obtain ⟨l, hl⟩ := hn
  rcases avoid hne hka hbka hkb hakb hl with ⟨k, hk, h⟩ | ⟨k, hk, h⟩
  · exact h (ha k hk)
  · exact h (hb k hk)

theorem Dominates.pred {d p n : α} (h : Dominates root edge d n) (he : edge p n) :
    d = n ∨ Dominates root edge d p := by
  by_cases hdn : d = n
  · exact Or.inl hdn
  · refine Or.inr fun l hl => ?_
    rcases List.mem_cons.mp (h (n :: l) (Walk.step hl he)) with e | hd
    · exact absurd e hdn
    · exact hd

theorem Dominates.of_root {d r : α} (hr : root r) (h : Dominates root edge d r) : d = r :=
  List.mem_singleton.mp (h [r] (Walk.start hr))

theorem mem_of_postfix {D : α → α → Prop} (hroot : ∀ r d, root r → D d r → d = r)
    (hstep : ∀ p n d, ¬ root n → edge p n → D d n → d = n ∨ D d p) {l : List α} {n : α}
    (h : Walk root edge l n) {d : α} (hd : D d n) : d ∈ l := by
  induction h with
  | @start r hr => exact hroot r d hr hd ▸ List.mem_cons_self
  | @step l m n _ he ih =>
    by_cases hn : root n
    · exact hroot n d hn hd ▸ List.mem_cons_self
    · rcases hstep m n d hn he hd with rfl | hm
      · exact List.mem_cons_self
      · exact List.mem_cons_of_mem _ (ih hm)

/-! ## immediate dominators -/

/-- `idom` returns the strict dominator that all others dominate, or nothing when there is none -/
structure Immediate (root : α → Prop) (edge : α → α → Prop) (idom : α → Option α) : Prop where
  strict : ∀ {n i}, Rooted root edge n → idom n = some i → StrictlyDominates root edge i n
  closest : ∀ {n i d}, Rooted root edge n → idom n = some i → StrictlyDominates root edge d n →
    Dominates root edge d i
  none : ∀ {n d}, Rooted root edge n → idom n = .none → ¬ StrictlyDominates root edge d n

namespace Immediate
variable {idom : α → Option α}

theorem exists_of_strict (hI : Immediate root edge idom) {d n : α} (hn : Rooted root edge n)
    (h : StrictlyDominates root edge d n) : ∃ i, idom n = some i ∧ Dominates root edge d i := by
  cases hi : idom n with
  | none => exact absurd h (hI.none hn hi)
  | some i => exact ⟨i, rfl, hI.closest hn hi h⟩

section
variable {κ : Type*} (value : α → κ) (initial : κ)

def above (idom : α → Option α) (n : α) : κ :=
  match idom n with
  | some i => value i
  | .none => initial

/-- **A value that the nodes below an immediate dominator leave alone is the same there.**  The
nodes that matter dominate `p` and do not strictly dominate `b`. -/
theorem agree (hI : Immediate root edge idom) {p b : α} (hb : Rooted root edge b)
    (hp : Rooted root edge p) (he : edge p b)
    (hq : ∀ m, Dominates root edge m p → ¬ StrictlyDominates root edge m b →
      value m = above value initial idom m) :
    value p = above value initial idom b := by
  -- induction on the length of a walk: the chain of immediate dominators from `p` upwards
  have main : ∀ (N : Nat) (l : List α) (m : α), l.length ≤ N → Walk root edge l m →
      Dominates root edge m p → (∀ i, idom b = some i → Dominates root edge i m) →
      value m = above value initial idom b := by
    intro N
    induction N with
    | zero =>
      intro l m hl hw
      exact absurd hw.mem (by simp [List.length_eq_zero_iff.mp (Nat.le_zero.mp hl)])
    | succ N ih =>
      intro l m hl hw hmp hbelow
      by_cases hs : StrictlyDominates root edge m b
      · obtain ⟨i, hi, hmi⟩ := hI.exists_of_strict hb hs
        have e : m = i := Dominates.antisymm hw.rooted hmi (hbelow i hi)
        rw [above, hi, e]
      · rw [hq m hmp hs]
        cases hm : idom m with
        | none =>
          rw [above, hm]
          cases hi : idom b with
          | none => rw [above, hi]
          | some i =>
            have him : i ≠ m := fun e => hs (e ▸ hI.strict hb hi)
            exact absurd ⟨hbelow i hi, him⟩ (hI.none hw.rooted hm)
        | some j =>
          rw [above, hm]
          have hj := hI.strict hw.rooted hm
          obtain ⟨k, hk, -, -, e | hlt⟩ := hw.cut (hj.1 l hw)
          · exact absurd e hj.2
          · refine ih k j (by omega) hk (hj.1.trans hmp) fun i hi => ?_
            have him : i ≠ m := fun e => hs (e ▸ hI.strict hb hi)
            exact hI.closest hw.rooted hm ⟨hbelow i hi, him⟩
  obtain ⟨l, hl⟩ := hp
  refine main l.length l p (le_refl _) hl (Dominates.refl p) fun i hi => ?_
  have hs := hI.strict hb hi
  rcases hs.1.pred he with e | h
  · exact absurd e hs.2
  · exact h

end

end Immediate

/-- the only predecessor of a node that is not a root strictly dominates it -/
theorem StrictlyDominates.of_unique {p b : α} (hb : Rooted root edge b) (hroot : ¬ root b)
    (hu : ∀ q, edge q b → q = p) : StrictlyDominates root edge p b := by
  have hdom : Dominates root edge p b := by
    intro l hl
    cases hl with
    | start hr => exact absurd hr hroot
    | @step l m _ hw he => exact List.mem_cons_of_mem _ (hu m he ▸ hw.mem)
  refine ⟨hdom, fun e => ?_⟩
  subst e
  have none : ∀ (N : Nat) (l : List α), l.length ≤ N → ¬ Walk root edge l p := by
    intro N
    induction N with
    | zero =>
      intro l hl hw
      exact absurd hw.mem (by simp [List.length_eq_zero_iff.mp (Nat.le_zero.mp hl)])
    | succ N ih =>
      intro l hl hw
      cases hw with
      | start hr => exact hroot hr
      | @step l m _ hw he =>
        have hm := hu m he
        rw [hm] at hw
        exact ih l (by simpa using hl) hw
  obtain ⟨l, hl⟩ := hb
  exact none l.length l (le_refl _) hl

end DolTranslator.FlowGraph
