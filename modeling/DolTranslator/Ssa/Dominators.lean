import DolTranslator.FlowGraph.Dominance
import DolTranslator.Ssa.Transformer

/-!
# The dominator passes compute dominance

The roots of the graph are the entry and the blocks without predecessors.  On a graph where every
block is reachable from a root:

* `computeDominators_spec`   the bit sets are the dominators;
* `immediate_spec`   the chosen candidate is the immediate dominator;
* `frontier_spec`   the runner loop ends, and puts a join into the frontier of every
  block that dominates a predecessor and does not strictly dominate the join.
-/

namespace DolTranslator.Ssa
open FlowGraph

/-! ## the graph of a function -/

/-- edges stay inside the function, and the entry is a block -/
structure Closed (cfg : IrCfg) : Prop where
  entry : cfg.entry < cfg.count
  succ : ∀ i j, j ∈ cfg.successors i → j < cfg.count

def IsRoot (cfg : IrCfg) (i : Nat) : Prop :=
  i < cfg.count ∧ (i = cfg.entry ∨ cfg.predecessors i = [])

def Edge (cfg : IrCfg) (p i : Nat) : Prop := p ∈ cfg.predecessors i

abbrev Dom (cfg : IrCfg) : Nat → Nat → Prop := Dominates (IsRoot cfg) (Edge cfg)

abbrev SDom (cfg : IrCfg) : Nat → Nat → Prop := StrictlyDominates (IsRoot cfg) (Edge cfg)

abbrev Reach (cfg : IrCfg) : Nat → Prop := Rooted (IsRoot cfg) (Edge cfg)

section
variable {cfg : IrCfg}

theorem Edge.pred_lt {p i : Nat} (h : Edge cfg p i) : p < cfg.count :=
  ((cfg.mem_predecessors i p).mp h).1

theorem Edge.lt (hc : Closed cfg) {p i : Nat} (h : Edge cfg p i) : i < cfg.count :=
  hc.succ p i ((cfg.mem_predecessors i p).mp h).2

theorem walk_lt (hc : Closed cfg) {l : List Nat} {n : Nat}
    (h : Walk (IsRoot cfg) (Edge cfg) l n) : ∀ d ∈ l, d < cfg.count := by
  induction h with
  | start hr =>
    intro d hd
    rw [List.mem_singleton.mp hd]
    exact hr.1
  | step _ he ih =>
    intro d hd
    rcases List.mem_cons.mp hd with rfl | hd
    · exact Edge.lt hc he
    · exact ih d hd

theorem Dom.lt (hc : Closed cfg) {d n : Nat} (hn : Reach cfg n) (h : Dom cfg d n) :
    d < cfg.count := by
  obtain ⟨l, hl⟩ := hn
  exact walk_lt hc hl d (h l hl)

/-! ## the bit-set solver -/

theorem mem_foldl_inter (dom : DominatorBits) (ps : List Nat) (s : Finset Nat) (d : Nat) :
    d ∈ ps.foldl (fun temp q => temp ∩ dom.getD q ∅) s ↔
      d ∈ s ∧ ∀ q ∈ ps, d ∈ dom.getD q ∅ := by
  induction ps generalizing s with
  | nil => simp
  | cons p ps ih =>
    rw [List.foldl_cons, ih, Finset.mem_inter]
    simp only [List.mem_cons, forall_eq_or_imp, and_assoc]

theorem mem_dominatorUpdate (dom : DominatorBits) (i d : Nat) :
    d ∈ dominatorUpdate cfg dom i ↔
      d = i ∨ (cfg.predecessors i ≠ [] ∧ ∀ p ∈ cfg.predecessors i, d ∈ dom.getD p ∅) := by
  unfold dominatorUpdate
  split
  · rename_i h
    simp [h]
  · rename_i p ps h
    rw [Finset.mem_insert, mem_foldl_inter]
    simp [h]

/-- what holds of the bit sets through all sweeps -/
structure SolverInv (cfg : IrCfg) (dom : DominatorBits) : Prop where
  length : dom.length = cfg.count
  bounded : ∀ i, dom.getD i ∅ ⊆ Finset.range cfg.count
  entry : dom.getD cfg.entry ∅ = {cfg.entry}
  above : ∀ i d, i < cfg.count → d < cfg.count → Dom cfg d i → d ∈ dom.getD i ∅
  descends : ∀ i, i < cfg.count → i ≠ cfg.entry → dominatorUpdate cfg dom i ⊆ dom.getD i ∅

theorem getD_set_self {dom : DominatorBits} {i : Nat} (h : i < dom.length) (t : Finset Nat) :
    (dom.set i t).getD i ∅ = t := by
  simp [List.getD_eq_getElem?_getD, h]

theorem getD_set_ne {dom : DominatorBits} {i j : Nat} (h : j ≠ i) (t : Finset Nat) :
    (dom.set i t).getD j ∅ = dom.getD j ∅ := by
  simp [List.getD_eq_getElem?_getD, List.getElem?_set_ne h.symm]

theorem initialDominators_inv (hc : Closed cfg) : SolverInv cfg (initialDominators cfg) := by
  have hlen : (initialDominators cfg).length = cfg.count := by simp [initialDominators]
  have hentry : (initialDominators cfg).getD cfg.entry ∅ = {cfg.entry} :=
    getD_set_self (by simpa using hc.entry) _
  have hother : ∀ i, i < cfg.count → i ≠ cfg.entry →
      (initialDominators cfg).getD i ∅ = Finset.range cfg.count := by
    intro i hi hne
    rw [initialDominators, getD_set_ne hne]
    simp [List.getD_eq_getElem?_getD, hi]
  have hbounded : ∀ i, (initialDominators cfg).getD i ∅ ⊆ Finset.range cfg.count := by
    intro i
    by_cases hi : i < cfg.count
    · by_cases hne : i = cfg.entry
      · rw [hne, hentry]
        simpa using hc.entry
      · rw [hother i hi hne]
    · have : (initialDominators cfg).getD i ∅ = ∅ := by
        rw [List.getD_eq_getElem?_getD, List.getElem?_eq_none (by omega)]
        rfl
      rw [this]
      exact Finset.empty_subset _
  refine ⟨hlen, hbounded, hentry, ?_, ?_⟩
  · intro i d hi hd hdom
    by_cases hne : i = cfg.entry
    · rw [hne, hentry, Finset.mem_singleton]
      rw [hne] at hdom
      exact hdom.of_root ⟨hc.entry, Or.inl rfl⟩
    · rw [hother i hi hne]
      exact Finset.mem_range.mpr hd
  · intro i hi hne d hd
    rw [hother i hi hne, Finset.mem_range]
    rw [mem_dominatorUpdate] at hd
    rcases hd with rfl | ⟨hp, hd⟩
    · exact hi
    · obtain ⟨p, hp⟩ := List.exists_mem_of_ne_nil _ hp
      exact Finset.mem_range.mp (hbounded p (hd p hp))

theorem dominatorUpdate_mono {dom dom' : DominatorBits}
    (h : ∀ i, dom'.getD i ∅ ⊆ dom.getD i ∅) (i : Nat) :
    dominatorUpdate cfg dom' i ⊆ dominatorUpdate cfg dom i := by
  intro d hd
  rw [mem_dominatorUpdate] at hd ⊢
  rcases hd with rfl | ⟨hne, hd⟩
  · exact Or.inl rfl
  · exact Or.inr ⟨hne, fun p hp => h p (hd p hp)⟩

theorem SolverInv.set {dom : DominatorBits} (h : SolverInv cfg dom) {i : Nat}
    (hi : i < cfg.count) (hne : i ≠ cfg.entry) :
    SolverInv cfg (dom.set i (dominatorUpdate cfg dom i)) := by
  have hlt : i < dom.length := by rw [h.length]; exact hi
  have hsub : ∀ j, (dom.set i (dominatorUpdate cfg dom i)).getD j ∅ ⊆ dom.getD j ∅ := by
    intro j
    by_cases hj : j = i
    · rw [hj, getD_set_self hlt]
      exact h.descends i hi hne
    · rw [getD_set_ne hj]
  refine ⟨by rw [List.length_set, h.length], fun j => (hsub j).trans (h.bounded j), ?_, ?_, ?_⟩
  · rw [getD_set_ne (fun e => hne e.symm), h.entry]
  · intro j d hj hd hdom
    by_cases hji : j = i
    · subst hji
      rw [getD_set_self hlt, mem_dominatorUpdate]
      by_cases hdj : d = j
      · exact Or.inl hdj
      · refine Or.inr ⟨fun hnil => hdj (hdom.of_root ⟨hj, Or.inr hnil⟩), fun p hp => ?_⟩
        have he : Edge cfg p j := hp
        exact h.above p d he.pred_lt hd ((hdom.pred he).resolve_left hdj)
    · rw [getD_set_ne hji]
      exact h.above j d hj hd hdom
  · intro j hj hje
    by_cases hji : j = i
    · subst hji
      rw [getD_set_self hlt]
      exact dominatorUpdate_mono hsub j
    · rw [getD_set_ne hji]
      exact (dominatorUpdate_mono hsub j).trans (h.descends j hj hje)

def weight (cfg : IrCfg) (dom : DominatorBits) : Nat :=
  ∑ i ∈ Finset.range cfg.count, (dom.getD i ∅).card

theorem weight_set {dom : DominatorBits} (h : SolverInv cfg dom) {i : Nat} (hi : i < cfg.count)
    (hne : i ≠ cfg.entry) (hch : dom.getD i ∅ ≠ dominatorUpdate cfg dom i) :
    weight cfg (dom.set i (dominatorUpdate cfg dom i)) < weight cfg dom := by
  have hlt : i < dom.length := by rw [h.length]; exact hi
  have hsub := h.descends i hi hne
  refine Finset.sum_lt_sum (fun j _ => ?_) ⟨i, Finset.mem_range.mpr hi, ?_⟩
  · by_cases hj : j = i
    · rw [hj, getD_set_self hlt]
      exact Finset.card_le_card hsub
    · rw [getD_set_ne hj]
  · rw [getD_set_self hlt]
    exact Finset.card_lt_card (Finset.ssubset_iff_subset_ne.mpr ⟨hsub, fun e => hch e.symm⟩)

/-- what a sweep over some of the blocks does -/
structure Swept (cfg : IrCfg) (dom : DominatorBits) (l : List Nat) (r : DominatorBits × Bool) :
    Prop where
  inv : SolverInv cfg r.1
  stable : r.2 = false → r.1 = dom ∧
    ∀ i ∈ l, i ≠ cfg.entry → dom.getD i ∅ = dominatorUpdate cfg dom i
  lower : r.2 = true → weight cfg r.1 < weight cfg dom

theorem dominatorSweep_aux {dom : DominatorBits} (h : SolverInv cfg dom) :
    ∀ l : List Nat, (∀ i ∈ l, i < cfg.count) →
      Swept cfg dom l (l.foldl (dominatorStep cfg) (dom, false)) := by
  intro l
  induction l using List.reverseRecOn with
  | nil => exact fun _ => ⟨h, fun _ => ⟨rfl, fun i hi => absurd hi List.not_mem_nil⟩,
      fun hf => absurd hf (by simp)⟩
  | append_singleton l i ih =>
    intro hl
    have hr := ih fun j hj => hl j (List.mem_append_left _ hj)
    have hi : i < cfg.count := hl i (by simp)
    rw [List.foldl_append, List.foldl_cons, List.foldl_nil]
    generalize l.foldl (dominatorStep cfg) (dom, false) = r at hr
    by_cases hie : i = cfg.entry
    · rw [dominatorStep, if_pos hie]
      refine ⟨hr.inv, fun hf => ⟨(hr.stable hf).1, fun j hj hje => ?_⟩, hr.lower⟩
      rcases List.mem_append.mp hj with hj | hj
      · exact (hr.stable hf).2 j hj hje
      · exact absurd ((List.mem_singleton.mp hj).trans hie) hje
    · by_cases hsame : r.1.getD i ∅ = dominatorUpdate cfg r.1 i
      · rw [dominatorStep, if_neg hie, if_pos hsame]
        refine ⟨hr.inv, fun hf => ⟨(hr.stable hf).1, fun j hj hje => ?_⟩, hr.lower⟩
        rcases List.mem_append.mp hj with hj | hj
        · exact (hr.stable hf).2 j hj hje
        · rw [List.mem_singleton.mp hj, ← (hr.stable hf).1]
          exact hsame
      · rw [dominatorStep, if_neg hie, if_neg hsame]
        have hw := weight_set hr.inv hi hie hsame
        refine ⟨hr.inv.set hi hie, fun hf => absurd hf (by simp), fun _ => ?_⟩
        cases hc2 : r.2 with
        | false => rwa [(hr.stable hc2).1] at hw ⊢
        | true => exact hw.trans (hr.lower hc2)

theorem solveDominators_spec (k : Nat) {dom : DominatorBits} (h : SolverInv cfg dom)
    (hk : weight cfg dom < k) : ∃ r, solveDominators cfg k dom = some r ∧ SolverInv cfg r ∧
      ∀ i, i < cfg.count → i ≠ cfg.entry → r.getD i ∅ = dominatorUpdate cfg r i := by
  induction k generalizing dom with
  | zero => exact absurd hk (Nat.not_lt_zero _)
  | succ k ih =>
    have hs := dominatorSweep_aux h (List.range cfg.count) fun i hi => List.mem_range.mp hi
    rw [solveDominators]
    show ∃ r, (if (dominatorSweep cfg dom).2 = true then
      solveDominators cfg k (dominatorSweep cfg dom).1 else some (dominatorSweep cfg dom).1)
        = some r ∧ _
    rw [dominatorSweep]
    generalize List.foldl (dominatorStep cfg) (dom, false) (List.range cfg.count) = r at hs
    cases hr : r.2 with
    | true =>
      rw [if_pos rfl]
      exact ih hs.inv (by have := hs.lower hr; omega)
    | false =>
      rw [if_neg (by simp)]
      obtain ⟨he, hst⟩ := hs.stable hr
      refine ⟨r.1, rfl, hs.inv, fun i hi hie => ?_⟩
      rw [he]
      exact hst i (List.mem_range.mpr hi) hie

theorem weight_le {dom : DominatorBits} (h : SolverInv cfg dom) :
    weight cfg dom ≤ cfg.count * cfg.count := by
  have : weight cfg dom ≤ ∑ _i ∈ Finset.range cfg.count, cfg.count :=
    Finset.sum_le_sum fun i _ => by
      have := Finset.card_le_card (h.bounded i)
      rwa [Finset.card_range] at this
  simpa using this

/-- the bit sets are the dominators of the blocks that a root reaches -/
structure Solved (cfg : IrCfg) (dom : DominatorBits) : Prop where
  bounded : ∀ i, dom.getD i ∅ ⊆ Finset.range cfg.count
  iff : ∀ i d, Reach cfg i → (dominates dom d i ↔ Dom cfg d i)

/-- **The solver ends, with the dominators.** -/
theorem computeDominators_spec (hc : Closed cfg) :
    ∃ dom, computeDominators cfg = some dom ∧ Solved cfg dom := by
  have h0 := initialDominators_inv hc
  obtain ⟨dom, hdom, hinv, hfix⟩ := solveDominators_spec (cfg.count * cfg.count + 1) h0
    (Nat.lt_succ_of_le (weight_le h0))
  refine ⟨dom, hdom, hinv.bounded, fun i d hi => ⟨fun hd l hl => ?_, fun hd => ?_⟩⟩
  · refine mem_of_postfix (D := fun d i => d ∈ dom.getD i ∅) ?_ ?_ hl hd
    · rintro r d ⟨hr, rfl | hnil⟩ hd
      · rw [hinv.entry] at hd
        exact Finset.mem_singleton.mp hd
      · by_cases hre : r = cfg.entry
        · rw [hre, hinv.entry] at hd
          rw [hre]
          exact Finset.mem_singleton.mp hd
        · rw [hfix r hr hre, mem_dominatorUpdate] at hd
          rcases hd with hd | hd
          · exact hd
          · exact absurd hnil hd.1
    · intro p n d hn he hd
      have hlt : n < cfg.count := Edge.lt hc he
      have hne : n ≠ cfg.entry := fun e => hn ⟨hlt, Or.inl e⟩
      rw [hfix n hlt hne, mem_dominatorUpdate] at hd
      exact hd.imp id fun h => h.2 p he
  · obtain ⟨l, hl⟩ := hi
    exact hinv.above i d (walk_lt hc hl i hl.mem) (hd.lt hc ⟨l, hl⟩) hd

/-! ## immediate dominators -/

theorem largestCandidate_spec (dom : DominatorBits) (candidates : List Nat) :
    match largestCandidate dom candidates with
    | none => candidates = []
    | some b => b ∈ candidates ∧
        ∀ c ∈ candidates, (dom.getD c ∅).card ≤ (dom.getD b ∅).card := by
  unfold largestCandidate
  induction candidates using List.reverseRecOn with
  | nil => rfl
  | append_singleton l c ih =>
    rw [List.foldl_append, List.foldl_cons, List.foldl_nil]
    generalize List.foldl _ none l = best at ih ⊢
    cases best with
    | none =>
      rw [show l = [] from ih]
      simp
    | some b =>
      obtain ⟨hb, hmax⟩ := ih
      by_cases hlt : (dom.getD b ∅).card < (dom.getD c ∅).card
      · simp only [if_pos hlt, List.mem_append, List.mem_singleton, or_true, true_and]
        rintro d (hd | rfl)
        · exact (hmax d hd).trans hlt.le
        · exact le_refl _
      · simp only [if_neg hlt, List.mem_append, List.mem_singleton, hb, true_or, true_and]
        rintro d (hd | rfl)
        · exact hmax d hd
        · exact Nat.le_of_not_lt hlt

section
variable {dom : DominatorBits} (hc : Closed cfg) (hs : Solved cfg dom)
include hc hs

theorem mem_candidates {i c : Nat} (hi : Reach cfg i) :
    c ∈ dominatorCandidates cfg.count dom i ↔ SDom cfg c i := by
  simp only [dominatorCandidates, List.mem_filter, List.mem_range, decide_eq_true_eq, hs.iff i c hi]
  exact ⟨fun h => h.2, fun h => ⟨Dom.lt hc hi h.1, h⟩⟩

omit hc in
theorem closest_of_largest {i b c : Nat} (hi : Reach cfg i)
    (hb : SDom cfg b i) (hcd : SDom cfg c i)
    (hmax : (dom.getD c ∅).card ≤ (dom.getD b ∅).card) : Dom cfg c b := by
  have hrb := hb.1.rooted hi
  have hrc := hcd.1.rooted hi
  rcases hcd.1.total hi hb.1 with h | h
  · exact h
  · have hsub : dom.getD b ∅ ⊆ dom.getD c ∅ := by
      intro d hd
      exact (hs.iff c d hrc).mpr (((hs.iff b d hrb).mp hd).trans h)
    have heq := Finset.eq_of_subset_of_card_le hsub hmax
    have hcc : c ∈ dom.getD b ∅ := by
      rw [heq]
      exact (hs.iff c c hrc).mpr (Dominates.refl c)
    exact (hs.iff b c hrb).mp hcc

theorem immediateDominator_spec {i : Nat} (hi : Reach cfg i) :
    match immediateDominator cfg.count dom i with
    | none => ∀ d, ¬ SDom cfg d i
    | some b => SDom cfg b i ∧ ∀ d, SDom cfg d i → Dom cfg d b := by
  unfold immediateDominator
  have hl := largestCandidate_spec dom (dominatorCandidates cfg.count dom i)
  split at hl
  · rename_i heq
    simp only [heq]
    intro d hd
    rw [← mem_candidates hc hs hi, hl] at hd
    exact List.not_mem_nil hd
  · rename_i b heq
    simp only [heq]
    obtain ⟨hb, hmax⟩ := hl
    rw [mem_candidates hc hs hi] at hb
    have hclose : ∀ d, SDom cfg d i → Dom cfg d b := fun d hd =>
      closest_of_largest hs hi hb hd (hmax d ((mem_candidates hc hs hi).mpr hd))
    have hrb := hb.1.rooted hi
    have hcheck : isImmediateDominator dom i (dominatorCandidates cfg.count dom i) b = true := by
      simp only [isImmediateDominator, Bool.and_eq_true, decide_eq_true_eq, List.all_eq_true]
      refine ⟨Finset.ext fun d => ?_, fun c hcand => ?_⟩
      · rw [Finset.mem_erase]
        constructor
        · rintro ⟨hne, hd⟩
          exact (hs.iff b d hrb).mpr (hclose d ⟨(hs.iff i d hi).mp hd, hne⟩)
        · intro hd
          have hdb := (hs.iff b d hrb).mp hd
          refine ⟨fun e => ?_, (hs.iff i d hi).mpr (hdb.trans hb.1)⟩
          rw [e] at hdb
          exact hb.2 (Dominates.antisymm hi hdb hb.1).symm
      · by_cases hcb : c = b
        · exact Or.inl hcb
        · refine Or.inr fun hdom => hcb ?_
          have hcs := (mem_candidates hc hs hi).mp hcand
          have hrc := hcs.1.rooted hi
          exact Dominates.antisymm hrc (hclose c hcs) ((hs.iff c b hrc).mp hdom)
    simp only [hcheck, if_true]
    exact ⟨hb, hclose⟩

omit hs in
theorem idomAt_eq {i : Nat} (hi : Reach cfg i) :
    idomAt (computeImmediateDominators cfg dom) i = immediateDominator cfg.count dom i := by
  obtain ⟨l, hl⟩ := hi
  have hlt := walk_lt hc hl i hl.mem
  simp [idomAt, computeImmediateDominators, List.getD_eq_getElem?_getD, hlt]

/-- **The chosen candidates are the immediate dominators.** -/
theorem immediate_spec : Immediate (IsRoot cfg) (Edge cfg)
    (idomAt (computeImmediateDominators cfg dom)) := by
  refine ⟨fun {n i} hn h => ?_, fun {n i d} hn h hd => ?_, fun {n d} hn h hd => ?_⟩
  · have hspec := immediateDominator_spec hc hs hn
    rw [← idomAt_eq hc hn, h] at hspec
    exact hspec.1
  · have hspec := immediateDominator_spec hc hs hn
    rw [← idomAt_eq hc hn, h] at hspec
    exact hspec.2 d hd
  · have hspec := immediateDominator_spec hc hs hn
    rw [← idomAt_eq hc hn, h] at hspec
    exact hspec d hd

end

/-! ## frontiers -/

/-- `b` is in the frontier of `i` -/
def InFrontier (df : Frontiers) (i b : Nat) : Prop := b ∈ df.getD i []

theorem Frontiers.length_add (df : Frontiers) (i b : Nat) : (df.add i b).length = df.length := by
  simp [Frontiers.add]

theorem Frontiers.getD_add_self (df : Frontiers) {i : Nat} (b : Nat) (hi : i < df.length) :
    (df.add i b).getD i [] = if b ∈ df.getD i [] then df.getD i [] else df.getD i [] ++ [b] := by
  simp [Frontiers.add, List.getD_eq_getElem?_getD, hi]

theorem Frontiers.getD_add_ne (df : Frontiers) {i j : Nat} (b : Nat) (h : i ≠ j) :
    (df.add i b).getD j [] = df.getD j [] := by
  simp [Frontiers.add, List.getD_eq_getElem?_getD, h]

theorem Frontiers.add_of_le (df : Frontiers) {i : Nat} (b : Nat) (hi : df.length ≤ i) :
    df.add i b = df := by
  rw [Frontiers.add, List.modify_eq_self hi]

theorem Frontiers.inFrontier_add (df : Frontiers) (i b : Nat) (hi : i < df.length) :
    InFrontier (df.add i b) i b := by
  rw [InFrontier, df.getD_add_self b hi]
  by_cases h : b ∈ df.getD i []
  · rwa [if_pos h]
  · rw [if_neg h]
    exact List.mem_append_right _ List.mem_cons_self

theorem Frontiers.mem_add (df : Frontiers) (i b j c : Nat) (h : InFrontier (df.add i b) j c) :
    (j = i ∧ c = b) ∨ InFrontier df j c := by
  by_cases hij : i = j
  · subst hij
    by_cases hi : i < df.length
    · rw [InFrontier, df.getD_add_self b hi] at h
      split at h
      · exact Or.inr h
      · rcases List.mem_append.mp h with h | h
        · exact Or.inr h
        · exact Or.inl ⟨rfl, List.mem_singleton.mp h⟩
    · rw [df.add_of_le b (Nat.le_of_not_lt hi)] at h
      exact Or.inr h
  · rw [InFrontier, df.getD_add_ne b hij] at h
    exact Or.inr h

theorem Frontiers.le_add (df : Frontiers) (i b j c : Nat) (h : InFrontier df j c) :
    InFrontier (df.add i b) j c := by
  by_cases hij : i = j
  · subst hij
    by_cases hi : i < df.length
    · rw [InFrontier, df.getD_add_self b hi]
      split
      · exact h
      · exact List.mem_append_left _ h
    · rwa [df.add_of_le b (Nat.le_of_not_lt hi)]
  · rwa [InFrontier, df.getD_add_ne b hij]

/-- a join is only put into the frontiers of blocks that the runner meets on its climb -/
theorem frontierWalk_new {dom : DominatorBits} {idom : List (Option Nat)} {i runner k : Nat}
    {df df' : Frontiers} (h : frontierWalk dom idom i k runner df = some df') :
    ∀ j c, InFrontier df' j c → InFrontier df j c ∨ (c = i ∧
      Relation.ReflTransGen (fun a b => idomAt idom a = some b) runner j ∧
        (¬ dominates dom j i ∨ j = i)) := by
  induction k generalizing runner df with
  | zero => cases h
  | succ k ih =>
    rw [frontierWalk] at h
    split at h
    · next hcond =>
      dsimp only at h
      have hadd : ∀ j c, InFrontier (df.add runner i) j c → InFrontier df j c ∨ (c = i ∧
          Relation.ReflTransGen (fun a b => idomAt idom a = some b) runner j ∧
            (¬ dominates dom j i ∨ j = i)) := fun j c hjc => by
        obtain ⟨rfl, rfl⟩ | hjc := df.mem_add runner i j c hjc
        · exact .inr ⟨rfl, .refl, hcond⟩
        · exact .inl hjc
      split at h
      · cases h
        exact hadd
      · next r hid =>
        split at h
        · cases h
          exact hadd
        · intro j c hjc
          obtain hjc | ⟨rfl, hclimb, hout⟩ := ih h j c hjc
          · exact hadd j c hjc
          · exact .inr ⟨rfl, .head hid hclimb, hout⟩
    · cases h
      exact fun j c hjc => Or.inl hjc

theorem foldlM_keeps {α β : Type*} {step : β → α → Option β} {P : β → Prop} {l : List α}
    (hstep : ∀ x ∈ l, ∀ b b', step b x = some b' → P b → P b') {b b' : β}
    (h : l.foldlM step b = some b') (hb : P b) : P b' := by
  induction l generalizing b with
  | nil =>
    cases h
    exact hb
  | cons x l ih =>
    rw [List.foldlM_cons] at h
    cases hx : step b x with
    | none =>
      rw [hx] at h
      cases h
    | some c =>
      rw [hx] at h
      exact ih (fun y hy => hstep y (List.mem_cons_of_mem x hy)) h
        (hstep x List.mem_cons_self b c hx hb)

/-- a block of the function with two predecessor edges -/
def IsJoin (cfg : IrCfg) (b : Nat) : Prop := b < cfg.count ∧ 2 ≤ (cfg.predecessors b).length

/-- join `i` is in the dominance frontier of `m` -/
def DominanceFrontier (cfg : IrCfg) (m i : Nat) : Prop :=
  IsJoin cfg i ∧ ∃ p ∈ cfg.predecessors i, Dom cfg m p ∧ ¬ SDom cfg m i

/-- an extension of the frontiers by joins -/
structure Extends (cfg : IrCfg) (df df' : Frontiers) : Prop where
  length : df'.length = df.length
  le : ∀ j c, InFrontier df j c → InFrontier df' j c
  new : ∀ j c, InFrontier df' j c → InFrontier df j c ∨ IsJoin cfg c

theorem Extends.refl (df : Frontiers) : Extends cfg df df :=
  ⟨rfl, fun _ _ h => h, fun _ _ h => Or.inl h⟩

theorem Extends.trans {df₁ df₂ df₃ : Frontiers} (h₁ : Extends cfg df₁ df₂)
    (h₂ : Extends cfg df₂ df₃) : Extends cfg df₁ df₃ :=
  ⟨h₂.length.trans h₁.length, fun j c h => h₂.le j c (h₁.le j c h),
    fun j c h => (h₂.new j c h).elim (h₁.new j c) Or.inr⟩

theorem Extends.add (df : Frontiers) {i b : Nat} (hb : IsJoin cfg b) :
    Extends cfg df (df.add i b) :=
  ⟨df.length_add i b, fun j c h => df.le_add i b j c h, fun j c hjc =>
    (df.mem_add i b j c hjc).elim (fun e => Or.inr (e.2 ▸ hb)) Or.inl⟩

section
variable {dom : DominatorBits} (hc : Closed cfg) (hs : Solved cfg dom)
  {idom : List (Option Nat)} (hI : Immediate (IsRoot cfg) (Edge cfg) (idomAt idom))
include hc hs hI

theorem frontierWalk_spec {i : Nat} (hi : Reach cfg i) (hlt : IsJoin cfg i) (k : Nat) :
    ∀ (runner : Nat) (df : Frontiers), Reach cfg runner → (dom.getD runner ∅).card < k →
      df.length = cfg.count →
      ∃ df', frontierWalk dom idom i k runner df = some df' ∧ Extends cfg df df' ∧
        ∀ m, Dom cfg m runner → ¬ SDom cfg m i → InFrontier df' m i := by
  induction k with
  | zero => exact fun runner df _ h => absurd h (Nat.not_lt_zero _)
  | succ k ih =>
    intro runner df hr hk hlen
    have hrlt : runner < df.length := by
      rw [hlen]
      exact Dom.lt hc hr (Dominates.refl runner)
    rw [frontierWalk]
    by_cases hcond : ¬ dominates dom runner i ∨ runner = i
    · rw [if_pos hcond]
      cases hid : idomAt idom runner with
      | none =>
        refine ⟨df.add runner i, rfl, Extends.add df hlt, fun m hm hns => ?_⟩
        by_cases hmr : m = runner
        · rw [hmr]
          exact df.inFrontier_add runner i hrlt
        · exact absurd ⟨hm, hmr⟩ (hI.none hr hid)
      | some r =>
        have hsd := hI.strict hr hid
        have hne : r ≠ runner := hsd.2
        have hrr := hsd.1.rooted hr
        have hcard : (dom.getD r ∅).card < (dom.getD runner ∅).card := by
          refine Finset.card_lt_card (Finset.ssubset_iff_of_subset ?_ |>.mpr ⟨runner, ?_, ?_⟩)
          · intro d hd
            exact (hs.iff runner d hr).mpr (((hs.iff r d hrr).mp hd).trans hsd.1)
          · exact (hs.iff runner runner hr).mpr (Dominates.refl runner)
          · intro hd
            exact hne (Dominates.antisymm hrr hsd.1 ((hs.iff r runner hrr).mp hd))
        simp only [if_neg hne]
        obtain ⟨df', hdf', hext, hall⟩ := ih r (df.add runner i) hrr (by omega)
          (by rw [df.length_add, hlen])
        refine ⟨df', hdf', (Extends.add df hlt).trans hext, fun m hm hns => ?_⟩
        by_cases hmr : m = runner
        · rw [hmr]
          exact hext.le _ _ (df.inFrontier_add runner i hrlt)
        · exact hall m (hI.closest hr hid ⟨hm, hmr⟩) hns
    · rw [if_neg hcond]
      rw [not_or, not_not] at hcond
      have hrun : SDom cfg runner i := ⟨(hs.iff i runner hi).mp hcond.1, hcond.2⟩
      refine ⟨df, rfl, Extends.refl df, fun m hm hns => absurd ⟨hm.trans hrun.1, ?_⟩ hns⟩
      intro e
      rw [e] at hm
      exact hrun.2 (Dominates.antisymm hr hrun.1 hm)

/-- the frontiers hold the joins below each block so far -/
theorem frontierAt_spec (hall : ∀ i, i < cfg.count → Reach cfg i) {i : Nat} (hlt : i < cfg.count)
    (df : Frontiers) (hlen : df.length = cfg.count) :
    ∃ df', frontierAt cfg dom idom df i = some df' ∧ Extends cfg df df' ∧
      (2 ≤ (cfg.predecessors i).length → ∀ p ∈ cfg.predecessors i, ∀ m, Dom cfg m p →
        ¬ SDom cfg m i → InFrontier df' m i) := by
  unfold frontierAt
  by_cases h2 : (cfg.predecessors i).length < 2
  · exact ⟨df, by simp [h2], Extends.refl df, fun h => absurd h (by omega)⟩
  · simp only [h2, if_false]
    have hp : ∀ p ∈ cfg.predecessors i, p < cfg.count := fun p hp => Edge.pred_lt hp
    suffices H : ∀ preds : List Nat, (∀ p ∈ preds, p < cfg.count) → ∃ df', preds.foldlM
        (fun df p => frontierWalk dom idom i (cfg.count + 1) p df) df = some df' ∧
        Extends cfg df df' ∧ ∀ p ∈ preds, ∀ m, Dom cfg m p → ¬ SDom cfg m i →
          InFrontier df' m i by
      obtain ⟨df', h1, h2, h3⟩ := H (cfg.predecessors i) hp
      exact ⟨df', h1, h2, fun _ => h3⟩
    intro preds
    induction preds generalizing df with
    | nil => exact fun _ => ⟨df, rfl, Extends.refl df, fun p hp => absurd hp List.not_mem_nil⟩
    | cons p ps ih =>
      intro hp
      have hpl := hp p List.mem_cons_self
      have hcard : (dom.getD p ∅).card < cfg.count + 1 := by
        have := Finset.card_le_card (hs.bounded p)
        rw [Finset.card_range] at this
        omega
      obtain ⟨df₁, hdf₁, hext₁, hall₁⟩ := frontierWalk_spec hc hs hI (hall i hlt)
        ⟨hlt, Nat.le_of_not_lt h2⟩
        (cfg.count + 1) p df (hall p hpl) hcard hlen
      obtain ⟨df₂, hdf₂, hext₂, hall₂⟩ := ih df₁ (hext₁.length.trans hlen)
        fun q hq => hp q (List.mem_cons_of_mem _ hq)
      refine ⟨df₂, ?_, hext₁.trans hext₂, fun q hq m hm hns => ?_⟩
      · rw [List.foldlM_cons, hdf₁]
        exact hdf₂
      · rcases List.mem_cons.mp hq with rfl | hq
        · exact hext₂.le _ _ (hall₁ m hm hns)
        · exact hall₂ q hq m hm hns

/-- **The runner loops end, with every join in the frontiers of the blocks it closes.** -/
theorem frontier_spec (hall : ∀ i, i < cfg.count → Reach cfg i) :
    ∃ df, computeDominanceFrontier cfg dom idom = some df ∧ df.length = cfg.count ∧
      (∀ i b, InFrontier df i b → IsJoin cfg b) ∧
      ∀ i p m, 2 ≤ (cfg.predecessors i).length → p ∈ cfg.predecessors i → Dom cfg m p →
        ¬ SDom cfg m i → InFrontier df m i := by
  have main : ∀ l : List Nat, (∀ i ∈ l, i < cfg.count) → ∀ df : Frontiers,
      df.length = cfg.count → ∃ df', l.foldlM (frontierAt cfg dom idom) df = some df' ∧
        Extends cfg df df' ∧ ∀ i ∈ l, 2 ≤ (cfg.predecessors i).length →
          ∀ p ∈ cfg.predecessors i, ∀ m, Dom cfg m p → ¬ SDom cfg m i →
            InFrontier df' m i := by
    intro l
    induction l with
    | nil => exact fun _ df _ => ⟨df, rfl, Extends.refl df, fun i hi => absurd hi List.not_mem_nil⟩
    | cons i l ih =>
      intro hl df hlen
      obtain ⟨df₁, hdf₁, hext₁, hall₁⟩ := frontierAt_spec hc hs hI hall
        (hl i List.mem_cons_self) df hlen
      obtain ⟨df₂, hdf₂, hext₂, hall₂⟩ := ih (fun j hj => hl j (List.mem_cons_of_mem _ hj)) df₁
        (hext₁.length.trans hlen)
      refine ⟨df₂, ?_, hext₁.trans hext₂, fun j hj h2 p hp m hm hns => ?_⟩
      · rw [List.foldlM_cons, hdf₁]
        exact hdf₂
      · rcases List.mem_cons.mp hj with rfl | hj
        · exact hext₂.le _ _ (hall₁ h2 p hp m hm hns)
        · exact hall₂ j hj h2 p hp m hm hns
  have hempty : ∀ j c, ¬ InFrontier (List.replicate cfg.count []) j c := by
    intro j c h
    simp only [InFrontier, List.getD_eq_getElem?_getD, List.getElem?_replicate] at h
    split at h <;> simp at h
  obtain ⟨df, hdf, hext, hfr⟩ := main (List.range cfg.count) (fun i hi => List.mem_range.mp hi)
    (List.replicate cfg.count []) (by simp)
  refine ⟨df, hdf, by rw [hext.length]; simp,
    fun j c h => (hext.new j c h).resolve_left (hempty j c), fun i p m h2 hp hm hns => ?_⟩
  have he : Edge cfg p i := hp
  exact hfr i (List.mem_range.mpr (Edge.lt hc he)) h2 p hp m hm hns

omit hc hs in
theorem dom_of_climb {a b : Nat} (ha : Reach cfg a)
    (h : Relation.ReflTransGen (fun a b => idomAt idom a = some b) a b) : Dom cfg b a := by
  induction h with
  | refl => exact Dominates.refl a
  | tail _ hbc ih => exact (hI.strict (ih.rooted ha) hbc).1.trans ih

omit hc in
/-- **The frontiers hold nothing else.** -/
theorem frontier_sound (hall : ∀ i, i < cfg.count → Reach cfg i) {df : Frontiers}
    (h : computeDominanceFrontier cfg dom idom = some df) :
    ∀ m i, InFrontier df m i → DominanceFrontier cfg m i := by
  unfold computeDominanceFrontier at h
  let P (df : Frontiers) : Prop := ∀ m i, InFrontier df m i → DominanceFrontier cfg m i
  refine foldlM_keeps (P := P) (fun i hi df df' hstep hdf => ?_) h fun m i hmi => ?_
  · have hlt : i < cfg.count := List.mem_range.mp hi
    unfold frontierAt at hstep
    dsimp only at hstep
    split at hstep
    · cases hstep
      exact hdf
    · next hmany =>
      refine foldlM_keeps (P := P) (fun p hp df df' hwalk hdf m c hmc => ?_) hstep hdf
      obtain hmc | ⟨rfl, hclimb, hout⟩ := frontierWalk_new hwalk m c hmc
      · exact hdf m c hmc
      · refine ⟨⟨hlt, Nat.le_of_not_lt hmany⟩, p, hp,
          dom_of_climb hI (hall p (Edge.pred_lt hp)) hclimb, fun hsdom => ?_⟩
        exact hout.elim (fun hnot => hnot ((hs.iff c m (hall c hlt)).mpr hsdom.1)) hsdom.2
  · simp only [InFrontier, List.getD_eq_getElem?_getD, List.getElem?_replicate] at hmi
    split at hmi <;> simp at hmi

end

end

end DolTranslator.Ssa
