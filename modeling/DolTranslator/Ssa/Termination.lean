import DolTranslator.FlowGraph.WorkStack
import DolTranslator.Ssa.Preservation

/-!
# The conversion on graphs with unreachable cycles

The roots of the graph are the entry and the blocks without predecessors.  A block that no root
reaches keeps the dominator set that holds every block.

* `idomAt_pair`, `idomAt_many`   the immediate dominators of such blocks: two of them are each
  other's, of three or more none has one;
* `walkEnds_iff`   when the runner of a join stops;
* `halts_renameLoop`   the renaming always ends;
* `conversionEnds_iff`   the conversion ends, unless two such blocks lead to a join.
-/

namespace DolTranslator.Ssa
open FlowGraph

/-! ## the loops without a bound -/

/-- the runner of join `i` that starts at `runner` stops -/
def WalkEnds (dom : DominatorBits) (idom : List (Option Nat)) (i runner : Nat) : Prop :=
  ∃ k, ∀ df, (frontierWalk dom idom i k runner df).isSome

/-- one round of `renameLoop` -/
def renameStep (f : IrFunction) (cfg : IrCfg) (idom : List (Option Nat)) :
    WorkItem → RenameWork → Option (List WorkItem × RenameWork)
  | .leave i pops, w => (popVersions w.state.versionStacks pops).map fun versionStacks =>
    ([], { w with state := { w.state with versionStacks := versionStacks },
                  active := w.active.erase i })
  | .visit i, w =>
    if i ∈ w.active then none
    else
      let r := renameBlock f cfg i w
      some ((domChildren idom i).map .visit ++ [.leave i r.1], r.2)

/-- every loop of the conversion ends -/
structure ConversionEnds (f : IrFunction) (cfg : IrCfg) : Prop where
  dominators : ∃ dom, computeDominators cfg = some dom
  frontier : ∀ dom, computeDominators cfg = some dom → ∀ i p, IsJoin cfg i →
    p ∈ cfg.predecessors i → WalkEnds dom (computeImmediateDominators cfg dom) i p
  phis : ∀ dom df, computeDominators cfg = some dom →
    computeDominanceFrontier cfg dom (computeImmediateDominators cfg dom) = some df →
    (insertPhiNodes f df).isSome
  renames : ∀ dom, computeDominators cfg = some dom → ∀ (withPhis : IrFunction) (w : RenameWork),
    Halts (renameStep withPhis cfg (computeImmediateDominators cfg dom)) ([.visit cfg.entry], w)

/-- exactly two blocks are reached from no root, and one of them leads to a join outside -/
def Trapped (cfg : IrCfg) : Prop :=
  ∃ u v, u ≠ v ∧ (∀ i, i < cfg.count ∧ ¬ Reach cfg i ↔ i = u ∨ i = v) ∧
    ∃ j, Reach cfg j ∧ IsJoin cfg j ∧ u ∈ cfg.predecessors j

section
variable {cfg : IrCfg}

/-! ## blocks that no root reaches -/

variable {dom : DominatorBits} {i : Nat}

/-- nothing cuts such a block off: its set is never made smaller -/
theorem getD_of_not_reach (hc : Closed cfg)
    (hdom : computeDominators cfg = some dom) (hi : i < cfg.count)
    (hr : ¬ Reach cfg i) : dom.getD i ∅ = Finset.range cfg.count := by
  have h0 := initialDominators_inv hc
  obtain ⟨dom', hdom', hinv, -⟩ := solveDominators_spec (cfg.count * cfg.count + 1) h0
    (Nat.lt_succ_of_le (weight_le h0))
  have he : dom' = dom := Option.some.inj (hdom'.symm.trans hdom)
  rw [he] at hinv
  apply Finset.Subset.antisymm (hinv.bounded i)
  intro d hd
  apply hinv.above i d hi (Finset.mem_range.mp hd)
  intro l hl
  exact absurd hl.rooted hr

theorem mem_dominatorCandidates {n c : Nat} :
    c ∈ dominatorCandidates n dom i ↔ c < n ∧ dominates dom c i ∧ c ≠ i := by
  rw [dominatorCandidates, List.mem_filter, List.mem_range, decide_eq_true_eq]

theorem mem_of_immediateDominator {n r : Nat}
    (h : immediateDominator n dom i = some r) : r < n ∧ dominates dom r i ∧ r ≠ i := by
  rw [← mem_dominatorCandidates]
  unfold immediateDominator at h
  have hl := largestCandidate_spec dom (dominatorCandidates n dom i)
  dsimp only at h
  split at h
  · cases h
  · rename_i best hbest
    rw [hbest] at hl
    split at h
    · cases h
      exact hl.1
    · exact List.mem_of_find?_eq_some h

theorem idomAt_of_lt (hi : i < cfg.count) :
    idomAt (computeImmediateDominators cfg dom) i = immediateDominator cfg.count dom i := by
  simp [idomAt, computeImmediateDominators, List.getD_eq_getElem?_getD, hi]

/-- what the solver leaves: the dominators, and full sets where no root reaches -/
structure Filled (cfg : IrCfg) (dom : DominatorBits) : Prop where
  closed : Closed cfg
  solved : Solved cfg dom
  full : ∀ i, i < cfg.count → ¬ Reach cfg i → dom.getD i ∅ = Finset.range cfg.count

theorem Filled.of_compute (hc : Closed cfg)
    (hdom : computeDominators cfg = some dom) : Filled cfg dom := by
  obtain ⟨dom', hdom', hs⟩ := computeDominators_spec hc
  have he : dom' = dom := Option.some.inj (hdom'.symm.trans hdom)
  rw [he] at hs
  exact ⟨hc, hs, fun i hi hr => getD_of_not_reach hc hdom hi hr⟩

variable {dom : DominatorBits} (hf : Filled cfg dom)
include hf

theorem Filled.dominates {d : Nat} (hi : i < cfg.count) (hr : ¬ Reach cfg i)
    (hd : d < cfg.count) : dominates dom d i := by
  show d ∈ dom.getD i ∅
  rw [hf.full i hi hr]
  exact Finset.mem_range.mpr hd

/-- a block that a root reaches is dominated by such blocks only -/
theorem Filled.reach_of_dominates {d : Nat} (hi : Reach cfg i)
    (hd : Ssa.dominates dom d i) : Reach cfg d :=
  ((hf.solved.iff i d hi).mp hd).rooted hi

variable {v : Nat}

/-- beside another such block, only the exhaustive search is left -/
theorem Filled.immediateDominator_eq (hi : i < cfg.count) (hir : ¬ Reach cfg i)
    (hv : v < cfg.count) (hvr : ¬ Reach cfg v) (hne : v ≠ i) :
    immediateDominator cfg.count dom i =
      resolveImmediateDominatorExhaustive dom (dominatorCandidates cfg.count dom i) := by
  have hcand : v ∈ dominatorCandidates cfg.count dom i :=
    mem_dominatorCandidates.mpr ⟨hv, hf.dominates hi hir hv, hne⟩
  have hl := largestCandidate_spec dom (dominatorCandidates cfg.count dom i)
  unfold immediateDominator
  cases hbest : largestCandidate dom (dominatorCandidates cfg.count dom i) with
  | none =>
    rw [hbest] at hl
    rw [show dominatorCandidates cfg.count dom i = [] from hl] at hcand
    exact absurd hcand List.not_mem_nil
  | some best =>
    rw [hbest] at hl
    -- the largest set is the full one, which holds the block itself
    have hcard := hl.2 v hcand
    rw [hf.full v hv hvr] at hcard
    have hfull : dom.getD best ∅ = Finset.range cfg.count :=
      Finset.eq_of_subset_of_card_le (hf.solved.bounded best) hcard
    have hcheck : isImmediateDominator dom i (dominatorCandidates cfg.count dom i) best = false := by
      apply Bool.eq_false_iff.mpr
      intro h
      have heq := of_decide_eq_true (Bool.and_eq_true_iff.mp h).1
      have hmem : i ∈ (dom.getD i ∅).erase i := by
        rw [heq, hfull]
        exact Finset.mem_range.mpr hi
      exact absurd rfl (Finset.mem_erase.mp hmem).1
    dsimp only
    rw [hbest]
    dsimp only
    rw [hcheck]
    rfl

theorem Filled.idomAt_many {w : Nat} (hi : i < cfg.count) (hir : ¬ Reach cfg i)
    (hv : v < cfg.count) (hvr : ¬ Reach cfg v) (hw : w < cfg.count) (hwr : ¬ Reach cfg w)
    (hvi : v ≠ i) (hwi : w ≠ i) (hvw : v ≠ w) :
    idomAt (computeImmediateDominators cfg dom) i = none := by
  have hmem : ∀ x, x < cfg.count → x ≠ i → x ∈ dominatorCandidates cfg.count dom i :=
    fun x hx hxi => mem_dominatorCandidates.mpr ⟨hx, hf.dominates hi hir hx, hxi⟩
  rw [idomAt_of_lt hi, hf.immediateDominator_eq hi hir hv hvr hvi,
    resolveImmediateDominatorExhaustive, List.find?_eq_none]
  intro c hc hall
  have hclt := (mem_dominatorCandidates.mp hc).1
  rw [List.all_eq_true] at hall
  have hnever : ∀ x, x < cfg.count → ¬ Reach cfg x → x ≠ i → x = c := by
    intro x hx hxr hxi
    rcases of_decide_eq_true (hall x (hmem x hx hxi)) with h | h
    · exact h
    · exact absurd (hf.dominates hx hxr hclt) h
  exact hvw ((hnever v hv hvr hvi).trans (hnever w hw hwr hwi).symm)

theorem Filled.idomAt_pair (hi : i < cfg.count) (hir : ¬ Reach cfg i)
    (hv : v < cfg.count) (hvr : ¬ Reach cfg v) (hne : v ≠ i)
    (honly : ∀ x, x < cfg.count → ¬ Reach cfg x → x = i ∨ x = v) :
    idomAt (computeImmediateDominators cfg dom) i = some v := by
  have hcand : v ∈ dominatorCandidates cfg.count dom i :=
    mem_dominatorCandidates.mpr ⟨hv, hf.dominates hi hir hv, hne⟩
  rw [idomAt_of_lt hi, hf.immediateDominator_eq hi hir hv hvr hne,
    resolveImmediateDominatorExhaustive]
  cases hfind : (dominatorCandidates cfg.count dom i).find? fun c =>
      (dominatorCandidates cfg.count dom i).all fun o =>
        decide (o = c ∨ ¬ Ssa.dominates dom c o) with
  | none =>
    have hno := List.find?_eq_none.mp hfind v hcand
    refine absurd ?_ hno
    rw [List.all_eq_true]
    intro o ho
    apply decide_eq_true
    obtain ⟨holt, -, hoi⟩ := mem_dominatorCandidates.mp ho
    by_cases hov : o = v
    · exact Or.inl hov
    · right
      intro hdom
      have hor : Reach cfg o := by
        by_contra hcon
        exact (honly o holt hcon).elim hoi hov
      exact hvr (hf.reach_of_dominates hor hdom)
  | some c =>
    -- whatever passes must be the other block, since everything dominates it
    have hall := List.find?_some hfind
    rw [List.all_eq_true] at hall
    have hclt := (mem_dominatorCandidates.mp (List.mem_of_find?_eq_some hfind)).1
    rcases of_decide_eq_true (hall v hcand) with h | h
    · rw [h]
    · exact absurd (hf.dominates hv hvr hclt) h

/-! ## the runners -/

variable {idom : List (Option Nat)} {runner : Nat}

omit hf in
theorem WalkEnds.of_stop
    (h : Ssa.dominates dom runner i ∧ runner ≠ i) : WalkEnds dom idom i runner := by
  refine ⟨1, fun df => ?_⟩
  rw [frontierWalk, if_neg (by rw [not_or, not_not]; exact h)]
  rfl

omit hf in
theorem WalkEnds.of_none (h : idomAt idom runner = none) : WalkEnds dom idom i runner := by
  refine ⟨1, fun df => ?_⟩
  rw [frontierWalk]
  split
  · simp only [h]
    rfl
  · rfl

omit hf in
theorem WalkEnds.of_some {r : Nat}
    (h : idomAt idom runner = some r) (hr : WalkEnds dom idom i r) :
    WalkEnds dom idom i runner := by
  obtain ⟨k, hk⟩ := hr
  refine ⟨k + 1, fun df => ?_⟩
  rw [frontierWalk]
  split
  · simp only [h]
    split
    · rfl
    · exact hk (df.add runner i)
  · rfl

theorem Filled.walkEnds_of_reach (N : Nat) : ∀ runner, Reach cfg runner →
    (dom.getD runner ∅).card ≤ N →
      WalkEnds dom (computeImmediateDominators cfg dom) i runner := by
  have hI := immediate_spec hf.closed hf.solved
  induction N with
  | zero =>
    intro runner hr hcard
    have hmem : runner ∈ dom.getD runner ∅ := (hf.solved.iff runner runner hr).mpr (.refl runner)
    rw [Finset.card_eq_zero.mp (Nat.le_zero.mp hcard)] at hmem
    exact absurd hmem (Finset.notMem_empty runner)
  | succ N ih =>
    intro runner hr hcard
    cases hid : idomAt (computeImmediateDominators cfg dom) runner with
    | none => exact WalkEnds.of_none hid
    | some r =>
      have hsd := hI.strict hr hid
      have hrr := hsd.1.rooted hr
      have hlt : (dom.getD r ∅).card < (dom.getD runner ∅).card := by
        apply Finset.card_lt_card
        refine (Finset.ssubset_iff_of_subset fun d hd => ?_).mpr ⟨runner, ?_, fun hd => ?_⟩
        · exact (hf.solved.iff runner d hr).mpr (((hf.solved.iff r d hrr).mp hd).trans hsd.1)
        · exact (hf.solved.iff runner runner hr).mpr (.refl runner)
        · exact hsd.2 (Dominates.antisymm hrr hsd.1 ((hf.solved.iff r runner hrr).mp hd))
      exact WalkEnds.of_some hid (ih r hrr (by omega))

theorem Filled.not_walkEnds {u j : Nat} (hu : u < cfg.count) (hur : ¬ Reach cfg u)
    (hv : v < cfg.count) (hvr : ¬ Reach cfg v) (hne : u ≠ v)
    (honly : ∀ x, x < cfg.count → ¬ Reach cfg x → x = u ∨ x = v) (hj : Reach cfg j) :
    ¬ WalkEnds dom (computeImmediateDominators cfg dom) j u := by
  have huv := hf.idomAt_pair hu hur hv hvr hne.symm honly
  have hvu := hf.idomAt_pair hv hvr hu hur hne fun x hx hxr => (honly x hx hxr).symm
  have hcond : ∀ x, ¬ Reach cfg x → (¬ Ssa.dominates dom x j ∨ x = j) :=
    fun x hx => Or.inl fun hd => hx (hf.reach_of_dominates hj hd)
  have hloop : ∀ k df, frontierWalk dom (computeImmediateDominators cfg dom) j k u df = none ∧
      frontierWalk dom (computeImmediateDominators cfg dom) j k v df = none := by
    intro k
    induction k with
    | zero => exact fun df => ⟨rfl, rfl⟩
    | succ k ih =>
      intro df
      constructor
      · rw [frontierWalk, if_pos (hcond u hur)]
        simp only [huv, if_neg hne.symm]
        exact (ih (df.add u j)).2
      · rw [frontierWalk, if_pos (hcond v hvr)]
        simp only [hvu, if_neg hne]
        exact (ih (df.add v j)).1
  rintro ⟨k, hk⟩
  have h := hk []
  rw [(hloop k []).1] at h
  cases h

theorem Filled.idomAt_cases {r : Nat} (hi : i < cfg.count) (hir : ¬ Reach cfg i)
    (h : idomAt (computeImmediateDominators cfg dom) i = some r) : Reach cfg r ∨
    (r < cfg.count ∧ ¬ Reach cfg r ∧ r ≠ i ∧
      ∀ x, x < cfg.count → ¬ Reach cfg x → x = i ∨ x = r) := by
  have hmem := h
  rw [idomAt_of_lt hi] at hmem
  obtain ⟨hrlt, -, hri⟩ := mem_of_immediateDominator hmem
  by_cases hrr : Reach cfg r
  · exact Or.inl hrr
  · refine Or.inr ⟨hrlt, hrr, hri, fun x hx hxr => ?_⟩
    by_contra hcon
    rw [not_or] at hcon
    have hnone := hf.idomAt_many hi hir hrlt hrr hx hxr hri hcon.1 (Ne.symm hcon.2)
    rw [h] at hnone
    cases hnone

/-- **When a runner stops**: unless it starts in one of exactly two blocks that no root reaches,
at a join outside. -/
theorem Filled.walkEnds_iff {p : Nat} (hi : i < cfg.count) (hp : p < cfg.count) :
    WalkEnds dom (computeImmediateDominators cfg dom) i p ↔
      ¬ (Reach cfg i ∧ ∃ v, p ≠ v ∧ ∀ x, x < cfg.count ∧ ¬ Reach cfg x ↔ x = p ∨ x = v) := by
  constructor
  · rintro hends ⟨hir, v, hpv, honly⟩
    obtain ⟨-, hpr⟩ := (honly p).mpr (Or.inl rfl)
    obtain ⟨hv, hvr⟩ := (honly v).mpr (Or.inr rfl)
    exact hf.not_walkEnds hp hpr hv hvr hpv (fun x hx hxr => (honly x).mp ⟨hx, hxr⟩) hir hends
  · intro hnot
    by_cases hpr : Reach cfg p
    · exact hf.walkEnds_of_reach _ p hpr (le_refl _)
    cases hid : idomAt (computeImmediateDominators cfg dom) p with
    | none => exact WalkEnds.of_none hid
    | some r =>
      have hmem := hid
      rw [idomAt_of_lt hp] at hmem
      obtain ⟨hrlt, -, hrp⟩ := mem_of_immediateDominator hmem
      by_cases hir : Reach cfg i
      · rcases hf.idomAt_cases hp hpr hid with hrr | ⟨-, hrr, -, honly⟩
        · exact WalkEnds.of_some hid (hf.walkEnds_of_reach _ r hrr (le_refl _))
        · refine absurd ⟨hir, r, Ne.symm hrp, fun x => ⟨fun hx => honly x hx.1 hx.2, ?_⟩⟩ hnot
          rintro (rfl | rfl)
          · exact ⟨hp, hpr⟩
          · exact ⟨hrlt, hrr⟩
      · -- every block strictly dominates the join, except the join itself
        by_cases hpi : p = i
        · have hri : r ≠ i := by
            rw [← hpi]
            exact hrp
          exact WalkEnds.of_some hid (WalkEnds.of_stop ⟨hf.dominates hi hir hrlt, hri⟩)
        · exact WalkEnds.of_stop ⟨hf.dominates hi hir hp, hpi⟩

/-! ## renaming -/

theorem Filled.child_cases {c : Nat} (hi : Reach cfg i)
    (h : idomAt (computeImmediateDominators cfg dom) c = some i) :
    (Reach cfg c ∧ (dom.getD i ∅).card < (dom.getD c ∅).card) ∨
      ∀ d, idomAt (computeImmediateDominators cfg dom) d ≠ some c := by
  have hI := immediate_spec hf.closed hf.solved
  have hlt : ∀ {x y}, idomAt (computeImmediateDominators cfg dom) x = some y → x < cfg.count := by
    intro x y hxy
    by_contra hcon
    rw [idomAt, List.getD_eq_getElem?_getD, List.getElem?_eq_none] at hxy
    · cases hxy
    · rw [computeImmediateDominators, List.length_map, List.length_range]
      omega
  by_cases hcr : Reach cfg c
  · have hsd := hI.strict hcr h
    refine Or.inl ⟨hcr, Finset.card_lt_card ?_⟩
    refine (Finset.ssubset_iff_of_subset fun d hd => ?_).mpr ⟨c, ?_, fun hd => ?_⟩
    · exact (hf.solved.iff c d hcr).mpr (((hf.solved.iff i d hi).mp hd).trans hsd.1)
    · exact (hf.solved.iff c c hcr).mpr (.refl c)
    · exact hsd.2 (Dominates.antisymm hi hsd.1 ((hf.solved.iff i c hi).mp hd))
  · right
    intro d hd
    by_cases hdr : Reach cfg d
    · exact hcr ((hI.strict hdr hd).1.rooted hdr)
    rcases hf.idomAt_cases (hlt hd) hdr hd with hr | ⟨-, -, hcd, honly⟩
    · exact hcr hr
    · -- the two are each other's, so the parent of the child is not one that a root reaches
      have hback := hf.idomAt_pair (hlt h) hcr (hlt hd) hdr hcd.symm fun x hx hxr =>
        (honly x hx hxr).symm
      rw [h] at hback
      exact hdr (Option.some.inj hback ▸ hi)

theorem Filled.acc_child (hi : Reach cfg i) :
    Acc (fun c i => idomAt (computeImmediateDominators cfg dom) c = some i) i := by
  have main : ∀ N i, Reach cfg i → cfg.count ≤ (dom.getD i ∅).card + N →
      Acc (fun c i => idomAt (computeImmediateDominators cfg dom) c = some i) i := by
    intro N
    induction N with
    | zero =>
      intro i hi hcard
      refine Acc.intro i fun c hc => ?_
      rcases hf.child_cases hi hc with ⟨hcr, hlt⟩ | hno
      · have hle := Finset.card_le_card (hf.solved.bounded c)
        rw [Finset.card_range] at hle
        omega
      · exact Acc.intro c fun d hd => absurd hd (hno d)
    | succ N ih =>
      intro i hi hcard
      refine Acc.intro i fun c hc => ?_
      rcases hf.child_cases hi hc with ⟨hcr, hlt⟩ | hno
      · exact ih c hcr (by omega)
      · exact Acc.intro c fun d hd => absurd hd (hno d)
  exact main cfg.count i hi (by omega)

omit hf

/-- what a round can push on the stack for an item -/
def Pushed (idom : List (Option Nat)) : WorkItem → WorkItem → Prop
  | .visit c, .visit i => idomAt idom c = some i
  | .leave _ _, .visit _ => True
  | _, .leave _ _ => False

theorem renameStep_pushed {f : IrFunction} (x : WorkItem)
    (w : RenameWork) (r : List WorkItem × RenameWork) (h : renameStep f cfg idom x w = some r) :
    ∀ y ∈ r.1, Pushed idom y x := by
  intro y hy
  cases x with
  | leave i pops =>
    obtain ⟨versionStacks, -, rfl⟩ := Option.map_eq_some_iff.mp h
    cases hy
  | visit i =>
    unfold renameStep at h
    dsimp only at h
    split at h
    · cases h
    · cases h
      rcases List.mem_append.mp hy with hy | hy
      · obtain ⟨c, hc, rfl⟩ := List.mem_map.mp hy
        have hparent : idomAt idom c = some i := of_decide_eq_true (List.mem_filter.mp hc).2
        exact hparent
      · rw [List.mem_singleton.mp hy]
        trivial

theorem acc_pushed
    (h : Acc (fun c i => idomAt idom c = some i) i) : Acc (Pushed idom) (.visit i) := by
  induction h with
  | intro i _ ih =>
    refine Acc.intro _ fun y hy => ?_
    cases y with
    | visit c => exact ih c hy
    | leave c pops => exact Acc.intro _ fun z hz => by cases z <;> cases hz

include hf

/-- **The renaming of the blocks ends**, by an empty stack or an exception. -/
theorem Filled.halts_renameLoop (f : IrFunction) (w : RenameWork) :
    Halts (renameStep f cfg (computeImmediateDominators cfg dom)) ([.visit cfg.entry], w) := by
  have hentry : Reach cfg cfg.entry := ⟨_, Walk.start ⟨hf.closed.entry, Or.inl rfl⟩⟩
  apply halts_of_acc renameStep_pushed
  intro x hx
  rw [List.mem_singleton.mp hx]
  exact acc_pushed (hf.acc_child hentry)

omit hf

theorem frontier_lt {df : Frontiers}
    (h : computeDominanceFrontier cfg dom idom = some df) :
    ∀ x y, InFrontier df x y → y < cfg.count := by
  unfold computeDominanceFrontier at h
  refine foldlM_keeps (P := fun df => ∀ x y, InFrontier df x y → y < cfg.count) ?_ h ?_
  · intro i hi df df' hstep hlt
    have hic : i < cfg.count := List.mem_range.mp hi
    unfold frontierAt at hstep
    dsimp only at hstep
    split at hstep
    · cases hstep
      exact hlt
    · refine foldlM_keeps (P := fun df => ∀ x y, InFrontier df x y → y < cfg.count) ?_ hstep hlt
      intro p _ df df' hwalk hlt x y hxy
      rcases frontierWalk_new hwalk x y hxy with hxy | ⟨rfl, -⟩
      · exact hlt x y hxy
      · exact hic
  · intro x y hxy
    simp only [InFrontier, List.getD_eq_getElem?_getD, List.getElem?_replicate] at hxy
    split at hxy <;> simp at hxy

/-! ## the conversion -/

theorem trapped_iff (cfg : IrCfg) : Trapped cfg ↔ ∃ i p, IsJoin cfg i ∧ p ∈ cfg.predecessors i ∧
    Reach cfg i ∧ ∃ v, p ≠ v ∧ ∀ x, x < cfg.count ∧ ¬ Reach cfg x ↔ x = p ∨ x = v := by
  constructor
  · rintro ⟨u, v, hne, honly, j, hj, hjoin, hu⟩
    exact ⟨j, u, hjoin, hu, hj, v, hne, honly⟩
  · rintro ⟨j, u, hjoin, hu, hj, v, hne, honly⟩
    exact ⟨u, v, hne, honly, j, hj, hjoin, hu⟩

theorem conversionEnds_iff {f : IrFunction} (hbuild : IrCfg.build f = some cfg) :
    ConversionEnds f cfg ↔ ¬ Trapped cfg := by
  obtain ⟨hc, hcount, -⟩ := closed_of_build hbuild
  obtain ⟨dom, hdom, -⟩ := computeDominators_spec hc
  constructor
  · intro hends htrap
    obtain ⟨i, p, hjoin, hp, hbad⟩ := (trapped_iff cfg).mp htrap
    have hwalk := hends.frontier dom hdom i p hjoin hp
    exact ((Filled.of_compute hc hdom).walkEnds_iff hjoin.1 (Edge.pred_lt hp)).mp hwalk hbad
  · intro hnot
    refine ⟨⟨dom, hdom⟩, fun dom hdom i p hjoin hp => ?_, fun dom df hdom hdf => ?_,
      fun dom hdom f w => (Filled.of_compute hc hdom).halts_renameLoop f w⟩
    · rw [(Filled.of_compute hc hdom).walkEnds_iff hjoin.1 (Edge.pred_lt hp)]
      intro hbad
      exact hnot ((trapped_iff cfg).mpr ⟨i, p, hjoin, hp, hbad⟩)
    · have hlt := frontier_lt hdf
      rw [hcount] at hlt
      obtain ⟨g, vars, hg, -⟩ := insertPhiNodes_spec f hlt
      rw [hg]
      rfl

end

/-- the conversion of a function ends; one without a graph throws -/
def ConvertTerminates (f : IrFunction) : Prop :=
  ∀ cfg, IrCfg.build f = some cfg → ConversionEnds f cfg

/-- the graph of a function has exactly two blocks that no root reaches, with an edge from one of
them into a join outside -/
def TwoBlocksTrap (f : IrFunction) : Prop := ∃ cfg, IrCfg.build f = some cfg ∧ Trapped cfg

/-- a return, and two blocks that run in a circle with a way out into the return -/
def circleFunction : IrFunction :=
  ⟨"circle", "entry",
    [⟨"entry", [.jump "exit"]⟩, ⟨"exit", [.ret none]⟩, ⟨"head", [.jump "tail"]⟩,
      ⟨"tail", [.branch "eq" "head" "exit" ""]⟩]⟩

def circleCfg : IrCfg := ⟨4, 0, [[1], [], [3], [2, 1]]⟩

theorem circle_reach (i : Nat) : Reach circleCfg i ↔ i = 0 ∨ i = 1 := by
  have hedge : ∀ p i, Edge circleCfg p i → (p = 0 ∧ i = 1) ∨ p = 2 ∨ (p = 3 ∧ (i = 1 ∨ i = 2)) := by
    intro p i h
    obtain ⟨hp, hi⟩ := (circleCfg.mem_predecessors i p).mp h
    have hp4 : p < 4 := hp
    obtain rfl | rfl | rfl | rfl : p = 0 ∨ p = 1 ∨ p = 2 ∨ p = 3 := by omega
    · exact Or.inl ⟨rfl, List.mem_singleton.mp hi⟩
    · cases hi
    · exact Or.inr (Or.inl rfl)
    · refine Or.inr (Or.inr ⟨rfl, ?_⟩)
      rcases List.mem_cons.mp hi with h | h
      · exact Or.inr h
      · exact Or.inl (List.mem_singleton.mp h)
  have hroot : ∀ i, IsRoot circleCfg i → i = 0 := by
    rintro i ⟨hi, h | h⟩
    · exact h
    · have hi4 : i < 4 := hi
      obtain rfl | rfl | rfl | rfl : i = 0 ∨ i = 1 ∨ i = 2 ∨ i = 3 := by omega
      · rfl
      · exact absurd h (by decide)
      · exact absurd h (by decide)
      · exact absurd h (by decide)
  have hzero : Walk (IsRoot circleCfg) (Edge circleCfg) [0] 0 :=
    Walk.start ⟨by decide, Or.inl rfl⟩
  have hone : Edge circleCfg 0 1 := (circleCfg.mem_predecessors 1 0).mpr (by decide)
  constructor
  · rintro ⟨l, hl⟩
    induction hl with
    | start hr => exact Or.inl (hroot _ hr)
    | step _ he ih =>
      rcases hedge _ _ he with ⟨-, h⟩ | h | ⟨h, -⟩
      · exact Or.inr h
      · omega
      · omega
  · rintro (rfl | rfl)
    · exact ⟨_, hzero⟩
    · exact ⟨_, hzero.step hone⟩

theorem circle_trapped : TwoBlocksTrap circleFunction := by
  refine ⟨circleCfg, by decide, 3, 2, by decide, fun i => ?_, 1, (circle_reach 1).mpr (Or.inr rfl),
    ⟨by decide, by decide⟩, by decide⟩
  rw [circle_reach, show circleCfg.count = 4 from rfl]
  omega

/-- **The conversion to SSA form ends on a function exactly when no two blocks trap it.** -/
theorem convert_terminates_iff (f : IrFunction) : ConvertTerminates f ↔ ¬ TwoBlocksTrap f := by
  constructor
  · rintro hends ⟨cfg, hbuild, htrap⟩
    exact (conversionEnds_iff hbuild).mp (hends cfg hbuild) htrap
  · intro hnot cfg hbuild
    exact (conversionEnds_iff hbuild).mpr fun htrap => hnot ⟨cfg, hbuild, htrap⟩

/-- the runner of the return goes round the circle for ever -/
theorem convert_diverges : ¬ ConvertTerminates circleFunction := by
  intro hends
  obtain ⟨cfg, hbuild, htrap⟩ := circle_trapped
  exact (conversionEnds_iff hbuild).mp (hends cfg hbuild) htrap

end DolTranslator.Ssa
