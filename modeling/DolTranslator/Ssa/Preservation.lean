import DolTranslator.Ssa.Correct

/-!
# The conversion as a whole

* `Converted`, `convert_spec`   what `convert` returns, block by block;
* `Converted.edge`   along an edge the phis re-establish the simulation;
* `convert_preserves`   a run of the converted function is the run of the original.
-/

set_option linter.unusedSectionVars false

variable {f g : IrFunction} {b : Nat}

namespace DolTranslator.Ssa
open FlowGraph

/-! ## the graph of a well-formed function -/

variable {i : Nat}

theorem labelIndex_lt {l : String} (h : f.labelIndex l = some i) :
    i < f.blocks.length := by
  rw [IrFunction.labelIndex, List.findIdx?_eq_some_iff_getElem] at h
  exact h.1

theorem foldCase_labelOf {l : String} (h : f.labelIndex l = some i) :
    foldCase (f.labelOf i) = foldCase l := by
  have hi := labelIndex_lt h
  rw [IrFunction.labelIndex, List.findIdx?_eq_some_iff_getElem] at h
  obtain ⟨_, hs, _⟩ := h
  rw [IrFunction.labelOf, List.getElem?_eq_getElem hi]
  exact (sameLabel_iff _ _).mp hs

theorem mem_explicit_lt {ins : IrInstruction} {j : Nat}
    (h : j ∈ IrCfg.explicitSuccessors f ins) : j < f.blocks.length := by
  cases ins with
  | branch c t e r =>
    simp only [IrCfg.explicitSuccessors, List.mem_append, Option.mem_toList] at h
    rcases h with h | h
    · exact labelIndex_lt h
    · exact labelIndex_lt h
  | jump l =>
    simp only [IrCfg.explicitSuccessors, Option.mem_toList] at h
    exact labelIndex_lt h
  | jumpTable sel cases =>
    simp only [IrCfg.explicitSuccessors, List.mem_eraseDups, List.mem_filterMap] at h
    obtain ⟨c, -, h⟩ := h
    exact labelIndex_lt h
  | _ => cases h

theorem closed_of_build {cfg : IrCfg} (h : IrCfg.build f = some cfg) :
    Closed cfg ∧ cfg.count = f.blocks.length ∧ f.labelIndex f.entryLabel = some cfg.entry := by
  unfold IrCfg.build at h
  split at h
  · obtain ⟨entry, he, rfl⟩ := Option.map_eq_some_iff.mp h
    refine ⟨⟨labelIndex_lt he, fun i j hj => ?_⟩, rfl, he⟩
    simp only [IrCfg.successors, List.getD_eq_getElem?_getD, List.getElem?_mapIdx] at hj
    cases hb : f.blocks[i]? with
    | none => rw [hb] at hj; cases hj
    | some b =>
      rw [hb] at hj
      simp only [Option.map_some, Option.getD_some, IrCfg.successorsOf] at hj
      split at hj
      · cases hj
      · split at hj
        · rename_i hc
          rw [List.mem_singleton.mp hj]
          simp only [Bool.and_eq_true, decide_eq_true_eq] at hc
          exact hc.2
        · exact mem_explicit_lt hj
  · cases h

theorem body_mem {ins : IrInstruction} (h : ins ∈ f.body b) :
    ∃ blk ∈ f.blocks, blk.instructions = f.body b ∧ ins ∈ blk.instructions := by
  unfold IrFunction.body at h ⊢
  split at h
  · rename_i blk hb
    exact ⟨blk, List.mem_of_getElem? hb, rfl, h⟩
  · cases h

theorem labelOf_eq_of_labels
    (h : g.blocks.map (·.label) = f.blocks.map (·.label)) (i : Nat) : g.labelOf i = f.labelOf i := by
  have hi := congrArg (fun l => l[i]?) h
  simp only [List.getElem?_map] at hi
  unfold IrFunction.labelOf
  cases hg : g.blocks[i]? with
  | none =>
    rw [hg] at hi
    cases hf : f.blocks[i]? with
    | none => rfl
    | some b => rw [hf] at hi; cases hi
  | some b =>
    rw [hg] at hi
    cases hf : f.blocks[i]? with
    | none => rw [hf] at hi; cases hi
    | some c =>
      rw [hf] at hi
      exact Option.some.inj hi

theorem labelIndex_eq_of_labels (h : g.blocks.map (·.label) = f.blocks.map (·.label)) (l : String) :
    g.labelIndex l = f.labelIndex l := by
  have key : ∀ f : IrFunction, f.labelIndex l =
      (f.blocks.map (·.label)).findIdx? (fun s => sameLabel s l) := by
    intro f
    rw [List.findIdx?_map]
    rfl
  rw [key g, key f, h]

theorem nextBlock_eq_of_labels {V : Type}
    (h : g.blocks.map (·.label) = f.blocks.map (·.label)) (i : Nat) (flow : Flow V) :
    g.nextBlock i flow = f.nextBlock i flow := by
  have hlen : g.blocks.length = f.blocks.length := by
    have := congrArg List.length h
    rwa [List.length_map, List.length_map] at this
  cases flow <;> simp only [IrFunction.nextBlock, labelIndex_eq_of_labels h, hlen]

/-! ## what the conversion returns -/

/-- the pieces that the passes of `convert f` leave, with what holds of them -/
structure Converted (f : IrFunction) (cfg : IrCfg) (g withPhis : IrFunction)
    (idom : List (Option Nat)) (df : Frontiers) (vars : Nat → List String) (w : RenameWork)
    (gh : Ghost) : Prop where
  input : RenameInput (UsesName f) withPhis cfg idom vars f.body
  imm : Immediate (IsRoot cfg) (Edge cfg) (idomAt idom)
  frontier : ∀ i p m, 2 ≤ (cfg.predecessors i).length → p ∈ cfg.predecessors i → Dom cfg m p →
    ¬ SDom cfg m i → InFrontier df m i
  joins : ∀ i b, InFrontier df i b → IsJoin cfg b
  placed : PhisPlaced f df vars withPhis
  inv : RenameInv (UsesName f) withPhis cfg idom vars f.body [] w gh
  body : ∀ b, b < cfg.count → g.body b = (gh.rows b).map PhiRow.phi ++ gh.bodies b
  labels : g.blocks.map (·.label) = f.blocks.map (·.label)
  entryLabel : g.entryLabel = f.entryLabel
  workLabels : ∀ p, p < cfg.count → foldCase (workLabel withPhis cfg p) = foldCase (f.labelOf p)

theorem mem_phiDefinitions (hN : Vocabulary (UsesName f)) {v : String}
    (h : v ∈ phiDefinitions f i) : UsesName f v ∧ isBlockLocalTemp v = false ∧
      ∃ ins ∈ f.body i, v ∈ versioned ins := by
  simp only [phiDefinitions, definitionsIn, List.mem_filter, List.mem_flatMap, List.mem_map,
    Bool.not_eq_true'] at h
  obtain ⟨⟨ins, hins, x, hx, rfl⟩, ht⟩ := h
  obtain ⟨blk, hblk, -, hmem⟩ := body_mem hins
  have hu : UsesName f x := ⟨blk, hblk, ins, hmem, List.mem_append_right _ hx⟩
  have hb := hN.base x hu
  rw [hb] at ht ⊢
  exact ⟨hu, ht, ins, hins, hx⟩

theorem phiDefinitions_of_mem (hN : Vocabulary (UsesName f))
    {x : String} (ht : isBlockLocalTemp x = false) {ins : IrInstruction} (hins : ins ∈ f.body i)
    (hx : x ∈ versioned ins) : x ∈ phiDefinitions f i := by
  obtain ⟨blk, hblk, -, hmem⟩ := body_mem hins
  have hu : UsesName f x := ⟨blk, hblk, ins, hmem, List.mem_append_right _ hx⟩
  simp only [phiDefinitions, definitionsIn, List.mem_filter, List.mem_flatMap, List.mem_map,
    Bool.not_eq_true']
  exact ⟨⟨ins, hins, x, hx, hN.base x hu⟩, ht⟩

/-- **The conversion succeeds.** -/
theorem convert_spec {cfg : IrCfg} (h : SsaInput f cfg) :
    ∃ g withPhis idom df vars w gh, convert f = some g ∧
      Converted f cfg g withPhis idom df vars w gh := by
  obtain ⟨hclosed, hcount, hentry⟩ := closed_of_build h.build
  have hN := h.vocabulary
  obtain ⟨dom, hdom, hsolved⟩ := computeDominators_spec hclosed
  have himm := immediate_spec hclosed hsolved
  obtain ⟨df, hdf, hlen, hjoins, hfront⟩ := frontier_spec hclosed hsolved himm h.rooted
  obtain ⟨withPhis, vars, hphis, hplaced⟩ := insertPhiNodes_spec f fun x y (hxy : InFrontier df x y) => by
    have := (hjoins x y hxy).1
    omega
  have heq := hplaced.eq
  have hlabels : withPhis.blocks.map (·.label) = f.blocks.map (·.label) := by
    rw [heq]
    exact List.ext_getElem (by simp) fun i h1 h2 => by simp
  have hentryLabel : withPhis.entryLabel = f.entryLabel := by rw [heq]
  have hwork : ∀ p, p < cfg.count →
      foldCase (workLabel withPhis cfg p) = foldCase (f.labelOf p) := by
    intro p _
    unfold workLabel
    by_cases hp : p = cfg.entry
    · rw [if_pos hp, hp, hentryLabel, foldCase_labelOf hentry]
    · rw [if_neg hp, labelOf_eq_of_labels hlabels]
  generalize hidom : computeImmediateDominators cfg dom = idom at himm hfront hdf
  have hinput : RenameInput (UsesName f) withPhis cfg idom vars f.body := by
    refine ⟨hN, hclosed, by rw [← hidom]; simp [computeImmediateDominators], ?_,
      fun b ins hins => ?_, fun b ins hins x hx => ?_, fun b x hx => ?_, fun b => ?_,
      fun i j hi hj e => ?_⟩
    · have hr : IsRoot cfg cfg.entry := ⟨hclosed.entry, Or.inl rfl⟩
      cases hi : idomAt idom cfg.entry with
      | none => rfl
      | some i =>
        have hs := himm.strict ⟨_, Walk.start hr⟩ hi
        exact absurd (hs.1.of_root hr) hs.2
    · obtain ⟨blk, hblk, -, hmem⟩ := body_mem hins
      exact h.lifted blk hblk ins hmem
    · obtain ⟨blk, hblk, -, hmem⟩ := body_mem hins
      exact ⟨blk, hblk, ins, hmem, hx⟩
    · obtain ⟨j, hj⟩ := hplaced.defined b x hx
      exact (mem_phiDefinitions hN hj).1
    · exact (hplaced.keys b).of_map _
    · rw [hwork i hi, hwork j hj] at e
      have hnd := h.wellFormed.labels
      have hil : i < f.blocks.length := hcount ▸ hi
      have hjl : j < f.blocks.length := hcount ▸ hj
      rw [IrFunction.labelOf, IrFunction.labelOf, List.getElem?_eq_getElem hil,
        List.getElem?_eq_getElem hjl] at e
      have hil' : i < (f.blocks.map fun b => foldCase b.label).length := by simpa using hil
      have hjl' : j < (f.blocks.map fun b => foldCase b.label).length := by simpa using hjl
      have e' : (f.blocks.map fun b => foldCase b.label)[i] =
          (f.blocks.map fun b => foldCase b.label)[j] := by simpa using e
      exact hnd.getElem_inj_iff.mp e'
  -- the start of the renaming loop
  let start : RenameWork :=
    ⟨withPhis.blocks.map (·.instructions), ⟨fun _ => [], fun _ => 0⟩, [], []⟩
  let ghost : Ghost := ⟨fun b => (vars b).map fun v => ⟨v, v, []⟩, f.body, fun _ _ => none,
    fun _ => none, fun _ => False, fun _ => []⟩
  have hinv : RenameInv (UsesName f) withPhis cfg idom vars f.body [.visit cfg.entry] start
      ghost := by
    refine ⟨?_, fun b hb => ?_, fun b _ => ?_, fun b _ _ => ⟨fun r hr => ?_, rfl⟩,
      fun b hb => absurd hb List.not_mem_nil, fun b _ r hr s hs => ?_,
      fun p hp => absurd hp List.not_mem_nil, ?_, ⟨?_, trivial⟩,
      fun b hb => absurd hb List.not_mem_nil, List.nodup_nil,
      fun b hb => absurd hb List.not_mem_nil, List.nodup_singleton _, fun c hc => ?_,
      fun c hc => ?_, fun p hp => absurd hp List.not_mem_nil, Or.inr List.mem_cons_self⟩
    · simp only [start, List.length_map]
      rw [heq]
      simp [hcount]
    · have hbl : b < f.blocks.length := hcount ▸ hb
      simp only [start, ghost, List.getD_eq_getElem?_getD, List.getElem?_map]
      rw [heq]
      simp only [List.getElem?_mapIdx, List.getElem?_eq_getElem hbl, Option.map_some,
        Option.getD_some, IrFunction.body, List.map_map]
      rfl
    · simp only [ghost, List.map_map]
      exact List.map_id _
    · obtain ⟨v, -, rfl⟩ := List.mem_map.mp hr
      rfl
    · obtain ⟨v, -, rfl⟩ := List.mem_map.mp hr
      cases hs
    · exact ⟨fun x _ => rfl, fun x t _ ht => absurd ht List.not_mem_nil, fun t ht => ht.elim,
        fun x t _ (ht : none = some t) => (by cases ht),
        fun x t _ (ht : none = some t) => (by cases ht)⟩
    · simp only [versionsAbove, Immediate.above, hinput.entryIdom]
      rfl
    · rw [List.mem_singleton.mp hc]
      exact ⟨hclosed.entry, List.not_mem_nil⟩
    · rcases hc with hc | hc
      · exact absurd hc List.not_mem_nil
      · exact Or.inl (List.mem_singleton.mp hc)
  obtain ⟨w, gh, hloop, hfin⟩ := renameLoop_spec hinput (2 * cfg.count + 1) hinv (by
    show 2 * cfg.count + 0 ≤ 2 * cfg.count + 1 + 2 * 0
    omega)
  refine ⟨{ withPhis with blocks := withPhis.blocks.mapIdx fun i b =>
    { b with instructions := w.blocks.getD i [] } }, withPhis, idom, df, vars, w, gh, ?_, hinput, himm, hfront, hjoins, hplaced, hfin,
    fun b hb => ?_, ?_, ?_, hwork⟩
  · have hne : f.blocks.isEmpty = false := by
      cases hb : f.blocks with
      | nil =>
        have := hclosed.entry
        rw [hcount, hb] at this
        exact absurd this (Nat.not_lt_zero _)
      | cons a l => rfl
    simp only [convert, hne, Bool.false_eq_true, if_false, h.build, Option.bind_eq_bind,
      Option.bind_some, hdom, hidom, hdf, hphis, renameToSsa]
    simp only [start] at hloop
    rw [hloop]
    rfl
  · have hbl : b < withPhis.blocks.length := by
      have := congrArg List.length hlabels
      rw [List.length_map, List.length_map] at this
      omega
    rw [IrFunction.body]
    simp only [List.getElem?_mapIdx, List.getElem?_eq_getElem hbl, Option.map_some]
    exact hfin.blocks b hb
  · rw [← hlabels]
    exact List.ext_getElem (by simp) fun i h1 h2 => by simp
  · exact hentryLabel

/-! ## blocks on a run -/

section
variable {f : IrFunction} {cfg : IrCfg} (h : SsaInput f cfg)
include h

theorem FromEntry.dominated (hi : FromEntry cfg i) : Dom cfg cfg.entry i := by
  intro l hl
  induction hl with
  | @start r hr =>
    rcases hr.2 with rfl | hnil
    · exact List.mem_cons_self
    · obtain ⟨k, hk⟩ := hi
      cases hk with
      | start e => exact e ▸ List.mem_cons_self
      | step _ he =>
        rw [Edge, hnil] at he
        cases he
  | @step l m n _ he ih => exact List.mem_cons_of_mem _ (ih (h.entered m n hi he))

theorem FromEntry.reach (hi : FromEntry cfg i) : Reach cfg i := by
  obtain ⟨hclosed, -, -⟩ := closed_of_build h.build
  obtain ⟨l, hl⟩ := hi
  induction hl with
  | @start r hr =>
    have e : r = cfg.entry := hr
    exact ⟨_, Walk.start ⟨e ▸ hclosed.entry, Or.inl e⟩⟩
  | step _ he ih =>
    obtain ⟨k, hk⟩ := ih
    exact ⟨_, Walk.step hk he⟩

theorem FromEntry.of_dominated (hi : Reach cfg i) (hd : Dom cfg cfg.entry i) :
    FromEntry cfg i := by
  obtain ⟨l, hl⟩ := hi
  -- the walk from its last visit to the entry on
  have main : ∀ (l : List Nat) (i : Nat), Walk (IsRoot cfg) (Edge cfg) l i → cfg.entry ∈ l →
      FromEntry cfg i := by
    intro l i hw
    induction hw with
    | @start r hr =>
      intro hm
      exact ⟨_, Walk.start (List.mem_singleton.mp hm).symm⟩
    | @step l m n _ he ih =>
      intro hm
      rcases List.mem_cons.mp hm with e | hm
      · exact ⟨_, Walk.start e.symm⟩
      · obtain ⟨k, hk⟩ := ih hm
        exact ⟨_, Walk.step hk he⟩
  exact main l i hl (hd l hl)

variable {g withPhis : IrFunction} {idom : List (Option Nat)} {df : Frontiers}
  {vars : Nat → List String} {w : RenameWork} {gh : Ghost}
  (hc : Converted f cfg g withPhis idom df vars w gh)
include hc

theorem Converted.visited (hi : FromEntry cfg i) : i ∈ w.visited := by
  have main : ∀ (n : Nat) (l : List Nat) (i : Nat), l.length ≤ n →
      Walk (IsRoot cfg) (Edge cfg) l i → Dom cfg cfg.entry i → i ∈ w.visited := by
    intro n
    induction n with
    | zero =>
      intro l i hl hw
      exact absurd hw.mem (by simp [List.length_eq_zero_iff.mp (Nat.le_zero.mp hl)])
    | succ n ih =>
      intro l i hl hw hd
      by_cases he : cfg.entry = i
      · exact he ▸ hc.inv.start.resolve_right List.not_mem_nil
      · obtain ⟨j, hj, hej⟩ := hc.imm.exists_of_strict hw.rooted ⟨hd, he⟩
        have hs := hc.imm.strict hw.rooted hj
        obtain ⟨k, hk, -, -, e | hlt⟩ := hw.cut (hs.1 l hw)
        · exact absurd e hs.2
        · have hjv := ih k j (by omega) hk hej
          have hilt := Dom.lt hc.input.closed hw.rooted (Dominates.refl i)
          exact (hc.inv.children j hjv i hilt hj).resolve_right List.not_mem_nil
  obtain ⟨l, hl⟩ := hi.reach h
  exact main l.length l i (le_refl _) hl (hi.dominated h)

theorem Converted.entry_vars : vars cfg.entry = [] := by
  cases hv : vars cfg.entry with
  | nil => rfl
  | cons x xs =>
    obtain ⟨y, hy⟩ := hc.placed.joined cfg.entry x (by rw [hv]; exact List.mem_cons_self)
    have hj := (hc.joins y cfg.entry hy).2
    have he := h.entryEdges
    omega

theorem Converted.entry_rows : gh.rows cfg.entry = [] := by
  have hr := hc.inv.rowVars cfg.entry hc.input.closed.entry
  rw [hc.entry_vars h] at hr
  exact List.map_eq_nil_iff.mp hr

/-- a variable without a phi in `b` has the same version at the end of a predecessor as at the
end of the immediate dominator -/
theorem Converted.version_agrees {p : Nat} (hp : FromEntry cfg p) (hb : FromEntry cfg b)
    (hne : b ≠ cfg.entry) (he : Edge cfg p b) {x : String} (hx : UsesName f x)
    (ht : isBlockLocalTemp x = false) (hxv : x ∉ vars b) :
    gh.out p x = versionsAbove idom gh.out b x := by
  have hN := h.vocabulary
  have habove : ∀ m, Immediate.above (fun m => gh.out m x) none (idomAt idom) m =
      versionsAbove idom gh.out m x := by
    intro m
    simp only [versionsAbove, Immediate.above]
    cases idomAt idom m <;> rfl
  have hroot : ¬ IsRoot cfg b := by
    rintro ⟨-, e | hnil⟩
    · exact hne e
    · rw [Edge, hnil] at he
      cases he
  rw [← habove b]
  refine hc.imm.agree (fun m => gh.out m x) none (hb.reach h) (hp.reach h) he fun m hm hns => ?_
  rw [habove m]
  -- such a block has the join `b` in its frontier, so it neither defines `x` nor has a phi for it
  have hmv : m ∈ w.visited := by
    refine hc.visited h (FromEntry.of_dominated h (hm.rooted (hp.reach h)) ?_)
    rcases (hp.dominated h).total (hp.reach h) hm with hd | hd
    · exact hd
    · have e := hd.of_root ⟨hc.input.closed.entry, Or.inl rfl⟩
      rw [e]
      exact Dominates.refl cfg.entry
  have hfront : InFrontier df m b := by
    by_cases h2 : 2 ≤ (cfg.predecessors b).length
    · exact hc.frontier b p m h2 he hm hns
    · have hu : ∀ q, Edge cfg q b → q = p := by
        intro q hq
        have hpl : cfg.predecessors b ≠ [] := List.ne_nil_of_mem he
        cases hl : cfg.predecessors b with
        | nil => exact absurd hl hpl
        | cons a l =>
          rw [hl, List.length_cons] at h2
          have hnil : l = [] := List.length_eq_zero_iff.mp (by omega)
          rw [Edge, hl, hnil] at hq he
          rw [List.mem_singleton.mp hq, List.mem_singleton.mp he]
      have hpb := StrictlyDominates.of_unique (hb.reach h) hroot hu
      refine absurd ⟨hm.trans hpb.1, fun e => ?_⟩ hns
      rw [e] at hm
      exact hpb.2 (Dominates.antisymm (hp.reach h) hpb.1 hm)
  have hclosedPhi := hc.placed.closed m b (foldCase x)
    ((closed_of_build h.build).2.1 ▸ hc.inv.visitedLt m hmv) hfront
  have hno : ∀ v ∈ vars b, foldCase v ≠ foldCase x := fun v hv e =>
    hxv (hN.case v x (hc.input.varNames b v hv) hx e ▸ hv)
  obtain ⟨ver, pops, hd⟩ := hc.inv.done m hmv
  rw [hd.out, pushVersions_of_notMem, hd.above]
  · intro hxm
    obtain ⟨v, hv, e⟩ := hclosedPhi (Or.inr ⟨x, hxm, rfl⟩)
    exact hno v hv e
  · intro q hq e
    have hmem : x ∈ (f.body m).flatMap versioned := by
      rw [← hd.renamed.pops_fst, ← e]
      exact List.mem_map_of_mem hq
    obtain ⟨ins, hins, hxi⟩ := List.mem_flatMap.mp hmem
    obtain ⟨v, hv, e⟩ := hclosedPhi (Or.inl ⟨x, phiDefinitions_of_mem hN ht hins hxi, rfl⟩)
    exact hno v hv e

end

/-! ## phis at run time -/

variable {body : List IrInstruction}

section
variable {V W : Type} (undef : V) (pred : Option String) (names : String → V)

theorem assignPhis_body (hb : ∀ ins ∈ body, ins.isPhi = false)
    (acc : String → V) : assignPhis undef pred names body acc = acc := by
  induction body with
  | nil => rfl
  | cons ins body ih =>
    have hl := hb ins List.mem_cons_self
    have ih' := ih fun i hi => hb i (List.mem_cons_of_mem _ hi)
    cases ins with
    | phi => cases hl
    | _ => exact ih'

theorem assignPhis_of_notMem (hb : ∀ ins ∈ body, ins.isPhi = false)
    (rows : List PhiRow) (acc : String → V) (n : String) (hn : ∀ r ∈ rows, r.dest ≠ n) :
    assignPhis undef pred names (rows.map PhiRow.phi ++ body) acc n = acc n := by
  induction rows generalizing acc with
  | nil =>
    show assignPhis undef pred names body acc n = acc n
    rw [assignPhis_body undef pred names hb]
  | cons r rows ih =>
    show assignPhis undef pred names (rows.map PhiRow.phi ++ body) (Function.update acc r.dest _) n
      = acc n
    rw [ih _ fun q hq => hn q (List.mem_cons_of_mem _ hq),
      Function.update_of_ne (hn r List.mem_cons_self).symm]

theorem assignPhis_of_mem (hb : ∀ ins ∈ body, ins.isPhi = false)
    (rows : List PhiRow) (acc : String → V) (hd : (rows.map PhiRow.dest).Nodup) {r : PhiRow}
    (hr : r ∈ rows) : assignPhis undef pred names (rows.map PhiRow.phi ++ body) acc r.dest =
      phiValue undef pred names r.sources := by
  induction rows generalizing acc with
  | nil => cases hr
  | cons q rows ih =>
    rw [List.map_cons, List.nodup_cons] at hd
    show assignPhis undef pred names (rows.map PhiRow.phi ++ body)
      (Function.update acc q.dest (phiValue undef pred names q.sources)) r.dest = _
    rcases List.mem_cons.mp hr with rfl | hr
    · rw [assignPhis_of_notMem undef pred names hb, Function.update_self]
      intro t ht e
      exact hd.1 (e ▸ List.mem_map_of_mem ht)
    · exact ih _ hd.2 hr

end

section
variable {V W : Type} {f : IrFunction} {cfg : IrCfg} (h : SsaInput f cfg)
  {g withPhis : IrFunction} {idom : List (Option Nat)} {df : Frontiers}
  {vars : Nat → List String} {w : RenameWork} {gh : Ghost}
  (hc : Converted f cfg g withPhis idom df vars w gh)
include h hc

theorem Converted.bodies_notPhi (hb : b < cfg.count) :
    ∀ ins ∈ gh.bodies b, ins.isPhi = false := by
  by_cases hv : b ∈ w.visited
  · obtain ⟨ver, pops, hd⟩ := hc.inv.done b hv
    exact hd.renamed.notPhi (hc.input.lifted b)
  · intro ins hins
    rw [(hc.inv.fresh b hb hv).2] at hins
    exact isPhi_of_lifted (hc.input.lifted b ins hins)

theorem Converted.straightBody (hb : b < cfg.count) :
    g.straightBody b = gh.bodies b := by
  rw [IrFunction.straightBody, hc.body b hb, List.filter_append]
  have hphis : ((gh.rows b).map PhiRow.phi).filter (fun ins => !ins.isPhi) = [] := by
    rw [List.filter_eq_nil_iff]
    intro ins hins
    obtain ⟨r, -, rfl⟩ := List.mem_map.mp hins
    exact Bool.false_ne_true
  rw [hphis, List.nil_append, List.filter_eq_self]
  intro ins hins
  rw [hc.bodies_notPhi h hb ins hins]
  rfl

omit hc in
theorem straightBody_lifted (b : Nat) : f.straightBody b = f.body b := by
  rw [IrFunction.straightBody, List.filter_eq_self]
  intro ins hins
  obtain ⟨blk, hblk, -, hmem⟩ := body_mem hins
  rw [isPhi_of_lifted (h.lifted blk hblk ins hmem)]
  rfl

theorem Converted.dest_nodup (hb : b ∈ w.visited) :
    ((gh.rows b).map PhiRow.dest).Nodup := by
  obtain ⟨ver, pops, hd⟩ := hc.inv.done b hb
  have hblt := hc.inv.visitedLt b hb
  have hvars : ((gh.rows b).map PhiRow.var).Nodup := by
    rw [hc.inv.rowVars b hblt]
    exact hc.input.varsNodup b
  have hstrip : ((gh.rows b).map PhiRow.dest).map stripNumericSuffix =
      (gh.rows b).map PhiRow.var := by
    rw [List.map_map]
    refine List.map_congr_left fun r hr => ?_
    have hv : UsesName f r.var := hc.input.varNames b _
      (hc.inv.rowVars b hblt ▸ List.mem_map_of_mem hr)
    exact (hd.phis r hr).2.1.strip h.vocabulary hv
  exact List.Nodup.of_map stripNumericSuffix (hstrip ▸ hvars)

variable {env : Env V W} {initial : String → V}

/-- **Along an edge the phis re-establish the simulation.** -/
theorem Converted.edge (undef : V) {p : Nat} (hp : FromEntry cfg p)
    (he : b ∈ cfg.successors p) {s : SsaState V W} {t : TrackedState V W}
    (hs : Sim (UsesName f) gh.imp (gh.out p) (liveWith []) initial s t) {ver : VersionMap}
    {pops : List (String × String)}
    (hd : BlockDone (UsesName f) idom vars f.body gh b ver pops) :
    Sim (UsesName f) gh.imp ver (liveWith []) initial (enterPhis g undef (some p) b s)
      (restartNamed cfg.entry initial (some p) b t) := by
  have hN := h.vocabulary
  have hpv := hc.visited h hp
  have hplt := hc.inv.visitedLt p hpv
  have hedge : Edge cfg p b := (cfg.mem_predecessors b p).mpr ⟨hplt, he⟩
  have hblt := hc.input.closed.succ p b he
  have hb : FromEntry cfg b := by
    obtain ⟨l, hl⟩ := hp
    exact ⟨_, Walk.step hl hedge⟩
  have hbv := hc.visited h hb
  have hnophi := hc.bodies_notPhi h hblt
  have hfresh : ∀ x n, UsesName f x → gh.imp x = some n → ∀ r ∈ gh.rows b, r.dest ≠ n := by
    intro x n hx hxn r hr e
    exact hc.inv.rep.disjoint x n hx hxn (e ▸ (hd.phis r hr).2.2)
  by_cases hbe : b = cfg.entry
  · -- back at the entry there are no phis and no versions
    have hrows : gh.rows b = [] := hbe ▸ hc.entry_rows h
    have hver : ∀ x, ver x = none := by
      intro x
      rw [hd.above x (by rw [hbe, hc.entry_vars h]; exact List.not_mem_nil)]
      simp only [versionsAbove, Immediate.above, hbe, hc.input.entryIdom]
    have hnames : (enterPhis g undef (some p) b s).names = s.names := by
      simp only [enterPhis, hc.body b hblt, hrows, List.map_nil, List.nil_append]
      exact assignPhis_body _ _ _ hnophi _
    have ht : restartNamed cfg.entry initial (some p) b t = { t with named := initial } := by
      rw [restartNamed, if_pos ⟨rfl, hbe⟩]
    rw [ht]
    refine ⟨hs.regs, hs.world, fun x n _ _ hxn => ?_, fun x _ _ _ => rfl, fun x n hx hxn => ?_,
      fun x n _ hxn => ?_⟩
    · rw [hver x] at hxn
      cases hxn
    · rw [hnames]
      exact hs.imp x n hx hxn
    · rw [hver x] at hxn
      cases hxn
  · have ht : restartNamed cfg.entry initial (some p) b t = t := by
      rw [restartNamed, if_neg fun hcon => hbe hcon.2]
    have hnames : (enterPhis g undef (some p) b s).names =
        assignPhis undef (some (g.labelOf p)) s.names
          ((gh.rows b).map PhiRow.phi ++ gh.bodies b) s.names := by
      simp only [enterPhis, hc.body b hblt, Option.map_some]
    have hlabel : ∀ src, sourceFor src (g.labelOf p) = sourceFor src (workLabel withPhis cfg p) := by
      intro src
      have hf : foldCase (g.labelOf p) = foldCase (workLabel withPhis cfg p) := by
        rw [hc.workLabels p hplt, labelOf_eq_of_labels hc.labels]
      simp only [sourceFor, sameLabel, hf]
    have hphi : ∀ r ∈ gh.rows b, isBlockLocalTemp r.var = false →
        (enterPhis g undef (some p) b s).names r.dest = t.named r.var := by
      intro r hr htemp
      obtain ⟨n, hn, hname⟩ := hc.inv.sources p hpv b he r hr
      have hv : UsesName f r.var := hc.input.varNames b _
        (hc.inv.rowVars b hblt ▸ List.mem_map_of_mem hr)
      rw [hnames, assignPhis_of_mem undef _ _ hnophi _ _ (hc.dest_nodup h hbv) hr]
      simp only [phiValue, Option.bind_some, hlabel, hn]
      exact hs.read hv (Or.inl htemp) hname
    have hrow : ∀ x, x ∈ vars b → ∃ r ∈ gh.rows b, r.var = x := by
      intro x hx
      rw [← hc.inv.rowVars b hblt] at hx
      exact List.mem_map.mp hx
    have hlive : ∀ x, liveWith [] x → isBlockLocalTemp x = false := fun x hx =>
      hx.resolve_right List.not_mem_nil
    rw [ht]
    refine ⟨hs.regs, hs.world, fun x n hx hxl hxn => ?_, fun x hx hxl hxn => ?_,
      fun x n hx hxn => ?_, hd.typed⟩
    · by_cases hxv : x ∈ vars b
      · obtain ⟨r, hr, rfl⟩ := hrow x hxv
        have e : r.dest = n := Option.some.inj ((hd.phis r hr).1.symm.trans hxn)
        rw [← e]
        exact hphi r hr (hlive _ hxl)
      · have htn := hd.typed x n hx hxn
        have hne : ∀ r ∈ gh.rows b, r.dest ≠ n := by
          intro r hr e
          have hv : UsesName f r.var := hc.input.varNames b _
            (hc.inv.rowVars b hblt ▸ List.mem_map_of_mem hr)
          have hstrip := (hd.phis r hr).2.1.strip hN hv
          rw [e, htn.strip hN hx] at hstrip
          refine hxv ?_
          rw [hstrip, ← hc.inv.rowVars b hblt]
          exact List.mem_map_of_mem hr
        rw [hd.above x hxv, ← hc.version_agrees h hp hb hbe hedge hx (hlive x hxl) hxv] at hxn
        rw [hnames, assignPhis_of_notMem undef _ _ hnophi _ _ _ hne]
        exact hs.named x n hx hxl hxn
    · have hxv : x ∉ vars b := by
        intro hxv
        obtain ⟨r, hr, rfl⟩ := hrow x hxv
        rw [(hd.phis r hr).1] at hxn
        cases hxn
      rw [hd.above x hxv, ← hc.version_agrees h hp hb hbe hedge hx (hlive x hxl) hxv] at hxn
      exact hs.entry x hx hxl hxn
    · rw [hnames, assignPhis_of_notMem undef _ _ hnophi _ _ _ (hfresh x n hx hxn)]
      exact hs.imp x n hx hxn

variable (env initial) in
theorem Converted.runBlocks (undef : V) (k : Nat) :
    ∀ (pred : Option Nat) (b : Nat) (s : SsaState V W) (t : TrackedState V W), FromEntry cfg b →
      (∀ ver pops, BlockDone (UsesName f) idom vars f.body gh b ver pops →
        Sim (UsesName f) gh.imp ver (liveWith []) initial (enterPhis g undef pred b s)
          (restartNamed cfg.entry initial pred b t)) →
      (trackedMachine env).RunSatisfies f (restartNamed cfg.entry initial) ReadsNamed k pred b t →
      (ssaMachine env).runBlocks g (enterPhis g undef) k pred b s =
        (trackedMachine env).runBlocks f (restartNamed cfg.entry initial) k pred b t := by
  induction k with
  | zero => exact fun pred b s t _ _ _ => rfl
  | succ k ih =>
    intro pred b s t hb hsim hrun
    have hN := h.vocabulary
    have hbv := hc.visited h hb
    have hblt := hc.inv.visitedLt b hbv
    have hbl : b < f.blocks.length := (closed_of_build h.build).2.1 ▸ hblt
    obtain ⟨ver, pops, hd⟩ := hc.inv.done b hbv
    have hblk : f.blocks[b] ∈ f.blocks := List.getElem_mem hbl
    have hbody : f.body b = f.blocks[b].instructions := by
      rw [IrFunction.body, List.getElem?_eq_getElem hbl]
    obtain ⟨hsteps, hnext⟩ := hrun
    rw [straightBody_lifted h] at hsteps hnext
    have himp : ∀ x n, UsesName f x → gh.imp x = some n →
        IsVersion x n ∧ ∀ p ∈ pops, n ≠ p.2 := by
      intro x n hx hxn
      obtain ⟨m, hm, -⟩ := hc.inv.rep.impOf x n hx hxn
      refine ⟨⟨m, hm⟩, fun p hp e => ?_⟩
      exact hc.inv.rep.disjoint x n hx hxn (e ▸ (hd.defined p hp).2)
    obtain ⟨heq, hend⟩ := hd.renamed.run env hN (hsim ver pops hd) (hc.input.lifted b)
      (hc.input.names b) (by rw [hbody]; exact h.wellFormed.transfers _ hblk) himp
      (by rw [hbody]; exact h.temps _ hblk) hsteps
    simp only [Machine.runBlocks]
    rw [hc.straightBody h hblt, straightBody_lifted h, heq,
      nextBlock_eq_of_labels hc.labels]
    congr 1
    cases hn : f.nextBlock b ((trackedMachine env).runBody (f.body b)
        (restartNamed cfg.entry initial pred b t)).2.2 with
    | none => rfl
    | some next =>
      have htrans : (trackedMachine env).Transfers :=
        ⟨fun ins t => transfer_eq_next env t.regs t.regs t.world ins,
          fun _ t _ h => mem_targets_of_goto env t.regs t.regs t.world h⟩
      have hsucc := h.wellFormed.nextBlock_mem htrans h.build _ hbl hn
      have hnextFrom : FromEntry cfg next := by
        obtain ⟨l, hl⟩ := hb
        exact ⟨_, Walk.step hl ((cfg.mem_predecessors next b).mpr ⟨hblt, hsucc⟩)⟩
      rw [← hd.out] at hend
      exact ih (some b) next _ _ hnextFrom (fun ver' pops' hd' =>
        hc.edge h undef hb hsucc hend hd') (hnext next hn)

end

/-! ## the result -/

section
variable {V W : Type}

def observe (run : List (BlockRun V)) : List (Nat × List (List (Event V)) × Flow V) :=
  run.map fun r => (r.1, r.2.1.map Prod.snd, r.2.2)

def plainEnter (_ : Option Nat) (_ : Nat) (s : State V W) : State V W := s

theorem observe_tracked (env : Env V W) (f : IrFunction) (entry : Nat) (initial : String → V)
    (k : Nat) : ∀ (pred : Option Nat) (b : Nat) (t : TrackedState V W),
      observe ((trackedMachine env).runBlocks f (restartNamed entry initial) k pred b t) =
        observe ((plainMachine env).runBlocks f plainEnter k pred b ⟨t.regs, t.world⟩) := by
  induction k with
  | zero => exact fun _ _ _ => rfl
  | succ k ih =>
    intro pred b t
    have hstate : ∀ t' : TrackedState V W, t' = restartNamed entry initial pred b t →
        t'.regs = t.regs ∧ t'.world = t.world := by
      rintro t' rfl
      unfold restartNamed
      split <;> exact ⟨rfl, rfl⟩
    generalize ht : restartNamed entry initial pred b t = t' at hstate
    obtain ⟨hr, hw⟩ := hstate t' rfl
    obtain ⟨h1, h2, h3⟩ := trackedMachine_runBody env (f.straightBody b) t'
    rw [hr, hw] at h1 h2 h3
    simp only [Machine.runBlocks, ht, observe, List.map_cons, plainEnter]
    rw [h2, h3]
    congr 1
    cases f.nextBlock b ((plainMachine env).runBody (f.straightBody b) ⟨t.regs, t.world⟩).2.2 with
    | none => rfl
    | some next =>
      rw [← h1]
      exact ih (some b) next _

/-- a start of the SSA form: the names that no instruction defines, the implicit parameters, hold
the values at function entry -/
def ImplicitParameters (g : IrFunction) (initial names : String → V) : Prop :=
  ∀ t, ¬ DefinedIn g t → names t = initial (stripNumericSuffix t)

theorem RenamedBody.definitions {imp ver : VersionMap} {body' : List IrInstruction}
    {pops : List (String × String)} (hr : RenamedBody imp ver body body' pops)
    (hl : ∀ ins ∈ body, isLifted ins = true) :
    ∀ ins ∈ body', ∀ t ∈ ins.definitions, (∃ p ∈ pops, p.2 = t) ∨ ∃ i : Nat, t = "cr" ++ toString i := by
  induction hr with
  | nil => exact fun ins hi => absurd hi List.not_mem_nil
  | @cons ver ins ins' rest rest' p q hi _ ih =>
    intro i hmem t ht
    rcases List.mem_cons.mp hmem with rfl | hmem
    · obtain ⟨⟨ρ, δ, rfl, -, rfl⟩, hver⟩ := hi
      have hlift := hl ins List.mem_cons_self
      have hδ : KeepsBlank δ ins := by
        intro d hd
        obtain ⟨k, hk⟩ := hver (d, δ d) (List.mem_map_of_mem hd)
        have hk' : δ d = versionName d k := hk
        rw [hk']
        exact versionName_not_blank d k
      rw [definitions_mapNames hlift hδ] at ht
      rcases definitions_cases hlift with ⟨hv, hd | ⟨c, l, r, u, rfl⟩⟩ | ⟨d, hv, hd⟩
      · rw [if_pos hv, hd] at ht
        cases ht
      · exact Or.inr ⟨c, List.mem_singleton.mp ht⟩
      · rw [if_neg (by rw [hv]; exact List.cons_ne_nil _ _)] at ht
        obtain ⟨d', hd', rfl⟩ := List.mem_map.mp ht
        exact Or.inl ⟨(d', δ d'), List.mem_append_left _ (List.mem_map_of_mem hd'), rfl⟩
    · rcases ih (fun j hj => hl j (List.mem_cons_of_mem _ hj)) i hmem t ht with ⟨r, hr, e⟩ | h
      · exact Or.inl ⟨r, List.mem_append_right _ hr, e⟩
      · exact Or.inr h

theorem Converted.imp_not_defined {cfg : IrCfg} (h : SsaInput f cfg)
    {withPhis : IrFunction} {idom : List (Option Nat)} {df : Frontiers}
    {vars : Nat → List String} {w : RenameWork} {gh : Ghost}
    (hc : Converted f cfg g withPhis idom df vars w gh) {x n : String} (hx : UsesName f x)
    (hxn : gh.imp x = some n) : ¬ DefinedIn g n := by
  rintro ⟨blk, hblk, ins, hins, hdef⟩
  have hN := h.vocabulary
  obtain ⟨m, rfl, -⟩ := hc.inv.rep.impOf x n hx hxn
  have hnot := hc.inv.rep.disjoint x _ hx hxn
  have hcr : ∀ i : Nat, versionName x m ≠ "cr" ++ toString i := fun i e =>
    ne_versionName (hN.nonempty x hx) (strip_crField i) m e.symm
  have hraw : ∀ y, UsesName f y → versionName x m ≠ y := fun y hy e =>
    ne_versionName (hN.nonempty x hx) (hN.base y hy) m e.symm
  obtain ⟨b, hb, hbe⟩ := List.getElem_of_mem hblk
  have hlen : g.blocks.length = f.blocks.length := by
    have := congrArg List.length hc.labels
    rwa [List.length_map, List.length_map] at this
  have hblt : b < cfg.count := by
    have := (closed_of_build h.build).2.1
    omega
  have hbody : ins ∈ g.body b := by
    rw [IrFunction.body, List.getElem?_eq_getElem hb, hbe]
    exact hins
  rw [hc.body b hblt] at hbody
  rcases List.mem_append.mp hbody with hphi | hrest
  · obtain ⟨r, hr, rfl⟩ := List.mem_map.mp hphi
    have e : versionName x m = r.dest := List.mem_singleton.mp hdef
    have hv : UsesName f r.var := hc.input.varNames b _
      (hc.inv.rowVars b hblt ▸ List.mem_map_of_mem hr)
    by_cases hbv : b ∈ w.visited
    · obtain ⟨ver, pops, hd⟩ := hc.inv.done b hbv
      exact hnot (e ▸ (hd.phis r hr).2.2)
    · rw [(hc.inv.fresh b hblt hbv).1 r hr] at e
      exact hraw r.var hv e
  · by_cases hbv : b ∈ w.visited
    · obtain ⟨ver, pops, hd⟩ := hc.inv.done b hbv
      rcases hd.renamed.definitions (hc.input.lifted b) ins hrest _ hdef with ⟨p, hp, e⟩ | ⟨i, e⟩
      · exact hnot (e ▸ (hd.defined p hp).2)
      · exact hcr i e
    · rw [(hc.inv.fresh b hblt hbv).2] at hrest
      have hlift := hc.input.lifted b ins hrest
      rcases definitions_cases hlift with ⟨hv, hd | ⟨c, l, r, u, rfl⟩⟩ | ⟨d, hv, hd⟩
      · rw [hd] at hdef
        cases hdef
      · exact hcr c (List.mem_singleton.mp hdef)
      · rw [hd] at hdef
        refine hraw d (hc.input.names b ins hrest d ?_) (List.mem_singleton.mp hdef)
        exact List.mem_append_right _ (by rw [hv]; exact List.mem_cons_self)

/-- **SSA conversion preserves runs.**  As long as every operand is read while it holds what the
last versioned definition gave it, the converted function visits the same blocks, with the same
operand values, events and exits. -/
theorem convert_preserves {f : IrFunction} {cfg : IrCfg} (h : SsaInput f cfg) :
    ∃ g, convert f = some g ∧ g.blocks.map (·.label) = f.blocks.map (·.label) ∧
      ∀ (env : Env V W) (undef : V) (initial names : String → V) (world : W) (k : Nat),
        ImplicitParameters g initial names →
        (trackedMachine env).RunSatisfies f (restartNamed cfg.entry initial) ReadsNamed k none
          cfg.entry ⟨initial, initial, world⟩ →
        (ssaMachine env).runBlocks g (enterPhis g undef) k none cfg.entry
            ⟨names, initial, world⟩ =
          (trackedMachine env).runBlocks f (restartNamed cfg.entry initial) k none cfg.entry
            ⟨initial, initial, world⟩ ∧
        observe ((ssaMachine env).runBlocks g (enterPhis g undef) k none cfg.entry
            ⟨names, initial, world⟩) =
          observe ((plainMachine env).runBlocks f plainEnter k none cfg.entry
            ⟨initial, world⟩) := by
  obtain ⟨g, withPhis, idom, df, vars, w, gh, hg, hc⟩ := convert_spec h
  refine ⟨g, hg, hc.labels, fun env undef initial names world k hnames hrun => ?_⟩
  have hN := h.vocabulary
  have hentry : FromEntry cfg cfg.entry := ⟨_, Walk.start rfl⟩
  have heq := hc.runBlocks h env initial undef k none cfg.entry
    ⟨names, initial, world⟩ ⟨initial, initial, world⟩ hentry (fun ver pops hd => ?_) hrun
  · exact ⟨heq, by rw [heq]; exact observe_tracked env f cfg.entry initial k none cfg.entry _⟩
  · have hblt := hc.input.closed.entry
    have hver : ∀ x, ver x = none := by
      intro x
      rw [hd.above x (by rw [hc.entry_vars h]; exact List.not_mem_nil)]
      simp only [versionsAbove, Immediate.above, hc.input.entryIdom]
    have hstart : (enterPhis g undef none cfg.entry (⟨names, initial, world⟩ : SsaState V W)).names
        = names := by
      simp only [enterPhis, hc.body cfg.entry hblt, hc.entry_rows h, List.map_nil,
        List.nil_append]
      exact assignPhis_body _ _ _ (hc.bodies_notPhi h hblt) _
    refine ⟨rfl, rfl, fun x n _ _ hxn => ?_, fun x _ _ _ => rfl, fun x n hx hxn => ?_,
      fun x n _ hxn => ?_⟩
    · rw [hver x] at hxn
      cases hxn
    · rw [hstart, hnames n (hc.imp_not_defined h hx hxn)]
      obtain ⟨m, rfl, -⟩ := hc.inv.rep.impOf x n hx hxn
      rw [strip_versionName (hN.nonempty x hx)]
    · rw [hver x] at hxn
      cases hxn

end

/-! ## a loop at the function entry -/

def originalMachine {V W : Type} (env : Env V W) : Machine (State V W) V :=
  { plainMachine env with operandValues := fun ins s => (renamedReads ins).map s.regs }

/-- the conversion keeps every run, whatever the registers and the runtime do -/
def PreservesEveryRun (V W : Type) (f : IrFunction) : Prop :=
  ∃ g, convert f = some g ∧ ∀ (env : Env V W) (undef : V) (initial names : String → V) (world : W)
    (entry k : Nat), f.labelIndex f.entryLabel = some entry → ImplicitParameters g initial names →
    (ssaMachine env).runBlocks g (enterPhis g undef) k none entry ⟨names, initial, world⟩ =
      (originalMachine env).runBlocks f plainEnter k none entry ⟨initial, world⟩

/-- one block that counts in `r3` and jumps to itself, at the entry of the function -/
def entryLoop : IrFunction :=
  ⟨"func_80004000", "0x80004000", [⟨"0x80004000",
    [.binary "r3" (.register "r3") (.imm 1) "add",
      .branch "cr0 eq" "0x80004000" "return" "cr0"]⟩]⟩

/-- integers as values, no memory, branches always taken -/
def countingEnv : Env Int Unit where
  imm := id
  binary := fun _ a b => a + b
  effectiveAddress := fun a k => a + k
  load := fun _ _ w => (0, w)
  store := fun _ _ _ w => w
  compare := fun _ _ _ _ => 0
  resolve := fun _ _ _ _ _ _ => 0
  resolvedLoad := fun _ _ _ _ w => (0, w)
  resolvedStore := fun _ _ _ _ _ w => w
  resolvedPsqLoad := fun _ _ _ _ _ _ _ _ w => (0, w)
  resolvedPsqStore := fun _ _ _ _ _ _ _ _ _ w => w
  call := fun _ _ regs w => (0, regs, w)
  indirectCall := fun _ _ regs w => (0, regs, w)
  condition := fun _ _ _ _ => true
  selectCase := fun _ _ => none

/-- the edge into the function is not a predecessor of the entry block, so the loop gets no phi:
the second iteration reads the value at function entry again -/
theorem entryLoop_not_preserved : ¬ PreservesEveryRun Int Unit entryLoop := by
  rintro ⟨g, hg, h⟩
  have hconv : convert entryLoop = some ⟨"func_80004000", "0x80004000", [⟨"0x80004000",
      [.binary "r3_1" (.register "r3_0") (.imm 1) "add",
        .branch "cr0 eq" "0x80004000" "return" "cr0_0"]⟩]⟩ := by decide +kernel
  rw [hconv] at hg
  cases hg
  have hrun := h countingEnv 0 (fun _ => 0) (fun _ => 0) () 0 2 (by decide +kernel) fun _ _ => rfl
  exact absurd (congrArg (fun r => r.map fun b => b.2.1.map Prod.fst) hrun) (by decide +kernel)

/-- a loop below the entry: `r3` counts in steps of `r4` -/
def innerLoop : IrFunction :=
  ⟨"func_80004000", "0x80004000", [
    ⟨"0x80004000", [.assign "r4" (.imm 7)]⟩,
    ⟨"0x80004004", [.binary "r3" (.register "r3") (.register "r4") "add",
      .branch "cr0 eq" "0x80004004" "0x8000400C" "cr0"]⟩,
    ⟨"0x8000400C", [.ret (some (.register "r3"))]⟩]⟩

def innerLoopCfg : IrCfg := ⟨3, 0, [[1], [1, 2], []]⟩

theorem usesName_iff (f : IrFunction) (x : String) :
    UsesName f x ↔ x ∈ f.blocks.flatMap fun b => b.instructions.flatMap renamedNames := by
  simp only [UsesName, List.mem_flatMap]

theorem innerLoop_input : SsaInput innerLoop innerLoopCfg := by
  have h0 : Walk (IsRoot innerLoopCfg) (Edge innerLoopCfg) [0] 0 :=
    .start ⟨by decide, Or.inl rfl⟩
  have e01 : Edge innerLoopCfg 0 1 := show 0 ∈ innerLoopCfg.predecessors 1 by decide +kernel
  have e12 : Edge innerLoopCfg 1 2 := show 1 ∈ innerLoopCfg.predecessors 2 by decide +kernel
  have f0 : FromEntry innerLoopCfg 0 := ⟨_, .start rfl⟩
  have f1 : FromEntry innerLoopCfg 1 := ⟨_, .step (.start rfl) e01⟩
  have f2 : FromEntry innerLoopCfg 2 := ⟨_, .step (.step (.start rfl) e01) e12⟩
  have names : ∀ x, UsesName innerLoop x → x = "r4" ∨ x = "r3" ∨ x = "cr0" := by
    intro x hx
    rw [usesName_iff] at hx
    have hl : innerLoop.blocks.flatMap (fun b => b.instructions.flatMap renamedNames) =
        ["r4", "r3", "r4", "r3", "cr0", "r3"] := by decide +kernel
    rw [hl] at hx
    simp only [List.mem_cons, List.not_mem_nil, or_false] at hx
    tauto
  refine ⟨by decide +kernel, ⟨by decide +kernel, by decide +kernel, by decide +kernel,
    by decide +kernel⟩, by decide +kernel, ⟨?_, ?_, ?_⟩, ?_, ?_, ?_, by decide +kernel⟩
  · intro x hx
    rcases names x hx with rfl | rfl | rfl <;> decide +kernel
  · intro x hx
    rcases names x hx with rfl | rfl | rfl <;> decide +kernel
  · intro x y hx hy
    rcases names x hx with rfl | rfl | rfl <;> rcases names y hy with rfl | rfl | rfl <;>
      decide +kernel
  · simp [innerLoop, TempsLocal, renamedReads, IrInstruction.operands, IrValue.names,
      conditionReads, show isRegisterName "cr0" = true by decide +kernel,
      show isBlockLocalTemp "r3" = false by decide +kernel,
      show isBlockLocalTemp "r4" = false by decide +kernel,
      show isBlockLocalTemp "cr0" = false by decide +kernel]
  · intro i hi
    have hi3 : i < 3 := hi
    obtain rfl | rfl | rfl : i = 0 ∨ i = 1 ∨ i = 2 := by omega
    · exact ⟨_, h0⟩
    · exact ⟨_, .step h0 e01⟩
    · exact ⟨_, .step (.step h0 e01) e12⟩
  · intro p i _ hp
    have hp3 : p < 3 := Edge.pred_lt hp
    obtain rfl | rfl | rfl : p = 0 ∨ p = 1 ∨ p = 2 := by omega
    · exact f0
    · exact f1
    · exact f2

/-- three iterations of the inner loop -/
theorem convert_preserves_innerLoop : ∃ g, convert innerLoop = some g ∧
    (ssaMachine countingEnv).runBlocks g (enterPhis g 0) 4 none 0 ⟨fun _ => 5, fun _ => 5, ()⟩ =
      (trackedMachine countingEnv).runBlocks innerLoop (restartNamed 0 fun _ => 5) 4 none 0
        ⟨fun _ => 5, fun _ => 5, ()⟩ := by
  obtain ⟨g, hg, -, hrun⟩ := convert_preserves (V := Int) (W := Unit) innerLoop_input
  exact ⟨g, hg, (hrun countingEnv 0 (fun _ => 5) (fun _ => 5) () 4 (fun _ _ => rfl)
    (by decide +kernel)).1⟩

/-- **The passes compute dominance**: the bit sets, the immediate dominators and the frontiers, and
nothing else. -/
theorem dominance_exact {f : IrFunction} {cfg : IrCfg} (hbuild : IrCfg.build f = some cfg)
    (hall : ∀ i, i < cfg.count → Reach cfg i) :
    ∃ dom df, computeDominators cfg = some dom ∧
      computeDominanceFrontier cfg dom (computeImmediateDominators cfg dom) = some df ∧
      (∀ i < cfg.count, ∀ d, dominates dom d i ↔ Dom cfg d i) ∧
      Immediate (IsRoot cfg) (Edge cfg) (idomAt (computeImmediateDominators cfg dom)) ∧
      ∀ m i, InFrontier df m i ↔ DominanceFrontier cfg m i := by
  obtain ⟨hclosed, -, -⟩ := closed_of_build hbuild
  obtain ⟨dom, hdom, hs⟩ := computeDominators_spec hclosed
  have hI := immediate_spec hclosed hs
  obtain ⟨df, hdf, -, -, hfront⟩ := frontier_spec hclosed hs hI hall
  refine ⟨dom, df, hdom, hdf, fun i hi d => hs.iff i d (hall i hi), hI, fun m i =>
    ⟨frontier_sound hs hI hall hdf m i, ?_⟩⟩
  rintro ⟨hjoin, p, hp, hm, hns⟩
  exact hfront i p m hjoin.2 hp hm hns

/-- the loop is in its own frontier -/
theorem dominance_exact_innerLoop : ∃ dom df, computeDominators innerLoopCfg = some dom ∧
    computeDominanceFrontier innerLoopCfg dom (computeImmediateDominators innerLoopCfg dom) =
      some df ∧ InFrontier df 1 1 := by
  obtain ⟨dom, df, hdom, hdf, -, -, hfront⟩ :=
    dominance_exact innerLoop_input.build innerLoop_input.rooted
  exact ⟨dom, df, hdom, hdf, (hfront 1 1).mpr ⟨⟨by decide, by decide +kernel⟩, 1,
    by decide +kernel, Dominates.refl 1, fun h => h.2 rfl⟩⟩

end DolTranslator.Ssa
