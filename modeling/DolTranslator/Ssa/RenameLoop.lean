import DolTranslator.Ssa.Renaming

/-!
# The renaming loop

`RenameInv` holds between two pops of the work stack:

* a visited block is renamed from the versions that reach it (`BlockDone`), and every phi of its
  successors has a source for it;
* a block that waits will find the stacks as its immediate dominator left them (`WorkOK`).

`renameLoop_spec` runs the loop to its end.
-/

set_option linter.unusedSectionVars false

namespace DolTranslator.Ssa
open FlowGraph

/-- what renaming takes for granted about the function with phis -/
structure RenameInput (N : String → Prop) (f : IrFunction) (cfg : IrCfg)
    (idom : List (Option Nat)) (vars : Nat → List String) (body : Nat → List IrInstruction) :
    Prop where
  vocab : Vocabulary N
  closed : Closed cfg
  idomLength : idom.length = cfg.count
  entryIdom : idomAt idom cfg.entry = none
  lifted : ∀ b, ∀ ins ∈ body b, isLifted ins = true
  names : ∀ b, ∀ ins ∈ body b, ∀ x ∈ renamedNames ins, N x
  varNames : ∀ b, ∀ x ∈ vars b, N x
  varsNodup : ∀ b, (vars b).Nodup
  labels : ∀ i j, i < cfg.count → j < cfg.count →
    foldCase (workLabel f cfg i) = foldCase (workLabel f cfg j) → i = j

/-- the versions that reach block `b` along the dominator tree -/
abbrev versionsAbove (idom : List (Option Nat)) (out : Nat → VersionMap) (b : Nat) : VersionMap :=
  Immediate.above out (fun _ => none) (idomAt idom) b

/-- the logical state of the renamer: the phis and bodies of the blocks, the versions at the end
of each visited block, the implicit parameters, the issued names and the stacks -/
structure Ghost where
  rows : Nat → List PhiRow
  bodies : Nat → List IrInstruction
  out : Nat → VersionMap
  imp : VersionMap
  issued : String → Prop
  stack : Stacks

/-- block `b` is renamed from the versions that reach it -/
structure BlockDone (N : String → Prop) (idom : List (Option Nat)) (vars : Nat → List String)
    (body : Nat → List IrInstruction) (g : Ghost) (b : Nat) (ver : VersionMap)
    (pops : List (String × String)) : Prop where
  above : ∀ x, x ∉ vars b → ver x = versionsAbove idom g.out b x
  phis : ∀ r ∈ g.rows b, ver r.var = some r.dest ∧ IsVersion r.var r.dest ∧ g.issued r.dest
  typed : ∀ x t, N x → ver x = some t → IsVersion x t
  renamed : RenamedBody g.imp ver (body b) (g.bodies b) pops
  defined : ∀ p ∈ pops, IsVersion p.1 p.2 ∧ g.issued p.2
  out : g.out b = pushVersions ver pops

def pending (work : List WorkItem) : List Nat :=
  work.filterMap fun
    | .visit c => some c
    | .leave .. => none

def leaves : List WorkItem → Nat
  | [] => 0
  | .visit _ :: work => leaves work
  | .leave .. :: work => leaves work + 1

/-- the stacks that each waiting block finds are those its immediate dominator left -/
def WorkOK (N : String → Prop) (idom : List (Option Nat)) (out : Nat → VersionMap) :
    Stacks → List WorkItem → Prop
  | _, [] => True
  | E, .visit c :: work => E.top = versionsAbove idom out c ∧ WorkOK N idom out E work
  | E, .leave _ pops :: work =>
    ∃ E', E = E'.pushAll pops ∧ (∀ p ∈ pops, N p.1) ∧ WorkOK N idom out E' work

/-- the keys of a phi's sources are labels of blocks -/
def KeysOK (f : IrFunction) (cfg : IrCfg) (r : PhiRow) : Prop :=
  ∀ s ∈ r.sources, ∃ i, i < cfg.count ∧ s.1 = workLabel f cfg i

structure RenameInv (N : String → Prop) (f : IrFunction) (cfg : IrCfg)
    (idom : List (Option Nat)) (vars : Nat → List String) (body : Nat → List IrInstruction)
    (work : List WorkItem) (w : RenameWork) (g : Ghost) : Prop where
  length : w.blocks.length = cfg.count
  blocks : ∀ b, b < cfg.count → w.blocks.getD b [] = (g.rows b).map PhiRow.phi ++ g.bodies b
  rowVars : ∀ b, b < cfg.count → (g.rows b).map PhiRow.var = vars b
  fresh : ∀ b, b < cfg.count → b ∉ w.visited →
    (∀ r ∈ g.rows b, r.dest = r.var) ∧ g.bodies b = body b
  done : ∀ b ∈ w.visited, ∃ ver pops, BlockDone N idom vars body g b ver pops
  keys : ∀ b, b < cfg.count → ∀ r ∈ g.rows b, KeysOK f cfg r
  sources : ∀ p ∈ w.visited, ∀ b ∈ cfg.successors p, ∀ r ∈ g.rows b,
    ∃ t, sourceFor r.sources (workLabel f cfg p) = some t ∧ NameOf g.imp (g.out p) r.var t
  rep : Rep N g.stack g.imp g.issued w.state
  waits : WorkOK N idom g.out g.stack work
  visitedLt : ∀ b ∈ w.visited, b < cfg.count
  visitedNodup : w.visited.Nodup
  active : ∀ b ∈ w.active, b ∈ w.visited
  pendingNodup : (pending work).Nodup
  pendingNew : ∀ c ∈ pending work, c < cfg.count ∧ c ∉ w.visited
  parents : ∀ c, c ∈ w.visited ∨ c ∈ pending work →
    c = cfg.entry ∨ ∃ p ∈ w.visited, idomAt idom c = some p
  children : ∀ p ∈ w.visited, ∀ c, c < cfg.count → idomAt idom c = some p →
    c ∈ w.visited ∨ c ∈ pending work
  start : cfg.entry ∈ w.visited ∨ cfg.entry ∈ pending work

theorem isPhi_of_lifted {ins : IrInstruction} (h : isLifted ins = true) : ins.isPhi = false := by
  cases ins <;> first | rfl | cases h

theorem isPhi_mapNames (ρ δ : String → String) (ins : IrInstruction) :
    (mapNames ρ δ ins).isPhi = ins.isPhi := by
  cases ins with
  | ret v => cases v <;> rfl
  | _ => rfl

theorem RenamedBody.notPhi {imp ver : VersionMap} {body body' : List IrInstruction}
    {pops : List (String × String)} (h : RenamedBody imp ver body body' pops)
    (hl : ∀ ins ∈ body, isLifted ins = true) : ∀ ins ∈ body', ins.isPhi = false := by
  induction h with
  | nil => exact fun ins hi => absurd hi List.not_mem_nil
  | cons hi _ ih =>
    intro ins hins
    rcases List.mem_cons.mp hins with rfl | hins
    · obtain ⟨ρ, δ, rfl, -, -⟩ := hi.names
      rw [isPhi_mapNames]
      exact isPhi_of_lifted (hl _ List.mem_cons_self)
    · exact ih (fun i h => hl i (List.mem_cons_of_mem _ h)) ins hins

theorem pushVersions_of_mem (ver : VersionMap) (pops : List (String × String))
    (hn : (pops.map Prod.fst).Nodup) {p : String × String} (hp : p ∈ pops) :
    pushVersions ver pops p.1 = some p.2 := by
  induction pops generalizing ver with
  | nil => exact absurd hp List.not_mem_nil
  | cons q pops ih =>
    rw [List.map_cons, List.nodup_cons] at hn
    show pushVersions (Function.update ver q.1 (some q.2)) pops p.1 = some p.2
    rcases List.mem_cons.mp hp with rfl | hp
    · rw [pushVersions_of_notMem, Function.update_self]
      exact fun r hr e => hn.1 (e ▸ List.mem_map_of_mem hr)
    · exact ih _ hn.2 hp

section
variable {N : String → Prop} (hN : Vocabulary N)
include hN

theorem popVersions_spec {imp : VersionMap} {issued : String → Prop}
    (pops : List (String × String)) :
    ∀ {E : Stacks} {s : RenameState}, Rep N (E.pushAll pops) imp issued s →
      (∀ p ∈ pops, N p.1) →
      ∃ st, popVersions s.versionStacks pops = some st ∧
        Rep N E imp issued ⟨st, s.nextVersions⟩ := by
  induction pops using List.reverseRecOn with
  | nil => exact fun {E s} h _ => ⟨s.versionStacks, rfl, h⟩
  | append_singleton pops p ih =>
    intro E s h hp
    rw [Stacks.pushAll_append] at h
    have hx := hp p (List.mem_append_right _ List.mem_cons_self)
    generalize hF : E.pushAll pops = F at h
    change Rep N (F.push p.1 p.2) imp issued s at h
    have hrow := h.rows p.1 hx
    have hself : F.push p.1 p.2 p.1 = p.2 :: F p.1 := Function.update_self ..
    rw [hself, List.cons_append] at hrow
    have hrep : Rep N F imp issued
        ⟨Function.update s.versionStacks (foldCase p.1) (F p.1 ++ (imp p.1).toList),
          s.nextVersions⟩ := by
      refine ⟨fun y hy => ?_, fun y t hy ht => h.top y t hy ?_, h.issuedOf, h.impOf, h.disjoint⟩
      · by_cases hyx : y = p.1
        · subst hyx
          simp
        · show Function.update s.versionStacks (foldCase p.1) _ (foldCase y) = _
          rw [Function.update_of_ne (key_ne hN hx hy hyx), h.rows y hy, Stacks.push,
            Function.update_of_ne hyx]
      · by_cases hyx : y = p.1
        · subst hyx
          rw [hself]
          exact List.mem_cons_of_mem _ ht
        · rwa [Stacks.push, Function.update_of_ne hyx]
    obtain ⟨st, hst, hr⟩ := ih (E := E) (s := ⟨Function.update s.versionStacks (foldCase p.1)
      (F p.1 ++ (imp p.1).toList), s.nextVersions⟩) (by rw [hF]; exact hrep) fun q hq => hp q (List.mem_append_left _ hq)
    refine ⟨st, ?_, hr⟩
    have hstep : popVersion s.versionStacks p.1 = some (Function.update s.versionStacks
        (foldCase p.1) (F p.1 ++ (imp p.1).toList)) := by
      simp only [popVersion, hrow]
    simp only [popVersions, List.reverse_append, List.reverse_cons, List.reverse_nil,
      List.nil_append, List.singleton_append, List.foldlM_cons, hstep]
    exact hst

end

/-! ## the successors of a block -/

/-- a phi after the update for the edge from block `i`: only that source may differ -/
structure RowStep (f : IrFunction) (cfg : IrCfg) (i : Nat) (r r' : PhiRow) : Prop where
  var : r'.var = r.var
  dest : r'.dest = r.dest
  keys : KeysOK f cfg r → KeysOK f cfg r'
  others : KeysOK f cfg r → ∀ j, j < cfg.count → j ≠ i →
    sourceFor r'.sources (workLabel f cfg j) = sourceFor r.sources (workLabel f cfg j)

theorem RowStep.refl (f : IrFunction) (cfg : IrCfg) (i : Nat) (r : PhiRow) :
    RowStep f cfg i r r := ⟨rfl, rfl, id, fun _ _ _ _ => rfl⟩

variable {i : Nat}

theorem RowStep.trans {f : IrFunction} {cfg : IrCfg} {a b c : PhiRow}
    (h₁ : RowStep f cfg i a b) (h₂ : RowStep f cfg i b c) : RowStep f cfg i a c :=
  ⟨h₂.var.trans h₁.var, h₂.dest.trans h₁.dest, fun h => h₂.keys (h₁.keys h),
    fun hk j hj hji => (h₂.others (h₁.keys hk) j hj hji).trans (h₁.others hk j hj hji)⟩

section
variable {N : String → Prop} {f : IrFunction} {cfg : IrCfg} {idom : List (Option Nat)}
  {vars : Nat → List String} {body : Nat → List IrInstruction}
  (hin : RenameInput N f cfg idom vars body)
include hin

theorem rowStep_setSource (hi : i < cfg.count) (r : PhiRow) (t : String) :
    RowStep f cfg i r ⟨r.var, r.dest, setSource r.sources (workLabel f cfg i) t⟩ ∧
      (KeysOK f cfg r → sourceFor (setSource r.sources (workLabel f cfg i) t)
        (workLabel f cfg i) = some t) := by
  have hexact : KeysOK f cfg r → ∀ s ∈ r.sources,
      foldCase s.1 = foldCase (workLabel f cfg i) → s.1 = workLabel f cfg i := by
    intro hk s hs e
    obtain ⟨j, hj, hsj⟩ := hk s hs
    rw [hsj] at e ⊢
    rw [hin.labels j i hj hi e]
  refine ⟨⟨rfl, rfl, fun hk s hs => ?_, fun hk j hj hji => ?_⟩, fun hk => ?_⟩
  · rcases mem_setSource hs with e | hs
    · exact ⟨i, hi, e⟩
    · exact hk s hs
  · rw [sourceFor_setSource t (hexact hk), if_neg]
    exact fun e => hji (hin.labels i j hi hj e).symm
  · rw [sourceFor_setSource t (hexact hk), if_pos rfl]

/-- the blocks as rows and bodies -/
structure Blocks (cfg : IrCfg) (N : String → Prop) (f : IrFunction) (w : RenameWork)
    (rows : Nat → List PhiRow) (bodies : Nat → List IrInstruction) : Prop where
  length : w.blocks.length = cfg.count
  eq : ∀ b, b < cfg.count → w.blocks.getD b [] = (rows b).map PhiRow.phi ++ bodies b
  noPhi : ∀ b, b < cfg.count → ∀ ins ∈ bodies b, ins.isPhi = false
  named : ∀ b, b < cfg.count → ∀ r ∈ rows b, N r.var ∧ stripNumericSuffix r.dest = r.var
  keys : ∀ b, b < cfg.count → ∀ r ∈ rows b, KeysOK f cfg r

/-- what the successor updates of block `i` do -/
structure Updated (N : String → Prop) (f : IrFunction) (cfg : IrCfg) (i : Nat) (E : Stacks)
    (imp : VersionMap) (issued : String → Prop) (w : RenameWork) (rows : Nat → List PhiRow)
    (bodies : Nat → List IrInstruction) (ss : List Nat) (w' : RenameWork)
    (rows' : Nat → List PhiRow) (imp' : VersionMap) : Prop where
  blocks : Blocks cfg N f w' rows' bodies
  step : ∀ b, b < cfg.count → List.Forall₂ (RowStep f cfg i) (rows b) (rows' b)
  ext : Extended imp imp'
  rep : Rep N E imp' issued w'.state
  active : w'.active = w.active
  visited : w'.visited = w.visited
  sources : ∀ b ∈ ss, ∀ r ∈ rows' b, ∃ t, sourceFor r.sources (workLabel f cfg i) = some t ∧
    NameOf imp' E.top r.var t

omit hin in
theorem forall₂_map_right {α : Type} {R : α → α → Prop} {l : List α} {h : α → α}
    (hr : ∀ a ∈ l, R a (h a)) : List.Forall₂ R l (l.map h) := by
  induction l with
  | nil => exact .nil
  | cons a l ih =>
    exact .cons (hr a List.mem_cons_self) (ih fun b hb => hr b (List.mem_cons_of_mem _ hb))

omit hin in
theorem forall₂_rowStep_trans {l₁ l₂ l₃ : List PhiRow}
    (h₁ : List.Forall₂ (RowStep f cfg i) l₁ l₂) (h₂ : List.Forall₂ (RowStep f cfg i) l₂ l₃) :
    List.Forall₂ (RowStep f cfg i) l₁ l₃ := by
  induction h₁ generalizing l₃ with
  | nil =>
    cases h₂
    exact .nil
  | cons hab _ ih =>
    cases h₂ with
    | cons hbc h => exact .cons (hab.trans hbc) (ih h)

omit hin in
theorem getD_set_eq {α : Type} {l : List α} (h : i < l.length) (a d : α) :
    (l.set i a).getD i d = a := by
  simp [List.getD_eq_getElem?_getD, h]

omit hin in
theorem getD_set_of_ne {α : Type} {l : List α} {j : Nat} (h : j ≠ i) (a d : α) :
    (l.set i a).getD j d = l.getD j d := by
  simp [List.getD_eq_getElem?_getD, List.getElem?_set_ne h.symm]

variable {w : RenameWork}

theorem updateSuccessors_spec (hi : i < cfg.count) {E : Stacks} {imp : VersionMap}
    {issued : String → Prop} {rows : Nat → List PhiRow}
    {bodies : Nat → List IrInstruction} (hb : Blocks cfg N f w rows bodies)
    (hrep : Rep N E imp issued w.state) (ss : List Nat) (hss : ∀ b ∈ ss, b < cfg.count) :
    ∃ rows' imp', Updated N f cfg i E imp issued w rows bodies ss
      (ss.foldl (updateSuccessor (workLabel f cfg i)) w) rows' imp' := by
  induction ss using List.reverseRecOn with
  | nil =>
    exact ⟨rows, imp, hb, fun b _ => List.forall₂_same.mpr fun r _ => RowStep.refl f cfg i r,
      Extended.refl imp, hrep, rfl, rfl, fun b hb => absurd hb List.not_mem_nil⟩
  | append_singleton ss c ih =>
    obtain ⟨rows₁, imp₁, h⟩ := ih fun b hb => hss b (List.mem_append_left _ hb)
    have hc : c < cfg.count := hss c (List.mem_append_right _ List.mem_cons_self)
    rw [List.foldl_append, List.foldl_cons, List.foldl_nil]
    generalize ss.foldl (updateSuccessor (workLabel f cfg i)) w = w₁ at h
    obtain ⟨imp₂, hp, he⟩ := updatePhiSources_spec hin.vocab (workLabel f cfg i)
      (h.blocks.noPhi c hc) (rows₁ c) h.rep (h.blocks.named c hc)
    have heq := he imp₂ (Extended.refl imp₂)
    rw [← h.blocks.eq c hc] at hp heq
    let rowsC := (rows₁ c).map fun r : PhiRow =>
      (⟨r.var, r.dest, setSource r.sources (workLabel f cfg i) (nameIn imp₂ E.top r.var)⟩ : PhiRow)
    have hrowsC : rowsC.map PhiRow.phi ++ bodies c =
        (updatePhiSources (workLabel f cfg i) (w₁.blocks.getD c []) w₁.state).1 := by
      rw [heq, List.map_map]
      rfl
    have hclt : c < w₁.blocks.length := by
      rw [h.blocks.length]
      exact hc
    have hstepC : List.Forall₂ (RowStep f cfg i) (rows₁ c) rowsC :=
      forall₂_map_right fun r _ => (rowStep_setSource hin hi r _).1
    refine ⟨Function.update rows₁ c rowsC, imp₂, ⟨?_, fun b hb => ?_, h.blocks.noPhi,
      fun b hb r hr => ?_, fun b hb r hr => ?_⟩, fun b hb => ?_, h.ext.trans hp.ext, hp.rep,
      h.active, h.visited, fun b hb r hr => ?_⟩
    · simp only [updateSuccessor, List.length_set]
      exact h.blocks.length
    · by_cases hbc : b = c
      · subst hbc
        rw [Function.update_self, hrowsC]
        exact getD_set_eq hclt _ _
      · rw [Function.update_of_ne hbc, ← h.blocks.eq b hb]
        exact getD_set_of_ne hbc _ _
    · by_cases hbc : b = c
      · subst hbc
        rw [Function.update_self] at hr
        obtain ⟨r₀, hr₀, rfl⟩ := List.mem_map.mp hr
        exact h.blocks.named b hb r₀ hr₀
      · rw [Function.update_of_ne hbc] at hr
        exact h.blocks.named b hb r hr
    · by_cases hbc : b = c
      · subst hbc
        rw [Function.update_self] at hr
        obtain ⟨r₀, hr₀, rfl⟩ := List.mem_map.mp hr
        exact (rowStep_setSource hin hi r₀ _).1.keys (h.blocks.keys b hb r₀ hr₀)
      · rw [Function.update_of_ne hbc] at hr
        exact h.blocks.keys b hb r hr
    · by_cases hbc : b = c
      · subst hbc
        rw [Function.update_self]
        exact forall₂_rowStep_trans (h.step b hb) hstepC
      · rw [Function.update_of_ne hbc]
        exact h.step b hb
    · by_cases hbc : b = c
      · subst hbc
        rw [Function.update_self] at hr
        obtain ⟨r₀, hr₀, rfl⟩ := List.mem_map.mp hr
        exact ⟨_, (rowStep_setSource hin hi r₀ _).2 (h.blocks.keys b hc r₀ hr₀),
          hp.known r₀.var (List.mem_map_of_mem hr₀)⟩
      · rw [Function.update_of_ne hbc] at hr
        have hmem : b ∈ ss := by
          rcases List.mem_append.mp hb with hb | hb
          · exact hb
          · exact absurd (List.mem_singleton.mp hb) hbc
        obtain ⟨t, ht, hname⟩ := h.sources b hmem r hr
        exact ⟨t, ht, hname.mono hp.ext⟩

/-! ## one step of the loop -/

variable {work : List WorkItem}

omit hin in
theorem workOK_congr {out out' : Nat → VersionMap} {E : Stacks}
    (h : ∀ c ∈ pending work, versionsAbove idom out c = versionsAbove idom out' c)
    (hw : WorkOK N idom out E work) : WorkOK N idom out' E work := by
  induction work generalizing E with
  | nil => trivial
  | cons item work ih =>
    cases item with
    | visit c =>
      refine ⟨hw.1.trans (h c (by simp [pending])), ih (fun d hd => h d ?_) hw.2⟩
      simp only [pending, List.filterMap_cons] at hd ⊢
      exact List.mem_cons_of_mem _ hd
    | leave c pops =>
      obtain ⟨E', he, hp, hw⟩ := hw
      exact ⟨E', he, hp, ih (fun d hd => h d (by simpa [pending] using hd)) hw⟩

omit hin in
theorem workOK_children {out : Nat → VersionMap} {E : Stacks}
    (cs : List Nat) (h : ∀ c ∈ cs, E.top = versionsAbove idom out c)
    (hw : WorkOK N idom out E work) : WorkOK N idom out E (cs.map WorkItem.visit ++ work) := by
  induction cs with
  | nil => exact hw
  | cons c cs ih =>
    exact ⟨h c List.mem_cons_self, ih fun d hd => h d (List.mem_cons_of_mem _ hd)⟩

omit hin in
theorem pending_append (cs : List Nat) (work : List WorkItem) :
    pending (cs.map WorkItem.visit ++ work) = cs ++ pending work := by
  induction cs with
  | nil => rfl
  | cons c cs ih =>
    simp only [List.map_cons, List.cons_append, pending, List.filterMap_cons] at ih ⊢
    rw [ih]

omit hin in
theorem leaves_append (cs : List Nat) (work : List WorkItem) :
    leaves (cs.map WorkItem.visit ++ work) = leaves work := by
  induction cs with
  | nil => rfl
  | cons c cs ih => exact ih

variable {b : Nat}

theorem mem_domChildren {c : Nat} :
    c ∈ domChildren idom b ↔ c < cfg.count ∧ idomAt idom c = some b := by
  simp [domChildren, hin.idomLength]

/-- the versions that reach a block depend on its immediate dominator only -/
theorem versionsAbove_update {out : Nat → VersionMap} {c : Nat} (v : VersionMap)
    (h : idomAt idom c ≠ some b) :
    versionsAbove idom out c = versionsAbove idom (Function.update out b v) c := by
  simp only [versionsAbove, Immediate.above]
  cases hc : idomAt idom c with
  | none => rfl
  | some i =>
    have hib : i ≠ b := fun e => h (e ▸ hc)
    simp only [Function.update_of_ne hib]

omit hin in
theorem forall₂_mem_right {α : Type} {R : α → α → Prop} {l l' : List α}
    (h : List.Forall₂ R l l') {b : α} (hb : b ∈ l') : ∃ a ∈ l, R a b := by
  induction h with
  | nil => cases hb
  | cons hr _ ih =>
    rcases List.mem_cons.mp hb with rfl | hb
    · exact ⟨_, List.mem_cons_self, hr⟩
    · obtain ⟨a, ha, h⟩ := ih hb
      exact ⟨a, List.mem_cons_of_mem _ ha, h⟩

omit hin in
theorem forall₂_map_eq {α β : Type} {R : α → α → Prop} {h : α → β} {l l' : List α}
    (hr : ∀ a b, R a b → h b = h a) (hl : List.Forall₂ R l l') : l'.map h = l.map h := by
  induction hl with
  | nil => rfl
  | cons hab _ ih => rw [List.map_cons, List.map_cons, ih, hr _ _ hab]

variable {g : Ghost}

theorem BlockDone.grow {g' : Ghost} {ver : VersionMap}
    {pops : List (String × String)} (h : BlockDone N idom vars body g b ver pops)
    (habove : versionsAbove idom g.out b = versionsAbove idom g'.out b)
    (hrows : List.Forall₂ (fun r r' => r'.var = r.var ∧ r'.dest = r.dest) (g.rows b) (g'.rows b))
    (hbody : g'.bodies b = g.bodies b) (hout : g'.out b = g.out b)
    (himp : Extended g.imp g'.imp) (hiss : ∀ t, g.issued t → g'.issued t) :
    BlockDone N idom vars body g' b ver pops := by
  refine ⟨fun x hx => (h.above x hx).trans (by rw [habove]), fun r hr => ?_, h.typed, ?_,
    fun p hp => (h.defined p hp).imp id (hiss _), hout.trans h.out⟩
  · obtain ⟨r₀, hr₀, hv, hd⟩ := forall₂_mem_right hrows hr
    rw [hv, hd]
    exact ⟨(h.phis r₀ hr₀).1, (h.phis r₀ hr₀).2.1, hiss _ (h.phis r₀ hr₀).2.2⟩
  · rw [hbody]
    exact h.renamed.mono himp

/-- **A visit keeps the invariant.** -/
theorem visit_spec (h : RenameInv N f cfg idom vars body (.visit b :: work) w g) :
    ∃ g', RenameInv N f cfg idom vars body
      ((domChildren idom b).map .visit ++ .leave b (renameBlock f cfg b w).1 :: work)
      (renameBlock f cfg b w).2 g' ∧ (renameBlock f cfg b w).2.visited = b :: w.visited := by
  have hpend : pending (.visit b :: work) = b :: pending work := rfl
  obtain ⟨hlt, hnew⟩ := h.pendingNew b (by rw [hpend]; exact List.mem_cons_self)
  obtain ⟨htop, hwait⟩ := h.waits
  obtain ⟨hdest, hbody⟩ := h.fresh b hlt hnew
  have hN := hin.vocab
  -- the phis, then the body
  obtain ⟨rows₁, hr1, hr2, hr3, hphase₁⟩ := renamePhis_spec hN (hin.lifted b) (g.rows b) h.rep
    fun r hr => ⟨hdest r hr, hin.varNames b r.var
      (h.rowVars b hlt ▸ List.mem_map_of_mem hr)⟩
  have hblock : w.blocks.getD b [] = (g.rows b).map PhiRow.phi ++ body b := by
    rw [h.blocks b hlt, hbody]
  rw [← hblock] at hr1 hr2 hphase₁
  obtain ⟨imp₂, hphase₂, hbody₂⟩ := renameInstructions_spec hN (body b) hphase₁.rep
    (hin.lifted b) (hin.names b)
  generalize hp : renamePhis (w.blocks.getD b []) w.state = p at hr1 hr2 hphase₁ hphase₂ hbody₂
  generalize hpops₁ : rows₁.map (fun r => (r.var, r.dest)) = pops₁ at hr2 hphase₁ hphase₂ hbody₂
  generalize hq : renameInstructions (body b) p.2.2 = q at hphase₂ hbody₂
  have hri : renameInstructions p.1 p.2.2 = (rows₁.map PhiRow.phi ++ q.1, q.2.1, q.2.2) := by
    rw [hr1, renameInstructions_phis hN, hq]
  have hdef := hphase₁.trans hN hphase₂
  have hpush : (g.stack.pushAll (pops₁ ++ q.2.1)).top =
      pushVersions (pushVersions g.stack.top pops₁) q.2.1 := by
    rw [Stacks.top_pushAll, pushVersions_append]
  -- the blocks with the renamed block in place
  have hvars₁ : rows₁.map PhiRow.var = vars b := by
    rw [← h.rowVars b hlt]
    have := congrArg (List.map Prod.fst) hr3
    simpa [List.map_map, Function.comp_def] using this
  have hdest₁ : ∀ r ∈ rows₁, N r.var ∧ IsVersion r.var r.dest := fun r hr =>
    hphase₁.names (r.var, r.dest) (hpops₁ ▸ List.mem_map_of_mem hr)
  have hkeys₁ : ∀ r ∈ rows₁, KeysOK f cfg r := by
    intro r hr
    have hmem : (r.var, r.sources) ∈ (g.rows b).map fun r => (r.var, r.sources) :=
      hr3 ▸ List.mem_map_of_mem hr
    obtain ⟨r₀, hr₀, e⟩ := List.mem_map.mp hmem
    have hs : r₀.sources = r.sources := congrArg Prod.snd e
    have hk := h.keys b hlt r₀ hr₀
    rwa [KeysOK, hs] at hk
  let w₁ : RenameWork := ⟨w.blocks.set b (rows₁.map PhiRow.phi ++ q.1), q.2.2, b :: w.active,
    b :: w.visited⟩
  let rows₂ := Function.update g.rows b rows₁
  let bodies₂ := Function.update g.bodies b q.1
  have hblocks : Blocks cfg N f w₁ rows₂ bodies₂ := by
    refine ⟨(List.length_set ..).trans h.length, fun c hc => ?_, fun c hc ins hins => ?_,
      fun c hc r hr => ?_, fun c hc r hr => ?_⟩
    · by_cases hcb : c = b
      · subst hcb
        simp only [rows₂, bodies₂, Function.update_self]
        exact getD_set_eq (by rw [h.length]; exact hc) _ _
      · simp only [rows₂, bodies₂, Function.update_of_ne hcb]
        rw [← h.blocks c hc]
        exact getD_set_of_ne hcb _ _
    · by_cases hcb : c = b
      · subst hcb
        simp only [bodies₂, Function.update_self] at hins
        exact hbody₂.notPhi (hin.lifted c) ins hins
      · simp only [bodies₂, Function.update_of_ne hcb] at hins
        by_cases hcv : c ∈ w.visited
        · obtain ⟨ver, pops, hd⟩ := h.done c hcv
          exact hd.renamed.notPhi (hin.lifted c) ins hins
        · rw [(h.fresh c hc hcv).2] at hins
          exact isPhi_of_lifted (hin.lifted c ins hins)
    · by_cases hcb : c = b
      · subst hcb
        simp only [rows₂, Function.update_self] at hr
        exact ⟨(hdest₁ r hr).1, (hdest₁ r hr).2.strip hN (hdest₁ r hr).1⟩
      · simp only [rows₂, Function.update_of_ne hcb] at hr
        have hv : N r.var := hin.varNames c r.var (h.rowVars c hc ▸ List.mem_map_of_mem hr)
        by_cases hcv : c ∈ w.visited
        · obtain ⟨ver, pops, hd⟩ := h.done c hcv
          exact ⟨hv, (hd.phis r hr).2.1.strip hN hv⟩
        · rw [(h.fresh c hc hcv).1 r hr]
          exact ⟨hv, hN.base r.var hv⟩
    · by_cases hcb : c = b
      · subst hcb
        simp only [rows₂, Function.update_self] at hr
        exact hkeys₁ r hr
      · simp only [rows₂, Function.update_of_ne hcb] at hr
        exact h.keys c hc r hr
  obtain ⟨rows', imp', hup⟩ := updateSuccessors_spec hin hlt hblocks hdef.rep (cfg.successors b)
    fun c hc => hin.closed.succ b c hc
  have hrb : renameBlock f cfg b w = (pops₁ ++ q.2.1,
      (cfg.successors b).foldl (updateSuccessor (workLabel f cfg b)) w₁) := by
    simp only [renameBlock, hp, hri, hr2, w₁]
  rw [hrb]
  generalize (cfg.successors b).foldl (updateSuccessor (workLabel f cfg b)) w₁ = w' at hup
  have hvisited : w'.visited = b :: w.visited := hup.visited
  -- no block that is known so far hangs below `b`
  have hsafe : ∀ c, c ∈ w.visited ∨ c ∈ pending (.visit b :: work) →
      idomAt idom c ≠ some b := by
    intro c hc e
    rcases h.parents c hc with rfl | ⟨p, hp, hpc⟩
    · rw [hin.entryIdom] at e
      cases e
    · rw [e] at hpc
      cases hpc
      exact hnew hp
  have hb_pend : b ∈ pending (.visit b :: work) := by
    rw [hpend]
    exact List.mem_cons_self
  have hwork_pend : ∀ c ∈ pending work, c ∈ pending (.visit b :: work) := fun c hc => by
    rw [hpend]
    exact List.mem_cons_of_mem _ hc
  have himp : Extended g.imp imp' := hdef.ext.trans hup.ext
  generalize hE : g.stack.pushAll (pops₁ ++ q.2.1) = E' at hup hpush
  have hrows_ne : ∀ c, c ≠ b → rows₂ c = g.rows c := fun c hcb => Function.update_of_ne hcb ..
  have hrows_b : rows₂ b = rows₁ := Function.update_self ..
  refine ⟨⟨rows', bodies₂, Function.update g.out b E'.top, imp',
    issue g.issued (pops₁ ++ q.2.1), E'⟩, ?_, hvisited⟩
  refine ⟨hup.blocks.length, hup.blocks.eq, fun c hc => ?_, fun c hc hcv => ?_, fun c hc => ?_,
    hup.blocks.keys, fun p hp c hc r hr => ?_, hup.rep, ?_, fun c hc => ?_, ?_, fun c hc => ?_,
    ?_, fun c hc => ?_, fun c hc => ?_, fun p hp c hc hpc => ?_, ?_⟩
  · -- variables of the rows
    have hrv : (rows' c).map PhiRow.var = (rows₂ c).map PhiRow.var :=
      forall₂_map_eq (fun _ _ hs => hs.var) (hup.step c hc)
    rw [hrv]
    by_cases hcb : c = b
    · rw [hcb, hrows_b, hvars₁]
    · rw [hrows_ne c hcb, h.rowVars c hc]
  · -- blocks still to visit
    rw [hvisited, List.mem_cons, not_or] at hcv
    refine ⟨fun r hr => ?_, ?_⟩
    · obtain ⟨r₀, hr₀, hs⟩ := forall₂_mem_right (hup.step c hc) hr
      rw [hrows_ne c hcv.1] at hr₀
      rw [hs.dest, hs.var, (h.fresh c hc hcv.2).1 r₀ hr₀]
    · show Function.update g.bodies b q.1 c = body c
      rw [Function.update_of_ne hcv.1, (h.fresh c hc hcv.2).2]
  · -- renamed blocks
    rw [hvisited] at hc
    rcases List.mem_cons.mp hc with rfl | hcv
    · refine ⟨pushVersions g.stack.top pops₁, q.2.1, fun x hx => ?_, fun r hr => ?_,
        fun x t hx ht => ?_, ?_, fun p hp => ⟨(hdef.names p (List.mem_append_right _ hp)).2, ?_⟩,
        ?_⟩
      · rw [pushVersions_of_notMem _ _ _ fun p hp e => hx ?_, htop,
          versionsAbove_update hin E'.top (hsafe c (Or.inr hb_pend))]
        rw [← hpops₁] at hp
        obtain ⟨r, hr, rfl⟩ := List.mem_map.mp hp
        rw [← e, ← hvars₁]
        exact List.mem_map_of_mem hr
      · obtain ⟨r₀, hr₀, hs⟩ := forall₂_mem_right (hup.step c hlt) hr
        rw [hrows_b] at hr₀
        have hmem : (r₀.var, r₀.dest) ∈ pops₁ := hpops₁ ▸ List.mem_map_of_mem hr₀
        have hnd : (pops₁.map Prod.fst).Nodup := by
          rw [← hpops₁, List.map_map]
          exact hvars₁.symm ▸ hin.varsNodup c
        rw [hs.var, hs.dest]
        exact ⟨pushVersions_of_mem _ _ hnd hmem, (hdest₁ r₀ hr₀).2,
          Or.inr ⟨_, List.mem_append_left _ hmem, rfl⟩⟩
      · rw [← Stacks.top_pushAll] at ht
        exact (hphase₁.rep.top x t hx (List.mem_of_mem_head? ht)).2
      · rw [← Stacks.top_pushAll]
        show RenamedBody imp' _ _ (Function.update g.bodies c q.1 c) _
        rw [Function.update_self]
        exact hbody₂.mono hup.ext
      · exact Or.inr ⟨p, List.mem_append_right _ hp, rfl⟩
      · show Function.update g.out c E'.top c = _
        rw [Function.update_self, hpush]
    · obtain ⟨ver, pops, hd⟩ := h.done c hcv
      have hcb : c ≠ b := fun e => hnew (e ▸ hcv)
      refine ⟨ver, pops, hd.grow hin (versionsAbove_update hin E'.top (hsafe c (Or.inl hcv))) ?_
        (Function.update_of_ne hcb ..) (Function.update_of_ne hcb ..) himp fun t ht => Or.inl ht⟩
      have hstep := hup.step c (h.visitedLt c hcv)
      rw [hrows_ne c hcb] at hstep
      exact hstep.imp fun _ _ hs => ⟨hs.var, hs.dest⟩
  · -- phi sources
    rw [hvisited] at hp
    rcases List.mem_cons.mp hp with rfl | hpv
    · obtain ⟨t, ht, hname⟩ := hup.sources c hc r hr
      refine ⟨t, ht, ?_⟩
      show NameOf imp' (Function.update g.out p E'.top p) r.var t
      rw [Function.update_self]
      exact hname
    · have hpb : p ≠ b := fun e => hnew (e ▸ hpv)
      have hclt := hin.closed.succ p c hc
      obtain ⟨r₂, hr₂, hs⟩ := forall₂_mem_right (hup.step c hclt) hr
      have hsrc := hs.others (hblocks.keys c hclt r₂ hr₂) p (h.visitedLt p hpv) hpb
      have hold : ∃ r₀ ∈ g.rows c, r₀.var = r₂.var ∧ r₀.sources = r₂.sources := by
        by_cases hcb : c = b
        · rw [hcb, hrows_b] at hr₂
          have hmem : (r₂.var, r₂.sources) ∈ (g.rows b).map fun r => (r.var, r.sources) :=
            hr3 ▸ List.mem_map_of_mem hr₂
          obtain ⟨r₀, hr₀, e⟩ := List.mem_map.mp hmem
          exact ⟨r₀, hcb ▸ hr₀, congrArg Prod.fst e, congrArg Prod.snd e⟩
        · rw [hrows_ne c hcb] at hr₂
          exact ⟨r₂, hr₂, rfl, rfl⟩
      obtain ⟨r₀, hr₀, hv₀, hs₀⟩ := hold
      obtain ⟨t, ht, hname⟩ := h.sources p hpv c hc r₀ hr₀
      refine ⟨t, by rw [hsrc, ← hs₀, ht], ?_⟩
      show NameOf imp' (Function.update g.out b E'.top p) r.var t
      rw [Function.update_of_ne hpb, hs.var, ← hv₀]
      exact hname.mono himp
  · -- the stacks of the blocks that wait
    refine workOK_children _ (fun c hc => ?_) ⟨g.stack, hE.symm, fun p hp => (hdef.names p hp).1,
      workOK_congr (fun c hc => versionsAbove_update hin E'.top
        (hsafe c (Or.inr (hwork_pend c hc)))) hwait⟩
    have hci := ((mem_domChildren hin).mp hc).2
    simp only [versionsAbove, Immediate.above, hci]
    rw [Function.update_self]
  · rw [hvisited] at hc
    rcases List.mem_cons.mp hc with rfl | hc
    · exact hlt
    · exact h.visitedLt c hc
  · rw [hvisited, List.nodup_cons]
    exact ⟨hnew, h.visitedNodup⟩
  · have ha : w'.active = b :: w.active := hup.active
    rw [ha] at hc
    rw [hvisited]
    rcases List.mem_cons.mp hc with rfl | hc
    · exact List.mem_cons_self
    · exact List.mem_cons_of_mem _ (h.active c hc)
  · rw [pending_append]
    show (domChildren idom b ++ pending work).Nodup
    have hpn := h.pendingNodup
    rw [hpend, List.nodup_cons] at hpn
    rw [List.nodup_append]
    refine ⟨List.nodup_range.filter _, hpn.2, fun c hc d hd e => ?_⟩
    subst e
    exact hsafe c (Or.inr (hwork_pend c hd)) ((mem_domChildren hin).mp hc).2
  · rw [pending_append] at hc
    rw [hvisited, List.mem_cons, not_or]
    rcases List.mem_append.mp hc with hc | hc
    · have hcc := (mem_domChildren hin).mp hc
      refine ⟨hcc.1, fun e => ?_, fun hcv => hsafe c (Or.inl hcv) hcc.2⟩
      exact hsafe b (Or.inr hb_pend) (e ▸ hcc.2)
    · have hcn := h.pendingNew c (hwork_pend c hc)
      have hpn := h.pendingNodup
      rw [hpend, List.nodup_cons] at hpn
      exact ⟨hcn.1, fun e => hpn.1 (e ▸ hc), hcn.2⟩
  · rw [pending_append, hvisited] at hc
    rw [hvisited]
    have up : (c = cfg.entry ∨ ∃ p ∈ w.visited, idomAt idom c = some p) →
        c = cfg.entry ∨ ∃ p ∈ b :: w.visited, idomAt idom c = some p := by
      rintro (e | ⟨p, hp, e⟩)
      · exact Or.inl e
      · exact Or.inr ⟨p, List.mem_cons_of_mem _ hp, e⟩
    rcases hc with hc | hc
    · rcases List.mem_cons.mp hc with rfl | hc
      · exact up (h.parents c (Or.inr hb_pend))
      · exact up (h.parents c (Or.inl hc))
    · rcases List.mem_append.mp hc with hc | hc
      · exact Or.inr ⟨b, List.mem_cons_self, ((mem_domChildren hin).mp hc).2⟩
      · exact up (h.parents c (Or.inr (hwork_pend c hc)))
  · rw [hvisited] at hp ⊢
    rw [pending_append]
    rcases List.mem_cons.mp hp with rfl | hp
    · exact Or.inr (List.mem_append_left _ ((mem_domChildren hin).mpr ⟨hc, hpc⟩))
    · rcases h.children p hp c hc hpc with hcv | hcp
      · exact Or.inl (List.mem_cons_of_mem _ hcv)
      · rw [hpend] at hcp
        rcases List.mem_cons.mp hcp with rfl | hcp
        · exact Or.inl List.mem_cons_self
        · exact Or.inr (List.mem_append_right _ hcp)
  · rw [hvisited, pending_append]
    rcases h.start with hs | hs
    · exact Or.inl (List.mem_cons_of_mem _ hs)
    · rw [hpend] at hs
      rcases List.mem_cons.mp hs with e | hs
      · exact Or.inl (e ▸ List.mem_cons_self)
      · exact Or.inr (List.mem_append_right _ hs)

theorem leave_spec {pops : List (String × String)}
        (h : RenameInv N f cfg idom vars body (.leave b pops :: work) w g) :
    ∃ st g', popVersions w.state.versionStacks pops = some st ∧
      RenameInv N f cfg idom vars body work
        { w with state := ⟨st, w.state.nextVersions⟩, active := w.active.erase b } g' := by
  have hpend : pending (.leave b pops :: work) = pending work := rfl
  obtain ⟨E', he, hp, hw⟩ := h.waits
  have hrep := h.rep
  rw [he] at hrep
  obtain ⟨st, hst, hr⟩ := popVersions_spec hin.vocab pops hrep hp
  refine ⟨st, { g with stack := E' }, hst, h.length, h.blocks, h.rowVars, h.fresh, fun c hc => ?_,
    h.keys, h.sources, hr, hw, h.visitedLt, h.visitedNodup, fun c hc =>
      h.active c (List.mem_of_mem_erase hc), h.pendingNodup, h.pendingNew, h.parents,
    h.children, h.start⟩
  obtain ⟨ver, ps, hd⟩ := h.done c hc
  exact ⟨ver, ps, hd.above, hd.phis, hd.typed, hd.renamed, hd.defined, hd.out⟩

/-- **The loop ends, with every block that was pushed renamed.** -/
theorem renameLoop_spec (k : Nat)
    (h : RenameInv N f cfg idom vars body work w g)
    (hk : 2 * cfg.count + leaves work ≤ k + 2 * w.visited.length) :
    ∃ w' g', renameLoop f cfg idom k work w = some w' ∧
      RenameInv N f cfg idom vars body [] w' g' := by
  induction k generalizing work w g with
  | zero =>
    cases work with
    | nil => exact ⟨w, g, by rw [renameLoop], h⟩
    | cons item work =>
      cases item with
      | leave b pops =>
        have := length_le_of_nodup h.visitedNodup h.visitedLt
        simp only [leaves] at hk
        omega
      | visit b =>
        obtain ⟨hb, hn⟩ := h.pendingNew b List.mem_cons_self
        have hnd : (b :: w.visited).Nodup := List.nodup_cons.mpr ⟨hn, h.visitedNodup⟩
        have := length_le_of_nodup (n := cfg.count) hnd fun c hc => by
          rcases List.mem_cons.mp hc with rfl | hc
          · exact hb
          · exact h.visitedLt c hc
        simp only [List.length_cons] at this
        omega
  | succ k ih =>
    cases work with
    | nil => exact ⟨w, g, by rw [renameLoop], h⟩
    | cons item work =>
      cases item with
      | leave b pops =>
        obtain ⟨st, g', hst, hinv⟩ := leave_spec hin h
        simp only [renameLoop, hst]
        refine ih hinv ?_
        simp only [leaves] at hk ⊢
        omega
      | visit b =>
        obtain ⟨-, hn⟩ := h.pendingNew b List.mem_cons_self
        obtain ⟨g', hinv, hv⟩ := visit_spec hin h
        simp only [renameLoop, if_neg fun ha => hn (h.active b ha)]
        refine ih hinv ?_
        rw [leaves_append, hv]
        simp only [leaves, List.length_cons] at hk ⊢
        omega

end

end DolTranslator.Ssa
