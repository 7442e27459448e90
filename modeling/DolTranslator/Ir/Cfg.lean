import DolTranslator.Ir.Semantics

/-!
# The control-flow graph of a function

`IrCfg.build` reads the edges off the last instruction of each block.  A block is its ordinal in
the function, a label is looked up without regard to case, and an unknown label adds no edge.

`nextBlock` is where a run goes: `nextBlock_mem` says that it follows the edges when only the last
instruction of a block transfers control.
-/

namespace DolTranslator

def sameLabel (a b : String) : Bool := foldCase a == foldCase b

def IrFunction.labelIndex (f : IrFunction) (label : String) : Option Nat :=
  f.blocks.findIdx? (fun b => sameLabel b.label label)

def IrFunction.body (f : IrFunction) (i : Nat) : List IrInstruction :=
  match f.blocks[i]? with
  | some b => b.instructions
  | none => []

def IrFunction.labelOf (f : IrFunction) (i : Nat) : String :=
  match f.blocks[i]? with
  | some b => b.label
  | none => ""

structure IrCfg where
  count : Nat
  entry : Nat
  succ : List (List Nat)
deriving DecidableEq, Repr

namespace IrCfg

def explicitSuccessors (f : IrFunction) : IrInstruction → List Nat
  | .branch _ trueLabel falseLabel _ =>
    (f.labelIndex trueLabel).toList ++ (f.labelIndex falseLabel).toList
  | .jump label => (f.labelIndex label).toList
  | .jumpTable _ cases => (cases.filterMap fun c => f.labelIndex c.targetLabel).eraseDups
  | _ => []

def successorsOf (f : IrFunction) (i : Nat) (b : IrBasicBlock) : List Nat :=
  match b.instructions.getLast? with
  | none => []
  | some term =>
    let explicit := explicitSuccessors f term
    if !term.isTerminator && explicit.isEmpty && decide (i + 1 < f.blocks.length) then [i + 1]
    else explicit

def build (f : IrFunction) : Option IrCfg :=
  if (f.blocks.map fun b => foldCase b.label).Nodup then
    (f.labelIndex f.entryLabel).map fun entry =>
      ⟨f.blocks.length, entry, f.blocks.mapIdx (successorsOf f)⟩
  else none

def successors (cfg : IrCfg) (i : Nat) : List Nat := cfg.succ.getD i []

def predecessors (cfg : IrCfg) (i : Nat) : List Nat :=
  (List.range cfg.count).flatMap fun j => (cfg.successors j).filterMap fun k =>
    if k = i then some j else none

theorem mem_predecessors (cfg : IrCfg) (i j : Nat) :
    j ∈ cfg.predecessors i ↔ j < cfg.count ∧ i ∈ cfg.successors j := by
  simp only [predecessors, List.mem_flatMap, List.mem_range, List.mem_filterMap]
  constructor
  · rintro ⟨k, hk, m, hm, h⟩
    by_cases hmi : m = i
    · rw [if_pos hmi] at h
      cases h
      exact ⟨hk, hmi ▸ hm⟩
    · rw [if_neg hmi] at h
      cases h
  · rintro ⟨hj, hi⟩
    exact ⟨j, hj, i, hi, by rw [if_pos rfl]⟩

end IrCfg

/-! ## where a run goes -/

/-- the block after block `i`, when its instructions end in `flow` -/
def IrFunction.nextBlock {V : Type} (f : IrFunction) (i : Nat) : Flow V → Option Nat
  | .goto label => f.labelIndex label
  | .next => if i + 1 < f.blocks.length then some (i + 1) else none
  | _ => none

/-- blocks have distinct labels and instructions, only the last one of which leaves the block -/
structure IrFunction.WellFormed (f : IrFunction) : Prop where
  labels : (f.blocks.map fun b => foldCase b.label).Nodup
  entry : (f.labelIndex f.entryLabel).isSome
  nonempty : ∀ b ∈ f.blocks, b.instructions ≠ []
  transfers : ∀ b ∈ f.blocks, ∀ ins ∈ b.instructions.dropLast, ins.isTerminator = false

def IrInstruction.targets : IrInstruction → List String
  | .branch _ trueLabel falseLabel _ => [trueLabel, falseLabel]
  | .jump label => [label]
  | .jumpTable _ cases => cases.map IrJumpTableCase.targetLabel
  | _ => []

section
variable {V W : Type} (env : Env V W) (read regs : String → V) (world : W)

theorem transfer_eq_next (ins : IrInstruction) :
    transfer env read regs world ins = .next ↔ ins.isTerminator = false := by
  cases ins with
  | branch c t e r =>
    simp only [transfer, IrInstruction.isTerminator]
    split <;> simp
  | jumpTable sel cases =>
    simp only [transfer, IrInstruction.isTerminator]
    split
    · split <;> simp
    · simp
  | _ => simp [transfer, IrInstruction.isTerminator]

theorem mem_targets_of_goto {ins : IrInstruction} {label : String}
    (h : transfer env read regs world ins = .goto label) : label ∈ ins.targets := by
  cases ins with
  | branch c t e r =>
    simp only [transfer] at h
    split at h
    · cases h
      exact List.mem_cons_self
    · cases h
      exact List.mem_cons_of_mem _ List.mem_cons_self
  | jump l =>
    cases h
    exact List.mem_cons_self
  | jumpTable sel cases =>
    simp only [transfer] at h
    split at h
    · split at h
      · rename_i c hc
        cases h
        exact List.mem_map_of_mem (List.mem_of_getElem? hc)
      · cases h
    · cases h
  | _ => simp [transfer] at h

end

theorem IrCfg.mem_explicitSuccessors (f : IrFunction) {ins : IrInstruction} {label : String}
    {j : Nat} (hl : label ∈ ins.targets) (hj : f.labelIndex label = some j) :
    j ∈ explicitSuccessors f ins := by
  cases ins with
  | branch c t e r =>
    simp only [IrInstruction.targets, List.mem_cons, List.not_mem_nil, or_false] at hl
    rcases hl with rfl | rfl
    · simp [explicitSuccessors, hj]
    · simp [explicitSuccessors, hj]
  | jump l =>
    have e : label = l := List.mem_singleton.mp hl
    simp [explicitSuccessors, ← e, hj]
  | jumpTable sel cases =>
    obtain ⟨c, hc, rfl⟩ := List.mem_map.mp hl
    simp only [explicitSuccessors, List.mem_eraseDups, List.mem_filterMap]
    exact ⟨c, hc, hj⟩
  | _ => simp [IrInstruction.targets] at hl

/-- a machine whose control instructions go where `transfer` sends them -/
structure Machine.Transfers {σ V : Type} (m : Machine σ V) : Prop where
  next : ∀ ins s, m.flow ins s = .next ↔ ins.isTerminator = false
  goto : ∀ ins s label, m.flow ins s = .goto label → label ∈ ins.targets

section
variable {σ V : Type} {m : Machine σ V}

theorem Machine.Transfers.runBody_flow (hm : m.Transfers) (body : List IrInstruction)
    (last : IrInstruction) (h : ∀ ins ∈ body, ins.isTerminator = false) (s : σ) :
    ∃ t, (m.runBody (body ++ [last]) s).2.2 = m.flow last t := by
  induction body generalizing s with
  | nil =>
    refine ⟨s, ?_⟩
    simp only [List.nil_append, runBody]
    cases m.flow last s <;> rfl
  | cons ins body ih =>
    have hn := (hm.next ins s).mpr (h ins List.mem_cons_self)
    simp only [List.cons_append, runBody, hn]
    exact ih (fun i hi => h i (List.mem_cons_of_mem _ hi)) _

/-- **A run follows the edges of the graph.** -/
theorem IrFunction.WellFormed.nextBlock_mem (hm : m.Transfers) {f : IrFunction}
    (hf : f.WellFormed) {cfg : IrCfg} (hc : IrCfg.build f = some cfg) {i j : Nat} (s : σ)
    (hi : i < f.blocks.length) (h : f.nextBlock i (m.runBody (f.body i) s).2.2 = some j) :
    j ∈ cfg.successors i := by
  have hb : f.blocks[i]? = some f.blocks[i] := List.getElem?_eq_getElem hi
  have hmem : f.blocks[i] ∈ f.blocks := List.getElem_mem hi
  have hbody : f.body i = f.blocks[i].instructions := by rw [IrFunction.body, hb]
  have hne := hf.nonempty _ hmem
  obtain ⟨t, ht⟩ := hm.runBody_flow f.blocks[i].instructions.dropLast
    (f.blocks[i].instructions.getLast hne) (hf.transfers _ hmem) s
  rw [List.dropLast_append_getLast hne] at ht
  rw [hbody, ht] at h
  generalize hterm : f.blocks[i].instructions.getLast hne = term at h
  have hlast : f.blocks[i].instructions.getLast? = some term := by
    rw [List.getLast?_eq_some_getLast hne, hterm]
  rw [IrCfg.build, if_pos hf.labels, Option.map_eq_some_iff] at hc
  obtain ⟨entry, -, rfl⟩ := hc
  have hsucc : IrCfg.successors ⟨f.blocks.length, entry, f.blocks.mapIdx (IrCfg.successorsOf f)⟩ i
      = IrCfg.successorsOf f i f.blocks[i] := by
    simp [IrCfg.successors, hi]
  rw [hsucc, IrCfg.successorsOf, hlast]
  cases hflow : m.flow term t with
  | next =>
    rw [hflow] at h
    have hnt := (hm.next term t).mp hflow
    simp only [IrFunction.nextBlock] at h
    split at h
    · rename_i hlt
      cases h
      have hex : IrCfg.explicitSuccessors f term = [] := by
        cases term <;> first | rfl | simp [IrInstruction.isTerminator] at hnt
      simp [hnt, hex, hlt]
    · cases h
  | goto label =>
    rw [hflow] at h
    have hmemT := IrCfg.mem_explicitSuccessors f (hm.goto term t label hflow) h
    have hex : (IrCfg.explicitSuccessors f term).isEmpty = false := by
      cases he : IrCfg.explicitSuccessors f term with
      | nil => rw [he] at hmemT; cases hmemT
      | cons a l => rfl
    simpa [hex] using hmemT
  | _ =>
    rw [hflow] at h
    simp [IrFunction.nextBlock] at h

end

end DolTranslator
