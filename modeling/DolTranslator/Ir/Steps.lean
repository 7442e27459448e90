import DolTranslator.Ir.Cfg
import DolTranslator.Transition.Runs

/-!
# Runs, one instruction after the other

A `Config` is a place in a function (block and position) with a state.  `advance` executes the
instruction there; `enter` says what happens to the state on the way into a block.

`IrFunction.WellFormed.advance_cases` is what one step can do: go on in the block, or enter another
block along an edge of the graph.
-/

namespace DolTranslator

/-- a place in a function, and the state there -/
@[ext] structure Config (σ : Type) where
  block : Nat
  index : Nat
  state : σ

namespace Machine

variable {σ V : Type} (m : Machine σ V) (f : IrFunction) (enter : Nat → Nat → σ → σ)

def leave (c : Config σ) (flow : Flow V) : Option (Config σ) :=
  (f.nextBlock c.block flow).map fun next => ⟨next, 0, enter c.block next c.state⟩

/-- one step; nothing follows an instruction that leaves the function -/
def advance (c : Config σ) : Option (Config σ) :=
  match (f.body c.block)[c.index]? with
  | none => leave (V := V) f enter c .next
  | some ins =>
    match m.flow ins c.state with
    | .next => some ⟨c.block, c.index + 1, (m.step ins c.state).1⟩
    | flow => leave f enter c flow

/-- a property of the instruction about to be executed -/
def AtStep (f : IrFunction) (P : IrInstruction → σ → Prop) (c : Config σ) : Prop :=
  ∀ ins ∈ (f.body c.block)[c.index]?, P ins c.state

end Machine

section
variable {σ V : Type} {m : Machine σ V} {f : IrFunction} {cfg : IrCfg}
  {enter : Nat → Nat → σ → σ}

theorem IrFunction.labelIndex_lt_length {f : IrFunction} {label : String} {j : Nat}
    (h : f.labelIndex label = some j) : j < f.blocks.length :=
  (List.findIdx?_eq_some_iff_getElem.mp h).1

theorem IrFunction.body_eq {f : IrFunction} {b : Nat} (hb : b < f.blocks.length) :
    f.body b = f.blocks[b].instructions := by
  rw [IrFunction.body, List.getElem?_eq_getElem hb]

theorem IrCfg.successors_of_build (hf : (f.blocks.map fun b => foldCase b.label).Nodup)
    (hc : IrCfg.build f = some cfg) {b : Nat} (hb : b < f.blocks.length) :
    cfg.successors b = IrCfg.successorsOf f b f.blocks[b] := by
  rw [IrCfg.build, if_pos hf, Option.map_eq_some_iff] at hc
  obtain ⟨entry, -, rfl⟩ := hc
  simp [IrCfg.successors, hb]

theorem IrFunction.WellFormed.terminator_last (hf : f.WellFormed) {b i : Nat}
    (hb : b < f.blocks.length) {ins : IrInstruction} (hi : (f.body b)[i]? = some ins)
    (ht : ins.isTerminator = true) : (f.body b).getLast? = some ins ∧ i + 1 = (f.body b).length := by
  obtain ⟨hlt, he⟩ := List.getElem?_eq_some_iff.mp hi
  have hlast : i + 1 = (f.body b).length := by
    by_contra hne
    have hmem : ins ∈ (f.body b).dropLast := by
      refine List.mem_iff_getElem.mpr ⟨i, by rw [List.length_dropLast]; omega, ?_⟩
      rw [List.getElem_dropLast, he]
    rw [f.body_eq hb] at hmem
    have := hf.transfers _ (List.getElem_mem hb) ins hmem
    rw [ht] at this
    cases this
  refine ⟨?_, hlast⟩
  rw [List.getLast?_eq_getElem?, ← hlast, Nat.add_sub_cancel, hi]

/-- a place that a run can be at: no instruction before it leaves the block -/
structure Config.Inside (f : IrFunction) (c : Config σ) : Prop where
  block : c.block < f.blocks.length
  index : c.index ≤ (f.body c.block).length
  passed : ∀ ins ∈ (f.body c.block).take c.index, ins.isTerminator = false

theorem Config.Inside.start {b : Nat} (hb : b < f.blocks.length) (s : σ) :
    Config.Inside f ⟨b, 0, s⟩ :=
  ⟨hb, Nat.zero_le _, fun _ h => by cases h⟩

theorem IrCfg.successorsOf_fallthrough {b : Nat} {blk : IrBasicBlock} {last : IrInstruction}
    (hlast : blk.instructions.getLast? = some last) (ht : last.isTerminator = false)
    (hlt : b + 1 < f.blocks.length) : IrCfg.successorsOf f b blk = [b + 1] := by
  have hex : IrCfg.explicitSuccessors f last = [] := by
    cases last <;> first | rfl | cases ht
  simp [IrCfg.successorsOf, hlast, ht, hex, hlt]

theorem IrCfg.mem_successorsOf {b j : Nat} {blk : IrBasicBlock} {last : IrInstruction}
    {label : String} (hlast : blk.instructions.getLast? = some last) (hl : label ∈ last.targets)
    (hj : f.labelIndex label = some j) : j ∈ IrCfg.successorsOf f b blk := by
  have hmem := IrCfg.mem_explicitSuccessors f hl hj
  have hex : (IrCfg.explicitSuccessors f last).isEmpty = false := by
    cases he : IrCfg.explicitSuccessors f last with
    | nil => rw [he] at hmem; cases hmem
    | cons a l => rfl
  simpa [IrCfg.successorsOf, hlast, hex] using hmem

/-- **What one step can do.**  It executes an instruction and stays in the block, or it follows an
edge of the graph after the last instruction that is not a terminator. -/
theorem IrFunction.WellFormed.advance_cases (hm : m.Transfers) (hf : f.WellFormed)
    (hc : IrCfg.build f = some cfg) {c c' : Config σ} (hin : c.Inside f)
    (h : m.advance f enter c = some c') :
    (∃ ins, (f.body c.block)[c.index]? = some ins ∧ ins.isTerminator = false ∧
      c' = ⟨c.block, c.index + 1, (m.step ins c.state).1⟩) ∨
    (∃ next, next ∈ cfg.successors c.block ∧ next < f.blocks.length ∧
      c' = ⟨next, 0, enter c.block next c.state⟩ ∧
      ∀ ins ∈ (f.body c.block).drop c.index, ins.isTerminator = true) := by
  have hsucc := IrCfg.successors_of_build hf.labels hc hin.block
  have hbody := f.body_eq hin.block
  cases hins : (f.body c.block)[c.index]? with
  | none =>
    right
    have hend : (f.body c.block).length ≤ c.index := List.getElem?_eq_none_iff.mp hins
    simp only [Machine.advance, hins, Machine.leave, IrFunction.nextBlock] at h
    split at h
    · rename_i hlt
      obtain rfl := Option.some.inj h
      refine ⟨c.block + 1, ?_, hlt, rfl, fun ins hm => ?_⟩
      · -- the block falls through: its last instruction was passed
        have hne := hf.nonempty _ (List.getElem_mem hin.block)
        have hlast := List.getLast?_eq_some_getLast hne
        have hmem : f.blocks[c.block].instructions.getLast hne ∈ (f.body c.block).take c.index := by
          rw [List.take_of_length_le hend, hbody]
          exact List.getLast_mem hne
        rw [hsucc, IrCfg.successorsOf_fallthrough hlast (hin.passed _ hmem) hlt]
        exact List.mem_singleton_self _
      · rw [List.drop_eq_nil_of_le hend] at hm
        cases hm
    · cases h
  | some ins =>
    cases ht : ins.isTerminator with
    | false =>
      left
      have hflow := (hm.next ins c.state).mpr ht
      simp only [Machine.advance, hins, hflow] at h
      exact ⟨ins, rfl, ht, (Option.some.inj h).symm⟩
    | true =>
      right
      obtain ⟨hlast, hlen⟩ := hf.terminator_last hin.block hins ht
      have hdrop : (f.body c.block).drop c.index = [ins] := by
        obtain ⟨hlt, he⟩ := List.getElem?_eq_some_iff.mp hins
        rw [List.drop_eq_getElem_cons hlt, he, List.drop_eq_nil_of_le hlen.ge]
      cases hflow : m.flow ins c.state with
      | next =>
        have := (hm.next ins c.state).mp hflow
        rw [ht] at this
        cases this
      | goto label =>
        simp only [Machine.advance, hins, hflow, Machine.leave, IrFunction.nextBlock,
          Option.map_eq_some_iff] at h
        obtain ⟨next, hnext, rfl⟩ := h
        rw [hbody] at hlast
        refine ⟨next, ?_, f.labelIndex_lt_length hnext, rfl, fun x hx => ?_⟩
        · rw [hsucc]
          exact IrCfg.mem_successorsOf hlast (hm.goto ins c.state label hflow) hnext
        · rw [hdrop] at hx
          rw [List.mem_singleton.mp hx, ht]
      | _ => simp [Machine.advance, hins, hflow, Machine.leave, IrFunction.nextBlock] at h

theorem IrFunction.WellFormed.advance_inside (hm : m.Transfers) (hf : f.WellFormed)
    (hc : IrCfg.build f = some cfg) {c c' : Config σ} (hin : c.Inside f)
    (h : m.advance f enter c = some c') : c'.Inside f := by
  obtain ⟨ins, hins, ht, rfl⟩ | ⟨next, -, hlt, rfl, -⟩ := hf.advance_cases hm hc hin h
  · obtain ⟨hlt, he⟩ := List.getElem?_eq_some_iff.mp hins
    refine ⟨hin.block, hlt, fun x hx => ?_⟩
    rw [List.take_add_one, List.mem_append] at hx
    rcases hx with hx | hx
    · exact hin.passed x hx
    · rw [hins] at hx
      rw [List.mem_singleton.mp hx, ht]
  · exact .start hlt _

end

end DolTranslator
