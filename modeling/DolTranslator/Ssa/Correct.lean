import DolTranslator.Ssa.RenameLoop

/-!
# Runs of a function and of its SSA form

* `trackedMachine`   the plain machine, which also remembers the value that the last versioned
  definition gave to each name (`named`): calls and helpers change registers behind its back;
* `ssaMachine`   reads operands under version names; what the runtime reads and writes on its
  own are still the architectural registers;
* `enterPhis`   the phis of a block take the sources of the block just left;
* `runBlocks`   a run, block after block;
* `SsaInput`   the functions that the conversion is for.
-/

set_option linter.unusedSectionVars false

namespace DolTranslator
open FlowGraph

/-! ## runs -/

section
variable {σ V : Type}

/-- one block of a run: its ordinal, the log of its instructions, and how it was left -/
abbrev BlockRun (V : Type) := Nat × List (LogEntry V) × Flow V

def IrFunction.straightBody (f : IrFunction) (b : Nat) : List IrInstruction :=
  (f.body b).filter fun ins => !ins.isPhi

/-- the first `k` blocks of a run that comes from `pred` and starts with block `b` -/
def Machine.runBlocks (m : Machine σ V) (f : IrFunction) (enter : Option Nat → Nat → σ → σ) :
    Nat → Option Nat → Nat → σ → List (BlockRun V)
  | 0, _, _, _ => []
  | k + 1, pred, b, s =>
    let r := m.runBody (f.straightBody b) (enter pred b s)
    (b, r.2.1, r.2.2) ::
      match f.nextBlock b r.2.2 with
      | some next => m.runBlocks f enter k (some b) next r.1
      | none => []

/-- `P` holds before every instruction that is executed -/
def Machine.StepsSatisfy (m : Machine σ V) (P : IrInstruction → σ → Prop) :
    List IrInstruction → σ → Prop
  | [], _ => True
  | ins :: rest, s => P ins s ∧ (m.flow ins s = .next → m.StepsSatisfy P rest (m.step ins s).1)

def Machine.RunSatisfies (m : Machine σ V) (f : IrFunction) (enter : Option Nat → Nat → σ → σ)
    (P : IrInstruction → σ → Prop) : Nat → Option Nat → Nat → σ → Prop
  | 0, _, _, _ => True
  | k + 1, pred, b, s =>
    m.StepsSatisfy P (f.straightBody b) (enter pred b s) ∧
      ∀ next ∈ f.nextBlock b (m.runBody (f.straightBody b) (enter pred b s)).2.2,
        m.RunSatisfies f enter P k (some b) next
          (m.runBody (f.straightBody b) (enter pred b s)).1

instance Machine.decidableStepsSatisfy [DecidableEq V] (m : Machine σ V)
    (P : IrInstruction → σ → Prop) [∀ ins s, Decidable (P ins s)] :
    ∀ body s, Decidable (m.StepsSatisfy P body s)
  | [], _ => isTrue trivial
  | ins :: rest, s =>
    have := decidableStepsSatisfy m P rest (m.step ins s).1
    inferInstanceAs (Decidable (P ins s ∧ (m.flow ins s = .next → _)))

instance Machine.decidableRunSatisfies [DecidableEq V] (m : Machine σ V) (f : IrFunction)
    (enter : Option Nat → Nat → σ → σ) (P : IrInstruction → σ → Prop)
    [∀ ins s, Decidable (P ins s)] :
    ∀ k pred b s, Decidable (m.RunSatisfies f enter P k pred b s)
  | 0, _, _, _ => isTrue trivial
  | k + 1, pred, b, s =>
    have := fun next => decidableRunSatisfies m f enter P k (some b) next
      (m.runBody (f.straightBody b) (enter pred b s)).1
    inferInstanceAs (Decidable (m.StepsSatisfy P (f.straightBody b) (enter pred b s) ∧
      ∀ next ∈ f.nextBlock b (m.runBody (f.straightBody b) (enter pred b s)).2.2, _))

end

namespace Ssa

section
variable {V W : Type}

/-! ## the original function -/

/-- registers, and the value the last versioned definition gave to each name -/
structure TrackedState (V W : Type) where
  regs : String → V
  named : String → V
  world : W

def TrackedState.step (env : Env V W) (ins : IrInstruction) (s : TrackedState V W) :
    TrackedState V W × List (Event V) :=
  let r := State.step env ins ⟨s.regs, s.world⟩
  let e := execute env s.regs s.regs s.world ins
  (⟨r.1.regs, assignAll s.named (versioned ins) e.results, r.1.world⟩, r.2)

/-- the plain machine with the record `named`; a branch logs the recorded value of its condition
register -/
def trackedMachine (env : Env V W) : Machine (TrackedState V W) V where
  operandValues ins s := ins.operands.map s.regs ++ (conditionReads ins).map s.named
  step ins s := s.step env ins
  flow ins s := transfer env s.regs s.regs s.world ins

/-- a run that comes back to the entry block starts the record again from the values at function
entry -/
def restartNamed (entry : Nat) (initial : String → V) (pred : Option Nat) (b : Nat)
    (s : TrackedState V W) : TrackedState V W :=
  if pred.isSome ∧ b = entry then { s with named := initial } else s

/-- every operand still holds what the last versioned definition gave it -/
def ReadsNamed (ins : IrInstruction) (s : TrackedState V W) : Prop :=
  ∀ x ∈ ins.operands, s.named x = s.regs x

instance [DecidableEq V] (ins : IrInstruction) (s : TrackedState V W) :
    Decidable (ReadsNamed ins s) :=
  inferInstanceAs (Decidable (∀ x ∈ ins.operands, s.named x = s.regs x))

theorem trackedMachine_runBody (env : Env V W) (body : List IrInstruction) :
    ∀ s : TrackedState V W,
      (⟨((trackedMachine env).runBody body s).1.regs,
          ((trackedMachine env).runBody body s).1.world⟩ : State V W) =
        ((plainMachine env).runBody body ⟨s.regs, s.world⟩).1 ∧
      ((trackedMachine env).runBody body s).2.1.map Prod.snd =
        ((plainMachine env).runBody body ⟨s.regs, s.world⟩).2.1.map Prod.snd ∧
      ((trackedMachine env).runBody body s).2.2 =
        ((plainMachine env).runBody body ⟨s.regs, s.world⟩).2.2 := by
  induction body with
  | nil => exact fun s => ⟨rfl, rfl, rfl⟩
  | cons ins body ih =>
    intro s
    have hflow : (trackedMachine env).flow ins s = (plainMachine env).flow ins ⟨s.regs, s.world⟩ :=
      rfl
    cases hf : (plainMachine env).flow ins ⟨s.regs, s.world⟩ with
    | next =>
      obtain ⟨h1, h2, h3⟩ := ih ((trackedMachine env).step ins s).1
      simp only [Machine.runBody, hflow, hf, List.map_cons]
      exact ⟨h1, congrArg _ h2, h3⟩
    | _ => simp [Machine.runBody, hflow, hf]

/-! ## its SSA form -/

structure SsaState (V W : Type) where
  names : String → V
  regs : String → V
  world : W

def SsaState.step (env : Env V W) (ins : IrInstruction) (s : SsaState V W) :
    SsaState V W × List (Event V) :=
  let e := execute env s.names s.regs s.world ins
  (⟨assignAll s.names ins.definitions e.results,
    assignAll e.regs (ins.definitions.map stripNumericSuffix) e.results, e.world⟩, e.events)

def ssaMachine (env : Env V W) : Machine (SsaState V W) V where
  operandValues ins s := (renamedReads ins).map s.names
  step ins s := s.step env ins
  flow ins s := transfer env s.names s.regs s.world ins

/-- the value of one phi; a phi without a source for the edge has no value of its own -/
def phiValue (undef : V) (pred : Option String) (names : String → V)
    (sources : List (String × String)) : V :=
  match pred.bind (sourceFor sources) with
  | some t => names t
  | none => undef

def assignPhis (undef : V) (pred : Option String) (names : String → V) :
    List IrInstruction → (String → V) → (String → V)
  | [], acc => acc
  | .phi d sources :: rest, acc =>
    assignPhis undef pred names rest (Function.update acc d (phiValue undef pred names sources))
  | _ :: rest, acc => assignPhis undef pred names rest acc

def enterPhis (g : IrFunction) (undef : V) (pred : Option Nat) (b : Nat) (s : SsaState V W) :
    SsaState V W :=
  { s with names := assignPhis undef (pred.map g.labelOf) s.names (g.body b) s.names }

end

/-! ## what the conversion is for -/

/-- reads of block-local temporaries come after a definition in the block -/
def TempsLocal : List String → List IrInstruction → Prop
  | _, [] => True
  | defined, ins :: rest =>
    (∀ x ∈ renamedReads ins, isBlockLocalTemp x = true → x ∈ defined) ∧
      TempsLocal (versioned ins ++ defined) rest

/-- reachable from the entry block -/
def FromEntry (cfg : IrCfg) (i : Nat) : Prop := Rooted (· = cfg.entry) (Edge cfg) i

def UsesName (f : IrFunction) (x : String) : Prop :=
  ∃ b ∈ f.blocks, ∃ ins ∈ b.instructions, x ∈ renamedNames ins

/-- the functions that come out of the lifter, with the shapes of the graph that the conversion
gets right -/
structure SsaInput (f : IrFunction) (cfg : IrCfg) : Prop where
  build : IrCfg.build f = some cfg
  wellFormed : f.WellFormed
  lifted : ∀ b ∈ f.blocks, ∀ ins ∈ b.instructions, isLifted ins = true
  vocabulary : Vocabulary (UsesName f)
  temps : ∀ b ∈ f.blocks, TempsLocal [] b.instructions
  rooted : ∀ i, i < cfg.count → Reach cfg i
  entered : ∀ p i, FromEntry cfg i → Edge cfg p i → FromEntry cfg p
  entryEdges : (cfg.predecessors cfg.entry).length ≤ 1

def DefinedIn (g : IrFunction) (t : String) : Prop :=
  ∃ b ∈ g.blocks, ∃ ins ∈ b.instructions, t ∈ ins.definitions

end Ssa

end DolTranslator

/-!
## SSA conversion preserves runs

* `RenamedInstruction.step`   one renamed instruction keeps `Sim`;
* `RenamedBody.run`           so does a renamed block;
* `Converted`                 what `convert` returns, block by block, and `convert_spec`;
* `Converted.edge`            along an edge the phis re-establish `Sim`;
* `convert_preserves`         the main result.
-/

set_option linter.unusedSectionVars false

namespace DolTranslator.Ssa
open FlowGraph

/-! ## one instruction -/

variable {ins : IrInstruction}

section
variable {V W : Type} (env : Env V W)

theorem eval_mapValue (read : String → V) (ρ : String → String) (v : IrValue) :
    (mapValue ρ v).eval env read = v.eval env (fun x => read (ρ x)) := by
  cases v <;> rfl

theorem map_eval_mapValue (read : String → V) (ρ : String → String) (vs : List IrValue) :
    (vs.map (mapValue ρ)).map (IrValue.eval env read) =
      vs.map (IrValue.eval env fun x => read (ρ x)) := by
  rw [List.map_map]
  exact List.map_congr_left fun v _ => eval_mapValue env read ρ v

/-- a version is not blank -/
def KeepsBlank (δ : String → String) (ins : IrInstruction) : Prop :=
  ∀ d ∈ versioned ins, isNullOrWhiteSpace (δ d) = false

variable {δ : String → String}

theorem blank_dest {d : String}
    (h : isNullOrWhiteSpace d = false → isNullOrWhiteSpace (δ d) = false) :
    isNullOrWhiteSpace (if isNullOrWhiteSpace d then "" else δ d) = isNullOrWhiteSpace d := by
  by_cases hb : isNullOrWhiteSpace d = true
  · rw [if_pos hb, hb]
    rfl
  · rw [if_neg hb, h (by simpa using hb)]
    simpa using hb

variable {ρ : String → String}

theorem execute_mapNames (read regs : String → V) (world : W)
    (hl : isLifted ins = true) (hδ : KeepsBlank δ ins) :
    execute env read regs world (mapNames ρ δ ins) =
      execute env (fun x => read (ρ x)) regs world ins := by
  cases ins with
  | assign d v => simp only [mapNames, execute, eval_mapValue]
  | binary d l r op => simp only [mapNames, execute, eval_mapValue]
  | load d a n => rfl
  | store a v n => simp only [mapNames, execute, IrAddress.eval, eval_mapValue]
  | call d t args tail =>
    have hb := blank_dest (δ := δ) (d := d) fun hb => hδ d (by simp [versioned, hb])
    simp only [mapNames, execute, map_eval_mapValue, hb]
  | indirectCall d t args =>
    have hb := blank_dest (δ := δ) (d := d) fun hb => hδ d (by simp [versioned, hb])
    simp only [mapNames, execute, map_eval_mapValue, eval_mapValue, hb]
  | setCrField i l r u => simp only [mapNames, execute, eval_mapValue]
  | branch c t e r => rfl
  | indirectJump t => rfl
  | jumpTable sel cases => rfl
  | ret v => cases v <;> rfl
  | jump l => rfl
  | comment t => rfl
  | tracePpc a d r => rfl
  | undefined a r d m => rfl
  | _ => cases hl

theorem transfer_mapNames (read regs : String → V) (world : W)
    (hl : isLifted ins = true)
    (hc : ∀ x ∈ conditionReads ins, stripNumericSuffix (ρ x) = stripNumericSuffix x) :
    transfer env read regs world (mapNames ρ δ ins) =
      transfer env (fun x => read (ρ x)) regs world ins := by
  cases ins with
  | branch c t e r =>
    by_cases hr : isRegisterName r = true
    · have hs := hc r (by simp [conditionReads, hr])
      simp only [mapNames, transfer, hr, if_true, hs]
    · simp only [mapNames, transfer, hr, Bool.false_eq_true, if_false]
  | indirectJump t => simp only [mapNames, transfer, eval_mapValue]
  | jumpTable sel cases => rfl
  | ret v =>
    cases v with
    | none => rfl
    | some v => simp only [mapNames, transfer, Option.map_some, eval_mapValue]
  | assign d v => rfl
  | binary d l r op => rfl
  | load d a n => rfl
  | store a v n => rfl
  | call d t args tail => rfl
  | indirectCall d t args => rfl
  | setCrField i l r u => rfl
  | jump l => rfl
  | comment t => rfl
  | tracePpc a d r => rfl
  | undefined a r d m => rfl
  | _ => cases hl

theorem names_mapValue (ρ : String → String) (v : IrValue) :
    (mapValue ρ v).names = v.names.map ρ := by
  cases v <;> rfl

theorem flatMap_names_mapValue (ρ : String → String) (vs : List IrValue) :
    (vs.map (mapValue ρ)).flatMap IrValue.names = (vs.flatMap IrValue.names).map ρ := by
  induction vs with
  | nil => rfl
  | cons v vs ih => simp [names_mapValue, ih]

theorem strip_crField (i : Nat) :
    stripNumericSuffix ("cr" ++ toString i) = "cr" ++ toString i := by
  have h : '_' ∉ ("cr" ++ toString i).toList := by
    rw [String.toList_append]
    intro hm
    rcases List.mem_append.mp hm with hm | hm
    · exact absurd hm (by decide)
    · exact absurd (isDigit_of_mem_toString hm) (by decide)
  rw [stripNumericSuffix, stripChars_of_no_underscore h, String.ofList_toList]

theorem ne_versionName {x y : String} (hx : x ≠ "") (hy : stripNumericSuffix y = y) (k : Nat) :
    y ≠ versionName x k := by
  intro e
  have hs := congrArg stripNumericSuffix e
  rw [hy, strip_versionName hx] at hs
  rw [hs] at e
  have hl := congrArg (fun s => s.toList.length) e
  simp only [toList_versionName, List.length_append, List.length_cons] at hl
  omega

/-- every definition but that of a compare has a version -/
theorem definitions_cases (hl : isLifted ins = true) :
    (versioned ins = [] ∧ (ins.definitions = [] ∨
      ∃ i l r u, ins = .setCrField i l r u)) ∨
    ∃ d, versioned ins = [d] ∧ ins.definitions = [d] := by
  cases ins with
  | call d t args tail | indirectCall d t args =>
    by_cases hb : isNullOrWhiteSpace d = true
    · exact Or.inl ⟨by simp [versioned, hb], Or.inl (by simp [IrInstruction.definitions, hb])⟩
    · exact Or.inr ⟨d, by simp [versioned, hb], by simp [IrInstruction.definitions, hb]⟩
  | setCrField i l r u => exact Or.inl ⟨rfl, Or.inr ⟨i, l, r, u, rfl⟩⟩
  | assign d v => exact Or.inr ⟨d, rfl, rfl⟩
  | binary d l r op => exact Or.inr ⟨d, rfl, rfl⟩
  | load d a n => exact Or.inr ⟨d, rfl, rfl⟩
  | store a v n => exact Or.inl ⟨rfl, Or.inl rfl⟩
  | branch c t e r => exact Or.inl ⟨rfl, Or.inl rfl⟩
  | indirectJump t => exact Or.inl ⟨rfl, Or.inl rfl⟩
  | jumpTable sel cases => exact Or.inl ⟨rfl, Or.inl rfl⟩
  | ret v => exact Or.inl ⟨rfl, Or.inl rfl⟩
  | jump l => exact Or.inl ⟨rfl, Or.inl rfl⟩
  | comment t => exact Or.inl ⟨rfl, Or.inl rfl⟩
  | tracePpc a d r => exact Or.inl ⟨rfl, Or.inl rfl⟩
  | undefined a r d m => exact Or.inl ⟨rfl, Or.inl rfl⟩
  | _ => cases hl

theorem definitions_mapNames (hl : isLifted ins = true) (hδ : KeepsBlank δ ins) :
    (mapNames ρ δ ins).definitions =
      if versioned ins = [] then ins.definitions else (versioned ins).map δ := by
  cases ins with
  | call d t args tail | indirectCall d t args =>
    by_cases hd : isNullOrWhiteSpace d = true
    · simp [mapNames, IrInstruction.definitions, versioned, hd, show isNullOrWhiteSpace "" = true from rfl]
    · simp [mapNames, IrInstruction.definitions, versioned, hd, hδ d (by simp [versioned, hd])]
  | ret v => cases v <;> rfl
  | assign d v => rfl
  | binary d l r op => rfl
  | load d a n => rfl
  | store a v n => rfl
  | setCrField i l r u => rfl
  | branch c t e r => rfl
  | indirectJump t => rfl
  | jumpTable sel cases => rfl
  | jump l => rfl
  | comment t => rfl
  | tracePpc a d r => rfl
  | undefined a r d m => rfl
  | _ => cases hl

theorem operands_mapNames
    (hl : isLifted ins = true) : (mapNames ρ δ ins).operands = ins.operands.map ρ := by
  cases ins with
  | assign d v => exact names_mapValue ρ v
  | binary d l r op => simp [mapNames, IrInstruction.operands, names_mapValue]
  | load d a n => rfl
  | store a v n => simp [mapNames, IrInstruction.operands, names_mapValue]
  | call d t args tail => exact flatMap_names_mapValue ρ args
  | indirectCall d t args =>
    simp [mapNames, IrInstruction.operands, names_mapValue, flatMap_names_mapValue]
  | setCrField i l r u => simp [mapNames, IrInstruction.operands, names_mapValue]
  | indirectJump t => exact names_mapValue ρ t
  | jumpTable sel cases => rfl
  | ret v =>
    cases v with
    | none => rfl
    | some v => exact names_mapValue ρ v
  | branch c t e r => rfl
  | jump l => rfl
  | comment t => rfl
  | tracePpc a d r => rfl
  | undefined a r d m => rfl
  | _ => cases hl

theorem isRegisterName_congr {a b : String} (hs : stripNumericSuffix a = stripNumericSuffix b)
    (hb : isNullOrWhiteSpace a = isNullOrWhiteSpace b) : isRegisterName a = isRegisterName b := by
  simp only [isRegisterName, hs, hb]

theorem conditionReads_mapNames
    (hc : ∀ x ∈ conditionReads ins, isRegisterName (ρ x) = isRegisterName x) :
    conditionReads (mapNames ρ δ ins) = (conditionReads ins).map ρ := by
  cases ins with
  | branch c t e r =>
    by_cases hr : isRegisterName r = true
    · have h := hc r (by simp [conditionReads, hr])
      simp [mapNames, conditionReads, hr, h]
    · simp [mapNames, conditionReads, hr]
  | ret v => cases v <;> rfl
  | _ => rfl

theorem results_of_versioned (read regs : String → V) (world : W)
    {d : String} (h : versioned ins = [d]) (hl : isLifted ins = true) :
    ∃ v, (execute env read regs world ins).results = [v] := by
  cases ins with
  | call e t args tail | indirectCall e t args =>
    by_cases hb : isNullOrWhiteSpace e = true
    · simp [versioned, hb] at h
    · exact ⟨_, by simp only [execute, if_neg hb]; rfl⟩
  | assign => exact ⟨_, rfl⟩
  | binary => exact ⟨_, rfl⟩
  | load => exact ⟨_, rfl⟩
  | phi => cases hl
  | _ => cases h

end

/-! ## the simulation -/

section
variable {V W : Type} {env : Env V W} {N : String → Prop} (hN : Vocabulary N) {imp : VersionMap}
  {issued : String → Prop} {initial : String → V}

/-- the SSA state under the current versions `ver`, next to the tracked state; `live` are the
variables that may be read -/
structure Sim (N : String → Prop) (imp ver : VersionMap) (live : String → Prop)
    (initial : String → V) (s : SsaState V W) (t : TrackedState V W) : Prop where
  regs : s.regs = t.regs
  world : s.world = t.world
  named : ∀ x n, N x → live x → ver x = some n → s.names n = t.named x
  entry : ∀ x, N x → live x → ver x = none → t.named x = initial x
  imp : ∀ x n, N x → imp x = some n → s.names n = initial x
  typed : ∀ x n, N x → ver x = some n → IsVersion x n

variable {ver : VersionMap}

theorem Sim.read {live : String → Prop} {s : SsaState V W}
    {t : TrackedState V W} (h : Sim N imp ver live initial s t) {x n : String} (hx : N x)
    (hl : live x) (hn : NameOf imp ver x n) : s.names n = t.named x := by
  rcases hn with hn | ⟨hn, hi⟩
  · exact h.named x n hx hl hn
  · rw [h.imp x n hx hi, h.entry x hx hl hn]

include hN

/-- the variables that may be read after an instruction -/
def liveAfter (live : String → Prop) (ins : IrInstruction) (x : String) : Prop :=
  live x ∨ x ∈ versioned ins

variable (env) in
/-- **One renamed instruction.** -/
theorem RenamedInstruction.step {live : String → Prop} {s : SsaState V W}
    {t : TrackedState V W} {ins' : IrInstruction} {pops : List (String × String)}
    (hs : Sim N imp ver live initial s t) (hr : RenamedInstruction imp ver ins ins' pops)
    (hl : isLifted ins = true) (hn : ∀ x ∈ renamedNames ins, N x)
    (himp : ∀ x n, N x → imp x = some n → IsVersion x n ∧ ∀ p ∈ pops, n ≠ p.2)
    (hlive : ∀ x ∈ renamedReads ins, live x) (hread : ReadsNamed ins t) :
    (ssaMachine env).flow ins' s = (trackedMachine env).flow ins t ∧
    (ssaMachine env).operandValues ins' s = (trackedMachine env).operandValues ins t ∧
    ((ssaMachine env).step ins' s).2 = ((trackedMachine env).step ins t).2 ∧
    Sim N imp (pushVersions ver pops) (liveAfter live ins) initial
      ((ssaMachine env).step ins' s).1 ((trackedMachine env).step ins t).1 := by
  obtain ⟨⟨ρ, δ, rfl, hρ, rfl⟩, hver⟩ := hr
  have hreads : ∀ x ∈ renamedReads ins, N x := fun x hx => hn x (List.mem_append_left _ hx)
  have hdefs : ∀ d ∈ versioned ins, N d ∧ IsVersion d (δ d) := fun d hd =>
    ⟨hn d (List.mem_append_right _ hd), hver (d, δ d) (List.mem_map_of_mem hd)⟩
  have hδ : KeepsBlank δ ins := by
    intro d hd
    obtain ⟨k, hk⟩ := (hdefs d hd).2
    rw [hk]
    exact versionName_not_blank d k
  have hval : ∀ x ∈ renamedReads ins, s.names (ρ x) = t.named x := fun x hx =>
    hs.read (hreads x hx) (hlive x hx) (hρ x hx)
  have hop : ∀ x ∈ ins.operands, s.names (ρ x) = t.regs x := fun x hx =>
    (hval x (List.mem_append_left _ hx)).trans (hread x hx)
  have hexec : execute env s.names s.regs s.world (mapNames ρ δ ins) =
      execute env t.regs t.regs t.world ins := by
    rw [execute_mapNames env s.names s.regs s.world hl hδ, hs.regs, hs.world]
    exact execute_congr env t.regs t.world hop
  have htyped : ∀ x ∈ renamedReads ins, IsVersion x (ρ x) := by
    intro x hx
    rcases hρ x hx with h | ⟨-, h⟩
    · exact hs.typed x _ (hreads x hx) h
    · exact (himp x _ (hreads x hx) h).1
  have hcond : ∀ x ∈ conditionReads ins, stripNumericSuffix (ρ x) = stripNumericSuffix x := by
    intro x hx
    have hmem : x ∈ renamedReads ins := List.mem_append_right _ hx
    rw [(htyped x hmem).strip hN (hreads x hmem), hN.base x (hreads x hmem)]
  refine ⟨?_, ?_, ?_, ?_⟩
  · show transfer env s.names s.regs s.world (mapNames ρ δ ins) = _
    rw [transfer_mapNames env s.names s.regs s.world hl hcond, hs.regs, hs.world]
    exact transfer_congr env t.regs t.world hop
  · have hreg : ∀ x ∈ conditionReads ins, isRegisterName (ρ x) = isRegisterName x := by
      intro x hx
      have hx' : isRegisterName x = true := by
        cases ins with
        | branch c a e r =>
          simp only [conditionReads] at hx
          split at hx
          · rwa [List.mem_singleton.mp hx]
          · cases hx
        | _ => cases hx
      refine isRegisterName_congr (hcond x hx) ?_
      obtain ⟨k, hk⟩ := htyped x (List.mem_append_right _ hx)
      rw [hk, versionName_not_blank]
      simp only [isRegisterName, Bool.and_eq_true, Bool.not_eq_true'] at hx'
      exact hx'.1.symm
    show (renamedReads (mapNames ρ δ ins)).map s.names =
      ins.operands.map t.regs ++ (conditionReads ins).map t.named
    rw [renamedReads, operands_mapNames hl, conditionReads_mapNames hreg, List.map_append,
      List.map_map, List.map_map]
    congr 1
    · exact List.map_congr_left hop
    · exact List.map_congr_left fun x hx => hval x (List.mem_append_right _ hx)
  · show (execute env s.names s.regs s.world (mapNames ρ δ ins)).events = _
    rw [hexec]
    rfl
  · have hregs : ((mapNames ρ δ ins).definitions.map stripNumericSuffix) = ins.definitions := by
      rw [definitions_mapNames hl hδ]
      rcases definitions_cases hl with ⟨hv, hd | ⟨i, l, r, u, rfl⟩⟩ | ⟨d, hv, hd⟩
      · rw [if_pos hv, hd]
        rfl
      · rw [if_pos hv]
        exact congrArg (· :: []) (strip_crField i)
      · rw [if_neg (by rw [hv]; exact List.cons_ne_nil _ _), hv, hd]
        have hdd := hdefs d (by rw [hv]; exact List.mem_cons_self)
        exact congrArg (· :: []) (hdd.2.strip hN hdd.1)
    -- the registers and the world change alike; the names split on the destination
    have hstep : ((ssaMachine env).step (mapNames ρ δ ins) s).1 =
        ⟨assignAll s.names (mapNames ρ δ ins).definitions
            (execute env t.regs t.regs t.world ins).results,
          assignAll (execute env t.regs t.regs t.world ins).regs ins.definitions
            (execute env t.regs t.regs t.world ins).results,
          (execute env t.regs t.regs t.world ins).world⟩ := by
      simp only [ssaMachine, SsaState.step, hexec, hregs]
    rw [hstep]
    rcases definitions_cases hl with ⟨hv, hd⟩ | ⟨d, hv, hd⟩
    · have hpush : pushVersions ver ((versioned ins).map fun d => (d, δ d)) = ver := by
        rw [hv]
        rfl
      have hnamed : ((trackedMachine env).step ins t).1.named = t.named := by
        show assignAll t.named (versioned ins) _ = t.named
        rw [hv, assignAll_nil]
      have hkeep : ∀ x k, N x → assignAll s.names (mapNames ρ δ ins).definitions
          (execute env t.regs t.regs t.world ins).results (versionName x k) =
            s.names (versionName x k) := by
        intro x k hx
        refine assignAll_of_notMem _ _ _ _ ?_
        rw [definitions_mapNames hl hδ, if_pos hv]
        rcases hd with hd | ⟨i, l, r, u, rfl⟩
        · rw [hd]
          exact List.not_mem_nil
        · intro hmem
          exact ne_versionName (hN.nonempty x hx) (strip_crField i) k
            (List.mem_singleton.mp hmem).symm
      have hlive' : ∀ x, liveAfter live ins x → live x := by
        intro x hx
        rcases hx with hx | hx
        · exact hx
        · rw [hv] at hx
          cases hx
      rw [hpush]
      refine ⟨rfl, rfl, fun x n hx hxl hxn => ?_, fun x hx hxl hxn => ?_, fun x n hx hxn => ?_,
        hs.typed⟩
      · rw [hnamed]
        obtain ⟨k, hk⟩ := hs.typed x n hx hxn
        subst hk
        exact (hkeep x k hx).trans (hs.named x _ hx (hlive' x hxl) hxn)
      · rw [hnamed]
        exact hs.entry x hx (hlive' x hxl) hxn
      · obtain ⟨k, hk⟩ := (himp x n hx hxn).1
        subst hk
        exact (hkeep x k hx).trans (hs.imp x _ hx hxn)
    · obtain ⟨hNd, hvd⟩ := hdefs d (by rw [hv]; exact List.mem_cons_self)
      obtain ⟨v, hres⟩ := results_of_versioned env t.regs t.regs t.world hv hl
      have hpush : pushVersions ver ((versioned ins).map fun d => (d, δ d)) =
          Function.update ver d (some (δ d)) := by
        rw [hv]
        rfl
      have hnamed : ((trackedMachine env).step ins t).1.named = Function.update t.named d v := by
        show assignAll t.named (versioned ins) _ = _
        rw [hv, hres]
        rfl
      have hnames : assignAll s.names (mapNames ρ δ ins).definitions
          (execute env t.regs t.regs t.world ins).results = Function.update s.names (δ d) v := by
        rw [definitions_mapNames hl hδ, if_neg (by rw [hv]; exact List.cons_ne_nil _ _), hv, hres]
        rfl
      have hlive' : ∀ x, x ≠ d → liveAfter live ins x → live x := by
        intro x hxd hx
        rcases hx with hx | hx
        · exact hx
        · rw [hv] at hx
          exact absurd (List.mem_singleton.mp hx) hxd
      have hne : ∀ x n, N x → x ≠ d → IsVersion x n → n ≠ δ d := by
        rintro x n hx hxd ⟨k, rfl⟩ e
        obtain ⟨m, hm⟩ := hvd
        exact hxd (versionName_inj (hN.nonempty x hx) (hN.nonempty d hNd) (e.trans hm)).1
      rw [hpush, hnames]
      refine ⟨rfl, rfl, fun x n hx hxl hxn => ?_, fun x hx hxl hxn => ?_, fun x n hx hxn => ?_,
        fun x n hx hxn => ?_⟩
      · rw [hnamed]
        by_cases hxd : x = d
        · subst hxd
          rw [Function.update_self] at hxn
          cases hxn
          simp only [Function.update_self]
        · rw [Function.update_of_ne hxd] at hxn
          simp only [Function.update_of_ne hxd,
            Function.update_of_ne (hne x n hx hxd (hs.typed x n hx hxn))]
          exact hs.named x n hx (hlive' x hxd hxl) hxn
      · by_cases hxd : x = d
        · subst hxd
          rw [Function.update_self] at hxn
          cases hxn
        · rw [Function.update_of_ne hxd] at hxn
          rw [hnamed, Function.update_of_ne hxd]
          exact hs.entry x hx (hlive' x hxd hxl) hxn
      · have hfresh := (himp x n hx hxn).2 (d, δ d) (by rw [hv]; exact List.mem_cons_self)
        show Function.update s.names (δ d) v n = initial x
        rw [Function.update_of_ne hfresh]
        exact hs.imp x n hx hxn
      · by_cases hxd : x = d
        · subst hxd
          rw [Function.update_self] at hxn
          cases hxn
          exact hvd
        · rw [Function.update_of_ne hxd] at hxn
          exact hs.typed x n hx hxn

omit hN in
theorem Sim.weaken {live live' : String → Prop} {s : SsaState V W}
    {t : TrackedState V W} (h : Sim N imp ver live initial s t) (hl : ∀ x, live' x → live x) :
    Sim N imp ver live' initial s t :=
  ⟨h.regs, h.world, fun x n hx hxl => h.named x n hx (hl x hxl),
    fun x hx hxl => h.entry x hx (hl x hxl), h.imp, h.typed⟩

/-- block-local temporaries may be read once they are defined -/
def liveWith (defined : List String) (x : String) : Prop :=
  isBlockLocalTemp x = false ∨ x ∈ defined

omit hN in
theorem versioned_of_terminator (h : ins.isTerminator = true) :
    versioned ins = [] := by
  cases ins <;> first | rfl | cases h

variable (env) in
/-- **A renamed block.** -/
theorem RenamedBody.run {body body' : List IrInstruction}
    {pops : List (String × String)} (hr : RenamedBody imp ver body body' pops) :
    ∀ {defined : List String} {s : SsaState V W} {t : TrackedState V W},
      Sim N imp ver (liveWith defined) initial s t → (∀ ins ∈ body, isLifted ins = true) →
      (∀ ins ∈ body, ∀ x ∈ renamedNames ins, N x) →
      (∀ ins ∈ body.dropLast, ins.isTerminator = false) →
      (∀ x n, N x → imp x = some n → IsVersion x n ∧ ∀ p ∈ pops, n ≠ p.2) →
      TempsLocal defined body → (trackedMachine env).StepsSatisfy ReadsNamed body t →
      (((ssaMachine env).runBody body' s).2 = ((trackedMachine env).runBody body t).2) ∧
        Sim N imp (pushVersions ver pops) (liveWith []) initial
          ((ssaMachine env).runBody body' s).1 ((trackedMachine env).runBody body t).1 := by
  induction hr with
  | nil ver =>
    intro defined s t hs _ _ _ _ _ _
    exact ⟨rfl, hs.weaken fun x hx => hx.imp id fun h => absurd h List.not_mem_nil⟩
  | @cons ver ins ins' rest rest' p q hi hrest ih =>
    intro defined s t hs hl hn hterm himp htemps hsteps
    obtain ⟨hread, hnext⟩ := hsteps
    obtain ⟨htemp, htrest⟩ := htemps
    have hlive : ∀ x ∈ renamedReads ins, liveWith defined x := by
      intro x hx
      cases hb : isBlockLocalTemp x with
      | false => exact Or.inl hb
      | true => exact Or.inr (htemp x hx hb)
    obtain ⟨hflow, hval, hev, hsim⟩ := hi.step env hN hs (hl ins List.mem_cons_self)
      (hn ins List.mem_cons_self)
      (fun x n hx hxn => ⟨(himp x n hx hxn).1,
        fun r hr => (himp x n hx hxn).2 r (List.mem_append_left _ hr)⟩) hlive hread
    have hself : (trackedMachine env).flow ins t = .next ↔ ins.isTerminator = false :=
      transfer_eq_next env t.regs t.regs t.world ins
    cases hf : ins.isTerminator with
    | false =>
      have hft := hself.mpr hf
      have hsim' : Sim N imp (pushVersions ver p) (liveWith (versioned ins ++ defined)) initial
          ((ssaMachine env).step ins' s).1 ((trackedMachine env).step ins t).1 := by
        refine hsim.weaken fun x hx => ?_
        rcases hx with hx | hx
        · exact Or.inl (Or.inl hx)
        · rcases List.mem_append.mp hx with hx | hx
          · exact Or.inr hx
          · exact Or.inl (Or.inr hx)
      have hterm' : ∀ i ∈ rest.dropLast, i.isTerminator = false := by
        intro i hi
        cases rest with
        | nil => cases hi
        | cons j rest => exact hterm i (List.mem_cons_of_mem _ hi)
      obtain ⟨h1, h2⟩ := ih hsim' (fun i h => hl i (List.mem_cons_of_mem _ h))
        (fun i h => hn i (List.mem_cons_of_mem _ h)) hterm'
        (fun x n hx hxn => ⟨(himp x n hx hxn).1,
          fun r hr => (himp x n hx hxn).2 r (List.mem_append_right _ hr)⟩) htrest (hnext hft)
      simp only [Machine.runBody, hflow, hft]
      rw [hval, hev, pushVersions_append]
      exact ⟨by rw [h1], h2⟩
    | true =>
      -- a terminator is the last instruction, and defines nothing
      have hrest : rest = [] := by
        cases rest with
        | nil => rfl
        | cons j rest =>
          have := hterm ins List.mem_cons_self
          rw [hf] at this
          cases this
      have hft : (trackedMachine env).flow ins t ≠ .next := by
        rw [Ne, hself, hf]
        exact Bool.noConfusion
      subst hrest
      cases ‹RenamedBody imp (pushVersions ver p) [] rest' q›
      obtain ⟨ρ, δ, -, -, hp⟩ := hi.names
      rw [versioned_of_terminator hf] at hp
      have hend : Sim N imp (pushVersions ver (p ++ [])) (liveWith []) initial s t := by
        rw [hp]
        exact hs.weaken fun x hx => hx.imp id fun h => absurd h List.not_mem_nil
      have hrunS : (ssaMachine env).runBody [ins'] s =
          (s, [((ssaMachine env).operandValues ins' s, [])], (ssaMachine env).flow ins' s) := by
        rw [Machine.runBody]
        split
        · rename_i h
          exact absurd (hflow.symm.trans h) hft
        · rfl
      have hrunT : (trackedMachine env).runBody [ins] t =
          (t, [((trackedMachine env).operandValues ins t, [])], (trackedMachine env).flow ins t) := by
        rw [Machine.runBody]
        split
        · rename_i h
          exact absurd h hft
        · rfl
      rw [hrunS, hrunT, hval, hflow]
      exact ⟨rfl, hend⟩

end

end DolTranslator.Ssa
