import DolTranslator.Ir.Cfg

/-!
# `SsaTransformer`

The conversion to SSA form, pass by pass, with blocks as ordinals:

* `computeDominators`, `immediateDominator`   bit sets and their closest strict dominator;
* `computeDominanceFrontier`   the runner loop over joins;
* `insertPhiNodes`   a work list for each defined variable;
* `renameToSsa`   an explicit work stack over the dominator tree;
* `convert`   the whole conversion.

A loop of the source that has no bound takes one here, and returns nothing when it runs out; an
exception returns nothing too.
-/

namespace DolTranslator.Ssa

/-! ## dominators -/

abbrev DominatorBits := List (Finset Nat)

def dominates (dom : DominatorBits) (d i : Nat) : Prop := d ∈ dom.getD i ∅

instance (dom : DominatorBits) (d i : Nat) : Decidable (dominates dom d i) :=
  inferInstanceAs (Decidable (d ∈ dom.getD i ∅))

def initialDominators (cfg : IrCfg) : DominatorBits :=
  (List.replicate cfg.count (Finset.range cfg.count)).set cfg.entry {cfg.entry}

/-- a block without predecessors dominates only itself; otherwise the sets of the predecessors
are intersected -/
def dominatorUpdate (cfg : IrCfg) (dom : DominatorBits) (i : Nat) : Finset Nat :=
  match cfg.predecessors i with
  | [] => {i}
  | p :: ps => insert i (ps.foldl (fun temp q => temp ∩ dom.getD q ∅) (dom.getD p ∅))

def dominatorStep (cfg : IrCfg) (s : DominatorBits × Bool) (i : Nat) : DominatorBits × Bool :=
  if i = cfg.entry then s
  else
    let temp := dominatorUpdate cfg s.1 i
    if s.1.getD i ∅ = temp then s else (s.1.set i temp, true)

def dominatorSweep (cfg : IrCfg) (dom : DominatorBits) : DominatorBits × Bool :=
  (List.range cfg.count).foldl (dominatorStep cfg) (dom, false)

def solveDominators (cfg : IrCfg) : Nat → DominatorBits → Option DominatorBits
  | 0, _ => none
  | k + 1, dom =>
    let r := dominatorSweep cfg dom
    if r.2 then solveDominators cfg k r.1 else some r.1

def computeDominators (cfg : IrCfg) : Option DominatorBits :=
  solveDominators cfg (cfg.count * cfg.count + 1) (initialDominators cfg)

def dominatorCandidates (n : Nat) (dom : DominatorBits) (i : Nat) : List Nat :=
  (List.range n).filter fun c => decide (dominates dom c i ∧ c ≠ i)

def largestCandidate (dom : DominatorBits) (candidates : List Nat) : Option Nat :=
  candidates.foldl (fun best c =>
    match best with
    | none => some c
    | some b => if (dom.getD b ∅).card < (dom.getD c ∅).card then some c else some b) none

def isImmediateDominator (dom : DominatorBits) (i : Nat) (candidates : List Nat) (best : Nat) :
    Bool :=
  decide ((dom.getD i ∅).erase i = dom.getD best ∅) &&
    candidates.all fun c => decide (c = best ∨ ¬ dominates dom best c)

def resolveImmediateDominatorExhaustive (dom : DominatorBits) (candidates : List Nat) :
    Option Nat :=
  candidates.find? fun c => candidates.all fun o => decide (o = c ∨ ¬ dominates dom c o)

def immediateDominator (n : Nat) (dom : DominatorBits) (i : Nat) : Option Nat :=
  let candidates := dominatorCandidates n dom i
  match largestCandidate dom candidates with
  | none => none
  | some best =>
    if isImmediateDominator dom i candidates best then some best
    else resolveImmediateDominatorExhaustive dom candidates

def computeImmediateDominators (cfg : IrCfg) (dom : DominatorBits) : List (Option Nat) :=
  (List.range cfg.count).map (immediateDominator cfg.count dom)

/-- `idom[i]` -/
def idomAt (idom : List (Option Nat)) (i : Nat) : Option Nat := idom.getD i none

/-! ## dominance frontiers -/

abbrev Frontiers := List (List Nat)

def Frontiers.add (df : Frontiers) (i b : Nat) : Frontiers :=
  df.modify i fun set => if b ∈ set then set else set ++ [b]

/-- the runner climbs the immediate dominators until it strictly dominates the join `i` -/
def frontierWalk (dom : DominatorBits) (idom : List (Option Nat)) (i : Nat) :
    Nat → Nat → Frontiers → Option Frontiers
  | 0, _, _ => none
  | k + 1, runner, df =>
    if ¬ dominates dom runner i ∨ runner = i then
      let df := df.add runner i
      match idomAt idom runner with
      | none => some df
      | some r => if r = runner then some df else frontierWalk dom idom i k r df
    else some df

def frontierAt (cfg : IrCfg) (dom : DominatorBits) (idom : List (Option Nat)) (df : Frontiers)
    (i : Nat) : Option Frontiers :=
  let preds := cfg.predecessors i
  if preds.length < 2 then some df
  else preds.foldlM (fun df p => frontierWalk dom idom i (cfg.count + 1) p df) df

def computeDominanceFrontier (cfg : IrCfg) (dom : DominatorBits) (idom : List (Option Nat)) :
    Option Frontiers :=
  (List.range cfg.count).foldlM (frontierAt cfg dom idom) (List.replicate cfg.count [])

/-! ## phi insertion -/

def versioned : IrInstruction → List String
  | .assign destination _ | .binary destination _ _ _ | .load destination _ _
  | .phi destination _ => [destination]
  | .call destination _ _ _ | .indirectCall destination _ _ =>
    if isNullOrWhiteSpace destination then [] else [destination]
  | _ => []

def definitionsIn (body : List IrInstruction) : List String :=
  body.flatMap fun ins => (versioned ins).map stripNumericSuffix

def isBlockLocalTemp (name : String) : Bool :=
  "addr_".toList.isPrefixOf (foldCase name).toList &&
    "_loc".toList.isSuffixOf (foldCase name).toList

abbrev DefSites := List (String × List Nat)

def DefSites.add (sites : DefSites) (var : String) (i : Nat) : DefSites :=
  match sites with
  | [] => [(var, [i])]
  | (v, blocks) :: rest =>
    if foldCase v = foldCase var then (v, if i ∈ blocks then blocks else blocks ++ [i]) :: rest
    else (v, blocks) :: DefSites.add rest var i

def defSites (f : IrFunction) : DefSites :=
  (List.range f.blocks.length).foldl (fun sites i =>
    ((definitionsIn (f.body i)).filter fun d => !isBlockLocalTemp d).foldl
      (fun sites d => sites.add d i) sites) []

/-- visit the frontier of one block: collect new joins, and queue those that do not define the
variable themselves -/
def visitFrontier (defBlocks : List Nat) (frontier : List Nat) (s : List Nat × List Nat) :
    List Nat × List Nat :=
  frontier.foldl (fun s y =>
    if y ∈ s.1 then s
    else (s.1 ++ [y], if y ∈ defBlocks then s.2 else s.2 ++ [y])) s

/-- the blocks that get a phi for one variable -/
def phiBlocksLoop (df : Frontiers) (defBlocks : List Nat) :
    Nat → List Nat → List Nat → Option (List Nat)
  | _, hasAlready, [] => some hasAlready
  | 0, _, _ :: _ => none
  | k + 1, hasAlready, x :: worklist =>
    let r := visitFrontier defBlocks (df.getD x []) (hasAlready, worklist)
    phiBlocksLoop df defBlocks k r.1 r.2

def phiBlocks (n : Nat) (df : Frontiers) (defBlocks : List Nat) : Option (List Nat) :=
  phiBlocksLoop df defBlocks (defBlocks.length + n) [] defBlocks

/-- the variables with a phi in block `i`; the variable treated last comes first -/
def pendingPhis (placed : List (String × List Nat)) (i : Nat) : List String :=
  ((placed.filter fun v => decide (i ∈ v.2)).map Prod.fst).reverse

def insertPhiNodes (f : IrFunction) (df : Frontiers) : Option IrFunction := do
  let placed ← (defSites f).mapM fun site => do
    let blocks ← phiBlocks f.blocks.length df site.2
    return (site.1, blocks)
  return { f with blocks := f.blocks.mapIdx fun i b =>
    { b with instructions :=
      (pendingPhis placed i).map (fun v => IrInstruction.phi v []) ++ b.instructions } }

/-! ## renaming -/

structure RenameState where
  versionStacks : String → List String
  nextVersions : String → Nat

def versionName (base : String) (id : Nat) : String := base ++ "_" ++ toString id

/-- allocate a version, and push it -/
def newVersion (original : String) (s : RenameState) : String × RenameState :=
  let base := stripNumericSuffix original
  let key := foldCase base
  let version := versionName base (s.nextVersions key)
  (version,
    ⟨Function.update s.versionStacks key (version :: s.versionStacks key),
     Function.update s.nextVersions key (s.nextVersions key + 1)⟩)

def currentVersion (base : String) (s : RenameState) : String × RenameState :=
  match s.versionStacks (foldCase base) with
  | [] => newVersion base s
  | top :: _ => (top, s)

def renameRegister (name : String) (s : RenameState) : String × RenameState :=
  currentVersion (stripNumericSuffix name) s

def renameValue (value : IrValue) (s : RenameState) : IrValue × RenameState :=
  match value with
  | .register name =>
    let r := renameRegister name s
    (.register r.1, r.2)
  | .imm c => (.imm c, s)

def renameAddress (address : IrAddress) (s : RenameState) : IrAddress × RenameState :=
  let r := renameRegister address.base s
  (⟨r.1, address.offset⟩, r.2)

def renameValues : List IrValue → RenameState → List IrValue × RenameState
  | [], s => ([], s)
  | v :: vs, s =>
    let r := renameValue v s
    let rs := renameValues vs r.2
    (r.1 :: rs.1, rs.2)

/-- a fresh version for a destination, and the entry of `definedHere` that pops it -/
def defineVersion (destination : String) (s : RenameState) :
    String × List (String × String) × RenameState :=
  let r := newVersion destination s
  (r.1, [(stripNumericSuffix r.1, r.1)], r.2)

def defineOptional (destination : String) (s : RenameState) :
    String × List (String × String) × RenameState :=
  if isNullOrWhiteSpace destination then ("", [], s) else defineVersion destination s

/-- uses are renamed before the destination -/
def renameInstruction (ins : IrInstruction) (s : RenameState) :
    IrInstruction × List (String × String) × RenameState :=
  match ins with
  | .assign destination value =>
    let v := renameValue value s
    let d := defineVersion destination v.2
    (.assign d.1 v.1, d.2)
  | .binary destination left right op =>
    let l := renameValue left s
    let r := renameValue right l.2
    let d := defineVersion destination r.2
    (.binary d.1 l.1 r.1 op, d.2)
  | .load destination address size =>
    let a := renameAddress address s
    let d := defineVersion destination a.2
    (.load d.1 a.1 size, d.2)
  | .store address source size =>
    let a := renameAddress address s
    let v := renameValue source a.2
    (.store a.1 v.1 size, [], v.2)
  | .call destination target arguments isTailCall =>
    let a := renameValues arguments s
    let d := defineOptional destination a.2
    (.call d.1 target a.1 isTailCall, d.2)
  | .indirectCall destination target arguments =>
    let t := renameValue target s
    let a := renameValues arguments t.2
    let d := defineOptional destination a.2
    (.indirectCall d.1 t.1 a.1, d.2)
  | .setCrField fieldIndex left right isUnsigned =>
    let l := renameValue left s
    let r := renameValue right l.2
    (.setCrField fieldIndex l.1 r.1 isUnsigned, [], r.2)
  | .branch condition trueLabel falseLabel conditionRegister =>
    if isRegisterName conditionRegister then
      let r := renameRegister conditionRegister s
      (.branch condition trueLabel falseLabel r.1, [], r.2)
    else (ins, [], s)
  | .indirectJump target =>
    let t := renameValue target s
    (.indirectJump t.1, [], t.2)
  | .jumpTable selector cases =>
    let r := renameRegister selector s
    (.jumpTable r.1 cases, [], r.2)
  | .ret (some value) =>
    let v := renameValue value s
    (.ret (some v.1), [], v.2)
  | _ => (ins, [], s)

def renameInstructions : List IrInstruction → RenameState →
    List IrInstruction × List (String × String) × RenameState
  | [], s => ([], [], s)
  | ins :: rest, s =>
    let r := renameInstruction ins s
    let rs := renameInstructions rest r.2.2
    (r.1 :: rs.1, r.2.1 ++ rs.2.1, rs.2.2)

/-- phi destinations are renamed before the instructions -/
def renamePhis : List IrInstruction → RenameState →
    List IrInstruction × List (String × String) × RenameState
  | [], s => ([], [], s)
  | .phi destination sources :: rest, s =>
    let d := newVersion destination s
    let rs := renamePhis rest d.2
    (.phi d.1 sources :: rs.1, (stripNumericSuffix destination, d.1) :: rs.2.1, rs.2.2)
  | ins :: rest, s =>
    let rs := renamePhis rest s
    (ins :: rs.1, rs.2.1, rs.2.2)

/-- `sources[label] = current` -/
def setSource (sources : List (String × String)) (label current : String) :
    List (String × String) :=
  if sources.any fun s => s.1 == label then
    sources.map fun s => if s.1 = label then (label, current) else s
  else sources ++ [(label, current)]

/-- give the phis of a successor their source for the edge from `label` -/
def updatePhiSources (label : String) : List IrInstruction → RenameState →
    List IrInstruction × RenameState
  | [], s => ([], s)
  | .phi destination sources :: rest, s =>
    let c := currentVersion (stripNumericSuffix destination) s
    let rs := updatePhiSources label rest c.2
    (.phi destination (setSource sources label c.1) :: rs.1, rs.2)
  | ins :: rest, s =>
    let rs := updatePhiSources label rest s
    (ins :: rs.1, rs.2)

/-- the blocks under renaming, and the state of the renamer -/
structure RenameWork where
  blocks : List (List IrInstruction)
  state : RenameState
  active : List Nat
  visited : List Nat

def updateSuccessor (label : String) (w : RenameWork) (succ : Nat) : RenameWork :=
  let r := updatePhiSources label (w.blocks.getD succ []) w.state
  { w with blocks := w.blocks.set succ r.1, state := r.2 }

/-- the label that stands for a block on the work stack: the entry is pushed under the name the
function gives it -/
def workLabel (f : IrFunction) (cfg : IrCfg) (i : Nat) : String :=
  if i = cfg.entry then f.entryLabel else f.labelOf i

def popVersion (versionStacks : String → List String) (var : String) :
    Option (String → List String) :=
  match versionStacks (foldCase var) with
  | [] => none
  | _ :: rest => some (Function.update versionStacks (foldCase var) rest)

def popVersions (versionStacks : String → List String) (pops : List (String × String)) :
    Option (String → List String) :=
  pops.reverse.foldlM (fun versionStacks p => popVersion versionStacks p.1) versionStacks

def domChildren (idom : List (Option Nat)) (i : Nat) : List Nat :=
  (List.range idom.length).filter fun c => decide (idomAt idom c = some i)

/-- rename one block: its phis, its instructions, then the phi sources of its successors -/
def renameBlock (f : IrFunction) (cfg : IrCfg) (i : Nat) (w : RenameWork) :
    List (String × String) × RenameWork :=
  let p := renamePhis (w.blocks.getD i []) w.state
  let r := renameInstructions p.1 p.2.2
  let w₁ : RenameWork := ⟨w.blocks.set i r.1, r.2.2, i :: w.active, i :: w.visited⟩
  (p.2.1 ++ r.2.1, (cfg.successors i).foldl (updateSuccessor (workLabel f cfg i)) w₁)

/-- a block to visit, or the second half of a visit with its pop list -/
inductive WorkItem where
  | visit (block : Nat)
  | leave (block : Nat) (pops : List (String × String))

def renameLoop (f : IrFunction) (cfg : IrCfg) (idom : List (Option Nat)) :
    Nat → List WorkItem → RenameWork → Option RenameWork
  | _, [], w => some w
  | 0, _ :: _, _ => none
  | k + 1, .leave i pops :: work, w =>
    match popVersions w.state.versionStacks pops with
    | none => none
    | some versionStacks => renameLoop f cfg idom k work
        { w with state := { w.state with versionStacks := versionStacks }, active := w.active.erase i }
  | k + 1, .visit i :: work, w =>
    if i ∈ w.active then none
    else
      let r := renameBlock f cfg i w
      renameLoop f cfg idom k
        ((domChildren idom i).map .visit ++ .leave i r.1 :: work) r.2

/-- blocks that are never visited keep the instructions they had -/
def renameToSsa (withPhis : IrFunction) (cfg : IrCfg) (idom : List (Option Nat)) :
    Option IrFunction := do
  let start : RenameWork :=
    ⟨withPhis.blocks.map (·.instructions), ⟨fun _ => [], fun _ => 0⟩, [], []⟩
  let done ← renameLoop withPhis cfg idom (2 * cfg.count + 1) [.visit cfg.entry] start
  return { withPhis with blocks := withPhis.blocks.mapIdx fun i b =>
    { b with instructions := done.blocks.getD i [] } }

def convert (f : IrFunction) : Option IrFunction := do
  if f.blocks.isEmpty then none
  else
    let cfg ← IrCfg.build f
    let dom ← computeDominators cfg
    let idom := computeImmediateDominators cfg dom
    let df ← computeDominanceFrontier cfg dom idom
    let withPhis ← insertPhiNodes f df
    renameToSsa withPhis cfg idom

end DolTranslator.Ssa
