import DolTranslator.Dataflow.ConstantMap
import DolTranslator.Ir.Text
import DolTranslator.Ir.Emitted

/-!
# Constant propagation for the quantization registers

A forward must-constant analysis, which is used only to specialise the paired-single accesses:

* `transfer`   what one instruction does to the known constants;
* `constantFlow`   rounds over the blocks in source order until nothing changes, and nothing known
  when the rounds run out;
* `specialize`   rewrites the accesses whose GQR is known.

Dictionaries that compare names without regard to case are maps on `foldCase` keys.
-/

namespace DolTranslator.Gqr
open Dataflow

abbrev Constants := ConstantMap String Word

/-! ## names and operands -/

def gqrName (i : Nat) : String := "gqr" ++ toString i

def gqrKey (name : String) : Option String :=
  let baseName := foldCase (stripNumericSuffix name)
  match baseName.toList with
  | ['g', 'q', 'r', digit] => if '0' ≤ digit ∧ digit ≤ '7' then some baseName else none
  | _ => none

/-- `key[3] - '0'` -/
def gqrIndex (key : String) : Nat := (key.toList.getD 3 '0').toNat - '0'.toNat

def tryValue (state : Constants) : IrValue → Option Word
  | .imm value => some (BitVec.ofInt 32 value)
  | .register name => state.lookup (foldCase name)

def tryBinary (op : String) (left right : Word) : Option Word :=
  match foldCase op with
  | "add" | "add_u" => some (left + right)
  | "sub" | "sub_u" => some (left - right)
  | "or" => some (left ||| right)
  | "and" => some (left &&& right)
  | "xor" => some (left ^^^ right)
  | "shl" => some (left <<< (right &&& 31).toNat)
  | "rotl" => some (left <<< (right &&& 31).toNat ||| left >>> ((32 - right) &&& 31).toNat)
  | "shr" | "shr_u" => some (left >>> (right &&& 31).toNat)
  | _ => none

/-! ## one instruction -/

def isGuestCall (target : String) : Bool :=
  (dropPrefixFolded "func_" target.toList).isSome || (dropPrefixFolded "0x" target.toList).isSome ||
    (parseDecimal target).isSome

/-- the GQRs that a call may change; all of them for a callee without a mask -/
def writeMask (calleeWriteMasks : Nat → Option Nat) (target : String) : Nat :=
  ((parseAddressOrDecimal target).bind calleeWriteMasks).getD 0xFF

def preserveUnmodifiedGqrsAcrossCall (calleeWriteMasks : Nat → Option Nat) (target : String)
    (state : Constants) : Constants :=
  state.rekey fun k => (gqrKey k).filter fun key =>
    !(writeMask calleeWriteMasks target).testBit (gqrIndex key)

def phiConstant (predecessorOut : String → Option Constants) (sources : List (String × String)) :
    Option Word :=
  match sources.map fun s => (predecessorOut s.1).bind fun out => out.lookup (foldCase s.2) with
  | [] => none
  | first :: rest => if rest.all (· = first) then first else none

def transfer (calleeWriteMasks : Nat → Option Nat)
    (predecessorOut : Option (String → Option Constants)) (ins : IrInstruction)
    (state : Constants) : Constants :=
  match ins with
  | .assign destination value =>
    state.assign ((gqrKey destination).getD (foldCase destination)) (tryValue state value)
  | .binary destination left right op =>
    state.assign (foldCase destination) <|
      (tryValue state left).bind fun l => (tryValue state right).bind fun r => tryBinary op l r
  | .phi destination sources =>
    state.assign (foldCase destination) (predecessorOut.bind fun out => phiConstant out sources)
  | .load destination _ _ => state.assign (foldCase destination) none
  | .call destination target _ _ =>
    if isGuestCall target then preserveUnmodifiedGqrsAcrossCall calleeWriteMasks target state
    else if isNullOrWhiteSpace destination then state
    else state.assign (foldCase destination) none
  | .indirectCall .. => ∅
  | _ => state

def transferAll (calleeWriteMasks : Nat → Option Nat)
    (predecessorOut : Option (String → Option Constants)) (body : List IrInstruction)
    (state : Constants) : Constants :=
  body.foldl (fun state ins => transfer calleeWriteMasks predecessorOut ins state) state

/-! ## the analysis -/

/-- the three dictionaries of the analysis, by block ordinal -/
structure FlowState where
  input : List Constants
  output : List Constants
  outputInitialized : List Bool

section
variable (f : IrFunction) (cfg : IrCfg) (entryConstants : Constants)
  (calleeWriteMasks : Nat → Option Nat)

/-- an uninitialised predecessor says nothing; without any, the block is not reached yet -/
def mergedInput (st : FlowState) (b : Nat) : Option Constants :=
  let predecessors := (cfg.predecessors b).filter fun p => st.outputInitialized.getD p false
  let outputs := predecessors.map fun p => st.output.getD p ∅
  if b = cfg.entry then some (entryConstants.meet outputs)
  else
    match outputs with
    | [] => none
    | first :: rest => some (first.meet rest)

def outputOf (st : FlowState) (label : String) : Option Constants :=
  (f.labelIndex label).map fun p => st.output.getD p ∅

def visitBlock (b : Nat) (work : FlowState × Bool) : FlowState × Bool :=
  let st := work.1
  match mergedInput cfg entryConstants st b with
  | none => work
  | some newInput =>
    let state := transferAll calleeWriteMasks (some (outputOf f st)) (f.body b) newInput
    let sameInput := (st.input.getD b ∅).same newInput
    let sameOutput := (st.output.getD b ∅).same state
    let initialized := st.outputInitialized.getD b false
    (⟨if sameInput then st.input else st.input.set b newInput,
      if sameOutput then st.output else st.output.set b state,
      if initialized then st.outputInitialized else st.outputInitialized.set b true⟩,
      work.2 || !(sameInput && sameOutput && initialized))

def roundOver (st : FlowState) : FlowState × Bool :=
  (List.range f.blocks.length).foldl
    (fun work b => visitBlock f cfg entryConstants calleeWriteMasks b work) (st, false)

/-- rounds until one changes nothing -/
def solve : Nat → FlowState → Option FlowState
  | 0, _ => none
  | fuel + 1, st =>
    let r := roundOver f cfg entryConstants calleeWriteMasks st
    if r.2 then solve fuel r.1 else some r.1

def initialFlow : FlowState :=
  ⟨List.replicate f.blocks.length ∅, List.replicate f.blocks.length ∅,
    List.replicate f.blocks.length false⟩

def iterationLimit : Nat := max 256 (f.blocks.length * 4 + 16)

/-- the constants at the start of each block; `none` when the graph cannot be built -/
def constantFlow : Option (List Constants) :=
  (IrCfg.build f).map fun cfg =>
    match solve f cfg entryConstants calleeWriteMasks (iterationLimit f) (initialFlow f) with
    | some st => st.input
    | none => List.replicate f.blocks.length ∅

end

/-! ## specialisation -/

def psqIndexArgument (target : String) : Option Nat :=
  if sameLabel target "PPC_PsqL" then some 2
  else if sameLabel target "PPC_PsqSt" then some 3
  else none

/-- the GQR of a paired-single access, and its constant, when the access may be specialised -/
def knownAccess (state : Constants) : IrInstruction → Option (Nat × Word)
  | .resolvedPsqLoad _ _ _ _ _ i none _ => (state.lookup (gqrName i)).map fun gqr => (i, gqr)
  | .resolvedPsqStore _ _ _ _ _ i none _ => (state.lookup (gqrName i)).map fun gqr => (i, gqr)
  | .call _ target arguments _ => do
    let position ← psqIndexArgument target
    let argument ← arguments[position]?
    let index ← tryValue state argument
    if index.toNat < 8 then (state.lookup (gqrName index.toNat)).map fun gqr => (index.toNat, gqr)
    else none
  | _ => none

def trySpecializePsq (requireRuntimeGuard resolvedOnly : Bool) (state : Constants)
    (ins : IrInstruction) : IrInstruction :=
  match ins, knownAccess state ins with
  | .resolvedPsqLoad d r a o w i _ _, some (_, gqr) =>
    .resolvedPsqLoad d r a o w i (some gqr.toNat) requireRuntimeGuard
  | .resolvedPsqStore r a o s w i _ _, some (_, gqr) =>
    .resolvedPsqStore r a o s w i (some gqr.toNat) requireRuntimeGuard
  | .call d target arguments tail, some (_, gqr) =>
    if resolvedOnly then ins
    else
      let suffix := if requireRuntimeGuard then "KnownGuarded" else "Known"
      .call d (target ++ suffix ++ "_" ++ hex8 gqr.toNat) arguments tail
  | _, _ => ins

def specializeBody (calleeWriteMasks : Nat → Option Nat) (requireRuntimeGuard resolvedOnly : Bool) :
    List IrInstruction → Constants → List IrInstruction
  | [], _ => []
  | ins :: rest, state =>
    trySpecializePsq requireRuntimeGuard resolvedOnly state ins ::
      specializeBody calleeWriteMasks requireRuntimeGuard resolvedOnly rest
        (transfer calleeWriteMasks none ins state)

def specialize (f : IrFunction) (entryConstants : Constants) (calleeWriteMasks : Nat → Option Nat)
    (requireRuntimeGuard resolvedOnly : Bool) : Option IrFunction :=
  (constantFlow f entryConstants calleeWriteMasks).map fun flow =>
    { f with blocks := f.blocks.mapIdx fun b block =>
        ⟨block.label, specializeBody calleeWriteMasks requireRuntimeGuard resolvedOnly
          block.instructions (flow.getD b ∅)⟩ }

end DolTranslator.Gqr

/-!
## Runs that the constant analysis is about

* `cellOf_eq_gqrName`   which names are accesses to a GQR;
* `TracedState`         the cells, and the value that the last definition gave to each name: a phi
  takes the source of the predecessor just left;
* `Accounted`           the instruction changes nothing behind the back of `transfer`.
-/

namespace DolTranslator.Gqr
open Dataflow

/-! ## names of the GQRs -/

theorem gqrIndex_gqrName {i : Nat} (h : i < 8) : gqrIndex (gqrName i) = i := by
  interval_cases i <;> decide +kernel

theorem foldCase_gqrName {i : Nat} (h : i < 8) : foldCase (gqrName i) = gqrName i := by
  interval_cases i <;> decide +kernel

theorem strip_gqrName {i : Nat} (h : i < 8) : stripNumericSuffix (gqrName i) = gqrName i := by
  interval_cases i <;> decide +kernel

theorem exists_gqrName {digit : Char} (h : '0' ≤ digit ∧ digit ≤ '7') :
    ∃ i < 8, String.ofList ['g', 'q', 'r', digit] = gqrName i := by
  have h0 : 48 ≤ digit.toNat := h.1
  have h7 : digit.toNat ≤ 55 := h.2
  have e : digit = Char.ofNat digit.toNat := (Char.ofNat_toNat digit).symm
  refine ⟨digit.toNat - 48, by omega, ?_⟩
  rw [e]
  generalize digit.toNat = n at h0 h7
  interval_cases n <;> decide +kernel

theorem gqrKey_eq_some {name key : String} :
    gqrKey name = some key ↔
      foldCase (stripNumericSuffix name) = key ∧ ∃ i < 8, key = gqrName i := by
  constructor
  · intro h
    simp only [gqrKey] at h
    split at h
    · rename_i digit hl
      split at h
      · rename_i hd
        have hkey := Option.some.inj h
        obtain ⟨i, hi, he⟩ := exists_gqrName hd
        refine ⟨hkey, i, hi, ?_⟩
        rw [← hkey, ← he, ← hl, String.ofList_toList]
      · cases h
    · cases h
  · rintro ⟨h, i, hi, rfl⟩
    unfold gqrKey
    rw [h]
    interval_cases i <;> decide +kernel

theorem gqrKey_gqrName {i : Nat} (h : i < 8) : gqrKey (gqrName i) = some (gqrName i) := by
  rw [gqrKey_eq_some, strip_gqrName h, foldCase_gqrName h]
  exact ⟨rfl, i, h, rfl⟩

theorem cellOf_eq_gqrName {name : String} {i : Nat} (hi : i < 8) (h : cellOf name = gqrName i) :
    gqrKey name = some (gqrName i) := by
  unfold cellOf at h
  split at h
  · have hfold : (registerBase name).toList.map Char.toLower = (gqrName i).toList := by
      rw [← h, foldCase, String.toList_ofList]
    have hstrip : stripNumericSuffix name = registerBase name := by
      refine strip_eq_registerBase (fun e => ?_) fun hm => ?_
      · rw [e] at hfold
        interval_cases i <;> exact absurd hfold (by decide +kernel)
      · have hu : '_' ∈ (gqrName i).toList := by
          rw [← hfold]
          exact List.mem_map.mpr ⟨'_', hm, by decide⟩
        interval_cases i <;> exact absurd hu (by decide +kernel)
    rw [gqrKey_eq_some, hstrip]
    exact ⟨h, i, hi, rfl⟩
  · rw [h]
    exact gqrKey_gqrName hi

/-! ## the machine -/

section
variable {V W : Type}

/-- the cells, the value that the last definition gave to each folded name, and on the way into a
block the label of the block just left with the values at its end -/
structure TracedState (V W : Type) where
  cells : String → V
  named : String → V
  world : W
  arrival : Option (String × (String → V))

/-- a phi takes the source of the predecessor just left; without one it stands for what the cell
holds -/
def phiNamed (t : TracedState V W) (destination : String) (sources : List (String × String)) : V :=
  match t.arrival with
  | none => t.cells (cellOf destination)
  | some (label, old) =>
    match sources.find? fun s => sameLabel s.1 label with
    | some s => old (foldCase s.2)
    | none => t.cells (cellOf destination)

def TracedState.step (env : Env V W) (ins : IrInstruction) (t : TracedState V W) :
    TracedState V W × List (Event V) :=
  let e := execute env (fun x => t.cells (cellOf x)) t.cells t.world ins
  let named := match ins with
    | .phi destination sources =>
      Function.update t.named (foldCase destination) (phiNamed t destination sources)
    | _ => assignAll t.named (ins.definitions.map foldCase) e.results
  (⟨assignAll e.regs (ins.definitions.map cellOf) e.results, named, e.world, t.arrival⟩, e.events)

theorem TracedState.step_cells (env : Env V W) (ins : IrInstruction) (t : TracedState V W) :
    (t.step env ins).1.cells =
      assignAll (execute env (fun x => t.cells (cellOf x)) t.cells t.world ins).regs
        (ins.definitions.map cellOf)
        (execute env (fun x => t.cells (cellOf x)) t.cells t.world ins).results := rfl

theorem TracedState.step_named (env : Env V W) {ins : IrInstruction} (h : ins.isPhi = false)
    (t : TracedState V W) : (t.step env ins).1.named = assignAll t.named
      (ins.definitions.map foldCase)
      (execute env (fun x => t.cells (cellOf x)) t.cells t.world ins).results := by
  cases ins with
  | phi d sources => cases h
  | _ => simp only [TracedState.step]

def tracedMachine (env : Env V W) : Machine (TracedState V W) V where
  operandValues ins t := ins.operands.map fun x => t.cells (cellOf x)
  step ins t := t.step env ins
  flow ins t := DolTranslator.transfer env (fun x => t.cells (cellOf x)) t.cells t.world ins

def arrive (f : IrFunction) (pred _next : Nat) (t : TracedState V W) : TracedState V W :=
  { t with arrival := some (f.labelOf pred, t.named) }

theorem tracedMachine_transfers (env : Env V W) : (tracedMachine env).Transfers :=
  ⟨fun ins t => transfer_eq_next env _ t.cells t.world ins,
    fun _ t _ h => mem_targets_of_goto env _ t.cells t.world h⟩

/-! ## what the analysis accounts for -/

def constantKey : IrInstruction → Option String
  | .assign destination _ => some ((gqrKey destination).getD (foldCase destination))
  | .binary destination _ _ _ | .phi destination _ => some (foldCase destination)
  | _ => none

def BindsConstant (f : IrFunction) (key : String) : Prop :=
  ∃ b ∈ f.blocks, ∃ ins ∈ b.instructions, constantKey ins = some key

def MayBeConstant (f : IrFunction) (name : String) : Prop := BindsConstant f (foldCase name)

/-- the cell of an operand still holds what the last definition of that name gave it -/
def Current (f : IrFunction) (t : TracedState V W) (value : IrValue) : Prop :=
  ∀ x ∈ value.names, MayBeConstant f x → t.named (foldCase x) = t.cells (cellOf x)

/-- a destination that is not a GQR, or is the GQR under its own name -/
def PlainKey (destination : String) : Prop :=
  ∀ key, gqrKey destination = some key → foldCase destination = key

/-- the value of an operand, when it is a word -/
def IsWord (word : Word → V) (env : Env V W) (t : TracedState V W) (value : IrValue) (w : Word) :
    Prop := value.eval env (fun x => t.cells (cellOf x)) = word w

/-- **What `transfer` accounts for.**

* a GQR is defined by an assignment, or under its own name by one of the other kinds that
  `transfer` handles; a phi reads a GQR only under a version, and the phi of a GQR reads nothing
  else;
* the kinds that `transfer` skips do not define a name that can be constant;
* an operand that can be constant holds the value of its last definition;
* a folded operator computes what the runtime computes;
* a phi has a source for the predecessor just left, or a source that is never constant;
* a helper changes a GQR only through its destination. -/
def Accounted (f : IrFunction) (env : Env V W) (word : Word → V) (ins : IrInstruction)
    (t : TracedState V W) : Prop :=
  match ins with
  | .assign destination value =>
    (∀ key, gqrKey destination = some key → cellOf destination = key) ∧ Current f t value
  | .binary destination left right op =>
    PlainKey destination ∧ Current f t left ∧ Current f t right ∧
      ∀ l r w, IsWord word env t left l → IsWord word env t right r → tryBinary op l r = some w →
        runtimeBinary op l r = some w
  | .phi destination sources =>
    (∀ s ∈ sources, ∀ key, gqrKey s.2 = some key → foldCase s.2 ≠ key) ∧
    ((gqrKey destination).isSome → ∀ s ∈ sources, (gqrKey s.2).isSome) ∧
    ((∃ label old, t.arrival = some (label, old) ∧ ∃ s ∈ sources, sameLabel s.1 label = true) ∨
      ∃ s ∈ sources, ¬MayBeConstant f s.2)
  | .load destination _ _ => PlainKey destination
  | .call destination target arguments _ =>
    (∀ position ∈ psqIndexArgument target, ∀ x ∈ arguments[position]?, Current f t x) ∧
    if isGuestCall target then isNullOrWhiteSpace destination = true ∨ gqrKey destination = none
    else (isNullOrWhiteSpace destination = true ∨ PlainKey destination) ∧
      ∀ i < 8, (env.call target (arguments.map (IrValue.eval env fun x => t.cells (cellOf x)))
        t.cells t.world).2.1 (gqrName i) = t.cells (gqrName i)
  | .indirectCall .. => True
  | ins => ∀ x ∈ ins.definitions, gqrKey x = none ∧ ¬MayBeConstant f x

/-- the callees change at most the GQRs in their masks -/
def CalleesPreserve (env : Env V W) (calleeWriteMasks : Nat → Option Nat) : Prop :=
  ∀ target address mask, isGuestCall target = true → parseAddressOrDecimal target = some address →
    calleeWriteMasks address = some mask → ∀ i < 8, mask.testBit i = false →
      ∀ arguments regs world,
        (env.call target arguments regs world).2.1 (gqrName i) = regs (gqrName i)

end

end DolTranslator.Gqr
