import DolTranslator.Ppc.JumpTable

/-!
# The disassembler

`PpcDisassembler.DisassembleFunction`: a work-list of addresses; from each of them the instructions
are decoded one after the other, until control leaves the line.  The instruction map and the set of
reachable addresses always have the same keys; both are `decoded` here, newest first.

* `DisassemblyRequest`   what the disassembler is asked, and its window;
* `record`, `enqueue`   what one instruction adds to the state;
* `walk`   the inner loop, on the instructions that the budget still allows;
* `drain`   the outer loop; `order` says which item of the work-list is next;
* `disassembleFunction`   the code, which takes the items first in, first out.
-/

namespace DolTranslator.Ppc

/-- the arguments; a null set of known entry points answers as an empty one -/
structure DisassemblyRequest where
  image : ProgramImage
  entryPoint : Word
  maxInstructions : Int
  maxBytes : Int
  knownFunctionEntryPoints : List Word

inductive DisassemblyError where
  /-- the entry is outside the image -/
  | entryOutside
  /-- `PpcDisassemblyLimitExceededException` -/
  | limitExceeded (decodedInstructions : Nat) (blockedAddress : Word)
  /-- `EndAddress` does not fit a `uint` -/
  | overflow
deriving DecidableEq, Repr

structure DisassemblyState where
  decoded : List PpcInstruction
  localControlFlowTargets : List Word
  worklist : List Word
deriving DecidableEq, Repr

def PpcInstruction.isUnconditionalBranch (ins : PpcInstruction) : Bool :=
  ins.branchTargets ≠ [] ∧ !ins.isConditionalBranch ∧ !ins.isCall ∧ !ins.isReturn

def byAddress (decoded : List PpcInstruction) : List PpcInstruction :=
  decoded.insertionSort fun a b => a.address ≤ b.address

def DisassemblyState.visited (st : DisassemblyState) (a : Word) : Bool :=
  (st.decoded.map PpcInstruction.address).contains a

section
variable (q : DisassemblyRequest)

def DisassemblyRequest.available : Int :=
  min q.maxBytes (q.image.memory.length - q.image.getOffset q.entryPoint)

def DisassemblyRequest.endAddress : Word := q.entryPoint + BitVec.ofInt 32 q.available

def DisassemblyRequest.inWindow (cursor : Word) : Bool :=
  q.entryPoint ≤ cursor ∧ cursor < q.endAddress

/-! ## one instruction -/

/-- the targets of a `bctr`, on what is decoded when it is reached -/
def detect (decoded : List PpcInstruction) (ins : PpcInstruction) : Option (List Word) :=
  if ins.branchTargets = [] ∧ mnemonicIs ins "bctr" then
    tryRecognize (byAddress (ins :: decoded)) ins.address q.entryPoint q.endAddress q.image
  else none

def PpcInstruction.withTable (ins : PpcInstruction) : Option (List Word) → PpcInstruction
  | some targets => { ins with branchTargets := targets, isReturn := false }
  | none => ins

def isKnownExternalFunctionEntry (st : DisassemblyState) (target : Word) : Bool :=
  target ≠ q.entryPoint ∧ target ∉ st.localControlFlowTargets ∧
    target ∈ q.knownFunctionEntryPoints

/-- the targets that are followed: an unconditional branch to another known entry leaves the
function, and every other target belongs to it -/
def followed (ins : PpcInstruction) (table : Option (List Word)) : List Word :=
  if ins.isConditionalBranch then ins.branchTargets
  else if ins.isUnconditionalBranch then
    ins.branchTargets.filter fun t =>
      table.isSome || decide (t = q.entryPoint) || decide (t ∉ q.knownFunctionEntryPoints)
  else []

/-- the instruction is decoded; `table` says what the detector found -/
def record (st : DisassemblyState) (ins : PpcInstruction) (table : Option (List Word)) :
    DisassemblyState :=
  { st with
    decoded := ins :: st.decoded
    localControlFlowTargets := st.localControlFlowTargets ++ table.getD [] }

/-- the targets of an instruction that is decoded go to the work-list -/
def enqueue (st : DisassemblyState) (ins : PpcInstruction) (table : Option (List Word)) :
    DisassemblyState :=
  if ins.isConditionalBranch then
    { st with
      localControlFlowTargets := st.localControlFlowTargets ++ ins.branchTargets
      worklist := st.worklist ++ ins.branchTargets.filter fun t => !st.visited t }
  else if ins.isUnconditionalBranch then
    { st with
      worklist := st.worklist ++ ins.branchTargets.filter fun t =>
        (table.isSome || !isKnownExternalFunctionEntry q st t) && !st.visited t }
  else st

def PpcInstruction.fallsThrough (ins : PpcInstruction) : Bool :=
  ins.isConditionalBranch || (!ins.isUnconditionalBranch && !ins.isReturn)

/-! ## the loops -/

/-- the inner loop; the first argument is what is left of the budget -/
def walk : Nat → DisassemblyState → Word → Except DisassemblyError DisassemblyState
  | remaining, st, cursor =>
    if !q.inWindow cursor then .ok st
    else
      match remaining with
      | 0 => .error (.limitExceeded st.decoded.length cursor)
      | remaining + 1 =>
        if st.visited cursor then .ok st
        else
          match q.image.readWord cursor with
          | none => .ok st
          | some word =>
            let raw := decodeWord cursor word
            let table := detect q st.decoded raw
            let ins := raw.withTable table
            let st := enqueue q (record st ins table) ins table
            if ins.fallsThrough then
              match ins.endAddress with
              | some next => walk remaining st next
              | none => .error .overflow
            else .ok st

def nextItem (order : DisassemblyState → Nat) (st : DisassemblyState) : Nat :=
  order st % st.worklist.length

/-- the outer loop -/
def drain (order : DisassemblyState → Nat) : Nat → DisassemblyState →
    Option (Except DisassemblyError DisassemblyState)
  | 0, _ => none
  | fuel + 1, st =>
    let i := nextItem order st
    match st.worklist[i]? with
    | none => some (.ok st)
    | some cursor =>
      if q.maxInstructions ≤ st.decoded.length then
        some (.error (.limitExceeded st.decoded.length cursor))
      else
        match walk q (q.maxInstructions.toNat - st.decoded.length)
            { st with worklist := st.worklist.eraseIdx i } cursor with
        | .ok st => drain order fuel st
        | .error e => some (.error e)

def startState : DisassemblyState := ⟨[], [], [q.entryPoint]⟩

def disassembleInOrder (order : DisassemblyState → Nat) (fuel : Nat) :
    Option (Except DisassemblyError (List PpcInstruction)) :=
  if q.image.contains q.entryPoint 4 then
    (drain q order fuel (startState q)).map fun result =>
      result.map fun st => byAddress st.decoded
  else some (.error .entryOutside)

def firstIn : DisassemblyState → Nat := fun _ => 0

/-- `PpcDisassembler.DisassembleFunction` -/
def disassembleFunction (fuel : Nat) : Option (Except DisassemblyError (List PpcInstruction)) :=
  disassembleInOrder q firstIn fuel

end

end DolTranslator.Ppc
