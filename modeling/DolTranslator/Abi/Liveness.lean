import DolTranslator.Abi.Accesses

/-!
# State liveness

Which state is live after each direct call of a function.

* `canDeconstructWithoutContext`   the functions that the analysis is made for;
* `transferBlock`   a block, from its end to its start;
* `liveFlow`   what is live at the end and the start of each block;
* `analyzeLiveness`   the states after the direct calls, in order of their places.
-/

namespace DolTranslator.Abi
open RegisterSet

/-! ## the functions -/

def supervisorRegisters : List String :=
  ["msr", "dar", "dsisr", "iccr", "tbr", "tbl", "tbu", "srr0", "srr1"]

def isSupervisorRegister (name : String) : Bool := supervisorRegisters.contains (hardwareBase name)

def IrInstruction.hasUnknownTarget : IrInstruction → Bool
  | .indirectCall .. | .indirectJump .. | .jumpTable .. | .undefined .. => true
  | _ => false

def canDeconstructWithoutContext (f : IrFunction) : Bool :=
  (instructionsOf f).all fun ins => !IrInstruction.hasUnknownTarget ins &&
    ins.uses.all (!isSupervisorRegister ·) && ins.definitions.all (!isSupervisorRegister ·)

/-! ## one instruction -/

def liveValue : IrValue → RegisterSet
  | .register name => hardwareRegister name
  | .imm _ => empty

def liveValues (values : List IrValue) : RegisterSet := unionAll (values.map liveValue)

def liveReads : IrInstruction → RegisterSet
  | .assign _ value => liveValue value
  | .binary _ left right _ => (liveValue left).union (liveValue right)
  | .load _ address _ => hardwareRegister address.base
  | .store address source _ => (hardwareRegister address.base).union (liveValue source)
  | .resolveGuestMemoryRange _ base .. => liveValue base
  | .resolvedLoad _ _ originalAddress .. => hardwareRegister originalAddress.base
  | .resolvedStore _ originalAddress _ source _ =>
    (hardwareRegister originalAddress.base).union (liveValue source)
  | .resolvedPsqLoad _ _ originalAddress _ _ i knownGqr guardKnownGqr =>
    (liveValue originalAddress).union (ofAccessGqr i knownGqr guardKnownGqr)
  | .resolvedPsqStore _ originalAddress _ source _ i knownGqr guardKnownGqr =>
    ((liveValue originalAddress).union (liveValue source)).union
      (ofAccessGqr i knownGqr guardKnownGqr)
  | .resolvedLoadPair _ _ _ first second .. =>
    (hardwareRegister first.base).union (hardwareRegister second.base)
  | .resolvedStorePair _ first second _ firstSource secondSource .. =>
    ((hardwareRegister first.base).union (hardwareRegister second.base)).union
      ((liveValue firstSource).union (liveValue secondSource))
  | .call _ _ arguments _ => liveValues arguments
  | .indirectCall _ target arguments =>
    ((liveValue target).union (liveValues arguments)).union full
  | .indirectJump target => (liveValue target).union full
  | .setCrField _ left right _ => ((liveValue left).union (liveValue right)).union xerOnly
  | .phi _ sources => unionAll (sources.map fun source => hardwareRegister source.2)
  | .branch _ _ _ conditionRegister => hardwareRegister conditionRegister
  | .jumpTable selector _ => hardwareRegister selector
  | .ret (some value) => liveValue value
  | _ => empty

def liveWrites : IrInstruction → RegisterSet
  | .assign destination _ | .binary destination _ _ _ | .load destination _ _
  | .resolveGuestMemoryRange destination .. | .resolvedLoad destination ..
  | .resolvedPsqLoad destination .. | .phi destination _ | .call destination .. =>
    hardwareRegister destination
  | .resolvedLoadPair first second .. => (hardwareRegister first).union (hardwareRegister second)
  | .indirectCall destination .. => (hardwareRegister destination).union full
  | .setCrField fieldIndex .. => { empty with cr := singleBit 8 (fieldIndex % 32) }
  | .undefined .. => full
  | _ => empty

section
variable (calleeContracts : CalleeContracts)

def resolvedContract : IrInstruction → Option GuestAbiContract
  | .call _ target _ _ => (parseAddress target).bind calleeContracts
  | _ => none

/-- what a resolved call takes from the state before it; a call without a destination is a tail
branch, which hands LR on -/
def callInputs (destination : String) (contract : GuestAbiContract) : RegisterSet :=
  if isNullOrWhiteSpace destination then contract.readBeforeWrite.union { empty with lr := true }
  else contract.readBeforeWrite

def transferInstruction (ins : IrInstruction) (live : RegisterSet) : RegisterSet :=
  match ins, resolvedContract calleeContracts ins with
  | .call destination _ _ _, some contract =>
    ((live.except contract.definiteWrites).union (callInputs destination contract)).except
      (hardwareRegister destination)
  | _, _ => (live.except (liveWrites ins)).union (liveReads ins)

def transferBlock (body : List IrInstruction) (live : RegisterSet) : RegisterSet :=
  body.foldr (transferInstruction calleeContracts) live

/-! ## the analysis -/

variable (f : IrFunction) (exitLive : RegisterSet)

/-- the blocks after a block, the one that it falls into included -/
def liveSuccessors (b : Nat) : List Nat :=
  match (f.body b).getLast? with
  | some (.branch _ trueLabel falseLabel _) =>
    (ordinalOf f trueLabel).toList ++ (ordinalOf f falseLabel).toList
  | some (.jump label) => (ordinalOf f label).toList
  | some (.ret _) | some (.undefined ..) | some (.indirectJump _) | some (.jumpTable ..) => []
  | _ => if b + 1 < f.blocks.length then [b + 1] else []

def liveEquations (b : Nat) (sets : Nat → BlockSets) : BlockSets :=
  let outgoing :=
    if (liveSuccessors f b).isEmpty then exitLive
    else unionAll ((liveSuccessors f b).map fun s => (sets s).2)
  (outgoing, transferBlock calleeContracts (f.body b) outgoing)

def liveFlow : List BlockSets :=
  (Dataflow.solve (liveEquations calleeContracts f exitLive) (List.range f.blocks.length).reverse
    (sweepLimit f) (List.replicate f.blocks.length ⊥)).getD []

def liveOut (b : Nat) : RegisterSet :=
  (Dataflow.valueAt (liveFlow calleeContracts f exitLive) b).1

def liveIn (b : Nat) : RegisterSet :=
  (Dataflow.valueAt (liveFlow calleeContracts f exitLive) b).2

end

structure GuestCallSiteStateContract where
  blockLabel : String
  instructionIndex : Nat
  callOrdinal : Nat
  target : Nat
  inputs : RegisterSet
  outputs : RegisterSet
  liveAfter : RegisterSet
deriving DecidableEq, Repr

def liveAfter (calleeContracts : CalleeContracts) (f : IrFunction) (exitLive : RegisterSet)
    (b pos : Nat) : RegisterSet :=
  transferBlock calleeContracts ((f.body b).drop (pos + 1))
    (liveOut calleeContracts f exitLive b)

/-- the report of a direct call with a contract -/
def callSite (calleeContracts : CalleeContracts) (f : IrFunction) (exitLive : RegisterSet)
    (b pos : Nat) : IrInstruction → Option GuestCallSiteStateContract
  | .call destination target _ _ =>
    match parseAddress target with
    | some a =>
      (calleeContracts a).map fun contract =>
        let live := liveAfter calleeContracts f exitLive b pos
        ⟨f.labelOf b, pos, 0, a, callInputs destination contract,
          live.intersect contract.possibleWrites, live⟩
    | none => none
  | _ => none

def callSitesOf (calleeContracts : CalleeContracts) (f : IrFunction) (exitLive : RegisterSet)
    (b : Nat) : List GuestCallSiteStateContract :=
  ((f.body b).mapIdx fun pos ins => callSite calleeContracts f exitLive b pos ins).filterMap id

def siteBefore (left right : GuestCallSiteStateContract) : Bool :=
  decide (left.blockLabel < right.blockLabel) ||
    (left.blockLabel == right.blockLabel && decide (left.instructionIndex ≤ right.instructionIndex))

def numberSites (sites : List GuestCallSiteStateContract) : List GuestCallSiteStateContract :=
  sites.mapIdx fun i site => { site with
    callOrdinal := (sites.take i).countP fun other =>
      other.blockLabel == site.blockLabel && other.target == site.target }

structure GuestStateLivenessResult where
  blockLiveIn : List RegisterSet
  blockLiveOut : List RegisterSet
  directCalls : List GuestCallSiteStateContract
deriving DecidableEq, Repr

/-- `GuestStateLivenessAnalyzer.Analyze`, for distinct labels; the live sets by ordinal -/
def analyzeLiveness (f : IrFunction) (calleeContracts : CalleeContracts) (exitLive : RegisterSet) :
    GuestStateLivenessResult where
  blockLiveIn := (List.range f.blocks.length).map (liveIn calleeContracts f exitLive)
  blockLiveOut := (List.range f.blocks.length).map (liveOut calleeContracts f exitLive)
  directCalls := numberSites (((List.range f.blocks.length).flatMap
    (callSitesOf calleeContracts f exitLive)).insertionSort fun left right => siteBefore left right)

end DolTranslator.Abi
