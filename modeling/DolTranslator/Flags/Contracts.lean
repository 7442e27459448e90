import DolTranslator.Ir.Steps
import DolTranslator.Ir.Text

/-!
# What the emitter knows about the callees of a function

The parts of `GuestAbiContract` that flag elision reads, the sets of call targets that escape the
contracts, and `skipInstructions`: the function that is emitted when some instructions are
suppressed.
-/

namespace DolTranslator.Flags

structure GuestCallBoundaryFlags where
  requiresCompleteContext : Bool
  canSuspend : Bool
  canSwitchThreads : Bool
  invokesGuestCode : Bool
deriving DecidableEq, Repr

/-- `escaping` of `CalleeIgnoresLinkRegister` -/
def GuestCallBoundaryFlags.escaping (flags : GuestCallBoundaryFlags) : Bool :=
  flags.requiresCompleteContext || flags.canSuspend || flags.canSwitchThreads ||
    flags.invokesGuestCode

structure GuestAbiContract where
  crReadBeforeWriteMask : BitVec 8
  readsXerBeforeWrite : Bool
  readsLrBeforeWrite : Bool
  boundaryFlags : GuestCallBoundaryFlags
deriving DecidableEq, Repr

/-- the contracts of the callees, and the call targets that may not behave as theirs -/
structure CallPolicy where
  guestAbiContracts : Nat → Option GuestAbiContract
  modOverridableCallTargets : List Nat
  nonReturningCallTargets : List Nat
  lrContinuationCallTargets : List Nat

/-- a call that may come back at any label of the function -/
def hasOutOfBandLocalEntry (f : IrFunction) (policy : CallPolicy) : Bool :=
  f.blocks.any fun block => block.instructions.any fun ins =>
    match ins with
    | .call _ target _ _ =>
      match parseAddress target with
      | some a => policy.nonReturningCallTargets.contains a ||
          policy.lrContinuationCallTargets.contains a
      | none => false
    | _ => false

def calleeIgnoresLinkRegister (policy : CallPolicy) (target : String) : Bool :=
  match parseAddress target with
  | none => false
  | some a =>
    if policy.modOverridableCallTargets.contains a || policy.nonReturningCallTargets.contains a ||
        policy.lrContinuationCallTargets.contains a then false
    else
      match policy.guestAbiContracts a with
      | none => false
      | some contract => !contract.readsLrBeforeWrite && !contract.boundaryFlags.escaping

/-! ## suppressed instructions -/

/-- a suppressed instruction emits nothing -/
def skipInstructions (f : IrFunction) (suppressed : Nat → Nat → Bool) : IrFunction :=
  { f with blocks := f.blocks.mapIdx fun b block =>
      ⟨block.label, block.instructions.mapIdx fun i ins =>
        if suppressed b i then .comment "" else ins⟩ }

section
variable (f : IrFunction) (suppressed : Nat → Nat → Bool)

theorem skipInstructions_body (b : Nat) : (skipInstructions f suppressed).body b =
    (f.body b).mapIdx fun i ins => if suppressed b i then .comment "" else ins := by
  simp only [IrFunction.body, skipInstructions, List.getElem?_mapIdx]
  cases f.blocks[b]? <;> rfl

theorem skipInstructions_getElem (b i : Nat) : ((skipInstructions f suppressed).body b)[i]? =
    ((f.body b)[i]?).map fun ins => if suppressed b i then .comment "" else ins := by
  rw [skipInstructions_body f suppressed b, List.getElem?_mapIdx]

theorem skipInstructions_nextBlock {V : Type} (b : Nat) (flow : Flow V) :
    (skipInstructions f suppressed).nextBlock b flow = f.nextBlock b flow := by
  have hlabel : ∀ l, (skipInstructions f suppressed).labelIndex l = f.labelIndex l := by
    intro l
    have hl : (skipInstructions f suppressed).blocks.map IrBasicBlock.label =
        f.blocks.map IrBasicBlock.label := by
      refine List.ext_getElem (by simp [skipInstructions]) fun i h1 h2 => ?_
      simp [skipInstructions]
    have hfind : ∀ bs : List IrBasicBlock, bs.findIdx? (fun b => sameLabel b.label l) =
        (bs.map IrBasicBlock.label).findIdx? (fun x => sameLabel x l) := by
      intro bs
      rw [List.findIdx?_map]
      rfl
    rw [IrFunction.labelIndex, IrFunction.labelIndex, hfind, hfind, hl]
  cases flow with
  | goto l => exact hlabel l
  | next => simp [IrFunction.nextBlock, skipInstructions]
  | _ => rfl

end

end DolTranslator.Flags
