import DolTranslator.Dataflow.Sweeps
import DolTranslator.Ir.Emitted
import DolTranslator.Ir.Text

/-!
# Which float registers hold a pair

A float register holds a scalar or a packed pair.  The emitter keeps this twice:

* `ComputePairedFlowStates`   a forward analysis with a mask of `f0` .. `f31` at the start and at
  the end of each block;
* `emitInstruction`   the dictionary of tags that the code of a block is written with,
  which starts from the mask of the block;
* `conversion`   what is emitted on an edge, from the two masks and the live
  registers of the target.

A key of the dictionary is a base name, compared without regard to case.  The helpers that test a
blank destination are left out: a blank name is no float register.
-/

namespace DolTranslator.Paired
open Dataflow

/-- a mask over `f0` .. `f31` -/
abbrev Floats := Fin 32 → Bool

instance : OrderBot Floats where
  bot := fun _ => false
  bot_le := fun _ _ => Bool.false_le _

/-! ## names -/

/-- `PairedFloatRegisterBit` -/
def floatBit (name : String) : Option (Fin 32) :=
  match registerBaseChars name.toList with
  | 'f' :: digits =>
    if digits.length ≤ 2 then
      (decimalValue digits).bind fun n => if h : n < 32 then some ⟨n, h⟩ else none
    else none
  | _ => none

/-- `FprRegisterName` -/
def fprName (r : Fin 32) : String := "f" ++ toString r.val

def tagKey (name : String) : String := foldCase (registerBase name)

def isGuestCallTarget (target : String) : Bool :=
  let trimmed := trimChars target.toList
  (dropPrefixFolded "0x" trimmed).isSome || (dropPrefixFolded "func_" trimmed).isSome

structure GuestFunctionAbi where
  scalarFloatArgumentRegisters : List String
  returnsPairedScalarFloat : Bool

/-- `IGuestFunctionAbiProvider` -/
abbrev AbiProvider := String → Option GuestFunctionAbi

def isGuestScalarFloatArgument (abi : AbiProvider) (target registerName : String) : Bool :=
  match floatBit registerName, abi target with
  | some r, some a => decide (1 ≤ r.val ∧ r.val ≤ 13) &&
      (a.scalarFloatArgumentRegisters.map foldCase).contains
        (foldCase (stripNumericSuffix registerName))
  | _, _ => false

def isGuestPairedScalarFloatReturn (abi : AbiProvider) (target : String) : Bool :=
  (abi target).any GuestFunctionAbi.returnsPairedScalarFloat

/-! ## the analysis -/

scoped instance neZero_floats : NeZero 32 := ⟨by decide⟩

section
variable (abi : AbiProvider) (f : IrFunction) (cfg : IrCfg)

end

/-! ## the tags of the emitter -/

abbrev Tags := String → Bool

def normalized (abi : AbiProvider) (target : String) (localPaired : Tags) : IrValue → Bool
  | .register name => localPaired (tagKey name) &&
      isGuestScalarFloatArgument abi target (registerBase name)
  | .imm _ => false

/-- what the emission of a function has at hand: the callees by address, whether registers are
resident, and for the instruction at an index of a block whether it is a state-free call and
whether the flag plan suppresses it -/
structure Emission where
  abi : AbiProvider
  inlineThunk : Nat → Bool
  longjmp : Nat → Bool
  tailJump : Nat → Bool
  setjmp : Nat → Bool
  nonReturning : Nat → Bool
  lrContinuation : Nat → Bool
  resident : Bool
  stateFree : Nat → Nat → Bool
  suppressed : Nat → Nat → Bool

section
variable (e : Emission) (f : IrFunction)

/-- `TryGetLocalFallthroughLr`: the instruction before the call puts a constant in LR -/
def localFallthroughLr (b i : Nat) : Bool :=
  match i, (f.body b)[i - 1]? with
  | _ + 1, some (.assign destination (.imm _)) => tagKey destination == "lr"
  | _, _ => false

def resumesThroughLinkRegister (b i address : Nat) : Bool :=
  e.nonReturning address || (e.lrContinuation address && localFallthroughLr f b i)

/-- the instruction sends control out of the frame: a tail call, `longjmp`, and a callee that does
not return here without a return address to compare with -/
def leaves (b i : Nat) : IrInstruction → Bool
  | .call _ target _ isTailCall =>
    (parseAddress target).any fun address => !e.inlineThunk address &&
      (e.longjmp address || isTailCall || e.tailJump address || !e.setjmp address &&
        e.nonReturning address && !localFallthroughLr f b i)
  | .indirectJump _ => true
  | _ => false

def marshalsStateFreeThroughResidency (b i address : Nat) (target : String)
    (arguments : List IrValue) (localPaired : Tags) : Bool :=
  e.stateFree b i && e.resident && !arguments.any (normalized e.abi target localPaired) &&
    !resumesThroughLinkRegister e f b i address && !isGuestPairedScalarFloatReturn e.abi target

/-- the instructions that the flag plan can suppress -/
def suppressible : IrInstruction → Bool
  | .setCrField .. => true
  | .assign destination (.imm _) => tagKey destination == "lr"
  | .call destination target _ _ => tagKey destination == "xer" &&
      ["ppc_updatecarryadd", "ppc_updatecarrysub", "ppc_updatecarryshiftright"].contains
        (foldCase target)
  | _ => false

end

inductive Conversion
  | fromScalar
  | toScalar
deriving DecidableEq, Repr

/-- what a register that holds a pair, or does not, holds after a conversion: nothing sensible
when the conversion is for the other representation -/
def convert : Option Conversion → Bool → Option Bool
  | none, paired => some paired
  | some .fromScalar, false => some true
  | some .toScalar, true => some false
  | some _, _ => none

end DolTranslator.Paired
