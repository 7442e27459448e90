import DolTranslator.Abi.RegisterSet
import DolTranslator.Flags.Contracts

/-!
# Effects of the runtime helpers

A call whose target is no guest address runs a helper of the runtime, which reads and writes the
CPU context on its own.  `helperEffect` is the catalog of these effects; a helper that it does not
know reads and writes everything.
-/

namespace DolTranslator.Abi
open Flags RegisterSet

def noFlags : GuestCallBoundaryFlags := ⟨false, false, false, false⟩

def requiresCompleteContext : GuestCallBoundaryFlags :=
  { noFlags with requiresCompleteContext := true }

def unionFlags (a b : GuestCallBoundaryFlags) : GuestCallBoundaryFlags :=
  ⟨a.requiresCompleteContext || b.requiresCompleteContext, a.canSuspend || b.canSuspend,
    a.canSwitchThreads || b.canSwitchThreads, a.invokesGuestCode || b.invokesGuestCode⟩

/-! ## constant effects -/

/-- an effect names no FPSCR, GQR or HID -/
structure GuestHelperEffect where
  reads : RegisterSet
  writes : RegisterSet
  boundaryFlags : GuestCallBoundaryFlags
deriving DecidableEq, Repr

def xerOnly : RegisterSet := { empty with xer := true }

def allCr : RegisterSet := { empty with cr := .allOnes 8 }

def allGpr : RegisterSet := { empty with gpr := .allOnes 32 }

def noEffect : GuestHelperEffect := ⟨empty, empty, noFlags⟩

/-- `CreateComplete` -/
def completeEffect (extra : GuestCallBoundaryFlags) : GuestHelperEffect :=
  let state := { full with fpscr := false, gqr := 0, hid := 0 }
  ⟨state, state, unionFlags extra requiresCompleteContext⟩

def pureHelpers : List String :=
  ["memset_zero_32", "PPC_Cntlzw", "PPC_Eciwx", "PPC_Ecowx", "PPC_Lwarx",
    "PPC_LoadHalfwordByteReverse", "PPC_LoadWordByteReverse",
    "PPC_StoreHalfwordByteReverse", "PPC_StoreWordByteReverse", "PPC_Stfiwx",
    "PPC_Fadds", "PPC_Fdivs", "PPC_Fmadd", "PPC_Fmadds", "PPC_Fmsub", "PPC_Fmsubs",
    "PPC_Fmuls", "PPC_Fnmadd", "PPC_Fnmadds", "PPC_Fnmsub", "PPC_Fnmsubs",
    "PPC_Fres", "PPC_Frsqrte", "PPC_Fsel", "PPC_Fsqrt", "PPC_Fsubs",
    "PPC_PsAbs", "PPC_PsAdd", "PPC_PsDiv", "PPC_PsMadd", "PPC_PsMadds0",
    "PPC_PsMadds1", "PPC_PsMerge00", "PPC_PsMerge01", "PPC_PsMerge10",
    "PPC_PsMerge11", "PPC_PsMsub", "PPC_PsMul", "PPC_PsMuls0", "PPC_PsMuls1",
    "PPC_PsNabs", "PPC_PsNeg", "PPC_PsNmadd", "PPC_PsNmsub", "PPC_PsRes",
    "PPC_PsRsqrte", "PPC_PsSel", "PPC_PsSub", "PPC_PsSum0", "PPC_PsSum1",
    "PPC_Mftb", "PPC_Mftbu", "PPC_TrapWord"]

def xerReadWriteHelpers : List String :=
  ["PPC_UpdateCarryAdd", "PPC_UpdateCarrySub", "PPC_UpdateCarryShiftRight",
    "PPC_Addco", "PPC_Addeo", "PPC_Addmeo", "PPC_Addo", "PPC_Addzeo",
    "PPC_Subfco", "PPC_Subfeo", "PPC_Subfmeo", "PPC_Subfo", "PPC_Subfzeo",
    "PPC_Divwo", "PPC_Divwuo", "PPC_Mullwo", "PPC_Nego"]

def fpscrAndGqrHelpers : List String :=
  ["PPC_Mffs", "PPC_Mtfsb0", "PPC_Mtfsb1", "PPC_Mtfsf", "PPC_Mtfsfi", "PPC_PsqL", "PPC_PsqSt"]

def constantEffectHelpers : List (String × GuestHelperEffect) :=
  pureHelpers.map (·, noEffect) ++
  xerReadWriteHelpers.map (·, ⟨xerOnly, xerOnly, noFlags⟩) ++
  fpscrAndGqrHelpers.map (·, noEffect) ++
  [("PPC_GetCarry", ⟨xerOnly, empty, noFlags⟩),
    ("OSSystemCall", completeEffect ⟨false, true, true, true⟩),
    ("PPC_Lswx", ⟨xerOnly, allGpr, noFlags⟩),
    ("PPC_Stswx", ⟨{ allGpr with xer := true }, empty, noFlags⟩),
    ("PPC_Stwcx", ⟨{ allCr with xer := true }, { empty with cr := 1 }, noFlags⟩)]

/-! ## effects that depend on a constant argument -/

def constantArgument (arguments : List IrValue) (i : Nat) : Option Int :=
  match arguments[i]? with
  | some (.imm value) => some value
  | _ => none

def fieldMask (arguments : List IrValue) (i : Nat) : RegisterSet :=
  match constantArgument arguments i with
  | some field => { empty with cr := singleBit 8 (field % 8).toNat }
  | none => allCr

def bitFieldMask (arguments : List IrValue) (i : Nat) : RegisterSet :=
  match constantArgument arguments i with
  | some bit => { empty with cr := singleBit 8 ((bit % 32).toNat / 4) }
  | none => allCr

/-- the registers of a string access, from the first register on and around -/
def stringRegisterMask (arguments : List IrValue) (countArgument : Nat) : RegisterSet :=
  match constantArgument arguments 0, constantArgument arguments countArgument with
  | some startValue, some countValue =>
    let start := (startValue % 32).toNat
    let count := BitVec.ofInt 32 (if countValue = 0 then 32 else countValue)
    let registers := min 32 ((count + 3).toInt.tdiv 4).toNat
    let mask := (List.range registers).foldl (fun mask i => mask ||| singleBit 32 ((start + i) % 32))
      (0 : BitVec 32)
    { empty with gpr := mask }
  | _, _ => allGpr

def sprEffect (arguments : List IrValue) (write : Bool) : GuestHelperEffect :=
  let access (state : RegisterSet) : GuestHelperEffect :=
    if write then ⟨empty, state, noFlags⟩ else ⟨state, empty, noFlags⟩
  match constantArgument arguments 0 with
  | none => completeEffect noFlags
  | some 1 => access xerOnly
  | some 8 => access { empty with lr := true }
  | some 9 => access { empty with ctr := true }
  | some _ => noEffect

def argumentDependentHelpers : List (String × (List IrValue → GuestHelperEffect)) :=
  let intoField (arguments : List IrValue) : GuestHelperEffect :=
    ⟨allCr, fieldMask arguments 0, noFlags⟩
  [("PPC_Lswi", fun arguments => ⟨empty, stringRegisterMask arguments 2, noFlags⟩),
    ("PPC_Stswi", fun arguments => ⟨stringRegisterMask arguments 2, empty, noFlags⟩),
    ("PPC_Mcrxr", fun arguments => ⟨{ allCr with xer := true },
      { fieldMask arguments 0 with xer := true }, noFlags⟩),
    ("PPC_Mcrf", intoField),
    ("PPC_Mcrfs", intoField),
    ("PPC_CrSetBit", fun arguments => ⟨allCr, bitFieldMask arguments 0, noFlags⟩),
    -- one field changes, and the other seven are kept by a read of the packed register
    ("PPC_CrLogical", fun arguments => ⟨allCr, bitFieldMask arguments 1, noFlags⟩),
    ("PPC_Fcmp", intoField),
    ("PPC_PsCmpo0", intoField),
    ("PPC_PsCmpo1", intoField),
    ("PPC_PsCmpu0", intoField),
    ("PPC_PsCmpu1", intoField),
    ("PPC_ReadSpr", fun arguments => sprEffect arguments false),
    ("PPC_WriteSpr", fun arguments => sprEffect arguments true)]

def isKnownGqrForm (target : String) : Bool :=
  ["ppc_psqlknown_", "ppc_psqlknownguarded_", "ppc_psqstknown_", "ppc_psqstknownguarded_"].any
    fun form => (dropPrefixFolded form target.toList).isSome

/-- an entry of a table that compares names without regard to case -/
def lookupFolded {β : Type} (table : List (String × β)) (name : String) : Option β :=
  (table.find? fun entry => foldCase entry.1 == foldCase name).map Prod.snd

/-- `GuestHelperEffectCatalog.Analyze` -/
def helperEffect (target : String) (arguments : List IrValue) : GuestHelperEffect :=
  if isKnownGqrForm target then noEffect
  else
    match lookupFolded constantEffectHelpers target with
    | some effect => effect
    | none =>
      match lookupFolded argumentDependentHelpers target with
      | some effect => effect arguments
      | none => completeEffect noFlags

end DolTranslator.Abi
