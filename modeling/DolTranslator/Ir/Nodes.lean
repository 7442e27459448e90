import Mathlib

/-!
# The intermediate representation

The records of the translator IR, as the lifter writes them and every later pass reads them:

* `IrValue`, `IrAddress`   operands;
* `IrInstruction`   one constructor for each instruction record;
* `IrBasicBlock`, `IrFunction`  labelled blocks in source order.

Register names and labels stay strings, because the passes take them apart:
`stripNumericSuffix` cuts an SSA version off, `hardwareBase` finds the architectural register,
`foldCase` is the key of the case-insensitive dictionaries.  `uses` and `definitions` are the
register data flow that the passes share.
-/

namespace DolTranslator

/-! ## names -/

/-- the characters before a final `_digits` group, when something stands before it -/
def stripNumericSuffixChars (name : List Char) : List Char :=
  match name.reverse.span (· ≠ '_') with
  | (digits, '_' :: front) =>
    if front ≠ [] ∧ digits.all Char.isDigit then front.reverse else name
  | _ => name

def stripNumericSuffix (name : String) : String :=
  String.ofList (stripNumericSuffixChars name.toList)

/-- the architectural register of a value name: the text before the first `_` that is not at
the start -/
def hardwareBaseChars (name : List Char) : List Char :=
  match (stripNumericSuffixChars name).span (· ≠ '_') with
  | ([], _) => stripNumericSuffixChars name
  | (front, _) => front

def hardwareBase (name : String) : String :=
  String.ofList (hardwareBaseChars name.toList)

/-- key of a dictionary or set that compares names without regard to case -/
def foldCase (name : String) : String :=
  String.ofList (name.toList.map Char.toLower)

def isNullOrWhiteSpace (name : String) : Bool := name.toList.all Char.isWhitespace

/-! ## instructions -/

/-- an operand: the value of a register, or a constant -/
inductive IrValue where
  | register (name : String)
  | imm (value : Int)
deriving DecidableEq, Repr

structure IrAddress where
  base : String
  offset : Int
deriving DecidableEq, Repr

structure IrJumpTableCase where
  targetAddress : Nat
  targetLabel : String
deriving DecidableEq, Repr

inductive IrInstruction where
  | assign (destination : String) (value : IrValue)
  | binary (destination : String) (left right : IrValue) (op : String)
  | load (destination : String) (address : IrAddress) (sizeBytes : Nat)
  | store (address : IrAddress) (source : IrValue) (sizeBytes : Nat)
  | resolveGuestMemoryRange (destination : String) (base : IrValue) (minOffset length : Int)
      (needsReadAccess needsWriteAccess : Bool)
  | resolvedLoad (destination range : String) (originalAddress : IrAddress)
      (rangeOffset : Int) (sizeBytes : Nat)
  | resolvedStore (range : String) (originalAddress : IrAddress) (rangeOffset : Int)
      (source : IrValue) (sizeBytes : Nat)
  | resolvedPsqLoad (destination range : String) (originalAddress : IrValue) (rangeOffset : Int)
      (w i : Nat) (knownGqr : Option Nat) (guardKnownGqr : Bool)
  | resolvedPsqStore (range : String) (originalAddress : IrValue) (rangeOffset : Int)
      (source : IrValue) (w i : Nat) (knownGqr : Option Nat) (guardKnownGqr : Bool)
  | resolvedLoadPair (firstDestination secondDestination range : String)
      (firstOriginalAddress secondOriginalAddress : IrAddress) (rangeOffset : Int)
      (elementSizeBytes : Nat) (descending : Bool)
  | resolvedStorePair (range : String) (firstOriginalAddress secondOriginalAddress : IrAddress)
      (rangeOffset : Int) (firstSource secondSource : IrValue) (elementSizeBytes : Nat)
      (descending : Bool)
  | call (destination target : String) (arguments : List IrValue) (isTailCall : Bool)
  | indirectCall (destination : String) (target : IrValue) (arguments : List IrValue)
  | setCrField (fieldIndex : Nat) (left right : IrValue) (isUnsigned : Bool)
  | phi (destination : String) (sources : List (String × String))
  | branch (condition trueLabel falseLabel conditionRegister : String)
  | jump (targetLabel : String)
  | indirectJump (target : IrValue)
  | jumpTable (selector : String) (cases : List IrJumpTableCase)
  | ret (value : Option IrValue)
  | comment (text : String)
  | tracePpc (address : Nat) (disassembly rawHex : String)
  | undefined (address rawInstruction : Nat) (disassembly : String) (reason : Option String)
deriving DecidableEq, Repr

structure IrBasicBlock where
  label : String
  instructions : List IrInstruction
deriving DecidableEq, Repr

structure IrFunction where
  name : String
  entryLabel : String
  blocks : List IrBasicBlock
deriving DecidableEq, Repr

namespace IrInstruction

/-- the instructions after which control does not fall into the next block -/
def isTerminator : IrInstruction → Bool
  | branch .. | jump .. | ret .. | indirectJump .. | jumpTable .. | undefined .. => true
  | _ => false

def isPhi : IrInstruction → Bool
  | phi .. => true
  | _ => false

end IrInstruction

/-! ## register data flow -/

def IrValue.registers : IrValue → List String
  | .register name => if name = "" then [] else [name]
  | .imm _ => []

def decimalValue (digits : List Char) : Option Nat :=
  if digits ≠ [] ∧ digits.all Char.isDigit then
    some (digits.foldl (fun n c => 10 * n + (c.toNat - '0'.toNat)) 0)
  else none

/-- a register spelled `prefixText` and a number below `bound`, of a given length -/
def isNumberedRegister (prefixText : String) (minLength maxLength bound : Nat)
    (base : String) : Bool :=
  let chars := base.toList
  decide (minLength ≤ chars.length) && decide (chars.length ≤ maxLength) &&
    prefixText.toList.isPrefixOf chars &&
    match decimalValue (chars.drop prefixText.toList.length) with
    | some n => decide (n < bound)
    | none => false

def isRegisterName (name : String) : Bool :=
  !isNullOrWhiteSpace name &&
    let base := stripNumericSuffix name
    isNumberedRegister "r" 2 3 32 base || isNumberedRegister "f" 2 3 32 base ||
    isNumberedRegister "cr" 3 3 8 (foldCase base) ||
    isNumberedRegister "crb" 4 5 32 (foldCase base) ||
    isNumberedRegister "gqr" 4 4 8 (foldCase base) ||
    ["cr", "lr", "ctr", "xer", "fpscr", "msr", "dar", "dsisr", "iccr", "tbr", "tbl", "tbu",
      "hid0", "hid1", "hid2", "srr0", "srr1"].contains (foldCase base)

namespace IrInstruction

/-- the registers an instruction reads -/
def uses : IrInstruction → List String
  | assign _ value => value.registers
  | binary _ left right _ => left.registers ++ right.registers
  | load _ address _ => [address.base]
  | store address source _ => address.base :: source.registers
  | resolveGuestMemoryRange _ base _ _ _ _ => base.registers
  | resolvedLoad _ _ originalAddress _ _ => [originalAddress.base]
  | resolvedStore _ originalAddress _ source _ => originalAddress.base :: source.registers
  | resolvedPsqLoad _ _ originalAddress _ _ i knownGqr guardKnownGqr =>
    originalAddress.registers ++
      if knownGqr.isNone || guardKnownGqr then ["gqr" ++ toString i] else []
  | resolvedPsqStore _ originalAddress _ source _ i knownGqr guardKnownGqr =>
    originalAddress.registers ++ source.registers ++
      if knownGqr.isNone || guardKnownGqr then ["gqr" ++ toString i] else []
  | resolvedLoadPair _ _ _ first second _ _ _ => [first.base, second.base]
  | resolvedStorePair _ first second _ firstSource secondSource _ _ =>
    first.base :: second.base :: (firstSource.registers ++ secondSource.registers)
  | call _ _ arguments _ => arguments.flatMap IrValue.registers
  | indirectCall _ target arguments => target.registers ++ arguments.flatMap IrValue.registers
  | indirectJump target => target.registers
  | ret (some value) => value.registers
  | branch _ _ _ conditionRegister =>
    if isRegisterName conditionRegister then [conditionRegister] else []
  | phi _ sources => sources.map Prod.snd
  | setCrField _ left right _ => left.registers ++ right.registers ++ ["xer"]
  | jumpTable selector _ => [selector]
  | ret none | jump _ | comment _ | tracePpc .. | undefined .. => []

/-- the registers an instruction names as its destinations -/
def definitions : IrInstruction → List String
  | assign destination _ | binary destination _ _ _ | load destination _ _
  | resolveGuestMemoryRange destination .. | resolvedLoad destination ..
  | resolvedPsqLoad destination .. | phi destination _ => [destination]
  | resolvedLoadPair first second .. => [first, second]
  | call destination _ _ _ | indirectCall destination _ _ =>
    if isNullOrWhiteSpace destination then [] else [destination]
  | setCrField fieldIndex _ _ _ => ["cr" ++ toString fieldIndex]
  | _ => []

end IrInstruction

end DolTranslator
