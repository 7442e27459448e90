import DolTranslator.Ppc.Words
import DolTranslator.Ir.Nodes

/-!
# The loaded program

* `ProgramImage`   the bytes of guest memory and where they begin;
* `contains`, `readWord`   what `Contains`, `GetOffset` and `ReadUInt32BigEndian` answer.
-/

namespace DolTranslator.Ppc

/-- the memory of the guest; an array is indexed by an `int` -/
structure ProgramImage where
  memory : List (BitVec 8)
  memoryBase : Word
  length_lt : memory.length < 2 ^ 31

def ProgramImage.contains (image : ProgramImage) (address : Word) (size : Nat) : Bool :=
  image.memoryBase ≤ address ∧
    address.toNat - image.memoryBase.toNat + size ≤ image.memory.length

def ProgramImage.getOffset (image : ProgramImage) (address : Word) : Nat :=
  address.toNat - image.memoryBase.toNat

def ProgramImage.byteAt (image : ProgramImage) (offset : Nat) : BitVec 8 :=
  image.memory.getD offset 0

def ProgramImage.readUInt32BigEndian (image : ProgramImage) (offset : Nat) : Word :=
  image.byteAt offset ++ image.byteAt (offset + 1) ++ image.byteAt (offset + 2) ++
    image.byteAt (offset + 3)

def ProgramImage.readWord (image : ProgramImage) (address : Word) : Option Word :=
  if image.contains address 4 then some (image.readUInt32BigEndian (image.getOffset address))
  else none

def wordBytes (word : Word) : List (BitVec 8) :=
  [word.extractLsb' 24 8, word.extractLsb' 16 8, word.extractLsb' 8 8, word.extractLsb' 0 8]

end DolTranslator.Ppc

/-!
## Jump tables

`JumpTableDetector` on the instructions that are decoded so far, in the order of their addresses.
A search goes back from an instruction through the ones before it, however control reaches them.

* `before`                 the instructions that a search looks at, nearest first;
* `writesRegister`         what a search takes for a write;
* `tryResolveLisAddi`, `tryResolvePcRelative`   the base of the table;
* `tryFindUpperBound`      the number of its entries;
* `tryRecognize`           the targets of a `bctr`.
-/

namespace DolTranslator.Ppc

def maxBacktrackInstructions : Nat := 192

def maxEntryCount : Nat := 512

/-- at most `limit` instructions before an index, nearest first, each with its index -/
def before (ordered : List PpcInstruction) (startIndex limit : Nat) :
    List (PpcInstruction × Nat) :=
  (ordered.zipIdx.take startIndex).reverse.take limit

def registersEqual (left right : String) : Bool := foldCase left = foldCase right

def mnemonicIs (ins : PpcInstruction) (mnemonic : String) : Bool :=
  foldCase ins.mnemonic = foldCase mnemonic

def hasPrefix (text mnemonic : String) : Bool := text.toList.isPrefixOf mnemonic.toList

def hasSuffix (text mnemonic : String) : Bool := text.toList.isSuffixOf mnemonic.toList

def gprNumber (register : String) : Option Nat :=
  match register.toList with
  | 'r' :: digits => decimalValue digits
  | _ => none

/-! ## writes -/

/-- r0 and r3 to r12 -/
def isVolatileGpr (register : String) : Bool :=
  match gprNumber register with
  | some number => number = 0 ∨ (3 ≤ number ∧ number ≤ 12)
  | none => false

def isUpdateForm (mnemonic : String) : Bool :=
  (hasPrefix "l" mnemonic || hasPrefix "st" mnemonic || hasPrefix "psq_" mnemonic) &&
    (hasSuffix "u" mnemonic || hasSuffix "ux" mnemonic)

def readsFirstOperand (mnemonic : String) : Bool :=
  ["st", "psq_st", "cmp", "mt", "tw", "dcb", "icb"].any (hasPrefix · mnemonic)

def updatedBase : List PpcOperand → Option String
  | _ :: .displacement _ baseRegister _ :: _ => some baseRegister
  | _ :: .register name _ :: _ => some name
  | _ => none

def updatesBase (ins : PpcInstruction) (register : String) : Bool :=
  isUpdateForm ins.mnemonic &&
    match updatedBase ins.operands with
    | some name => registersEqual name register
    | none => false

def writesRegister (ins : PpcInstruction) (register : String) : Bool :=
  if ins.isCall then isVolatileGpr register
  else if updatesBase ins register then true
  else
    match ins.operands with
    | .register name destination :: _ =>
      if ins.mnemonic = "lmw" then
        match gprNumber register with
        | some number => destination ≤ number
        | none => false
      else registersEqual name register && !readsFirstOperand ins.mnemonic
    | _ => false

def threeRegisters (ins : PpcInstruction) : Option (String × String × String) :=
  match ins.operands with
  | .register a _ :: .register b _ :: .register c _ :: _ => some (a, b, c)
  | _ => none

/-- `add rT, rT, rX` or `add rT, rX, rT` -/
def isAddKeeping (ins : PpcInstruction) (register : String) : Bool :=
  ins.mnemonic = "add" &&
    match threeRegisters ins with
    | some (dest, left, right) =>
      registersEqual dest register && (registersEqual left register || registersEqual right register)
    | none => false

/-! ## the load of the entry -/

def findPrevious (ordered : List PpcInstruction) (startIndex : Nat) (mnemonic : String)
    (limit : Nat) : Option Nat :=
  ((before ordered startIndex limit).find? fun p => mnemonicIs p.1 mnemonic).map Prod.snd

def loadsInto (ins : PpcInstruction) (register : String) : Bool :=
  (ins.mnemonic = "lwzx" || ins.mnemonic = "lwz") &&
    match ins.operands with
    | .register name _ :: _ => registersEqual name register
    | _ => false

/-- the nearest write, if it is a load; additions that keep the register are passed over -/
def findPreviousLoad (ordered : List PpcInstruction) (startIndex : Nat) (register : String) :
    Option Nat :=
  match (before ordered startIndex maxBacktrackInstructions).find? fun p =>
      writesRegister p.1 register && !isAddKeeping p.1 register with
  | some (ins, index) => if loadsInto ins register then some index else none
  | none => none

/-- the instructions strictly between the load and `mtctr` -/
def between (ordered : List PpcInstruction) (loadIndex mtctrIndex : Nat) : List PpcInstruction :=
  (ordered.take mtctrIndex).drop (loadIndex + 1)

def hasRelativeEntryAdd (ordered : List PpcInstruction) (loadIndex mtctrIndex : Nat)
    (targetRegister tableBaseRegister : String) : Bool :=
  (between ordered loadIndex mtctrIndex).any fun ins => mnemonicIs ins "add" &&
    match threeRegisters ins with
    | some (dest, left, right) => registersEqual dest targetRegister &&
      ((registersEqual left targetRegister && registersEqual right tableBaseRegister) ||
        (registersEqual right targetRegister && registersEqual left tableBaseRegister))
    | none => false

def onlyRelativeEntryAddsBetween (ordered : List PpcInstruction) (loadIndex mtctrIndex : Nat)
    (targetRegister tableBaseRegister : String) : Bool :=
  (between ordered loadIndex mtctrIndex).all fun ins => !writesRegister ins targetRegister ||
    (isAddKeeping ins targetRegister &&
      match threeRegisters ins with
      | some (_, left, right) =>
        registersEqual left tableBaseRegister || registersEqual right tableBaseRegister
      | none => false)

/-! ## the base of the table -/

/-- `lis`, and at most one `addi` after it -/
def resolveLisAddi : List (PpcInstruction × Nat) → Option Int → String → Option Word
  | [], _, _ => none
  | (ins, _) :: rest, offset, baseRegister =>
    if !writesRegister ins baseRegister then resolveLisAddi rest offset baseRegister
    else
      match offset, ins.mnemonic, ins.operands with
      | none, "addi", _ :: .register addBase _ :: .immediate addImm :: _ =>
        resolveLisAddi rest (some (BitVec.ofInt 16 addImm).toInt) addBase
      | offset, "lis", _ :: .immediate hiImm :: _ =>
        some (BitVec.ofInt 32 (hiImm * 2 ^ 16 + offset.getD 0))
      | _, _, _ => none

def tryResolveLisAddiConstant (ordered : List PpcInstruction) (startIndex : Nat)
    (register : String) : Option Word :=
  resolveLisAddi (before ordered startIndex maxBacktrackInstructions) none register

def addSigned (value : Word) (offset : Int) : Word := value + BitVec.ofInt 32 offset

/-- `lwz register, offset(base)` -/
def displacementLoad (ins : PpcInstruction) (register : String) : Option (Int × String) :=
  if mnemonicIs ins "lwz" then
    match ins.operands with
    | .register name _ :: .displacement offset baseRegister _ :: _ =>
      if registersEqual name register then some (offset, baseRegister) else none
    | _ => none
  else none

def tryFindRegisterDisplacementLoadBefore (ordered : List PpcInstruction) (startIndex : Nat)
    (destinationRegister baseRegister : String) : Option (Nat × Int) :=
  (before ordered startIndex maxBacktrackInstructions).findSome? fun p =>
    match displacementLoad p.1 destinationRegister with
    | some (offset, name) => if registersEqual name baseRegister then some (p.2, offset) else none
    | none => none

def tryFindMflrBefore (ordered : List PpcInstruction) (startIndex : Nat)
    (destinationRegister : String) : Option Nat :=
  ((before ordered startIndex maxBacktrackInstructions).find? fun p => mnemonicIs p.1 "mflr" &&
    match p.1.operands with
    | .register name _ :: _ => registersEqual name destinationRegister
    | _ => false).map Prod.snd

/-- the return address of the nearest call; a decoded call has one -/
def tryFindLinkCallBefore (ordered : List PpcInstruction) (startIndex : Nat) : Option Word :=
  ((before ordered startIndex maxBacktrackInstructions).find? fun p => p.1.isCall).bind
    fun p => p.1.endAddress

/-- `add register, register, offset` after `mflr register` and a load of the offset -/
def resolvePicBase (ordered : List PpcInstruction) (register : String) (image : ProgramImage)
    (add : PpcInstruction) (addIndex : Nat) : Option Word :=
  if mnemonicIs add "add" then
    match threeRegisters add with
    | some (dest, left, right) =>
      if !registersEqual dest register then none
      else do
        let offsetRegister ←
          if registersEqual left register then some right
          else if registersEqual right register then some left
          else none
        let (loadIndex, offset) ←
          tryFindRegisterDisplacementLoadBefore ordered addIndex offsetRegister register
        let mflrIndex ← tryFindMflrBefore ordered loadIndex register
        let linkAddress ← tryFindLinkCallBefore ordered mflrIndex
        let picOffset ← image.readWord (addSigned linkAddress offset)
        some (linkAddress + picOffset)
    | none => none
  else none

def tryResolvePicBaseRegister (ordered : List PpcInstruction) (startIndex : Nat)
    (register : String) (image : ProgramImage) : Option Word :=
  (before ordered startIndex maxBacktrackInstructions).findSome? fun p =>
    resolvePicBase ordered register image p.1 p.2

def tryResolvePcRelativeLoadedConstant (ordered : List PpcInstruction) (startIndex : Nat)
    (register : String) (image : ProgramImage) : Option Word :=
  (before ordered startIndex maxBacktrackInstructions).findSome? fun p =>
    match displacementLoad p.1 register with
    | some (offset, baseRegister) =>
      (tryResolvePicBaseRegister ordered p.2 baseRegister image).bind fun picBase =>
        image.readWord (addSigned picBase offset)
    | none => none

/-! ## the number of entries -/

/-- `cmpwi` or `cmplwi`, with or without a CR field -/
def tryCompareImmediate (ins : PpcInstruction) : Option (String × Int) :=
  if ins.mnemonic = "cmplwi" ∨ ins.mnemonic = "cmpwi" then
    match ins.operands with
    | .conditionRegister _ _ :: .register name _ :: .immediate value :: _ => some (name, value)
    | .register name _ :: .immediate value :: _ => some (name, value)
    | _ => none
  else none

def tryScaledOrMovedSource (ins : PpcInstruction) : Option String :=
  match ins.mnemonic, ins.operands with
  | "slwi", [_, .register source _, .immediate 2] => some source
  | "rlwinm", [_, .register source _, .immediate 2, .immediate 0, .immediate 29] => some source
  | "mr", _ :: .register source _ :: _ => some source
  | _, _ => none

/-- the comparison of the index, followed back through what it was scaled or moved from -/
def trackedUpperBound : List (PpcInstruction × Nat) → String → Option Int
  | [], _ => none
  | (ins, _) :: rest, tracked =>
    match tryCompareImmediate ins with
    | some (compared, bound) =>
      if registersEqual compared tracked then some bound
      else if writesRegister ins tracked then
        (tryScaledOrMovedSource ins).bind (trackedUpperBound rest)
      else trackedUpperBound rest tracked
    | none =>
      if writesRegister ins tracked then (tryScaledOrMovedSource ins).bind (trackedUpperBound rest)
      else trackedUpperBound rest tracked

def anyUpperBound (searched : List (PpcInstruction × Nat)) : Option Int :=
  searched.findSome? fun p =>
    match tryCompareImmediate p.1 with
    | some (_, bound) => if bound < 0 ∨ (maxEntryCount : Int) ≤ bound then none else some bound
    | none => none

def tryFindUpperBound (ordered : List PpcInstruction) (startIndex : Nat) (register : String) :
    Option Int :=
  let searched := before ordered startIndex maxBacktrackInstructions
  (trackedUpperBound searched register).orElse fun _ => anyUpperBound searched

/-! ## the table -/

def acceptsTarget (ordered : List PpcInstruction) (functionStart functionEnd target : Word) :
    Bool :=
  (ordered.map PpcInstruction.address).contains target ||
    (decide (functionStart ≤ target) && decide (target < functionEnd) && target &&& 3 == 0)

def readTarget (image : ProgramImage) (tableBase : Word) (entriesAreRelative : Bool)
    (accepts : Word → Bool) (i : Nat) : Option Word := do
  let entry ← image.readWord (tableBase + BitVec.ofNat 32 (i * 4))
  let target := if entriesAreRelative then tableBase + entry else entry
  if accepts target then some target else none

/-- the list without the repetitions after the first -/
def dedupFirst (targets : List Word) : List Word := targets.reverse.dedup.reverse

/-- `JumpTableDetector.TryRecognize` -/
def tryRecognize (ordered : List PpcInstruction) (bctrAddress functionStart functionEnd : Word)
    (image : ProgramImage) : Option (List Word) := do
  let bctrIndex ← ordered.findIdx? fun ins => ins.address = bctrAddress
  let mtctrIndex ← findPrevious ordered bctrIndex "mtctr" 6
  let mtctr ← ordered[mtctrIndex]?
  match mtctr.operands with
  | .register targetRegister _ :: _ =>
    let loadIndex ← findPreviousLoad ordered mtctrIndex targetRegister
    let load ← ordered[loadIndex]?
    if !mnemonicIs load "lwzx" then none
    else
      let (dest, baseReg, indexReg) ← threeRegisters load
      if !registersEqual dest targetRegister then none
      else
        let tableBase ← (tryResolveLisAddiConstant ordered loadIndex baseReg).orElse fun _ =>
          tryResolvePcRelativeLoadedConstant ordered loadIndex baseReg image
        let relative := hasRelativeEntryAdd ordered loadIndex mtctrIndex targetRegister baseReg
        if !onlyRelativeEntryAddsBetween ordered loadIndex mtctrIndex targetRegister baseReg then none
        else
          let upperBound ← tryFindUpperBound ordered loadIndex indexReg
          if upperBound < 0 ∨ (maxEntryCount : Int) ≤ upperBound then none
          else
            let targets ← (List.range (upperBound.toNat + 1)).mapM
              (readTarget image tableBase relative (acceptsTarget ordered functionStart functionEnd))
            some (dedupFirst targets)
  | _ => none

theorem dedupFirst_ne_nil {targets : List Word} (h : targets ≠ []) : dedupFirst targets ≠ [] := by
  obtain ⟨t, ht⟩ := List.exists_mem_of_ne_nil _ h
  have hmem : t ∈ dedupFirst targets := by simpa [dedupFirst] using ht
  exact List.ne_nil_of_mem hmem

theorem tryRecognize_ne_nil {ordered : List PpcInstruction} {a functionStart functionEnd : Word}
    {image : ProgramImage} {targets : List Word}
    (h : tryRecognize ordered a functionStart functionEnd image = some targets) : targets ≠ [] := by
  simp only [tryRecognize, Option.bind_eq_bind, Option.bind_eq_some_iff] at h
  obtain ⟨bctrIndex, -, mtctrIndex, -, mtctr, -, h⟩ := h
  split at h
  · simp only [Option.bind_eq_some_iff] at h
    obtain ⟨loadIndex, -, load, -, h⟩ := h
    split at h
    · cases h
    simp only [Option.bind_eq_some_iff] at h
    obtain ⟨⟨dest, baseReg, indexReg⟩, -, h⟩ := h
    dsimp only at h
    split at h
    · cases h
    simp only [Option.bind_eq_some_iff] at h
    obtain ⟨tableBase, -, h⟩ := h
    split at h
    · cases h
    simp only [Option.bind_eq_some_iff] at h
    obtain ⟨upperBound, -, h⟩ := h
    split at h
    · cases h
    simp only [Option.bind_eq_some_iff] at h
    obtain ⟨entries, hentries, h⟩ := h
    rw [List.range_succ_eq_map, List.mapM_cons] at hentries
    simp only [Option.bind_eq_bind, Option.bind_eq_some_iff, Option.pure_def] at hentries
    obtain ⟨first, -, rest, -, hentries⟩ := hentries
    rw [← Option.some.inj h, ← Option.some.inj hentries]
    exact dedupFirst_ne_nil (List.cons_ne_nil _ _)
  · cases h

end DolTranslator.Ppc
