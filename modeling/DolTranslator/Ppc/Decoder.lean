import DolTranslator.Runtime.Integer

/-!
# The decoder

`PpcDecoder.Decode` on the words of the integer, condition-register and branch instructions.  The
other primary opcodes and extended opcodes (loads, stores, floating point, system) decode to `none`
here.

* `PpcOperand`, `PpcInstruction`   what the decoder hands to the lifter;
* `decode`   the words of the integer and branch families.
-/

namespace DolTranslator.Ppc

inductive PpcOperand where
  | register (name : String) (number : Nat)
  | immediate (value : Int)
  | displacement (offset : Int) (baseRegister : String) (baseRegisterNumber : Nat)
  | branchTarget (targetAddress : Word)
  | conditionRegister (name : String) (bitIndex : Nat)
deriving DecidableEq, Repr

structure PpcInstruction where
  address : Word
  word : Word
  mnemonic : String
  operands : List PpcOperand
  branchTargets : List Word
  isReturn : Bool
  isCall : Bool
  isConditionalBranch : Bool
deriving DecidableEq, Repr

/-- `checked(Address + 4u)` -/
def PpcInstruction.endAddress (ins : PpcInstruction) : Option Word :=
  if ins.address.toNat + 4 < 2 ^ 32 then some (ins.address + 4) else none

/-! ## fields -/

def getField (word : Word) (startBit width : Nat) : Nat := (word.toNat >>> startBit) % 2 ^ width

def signExtend (value : Word) (bits : Nat) : Word :=
  (value <<< (32 - bits)).sshiftRight (32 - bits)

/-- `(short)(word & 0xFFFF)` -/
def shortImmediate (word : Word) : Int := (word.setWidth 16).toInt

/-- `(int)(word & 0xFFFF)` -/
def ushortImmediate (word : Word) : Int := (word.setWidth 16).toNat

def gprName (number : Nat) : String := "r" ++ toString number

def reg (number : Nat) : PpcOperand := .register (gprName number) number

def crField (field : Nat) : PpcOperand := .conditionRegister ("cr" ++ toString field) (field * 4)

def crBit (bit : Nat) : PpcOperand := .conditionRegister ("crb" ++ toString bit) bit

/-! ## branches -/

def trueCrBranchMnemonics : List String := ["blt", "bgt", "beq", "bso"]

def falseCrBranchMnemonics : List String := ["bge", "ble", "bne", "bns"]

def tryDecodeCrBranchMnemonic (bo bi : Nat) : Option String :=
  let baseBo := bo &&& 0x1E
  if baseBo = 12 then trueCrBranchMnemonics[bi % 4]?
  else if baseBo = 4 then falseCrBranchMnemonics[bi % 4]?
  else none

/-- the field of a condition that is not in cr0 -/
def crFieldOperand (bi : Nat) : List PpcOperand := if bi / 4 ≠ 0 then [crField (bi / 4)] else []

/-- primary opcode 16 -/
def decodeBc (address word : Word) : PpcInstruction :=
  let bo := getField word 21 5
  let bi := getField word 16 5
  let bd := signExtend ((word >>> 2) &&& 0x3FFF) 14 <<< 2
  let aa := getField word 1 1 ≠ 0
  let lk := getField word 0 1 ≠ 0
  let target := if aa then bd else address + bd
  let named (mnemonic : String) (operands : List PpcOperand) : PpcInstruction :=
    ⟨address, word, mnemonic, operands ++ crFieldOperand bi ++ [.branchTarget target], [target],
      false, lk, true⟩
  match tryDecodeCrBranchMnemonic bo bi with
  | some mnemonic => named (if lk then mnemonic ++ "l" else mnemonic) []
  | none =>
    if bo &&& 0x1E = 16 then named (if lk then "bdnzl" else "bdnz") []
    else if bo &&& 0x1E = 18 then named (if lk then "bdzl" else "bdz") []
    else named (if lk then "bcl" else "bc") [.immediate bo, .immediate bi]

/-- primary opcode 18 -/
def decodeB (address word : Word) : PpcInstruction :=
  let li := signExtend ((word >>> 2) &&& 0xFFFFFF) 24 <<< 2
  let aa := getField word 1 1 ≠ 0
  let lk := getField word 0 1 ≠ 0
  let target := if aa then li else address + li
  ⟨address, word, if lk then "bl" else "b", [.branchTarget target], [target], false, lk, false⟩

/-- the extended mnemonics of a conditional `bclr` -/
def bclrMnemonic (bo crBit : Nat) (lk : Bool) : String :=
  match lk, bo, crBit with
  | true, 12, 0 => "bltlrl"
  | true, 12, 1 => "bgtlrl"
  | true, 12, 2 => "beqlrl"
  | true, 12, 3 => "bsolrl"
  | true, 4, 0 => "bgelrl"
  | true, 4, 1 => "blelrl"
  | true, 4, 2 => "bnelrl"
  | true, 4, 3 => "bnslrl"
  | true, _, _ => "bclrl"
  | false, 12, 0 => "bltlr"
  | false, 12, 1 => "bgtlr"
  | false, 12, 2 => "beqlr"
  | false, 12, 3 => "bsolr"
  | false, 4, 0 => "bgelr"
  | false, 4, 1 => "blelr"
  | false, 4, 2 => "bnelr"
  | false, 4, 3 => "bnslr"
  | false, _, _ => "bclr"

def decodeBclr (address word : Word) : PpcInstruction :=
  let bo := getField word 21 5
  let bi := getField word 16 5
  let lk := getField word 0 1 ≠ 0
  if bo = 20 then
    ⟨address, word, if lk then "blrl" else "blr", [], [], !lk, lk, false⟩
  else
    let mnemonic := bclrMnemonic bo (bi % 4) lk
    ⟨address, word, mnemonic, crFieldOperand bi, [], !lk && mnemonic.endsWith "lr", lk, true⟩

def decodeBcctr (address word : Word) : PpcInstruction :=
  let bo := getField word 21 5
  let bi := getField word 16 5
  let lk := getField word 0 1 ≠ 0
  if bo = 20 then
    ⟨address, word, if lk then "bctrl" else "bctr", [], [], !lk, lk, false⟩
  else
    ⟨address, word, if lk then "bcctrl" else "bcctr", crFieldOperand bi, [], false, lk, true⟩

/-! ## integer and condition-register instructions -/

/-- an instruction that does not branch -/
def plainInstruction (address word : Word) (mnemonic : String) (operands : List PpcOperand)
    (isCond : Bool) : Option PpcInstruction :=
  some ⟨address, word, mnemonic, operands, [], false, false, isCond⟩

def withRc (mnemonic : String) (rc : Bool) : String := if rc then mnemonic ++ "." else mnemonic

def crLogicalMnemonic : Nat → Option String
  | 33 => some "crnor"
  | 129 => some "crandc"
  | 193 => some "crxor"
  | 225 => some "crnand"
  | 257 => some "crand"
  | 289 => some "creqv"
  | 417 => some "crorc"
  | 449 => some "cror"
  | _ => none

/-- primary opcode 19 -/
def decodePrimary19 (address word : Word) : Option PpcInstruction :=
  let field0 := getField word 21 5
  let field1 := getField word 16 5
  let field2 := getField word 11 5
  let xo := getField word 1 10
  if xo = 16 then some (decodeBclr address word)
  else if xo = 528 then some (decodeBcctr address word)
  else if xo = 0 then
    plainInstruction address word "mcrf" [crField (field0 / 4), crField (field1 / 4)] false
  else
    match crLogicalMnemonic xo with
    | some mnemonic =>
      plainInstruction address word mnemonic [crBit field0, crBit field1, crBit field2] false
    | none => none

/-- the extended opcodes of primary opcode 31 that are not modelled -/
def otherExtendedOpcodes : List Nat :=
  [23, 54, 86, 55, 87, 151, 183, 246, 215, 247, 278, 310, 306, 279, 311, 343, 375, 407, 438, 439,
    470, 598, 566, 533, 597, 535, 567, 599, 631, 663, 661, 695, 725, 727, 758, 759, 854, 371, 534,
    662, 659, 790, 918, 982, 983, 1014]

/-- primary opcode 31 -/
def decodePrimary31 (address word : Word) : Option PpcInstruction :=
  let xo10 := getField word 1 10
  let xo := getField word 1 9
  let oe := getField word 10 1 ≠ 0
  let rc := getField word 0 1 ≠ 0
  let rs := getField word 21 5
  let ra := getField word 16 5
  let rb := getField word 11 5
  let plain (mnemonic : String) (operands : List PpcOperand) :=
    plainInstruction address word mnemonic operands false
  -- XO form: the ninth bit of the extended opcode is OE
  let arith (baseName : String) (operands : List PpcOperand) :=
    plain (withRc (if oe then baseName ++ "o" else baseName) rc) operands
  let logical (baseName : String) := plain (withRc baseName rc) [reg ra, reg rs, reg rb]
  match xo with
  | 0 =>
    if xo10 = 512 then plain "mcrxr" [crField (rs / 4)]
    else
      plainInstruction address word (if getField word 21 1 ≠ 0 then "invalid_cmp" else "cmpw")
        [crField (getField word 23 3), reg ra, reg rb] true
  | 8 => arith "subfc" [reg rs, reg ra, reg rb]
  | 10 => arith "addc" [reg rs, reg ra, reg rb]
  | 28 => logical "and"
  | 26 => plain (withRc "cntlzw" rc) [reg ra, reg rs]
  | 32 =>
    let crfD := getField word 23 3
    plainInstruction address word "cmplw"
      ((if crfD ≠ 0 then [crField crfD] else []) ++ [reg ra, reg rb]) true
  | 60 => logical "andc"
  | 124 => logical "nor"
  | 476 => logical "nand"
  | 104 => arith "neg" [reg rs, reg ra]
  | 136 => arith "subfe" [reg rs, reg ra, reg rb]
  | 40 => arith "subf" [reg rs, reg ra, reg rb]
  | 232 => arith "subfme" [reg rs, reg ra]
  | 202 => arith "addze" [reg rs, reg ra]
  | 234 => arith "addme" [reg rs, reg ra]
  | 235 => arith "mullw" [reg rs, reg ra, reg rb]
  | 266 => arith "add" [reg rs, reg ra, reg rb]
  | 316 => logical "xor"
  | 284 => logical "eqv"
  | 412 => logical "orc"
  | 444 =>
    plain (if !rc && rs == rb then "mr" else withRc "or" rc) [reg ra, reg rs, reg rb]
  | 11 => plain (withRc "mulhwu" rc) [reg rs, reg ra, reg rb]
  | 75 => plain (withRc "mulhw" rc) [reg rs, reg ra, reg rb]
  | 459 => arith "divwu" [reg rs, reg ra, reg rb]
  | 491 => arith "divw" [reg rs, reg ra, reg rb]
  | 4 | 19 | 20 | 83 | 146 | 144 | 339 | 467 | 210 | 242 | 498 => none
  | _ =>
    match xo10 with
    | 24 => logical "slw"
    | 536 => logical "srw"
    | 792 => logical "sraw"
    | 824 => plain (withRc "srawi" rc) [reg ra, reg rs, .immediate (getField word 11 5)]
    | 922 => plain (withRc "extsh" rc) [reg ra, reg rs]
    | 954 => plain (withRc "extsb" rc) [reg ra, reg rs]
    | xo10 =>
      if otherExtendedOpcodes.contains xo10 then none else plain ("xo_" ++ toString xo10) []

def decode (address word : Word) : Option PpcInstruction :=
  let rD := getField word 21 5
  let rA := getField word 16 5
  let rB := getField word 11 5
  let crfD := getField word 23 3
  let mb := getField word 6 5
  let me := getField word 1 5
  let rc := getField word 0 1 ≠ 0
  let simm := PpcOperand.immediate (shortImmediate word)
  let uimm := PpcOperand.immediate (ushortImmediate word)
  let plain (mnemonic : String) (operands : List PpcOperand) :=
    plainInstruction address word mnemonic operands false
  let rotate (mnemonic : String) (shift : PpcOperand) :=
    plainInstruction address word (withRc mnemonic rc)
      [reg rA, reg rD, shift, .immediate mb, .immediate me] rc
  match getField word 26 6 with
  | 7 => plain "mulli" [reg rD, reg rA, simm]
  | 8 => plain "subfic" [reg rD, reg rA, simm]
  | 10 =>
    plainInstruction address word "cmplwi"
      ((if crfD ≠ 0 then [crField crfD] else []) ++ [reg rA, uimm]) true
  | 11 =>
    plainInstruction address word "cmpwi"
      ((if crfD ≠ 0 then [crField crfD] else []) ++ [reg rA, simm]) true
  | 12 => plain "addic" [reg rD, reg rA, simm]
  | 13 => plainInstruction address word "addic." [reg rD, reg rA, simm] true
  | 14 => if rA = 0 then plain "li" [reg rD, simm] else plain "addi" [reg rD, reg rA, simm]
  | 15 => if rA = 0 then plain "lis" [reg rD, simm] else plain "addis" [reg rD, reg rA, simm]
  | 16 => some (decodeBc address word)
  | 18 => some (decodeB address word)
  | 19 => decodePrimary19 address word
  | 20 => rotate "rlwimi" (.immediate rB)
  | 21 => rotate "rlwinm" (.immediate rB)
  | 23 => rotate "rlwnm" (reg rB)
  | 24 =>
    plain (if rA = 0 ∧ rD = 0 ∧ ushortImmediate word = 0 then "nop" else "ori")
      [reg rA, reg rD, uimm]
  | 25 => plain "oris" [reg rA, reg rD, uimm]
  | 26 => plain "xori" [reg rA, reg rD, uimm]
  | 27 => plain "xoris" [reg rA, reg rD, uimm]
  | 28 => plainInstruction address word "andi." [reg rA, reg rD, uimm] true
  | 29 => plainInstruction address word "andis." [reg rA, reg rD, uimm] true
  | 31 => decodePrimary31 address word
  | _ => none

end DolTranslator.Ppc
