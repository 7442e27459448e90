import Mathlib

/-!
# Integer helpers of the runtime

The pure 32-bit helpers that emitted code calls, and `runtimeBinary`, the value of the expression
that is emitted for an operator of `IrBinary` on two unsigned words.
-/

namespace DolTranslator

/-- a 32-bit word of the guest -/
abbrev Word := BitVec 32

def ppcRotl (value shift : Word) : Word := value.rotateLeft (shift.toNat % 32)

def ppcSlw (value amount : Word) : Word :=
  if amount &&& 0x20 ≠ 0 then 0 else value <<< (amount &&& 0x1F).toNat

def ppcSrw (value amount : Word) : Word :=
  if amount &&& 0x20 ≠ 0 then 0 else value >>> (amount &&& 0x1F).toNat

def ppcSraw (value amount : Word) : Word :=
  if amount &&& 0x20 ≠ 0 then
    if value &&& 0x80000000 ≠ 0 then 0xFFFFFFFF else 0
  else value.sshiftRight (amount &&& 0x1F).toNat

def ppcDivwu (dividend divisor : Word) : Word :=
  if divisor = 0 then 0 else dividend / divisor

def ppcDivw (dividend divisor : Word) : Word :=
  if divisor = 0 ∨ (dividend = 0x80000000 ∧ divisor = 0xFFFFFFFF) then
    if dividend.msb then 0xFFFFFFFF else 0
  else dividend.sdiv divisor

def compareUnsigned (a b : Word) : Word :=
  if a < b then 0xFFFFFFFF else if b < a then 1 else 0

/-- `static_cast<int32_t>` of the lowest bits -/
def signExtendLow (bits : Nat) (value : Word) : Word :=
  ((value.setWidth bits).signExtend 32)

/-- the value of an operator expression; `none` for an operator without an integer expression,
and for a shift count that C++ leaves undefined -/
def runtimeBinary (op : String) (left right : Word) : Option Word :=
  match op with
  | "sext" =>
    if right = 16 then some (signExtendLow 16 left)
    else if right = 8 then some (signExtendLow 8 left)
    else some left
  | "add" => some (left + right)
  | "sub" => some (left - right)
  | "and" => some (left &&& right)
  | "andc" => some (left &&& ~~~right)
  | "or" => some (left ||| right)
  | "orc" => some (left ||| ~~~right)
  | "nor" => some (~~~(left ||| right))
  | "nand" => some (~~~(left &&& right))
  | "eqv" => some (~~~(left ^^^ right))
  | "xor" => some (left ^^^ right)
  | "shl" => if right.toNat < 32 then some (left <<< right.toNat) else none
  | "rotl" => some (ppcRotl left right)
  | "shr" => if right.toNat < 32 then some (left >>> right.toNat) else none
  | "ppc_slw" => some (ppcSlw left right)
  | "ppc_srw" => some (ppcSrw left right)
  | "ppc_sraw" => some (ppcSraw left right)
  | "sar" => if right.toNat < 32 then some (left.sshiftRight right.toNat) else none
  | "mul" => some (left * right)
  | "mulhwu" => some (((left.setWidth 64 * right.setWidth 64) >>> 32).setWidth 32)
  | "mulhw" => some (((left.signExtend 64 * right.signExtend 64).sshiftRight 32).setWidth 32)
  | "divu" => some (ppcDivwu left right)
  | "div" => some (ppcDivw left right)
  | "sext16" => some (signExtendLow 16 left)
  | "not" => some (~~~left)
  | "sub_u" => some (compareUnsigned left right)
  | _ => none

end DolTranslator
