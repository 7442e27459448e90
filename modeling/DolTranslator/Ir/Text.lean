import DolTranslator.Ir.Nodes

/-!
# Addresses and numbers in text

The passes write guest addresses into call targets and labels, and read them back:

* `hex8`   the `X8` format;
* `parseAddress`   `0x8000ABCD` or `func_8000ABCD`;
* `parseAddressOrDecimal`   the same, and a bare decimal.
-/

namespace DolTranslator

def hexDigit (n : Nat) : Char :=
  if n < 10 then Char.ofNat ('0'.toNat + n) else Char.ofNat ('A'.toNat + (n - 10))

/-- the lowest `count` hexadecimal digits of a number, highest first -/
def hexDigits : Nat → Nat → List Char
  | 0, _ => []
  | count + 1, n => hexDigits count (n / 16) ++ [hexDigit (n % 16)]

def hex8 (n : Nat) : String := String.ofList (hexDigits 8 n)

def hexValue (c : Char) : Option Nat :=
  if '0' ≤ c ∧ c ≤ '9' then some (c.toNat - '0'.toNat)
  else if 'a' ≤ c ∧ c ≤ 'f' then some (c.toNat - 'a'.toNat + 10)
  else if 'A' ≤ c ∧ c ≤ 'F' then some (c.toNat - 'A'.toNat + 10)
  else none

def trimChars (text : List Char) : List Char :=
  ((text.dropWhile Char.isWhitespace).reverse.dropWhile Char.isWhitespace).reverse

/-- the text after a prefix, which is compared without regard to case -/
def dropPrefixFolded (prefixText : String) (text : List Char) : Option (List Char) :=
  if prefixText.toList.isPrefixOf (text.map Char.toLower) then
    some (text.drop prefixText.toList.length)
  else none

def parseHexDigits (text : List Char) : Option Nat :=
  match (trimChars text).mapM hexValue with
  | some (d :: ds) =>
    let value := (d :: ds).foldl (fun n d => 16 * n + d) 0
    if value < 2 ^ 32 then some value else none
  | _ => none

def parseAddress (target : String) : Option Nat :=
  let trimmed := trimChars target.toList
  match dropPrefixFolded "0x" trimmed with
  | some hex => parseHexDigits hex
  | none =>
    match dropPrefixFolded "func_" trimmed with
    | some hex => parseHexDigits hex
    | none => none

/-- an unsigned 32-bit number in decimal, with an optional sign -/
def parseDecimal (target : String) : Option Nat :=
  match trimChars target.toList with
  | '-' :: digits => (decimalValue digits).filter (· = 0)
  | '+' :: digits => (decimalValue digits).filter (· < 2 ^ 32)
  | digits => (decimalValue digits).filter (· < 2 ^ 32)

def parseAddressOrDecimal (target : String) : Option Nat :=
  (parseAddress target).orElse fun _ => parseDecimal target

example : hex8 0x80004ABC = "80004ABC" := by decide +kernel

example : parseAddressOrDecimal "func_80004abc" = some 0x80004ABC := by decide +kernel

end DolTranslator
