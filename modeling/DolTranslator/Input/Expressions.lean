import Mathlib.Data.List.DropRight

/-!
# Input expressions

`input_expr`: the tokenizer, the parser by climbing precedences, and `Expression::Parse`.  A byte of
a text is a character; `strtod` is a parameter.  The nodes keep no state of the evaluation.

* `lexNext`   the next token of a text;
* `parseBinary`, `parseUnary`, `parsePrimary`   the parser, with a bound on its calls;
* `parse`   `Expression::Parse`.
-/

namespace DolTranslator.InputExpr

inductive Kind where
  | literal | input | not | add | sub | mul | div | and | or | xor
  | greater | less | equal
  | fnIf | fnMin | fnMax | fnClamp | fnAbs | fnSqrt | fnPow | fnSin | fnCos | fnTan
  | fnDeadzone | fnTimer | fnToggle | fnHold | fnTap | fnPulse | fnSmooth | fnNot
deriving DecidableEq, Repr

structure FnInfo where
  kind : Kind
  minArgs : Nat
  maxArgs : Nat
deriving DecidableEq, Repr

def functionTable : List (String × FnInfo) :=
  [("not", ⟨.fnNot, 1, 1⟩), ("if", ⟨.fnIf, 3, 3⟩),
    ("min", ⟨.fnMin, 2, 2⟩), ("max", ⟨.fnMax, 2, 2⟩),
    ("clamp", ⟨.fnClamp, 3, 3⟩), ("abs", ⟨.fnAbs, 1, 1⟩),
    ("sqrt", ⟨.fnSqrt, 1, 1⟩), ("pow", ⟨.fnPow, 2, 2⟩),
    ("sin", ⟨.fnSin, 1, 1⟩), ("cos", ⟨.fnCos, 1, 1⟩),
    ("tan", ⟨.fnTan, 1, 1⟩), ("deadzone", ⟨.fnDeadzone, 2, 2⟩),
    ("timer", ⟨.fnTimer, 1, 1⟩), ("toggle", ⟨.fnToggle, 1, 2⟩),
    ("hold", ⟨.fnHold, 2, 2⟩), ("tap", ⟨.fnTap, 2, 3⟩),
    ("pulse", ⟨.fnPulse, 2, 2⟩), ("smooth", ⟨.fnSmooth, 2, 3⟩)]

def findFunction (name : List Char) : Option FnInfo :=
  (functionTable.find? fun entry => entry.1.toList == name).map Prod.snd

inductive Node (V : Type) where
  | mk (kind : Kind) (literal : V) (input : List Char) (args : List (Node V))

/-! ## the tokenizer -/

inductive Token where
  | stop
  | input (text : List Char)
  | number (text : List Char)
  | ident (text : List Char)
  | op (c : Char)
  | lparen
  | rparen
  | comma
deriving DecidableEq, Repr

/-- `isspace` -/
def isSpace (c : Char) : Bool := c = ' ' ∨ (9 ≤ c.toNat ∧ c.toNat ≤ 13)

def quote : Char := Char.ofNat 96

def isNumberChar (c : Char) : Bool := c.isDigit || c = '.'

def isIdentChar (c : Char) : Bool := c.isAlphanum || c = '_' || c = ' '

def operators : List Char := ['!', '&', '|', '^', '+', '-', '*', '/', '>', '<', '=']

/-- `Lexer::Next`: the next token and what follows it -/
def lexNext (text : List Char) : Except String (Token × List Char) :=
  match text.dropWhile isSpace with
  | [] => .ok (.stop, [])
  | c :: rest =>
    if c = quote then
      match rest.dropWhile (· != quote) with
      | [] => .error "unterminated ` in expression"
      | _ :: after => .ok (.input (rest.takeWhile (· != quote)), after)
    else if isNumberChar c then
      .ok (.number ((c :: rest).takeWhile isNumberChar), (c :: rest).dropWhile isNumberChar)
    else if c.isAlpha || c = '_' then
      -- trailing spaces belong to the separator
      let name := ((c :: rest).takeWhile isIdentChar).rdropWhile (· == ' ')
      .ok (.ident name, (c :: rest).drop name.length)
    else if c = '(' then .ok (.lparen, rest)
    else if c = ')' then .ok (.rparen, rest)
    else if c = ',' then .ok (.comma, rest)
    else if c ∈ operators then .ok (.op c, rest)
    else .error ("unexpected character '" ++ String.ofList [c] ++ "' in expression")

/-! ## the parser -/

structure Parser where
  rest : List Char
  tok : Token
  lexError : String
  failed : Bool
deriving DecidableEq, Repr

def Parser.advance (p : Parser) : Parser :=
  match lexNext p.rest with
  | .ok (tok, rest) => { p with tok := tok, rest := rest }
  | .error e => { p with tok := .stop, lexError := e, failed := true }

def Parser.start (text : List Char) : Parser := Parser.advance ⟨text, .stop, "", false⟩

def precedence (op : Char) : Option Nat :=
  match op with
  | '|' => some 1
  | '^' => some 2
  | '&' => some 3
  | '>' | '<' | '=' => some 4
  | '+' | '-' => some 5
  | '*' | '/' => some 6
  | _ => none

def binaryKind (op : Char) : Kind :=
  match op with
  | '|' => .or
  | '^' => .xor
  | '&' => .and
  | '>' => .greater
  | '<' => .less
  | '=' => .equal
  | '+' => .add
  | '-' => .sub
  | '*' => .mul
  | _ => .div

/-- what a parser function returns: nothing when its bound is too small, else an error or a result
and the parser after it -/
abbrev Outcome (α : Type) := Option (Except String (α × Parser))

def ok {α : Type} (a : α) (p : Parser) : Outcome α := some (.ok (a, p))

def fail {α : Type} (e : String) : Outcome α := some (.error e)

def andThen {α β : Type} (x : Outcome α) (f : α → Parser → Outcome β) : Outcome β :=
  match x with
  | none => none
  | some (.error e) => fail e
  | some (.ok (a, p)) => f a p

section
variable {V : Type} [Zero V] (strtod : List Char → V)

def operation (kind : Kind) (args : List (Node V)) : Node V := .mk kind 0 [] args

def inputNode (name : List Char) : Node V := .mk .input 0 name []

def literalNode (value : V) : Node V := .mk .literal value [] []

/-- a prefix operator: `+` is dropped, and `-x` is `0 - x` -/
def unaryNode (op : Char) (inner : Node V) : Node V :=
  if op = '+' then inner
  else if op = '!' then operation .not [inner]
  else operation .sub [literalNode 0, inner]

def isUnary (op : Char) : Bool := op = '!' ∨ op = '-' ∨ op = '+'

def countError (name : List Char) (info : FnInfo) : String :=
  String.ofList name ++ " takes " ++ toString info.minArgs ++ " to " ++ toString info.maxArgs ++
    " arguments"

mutual

def parseBinary : Nat → Nat → Parser → Outcome (Node V)
  | 0, _, _ => none
  | k + 1, minPrec, p =>
    andThen (parseUnary k p) fun lhs p => parseOperators k minPrec lhs p

/-- the loop of `parseBinary` -/
def parseOperators : Nat → Nat → Node V → Parser → Outcome (Node V)
  | 0, _, _, _ => none
  | k + 1, minPrec, lhs, p =>
    match p.tok with
    | .op op =>
      match precedence op with
      | none => ok lhs p
      | some prec =>
        if prec < minPrec then ok lhs p
        else andThen (parseBinary k (prec + 1) p.advance) fun rhs p =>
          parseOperators k minPrec (operation (binaryKind op) [lhs, rhs]) p
    | _ => ok lhs p

def parseUnary : Nat → Parser → Outcome (Node V)
  | 0, _ => none
  | k + 1, p =>
    if p.failed then fail p.lexError
    else
      match p.tok with
      | .op op =>
        if isUnary op then
          andThen (parseUnary k p.advance) fun inner p => ok (unaryNode op inner) p
        else parsePrimary k p
      | _ => parsePrimary k p

def parsePrimary : Nat → Parser → Outcome (Node V)
  | 0, _ => none
  | k + 1, p =>
    if p.failed then fail p.lexError
    else
      match p.tok with
      | .input name => ok (inputNode name) p.advance
      | .number text => ok (literalNode (strtod text)) p.advance
      | .lparen =>
        andThen (parseBinary k 0 p.advance) fun inner p =>
          if p.tok ≠ .rparen then fail "expected closing paren" else ok inner p.advance
      | .ident name =>
        -- a bare identifier is an input
        if p.advance.tok ≠ .lparen then ok (inputNode name) p.advance
        else
          match findFunction name with
          | none => fail ("unknown function '" ++ String.ofList name ++ "'")
          | some info =>
            andThen (parseArguments k p.advance.advance) fun args p =>
              if p.tok ≠ .rparen then
                fail ("expected closing paren after " ++ String.ofList name ++ " arguments")
              else if args.length < info.minArgs ∨ info.maxArgs < args.length then
                fail (countError name info)
              else ok (operation info.kind args) p.advance
      | _ => fail "expected start of expression"

/-- the arguments of a call; none before a closing parenthesis -/
def parseArguments : Nat → Parser → Outcome (List (Node V))
  | 0, _ => none
  | k + 1, p => if p.tok = .rparen then ok [] p else parseArgumentList k p

def parseArgumentList : Nat → Parser → Outcome (List (Node V))
  | 0, _ => none
  | k + 1, p =>
    andThen (parseBinary k 0 p) fun arg p =>
      if p.tok ≠ .comma then ok [arg] p
      else andThen (parseArgumentList k p.advance) fun args p => ok (arg :: args) p

end

def parseExpression (k : Nat) (text : List Char) : Outcome (Node V) :=
  andThen (parseBinary strtod k 0 (Parser.start text)) fun node p =>
    if p.failed then fail p.lexError
    else if p.tok ≠ .stop then fail "unexpected trailing input in expression"
    else ok node p

/-- the characters that `Trim` removes -/
def isTrimmed (c : Char) : Bool := c = ' ' ∨ c = '\t' ∨ c = '\r' ∨ c = '\n'

def trim (text : List Char) : List Char := (text.dropWhile isTrimmed).rdropWhile isTrimmed

/-- what `Expression::Parse` returns and leaves in its two references -/
structure ParseResult (V : Type) where
  accepted : Bool
  root : Option (Node V)
  error : Option String

def callBound (text : List Char) : Nat := 6 * text.length + 12

def parse (text : List Char) : ParseResult V :=
  if (trim text).isEmpty then ⟨true, none, none⟩
  else
    match parseExpression strtod (callBound text) text with
    | some (.ok (root, _)) => ⟨true, some root, none⟩
    | some (.error e) => ⟨false, none, some e⟩
    | none => ⟨false, none, none⟩

end

end DolTranslator.InputExpr
