import FuseMap.Design.Expr
import FuseMap.Design.Reader

/-! # Reading boolean functions

From the loosest to the tightest: `|`, then `?` (exclusive or), then `&`, then `!`. The operators
group to the left.
-/

namespace FuseMap.Design

/-- Whether a character can make a function nest deeper: an operator or an opening parenthesis. -/
def isNesting (c : Char) : Bool :=
  [Symbol.or, .xor, .and, .not, .leftParen].any (·.char == c)

/-- What can stand at the start of an operand. -/
def operandText : String := "a pin name, 0, 1, '!' or '('"

/-- The rest of a chain of operands with the operator `s` between them; the first argument bounds
the number of operators. -/
def chainRest (s : Symbol) (join : Expr → Expr → Expr)
    (operand : List Lexeme → Except Failure (Expr × List Lexeme)) :
    Nat → Expr → List Lexeme → Except Failure (Expr × List Lexeme)
  | n + 1, left, ⟨.symbol t, line⟩ :: rest =>
    if t = s then do
      let (right, rest) ← operand rest
      chainRest s join operand n (join left right) rest
    else .ok (left, ⟨.symbol t, line⟩ :: rest)
  | _, left, rest => .ok (left, rest)

/-- One or more operands with the operator `s` between them. -/
def chain (s : Symbol) (join : Expr → Expr → Expr)
    (operand : List Lexeme → Except Failure (Expr × List Lexeme)) (lexemes : List Lexeme) :
    Except Failure (Expr × List Lexeme) := do
  let (left, rest) ← operand lexemes
  chainRest s join operand rest.length left rest

/-- An operand: a negation, a function in parentheses, a declared name or a constant. -/
def operand (declared : String → Bool)
    (inner : List Lexeme → Except Failure (Expr × List Lexeme)) :
    List Lexeme → Except Failure (Expr × List Lexeme)
  | ⟨.symbol .not, _⟩ :: rest => do
    let (e, rest) ← operand declared inner rest
    return (.not e, rest)
  | ⟨.symbol .leftParen, _⟩ :: rest => do
    let (e, rest) ← inner rest
    let rest ← takeSymbol .rightParen rest
    return (e, rest)
  | ⟨.identifier name, line⟩ :: rest =>
    if declared name then .ok (.pin name, rest)
    else .error ⟨.undeclaredName name, some line⟩
  | ⟨.number "0", _⟩ :: rest => .ok (.const false, rest)
  | ⟨.number "1", _⟩ :: rest => .ok (.const true, rest)
  | rest => .error (.expected operandText rest)

/-- A function; the first argument bounds the depth of parentheses. -/
def formulaWithin (declared : String → Bool) :
    Nat → List Lexeme → Except Failure (Expr × List Lexeme)
  | 0, lexemes => .error (.expected operandText lexemes)
  | depth + 1, lexemes =>
    chain .or .or
      (chain .xor .xor (chain .and .and (operand declared (formulaWithin declared depth)))) lexemes

/-- A function at the front of the tokens. -/
def formula (declared : String → Bool) (lexemes : List Lexeme) :
    Except Failure (Expr × List Lexeme) :=
  formulaWithin declared (lexemes.length + 1) lexemes

end FuseMap.Design
