import FuseMap.Design.Lexer
import FuseMap.Design.Statement

/-! # Reading a design

Statements are read and carried out one after the other, so that each sees the names that were
declared before it.
-/

namespace FuseMap

/-- What a design text gives: its statements, the names of its pins in the order of declaration,
and its truth tables in the order of the text. -/
structure Design where
  statements : List Design.Statement
  names : Design.Names
  tables : List TruthTable
deriving DecidableEq, Repr

namespace Design

/-- The state between two statements. -/
structure State where
  statements : List Statement := []
  names : Names := []
  tables : List TruthTable := []
  /-- The configured output pins with the line that configured them. -/
  configured : List (Int × Nat) := []
deriving DecidableEq, Repr

namespace State

/-- Declares one pin. Its number is read before its name and the number are looked up. -/
def declare (names : Names) (entry : Word × Word) : Except Failure Names :=
  let pin : Int := Text.digitsValue entry.1.text.toList
  if Text.maxDigits < entry.1.text.toList.length then
    .error ⟨.numberTooLong, some entry.1.line⟩
  else if (names.pin? entry.2.text).isSome then
    .error ⟨.duplicateName entry.2.text, some entry.2.line⟩
  else if names.any (·.1 == pin) then .error ⟨.duplicateNumber pin, some entry.1.line⟩
  else .ok (names ++ [(pin, entry.2.text)])

/-- Adds the table of an output that has none yet. -/
def configure (s : State) (line : Nat) (t : TruthTable) : Except Failure State :=
  match s.configured.lookup t.outputPin with
  | some earlier => .error ⟨.alreadyConfigured t.outputPin earlier, some line⟩
  | none =>
    .ok { s with
      tables := s.tables ++ [t]
      configured := s.configured ++ [(t.outputPin, line)] }

def execute (s : State) : Statement → Except Failure State
  | .pins line numbers names => do
    if numbers.length ≠ names.length then
      throw ⟨.unequalCounts numbers.length names.length, some line⟩
    let names ← (numbers.zip names).foldlM declare s.names
    return { s with names }
  | .table t => do
    let entries ← t.entries
    s.configure t.line ⟨t.outputPin, t.registered, t.inputPins, entries⟩
  | .function f => do
    let outputPin ← s.names.pin f.output
    let inputPins ← f.formula.inputs.mapM fun name => s.names.pin ⟨name, f.output.line⟩
    checkInputCount f.output.text inputPins.length f.output.line
    s.configure f.output.line ⟨outputPin, f.registered, inputPins, f.formula.tabulate⟩

end State

/-- Reads and carries out statements up to the end of the tokens; the first argument bounds their
number. -/
def readStatements : Nat → State → List Lexeme → Except Failure State
  | 0, s, _ => .ok s
  | n + 1, s, lexemes =>
    match takeStatement? s.names lexemes with
    | none => .ok s
    | some result => do
      let (statement, rest) ← result
      let s ← s.execute statement
      readStatements n { s with statements := s.statements ++ [statement] } rest

/-- The design of a list of tokens. -/
def ofScript (script : Script) : Except SyntaxError Design :=
  match readStatements script.lexemes.length {} script.lexemes with
  | .ok s => .ok ⟨s.statements, s.names, s.tables⟩
  | .error failure => .error (failure.locate script.lastLine)

/-- Reads a design text: its tokens first, and then its statements. -/
def parse (text : String) : Except SyntaxError Design := do
  ofScript (← lex text)

end Design

end FuseMap
