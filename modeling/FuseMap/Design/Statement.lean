import FuseMap.Design.Formula
import FuseMap.Text.Integer

/-! # Statements

A design text is a sequence of three kinds of statements:

* `pin 13 = i0;` declares names of pins, several at once with commas;
* `table(i0, i1 -> y) ...` gives the output bits of a table, by a list of input and output bits, of
  which those left out may take a fill value, or by the output bits in counting order;
* `y = (a & !b) | c;` gives an output by a boolean function.
-/

namespace FuseMap.Design

/-- The declared pins with their names, in the order of declaration. -/
abbrev Names := List (Int × String)

def Names.pin? (names : Names) (name : String) : Option Int :=
  (names.find? (·.2 == name)).map (·.1)

/-- The pin of a word, which has to be declared. -/
def Names.pin (names : Names) (w : Word) : Except Failure Int :=
  match names.pin? w.text with
  | some pin => .ok pin
  | none => .error ⟨.undeclaredName w.text, some w.line⟩

/-- How the rows of a table are to be read. -/
inductive Rows
  /-- The output bits in counting order. -/
  | counting
  /-- Pairs of input bits and an output bit, with a value for those left out. -/
  | listed (fill : Option Bool)
deriving DecidableEq, Repr

/-- A table as it stands in the text. -/
structure TableStatement where
  line : Nat
  inputPins : List Int
  outputPin : Int
  registered : Bool
  form : Rows
  rows : List Word
deriving DecidableEq, Repr

/-- A boolean function as it stands in the text. -/
structure FunctionStatement where
  output : Word
  registered : Bool
  formula : Expr
deriving DecidableEq, Repr

inductive Statement
  | pins (line : Nat) (numbers names : List Word)
  | table (t : TableStatement)
  | function (f : FunctionStatement)
deriving DecidableEq, Repr

/-! ## Reading statements -/

/-- The declaration of pins after its keyword. -/
def pinStatement (line : Nat) (lexemes : List Lexeme) :
    Except Failure (Statement × List Lexeme) := do
  let (numbers, rest) ← takeWords Token.number? "pin number" lexemes
  let rest ← takeSymbol .equals rest
  let (names, rest) ← takeWords Token.identifier? "pin name" rest
  let rest ← takeSymbol .semicolon rest
  return (.pins line numbers names, rest)

structure Modifiers where
  count : Bool := false
  fill : Option Bool := none
  dff : Bool := false
deriving DecidableEq, Repr

/-- The value of a fill modifier in its parentheses. -/
def takeFillValue (lexemes : List Lexeme) : Except Failure (Bool × List Lexeme) := do
  let rest ← takeSymbol .leftParen lexemes
  let (value, rest) ← takeWord Token.number? "fill value" rest
  if value.text ≠ "0" ∧ value.text ≠ "1" then
    throw ⟨.badFillValue value.text, some value.line⟩
  let rest ← takeSymbol .rightParen rest
  return (value.text == "1", rest)

/-- One modifier after its dot; each may be given once. -/
def takeModifier (m : Modifiers) (lexemes : List Lexeme) :
    Except Failure (Modifiers × List Lexeme) :=
  let unexpected : Failure :=
    ⟨.unexpectedModifier (lexemes.head?.map (·.token.text)), lexemes.head?.map (·.line)⟩
  match lexemes with
  | ⟨.keyword .count, _⟩ :: rest =>
    if m.count then .error unexpected else .ok ({ m with count := true }, rest)
  | ⟨.keyword .dff, _⟩ :: rest =>
    if m.dff then .error unexpected else .ok ({ m with dff := true }, rest)
  | ⟨.keyword .fill, _⟩ :: rest =>
    if m.fill.isSome then .error unexpected
    else do
      let (value, rest) ← takeFillValue rest
      return ({ m with fill := some value }, rest)
  | _ => .error unexpected

/-- The modifiers of a table, each after a dot; the first argument bounds their number. -/
def takeModifiers : Nat → Modifiers → List Lexeme → Except Failure (Modifiers × List Lexeme)
  | n + 1, m, ⟨.symbol .dot, _⟩ :: rest => do
    let (m, rest) ← takeModifier m rest
    takeModifiers n m rest
  | _, m, rest => .ok (m, rest)

/-- Rows of digits up to the closing brace. -/
def takeRows : List Lexeme → Except Failure (List Word × List Lexeme)
  | ⟨.symbol .rightBrace, _⟩ :: rest => .ok ([], rest)
  | ⟨.number digits, line⟩ :: rest => do
    let (rows, rest) ← takeRows rest
    return (⟨digits, line⟩ :: rows, rest)
  | rest => .error (.expected "bit row or \x7d" rest)

/-- Refuses more inputs than a table may have. -/
def checkInputCount (output : String) (inputs line : Nat) : Except Failure Unit :=
  if TruthTable.maxInputs < inputs then .error ⟨.tooManyInputs output inputs, some line⟩
  else .ok ()

/-- A table after its keyword. The names are looked up before the modifiers are read. -/
def tableStatement (names : Names) (line : Nat) (lexemes : List Lexeme) :
    Except Failure (Statement × List Lexeme) := do
  let rest ← takeSymbol .leftParen lexemes
  let (inputs, rest) ← takeWords Token.identifier? "input pin name" rest
  let rest ← takeArrow rest
  let (output, rest) ← takeWord Token.identifier? "output pin name" rest
  let rest ← takeSymbol .rightParen rest
  let inputPins ← inputs.mapM names.pin
  let outputPin ← names.pin output
  if ¬ inputPins.Nodup then
    throw ⟨.repeatedInput output.text, some line⟩
  checkInputCount output.text inputPins.length line
  let (m, rest) ← takeModifiers rest.length {} rest
  if m.count ∧ m.fill.isSome then
    throw ⟨.countAndFill, some line⟩
  let rest ← takeSymbol .leftBrace rest
  let (rows, rest) ← takeRows rest
  return (.table
    { line, inputPins, outputPin, registered := m.dff, rows
      form := if m.count then .counting else .listed m.fill }, rest)

/-- The mark of a registered output after the name of a function, if there is one. -/
def takeRegistered : List Lexeme → Except Failure (Bool × List Lexeme)
  | ⟨.symbol .dot, _⟩ :: ⟨.keyword .dff, _⟩ :: rest => .ok (true, rest)
  | ⟨.symbol .dot, _⟩ :: rest => .error (.expected "'dff'" rest)
  | rest => .ok (false, rest)

/-- A boolean function after the name of its output. -/
def functionStatement (names : Names) (output : Word) (lexemes : List Lexeme) :
    Except Failure (Statement × List Lexeme) := do
  let (registered, rest) ← takeRegistered lexemes
  let rest ← takeSymbol .equals rest
  let (formula, rest) ← formula (fun name => (names.pin? name).isSome) rest
  let rest ← takeSymbol .semicolon rest
  return (.function { output, registered, formula }, rest)

/-- The statement at the front of the tokens, if there are any. -/
def takeStatement? (names : Names) :
    List Lexeme → Option (Except Failure (Statement × List Lexeme))
  | [] => none
  | ⟨.keyword .pin, line⟩ :: rest => some (pinStatement line rest)
  | ⟨.keyword .table, line⟩ :: rest => some (tableStatement names line rest)
  | ⟨.identifier name, line⟩ :: rest => some (functionStatement names ⟨name, line⟩ rest)
  | ⟨token, line⟩ :: _ => some (.error ⟨.notAStatement token.text, some line⟩)

/-! ## The entries of a table -/

def Word.bits (w : Word) : Except Failure (List Bool) :=
  if w.text.toList.all fun d => d == '0' || d == '1' then .ok (w.text.toList.map (· == '1'))
  else .error ⟨.notBits w.text, some w.line⟩

/-- The number whose binary digits are given, the most significant first. -/
def bitsValue (bits : List Bool) : Nat :=
  bits.foldl (fun value bit => 2 * value + bit.toNat) 0

/-- The entries given by output bits in counting order. -/
def countedEntries (line inputs : Nat) (rows : List Word) : Except Failure (List Bool) := do
  let bits := (← rows.mapM Word.bits).flatten
  if bits.length ≠ TruthTable.combinations inputs then
    throw ⟨.wrongBitCount bits.length inputs, some line⟩
  return bits

/-- The rows in pairs of input bits and an output bit. -/
def pairRows : List Word → List (Word × Word)
  | input :: output :: rest => (input, output) :: pairRows rest
  | _ => []

/-- The entries listed so far, by index, with one more. -/
def addListed (inputs : Nat) (known : List (Nat × Bool)) (row : Word × Word) :
    Except Failure (List (Nat × Bool)) := do
  let bits ← row.1.bits
  let value ← row.2.bits
  if bits.length ≠ inputs then
    throw ⟨.wrongRowWidth row.1.text inputs, some row.1.line⟩
  match value with
  | [bit] =>
    if (known.lookup (bitsValue bits)).isSome then
      throw ⟨.repeatedRow row.1.text, some row.1.line⟩
    return (bitsValue bits, bit) :: known
  | _ => throw ⟨.notOneBit row.2.text, some row.2.line⟩

/-- The entries given by pairs of input bits and an output bit. Without a fill value all of them
have to be listed. -/
def listedEntries (line inputs : Nat) (fill : Option Bool) (rows : List Word) :
    Except Failure (List Bool) := do
  if rows.length % 2 ≠ 0 then
    throw ⟨.unpairedRows, some line⟩
  if ¬ isSize (TruthTable.combinations inputs) then
    throw ⟨.tableTooLarge, some line⟩
  let known ← (pairRows rows).foldlM (addListed inputs) []
  let total := TruthTable.combinations inputs
  if known.length < total ∧ fill.isNone then
    throw ⟨.missingRows (total - known.length), some line⟩
  return (List.range total).map fun index => (known.lookup index).getD (fill.getD false)

def TableStatement.entries (t : TableStatement) : Except Failure (List Bool) :=
  match t.form with
  | .counting => countedEntries t.line t.inputPins.length t.rows
  | .listed fill => listedEntries t.line t.inputPins.length fill t.rows

end FuseMap.Design
