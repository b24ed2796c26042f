import FuseMap.TruthTable

/-! # What can be wrong with a design text
-/

namespace FuseMap.Design

/-- The reason why a design text is refused. -/
inductive Fault
  | unclosedComment
  | unexpectedCharacter (c : Char)
  | notBits (row : String)
  /-- Something else was needed than what was found; nothing was found at the end of the text. -/
  | expected (what : String) (found : Option String)
  | notAStatement (found : String)
  | undeclaredName (name : String)
  | unequalCounts (numbers names : Nat)
  | duplicateName (name : String)
  | duplicateNumber (pin : Int)
  | repeatedInput (output : String)
  | tooManyInputs (output : String) (inputs : Nat)
  | badFillValue (found : String)
  /-- A modifier that does not exist or was given before; nothing was found at the end of the
  text. -/
  | unexpectedModifier (found : Option String)
  | countAndFill
  | wrongBitCount (bits inputs : Nat)
  | unpairedRows
  | tableTooLarge
  | wrongRowWidth (row : String) (inputs : Nat)
  | notOneBit (row : String)
  | repeatedRow (row : String)
  | missingRows (count : Nat)
  | alreadyConfigured (pin : Int) (line : Nat)
  /-- A pin number has more digits than can be read. -/
  | numberTooLong
  /-- The functions of the text are nested deeper than the stack has room for. -/
  | stackExhausted
deriving DecidableEq, Repr

def inApostrophes (s : String) : String := "'" ++ s ++ "'"

def Fault.message : Fault → String
  | .unclosedComment => "Comment is never closed"
  | .unexpectedCharacter c => "Unexpected character " ++ inApostrophes (String.singleton c)
  | .notBits row => "Expected only 0 and 1 in bit row " ++ inApostrophes row
  | .expected what found =>
    "Expected " ++ what ++ " but found " ++ (found.map inApostrophes).getD "end of file"
  | .notAStatement found =>
    "Unexpected " ++ inApostrophes found ++ ", expected pin, table or a boolean function"
  | .undeclaredName name => "Pin name " ++ inApostrophes name ++ " is not declared"
  | .unequalCounts numbers names => s!"{numbers} pin numbers but {names} pin names"
  | .duplicateName name => "Duplicate pin name " ++ inApostrophes name
  | .duplicateNumber pin => s!"Duplicate pin number {pin}"
  | .repeatedInput output => "Input pin listed twice in table for " ++ inApostrophes output
  | .tooManyInputs output inputs =>
    inApostrophes output ++ s!" has {inputs} inputs, at most {TruthTable.maxInputs} are supported"
  | .badFillValue found => "Fill value must be 0 or 1, got " ++ inApostrophes found
  | .unexpectedModifier found =>
    "Unexpected table modifier " ++ inApostrophes (found.getD "None")
  | .countAndFill => "A table can't use both count and fill"
  | .wrongBitCount bits inputs =>
    s!"Counting table has {bits} output bits, {TruthTable.combinations inputs} expected"
  | .unpairedRows => "Table rows must be pairs of input bits and an output bit"
  | .tableTooLarge => "Table has too many input combinations"
  | .wrongRowWidth row inputs =>
    "Input bits " ++ inApostrophes row ++ s!" don't match {inputs} inputs"
  | .notOneBit row => "Output must be a single bit, got " ++ inApostrophes row
  | .repeatedRow row => "Input combination " ++ inApostrophes row ++ " is listed twice"
  | .missingRows count => s!"Table is missing {count} input combinations, list them or use fill"
  | .alreadyConfigured pin line => s!"Output pin {pin} is already configured in line {line}"
  | .numberTooLong => "Pin number has too many digits"
  | .stackExhausted => "Function is nested too deep"

/-- The pin in the wording of a fault. -/
def Fault.numbers : Fault → List Int
  | .duplicateNumber pin | .alreadyConfigured pin _ => [pin]
  | _ => []

/-- Whether a fault is reported to the user. -/
def Fault.isReported : Fault → Bool
  | .tableTooLarge | .numberTooLong | .stackExhausted => false
  | _ => true

/-- A fault and the line it was found in. -/
structure SyntaxError where
  fault : Fault
  line : Nat
deriving DecidableEq, Repr

/-- The fault with its line. -/
def SyntaxError.message (e : SyntaxError) : String :=
  e.fault.message ++ s!" in line {e.line}"

end FuseMap.Design
