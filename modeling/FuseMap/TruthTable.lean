/-! # Truth tables

Entry `i` of a table is the output for the combination of inputs whose bits are those of `i`, the
first input pin being the most significant bit.
-/

namespace FuseMap

/-- The truth table of one output pin. -/
structure TruthTable where
  outputPin : Int
  /-- Whether the output goes through a flip flop. -/
  registered : Bool
  inputPins : List Int
  entries : List Bool
deriving DecidableEq, Inhabited, Repr

namespace TruthTable

def maxInputs : Nat := 64

/-- The number of combinations of a number of inputs. -/
def combinations (inputs : Nat) : Nat := Nat.pow 2 inputs

def trueCount (t : TruthTable) : Nat := t.entries.count true

/-! ## Faults -/

/-- The reason why a JSON value is not a list of tables. Entries are counted from 0. -/
inductive Fault
  | notAnArray
  | notAnObject (index : Nat)
  | missingFields (index : Nat) (names : List String)
  | outputPin (index : Nat)
  | inputPins (index : Nat)
  | entries (index : Nat)
  | registered (index : Nat)
deriving DecidableEq, Repr

def Fault.message : Fault → String
  | .notAnArray => "Table json must be an array of table objects"
  | .notAnObject i => s!"Table json entry {i} is not an object"
  | .missingFields i names => s!"Table json entry {i} is missing " ++ ", ".intercalate names
  | .outputPin i => s!"Table json entry {i}: outputPin must be a number"
  | .inputPins i => s!"Table json entry {i}: inputPins must be an array of numbers"
  | .entries i => s!"Table json entry {i}: table must be an array of booleans"
  | .registered i => s!"Table json entry {i}: dff must be a boolean"

end TruthTable

/-! ## Sizes

The sizes that arrays and tables are made with have 63 bits and a sign. A greater size is refused,
whether or not there would be memory for it; a negative one counts as zero.
-/

/-- The least number that is too great for a size. -/
def sizeBound : Nat := 9223372036854775808

/-- Whether a number can be a size. -/
def isSize (n : Int) : Bool := -sizeBound ≤ n && n < sizeBound

end FuseMap
