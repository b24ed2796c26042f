import FuseMap.Error

/-! # Sums of products

The function of an output is a disjunction of product terms. The sum of a truth table has one term
for each true entry, in the order of the entries, and each term names every input pin; nothing is
minimised.
-/

namespace FuseMap

/-- The value of a pin, or its complement. -/
structure Literal where
  pin : Int
  inverted : Bool
deriving DecidableEq, Inhabited, Repr

/-- A conjunction of literals. -/
abbrev ProductTerm := List Literal

/-- The function of one output pin. -/
structure SumOfProducts where
  outputPin : Int
  /-- Whether the output goes through a flip flop. -/
  registered : Bool
  terms : List ProductTerm
deriving DecidableEq, Inhabited, Repr

namespace Literal

/-- Whether a literal is true when the pins have the given values. -/
def holds (pins : Int → Bool) (l : Literal) : Bool :=
  pins l.pin != l.inverted

end Literal

namespace ProductTerm

/-- Whether a term is true when the pins have the given values. -/
def holds (pins : Int → Bool) (t : ProductTerm) : Bool :=
  t.all (Literal.holds pins)

/-- The term that is true for one combination of the input pins. The digits of `bits` in binary,
the last ones as many as there are pins, are their values; the first pin has the most significant
one. -/
def ofBits (bits : Int) : List Int → ProductTerm
  | [] => []
  | pin :: pins =>
    ⟨pin, bits / TruthTable.combinations pins.length % 2 == 0⟩ :: ofBits bits pins

def pins (t : ProductTerm) : List Int := t.map (·.pin)

/-- The value of a term when only some pins have values: the first literal without one is an error
unless a false literal comes before it. -/
def value? (values : Int → Option Bool) : ProductTerm → Except Int Bool
  | [] => .ok true
  | l :: rest =>
    match values l.pin with
    | none => .error l.pin
    | some b => if b != l.inverted then value? values rest else .ok false

end ProductTerm

namespace SumOfProducts

def isFalse (s : SumOfProducts) : Bool := s.terms.isEmpty

/-- The value of a sum when the pins have the given values. -/
def holds (pins : Int → Bool) (s : SumOfProducts) : Bool :=
  s.terms.any (ProductTerm.holds pins)

/-- The value of terms when only some pins have values: terms after a true one are left out. -/
def termsValue? (values : Int → Option Bool) : List ProductTerm → Except Int Bool
  | [] => .ok false
  | t :: rest =>
    match t.value? values with
    | .ok false => termsValue? values rest
    | r => r

/-- The value of a sum when only some pins have values. -/
def value? (values : Int → Option Bool) (s : SumOfProducts) : Except Int Bool :=
  termsValue? values s.terms

/-- The terms of the true entries. -/
def minterms (inputPins : List Int) (entries : List Bool) : List ProductTerm :=
  entries.zipIdx.filterMap fun (value, index) =>
    if value then some (ProductTerm.ofBits index inputPins) else none

/-- The sum of a truth table, which needs as many entries as there are combinations of its
inputs. -/
def ofTable (t : TruthTable) : Except Error SumOfProducts :=
  let inputs := t.inputPins.length
  if TruthTable.maxInputs < inputs then .error (.tooManyInputs t.outputPin inputs)
  else if t.entries.length ≠ TruthTable.combinations inputs then
    .error (.wrongTableLength t.outputPin t.entries.length inputs)
  else .ok ⟨t.outputPin, t.registered, minterms t.inputPins t.entries⟩

/-- The sums of truth tables; the first table that has none is the one reported. -/
def ofTables (tables : List TruthTable) : Except Error (List SumOfProducts) :=
  tables.mapM ofTable

end SumOfProducts

end FuseMap
