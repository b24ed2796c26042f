import FuseMap.Error
import FuseMap.Json.Printer

/-! # Truth tables in JSON

Tables are exchanged as an array of objects:

```
[ { "dff": false, "inputPins": [10, 11], "outputPin": 23, "table": [false, false, true, false] } ]
```
-/

namespace FuseMap.TruthTable

open FuseMap.Json (Value)

/-- The fields of a table. -/
def fieldNames : List String := ["dff", "inputPins", "outputPin", "table"]

/-- An integer; a boolean is none. -/
def integer? : Value → Option Int
  | .integer n => some n
  | _ => none

def boolean? : Value → Option Bool
  | .bool b => some b
  | _ => none

/-- A list whose items are all of one kind. -/
def list? {α : Type} (item : Value → Option α) : Value → Option (List α)
  | .array items => items.mapM item
  | _ => none

/-- A value that has to be there. -/
def require {α : Type} (fault : Fault) : Option α → Except Error α
  | some a => .ok a
  | none => .error (.malformedTables fault)

/-- One table from the entry with the given index. -/
def ofJson (index : Nat) (entry : Value) : Except Error TruthTable := do
  let fields ← require (.notAnObject index) <| match entry with
    | .record fields => some fields
    | _ => none
  let missing := fieldNames.filter fun name => (fields.lookup ↑name).isNone
  if ¬ missing.isEmpty then
    throw (.malformedTables (.missingFields index missing))
  let outputPin ← require (.outputPin index) ((fields.lookup ↑"outputPin").bind integer?)
  let inputPins ← require (.inputPins index) ((fields.lookup ↑"inputPins").bind (list? integer?))
  let entries ← require (.entries index) ((fields.lookup ↑"table").bind (list? boolean?))
  let registered ← require (.registered index) ((fields.lookup ↑"dff").bind boolean?)
  if maxInputs < inputPins.length then
    throw (.tooManyInputs outputPin inputPins.length)
  if entries.length ≠ combinations inputPins.length then
    throw (.wrongTableLength outputPin entries.length inputPins.length)
  return { outputPin, registered, inputPins, entries }

def listOfJson : Value → Except Error (List TruthTable)
  | .array entries => entries.zipIdx.mapM fun (entry, index) => ofJson index entry
  | _ => .error (.malformedTables .notAnArray)

def toJson (t : TruthTable) : Value :=
  .object [
    ("dff", .bool t.registered),
    ("inputPins", .array (t.inputPins.map .integer)),
    ("outputPin", .integer t.outputPin),
    ("table", .array (t.entries.map .bool))]

def listToJson (tables : List TruthTable) : Value := .array (tables.map toJson)

/-- Reads the text of a table file within limits; the path is named in errors. -/
def loadWithin (limits : Json.Limits) (path : String) (text : List Char) :
    Except Error (List TruthTable) :=
  match Json.parseWithin limits text with
  | .ok v => listOfJson v
  | .error e => .error (.tablesNotJson path e)

/-- Reads the text of a table file. -/
def load (path : String) (text : List Char) : Except Error (List TruthTable) :=
  loadWithin .standard path text

def save (tables : List TruthTable) : String := (listToJson tables).indented ++ "\n"

end FuseMap.TruthTable
