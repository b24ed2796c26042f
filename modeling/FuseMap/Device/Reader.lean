import FuseMap.Device.Basic
import FuseMap.Text.Integer

/-! # Reading device profiles

The fields of a profile are read in a fixed order, and the first one that cannot be read is the one
reported. Numbers may be written in several ways: as integers, as numbers with a point, which are
cut off there, as texts and as booleans.
-/

namespace FuseMap.Device.Reader

open FuseMap.Json (Value)

/-- The reason why a profile cannot be read. -/
inductive Unreadable
  | malformed (cause : Malformation)
  | infinite
deriving DecidableEq, Repr

def malformed {α : Type} (cause : Malformation) : Except Unreadable α :=
  .error (.malformed cause)

/-- The integer that a value stands for. -/
def integer : Value → Except Unreadable Int
  | .bool b => .ok (if b then 1 else 0)
  | .integer n => .ok n
  | .real .notANumber => malformed .badValue
  | .real (.infinite _) => .error .infinite
  | .real (.finite negative m e) => .ok (Decimal.Binary64.integerPart negative m e)
  | .string s =>
    match Text.readInteger? s with
    | some n => .ok n
    | none => malformed .badValue
  | .broken _ => malformed .badValue
  | _ => malformed .wrongKind

/-- A field that has to be there. -/
def field (name : String) : Value → Except Unreadable Value
  | .record fields =>
    match fields.lookup ↑name with
    | some v => .ok v
    | none => malformed (.missingField name)
  | _ => malformed .wrongKind

/-- The parts of a value: the items of an array, the characters of a text, the names of an
object. -/
def parts : Value → Except Unreadable (List Value)
  | .array items => .ok items
  | .string s => .ok (s.toList.map fun c => .string (String.singleton c))
  | .broken b => .ok (b.codes.map fun n => (Json.Str.ofCodes [n]).value)
  | .record fields => .ok (fields.map fun f => f.1.value)
  | _ => malformed .wrongKind

def fieldsOf : Value → Except Unreadable (List (Json.Str × Value))
  | .record fields => .ok fields
  | _ => malformed .notAnObject

/-- The integers that the parts of a value stand for. -/
def integers (v : Value) : Except Unreadable (List Int) := do
  (← parts v).mapM integer

/-- The fields of an object with the integers they hold. -/
def integerFields (v : Value) : Except Unreadable (List (String × Int)) := do
  (← fieldsOf v).mapM fun (name, value) => return (name.display, ← integer value)

def ascending (ns : List Int) : List Int := inOrder (fun a b => decide (a ≤ b)) ns

/-- Adds the named value that a pair gives. A list or an object is no name; other values than texts
are names that nothing asks for. -/
def addPair (values : List (Json.Str × Value)) (pair : Value) :
    Except Unreadable (List (Json.Str × Value)) := do
  match ← parts pair with
  | [.string name, value] => return Json.insertField name value values
  | [.array _, _] => malformed .wrongKind
  | [.record _, _] => malformed .wrongKind
  | [_, _] => return values
  | _ => malformed .badValue

/-- The fields whose names are texts. -/
def plainFields (fields : List (Json.Str × Value)) : List (String × Value) :=
  fields.filterMap fun f =>
    match f.1 with
    | .plain name => some (name, f.2)
    | .broken _ => none

/-- Named values, given by an object or by pairs; nothing asks for names that are no texts. -/
def namedValues : Value → Except Unreadable (List (String × Value))
  | .record fields => .ok (plainFields fields)
  | v => do return plainFields (← (← parts v).foldlM addPair [])

/-- The text of a name that is written to files. A half in it leaves a character that is not ASCII,
since it cannot be written as ASCII either. -/
def nameText : Value → String
  | .broken b => b.text fun _ => "\uFFFD"
  | v => v.display

def outputCell (v : Value) : Except Unreadable OutputCell := do
  let pin ← integer (← field "pin" v)
  let firstRow ← integer (← field "first_row" v)
  let termRows ← integer (← field "term_rows" v)
  let enableRow := ((v.field? "oe_row").map Value.truth).getD false
  let modeBits ← integerFields (← field "mode_bits" v)
  return { pin, firstRow, termRows, enableRow, modeBits }

def region (v : Value) : Except Unreadable Region := do
  let name ← field "name" v
  let offset ← integer (← field "offset" v)
  let width ← integer (← field "width" v)
  return { name, offset, width }

/-- A profile; shared rows and regions may be left out. -/
def profile (v : Value) : Except Unreadable Profile := do
  let deviceName := nameText (← field "device_name" v)
  let pinCount ← integer (← field "pin_count" v)
  let fuseCount ← integer (← field "fuse_count" v)
  let columnPins ← integers (← field "column_pins" v)
  let inputPins := ascending (← integers (← field "input_pins" v))
  let outputPins := ascending (← integers (← field "output_pins" v))
  let connectedFuse ← integer (← field "connected_fuse" v)
  let modeValues ← namedValues (← field "mode_values" v)
  let outputs ← (← parts (← field "outputs" v)).mapM outputCell
  let sharedRows ← integerFields ((v.field? "global_rows").getD (.object []))
  let regions ← (← parts ((v.field? "regions").getD (.array []))).mapM region
  return {
    deviceName, pinCount, fuseCount, columnPins, inputPins, outputPins, connectedFuse, modeValues,
    outputs, sharedRows, regions }

end FuseMap.Device.Reader

namespace FuseMap.Device

/-- The device that a JSON value describes. -/
def ofJson (identifier : String) (v : Json.Value) : Except Error Device :=
  match Reader.profile v with
  | .ok p => ofProfile identifier p
  | .error (.malformed cause) => .error (.malformedProfile identifier cause)
  | .error .infinite => .error .infiniteNumber

end FuseMap.Device
