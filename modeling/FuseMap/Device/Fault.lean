import FuseMap.Json.Display

/-! # What can be wrong with a device profile
-/

namespace FuseMap.Device

/-- The reason why a profile cannot be read as one. -/
inductive Malformation
  | missingField (name : String)
  /-- A value of a kind that has no such part or number. -/
  | wrongKind
  /-- A text that is no number, or a pair that is none. -/
  | badValue
  /-- A value that should be an object. -/
  | notAnObject
  /-- The identifier of the profile is no text, and cannot be printed. -/
  | brokenIdentifier
deriving DecidableEq, Repr

def Malformation.message : Malformation → String
  | .missingField name => "KeyError(" ++ Text.quoted name ++ ")"
  | .wrongKind => "TypeError"
  | .badValue => "ValueError"
  | .notAnObject => "AttributeError"
  | .brokenIdentifier => "UnicodeEncodeError"

/-- The owner of a row of the matrix. -/
inductive Owner
  | output (pin : Int)
  | shared (name : String)
deriving DecidableEq, Repr

def Owner.text : Owner → String
  | .output pin => s!"output pin {pin}"
  | .shared name => name

def Owner.numbers : Owner → List Int
  | .output pin => [pin]
  | .shared _ => []

/-- The reason why the geometry of a profile is refused. -/
inductive GeometryFault
  | connectedFuse
  | repeatedColumn
  | repeatedOutput
  | modeValue (name : String)
  | notAnOutputPin (pin : Int)
  | negativeRows (pin : Int)
  | sharedRow (row : Int) (first second : Owner)
  | matrixTooLarge (rows rowLength fuseCount : Int)
  | modeBitOutside (name : String) (pin offset : Int)
  | sharedModeBit (offset first second : Int)
  | regionOutside (name : Json.Value)

def GeometryFault.message : GeometryFault → String
  | .connectedFuse => "connected_fuse must be 0 or 1"
  | .repeatedColumn => "duplicate pin in column_pins"
  | .repeatedOutput => "duplicate output pin in outputs"
  | .modeValue name => s!"mode_values.{name} must be 0 or 1"
  | .notAnOutputPin pin => s!"output block for pin {pin} which isn't in output_pins"
  | .negativeRows pin => s!"negative row numbers for output pin {pin}"
  | .sharedRow row first second => s!"row {row} used by both {first.text} and {second.text}"
  | .matrixTooLarge rows rowLength fuseCount =>
    s!"{rows} rows of {rowLength} fuses exceed fuse_count {fuseCount}"
  | .modeBitOutside name pin offset =>
    s!"mode bit {name} of output pin {pin} at {offset} is outside the mode bit area"
  | .sharedModeBit offset first second =>
    s!"mode bit {offset} used by both output pin {first} and output pin {second}"
  | .regionOutside name => s!"region '{name.display}' is outside the fuse map"

/-- The pins, rows and fuses in the wording of a fault. -/
def GeometryFault.numbers : GeometryFault → List Int
  | .notAnOutputPin pin | .negativeRows pin => [pin]
  | .sharedRow row first second => row :: first.numbers ++ second.numbers
  | .matrixTooLarge rows rowLength fuseCount => [rows, rowLength, fuseCount]
  | .modeBitOutside _ pin offset => [pin, offset]
  | .sharedModeBit offset first second => [offset, first, second]
  | .connectedFuse | .repeatedColumn | .repeatedOutput | .modeValue _ | .regionOutside _ => []

end FuseMap.Device
