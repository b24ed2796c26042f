import FuseMap.Design.Fault
import FuseMap.Device.Fault
import FuseMap.Json.Parser
import FuseMap.Sorting
import FuseMap.TruthTable

/-! # Errors

Every way in which reading, laying out and writing a design can fail. Most errors are reported to
the user; those from `infiniteNumber` on, and what exceeds a limit of the reader of a file, end a
run at once. So does an error whose wording holds a number that is too long to be written.
-/

namespace FuseMap

/-- What a pin was to be used for. -/
inductive PinRole
  | output
  | input
deriving DecidableEq, Repr

def PinRole.text : PinRole → String
  | .output => "output"
  | .input => "input"

/-- The reason why an operation failed. -/
inductive Error
  | unknownDevice (name : String) (known : List String)
  | unknownPin (pin : Int) (role : PinRole) (device : String)
  | profilesNotJson (path : String) (reason : Json.SyntaxError)
  | profilesNotAnObject (path : String)
  | malformedProfile (device : String) (cause : Device.Malformation)
  | unsoundProfile (device : String) (fault : Device.GeometryFault)
  | tooManyInputs (outputPin : Int) (inputs : Nat)
  | wrongTableLength (outputPin : Int) (length inputs : Nat)
  | tooManyTerms (outputPin : Int) (terms : Nat) (capacity : Int)
  | illegalOutput (outputPin : Int) (device : String)
  | repeatedOutput (outputPin : Int)
  | illegalInput (pin outputPin : Int) (device : String)
  | repeatedInput (pin outputPin : Int)
  | tablesNotJson (path : String) (reason : Json.SyntaxError)
  | malformedTables (fault : TruthTable.Fault)
  | design (e : Design.SyntaxError)
  | noRowLayout
  /-- A range of fuses, its end excluded, leaves the array. -/
  | fusesOutside (first stop outputPin : Int)
  /-- A range of fuses, its end excluded, meets one of the output pin `owner`. -/
  | fusesTaken (first stop outputPin owner : Int)
  | infiniteNumber
  | arrayTooLarge
  | noProfileName
  | nullInPath
  | notUtf8
  | notAscii
  | columnOutside (column rowLength : Int)
  | indexOutside
  | fuseValueRange
  | fuseValueKind
  | wrongFuseCount (found : Nat) (device : String) (expected : Int)

namespace Error

/-- Texts in the order of their characters. -/
def sortTexts (texts : List String) : List String :=
  inOrder (fun a b => decide (a ≤ b)) texts

def message : Error → String
  | .unknownDevice name known =>
    let names := ", ".intercalate (sortTexts known)
    s!"Device detection failed, no device profile with device type '{name}' found (known: " ++
      (if names.isEmpty then "none" else names) ++ ")"
  | .unknownPin pin role device => s!"Pin {pin} is not an {role.text} pin of device '{device}'"
  | .profilesNotJson path reason =>
    s!"Device profiles in '{path}' are not valid json: {reason.message}"
  | .profilesNotAnObject path =>
    s!"Device profiles in '{path}' must be a json object keyed by device type"
  | .malformedProfile device cause =>
    s!"Device profile '{device}' is malformed: {cause.message}"
  | .unsoundProfile device fault => s!"Device profile '{device}': {fault.message}"
  | .tooManyInputs outputPin inputs =>
    s!"Table for output pin {outputPin} has {inputs} input pins, " ++
      s!"at most {TruthTable.maxInputs} are supported"
  | .wrongTableLength outputPin length inputs =>
    s!"Table for output pin {outputPin} has {length} entries, " ++
      s!"{TruthTable.combinations inputs} expected for {inputs} input pins"
  | .tooManyTerms outputPin terms capacity =>
    s!"Output pin {outputPin} needs {terms} product terms but only {capacity} rows are available"
  | .illegalOutput pin device => s!"Pin {pin} can't be used as an output on device '{device}'"
  | .repeatedOutput pin => s!"Output pin {pin} is configured by more than one table"
  | .illegalInput pin outputPin device =>
    s!"Pin {pin} can't be used as an input on device '{device}' " ++
      s!"(table for output pin {outputPin})"
  | .repeatedInput pin outputPin =>
    s!"Input pin {pin} is listed twice in the table for output pin {outputPin}"
  | .tablesNotJson path reason =>
    s!"Table json '{path}' is not valid json: {reason.fault.message} in line {reason.line}"
  | .malformedTables fault => fault.message
  | .design e => e.message
  | .noRowLayout => "Fuse array has no row layout"
  | .fusesOutside first stop outputPin =>
    s!"Fuses {first}..{stop - 1} of output pin {outputPin} are outside the fuse array"
  | .fusesTaken first stop outputPin owner =>
    s!"Fuses {first}..{stop - 1} of output pin {outputPin} overlap fuses already written by " ++
      s!"output pin {owner}"
  | .infiniteNumber => "A number of the profile is infinite"
  | .arrayTooLarge => "The fuse array is too large"
  | .noProfileName => "The profile file has no name"
  | .nullInPath => "A path holds a null character"
  | .notUtf8 => "The file is not UTF-8 text"
  | .notAscii => "The device name is not ASCII text"
  | .columnOutside column rowLength =>
    s!"Column {column} is outside a row of {rowLength} fuses"
  | .indexOutside => "The fuse is outside the fuse array"
  | .fuseValueRange => "The value of a fuse is not in 0..255"
  | .fuseValueKind => "The value of a fuse is not an integer"
  | .wrongFuseCount found device expected =>
    s!"Fuse array has {found} fuses, device '{device}' has {expected}"

/-- Whether an error is of a kind that is reported to the user. -/
def isReported : Error → Bool
  | .infiniteNumber | .arrayTooLarge | .noProfileName | .nullInPath | .notUtf8 | .notAscii
  | .columnOutside .. | .indexOutside | .fuseValueRange | .fuseValueKind | .wrongFuseCount ..
  | .malformedProfile _ .brokenIdentifier => false
  | .profilesNotJson _ reason | .tablesNotJson _ reason => !reason.fault.isLimit
  | .design e => e.fault.isReported
  | _ => true

/-- The pins, rows and fuses in the wording of an error. What counts something in memory never has
too many digits and is left out, as are numbers in the name of a region, which have been read. -/
def numbers : Error → List Int
  | .unknownPin pin _ _ | .tooManyInputs pin _ | .wrongTableLength pin _ _ | .illegalOutput pin _
  | .repeatedOutput pin => [pin]
  | .tooManyTerms outputPin _ capacity => [outputPin, capacity]
  | .illegalInput pin outputPin _ | .repeatedInput pin outputPin => [pin, outputPin]
  | .fusesOutside first stop outputPin => [first, stop - 1, outputPin]
  | .fusesTaken first stop outputPin owner => [first, stop - 1, outputPin, owner]
  | .unsoundProfile _ fault => fault.numbers
  | .design e => e.fault.numbers
  | _ => []

/-- Whether all numbers in the wording of an error can be written. -/
def isWritable (e : Error) : Bool := e.numbers.all (Text.digitCount · ≤ Text.maxDigits)

/-- The output pin that an error belongs to. -/
def outputPin? : Error → Option Int
  | .unknownPin pin .output _ => some pin
  | .tooManyInputs outputPin _ | .wrongTableLength outputPin _ _ | .tooManyTerms outputPin _ _
  | .illegalOutput outputPin _ | .repeatedOutput outputPin | .illegalInput _ outputPin _
  | .repeatedInput _ outputPin | .fusesOutside _ _ outputPin
  | .fusesTaken _ _ outputPin _ => some outputPin
  | _ => none

end Error

end FuseMap
