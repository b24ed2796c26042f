import FuseMap.Decimal.Binary64
import FuseMap.Text.Basic

/-! # JSON values

An object is a list of fields in the order of the text. A number without point and exponent is an
integer of any size, any other number is in binary. A string may hold halves of surrogate pairs that
stand alone: they are no characters, but strings that differ in them are different.
-/

namespace FuseMap.Json

open FuseMap.Decimal (Binary64)

/-! ## Strings -/

/-- Whether a code stands for the first half of a pair. -/
def isHighHalf (n : Nat) : Bool := 0xD800 ≤ n && n ≤ 0xDBFF

/-- Whether a code stands for the second half of a pair. -/
def isLowHalf (n : Nat) : Bool := 0xDC00 ≤ n && n ≤ 0xDFFF

def isHalf (n : Nat) : Bool := isHighHalf n || isLowHalf n

/-- A string that is no text, since half a pair stands alone in it. -/
structure Broken where
  codes : List Nat
  half : codes.any isHalf = true
deriving DecidableEq, Repr

/-- A string: a text, or codes among which half a pair is left. -/
inductive Str
  | plain (s : String)
  | broken (b : Broken)
deriving DecidableEq, Repr

instance : Coe String Str := ⟨.plain⟩

/-- The string of codes in which no pair is left. -/
def Str.ofCodes (codes : List Nat) : Str :=
  if h : codes.any isHalf = true then .broken ⟨codes, h⟩
  else .plain (String.ofList (codes.map Char.ofNat))

/-- The escape of a code. -/
def codeEscape (n : Nat) : String := "\\u" ++ Text.hex 4 n

/-- A broken string with something in the place of each half. -/
def Broken.text (half : Nat → String) (b : Broken) : String :=
  String.join (b.codes.map fun n => if isHalf n then half n else String.singleton (Char.ofNat n))

/-- A string as it shows in messages, in which halves are escaped. -/
def Str.display : Str → String
  | .plain s => s
  | .broken b => b.text codeEscape

/-! ## Values -/

/-- A JSON value. A string in which half a pair is left is `broken`. -/
inductive Value
  | null
  | bool (b : Bool)
  | integer (n : Int)
  | real (x : Binary64)
  | string (s : String)
  | broken (b : Broken)
  | array (items : List Value)
  /-- An object. -/
  | record (fields : List (Str × Value))
deriving Inhabited

/-- A field whose name is a text. -/
def plainField (f : String × Value) : Str × Value := (↑f.1, f.2)

/-- The object with the given fields, whose names are texts. -/
def Value.object (fields : List (String × Value)) : Value := .record (fields.map plainField)

/-- The value that is a string. -/
def Str.value : Str → Value
  | .plain s => .string s
  | .broken b => .broken b

namespace Value

/-- The value of a field, if the value is an object and has it. -/
def field? (v : Value) (name : String) : Option Value :=
  match v with
  | .record fields => fields.lookup ↑name
  | _ => none

/-- Whether a value counts as true: neither false, zero, null nor empty. -/
def truth : Value → Bool
  | .null => false
  | .bool b => b
  | .integer n => n != 0
  | .real x => !x.isZero
  | .string s => !s.isEmpty
  | .broken _ => true
  | .array items => !items.isEmpty
  | .record fields => !fields.isEmpty

/-- Whether a value equals an integer; the booleans equal 0 and 1. -/
def equalsInteger (k : Int) : Value → Bool
  | .bool b => k == (if b then 1 else 0)
  | .integer n => n == k
  | .real x => x.equalsInteger k
  | _ => false

end Value

/-- Fields with one more: a repeated name keeps its place and takes the later value. -/
def insertField (name : Str) (value : Value) : List (Str × Value) → List (Str × Value)
  | [] => [(name, value)]
  | (n, v) :: fields =>
    if n == name then (n, value) :: fields else (n, v) :: insertField name value fields

end FuseMap.Json
