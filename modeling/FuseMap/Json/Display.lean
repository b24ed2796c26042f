import FuseMap.Decimal.Style
import FuseMap.Json.Value
import FuseMap.Text.Quoted

/-! # JSON values in messages

Messages and device names show a value in a notation of their own: `None`, `True` and `False` for
the words, quoted text inside lists and records, and numbers with the fewest digits.
-/

namespace FuseMap.Json

/-- Numbers in messages have no exponent from 0.0001 up to below 10 ^ 16. -/
def displayStyle : Decimal.Style :=
  { leastPoint := -3, greatestPoint := 16, notANumber := "nan", infinite := "inf" }

/-- A broken string between quotes; its halves are escaped. -/
def Broken.quoted (b : Broken) : String :=
  let mark := Text.quoteMark (b.codes.map Char.ofNat)
  String.singleton mark ++ String.join (b.codes.map fun n =>
    if isHalf n then codeEscape n else Text.escaped mark (Char.ofNat n)) ++ String.singleton mark

def Str.quoted : Str → String
  | .plain s => Text.quoted s
  | .broken b => b.quoted

mutual

/-- A value as it stands inside a list or a record. -/
def Value.literal : Value → String
  | .null => "None"
  | .bool b => if b then "True" else "False"
  | .integer n => toString n
  | .real x => displayStyle.render x
  | .string s => Text.quoted s
  | .broken b => b.quoted
  | .array items => "[" ++ ", ".intercalate (literals items) ++ "]"
  | .record fields => "\x7b" ++ ", ".intercalate (fieldLiterals fields) ++ "\x7d"

def literals : List Value → List String
  | [] => []
  | v :: rest => v.literal :: literals rest

def fieldLiterals : List (Str × Value) → List String
  | [] => []
  | (name, v) :: rest => (name.quoted ++ ": " ++ v.literal) :: fieldLiterals rest

end

/-- A value as it stands in a message: text shows as it is. -/
def Value.display : Value → String
  | .string s => s
  | .broken b => b.text codeEscape
  | v => v.literal

end FuseMap.Json
