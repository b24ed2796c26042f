import FuseMap.Decimal.Style
import FuseMap.Json.Value

/-! # Writing JSON

Two layouts: one line, and one item per line with two more blanks for each level. Only ASCII is
written; other characters are escaped by their codes.
-/

namespace FuseMap.Json

/-- Numbers in JSON have no exponent from 0.0001 up to below 10 ^ 16. -/
def numberStyle : Decimal.Style :=
  { leastPoint := -3, greatestPoint := 16, notANumber := "NaN", infinite := "Infinity" }

def escapedChar (c : Char) : String :=
  if c == '"' then "\\\""
  else if c == '\\' then "\\\\"
  else if c == '\n' then "\\n"
  else if c == '\r' then "\\r"
  else if c == '\t' then "\\t"
  else if c.toNat == 0x08 then "\\b"
  else if c.toNat == 0x0C then "\\f"
  else if 0x20 ≤ c.toNat && c.toNat < 0x7F then String.singleton c
  else if c.toNat ≤ 0xFFFF then codeEscape c.toNat
  else
    let n := c.toNat - 0x10000
    codeEscape (0xD800 + n / 0x400) ++ codeEscape (0xDC00 + n % 0x400)

def quotedString (s : String) : String :=
  "\"" ++ String.join (s.toList.map escapedChar) ++ "\""

/-- A broken string with its quotes; its halves are escaped by their codes. -/
def Broken.quotedString (b : Broken) : String :=
  "\"" ++ String.join (b.codes.map fun n =>
    if isHalf n then codeEscape n else escapedChar (Char.ofNat n)) ++ "\""

def Str.quotedString : Str → String
  | .plain s => Json.quotedString s
  | .broken b => b.quotedString

/-- The marks of a layout: what stands between an opening bracket and the first item, between two
items, before the closing bracket, and between a name and its value. -/
structure Layout where
  opening : Nat → String
  between : Nat → String
  closing : Nat → String
  colon : String

/-- All on one line. -/
def compactLayout : Layout :=
  { opening := fun _ => "", between := fun _ => ", ", closing := fun _ => "", colon := ": " }

/-- A new line with two blanks for each level. -/
def newLine (level : Nat) : String :=
  "\n" ++ String.ofList (List.replicate (2 * level) ' ')

/-- One item per line. -/
def indentedLayout : Layout :=
  { opening := fun level => newLine (level + 1)
    between := fun level => "," ++ newLine (level + 1)
    closing := newLine
    colon := ": " }

mutual

/-- A value at a level of nesting. -/
def Value.render (layout : Layout) (level : Nat) : Value → String
  | .null => "null"
  | .bool b => if b then "true" else "false"
  | .integer n => toString n
  | .real x => numberStyle.render x
  | .string s => quotedString s
  | .broken b => b.quotedString
  | .array [] => "[]"
  | .array items =>
    "[" ++ layout.opening level ++
      (layout.between level).intercalate (renderItems layout (level + 1) items) ++
      layout.closing level ++ "]"
  | .record [] => "\x7b\x7d"
  | .record fields =>
    "\x7b" ++ layout.opening level ++
      (layout.between level).intercalate (renderFields layout (level + 1) fields) ++
      layout.closing level ++ "\x7d"

def renderItems (layout : Layout) (level : Nat) : List Value → List String
  | [] => []
  | v :: rest => v.render layout level :: renderItems layout level rest

def renderFields (layout : Layout) (level : Nat) : List (Str × Value) → List String
  | [] => []
  | (name, v) :: rest =>
    (name.quotedString ++ layout.colon ++ v.render layout level) :: renderFields layout level rest

end

def Value.compact (v : Value) : String := v.render compactLayout 0

/-- A value with one item per line. -/
def Value.indented (v : Value) : String := v.render indentedLayout 0

end FuseMap.Json
