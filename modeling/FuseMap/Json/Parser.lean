import FuseMap.Json.Value
import FuseMap.Text.Integer

/-! # Reading JSON

A reader takes a value off the front of a text. When it fails it says what was missing and what
remained of the text there; the position is worked out once, at the end. Standard JSON bounds
neither the digits of an integer nor the depth of nesting, but a reader may (`Limits`); it finds an
excess where it comes to it, so that what is wrong before is found first.
-/

namespace FuseMap.Json

open FuseMap.Decimal (Binary64)

/-- What can be wrong with a JSON text. -/
inductive Fault
  | expectingValue
  | expectingComma
  | expectingColon
  | expectingName
  | unterminatedString
  | controlCharacter
  | badEscape
  | badCodeEscape
  | extraData
  | byteOrderMark
  /-- An integer has more digits than the reader takes. -/
  | integerTooLong
  /-- Arrays and objects are nested deeper than the reader goes. -/
  | tooDeep
deriving DecidableEq, Repr

def Fault.message : Fault → String
  | .expectingValue => "Expecting value"
  | .expectingComma => "Expecting ',' delimiter"
  | .expectingColon => "Expecting ':' delimiter"
  | .expectingName => "Expecting property name enclosed in double quotes"
  | .unterminatedString => "Unterminated string starting at"
  | .controlCharacter => "Invalid control character at"
  | .badEscape => "Invalid \\escape"
  | .badCodeEscape => "Invalid \\uXXXX escape"
  | .extraData => "Extra data"
  | .byteOrderMark => "Unexpected UTF-8 BOM (decode using utf-8-sig)"
  | .integerTooLong => "Integer has too many digits"
  | .tooDeep => "Value is nested too deep"

/-- Whether a text is refused for the limits of the reader, and not for its syntax. -/
def Fault.isLimit : Fault → Bool
  | .integerTooLong | .tooDeep => true
  | _ => false

/-- What a reader takes; there is no bound where none is given. -/
structure Limits where
  /-- The greatest number of digits of an integer. -/
  digits : Option Nat
  /-- The greatest depth of nested arrays and objects. -/
  depth : Option Nat

/-- The limits of standard JSON: none. -/
def Limits.standard : Limits := ⟨none, none⟩

/-- Whether an integer may have so many digits. -/
def Limits.allowsDigits (limits : Limits) (count : Nat) : Bool := limits.digits.all (count ≤ ·)

/-- Whether arrays and objects may be nested so deep. -/
def Limits.allowsDepth (limits : Limits) (depth : Nat) : Bool := limits.depth.all (depth ≤ ·)

/-- A fault and what remained of the text where it was found. -/
structure Failure where
  fault : Fault
  remaining : List Char

def isSpace (c : Char) : Bool :=
  c == ' ' || c == '\t' || c == '\n' || c == '\r'

/-- The text after its leading white space. -/
def skipSpace (cs : List Char) : List Char :=
  cs.dropWhile isSpace

/-! ## Strings -/

def hexDigit? (c : Char) : Option Nat :=
  if c.isDigit then some (c.toNat - '0'.toNat)
  else if 'a' ≤ c ∧ c ≤ 'f' then some (c.toNat - 'a'.toNat + 10)
  else if 'A' ≤ c ∧ c ≤ 'F' then some (c.toNat - 'A'.toNat + 10)
  else none

/-- The number that four hexadecimal digits stand for. -/
def hexCode? (a b c d : Char) : Option Nat := do
  let a ← hexDigit? a
  let b ← hexDigit? b
  let c ← hexDigit? c
  let d ← hexDigit? d
  return ((a * 16 + b) * 16 + c) * 16 + d

/-- The character that a backslash and one character stand for. -/
def simpleEscape? : Char → Option Char
  | '"' => some '"'
  | '\\' => some '\\'
  | '/' => some '/'
  | 'b' => some '\x08'
  | 'f' => some '\x0c'
  | 'n' => some '\n'
  | 'r' => some '\r'
  | 't' => some '\t'
  | _ => none

/-- The code of the character that a pair stands for. -/
def pairCode (high low : Nat) : Nat := 0x10000 + (high - 0xD800) * 0x400 + (low - 0xDC00)

/-- Codes in which two halves that follow each other are made into a pair. Halves that stand alone
are kept. -/
def joinHalves : List Nat → List Nat
  | [] => []
  | [n] => [n]
  | n :: k :: rest =>
    if isHighHalf n && isLowHalf k then pairCode n k :: joinHalves rest
    else n :: joinHalves (k :: rest)

/-- The rest of a string up to its closing quote. `opening` is the text from the opening quote on,
`read` holds the codes of the characters read so far, the last one first. A code escape takes four
hexadecimal digits, and one more character has to follow them. -/
def stringRest (opening : List Char) (read : List Nat) :
    List Char → Except Failure (Str × List Char)
  | [] => .error ⟨.unterminatedString, opening⟩
  | '"' :: rest => .ok (.ofCodes (joinHalves read.reverse), rest)
  | ['\\'] => .error ⟨.unterminatedString, opening⟩
  | '\\' :: 'u' :: a :: b :: c :: d :: rest =>
    match hexCode? a b c d with
    | some n =>
      if rest.isEmpty then .error ⟨.badCodeEscape, ['u', a, b, c, d]⟩
      else stringRest opening (n :: read) rest
    | none => .error ⟨.badCodeEscape, 'u' :: a :: b :: c :: d :: rest⟩
  | '\\' :: c :: rest =>
    match simpleEscape? c with
    | some e => stringRest opening (e.toNat :: read) rest
    | none =>
      if c == 'u' then .error ⟨.badCodeEscape, c :: rest⟩
      else .error ⟨.badEscape, '\\' :: c :: rest⟩
  | c :: rest =>
    if c.toNat ≤ 0x1F then .error ⟨.controlCharacter, c :: rest⟩
    else stringRest opening (c.toNat :: read) rest

/-! ## Numbers -/

/-- The digits at the front of a text and what follows them. -/
def spanDigits (cs : List Char) : List Char × List Char :=
  (cs.takeWhile Char.isDigit, cs.dropWhile Char.isDigit)

/-- The integer part of a number: a zero alone, or digits that do not start with one. -/
def integerPart? : List Char → Option (List Char × List Char)
  | '0' :: rest => some (['0'], rest)
  | cs => if (spanDigits cs).1.isEmpty then none else some (spanDigits cs)

/-- The digits after a point, none if there is no point with a digit after it. -/
def fractionPart (cs : List Char) : List Char × List Char :=
  match cs with
  | '.' :: rest => if (spanDigits rest).1.isEmpty then ([], cs) else spanDigits rest
  | _ => ([], cs)

/-- An exponent, if there is one: its mark, a sign or none, and at least one digit. -/
def exponentPart (cs : List Char) : Option Int × List Char :=
  let signed (negative : Bool) (rest : List Char) : Option Int × List Char :=
    let (digits, after) := spanDigits rest
    if digits.isEmpty then (none, cs)
    else
      let n : Int := Text.digitsValue digits
      (some (if negative then -n else n), after)
  let marked (rest : List Char) : Option Int × List Char :=
    match rest with
    | '-' :: rest => signed true rest
    | '+' :: rest => signed false rest
    | rest => signed false rest
  match cs with
  | 'e' :: rest => marked rest
  | 'E' :: rest => marked rest
  | _ => (none, cs)

/-- A number without its sign. -/
def magnitude (limits : Limits) (negative : Bool) (cs : List Char) :
    Except Fault (Value × List Char) :=
  match integerPart? cs with
  | none => .error .expectingValue
  | some (whole, rest) =>
    let (fraction, rest) := fractionPart rest
    let (exponent, rest) := exponentPart rest
    if fraction.isEmpty && exponent.isNone then
      let n : Int := Text.digitsValue whole
      if limits.allowsDigits whole.length then .ok (.integer (if negative then -n else n), rest)
      else .error .integerTooLong
    else
      .ok (.real (.ofDecimal negative (Text.digitsValue (whole ++ fraction))
        (exponent.getD 0 - fraction.length)), rest)

def number (limits : Limits) (cs : List Char) : Except Failure (Value × List Char) :=
  let read := match cs with
    | '-' :: rest => magnitude limits true rest
    | _ => magnitude limits false cs
  read.mapError (⟨·, cs⟩)

/-! ## Values -/

/-- The words that stand for a value. -/
def words : List (String × Value) :=
  [ ("null", .null), ("true", .bool true), ("false", .bool false), ("NaN", .real .notANumber),
    ("Infinity", .real (.infinite false)), ("-Infinity", .real (.infinite true)) ]

/-- What follows a word, if the text starts with it. -/
def afterWord? : List Char → List Char → Option (List Char)
  | [], cs => some cs
  | w :: ws, c :: cs => if w == c then afterWord? ws cs else none
  | _ :: _, [] => none

/-- A word or a number. -/
def scalar (limits : Limits) (cs : List Char) : Except Failure (Value × List Char) :=
  match words.findSome? fun (word, v) => (afterWord? word.toList cs).map (v, ·) with
  | some r => .ok r
  | none => number limits cs

mutual

/-- A value at the front of a text, inside of `level` arrays and objects. The first argument bounds
the steps; twice the length of the text is enough. -/
def value (limits : Limits) : Nat → Nat → List Char → Except Failure (Value × List Char)
  | 0, _, cs => .error ⟨.expectingValue, cs⟩
  | _ + 1, _, '"' :: rest => do
    let (s, rest) ← stringRest ('"' :: rest) [] rest
    return (s.value, rest)
  | n + 1, level, '[' :: rest =>
    if limits.allowsDepth (level + 1) then
      match skipSpace rest with
      | ']' :: rest => return (.array [], rest)
      | rest => items limits n (level + 1) [] rest
    else .error ⟨.tooDeep, '[' :: rest⟩
  | n + 1, level, '\x7b' :: rest =>
    if limits.allowsDepth (level + 1) then
      match skipSpace rest with
      | '\x7d' :: rest => return (.record [], rest)
      | rest => members limits n (level + 1) [] rest
    else .error ⟨.tooDeep, '\x7b' :: rest⟩
  | _ + 1, _, cs => scalar limits cs

/-- The items of an array from one item on; `read` are those before it, last first. -/
def items (limits : Limits) :
    Nat → Nat → List Value → List Char → Except Failure (Value × List Char)
  | 0, _, _, cs => .error ⟨.expectingValue, cs⟩
  | n + 1, level, read, cs => do
    let (v, rest) ← value limits n level cs
    match skipSpace rest with
    | ']' :: rest => return (.array (v :: read).reverse, rest)
    | ',' :: rest => items limits n level (v :: read) (skipSpace rest)
    | rest => .error ⟨.expectingComma, rest⟩

/-- The fields of an object from one field on; `read` are those before it. -/
def members (limits : Limits) :
    Nat → Nat → List (Str × Value) → List Char → Except Failure (Value × List Char)
  | 0, _, _, cs => .error ⟨.expectingName, cs⟩
  | n + 1, level, read, '"' :: rest => do
    let (name, rest) ← stringRest ('"' :: rest) [] rest
    match skipSpace rest with
    | ':' :: rest =>
      let (v, rest) ← value limits n level (skipSpace rest)
      match skipSpace rest with
      | '\x7d' :: rest => return (.record (insertField name v read), rest)
      | ',' :: rest => members limits n level (insertField name v read) (skipSpace rest)
      | rest => .error ⟨.expectingComma, rest⟩
    | rest => .error ⟨.expectingColon, rest⟩
  | _ + 1, _, _, cs => .error ⟨.expectingName, cs⟩

end

/-- A text that is one value with white space around it. -/
def document (limits : Limits) (cs : List Char) : Except Failure Value :=
  match cs with
  | '\uFEFF' :: _ => .error ⟨.byteOrderMark, cs⟩
  | _ => do
    let (v, rest) ← value limits (2 * cs.length + 2) 0 (skipSpace cs)
    match skipSpace rest with
    | [] => return v
    | rest => .error ⟨.extraData, rest⟩

/-! ## Positions -/

/-- A fault and its place in the text, counted in characters from 0. -/
structure SyntaxError where
  fault : Fault
  position : Nat
  line : Nat
  column : Nat
deriving DecidableEq, Repr

/-- The place of a failure in its text. Lines and columns are counted from 1. -/
def Failure.locate (text : List Char) (f : Failure) : SyntaxError :=
  let position := text.length - f.remaining.length
  let before := text.take position
  { fault := f.fault
    position
    line := before.count '\n' + 1
    column := (before.reverse.takeWhile (· != '\n')).length + 1 }

/-- The fault with its full place. -/
def SyntaxError.message (e : SyntaxError) : String :=
  s!"{e.fault.message}: line {e.line} column {e.column} (char {e.position})"

/-- Reads a text as one JSON value within limits. -/
def parseWithin (limits : Limits) (text : List Char) : Except SyntaxError Value :=
  (document limits text).mapError (·.locate text)

def parse (text : List Char) : Except SyntaxError Value := parseWithin .standard text

end FuseMap.Json
