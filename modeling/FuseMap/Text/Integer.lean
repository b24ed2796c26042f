import FuseMap.Text.Basic

/-! # Integers written as text

An optional sign, then decimal digits of any script with single underscores allowed between two of
them, and padding around the whole. Every script with decimal digits has them as ten consecutive
characters, zero first. Decimal integers are read and written up to a number of digits.
-/

namespace FuseMap.Text

/-! ## Digits -/

/-- The code points of the zeros, in ascending order. -/
def decimalZeros : List Nat :=
  [
    0x0030, 0x0660, 0x06F0, 0x07C0, 0x0966, 0x09E6, 0x0A66, 0x0AE6, 0x0B66, 0x0BE6,
    0x0C66, 0x0CE6, 0x0D66, 0x0DE6, 0x0E50, 0x0ED0, 0x0F20, 0x1040, 0x1090, 0x17E0,
    0x1810, 0x1946, 0x19D0, 0x1A80, 0x1A90, 0x1B50, 0x1BB0, 0x1C40, 0x1C50, 0xA620,
    0xA8D0, 0xA900, 0xA9D0, 0xA9F0, 0xAA50, 0xABF0, 0xFF10, 0x104A0, 0x10D30, 0x11066,
    0x110F0, 0x11136, 0x111D0, 0x112F0, 0x11450, 0x114D0, 0x11650, 0x116C0, 0x11730, 0x118E0,
    0x11950, 0x11C50, 0x11D50, 0x11DA0, 0x16A60, 0x16AC0, 0x16B50, 0x1D7CE, 0x1D7D8, 0x1D7E2,
    0x1D7EC, 0x1D7F6, 0x1E140, 0x1E2F0, 0x1E950, 0x1FBF0
  ]

/-- The value of a decimal digit of any script. -/
def digitValue? (c : Char) : Option Nat :=
  (decimalZeros.find? fun start => start ≤ c.toNat && c.toNat < start + 10).map (c.toNat - ·)

/-- The number that ASCII decimal digits stand for. -/
def digitsValue (digits : List Char) : Nat :=
  digits.foldl (fun value c => 10 * value + (c.toNat - '0'.toNat)) 0

/-- The greatest number of decimal digits that an integer is read from or written with; zeros in
front count. -/
def maxDigits : Nat := 4300

/-- The number of decimal digits of an integer, its sign apart. -/
def digitCount (n : Int) : Nat := (Nat.toDigits 10 n.natAbs).length

/-! ## Integers -/

/-- The text without the padding at both of its ends. -/
def trimPadding (cs : List Char) : List Char :=
  ((cs.dropWhile isPadding).reverse.dropWhile isPadding).reverse

/-- The number that the digits read so far and the rest of the text make up. -/
def continueDigits? (value : Nat) : List Char → Option Nat
  | [] => some value
  | '_' :: c :: rest => (digitValue? c).bind fun d => continueDigits? (10 * value + d) rest
  | c :: rest => (digitValue? c).bind fun d => continueDigits? (10 * value + d) rest

/-- A number without a sign: its first character is a digit, and it has no more digits than can be
read. -/
def readNatural? : List Char → Option Nat
  | [] => none
  | c :: rest =>
    if maxDigits < (c :: rest).countP (· != '_') then none
    else (digitValue? c).bind fun d => continueDigits? d rest

/-- The integer that a text stands for, if it stands for one. -/
def readInteger? (text : String) : Option Int :=
  match trimPadding text.toList with
  | '-' :: rest => (readNatural? rest).map fun n => -(n : Int)
  | '+' :: rest => (readNatural? rest).map fun n => (n : Int)
  | rest => (readNatural? rest).map fun n => (n : Int)

end FuseMap.Text
