/-! # Texts

White space of all scripts, lines, and numbers with a fixed number of places.
-/

namespace FuseMap.Text

/-! ## White space -/

/-- White space of any script, the four information separators included. -/
def isBlank (c : Char) : Bool :=
  let n := c.toNat
  (0x09 ≤ n && n ≤ 0x0D) || (0x1C ≤ n && n ≤ 0x20) || n == 0x85 || n == 0xA0 || n == 0x1680 ||
    (0x2000 ≤ n && n ≤ 0x200A) || n == 0x2028 || n == 0x2029 || n == 0x202F || n == 0x205F ||
    n == 0x3000

/-- White space that is dropped around a number: every blank but the information separators. -/
def isPadding (c : Char) : Bool :=
  isBlank c && !(0x1C ≤ c.toNat && c.toNat ≤ 0x1F)

/-! ## Lines

A file's text is read with one kind of line end. A line keeps its line end, so that the lines of a
text make up the text.
-/

/-- A text in which every line end is a line feed: a carriage return, or a carriage return with a
line feed after it, becomes one. -/
def unifyNewlines : List Char → List Char
  | '\r' :: '\n' :: rest => '\n' :: unifyNewlines rest
  | '\r' :: rest => '\n' :: unifyNewlines rest
  | c :: rest => c :: unifyNewlines rest
  | [] => []

/-- The lines of a text, each with its line end; the last may have none. -/
def lines : List Char → List (List Char)
  | [] => []
  | '\n' :: rest => ['\n'] :: lines rest
  | c :: rest =>
    match lines rest with
    | [] => [[c]]
    | line :: others => (c :: line) :: others

/-! ## Places -/

/-- Text brought to a width by zeros in front. -/
def padLeft (width : Nat) (digits : List Char) : List Char :=
  List.replicate (width - digits.length) '0' ++ digits

/-- A number in lower case hexadecimal with at least the given number of digits. -/
def hex (width n : Nat) : String :=
  String.ofList (padLeft width (Nat.toDigits 16 n))

/-- An integer in decimal with at least the given number of places, the sign counted as one. -/
def zeroFilled (width : Nat) (n : Int) : String :=
  let digits := Nat.toDigits 10 n.natAbs
  if n < 0 then String.ofList ('-' :: padLeft (width - 1) digits)
  else String.ofList (padLeft width digits)

end FuseMap.Text
