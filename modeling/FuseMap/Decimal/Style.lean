import FuseMap.Decimal.Shortest

/-! # Binary numbers in decimal
-/

namespace FuseMap.Decimal

/-- How numbers are written: with a point and no exponent as long as the point stands after at
least `leastPoint` and at most `greatestPoint` of the places counted from the first digit, else with
an exponent of two or more digits. -/
structure Style where
  leastPoint : Int
  greatestPoint : Int
  notANumber : String
  infinite : String

namespace Style

/-- The digits without the zeros at their end. -/
def significant (digits : List Char) : List Char :=
  (digits.reverse.dropWhile (· == '0')).reverse

/-- Digits with the point before, after or between them; a zero stands where a side is empty. -/
def positional (digits : List Char) (point : Int) : List Char :=
  if point ≤ 0 then ['0', '.'] ++ List.replicate (-point).toNat '0' ++ digits
  else if digits.length ≤ point then
    digits ++ List.replicate (point.toNat - digits.length) '0' ++ ['.', '0']
  else digits.take point.toNat ++ '.' :: digits.drop point.toNat

/-- Digits with the point after the first, and the exponent. -/
def scientific (digits : List Char) (point : Int) : List Char :=
  let exponent := point - 1
  let size := Nat.toDigits 10 exponent.natAbs
  digits.take 1 ++ (if digits.length ≤ 1 then [] else '.' :: digits.drop 1) ++
    ['e', if exponent < 0 then '-' else '+'] ++ (if size.length < 2 then '0' :: size else size)

/-- A decimal in this style. -/
def decimal (style : Style) (d : Numeral) : List Char :=
  let all := Nat.toDigits 10 d.digits
  let digits := significant all
  let point := all.length + d.exponent
  if style.leastPoint ≤ point ∧ point ≤ style.greatestPoint then positional digits point
  else scientific digits point

def render (style : Style) : Binary64 → String
  | .notANumber => style.notANumber
  | .infinite negative => (if negative then "-" else "") ++ style.infinite
  | .finite negative m e =>
    (if negative then "-" else "") ++
      (if m = 0 then "0.0" else String.ofList (style.decimal (shortest m e)))

end Style

end FuseMap.Decimal
