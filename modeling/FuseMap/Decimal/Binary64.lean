/-! # Numbers in binary with 53 places

The numbers that a text with a decimal point or an exponent stands for are rounded to binary with a
53 bit mantissa and an exponent from -1074 to 971. The rounding is exact: to the nearest such
number, a tie to the even mantissa.
-/

namespace FuseMap.Decimal

/-- The power of two with an exponent, 1 if the exponent is negative. -/
def twoTo (exponent : Int) : Nat := Nat.pow 2 exponent.toNat

/-- The power of ten with an exponent, 1 if the exponent is negative. -/
def tenTo (exponent : Int) : Nat := Nat.pow 10 exponent.toNat

/-- A number as a profile holds it: `finite` is `± mantissa * 2 ^ exponent`. -/
inductive Binary64
  | notANumber
  | infinite (negative : Bool)
  | finite (negative : Bool) (mantissa : Nat) (exponent : Int)
deriving DecidableEq, Inhabited

namespace Binary64

def minExponent : Int := -1074

def maxExponent : Int := 971

def mantissaBound : Nat := twoTo 53

/-- A quotient rounded to the nearest integer, a tie to the even one. -/
def roundQuotient (num den : Nat) : Nat :=
  let q := num / den
  let r := 2 * (num % den)
  if r < den then q else if den < r then q + 1 else q + q % 2

/-- The quotient `num / (den * 2 ^ e)` as a numerator and a denominator. -/
def scaled (num den : Nat) (e : Int) : Nat × Nat :=
  (num * twoTo (-e), den * twoTo e)

/-- The exponent at which the mantissa of `num / den` is below the bound and, if the exponent is
not the least one, uses all 53 places. -/
def exponentOf (num den : Nat) : Int :=
  let e : Int := (num.log2 : Int) - (den.log2 : Int) - 53
  let (n, d) := scaled num den e
  max minExponent (if n / d < mantissaBound then e else e + 1)

/-- The number nearest to `± num / den`. -/
def ofRatio (negative : Bool) (num den : Nat) : Binary64 :=
  if num = 0 then .finite negative 0 minExponent
  else
    let e := exponentOf num den
    let (n, d) := scaled num den e
    let m := roundQuotient n d
    let (m, e) := if m = mantissaBound then (mantissaBound / 2, e + 1) else (m, e)
    if maxExponent < e then .infinite negative else .finite negative m e

/-- The number nearest to `± digits * 10 ^ exponent`. What is far above or below all finite
numbers is settled without computing the power. -/
def ofDecimal (negative : Bool) (digits : Nat) (exponent : Int) : Binary64 :=
  let magnitude : Int := (Nat.toDigits 10 digits).length + exponent
  if digits = 0 || magnitude < -330 then .finite negative 0 minExponent
  else if 310 < magnitude then .infinite negative
  else ofRatio negative (digits * tenTo exponent) (tenTo (-exponent))

/-- Whether the number is zero, of either sign. -/
def isZero : Binary64 → Bool
  | .finite _ m _ => m == 0
  | _ => false

/-- The integer part of a finite number: what follows the point is cut off. -/
def integerPart (negative : Bool) (mantissa : Nat) (exponent : Int) : Int :=
  let n : Nat := mantissa * twoTo exponent / twoTo (-exponent)
  if negative then -(n : Int) else n

def equalsInteger (n : Int) : Binary64 → Bool
  | .finite negative m e =>
    integerPart negative m e == n && m * twoTo e % twoTo (-e) == 0
  | _ => false

end Binary64

end FuseMap.Decimal
