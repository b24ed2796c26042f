import FuseMap.Decimal.Binary64

/-! # Shortest decimals

A number is written with the fewest decimal digits that read back as the same number, and of the
decimals with that many digits the one nearest to it.
-/

namespace FuseMap.Decimal

/-- The decimal `digits * 10 ^ exponent`. -/
structure Numeral where
  digits : Nat
  exponent : Int
deriving DecidableEq, Inhabited

namespace Numeral

/-- The comparison `a * 10 ^ p ≤ b * 2 ^ q`, carried out on natural numbers. -/
def leBinary (a : Nat) (p : Int) (b : Nat) (q : Int) : Bool :=
  a * tenTo p * twoTo (-q) ≤ b * twoTo q * tenTo (-p)

/-- The comparison `b * 2 ^ q ≤ a * 10 ^ p`, carried out on natural numbers. -/
def geBinary (a : Nat) (p : Int) (b : Nat) (q : Int) : Bool :=
  b * twoTo q * tenTo (-p) ≤ a * tenTo p * twoTo (-q)

end Numeral

/-- The numbers that round to one mantissa and exponent, in quarters of the last place. -/
structure Rounding where
  low : Nat
  value : Nat
  high : Nat
  /-- The exponent of two of a quarter of the last place. -/
  unit : Int
  /-- Whether the ends themselves round to the number. -/
  closed : Bool

namespace Rounding

/-- The interval around `m * 2 ^ q`. Below a power of two the numbers lie twice as dense. -/
def around (m : Nat) (q : Int) : Rounding :=
  { low :=
      if m = Binary64.mantissaBound / 2 ∧ Binary64.minExponent < q then 4 * m - 1 else 4 * m - 2
    value := 4 * m
    high := 4 * m + 2
    unit := q - 2
    closed := m % 2 == 0 }

/-- Whether a decimal reads back as the number. -/
def contains (r : Rounding) (d : Numeral) : Bool :=
  let below := Numeral.leBinary d.digits d.exponent r.low r.unit
  let above := Numeral.geBinary d.digits d.exponent r.high r.unit
  let atLow := below && Numeral.geBinary d.digits d.exponent r.low r.unit
  let atHigh := above && Numeral.leBinary d.digits d.exponent r.high r.unit
  (!below || (r.closed && atLow)) && (!above || (r.closed && atHigh))

/-- The decimal exponent `p` with `10 ^ (p - 1) ≤ value < 10 ^ p`. -/
def magnitude (r : Rounding) : Int :=
  let scale : Int := 340
  let n := r.value * twoTo r.unit * tenTo scale / twoTo (-r.unit)
  (Nat.toDigits 10 n).length - scale

/-- The greatest integer `d` with `d * 10 ^ p ≤ value`. -/
def floorAt (r : Rounding) (p : Int) : Nat :=
  r.value * twoTo r.unit * tenTo (-p) / (twoTo (-r.unit) * tenTo p)

/-- Of `d` and `d + 1` on the grid of `10 ^ p` the one nearer to the value, at a tie the even
one. -/
def nearer (r : Rounding) (d : Nat) (p : Int) : Nat :=
  -- twice the value against `2 * d + 1` steps of the grid
  let below := Numeral.leBinary (2 * d + 1) p (2 * r.value) r.unit
  let above := Numeral.geBinary (2 * d + 1) p (2 * r.value) r.unit
  if below && above then d + d % 2 else if below then d + 1 else d

/-- The decimal on the grid of `10 ^ p` that reads back as the number, if there is one. -/
def onGrid? (r : Rounding) (p : Int) : Option Numeral :=
  let d := r.floorAt p
  match r.contains ⟨d, p⟩, r.contains ⟨d + 1, p⟩ with
  | true, true => some ⟨r.nearer d p, p⟩
  | true, false => some ⟨d, p⟩
  | false, true => some ⟨d + 1, p⟩
  | false, false => none

end Rounding

/-- The shortest decimal that reads back as `m * 2 ^ q`, for a positive `m`. Seventeen digits
always suffice. -/
def shortest (m : Nat) (q : Int) : Numeral :=
  let r := Rounding.around m q
  let top := r.magnitude
  ((List.range 17).findSome? fun n => r.onGrid? (top - (n + 1 : Nat))).getD
    ⟨r.floorAt (top - 17), top - 17⟩

end FuseMap.Decimal
