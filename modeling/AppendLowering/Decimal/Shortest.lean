import AppendLowering.Decimal.Double

/-!
# Shortest decimals

The shortest decimal of a double has the fewest digits among those that round
to it, and is the nearest of these. With fewer digits the decimal is a multiple
of a larger power of ten, so the search runs from large powers to small ones.
-/

namespace AppendLowering.Decimal

/-- What to do when two decimals of the same length are equally near. -/
inductive Tie where
  | up
  | toEven
  deriving DecidableEq, Repr

/-- The number `digits * 10 ^ exponent`. -/
structure Numeral where
  digits : Nat
  exponent : Int
  deriving DecidableEq, Repr

/-- The reals that round to a double, all scaled by the same power of two: from `low`
to `high`, with the value itself in between. -/
structure Interval where
  low : Nat
  value : Nat
  high : Nat
  closed : Bool
  deriving DecidableEq, Repr

/-- The interval of a finite positive double, in units of a quarter of its last place.
Below a power of two the neighbour is only half as far. -/
def Interval.ofDouble (d : Double) : Interval :=
  let m := d.significand
  { low := if m = Nat.pow 2 52 ∧ 1 < d.magnitude / Nat.pow 2 52 then 4 * m - 1 else 4 * m - 2
    value := 4 * m
    high := 4 * m + 2
    closed := m % 2 = 0 }

/-- Whether a number with the given numerator lies in the interval, whose ends have
been brought to the same denominator. -/
def Interval.contains (i : Interval) (n : Nat) : Bool :=
  if i.closed then i.low ≤ n ∧ n ≤ i.high else i.low < n ∧ n < i.high

/-- The interval with its numbers multiplied by `factor`. -/
def Interval.scaled (i : Interval) (factor : Nat) : Interval :=
  { i with low := i.low * factor, value := i.value * factor, high := i.high * factor }

/-- The multiple of `step` in the interval that is nearest to its value. -/
def nearestMultiple (tie : Tie) (i : Interval) (step : Nat) : Option Nat :=
  let below := i.value / step
  let above := below + 1
  match i.contains (below * step), i.contains (above * step) with
  | false, false => none
  | true, false => some below
  | false, true => some above
  | true, true =>
      let down := i.value - below * step
      let up := above * step - i.value
      if down < up then some below
      else if up < down then some above
      else match tie with
        | .up => some above
        | .toEven => some (if below % 2 = 0 then below else above)

/-- The nearest decimal of a double among the multiples of `10 ^ exponent`. -/
def atExponent (tie : Tie) (d : Double) (exponent : Int) : Option Numeral :=
  let shift : Int := (d.scale : Int) - 1076
  let i := (Interval.ofDouble d).scaled (Nat.pow 2 shift.toNat * Nat.pow 10 (-exponent).toNat)
  let step := Nat.pow 2 (-shift).toNat * Nat.pow 10 exponent.toNat
  (nearestMultiple tie i step).map fun digits => { digits, exponent }

/-- The exponents of ten that a decimal of a double can need, the largest first: from above the
order of magnitude of the double to below its last place. -/
def exponents (d : Double) : List Int :=
  let top : Int := ((d.scale : Int) - 1021) * 30103 / 100000 + 1
  (List.range 24).map fun (k : Nat) => top - (k : Int)

/-- The shortest decimal that rounds to a finite double. -/
def shortest (tie : Tie) (d : Double) : Numeral :=
  if d.magnitude = 0 then { digits := 0, exponent := 0 }
  else ((exponents d).findSome? (atExponent tie d)).getD { digits := 0, exponent := 0 }

end AppendLowering.Decimal
