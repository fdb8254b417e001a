import AppendLowering.Decimal.Shortest

/-!
# Layout of decimals

A layout fixes how the digits of a double are written: which magnitudes are
written with a decimal point alone, how an exponent is signed, and the texts
of the numbers that have no digits.
-/

namespace AppendLowering.Decimal

/-- The choices of a number format. The exponents are those of the leading digit. -/
structure Layout where
  leastPositional : Int
  greatestPositional : Int
  /-- Whether an exponent that is not negative has a plus sign. -/
  plusSign : Bool
  tie : Tie
  notANumber : String
  infinity : String
  deriving DecidableEq, Repr

/-- The digits with a point after the units, which at least one digit follows. -/
def positional (digits : List Char) (leading : Int) : List Char :=
  if leading < 0 then
    ['0', '.'] ++ List.replicate ((-leading).toNat - 1) '0' ++ digits
  else
    let whole := leading.toNat + 1
    let padded := digits ++ List.replicate (whole + 1 - digits.length) '0'
    padded.take whole ++ '.' :: padded.drop whole

/-- An exponent, with a sign if it is negative or if every exponent has one. -/
def exponentText (plusSign : Bool) (exponent : Int) : List Char :=
  if plusSign ∧ 0 ≤ exponent then '+' :: (Int.repr exponent).toList
  else (Int.repr exponent).toList

/-- One digit before the point, the others after it, and the exponent. -/
def scientific (plusSign : Bool) (digits : List Char) (leading : Int) : List Char :=
  let fraction := match digits.drop 1 with
    | [] => []
    | rest => '.' :: rest
  digits.take 1 ++ fraction ++ 'e' :: exponentText plusSign leading

/-- The magnitude of a finite double. -/
def Layout.magnitude (layout : Layout) (d : Double) : List Char :=
  let decimal := shortest layout.tie d
  let digits := (Nat.repr decimal.digits).toList
  let leading : Int := decimal.exponent + ((digits.length : Nat) : Int) - 1
  if layout.leastPositional ≤ leading ∧ leading ≤ layout.greatestPositional then
    positional digits leading
  else
    scientific layout.plusSign digits leading

/-- The text of a double. -/
def Layout.render (layout : Layout) (d : Double) : String :=
  if d.isNaN then layout.notANumber
  else
    let magnitude := if d.isFinite then String.ofList (layout.magnitude d) else layout.infinity
    if d.isNegative then "-" ++ magnitude else magnitude

end AppendLowering.Decimal
