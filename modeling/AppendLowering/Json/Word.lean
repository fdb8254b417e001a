import AppendLowering.Json.Basic
import AppendLowering.Text.Digits

/-!
# JSON words

A word of a JSON text is a number or one of the three named values.
-/

namespace AppendLowering.Json

/-- The parts of a number: its sign, the digits with the point left out, the power of ten that
puts the point back, and whether it is written as a whole number. -/
structure NumberParts where
  negative : Bool
  digits : Nat
  exponent : Int
  integral : Bool
  deriving DecidableEq, Repr

/-- The digits after the point, if there is one. -/
def fractionPart : List Char → Option (List Char × List Char)
  | '.' :: rest =>
      let digits := rest.takeWhile Char.isDigit
      if digits.isEmpty then none else some (digits, rest.dropWhile Char.isDigit)
  | rest => some ([], rest)

/-- The exponent that ends a number, if there is one. -/
def exponentPart : List Char → Option Int
  | [] => some 0
  | e :: rest =>
      if e = 'e' ∨ e = 'E' then
        let (negative, digits) := match rest with
          | '-' :: digits => (true, digits)
          | '+' :: digits => (false, digits)
          | digits => (false, digits)
        (Text.number? 10 digits).map fun value => if negative then -(value : Int) else (value : Int)
      else none

def NumberParts.ofWord? (word : List Char) : Option NumberParts := do
  let (negative, rest) := match word with
    | '-' :: rest => (true, rest)
    | rest => (false, rest)
  let whole := rest.takeWhile Char.isDigit
  if whole.isEmpty ∨ (1 < whole.length ∧ whole.head? = some '0') then none
  let afterWhole := rest.dropWhile Char.isDigit
  let (fraction, afterFraction) ← fractionPart afterWhole
  let exponent ← exponentPart afterFraction
  let digits ← Text.number? 10 (whole ++ fraction)
  return { negative, digits
           exponent := exponent - (fraction.length : Int)
           integral := afterWhole.isEmpty }

/-- The value of a number. Whole numbers that fit in 64 bits are kept exactly; a number too
large for a double has no value, and a negative zero is not whole. -/
def NumberParts.value? (parts : NumberParts) : Option Json :=
  if parts.integral ∧ !parts.negative ∧ parts.digits < Nat.pow 2 64 then some (.int parts.digits)
  else if parts.integral ∧ parts.negative ∧ 0 < parts.digits ∧ parts.digits ≤ Nat.pow 2 63 then
    some (.int (-(parts.digits : Int)))
  else
    let d := Double.ofDecimal parts.negative parts.digits parts.exponent
    if d.isFinite then some (.float d) else none

/-- The value of a word. -/
def ofWord? (word : List Char) : Option Json :=
  if word = ['n', 'u', 'l', 'l'] then some .null
  else if word = ['t', 'r', 'u', 'e'] then some (.bool true)
  else if word = ['f', 'a', 'l', 's', 'e'] then some (.bool false)
  else (NumberParts.ofWord? word).bind NumberParts.value?

end AppendLowering.Json
