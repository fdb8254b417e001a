/-!
# Double precision numbers

A double is its 64 bits. Its value is read off them as an integer times a
power of two, and a fraction is rounded to the nearest double in exact
arithmetic, a half going to the even neighbour.
-/

namespace AppendLowering

/-- A double precision number, as its bits. -/
structure Double where
  bits : UInt64
  deriving DecidableEq, Repr, Inhabited

namespace Double

def isNegative (d : Double) : Bool := Nat.pow 2 63 ≤ d.bits.toNat

/-- The bits without the sign. -/
def magnitude (d : Double) : Nat := d.bits.toNat % Nat.pow 2 63

/-- The magnitude of the infinities; those of the finite numbers are smaller. -/
def infiniteMagnitude : Nat := 2047 * Nat.pow 2 52

def isFinite (d : Double) : Bool := d.magnitude < infiniteMagnitude

def isNaN (d : Double) : Bool := infiniteMagnitude < d.magnitude

def ofMagnitude (negative : Bool) (magnitude : Nat) : Double :=
  ⟨UInt64.ofNat (if negative then magnitude + Nat.pow 2 63 else magnitude)⟩

/-- The integer part `m` of a finite magnitude `m * 2 ^ (e - 1074)`. -/
def significand (d : Double) : Nat :=
  if d.magnitude < Nat.pow 2 52 then d.magnitude else Nat.pow 2 52 + d.magnitude % Nat.pow 2 52

/-- The exponent `e` of a finite magnitude `m * 2 ^ (e - 1074)`. -/
def scale (d : Double) : Nat := d.magnitude / Nat.pow 2 52 - 1

/-- The quotient rounded to the nearest integer, a half to the even one. -/
def roundDiv (num den : Nat) : Nat :=
  let quotient := num / den
  let twice := 2 * (num % den)
  if den < twice ∨ (twice = den ∧ quotient % 2 = 1) then quotient + 1 else quotient

/-- The greatest `k` with `2 ^ k ≤ num / den`, for positive arguments. -/
def log2Ratio (num den : Nat) : Int :=
  let guess : Int := (Nat.log2 num : Int) - (Nat.log2 den : Int)
  if den * Nat.pow 2 guess.toNat ≤ num * Nat.pow 2 (-guess).toNat then guess else guess - 1

/-- The magnitude nearest to a positive fraction; too large a fraction gives the infinite one. -/
def nearestMagnitude (num den : Nat) : Nat :=
  if num = 0 then 0
  else
    let e : Nat := (log2Ratio num den - 52 + 1074).toNat
    let shift : Int := (e : Int) - 1074
    let m := roundDiv (num * Nat.pow 2 (-shift).toNat) (den * Nat.pow 2 shift.toNat)
    min infiniteMagnitude (e * Nat.pow 2 52 + m)

/-- The double nearest to `digits * 10 ^ exponent`. Exponents far outside the range
are answered without computing the power. -/
def ofDecimal (negative : Bool) (digits : Nat) (exponent : Int) : Double :=
  let places : Int := exponent + ((Nat.log2 digits / 3 : Nat) : Int)
  ofMagnitude negative <|
    if digits = 0 ∨ places < -350 then 0
    else if 350 < exponent then infiniteMagnitude
    else nearestMagnitude (digits * Nat.pow 10 exponent.toNat) (Nat.pow 10 (-exponent).toNat)

end Double

end AppendLowering
