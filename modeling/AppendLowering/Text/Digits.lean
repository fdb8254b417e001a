/-!
# Digits

Digits in a base up to sixteen, and the numbers that they write.
-/

namespace AppendLowering.Text

/-- The value of a digit; letters of either case stand for ten and more. -/
def digitIn? (base : Nat) (c : Char) : Option Nat :=
  let value : Nat :=
    if '0' ≤ c ∧ c ≤ '9' then c.toNat - 48
    else if 'a' ≤ c ∧ c ≤ 'f' then c.toNat - 87
    else if 'A' ≤ c ∧ c ≤ 'F' then c.toNat - 55
    else base
  if value < base then some value else none

/-- The number that digits write, the first of them being the most significant. -/
def ofDigits (base : Nat) (digits : List Nat) : Nat :=
  digits.foldl (fun value digit => value * base + digit) 0

/-- The number that a text writes, if it has digits only. -/
def number? (base : Nat) (text : List Char) : Option Nat := do
  if text.isEmpty then none
  return ofDigits base (← text.mapM (digitIn? base))

/-- The lower case digits of a number in base sixteen. -/
def hexDigits (n : Nat) : List Char := Nat.toDigits 16 n

end AppendLowering.Text
