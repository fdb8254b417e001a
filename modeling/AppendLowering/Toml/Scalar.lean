import AppendLowering.Text.Digits
import AppendLowering.Toml.Basic

/-!
# Numbers, booleans and dates in TOML

These values are runs of letters, digits and a few signs. A run is one of them
as a whole, or nothing.
-/

namespace AppendLowering.Toml

/-- The digits of a run, in which single underscores may stand between two digits. -/
def digits? (base : Nat) : List Char → Option (List Nat)
  | [] => none
  | [c] => (Text.digitIn? base c).map fun digit => [digit]
  | c :: '_' :: rest => do
      let digit ← Text.digitIn? base c
      return digit :: (← digits? base rest)
  | c :: rest => do
      let digit ← Text.digitIn? base c
      return digit :: (← digits? base rest)

/-- The digits of a decimal number that does not begin with a superfluous zero. -/
def wholeDigits? (run : List Char) : Option (List Nat) := do
  let digits ← digits? 10 run
  if 1 < digits.length ∧ digits.head? = some 0 then none
  return digits

/-- The sign of a run, whether it is negative, and what follows. -/
def splitSign : List Char → Bool × List Char
  | '-' :: rest => (true, rest)
  | '+' :: rest => (false, rest)
  | rest => (false, rest)

/-- A whole number of 64 bits; other bases have no sign. -/
def integer? (run : List Char) : Option Int := do
  let value : Int ← match run with
    | '0' :: 'x' :: rest => (digits? 16 rest).map fun digits => (Text.ofDigits 16 digits : Int)
    | '0' :: 'o' :: rest => (digits? 8 rest).map fun digits => (Text.ofDigits 8 digits : Int)
    | '0' :: 'b' :: rest => (digits? 2 rest).map fun digits => (Text.ofDigits 2 digits : Int)
    | run => do
        let (negative, rest) := splitSign run
        let value : Int := Text.ofDigits 10 (← wholeDigits? rest)
        pure (if negative then -value else value)
  if value < -9223372036854775808 ∨ 9223372036854775807 < value then none
  return value

def isNumberPart (c : Char) : Bool := c.isDigit || c == '_'

/-- The digits after the point, which are missing only if an exponent follows. -/
def fraction? : List Char → Option (List Nat × List Char)
  | '.' :: rest => do
      let digits ← digits? 10 (rest.takeWhile isNumberPart)
      return (digits, rest.dropWhile isNumberPart)
  | [] => none
  | rest => some ([], rest)

def exponent? : List Char → Option Int
  | [] => some 0
  | e :: rest => do
      if e ≠ 'e' ∧ e ≠ 'E' then none
      let (negative, rest) := splitSign rest
      let value : Int := Text.ofDigits 10 (← digits? 10 rest)
      return if negative then -value else value

/-- A number with a fraction or an exponent. One that is too large is none, unless it is
negative, when it is the negative infinity. -/
def decimal? (run : List Char) : Option Double := do
  let (negative, rest) := splitSign run
  let whole ← wholeDigits? (rest.takeWhile isNumberPart)
  let (fraction, rest) ← fraction? (rest.dropWhile isNumberPart)
  let exponent ← exponent? rest
  let d := Double.ofDecimal negative (Text.ofDigits 10 (whole ++ fraction))
    (exponent - (fraction.length : Int))
  if d.isFinite ∨ negative then return d else none

/-- Infinity and not-a-number, with a sign or without. -/
def special? (run : List Char) : Option Double :=
  let (negative, rest) := splitSign run
  if rest = ['i', 'n', 'f'] then some (.ofMagnitude negative Double.infiniteMagnitude)
  else if rest = ['n', 'a', 'n'] then
    some (.ofMagnitude negative (Double.infiniteMagnitude + Nat.pow 2 51))
  else none

/-- A number of two digits in a range. -/
def twoDigits? (low high : Nat) : List Char → Option (Nat × List Char)
  | a :: b :: rest => do
      let value := 10 * (← Text.digitIn? 10 a) + (← Text.digitIn? 10 b)
      if value < low ∨ high < value then none
      return (value, rest)
  | _ => none

def expect? (c : Char) : List Char → Option (List Char)
  | d :: rest => if c = d then some rest else none
  | [] => none

def daysIn (year month : Nat) : Nat :=
  if month = 2 then
    if year % 4 = 0 ∧ (year % 100 ≠ 0 ∨ year % 400 = 0) then 29 else 28
  else if month = 4 ∨ month = 6 ∨ month = 9 ∨ month = 11 then 30
  else 31

/-- What follows a date at the start of a run. -/
def afterDate? (run : List Char) : Option (List Char) := do
  let (century, rest) ← twoDigits? 0 99 run
  let (years, rest) ← twoDigits? 0 99 rest
  let (month, rest) ← twoDigits? 1 12 (← expect? '-' rest)
  let (day, rest) ← twoDigits? 1 31 (← expect? '-' rest)
  if daysIn (100 * century + years) month < day then none
  return rest

/-- What follows a time of day at the start of a run. -/
def afterTime? (run : List Char) : Option (List Char) := do
  let (_, rest) ← twoDigits? 0 23 run
  let (_, rest) ← twoDigits? 0 59 (← expect? ':' rest)
  let (_, rest) ← twoDigits? 0 60 (← expect? ':' rest)
  match rest with
  | '.' :: rest =>
      if (rest.takeWhile Char.isDigit).isEmpty then none else return rest.dropWhile Char.isDigit
  | rest => return rest

/-- Whether a run is the offset of a time zone. -/
def isOffset : List Char → Bool
  | ['Z'] => true
  | ['z'] => true
  | sign :: rest =>
      let minutes := do
        let (_, rest) ← twoDigits? 0 23 rest
        let (_, rest) ← twoDigits? 0 59 (← expect? ':' rest)
        return rest
      (sign == '+' || sign == '-') && minutes == some []
  | [] => false

/-- Whether a run is a time, with an offset or without. -/
def isZonedTime (run : List Char) : Bool :=
  match afterTime? run with
  | none => false
  | some rest => rest.isEmpty || isOffset rest

/-- Whether a run is a date, a time, or a date and a time with a letter between them. -/
def isMoment (run : List Char) : Bool :=
  match afterDate? run with
  | some [] => true
  | some (delimiter :: rest) => (delimiter == 'T' || delimiter == 't') && isZonedTime rest
  | none => afterTime? run == some []

/-- The value of a run. -/
def ofRun? (run : List Char) : Option Toml :=
  if run = ['t', 'r', 'u', 'e'] then some (.bool true)
  else if run = ['f', 'a', 'l', 's', 'e'] then some (.bool false)
  else if isMoment run then some .moment
  else
    (integer? run).map .integer <|> (decimal? run).map .float <|> (special? run).map .float

def isRunChar (c : Char) : Bool :=
  c.isAlphanum || c == '+' || c == '-' || c == '_' || c == '.' || c == ':'

/-- Reads a number, boolean or date. A time may follow its date after a blank. -/
def scalar? (text : List Char) : Option (Toml × List Char) := do
  let run := text.takeWhile isRunChar
  let rest := text.dropWhile isRunChar
  match rest with
  | ' ' :: a :: after =>
      if afterDate? run = some [] ∧ a.isDigit then
        if isZonedTime ((a :: after).takeWhile isRunChar) then
          return (.moment, (a :: after).dropWhile isRunChar)
        else none
      else return (← ofRun? run, rest)
  | _ => return (← ofRun? run, rest)

end AppendLowering.Toml
