/-!
# C string literals

The body of a C literal is printable ASCII. Line feeds, carriage returns, tabs,
quotes and backslashes have an escape of their own; every other byte that is
not printable is written with three octal digits, so that a following digit
cannot join it.
-/

namespace AppendLowering.CString

/-- A byte as three octal digits. -/
def octal (byte : UInt8) : List Char :=
  let digit (n : Nat) : Char := Char.ofNat (48 + n % 8)
  ['\\', digit (byte.toNat / 64), digit (byte.toNat / 8), digit byte.toNat]

def isPrintable (c : Char) : Bool := 0x20 ≤ c.toNat && c.toNat ≤ 0x7e

/-- A character in the body of a string literal. -/
def escapeChar (c : Char) : List Char :=
  match c with
  | '\n' => ['\\', 'n']
  | '\r' => ['\\', 'r']
  | '\t' => ['\\', 't']
  | '\\' => ['\\', '\\']
  | '\x22' => ['\\', '\x22']
  | c => if isPrintable c then [c] else (String.utf8EncodeChar c).flatMap octal

/-- The body of the string literal for a text. -/
def escape (text : String) : String := String.ofList (text.toList.flatMap escapeChar)

/-- The literal with its length, as the runtime takes names and keys: the body is
already escaped. -/
def sized (body : String) : String := "SL(\"" ++ body ++ "\")"

/-- The character constant of a byte. -/
def charConstant (byte : UInt8) : String :=
  let body : List Char :=
    if byte = 0x27 then ['\\', '\x27']
    else if byte = 0x22 then ['\x22']
    else if byte < 0x80 then escapeChar (Char.ofNat byte.toNat)
    else octal byte
  "'" ++ String.ofList body ++ "'"

end AppendLowering.CString
