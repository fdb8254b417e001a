import AppendLowering.Decimal.Layout
import AppendLowering.Json.Basic
import AppendLowering.Text.Digits

/-!
# Writing JSON

The compact text of a value: no blanks, fields in their order, and only those
characters escaped that a string may not contain.
-/

namespace AppendLowering

/-- Doubles are written out between a hundred-thousandth and ten quadrillions, a half of
the last digit going to the even one. Every exponent has a sign. -/
def Double.jsonLayout : Decimal.Layout :=
  { leastPositional := -5
    greatestPositional := 15
    plusSign := true
    tie := .toEven
    notANumber := "null"
    infinity := "null" }

namespace Json

/-- A character inside a string. -/
def escapeChar (c : Char) : List Char :=
  match c with
  | '\x22' => ['\\', '\x22']
  | '\\' => ['\\', '\\']
  | '\x08' => ['\\', 'b']
  | '\x0c' => ['\\', 'f']
  | '\n' => ['\\', 'n']
  | '\r' => ['\\', 'r']
  | '\t' => ['\\', 't']
  | c =>
      if c.toNat < 0x20 then
        let digits := Text.hexDigits c.toNat
        ['\\', 'u'] ++ List.replicate (4 - digits.length) '0' ++ digits
      else [c]

def quoted (text : String) : String :=
  "\"" ++ String.ofList (text.toList.flatMap escapeChar) ++ "\""

mutual

/-- The compact text of a value. -/
def render : Json → String
  | .null => "null"
  | .bool value => if value then "true" else "false"
  | .int value => Int.repr value
  | .float value => if value.isFinite then Double.jsonLayout.render value else "null"
  | .string text => quoted text
  | .array items => "[" ++ renderItems items ++ "]"
  | .object fields => "\x7b" ++ renderFields fields ++ "\x7d"

def renderItems : List Json → String
  | [] => ""
  | [item] => item.render
  | item :: rest => item.render ++ "," ++ renderItems rest

def renderFields : List (String × Json) → String
  | [] => ""
  | [(name, value)] => quoted name ++ ":" ++ value.render
  | (name, value) :: rest => quoted name ++ ":" ++ value.render ++ "," ++ renderFields rest

end

end Json

end AppendLowering
