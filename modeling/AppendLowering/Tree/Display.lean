import AppendLowering.Decimal.Layout
import AppendLowering.Text.Visible
import AppendLowering.Tree.Statement

/-!
# Display of expressions and targets

The text of an expression as messages quote it, close to what a programmer
would write.
-/

namespace AppendLowering

/-- Doubles are written out between a ten-thousandth and ten quadrillions, a half of the
last digit going up. Only a negative exponent has a sign. -/
def Double.codeLayout : Decimal.Layout :=
  { leastPositional := -4
    greatestPositional := 15
    plusSign := false
    tie := .up
    notANumber := "NaN"
    infinity := "inf" }

namespace Literal

/-- The Latin-1 character of a byte. -/
def latin1 (code : UInt8) : Char := Char.ofNat code.toNat

def display : Literal → String
  | .int value => Int.repr value.toInt
  | .uint value => Nat.repr value.toNat
  | .long value => Int.repr value.toInt
  | .ulong value => Nat.repr value.toNat
  | .char code => "'" ++ String.ofList (Text.visibleChar (latin1 code)) ++ "'"
  | .double value => Double.codeLayout.render value
  | .bool value => if value then "true" else "false"
  | .string text => "\"" ++ Text.visible text ++ "\""
  | .null => "null"

end Literal

mutual

def Expr.display : Expr → String
  | .literal value _ => value.display
  | .var name _ => name
  | .array items _ => "[" ++ Expr.displayItems items ++ "]"

/-- The items of an array literal, separated by commas. -/
def Expr.displayItems : List Expr → String
  | [] => ""
  | [item] => item.display
  | item :: rest => item.display ++ ", " ++ Expr.displayItems rest

end

namespace Container

def display : Container → String
  | .var name => name
  | .property object field => object ++ "->" ++ field
  | .staticProperty classEntry field => classEntry ++ "::" ++ field

end Container

/-- A target with each index in brackets and the empty brackets of the append. -/
def Target.display (target : Target) : String :=
  target.container.display ++
    String.join (target.indexes.map fun index => "[" ++ index.display ++ "]") ++ "[]"

end AppendLowering
