import AppendLowering.Decimal.Double
import AppendLowering.Source.Span

/-!
# Expressions

The values that the compiled language can write: literals, references to
variables, and array literals of such values. Integers have the width that
their type promises.
-/

namespace AppendLowering

/-- A literal value. -/
inductive Literal where
  | int (value : Int64)
  | uint (value : UInt64)
  | long (value : Int64)
  | ulong (value : UInt64)
  | char (code : UInt8)
  | double (value : Double)
  | bool (value : Bool)
  | string (text : String)
  | null
  deriving DecidableEq, Repr

/-- An expression with the place where it was written. -/
inductive Expr where
  | literal (value : Literal) (span : Span)
  | var (name : String) (span : Span)
  | array (items : List Expr) (span : Span)
  deriving Repr

/-- The place where an expression was written. -/
def Expr.span : Expr → Span
  | .literal _ span => span
  | .var _ span => span
  | .array _ span => span

instance : Inhabited Expr := ⟨.literal .null .synthetic⟩

end AppendLowering
