import AppendLowering.Source.Span
import AppendLowering.Symbol.Type

/-!
# Diagnostics

A diagnostic says why a statement was rejected and where. The cause fixes the
code, the message, and what is added to explain it.
-/

namespace AppendLowering

namespace Diagnostic

/-- Why a statement is rejected. -/
inductive Cause where
  /-- The target of an assignment has no value yet. -/
  | uninitializedTarget (name : String)
  /-- The target of an assignment is declared as something else. -/
  | invalidTargetType (name : String) (type : DataType) (use : String)
  /-- An expression of this type is no index. -/
  | unsupportedIndex (expr : String) (type : ResolvedType)
  /-- A variable of this type is no index. -/
  | unsupportedVariableIndex (name : String) (type : DataType)
  | undeclaredVariable (name : String)
  | uninitializedRead (name : String)
  deriving DecidableEq, Repr

namespace Cause

def message : Cause → String
  | .uninitializedTarget name =>
      "Cannot mutate variable '" ++ name ++ "' because it is not initialized"
  | .invalidTargetType name type use =>
      "Attempt to use variable '" ++ name ++ "' of type " ++ type.display ++ " as " ++ use
  | .unsupportedIndex expr type =>
      "Expression '" ++ expr ++ "' of type " ++ type.display ++
        " cannot be used as index without cast"
  | .unsupportedVariableIndex name type =>
      "Variable '" ++ name ++ "' of type " ++ type.display ++ " cannot be used as array index"
  | .undeclaredVariable name => "Undeclared variable '" ++ name ++ "'"
  | .uninitializedRead name =>
      "Cannot read variable '" ++ name ++ "' because it is not initialized"

def code : Cause → String
  | .uninitializedTarget .. => "Z0001"
  | .invalidTargetType .. => "Z0002"
  | .unsupportedIndex .. => "Z0003"
  | .unsupportedVariableIndex .. => "Z0004"
  | .undeclaredVariable .. => "Z0005"
  | .uninitializedRead .. => "Z0006"

/-- Remarks on the marked place. -/
def labels : Cause → List String
  | .invalidTargetType name type _ => ["'" ++ name ++ "' is declared as " ++ type.display]
  | .unsupportedVariableIndex name type => ["'" ++ name ++ "' is declared as " ++ type.display]
  | _ => []

/-- Advice that belongs to no place. -/
def notes : Cause → List String
  | .unsupportedIndex .. =>
      ["indexes must be int, uint, long, ulong, string or a variable holding one of them"]
  | .unsupportedVariableIndex .. =>
      ["cast the variable to long or string before using it as an index"]
  | _ => []

end Cause

end Diagnostic

/-- Why a statement is rejected, and the place that is to blame. -/
structure Diagnostic where
  cause : Diagnostic.Cause
  span : Span
  deriving DecidableEq, Repr

namespace Diagnostic

def message (d : Diagnostic) : String := d.cause.message

/-- The diagnostic with a place, if it has none of its own. -/
def orSpan (d : Diagnostic) (fallback : Span) : Diagnostic :=
  { d with span := d.span.orElse fallback }

end Diagnostic

end AppendLowering
