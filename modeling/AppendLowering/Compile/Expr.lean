import AppendLowering.Code.CString
import AppendLowering.Compile.Operand
import AppendLowering.Tree.Display

/-!
# Compiling expressions

A literal is its own code and a variable its name. An array literal is built
item by item in a fresh temporary, the inner arrays as their turn comes.
-/

namespace AppendLowering

/-- The type and code of a literal. -/
def Literal.resolve : Literal → ResolvedType × String
  | .int value => (.int, Int.repr value.toInt)
  | .uint value => (.uint, Nat.repr value.toNat)
  | .long value => (.long, Int.repr value.toInt)
  | .ulong value => (.ulong, Nat.repr value.toNat)
  | .char code => (.char, CString.charConstant code)
  | .double value => (.double, Double.codeLayout.render value)
  | .bool value => (.bool, if value then "1" else "0")
  | .string text => (.string, CString.escape text)
  | .null => (.null, "null")

namespace Expr

variable {ρ : Type}

/-- Logs how an expression was compiled. -/
def traceResolved (expr : Expr) (value : Resolved) : CompileM ρ Unit :=
  CompileM.record (.trace .resolver
    (expr.display ++ " -> " ++ value.type.display ++ " `" ++ value.code ++ "`"))

mutual

/-- Compiles an expression. -/
def compile : Expr → CompileM ρ Resolved
  | .literal value span => do
      let (type, code) := value.resolve
      let resolved : Resolved := { type, code, span }
      traceResolved (.literal value span) resolved
      return resolved
  | .var name span => do
      let v ← CompileM.readVariable name span
      let resolved : Resolved := { type := .var, code := v.name, span }
      traceResolved (.var name span) resolved
      return resolved
  | .array items span => do
      let holder ← CompileM.initTemporary span
      CompileM.write (.initArray holder items.length)
      compileItems holder items
      let resolved : Resolved := { type := .array, code := holder, span }
      traceResolved (.array items span) resolved
      return resolved

/-- Compiles the items of an array and appends each of them to the array in `holder`. -/
def compileItems (holder : String) : List Expr → CompileM ρ Unit
  | [] => pure ()
  | item :: rest => do
      let value ← compile item
      let operand ← CompileM.reading value.operand
      CompileM.write (.push holder operand)
      compileItems holder rest

end

end Expr

end AppendLowering
