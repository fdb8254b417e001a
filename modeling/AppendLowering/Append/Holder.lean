import AppendLowering.Compile.Operand

/-!
# Holders of assigned values

The runtime takes the appended value by address, so it must be held by a
runtime value. Arrays and dynamic variables are; other values are put into a
fresh temporary.
-/

namespace AppendLowering

variable {ρ : Type}

/-- Puts a compiled value into a runtime value and returns the name of that. -/
def Resolved.hold (value : Resolved) : CompileM ρ String := do
  match ← CompileM.reading value.operand with
  | .held name => return name
  | .immediate immediate =>
      let holder ← CompileM.initTemporary value.span
      unless value.type == .string do
        CompileM.record (.detail ("boxing " ++ value.type.display ++ " value into " ++ holder))
      CompileM.write (.store holder immediate)
      return holder

/-- Compiles an assigned value and returns the name of what holds it. -/
def holdValue (resolver : Resolver ρ) (value : Expr) : CompileM ρ String := do
  (← resolver value).hold

end AppendLowering
