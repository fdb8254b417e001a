import AppendLowering.Append.Lowering
import AppendLowering.Compile.Expr

/-!
# Compiling statements

A statement is compiled as a whole: if one of its assignments is rejected, none
of them is. The statements of a function are independent; those that are
rejected are reported and left out.
-/

namespace AppendLowering

variable {ρ : Type}

def compileAssignments (resolver : Resolver ρ) : List Assignment → CompileM ρ (List RuntimeCall)
  | [] => return []
  | assignment :: rest => do
      let call ← compileAssignment resolver assignment
      return call :: (← compileAssignments resolver rest)

/-- Compiles the assignments of a statement, or none of them. -/
def compileStatement (resolver : Resolver ρ) (statement : Statement) :
    CompileM ρ (List RuntimeCall) :=
  CompileM.transaction (compileAssignments resolver statement.assignments)

/-- Compiles statements in order and collects the rejections. -/
def compileEach (resolver : Resolver ρ) : List Statement → CompileM ρ (List Diagnostic)
  | [] => return []
  | statement :: rest => do
      match ← CompileM.attempt (compileStatement resolver statement) with
      | .ok calls =>
          CompileM.record (.debug ("let at " ++ statement.span.display ++ ": " ++
            Nat.repr calls.length ++ " calls"))
          compileEach resolver rest
      | .error diagnostic => return diagnostic :: (← compileEach resolver rest)

/-- Compiles the statements of a function with a resolver and returns the rejections. -/
def compileStatementsWith (resolver : Resolver ρ) (statements : List Statement) :
    CompileM ρ (List Diagnostic) := do
  CompileM.record (.phase LogEntry.phaseIndent
    ("Lowering " ++ Nat.repr statements.length ++ " statements"))
  let diagnostics ← compileEach resolver statements
  unless diagnostics.isEmpty do
    CompileM.record (.warning (Nat.repr diagnostics.length ++ " statements rejected"))
  return diagnostics

/-- Compiles the statements of a function and returns the rejections. -/
def compileStatements (statements : List Statement) : CompileM ρ (List Diagnostic) :=
  compileStatementsWith Expr.compile statements

end AppendLowering
