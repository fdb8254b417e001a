import AppendLowering.Tree.Statement

/-!
# The doubles of a program

The double literals that occur in expressions and in statements.
-/

namespace AppendLowering

mutual

/-- The doubles that an expression writes out. -/
def Expr.doubles : Expr → List Double
  | .literal (.double d) _ => [d]
  | .literal .. => []
  | .var .. => []
  | .array items _ => Expr.doublesOfAll items

def Expr.doublesOfAll : List Expr → List Double
  | [] => []
  | item :: rest => item.doubles ++ Expr.doublesOfAll rest

end

/-- The doubles that an assignment writes out. -/
def Assignment.doubles (assignment : Assignment) : List Double :=
  Expr.doublesOfAll assignment.target.indexes ++ assignment.value.doubles

def Statement.doubles (statement : Statement) : List Double :=
  statement.assignments.flatMap Assignment.doubles

end AppendLowering
