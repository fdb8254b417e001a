import AppendLowering.Tree.Expr

/-!
# Statements

An assignment appends a value to an array that is reached from a container
through a chain of indexes: `target[i1][i2][] = value`. A statement is a list
of such assignments.
-/

namespace AppendLowering

/-- What the chain of indexes starts from. -/
inductive Container where
  | var (name : String)
  | property (object field : String)
  | staticProperty (classEntry field : String)
  deriving DecidableEq, Repr

/-- Where an assignment appends. -/
structure Target where
  container : Container
  indexes : List Expr
  deriving Repr

structure Assignment where
  target : Target
  value : Expr
  span : Span
  deriving Repr

structure Statement where
  assignments : List Assignment
  span : Span
  deriving Repr

end AppendLowering
