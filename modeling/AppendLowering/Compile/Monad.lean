import AppendLowering.Compile.Context
import AppendLowering.Log
import AppendLowering.Tree.Expr

/-!
# Compiling as an action

An action reads and changes the context, adds to the log, and ends with a
result or a failure. What it did before a failure stays done, unless it runs
as a transaction. Expressions are compiled by a resolver, which may keep a
state of its own.
-/

namespace AppendLowering

/-- What an action works on; `own` belongs to the resolver. -/
structure CompileState (ρ : Type) where
  context : Context
  log : Log
  own : ρ

/-- An action of the compiler. -/
abbrev CompileM (ρ : Type) := EStateM Failure (CompileState ρ)

/-- A compiled expression. For a string, `code` is the body of its literal; for an array or
a variable, the name of what holds it. -/
structure Resolved where
  type : ResolvedType
  code : String
  span : Span
  deriving DecidableEq, Repr

/-- Compiles expressions. -/
abbrev Resolver (ρ : Type) := Expr → CompileM ρ Resolved

namespace CompileM

variable {ρ α : Type}

/-- Reads something off the context. -/
def reading (query : Context → Except Failure α) : CompileM ρ α := fun s =>
  match query s.context with
  | .ok a => .ok a s
  | .error failure => .error failure s

/-- Changes the context. -/
def updating (change : Context → α × Context) : CompileM ρ α := fun s =>
  let (a, context) := change s.context
  .ok a { s with context }

/-- Adds an entry to the log, if the configuration lets it through. -/
def record (entry : LogEntry) : CompileM ρ Unit := fun s =>
  .ok () { s with log := s.log.record s.context.config entry }

def write (line : Line) : CompileM ρ Unit := updating fun context => ((), context.write line)

def initTemporary (span : Span) : CompileM ρ String :=
  updating fun context => context.initTemporary span

def readVariable (name : String) (span : Span) : CompileM ρ Variable :=
  reading fun context => context.readVariable name span

/-- Rejects the statement. -/
def reject (cause : Diagnostic.Cause) (span : Span) : CompileM ρ α :=
  throw (.rejected { cause, span })

/-- Gives a rejection a place, if it has none. -/
def withSpan (span : Span) (action : CompileM ρ α) : CompileM ρ α := fun s =>
  match action s with
  | .error (.rejected diagnostic) s => .error (.rejected (diagnostic.orSpan span)) s
  | result => result

/-- Logs a rejection and passes it on. -/
def onRejection (entry : Diagnostic → LogEntry) (action : CompileM ρ α) : CompileM ρ α := fun s =>
  match action s with
  | .error (.rejected diagnostic) s =>
      .error (.rejected diagnostic)
        { s with log := s.log.record s.context.config (entry diagnostic) }
  | result => result

/-- Undoes what an action did to the context, if it ends in a rejection. -/
def transaction (action : CompileM ρ α) : CompileM ρ α := fun s =>
  match action s with
  | .error (.rejected diagnostic) s' =>
      match s'.context.rollback s.context.mark with
      | .ok context => .error (.rejected diagnostic) { s' with context }
      | .error fault => .error (.fault fault) s'
  | result => result

/-- Takes a rejection as a result. -/
def attempt (action : CompileM ρ α) : CompileM ρ (Except Diagnostic α) := fun s =>
  match action s with
  | .ok a s => .ok (.ok a) s
  | .error (.rejected diagnostic) s => .ok (.error diagnostic) s
  | .error (.fault fault) s => .error (.fault fault) s

end CompileM

end AppendLowering
