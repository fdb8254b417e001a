import AppendLowering.Code.Buffer
import AppendLowering.Code.Line
import AppendLowering.Config.Basic
import AppendLowering.Diagnostic.Basic
import AppendLowering.Symbol.Table

/-!
# Compilation contexts

The context of a function holds its symbols, the code emitted so far and the
headers that this code needs. A mark remembers all three, so that a rejected
statement can be undone.
-/

namespace AppendLowering

/-- The ways in which compiling a statement can end early: the statement is rejected, or the
compiler itself fails. -/
inductive Failure where
  | rejected (diagnostic : Diagnostic)
  | fault (fault : Fault)
  deriving DecidableEq, Repr

structure Context where
  symbols : SymbolTable
  code : CodeBuffer
  headers : Headers
  config : Config
  deriving DecidableEq, Repr

namespace Context

/-- A context in which nothing has been emitted; the configured headers come first. -/
def ofSymbols (config : Config) (symbols : SymbolTable) : Context :=
  { symbols, config
    code := .empty
    headers := .ofList config.codegen.extraHeaders }

/-- The variable with a name, which `span` mentions. -/
def getVariable (context : Context) (name : String) (span : Span) : Except Failure Variable :=
  match context.symbols.lookup name with
  | .ok (some v) => .ok v
  | .ok none => .error (.rejected { cause := .undeclaredVariable name, span })
  | .error fault => .error (.fault fault)

/-- The variable with a name, which `span` reads. -/
def readVariable (context : Context) (name : String) (span : Span) : Except Failure Variable := do
  let v ← context.getVariable name span
  if v.isReadable then return v
  throw (.rejected { cause := .uninitializedRead name, span })

/-- Emits a line of code. -/
def write (context : Context) (line : Line) : Context :=
  { context with code := context.code.writeLine line.render }

/-- Declares a fresh temporary that holds a runtime value, and emits its initialization. -/
def initTemporary (context : Context) (span : Span) : String × Context :=
  let (temporary, symbols) := context.symbols.freshTemporary .dynamic span
  (temporary.name, { context with symbols }.write (.fresh temporary.name))

/-- Emits a call, with the header that declares its function. -/
def writeCall (context : Context) (call : RuntimeCall) : Context :=
  { context with headers := context.headers.add call.container.header }.write (.call call)

/-- How far a context had grown. -/
structure Mark where
  symbols : SymbolTable.Mark
  code : Nat
  headers : Nat
  deriving DecidableEq, Repr

def mark (context : Context) : Mark :=
  { symbols := context.symbols.mark
    code := context.code.mark
    headers := context.headers.length }

/-- Undoes what was declared, emitted and included after a mark. -/
def rollback (context : Context) (mark : Mark) : Except Fault Context := do
  let code ← context.code.rollback mark.code
  return { context with
    code
    symbols := context.symbols.rollback mark.symbols
    headers := context.headers.take mark.headers }

/-- The finished code: the headers, an empty line, and the lines emitted. -/
def emit (context : Context) : String :=
  let headers := context.headers.emit
  if headers.isEmpty then context.code.text else headers ++ "\n" ++ context.code.text

end Context

end AppendLowering
