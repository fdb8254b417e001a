import AppendLowering.Diagnostic.Basic
import AppendLowering.Source.Map
import AppendLowering.Text.Lines
import AppendLowering.Text.Style

/-!
# Reports

A report is what the user sees of a diagnostic: a headline, the source line
with a run of carets under the place, labels and notes. Places outside the
source map have a headline and notes only.
-/

namespace AppendLowering

inductive Severity where
  | info
  | warning
  | error
  | hint
  deriving DecidableEq, Repr

namespace Severity

def word : Severity → String
  | .info => "Info"
  | .warning => "Warning"
  | .error => "Error"
  | .hint => "Hint"

def colour : Severity → Text.Colour
  | .info => .blue
  | .warning => .yellow
  | .error => .red
  | .hint => .cyan

end Severity

/-- A message for the user about a place. -/
structure Report where
  severity : Severity
  code : String
  message : String
  span : Span
  labels : List String
  notes : List String
  deriving DecidableEq, Repr

namespace Report

def ofDiagnostic (d : Diagnostic) : Report :=
  { severity := .error
    code := d.cause.code
    message := d.message
    span := d.span
    labels := d.cause.labels
    notes := d.cause.notes }

def isError (report : Report) : Bool := report.severity == .error

/-- The number of carets: the columns up to the end of the span on its own line, or the bytes
of the line after the first column when the span goes on; always one at least. -/
def caretCount (line : List Char) (start stop : Nat × Nat) : Nat :=
  if start.1 = stop.1 then max 1 (stop.2 - start.2)
  else max 1 (Text.byteLength line - start.2)

section

variable (paint : Text.Paint)

/-- A text of the margin. -/
def margin (text : String) : String := paint (.boldIn .blue) text

/-- The bar between the margin and the source text. -/
def bar : String := margin paint (Text.padRight 3 "|")

def headline (report : Report) : String :=
  let style := Text.Style.boldIn report.severity.colour
  paint style report.severity.word ++ "[" ++ paint style report.code ++ "]: " ++
    paint .bold report.message ++ "\n"

/-- The path, line and column of the place. -/
def location (path : String) (start : Nat × Nat) : String :=
  "  " ++ margin paint "-->" ++ " " ++ paint .bold path ++ ":" ++
    paint .bold (Nat.repr start.1) ++ ":" ++ paint .bold (Nat.repr start.2) ++ "\n"

/-- The source line with its number, and the carets below it. -/
def excerpt (line : List Char) (start stop : Nat × Nat) : String :=
  let carets := String.ofList (List.replicate (caretCount line start stop) '^')
  margin paint (Text.padRight 3 (Nat.repr start.1)) ++ bar paint ++
    String.ofList line ++ "\n" ++
    "   " ++ bar paint ++ String.ofList (List.replicate (start.2 - 1) ' ') ++
    paint (.boldIn .red) carets ++ "\n"

/-- The part of a report that shows the place in a file. -/
def body (report : Report) (file : SourceFile) : Except Fault String := do
  let start := Prod.map UInt32.toNat UInt32.toNat (← file.lineCol report.span.start)
  let stop := Prod.map UInt32.toNat UInt32.toNat (← file.lineCol report.span.stop)
  let shown := match (Text.lines file.text.toList)[start.1 - 1]? with
    | some line => excerpt paint line start stop
    | none => ""
  let label (text : String) : String :=
    "  " ++ paint (.boldIn .yellow) "label:" ++ " " ++ text ++ "\n"
  return location paint file.path start ++ "   " ++ bar paint ++ "\n" ++ shown ++
    String.join (report.labels.map label)

/-- The text of a report. -/
def render (map : SourceMap) (report : Report) : Except Fault String := do
  let place ←
    if map.contains report.span.file then
      report.body paint (← map.get report.span.file)
    else
      pure ""
  let note (text : String) : String :=
    "  " ++ paint (.boldIn .cyan) "note:" ++ " " ++ text ++ "\n"
  return headline paint report ++ place ++ String.join (report.notes.map note) ++ "\n"

end

end Report

end AppendLowering
