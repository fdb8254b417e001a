import AppendLowering.Config.Basic
import AppendLowering.Fault
import AppendLowering.Text.Style

/-!
# Log entries

The compiler reports its progress in entries of four kinds. An entry is kept
only if the configuration lets it through, and is rendered as one line. The
columns of an indentation fit into sixteen bits: whoever counts them without
that bound goes through `Log.recordPhaseAt`, which faults beyond it.
-/

namespace AppendLowering

/-- Something that the compiler reports. -/
inductive LogEntry where
  /-- A phase begins. -/
  | phase (indent : UInt16) (message : String)
  /-- A phase did not go well. -/
  | warning (message : String)
  /-- A step of one component. -/
  | trace (component : Component) (message : String)
  | debug (message : String)
  | detail (message : String)
  deriving DecidableEq, Repr

namespace LogEntry

/-- Whether a configuration lets an entry through. -/
def isEnabled (entry : LogEntry) (config : Config) : Bool :=
  match entry with
  | .phase .. => config.showsPhases
  | .warning _ => config.showsPhases
  | .trace component _ => config.tracesComponent component
  | .debug _ => config.showsDebug
  | .detail _ => config.showsTrace

/-- The indentation of phases. -/
def phaseIndent : UInt16 := 4

def render (paint : Text.Paint) : LogEntry → String
  | .phase indent message =>
      String.ofList (List.replicate indent.toNat ' ') ++
        paint (.boldIn .brightGreen) "-->" ++ " " ++ message ++ "\n"
  | .warning message => paint (.boldIn .brightYellow) "-->" ++ " " ++ message ++ "\n"
  | .trace component message => "debug[" ++ component.name ++ "]: " ++ message ++ "\n"
  | .debug message => "debug: " ++ message ++ "\n"
  | .detail message => "trace: " ++ message ++ "\n"

end LogEntry

/-- The entries that were kept, in order. -/
abbrev Log := List LogEntry

namespace Log

/-- Adds an entry if the configuration lets it through. -/
def record (log : Log) (config : Config) (entry : LogEntry) : Log :=
  if entry.isEnabled config then log ++ [entry] else log

/-- Adds the beginning of a phase at any number of columns. One that the configuration
drops is dropped before its columns are looked at. -/
def recordPhaseAt (log : Log) (config : Config) (columns : Nat) (message : String) :
    Except Fault Log :=
  if config.showsPhases then
    if h : columns < UInt16.size then
      .ok (log ++ [.phase (UInt16.ofNatLT columns h) message])
    else
      .error (.excessiveIndent columns)
  else
    .ok log

def render (paint : Text.Paint) (log : Log) : String :=
  String.join (log.map (LogEntry.render paint))

end Log

end AppendLowering
