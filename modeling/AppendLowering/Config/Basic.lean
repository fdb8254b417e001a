import AppendLowering.Code.Header

/-!
# Configuration

What the user can choose: how much the compiler tells, and two details of the
emitted code. The functions below say which messages a configuration lets
through.
-/

namespace AppendLowering

/-- The parts of the compiler that can be traced. -/
inductive Component where
  | resolver
  | classifier
  | codegen
  deriving DecidableEq, Repr

namespace Component

def all : List Component := [.resolver, .classifier, .codegen]

def name : Component → String
  | .resolver => "resolver"
  | .classifier => "classifier"
  | .codegen => "codegen"

def ofName? (word : String) : Option Component := all.find? fun component => component.name == word

end Component

/-- How much progress is shown. -/
inductive OutputLevel where
  | quiet
  | detailed
  | verbose
  deriving DecidableEq, Repr

/-- Choices about the emitted code. -/
structure CodegenOptions where
  /-- Whether calls pass the thread context on. -/
  zts : Bool
  /-- Headers to include before those that the code needs. -/
  extraHeaders : List Header
  deriving DecidableEq, Repr

def CodegenOptions.default : CodegenOptions := { zts := false, extraHeaders := [] }

structure Config where
  debug : Bool
  traces : List Component
  quiet : Bool
  verbose : UInt8
  level : OutputLevel
  codegen : CodegenOptions
  deriving DecidableEq, Repr

namespace Config

/-- The configuration of the given choices. Silence wins over verbosity. -/
def make (debug : Bool) (traces : List Component) (quiet : Bool) (verbose : UInt8)
    (codegen : CodegenOptions) : Config :=
  { debug, traces, quiet, verbose, codegen
    level := if quiet then .quiet else if 0 < verbose then .verbose else .detailed }

/-- The verbosity that counts: none when quiet, and at least two when debugging. -/
def effectiveVerbose (config : Config) : UInt8 :=
  if config.quiet then 0
  else if config.debug ∧ config.verbose < 2 then 2
  else config.verbose

def showsPhases (config : Config) : Bool := config.level != .quiet

def showsDebug (config : Config) : Bool := 2 ≤ config.effectiveVerbose

def showsTrace (config : Config) : Bool := 3 ≤ config.effectiveVerbose

/-- Whether the work of a component is traced. -/
def tracesComponent (config : Config) (component : Component) : Bool :=
  !config.quiet && (config.debug || config.traces.contains component)

end Config

end AppendLowering
