/-!
# Headers

The headers that the emitted code needs, each of them once, in the order in
which they were first asked for.
-/

namespace AppendLowering

/-- A header file, included from the project or from the system. -/
structure Header where
  path : String
  quoted : Bool
  deriving DecidableEq, Repr

namespace Header

/-- A header of the runtime library. -/
def kernel (name : String) : Header := { path := "kernel/" ++ name ++ ".h", quoted := true }

/-- The line that includes a header. -/
def directive (header : Header) : String :=
  if header.quoted then "#include \"" ++ header.path ++ "\"\n"
  else "#include <" ++ header.path ++ ">\n"

end Header

/-- Headers without repetition. -/
abbrev Headers := List Header

namespace Headers

/-- Adds a header, unless it is there. -/
def add (headers : Headers) (header : Header) : Headers :=
  if header ∈ headers then headers else headers ++ [header]

/-- The headers of a list, each at its first place. -/
def ofList (headers : List Header) : Headers := headers.foldl add []

def containsPath (headers : Headers) (path : String) : Bool :=
  headers.any fun header => header.path == path

/-- The lines that include the headers. -/
def emit (headers : Headers) : String := String.join (headers.map Header.directive)

end Headers

end AppendLowering
