import AppendLowering.Source.Span
import AppendLowering.Symbol.Type

/-!
# Variables

What the compiler knows of a variable: its type, where it is kept and whether
it has a value yet.
-/

namespace AppendLowering

/-- Where a variable is kept. -/
inductive Storage where
  | localSlot
  | parameter
  | temporary
  | receiver
  deriving DecidableEq, Repr

namespace Storage

def all : List Storage := [.localSlot, .parameter, .temporary, .receiver]

/-- The word for a storage in documents. -/
def keyword : Storage → String
  | .localSlot => "local"
  | .parameter => "parameter"
  | .temporary => "temporary"
  | .receiver => "this"

def ofKeyword? (word : String) : Option Storage := all.find? fun storage => storage.keyword == word

theorem ofKeyword?_keyword (storage : Storage) :
    ofKeyword? storage.keyword = some storage := by
  cases storage <;> decide

end Storage

/-- A declared variable. -/
structure Variable where
  name : String
  type : DataType
  initialized : Bool
  storage : Storage
  span : Span
  deriving DecidableEq, Repr

namespace Variable

/-- A new variable. Parameters and the receiver come with a value. -/
def declare (name : String) (type : DataType) (storage : Storage) (span : Span) : Variable :=
  { name, type, storage, span
    initialized := storage == .parameter || storage == .receiver }

/-- Whether the variable can be read. -/
def isReadable (v : Variable) : Bool := v.initialized || v.storage == .receiver

def isTemporary (v : Variable) : Bool := v.storage == .temporary

end Variable

end AppendLowering
