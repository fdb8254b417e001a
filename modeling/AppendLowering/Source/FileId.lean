/-!
# File ids

A file of the source map is named by a 32-bit id. The largest id belongs to no
file: positions that were never read from a source text carry it.
-/

namespace AppendLowering

/-- The id of a source file. -/
structure FileId where
  index : UInt32
  deriving DecidableEq, Repr, Inhabited

namespace FileId

/-- The id of positions that lie in no file. -/
def synthetic : FileId := ⟨4294967295⟩

/-- The id in a sentence about a position. -/
def display (file : FileId) : String :=
  "(file id: " ++ Nat.repr file.index.toNat ++ ")"

/-- The id as a bare tagged number. -/
def tag (file : FileId) : String :=
  "Id(" ++ Nat.repr file.index.toNat ++ ")"

end FileId

end AppendLowering
